/-
# LoxSyntax.Parse.Parser -- a cursor and the reporter that its refusals go to

A parser stands at a place in a sequence and reports what it refuses. `parse` gives a tree, or gives none
and reports one diagnostic; `synchronize` moves on and reports nothing. The reporter is only written to:
where a parser goes does not depend on what is held. A parser of a source first has the faults of the
source reported.
-/
import LoxSyntax.Diagnostic.Reporter
import LoxSyntax.Parse.Cursor
import LoxSyntax.Scan.Basic

namespace LoxSyntax

/-- A place in a sequence of tokens, and where refusals are reported. -/
structure Parser where
  cursor : Cursor
  reporter : Reporter

namespace Parser

/-- A parser at the first place of a sequence. -/
def start (tokens : Sequence) (reporter : Reporter) : Parser := ⟨.start tokens, reporter⟩

/-- A parser at the first token of a source, whose faults have been reported. -/
def ofSource (source : String) (reporter : Reporter) : Parser :=
  .start (Scan.sequence source) (reporter.reportAll (Scan.diagnostics source))

/-- Reads an expression from the cursor on, or reports that there is none. -/
def parse (limit : Option Nat) (p : Parser) : Option Expr × Parser :=
  match p.cursor.parse limit with
  | (.ok e, after) => (some e, ⟨after, p.reporter⟩)
  | (.error rejection, after) => (none, ⟨after, p.reporter.report rejection.diagnostic⟩)

/-- Moves on to the next place where a statement may begin. -/
def synchronize (p : Parser) : Parser := { p with cursor := p.cursor.synchronize }

/-- Forgets the diagnostics held, and stays where it is. -/
def reset (p : Parser) : Parser := { p with reporter := p.reporter.reset }

end Parser

end LoxSyntax
