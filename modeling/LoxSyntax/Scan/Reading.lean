/-
# LoxSyntax.Scan.Reading -- a source that can be read again and again

A reading keeps a source, the marks that the last scan of it left behind, and a reporter. A scan goes through
the source from its start, whatever was done before, and reports the faults that it finds. The reporter is kept
across scans, so each scan reports its faults anew; a reset forgets them, and leaves the marks.
-/
import LoxSyntax.Scan.Marks

namespace LoxSyntax.Scan

/-- A source with the marks of its last scan and the diagnostics held. -/
structure Reading where
  source : String
  marks : Marks
  reporter : Reporter

namespace Reading

/-- A source that has not been scanned. -/
def ofSource (source : String) (reporter : Reporter) : Reading := ⟨source, .initial, reporter⟩

/-- Scans the whole source from its start. -/
def scan (r : Reading) : Reading :=
  let (marks, reporter) := r.marks.rewind.scanFrom r.source.toList r.reporter
  { r with marks := marks.close, reporter }

/-- Forgets the diagnostics held, and leaves the marks. -/
def reset (r : Reading) : Reading := { r with reporter := r.reporter.reset }

theorem source_scan (r : Reading) : r.scan.source = r.source := rfl

/-! ## Scans and resets, one after the other -/

/-- Something that can be done with a reading. -/
inductive Action where
  | scan
  | reset
  deriving DecidableEq

/-- Does what it is told. -/
def act (r : Reading) : Action → Reading
  | .scan => r.scan
  | .reset => r.reset

/-- Does all that it is told, in order. -/
def actAll (r : Reading) (actions : List Action) : Reading := actions.foldl act r

/-- How many scans there are behind the last reset, or in all if there is none. -/
def scansSinceReset (actions : List Action) : Nat := (actions.reverse.takeWhile (· = .scan)).length

end Reading

end LoxSyntax.Scan
