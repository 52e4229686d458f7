/-
# LoxSyntax.Diagnostic.Reporter -- the diagnostics that are held, and their echo

A reporter holds the diagnostics reported since its last reset, oldest first. One that echoes also
writes each of them, when it is reported, as a line of its own.
-/
import LoxSyntax.Diagnostic.Basic

namespace LoxSyntax

/-- The diagnostics reported so far, and whether a report is written out. -/
structure Reporter where
  echoes : Bool
  held : List Diagnostic

namespace Reporter

/-- A reporter that holds nothing. -/
def empty (echoes : Bool) : Reporter := ⟨echoes, []⟩

def hadError (r : Reporter) : Bool := !r.held.isEmpty

/-- Holds one more diagnostic. -/
def report (r : Reporter) (d : Diagnostic) : Reporter := { r with held := r.held ++ [d] }

/-- Holds more diagnostics, in order. -/
def reportAll (r : Reporter) (ds : List Diagnostic) : Reporter := { r with held := r.held ++ ds }

/-- The text that reporting a diagnostic writes. -/
def echo (r : Reporter) (d : Diagnostic) : String := if r.echoes then d.text ++ "\n" else ""

/-- The diagnostics of one kind, in order. -/
def ofKind (r : Reporter) (kind : Diagnostic.Kind) : List Diagnostic :=
  r.held.filter (·.kind = kind)

/-- Forgets every diagnostic. -/
def reset (r : Reporter) : Reporter := { r with held := [] }

theorem hadError_iff (r : Reporter) : r.hadError = true ↔ r.held ≠ [] := by
  cases h : r.held <;> simp [hadError, h]

theorem reportAll_reportAll (r : Reporter) (ds es : List Diagnostic) :
    (r.reportAll ds).reportAll es = r.reportAll (ds ++ es) := by
  simp [reportAll]

end Reporter

end LoxSyntax
