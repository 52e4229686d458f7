/-
# LoxSyntax.Proofs.Session.Rows -- how many lines the listing of tokens has

The listing ends the entry of each token with a line feed, so it has a line for each token unless an entry has
a line feed of its own. Names of kinds have none, and neither have lexemes and values, but for those of
strings. The text of a string is listed twice, once in its quotes and once as the value, so what a string
spans counts twice (`newlines_display`).
-/
import LoxSyntax.Proofs.Parse.Echo
import LoxSyntax.Proofs.Session.Listing

namespace LoxSyntax

/-! ## Line feeds -/

namespace Text

theorem newlines_eq_zero_iff {text : List Char} : newlines text = 0 ↔ '\n' ∉ text := List.count_eq_zero

/-- A text that is ended by a line feed has it besides its own. -/
theorem newlines_flatMap {α : Type} (f : α → List Char) (xs : List α) :
    newlines (xs.flatMap fun x => f x ++ ['\n']) = xs.length + (xs.map fun x => newlines (f x)).sum := by
  induction xs with
  | nil => rfl
  | cons x xs ih =>
      have hend : newlines ['\n'] = 1 := rfl
      rw [List.flatMap_cons, newlines_append, newlines_append, hend, ih, List.length_cons, List.map_cons,
        List.sum_cons]
      omega

end Text

theorem Kind.newline_not_mem_name (kind : Kind) : '\n' ∉ kind.name.toList := by
  have hall : ∀ kind ∈ all, '\n' ∉ kind.name.toList := by decide
  exact hall kind kind.mem_all

/-- The number that a decimal is nearest to is displayed in one line. -/
theorem Value.newline_not_mem_display (d : Number.Decimal) : '\n' ∉ (Value.number d.toDouble).display.toList := by
  have hnumber : ¬ Number.Decimal.IsNumberChar '\n' := by
    unfold Number.Decimal.IsNumberChar
    decide
  exact not_mem_of_ofDisplay? (by decide) hnumber (readsBack_toDouble d)

namespace Token

variable {t : Token}

/-- The last part of the display of a token. -/
def shownValue (t : Token) : List Char :=
  match t.literal with
  | .nil => []
  | value => value.display.toList

theorem toList_display (t : Token) :
    t.display.toList = t.kind.name.toList ++ ' ' :: (t.lexeme.toList ++ ' ' :: t.shownValue) := by
  unfold display shownValue
  cases t.literal with
  | nil => simp
  | bool _ | number _ | text _ => simp

/-- The value of a token shows as many line feeds as its lexeme. -/
theorem IsRead.newlines_shownValue (h : t.IsRead) :
    Text.newlines t.shownValue = Text.newlines t.lexeme.toList := by
  have hlexeme : t.kind ≠ .string → Text.newlines t.lexeme.toList = 0 :=
    fun hkind => Text.newlines_eq_zero_iff.2 (h.not_mem_lexeme hkind)
  obtain ⟨p, rest, hmunch, htext, hreads⟩ := h.exists_piece
  obtain ⟨kind, lexeme, literal, line⟩ := t
  dsimp only at hlexeme htext hreads
  cases hreads with
  | mark hshape =>
      have hkind : kind ≠ .string := by
        have hmarks : ∀ entry ∈ Scan.marks, entry.2 ≠ .string := by decide
        rw [hshape] at hmunch
        exact hmarks _ (Scan.mem_marks_of_munch hmunch)
      exact (hlexeme hkind).symm
  | string _ hchars =>
      show Text.newlines (String.ofList _).toList = _
      rw [htext, Scan.Piece.text, hchars, String.toList_ofList, String.toList_ofList]
      simp [Text.newlines, Text.doubleQuote]
  | whole _ _ | fraction _ _ _ _ =>
      rw [hlexeme (by decide)]
      exact Text.newlines_eq_zero_iff.2 (Value.newline_not_mem_display _)
  | keyword _ _ | identifier _ _ =>
      refine (hlexeme ?_).symm
      intro hkind
      cases hkind

/-- What a lexeme spans counts twice in the listing. -/
theorem newlines_display {source : String} (h : t ∈ Scan.tokens source) :
    Text.newlines t.display.toList = 2 * Text.newlines t.lexeme.toList := by
  have hname : Text.newlines t.kind.name.toList = 0 := Text.newlines_eq_zero_iff.2 t.kind.newline_not_mem_name
  have hvalue : Text.newlines t.shownValue = Text.newlines t.lexeme.toList := by
    rcases List.mem_append.1 h with hbody | hlast
    · exact IsRead.newlines_shownValue ⟨source, t, hbody, rfl⟩
    · obtain rfl := List.mem_singleton.1 hlast
      rfl
  have hspace : Text.newlines [' '] = 0 := rfl
  rw [toList_display, ← List.singleton_append, ← List.singleton_append (l := t.shownValue)]
  simp only [Text.newlines_append, hname, hspace, hvalue]
  omega

/-- The token stands on more than one line. -/
def Spans (t : Token) : Prop := '\n' ∈ t.lexeme.toList

theorem newline_mem_display_iff {source : String} (h : t ∈ Scan.tokens source) :
    '\n' ∈ t.display.toList ↔ t.Spans := by
  unfold Spans
  rw [← not_iff_not, ← Text.newlines_eq_zero_iff, ← Text.newlines_eq_zero_iff, newlines_display h]
  omega

end Token

namespace Session

theorem toList_outOf_run_tokens (held : List Diagnostic) (source : String) :
    (Event.outOf (run ⟨.tokens, held⟩ source).events).toList =
      (Scan.tokens source).flatMap fun t => t.display.toList ++ ['\n'] := by
  have hout := (accounts_run ⟨.tokens, held⟩ source).tokens rfl
  rw [hout, toList_listing]
  congr
  funext t
  rw [Token.entry, String.toList_append]
  rfl

/-- The listing of tokens has one line for each token, with one exception. Whatever is held, the listing of a
source has a line feed for each token and two more for each line feed in a lexeme. So it has as many line feeds
as there are tokens, and its lines are the displays of the tokens in order, exactly if no token stands on more
than one line; and only a string ever does. -/
theorem listing_is_one_line_each_iff (held : List Diagnostic) (source : String) :
    let out := (Event.outOf (run ⟨.tokens, held⟩ source).events).toList
    let tokens := Scan.tokens source
    Text.newlines out = tokens.length + 2 * (tokens.map fun t => Text.newlines t.lexeme.toList).sum ∧
      (Text.newlines out = tokens.length ↔ ¬ ∃ t ∈ tokens, t.Spans) ∧
      (Text.lines out = tokens.map (·.display.toList) ↔ ¬ ∃ t ∈ tokens, t.Spans) ∧
      ∀ t ∈ tokens, t.Spans → t.kind = .string := by
  intro out tokens
  have hout : out = tokens.flatMap fun t => t.display.toList ++ ['\n'] := toList_outOf_run_tokens held source
  have hcount : Text.newlines out =
      tokens.length + 2 * (tokens.map fun t => Text.newlines t.lexeme.toList).sum := by
    have hdisplays : tokens.map (fun t => Text.newlines t.display.toList) =
        tokens.map fun t => 2 * Text.newlines t.lexeme.toList :=
      List.map_congr_left fun t ht => Token.newlines_display ht
    rw [hout, Text.newlines_flatMap, hdisplays, List.sum_map_mul_left]
  have hspans : (∀ t ∈ tokens, Text.newlines t.lexeme.toList = 0) ↔ ¬ ∃ t ∈ tokens, t.Spans := by
    simp only [Text.newlines_eq_zero_iff, Token.Spans, not_exists, not_and]
  refine ⟨hcount, ?_, ?_, ?_⟩
  · have hsum : (tokens.map fun t => Text.newlines t.lexeme.toList).sum = 0 ↔
        ∀ t ∈ tokens, Text.newlines t.lexeme.toList = 0 := by
      simp [List.sum_eq_zero_iff]
    rw [← hspans, ← hsum, hcount]
    omega
  · rw [hout, Text.lines_flatMap_iff]
    constructor
    · rintro hno ⟨t, ht, hspanning⟩
      exact hno t ht ((Token.newline_mem_display_iff ht).2 hspanning)
    · intro hnone t ht hmem
      exact hnone ⟨t, ht, (Token.newline_mem_display_iff ht).1 hmem⟩
  · intro t ht hspanning
    by_contra hkind
    exact Scan.not_mem_lexeme ht hkind hspanning

/-- A string that goes on to the next line makes four lines of two tokens. -/
theorem listing_of_string_on_two_lines :
    let source := "\"a\nb\""
    let out := Event.outOf ((fresh .tokens).run source).events
    out = "STRING \"a\nb\" a\nb\nEOF  \n" ∧ (Scan.tokens source).length = 2 ∧ Text.newlines out.toList = 4 ∧
      (Text.lines out.toList)[1]? ≠ ((Scan.tokens source)[1]?.map (·.display.toList)) := by
  decide +kernel

end Session

end LoxSyntax
