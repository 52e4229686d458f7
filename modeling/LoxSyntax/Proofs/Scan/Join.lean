/-
# LoxSyntax.Proofs.Scan.Join -- two sources with a line feed between them

What a piece is depends on the text behind it only as far as that text starts with something the piece
could have gone on with. A blank or a line feed goes on no piece but an open one, so behind a piece the
text may be cut off anywhere and go on with a BREAK instead (`Munch.cut`). A line feed is a break behind
every piece, comments of one line included, so the pieces of two sources that a line feed joins are those
of the first, the line feed, and those of the second (`pieces_join`).

Where a piece stands has no part in what it is read as: the same piece some lines further down is the
same token that many lines further down. So the second source is read as it would be by itself.
-/
import LoxSyntax.Proofs.Scan.Cover
import LoxSyntax.Scan.Filler
import Mathlib

namespace LoxSyntax

/-- A token some lines further down. -/
def Token.down (count : Nat) (t : Token) : Token := { t with line := t.line + count }

/-- A diagnostic some lines further down. -/
def Diagnostic.down (count : Nat) (d : Diagnostic) : Diagnostic := { d with line := d.line + count }

namespace Scan

open Number (isDigit)

variable {shape : Shape} {p : Piece} {ps qs : List Piece} {text before after sep rest : List Char}

/-! ## Breaks -/

/-- A text is empty or starts with a blank or a line feed. -/
def Break (text : List Char) : Prop := ∀ c ∈ text.head?, c ∈ blanks ∨ c = '\n'

theorem break_nil : Break [] := by
  intro c hc
  cases hc

theorem break_newline (rest : List Char) : Break ('\n' :: rest) := by
  intro c hc
  obtain rfl : '\n' = c := Option.some.inj hc
  exact .inr rfl

/-- No plain character starts a break. -/
theorem IsPlain.stopsAt {q : Char → Bool} (h : IsPlain q) (hsep : Break sep) : StopsAt q sep := by
  intro c hc
  refine h.noOther c ?_
  rcases hsep c hc with hblank | rfl
  · exact List.mem_cons_of_mem _ (List.mem_cons_of_mem _ (List.mem_cons_of_mem _ hblank))
  · simp

theorem isPlain_isWordChar : IsPlain isWordChar :=
  ⟨by decide, by decide, by simp [isWordChar, isLetter, isDigit, blanks, Text.doubleQuote]⟩

/-- A token has no character in it that a break starts with, unless it is a string. -/
theorem not_mem_of_readsAs {c : Char} {kind : Kind} {value : Value} (hbreak : c ∈ blanks ∨ c = '\n')
    (hmunch : Munch p.shape p.chars rest) (hreads : p.ReadsAs kind value) (hkind : kind ≠ .string) :
    c ∉ p.chars := by
  have hother : c ∈ '/' :: '\n' :: Text.doubleQuote :: blanks := by
    rcases hbreak with hblank | rfl
    · simp [hblank]
    · simp
  have hplain {q : Char → Bool} (h : IsPlain q) {cs : List Char} (hall : cs.all q = true) : c ∉ cs := by
    intro hmem
    have hno := h.noOther c hother
    rw [List.all_eq_true.1 hall c hmem] at hno
    cases hno
  cases hreads with
  | mark hshape =>
      have hmarks : ∀ entry ∈ marks, entry.1.all (fun d => decide (d ∉ '\n' :: blanks)) = true := by decide
      rw [hshape] at hmunch
      intro hmem
      have hno := List.all_eq_true.1 (hmarks _ (mem_marks_of_munch hmunch)) c hmem
      rw [decide_eq_true_eq, List.mem_cons] at hno
      exact hno hbreak.symm
  | string => exact absurd rfl hkind
  | whole _ hall => exact hplain isPlain_isDigit hall
  | fraction _ hchars hwhole hfraction =>
      have hpoint : c ≠ '.' := by
        rintro rfl
        exact absurd hother (by decide)
      rw [hchars, List.mem_append, List.mem_cons, not_or, not_or]
      exact ⟨hplain isPlain_isDigit hwhole, hpoint, hplain isPlain_isDigit hfraction⟩
  | keyword hshape | identifier hshape =>
      rw [hshape] at hmunch
      generalize p.chars = text at hmunch
      cases hmunch with
      | word hletter hall _ =>
          refine hplain isPlain_isWordChar ?_
          rw [List.all_cons, hall, isWordChar, hletter]
          rfl

/-- Cutting a text off and going on with a break keeps it from starting with a plain character. -/
theorem StopsAt.cut {q : Char → Bool} (h : StopsAt q (before ++ after)) (hsep : StopsAt q sep) :
    StopsAt q (before ++ sep) := by
  cases before with
  | nil => exact hsep
  | cons c before => exact h

theorem head?_cut {c : Char} (h : (before ++ after).head? ≠ some c) (hsep : Break sep)
    (hblank : c ∉ blanks) (hnewline : c ≠ '\n') : (before ++ sep).head? ≠ some c := by
  cases before with
  | nil =>
      intro hc
      rcases hsep c hc with hmem | rfl
      · exact hblank hmem
      · exact hnewline rfl
  | cons d before => exact h

/-- A piece with an end of its own is the same piece if the text behind it is cut off anywhere and goes on
with a break. A comment of one line goes on over blanks, so there the break must be a line feed. -/
theorem Munch.cut (h : Munch shape text (before ++ after)) (hstring : shape ≠ .openString)
    (hcomment : shape ≠ .openComment) (hsep : Break sep)
    (hline : shape = .comment → StopsAt (· ≠ '\n') sep) : Munch shape text (before ++ sep) := by
  generalize hrest : before ++ after = rest at h
  cases h with
  | single hmem => exact .single hmem
  | short hmem hno =>
      subst hrest
      exact .short hmem (head?_cut hno hsep (by decide) (by decide))
  | long hmem => exact .long hmem
  | slash hslash hstar =>
      subst hrest
      exact .slash (head?_cut hslash hsep (by decide) (by decide))
        (head?_cut hstar hsep (by decide) (by decide))
  | lineComment hno hstop =>
      subst hrest
      exact .lineComment hno (hstop.cut (hline rfl))
  | blockComment hno => exact .blockComment hno
  | openComment _ => exact absurd rfl hcomment
  | blank hmem => exact .blank hmem
  | newline => exact .newline
  | string hno => exact .string hno
  | openString _ => exact absurd rfl hstring
  | whole hne hall hstop hpoint =>
      subst hrest
      have hdigit : StopsAt isDigit sep := isPlain_isDigit.stopsAt hsep
      refine .whole hne hall (hstop.cut hdigit) ?_
      -- a point behind the digits stands before the cut, for no break starts with one
      intro tail htail
      cases before with
      | nil =>
          have hhead : '.' ∈ sep.head? := by
            rw [List.nil_append] at htail
            rw [htail]
            rfl
          rcases hsep '.' hhead with hmem | heq
          · exact absurd hmem (by decide)
          · exact absurd heq (by decide)
      | cons c before =>
          obtain ⟨rfl, rfl⟩ := List.cons.inj htail
          exact (hpoint _ rfl).cut hdigit
  | fraction hne hall hne' hall' hstop =>
      subst hrest
      exact .fraction hne hall hne' hall' (hstop.cut (isPlain_isDigit.stopsAt hsep))
  | word hletter hall hstop =>
      subst hrest
      exact .word hletter hall (hstop.cut (isPlain_isWordChar.stopsAt hsep))
  | stray hstray => exact .stray hstray

/-! ## Pieces of a joined text -/

/-- A piece goes on to the end of the text because it is never closed. -/
def Piece.IsOpen (p : Piece) : Prop := p.shape = .openString ∨ p.shape = .openComment

/-- Nothing stands behind an open piece. -/
theorem eq_nil_of_isOpen (hmunch : Munch p.shape p.chars rest) (h : p.IsOpen) : rest = [] := by
  generalize p.chars = text at hmunch
  rcases h with hshape | hshape
  · rw [hshape] at hmunch
    cases hmunch with
    | openString => rfl
  · rw [hshape] at hmunch
    cases hmunch with
    | openComment => rfl

/-- If the last piece is not open, no piece is. -/
theorem not_isOpen_of_covers (hcovers : Covers ps text) (hlast : ∀ p ∈ ps.getLast?, ¬ p.IsOpen) :
    ∀ p ∈ ps, ¬ p.IsOpen := by
  induction hcovers with
  | nil => simp
  | @cons piece ps rest hmunch hcovers ih =>
      cases ps with
      | nil =>
          intro p hp
          obtain rfl : p = piece := by simpa using hp
          exact hlast _ rfl
      | cons next ps =>
          have htail : ∀ p ∈ next :: ps, ¬ p.IsOpen := by
            refine ih ?_
            intro p hp
            exact hlast p (by simpa [List.getLast?_cons_cons] using hp)
          have hpiece : ¬ piece.IsOpen := by
            intro hopen
            have hnil := eq_nil_of_isOpen hmunch hopen
            subst hnil
            cases hcovers
          exact List.forall_mem_cons.2 ⟨hpiece, htail⟩

/-- Where no piece is open, the pieces of a text stay what they are if a line feed follows the text. -/
theorem Covers.append_newline (h : Covers ps text) (hopen : ∀ p ∈ ps, ¬ p.IsOpen)
    (h' : Covers qs ('\n' :: rest)) : Covers (ps ++ qs) (text ++ '\n' :: rest) := by
  induction h with
  | nil => exact h'
  | @cons piece ps behind hmunch _ ih =>
      obtain ⟨hpiece, htail⟩ := List.forall_mem_cons.1 hopen
      rw [List.append_assoc, List.cons_append]
      refine .cons ?_ (ih htail)
      have hmunch' : Munch piece.shape piece.chars (behind ++ []) := by rwa [List.append_nil]
      refine hmunch'.cut (fun h => hpiece (.inl h)) (fun h => hpiece (.inr h)) (break_newline rest) ?_
      rintro _ c hc
      obtain rfl : '\n' = c := Option.some.inj hc
      decide

/-- The piece that a line feed is. -/
def Piece.newline : Piece := ⟨.newline, '\n', []⟩

/-- The pieces of two texts that a line feed joins. -/
theorem pieces_join (h : ∀ p ∈ pieces text, ¬ p.IsOpen) (rest : List Char) :
    pieces (text ++ '\n' :: rest) = pieces text ++ .newline :: pieces rest := by
  have hnewline : Covers (.newline :: pieces rest) ('\n' :: rest) :=
    @Covers.cons .newline _ rest .newline (covers_pieces rest)
  exact (eq_pieces_of_covers ((covers_pieces text).append_newline h hnewline)).symm

/-! ## Pieces further down -/

theorem place_append (ps qs : List Piece) (line offset : Nat) :
    place line offset (ps ++ qs) = place line offset ps ++
      place (line + Text.newlines (ps.flatMap Piece.chars))
        (offset + (ps.flatMap Piece.chars).length) qs := by
  induction ps generalizing line offset with
  | nil => rfl
  | cons p ps ih =>
      simp only [List.cons_append, place, ih, List.flatMap_cons, Text.newlines_append,
        List.length_append, Piece.newlines, Nat.add_assoc]

/-- A piece is the same token further down, wherever it is put. -/
theorem token?_down (p : Piece) (line offset offset' count : Nat) :
    (Placed.mk p (line + count) offset').token? =
      (Placed.mk p line offset).token?.map (Token.down count) := by
  cases hshape : p.shape <;> simp [Placed.token?, hshape, Token.down, Placed.numeral]

/-- A piece is at fault in the same way further down. -/
theorem diagnostic_down (p : Piece) (line offset offset' count : Nat) :
    (Placed.mk p (line + count) offset').fault?.map Fault.diagnostic =
      ((Placed.mk p line offset).fault?.map Fault.diagnostic).map (Diagnostic.down count) := by
  cases hshape : p.shape with
  | openString =>
      simp only [Placed.fault?, hshape, Option.map_some, Fault.diagnostic, Diagnostic.lexicalError,
        Diagnostic.down, Fault.line, Fault.message, Fault.code]
      congr 2
      push_cast
      omega
  | _ => simp [Placed.fault?, hshape, Fault.diagnostic, Diagnostic.lexicalError, Diagnostic.down,
      Fault.line, Fault.message, Fault.code]

/-- The tokens of pieces further down are their tokens, further down. -/
theorem tokens_down (ps : List Piece) (line offset offset' count : Nat) :
    (place (line + count) offset' ps).filterMap Placed.token? =
      ((place line offset ps).filterMap Placed.token?).map (Token.down count) := by
  induction ps generalizing line offset offset' with
  | nil => rfl
  | cons p ps ih =>
      have hnext := ih (line + p.newlines) (offset + p.chars.length) (offset' + p.chars.length)
      rw [Nat.add_right_comm] at hnext
      simp only [place, List.filterMap_cons, token?_down p line offset offset' count, hnext]
      cases (Placed.mk p line offset).token? <;> rfl

/-- The diagnostics of pieces further down are their diagnostics, further down. -/
theorem diagnostics_down (ps : List Piece) (line offset offset' count : Nat) :
    ((place (line + count) offset' ps).filterMap Placed.fault?).map Fault.diagnostic =
      (((place line offset ps).filterMap Placed.fault?).map Fault.diagnostic).map
        (Diagnostic.down count) := by
  induction ps generalizing line offset offset' with
  | nil => rfl
  | cons p ps ih =>
      have hnext := ih (line + p.newlines) (offset + p.chars.length) (offset' + p.chars.length)
      rw [Nat.add_right_comm] at hnext
      have hfirst := diagnostic_down p line offset offset' count
      simp only [place, List.filterMap_cons]
      cases hhere : (Placed.mk p line offset).fault? with
      | none =>
          rw [hhere] at hfirst
          rw [Option.map_eq_none_iff.1 hfirst]
          exact hnext
      | some fault =>
          rw [hhere] at hfirst
          obtain ⟨fault', hfault', hdown⟩ := Option.map_eq_some_iff.1 hfirst
          rw [hfault']
          simp only [List.map_cons, hdown, hnext]

/-! ## Two sources -/

theorem newlines_newline (rest : List Char) : Text.newlines ('\n' :: rest) = Text.newlines rest + 1 := by
  simp [Text.newlines]

/-- The pieces of a text, where they stand, from a line on. -/
theorem placed_join (h : ∀ p ∈ pieces text, ¬ p.IsOpen) (rest : List Char) :
    place 1 0 (pieces (text ++ '\n' :: rest)) =
      place 1 0 (pieces text) ++ ⟨.newline, 1 + Text.newlines text, text.length⟩ ::
        place (1 + (1 + Text.newlines text)) (text.length + 1) (pieces rest) := by
  rw [pieces_join h, place_append, flatten_pieces, place, Nat.zero_add]
  have hline : 1 + Text.newlines text + Piece.newline.newlines = 1 + (1 + Text.newlines text) := by
    have hone : Piece.newline.newlines = 1 := newlines_newline []
    omega
  rw [hline]
  rfl

/-- Scanning is compositional at line feeds. Where the first of two sources leaves no string and no
comment open, the two joined by a line feed have the tokens of the first without its end of the input,
and then those of the second, further down by the lines of the first; and so with the diagnostics. -/
theorem scan_join (a b : String) (h : ¬ EndsOpen a) :
    tokens (a ++ "\n" ++ b) =
      (tokens a).dropLast ++ (tokens b).map (Token.down (1 + Text.newlines a.toList)) ∧
    diagnostics (a ++ "\n" ++ b) =
      diagnostics a ++ (diagnostics b).map (Diagnostic.down (1 + Text.newlines a.toList)) := by
  have hopen : ∀ p ∈ pieces a.toList, ¬ p.IsOpen :=
    not_isOpen_of_covers (covers_pieces a.toList) fun p hp hopen => h ⟨p, hp, hopen⟩
  have hlist : (a ++ "\n" ++ b).toList = a.toList ++ '\n' :: b.toList := by simp
  have hplaced := placed_join hopen b.toList
  have hlast : lastLine (a ++ "\n" ++ b) = lastLine b + (1 + Text.newlines a.toList) := by
    simp only [lastLine, hlist, Text.newlines_append, newlines_newline]
    omega
  constructor
  · simp only [tokens, sequence, Sequence.toList, List.dropLast_concat, placed, hlist, hplaced, hlast,
      List.filterMap_append, List.map_append]
    have hnone : (Placed.mk .newline (1 + Text.newlines a.toList) a.toList.length).token? = none := rfl
    rw [List.filterMap_cons_none hnone, tokens_down _ 1 0, List.append_assoc]
    rfl
  · simp only [diagnostics, faults, placed, hlist, hplaced, List.filterMap_append, List.map_append]
    have hnone : (Placed.mk .newline (1 + Text.newlines a.toList) a.toList.length).fault? = none := rfl
    rw [List.filterMap_cons_none hnone, diagnostics_down _ 1 0]

/-- A quote in a comment opens no string, so what is at fault on the next line is reported there. -/
theorem fault_behind_quote_in_comment :
    let a := String.ofList ['/', '/', Text.doubleQuote]
    let b := String.ofList ['@']
    ¬ EndsOpen a ∧ tokens (a ++ "\n" ++ b) = [.endOfInput 2] ∧
      diagnostics (a ++ "\n" ++ b) =
        [⟨.lexical, 2, "", "Unexpected character.", some "L001"⟩] := by
  intro a b
  have hpieces : pieces a.toList = [⟨.comment, '/', ['/', Text.doubleQuote]⟩] := by cbv
  have hopen : ¬ EndsOpen a := by
    rintro ⟨p, hp, hopen⟩
    rw [hpieces] at hp
    obtain rfl := Option.some.inj hp
    rcases hopen with hshape | hshape <;> cases hshape
  obtain ⟨htokens, hdiagnostics⟩ := scan_join a b hopen
  exact ⟨hopen, htokens.trans (by cbv), hdiagnostics.trans (by cbv)⟩

end Scan

end LoxSyntax
