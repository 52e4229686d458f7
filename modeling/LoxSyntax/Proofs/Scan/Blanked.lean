/-
# LoxSyntax.Proofs.Scan.Blanked -- what is at fault is read over like blanks

A source is BLANKED by putting a space for each character of the pieces at fault, line feeds apart. A space
goes on no piece, so the pieces before it stay what they are (`Munch.blanked`); and where a piece at fault
stood, there are now blanks and line feeds, one for each of its characters (`separators`). So nothing is at
fault any more, and each token stands as far down as it did: the tokens of the source are the same ones, on
the same lines (`sequence_blanked`).

A parser sees the tokens only. It takes the same course over both sources, and what it reports comes behind
the faults of the one and alone for the other (`parse_blanked`).
-/
import LoxSyntax.Proofs.Scan.Layout
import LoxSyntax.Parse.Parser

namespace LoxSyntax

namespace Scan

open Number (isDigit)

variable {shape : Shape} {p : Piece} {ps : List Piece} {text text' rest rest' : List Char}

/-! ## Blanks in a text -/

/-- Spaces stand in a text for some of its characters, but for no line feed. -/
def BlankedTo (text text' : List Char) : Prop :=
  List.Forall₂ (fun c d => d = c ∨ (d = ' ' ∧ c ≠ '\n')) text text'

theorem BlankedTo.refl (text : List Char) : BlankedTo text text :=
  List.forall₂_same.2 fun _ _ => .inl rfl

theorem BlankedTo.append {after after' : List Char} (h : BlankedTo text text')
    (hafter : BlankedTo after after') : BlankedTo (text ++ after) (text' ++ after') :=
  List.rel_append h hafter

theorem BlankedTo.head (h : BlankedTo text text') {d : Char} (hd : d ∈ text'.head?) :
    ∃ c ∈ text.head?, d = c ∨ (d = ' ' ∧ c ≠ '\n') := by
  cases h with
  | nil => cases hd
  | @cons c _ _ _ hfirst _ =>
      obtain rfl := Option.some.inj hd
      exact ⟨c, rfl, hfirst⟩

theorem BlankedTo.eq_nil (h : BlankedTo [] text') : text' = [] := by
  cases h
  rfl

/-- Where a character that is no space does not come first, it does not after blanking either. -/
theorem BlankedTo.head?_ne (h : BlankedTo text text') {c : Char} (hspace : c ≠ ' ')
    (hne : text.head? ≠ some c) : text'.head? ≠ some c := by
  intro hc
  obtain ⟨d, hd, rfl | ⟨rfl, -⟩⟩ := h.head hc
  · exact hne hd
  · exact hspace rfl

theorem BlankedTo.stopsAt (h : BlankedTo text text') {q : Char → Bool} (hspace : q ' ' = false)
    (hstop : StopsAt q text) : StopsAt q text' := by
  intro c hc
  obtain ⟨d, hd, rfl | ⟨rfl, -⟩⟩ := h.head hc
  · exact hstop _ hd
  · exact hspace

/-- A line ends where it did. -/
theorem BlankedTo.stopsAt_newline (h : BlankedTo text text') (hstop : StopsAt (· ≠ '\n') text) :
    StopsAt (· ≠ '\n') text' := by
  intro c hc
  obtain ⟨d, hd, rfl | ⟨rfl, hne⟩⟩ := h.head hc
  · exact hstop _ hd
  · have hstart : d = '\n' := by simpa using hstop d hd
    exact absurd hstart hne

/-- A piece is the same piece if spaces stand in the text behind it. -/
theorem Munch.blanked (h : Munch shape text rest) (hblanked : BlankedTo rest rest') :
    Munch shape text rest' := by
  cases h with
  | single hmem => exact .single hmem
  | short hmem hno => exact .short hmem (hblanked.head?_ne (by decide) hno)
  | long hmem => exact .long hmem
  | slash hslash hstar =>
      exact .slash (hblanked.head?_ne (by decide) hslash) (hblanked.head?_ne (by decide) hstar)
  | lineComment hno hstop => exact .lineComment hno (hblanked.stopsAt_newline hstop)
  | blockComment hno => exact .blockComment hno
  | openComment hno =>
      obtain rfl := hblanked.eq_nil
      exact .openComment hno
  | blank hmem => exact .blank hmem
  | newline => exact .newline
  | string hno => exact .string hno
  | openString hno =>
      obtain rfl := hblanked.eq_nil
      exact .openString hno
  | whole hne hall hstop hpoint =>
      refine .whole hne hall (hblanked.stopsAt (by decide) hstop) ?_
      -- a point that is still there was there before, with what is behind it blanked
      rintro after' rfl
      cases hblanked with
      | @cons c _ after _ hfirst hafter =>
          rcases hfirst with rfl | ⟨hspace, -⟩
          · exact BlankedTo.stopsAt hafter (by decide) (hpoint after rfl)
          · exact absurd hspace (by decide)
  | fraction hne hall hne' hall' hstop =>
      exact .fraction hne hall hne' hall' (hblanked.stopsAt (by decide) hstop)
  | word hletter hall hstop => exact .word hletter hall (hblanked.stopsAt (by decide) hstop)
  | stray hstray => exact .stray hstray

/-! ## Blanks and line feeds as pieces -/

/-- The pieces of a text of blanks and line feeds. -/
def separators (text : List Char) : List Piece :=
  text.map fun c => if c = '\n' then .newline else ⟨.blank, c, []⟩

theorem covers_separators (h : ∀ c ∈ text, c ∈ blanks ∨ c = '\n') (hcovers : Covers ps rest) :
    Covers (separators text ++ ps) (text ++ rest) := by
  induction text with
  | nil => exact hcovers
  | cons c text ih =>
      obtain ⟨hfirst, htail⟩ := List.forall_mem_cons.1 h
      have hrest : Covers (separators text ++ ps) (text ++ rest) := ih htail
      by_cases hnewline : c = '\n'
      · subst hnewline
        exact @Covers.cons .newline _ _ .newline hrest
      · have hblank : c ∈ blanks := hfirst.resolve_right hnewline
        rw [separators, List.map_cons, if_neg hnewline]
        exact @Covers.cons ⟨.blank, c, []⟩ _ _ (.blank hblank) hrest

theorem flatMap_separators (text : List Char) : (separators text).flatMap Piece.chars = text := by
  induction text with
  | nil => rfl
  | cons c text ih =>
      have hfirst : (if c = '\n' then Piece.newline else ⟨.blank, c, []⟩ : Piece).chars = [c] := by
        split
        · rename_i hnewline
          rw [hnewline]
          rfl
        · rfl
      rw [separators, List.map_cons, List.flatMap_cons, hfirst]
      exact congrArg (c :: ·) ih

/-- Blanks and line feeds are neither tokens nor at fault. -/
theorem silent_of_mem_separators (h : p ∈ separators text) : p.isToken = false ∧ p.isFaulty = false := by
  obtain ⟨c, -, rfl⟩ := List.mem_map.1 h
  split <;> exact ⟨rfl, rfl⟩

theorem tokens_eq_nil (h : ∀ p ∈ ps, p.isToken = false) (line offset : Nat) :
    (place line offset ps).filterMap Placed.token? = [] := by
  induction ps generalizing line offset with
  | nil => rfl
  | cons p ps ih =>
      obtain ⟨hfirst, htail⟩ := List.forall_mem_cons.1 h
      rw [place, List.filterMap_cons_none (token?_eq_none hfirst)]
      exact ih htail _ _

/-! ## Pieces with blanks for those at fault -/

theorem blanked_of_isFaulty (h : p.isFaulty = true) :
    p.blanked = p.chars.map fun c => if c = '\n' then c else ' ' := by
  cases hshape : p.shape with
  | openString | stray => simp only [Piece.blanked, hshape]
  | mark kind | string | numeral | word | blank | newline | comment | openComment =>
      simp [hshape, Piece.isFaulty] at h

theorem blanked_of_faultless (h : p.isFaulty = false) : p.blanked = p.chars := by
  cases hshape : p.shape with
  | openString | stray => simp [hshape, Piece.isFaulty] at h
  | mark kind | string | numeral | word | blank | newline | comment | openComment =>
      simp only [Piece.blanked, hshape]

theorem blankedTo_blanked (p : Piece) : BlankedTo p.chars p.blanked := by
  cases hfaulty : p.isFaulty with
  | false =>
      rw [blanked_of_faultless hfaulty]
      exact .refl _
  | true =>
      rw [blanked_of_isFaulty hfaulty, BlankedTo, List.forall₂_map_right_iff, List.forall₂_same]
      intro c _
      by_cases hnewline : c = '\n'
      · exact .inl (if_pos hnewline)
      · exact .inr ⟨if_neg hnewline, hnewline⟩

theorem blankedTo_flatMap (ps : List Piece) :
    BlankedTo (ps.flatMap Piece.chars) (ps.flatMap Piece.blanked) := by
  induction ps with
  | nil => exact .refl []
  | cons p ps ih => exact (blankedTo_blanked p).append ih

theorem BlankedTo.newlines_eq (h : BlankedTo text text') : Text.newlines text' = Text.newlines text := by
  induction h with
  | nil => rfl
  | @cons c d _ _ hfirst _ ih =>
      have hsame : (d == '\n') = (c == '\n') := by
        rcases hfirst with rfl | ⟨rfl, hne⟩
        · rfl
        · rw [beq_eq_false_iff_ne.2 hne]
          rfl
      rw [Text.newlines, List.count_cons, hsame, Text.newlines, List.count_cons]
      exact congrArg (· + _) ih

/-- The blanks and line feeds that stand for a piece at fault, and any other piece itself. -/
def Piece.cleared (p : Piece) : List Piece := if p.isFaulty then separators p.blanked else [p]

theorem covers_cleared (h : Covers ps text) :
    Covers (ps.flatMap Piece.cleared) (ps.flatMap Piece.blanked) := by
  induction h with
  | nil => exact .nil
  | @cons piece ps rest hmunch hcovers ih =>
      rw [List.flatMap_cons, List.flatMap_cons, Piece.cleared]
      cases hfaulty : piece.isFaulty with
      | false =>
          have hrest : BlankedTo rest (ps.flatMap Piece.blanked) := by
            have hblanked := blankedTo_flatMap ps
            rwa [eq_pieces_of_covers hcovers, flatten_pieces, ← eq_pieces_of_covers hcovers] at hblanked
          rw [blanked_of_faultless hfaulty]
          exact .cons (hmunch.blanked hrest) ih
      | true =>
          refine covers_separators ?_ ih
          intro d hd
          rw [blanked_of_isFaulty hfaulty] at hd
          obtain ⟨c, -, rfl⟩ := List.mem_map.1 hd
          split
          · exact .inr ‹_›
          · exact .inl (by decide)

theorem faultless_of_mem_cleared (h : p ∈ ps.flatMap Piece.cleared) : p.isFaulty = false := by
  obtain ⟨piece, -, hmem⟩ := List.mem_flatMap.1 h
  rw [Piece.cleared] at hmem
  split at hmem
  · exact (silent_of_mem_separators hmem).2
  · obtain rfl := List.mem_singleton.1 hmem
    exact Bool.eq_false_iff.2 ‹_›

/-- Where the pieces at fault are blanks and line feeds, the tokens are the same, on the same lines. -/
theorem tokens_cleared (ps : List Piece) (line offset : Nat) :
    (place line offset (ps.flatMap Piece.cleared)).filterMap Placed.token? =
      (place line offset ps).filterMap Placed.token? := by
  induction ps generalizing line offset with
  | nil => rfl
  | cons p ps ih =>
      rw [List.flatMap_cons, Piece.cleared]
      cases hfaulty : p.isFaulty with
      | false =>
          show (place line offset (p :: ps.flatMap Piece.cleared)).filterMap Placed.token? = _
          rw [place, place, List.filterMap_cons, ih, List.filterMap_cons]
      | true =>
          have hno : p.isToken = false := by
            cases hshape : p.shape <;> simp_all [Piece.isToken, Piece.isFaulty]
          have hsilent : (place line offset (separators p.blanked)).filterMap Placed.token? = [] :=
            tokens_eq_nil (fun _ hmem => (silent_of_mem_separators hmem).1) line offset
          rw [if_pos rfl, place_append, List.filterMap_append, hsilent, flatMap_separators,
            (blankedTo_blanked p).newlines_eq, length_blanked, List.nil_append, ih, place,
            List.filterMap_cons_none (token?_eq_none hno)]
          rfl

/-! ## The blanked source -/

theorem toList_blanked (source : String) :
    (blanked source).toList = (pieces source.toList).flatMap Piece.blanked :=
  String.toList_ofList

theorem pieces_blanked (source : String) :
    pieces (blanked source).toList = (pieces source.toList).flatMap Piece.cleared := by
  rw [toList_blanked]
  exact (eq_pieces_of_covers (covers_cleared (covers_pieces source.toList))).symm

theorem lastLine_blanked (source : String) : lastLine (blanked source) = lastLine source := by
  have hblanked := blankedTo_flatMap (pieces source.toList)
  rw [flatten_pieces, ← toList_blanked] at hblanked
  rw [lastLine, lastLine, hblanked.newlines_eq]

theorem sequence_blanked (source : String) : sequence (blanked source) = sequence source := by
  have hbody : (placed (blanked source)).filterMap Placed.token? =
      (placed source).filterMap Placed.token? := by
    rw [placed, pieces_blanked, tokens_cleared, placed]
  simp only [sequence, hbody, lastLine_blanked]

theorem diagnostics_blanked (source : String) : diagnostics (blanked source) = [] := by
  rw [diagnostics, faults, placed, pieces_blanked,
    diagnostics_eq_nil fun _ hmem => faultless_of_mem_cleared hmem]
  rfl

/-- The blank for the stray character keeps the two numerals apart, and the open string its line feed. -/
example : blanked (String.ofList ['1', '@', '2', Text.doubleQuote, '\n', '3']) = "1 2 \n " := by cbv

end Scan

/-! ## Parsing the blanked source -/

namespace Parser

/-- Which tree a parser gives, where it ends and what it reports is settled by its cursor, whatever is held
before; and all that it reports is syntactic. -/
theorem exists_reports (limit : Option Nat) (cursor : Cursor) :
    ∃ (tree : Option Expr) (after : Cursor) (reports : List Diagnostic),
      (∀ d ∈ reports, d.kind = .syntactic) ∧
        ∀ reporter : Reporter, (Parser.mk cursor reporter).parse limit =
          (tree, ⟨after, reporter.reportAll reports⟩) := by
  let after := cursor.moveTo (Parse.expression limit cursor.rest).rest
  cases hverdict : (Parse.expression limit cursor.rest).verdict with
  | complete e =>
      refine ⟨some e, after, [], by simp, fun reporter => ?_⟩
      simp only [parse, Cursor.parse, hverdict, Reporter.reportAll, List.append_nil]
      rfl
  | rejected cause =>
      let diagnostic := (Rejection.ofCause cause after.peek).diagnostic
      refine ⟨none, after, [diagnostic], ?_, fun reporter => ?_⟩
      · intro d hd
        obtain rfl := List.mem_singleton.1 hd
        rfl
      · simp only [parse, Cursor.parse, hverdict]
        rfl

/-- Reading on behind a fault is reading over blanks. With a blank for each character at fault, a source
has no lexical diagnostic and the very same tokens, so a parser gives the same tree, ends at the same place
and reports the same syntactic diagnostics; of the source itself, the lexical ones are held before them. -/
theorem parse_blanked (limit : Option Nat) (source : String) (reporter : Reporter) :
    let read := (ofSource source reporter).parse limit
    let blankedRead := (ofSource (Scan.blanked source) reporter).parse limit
    Scan.diagnostics (Scan.blanked source) = [] ∧
    Scan.tokens (Scan.blanked source) = Scan.tokens source ∧
    blankedRead.1 = read.1 ∧
    blankedRead.2.cursor = read.2.cursor ∧
    ∃ syntactic : List Diagnostic, (∀ d ∈ syntactic, d.kind = .syntactic) ∧
      blankedRead.2.reporter = reporter.reportAll syntactic ∧
      read.2.reporter = reporter.reportAll (Scan.diagnostics source ++ syntactic) := by
  intro read blankedRead
  obtain ⟨tree, after, syntactic, hsyntactic, hparse⟩ :=
    exists_reports limit (.start (Scan.sequence source))
  have hread : read = (tree, ⟨after, reporter.reportAll (Scan.diagnostics source ++ syntactic)⟩) := by
    rw [← Reporter.reportAll_reportAll]
    exact hparse _
  have hblanked : blankedRead = (tree, ⟨after, reporter.reportAll syntactic⟩) := by
    show ((ofSource (Scan.blanked source) reporter).parse limit) = _
    rw [ofSource, Scan.sequence_blanked, Scan.diagnostics_blanked, Reporter.reportAll, List.append_nil]
    exact hparse _
  rw [hread, hblanked]
  refine ⟨Scan.diagnostics_blanked source, ?_, rfl, rfl, syntactic, hsyntactic, rfl, rfl⟩
  rw [Scan.tokens, Scan.sequence_blanked, Scan.tokens]

end Parser

end LoxSyntax
