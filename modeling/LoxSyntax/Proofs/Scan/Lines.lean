/-
# LoxSyntax.Proofs.Scan.Lines -- every line that is told is the right one

A piece is placed by counting: the characters before it are counted by its offset, the line feeds among
them by its line. So the offset of a piece says which text stands BEFORE it, and the line is one more than
the line feeds of that text, whatever the pieces before it are: line feeds by themselves, strings, or
comments (`line_eq_of_mem`).

A token stands on the line of its piece, and so does the fault of a stray character. The fault of an open
string stands where the string ends; nothing follows it, so that is the last line of the source. Since the
next piece starts where the last one ended, lines never go back.
-/
import LoxSyntax.Proofs.Scan.Join

namespace LoxSyntax.Scan

variable {p : Piece} {ps qs : List Piece} {text : List Char} {line offset : Nat} {source : String}
  {here : Placed} {front back : List Placed} {t : Token} {fault : Fault}

/-! ## Pieces where they stand -/

/-- The text before a placed piece. -/
def Placed.before (source : String) (here : Placed) : List Char := source.toList.take here.offset

theorem map_piece_place (ps : List Piece) (line offset : Nat) :
    (place line offset ps).map Placed.piece = ps := by
  induction ps generalizing line offset with
  | nil => rfl
  | cons p ps ih => rw [place, List.map_cons, ih]

/-- Placing counts the line feeds and the characters of the pieces before. -/
theorem counts_of_place (h : place line offset ps = front ++ here :: back) :
    here.line = line + Text.newlines (front.flatMap (·.piece.chars)) ∧
      here.offset = offset + (front.flatMap (·.piece.chars)).length := by
  induction front generalizing line offset ps with
  | nil =>
      cases ps with
      | nil => cases h
      | cons p ps =>
          obtain rfl := (List.cons.inj h).1
          exact ⟨rfl, rfl⟩
  | cons first front ih =>
      cases ps with
      | nil => cases h
      | cons p ps =>
          obtain ⟨rfl, hrest⟩ := List.cons.inj h
          obtain ⟨hline, hoffset⟩ := ih hrest
          rw [List.flatMap_cons, Text.newlines_append, List.length_append, hline, hoffset]
          exact ⟨Nat.add_assoc _ _ _, Nat.add_assoc _ _ _⟩

theorem flatMap_placed (source : String) :
    (placed source).flatMap (·.piece.chars) = source.toList := by
  rw [← List.flatMap_map, placed, map_piece_place, flatten_pieces]

/-- The text before a piece is that of the pieces before it, and the piece and the rest stand behind it. -/
theorem before_eq (h : placed source = front ++ here :: back) :
    here.before source = front.flatMap (·.piece.chars) ∧
      source.toList = here.before source ++ here.piece.chars ++ back.flatMap (·.piece.chars) := by
  have hoffset := (counts_of_place h).2
  rw [Nat.zero_add] at hoffset
  have htext := flatMap_placed source
  rw [h, List.flatMap_append, List.flatMap_cons] at htext
  have hbefore : here.before source = front.flatMap (·.piece.chars) := by
    rw [Placed.before, hoffset, ← htext, List.take_left]
  refine ⟨hbefore, ?_⟩
  rw [hbefore, List.append_assoc]
  exact htext.symm

/-- A piece stands on the line that the line feeds before it make. -/
theorem line_eq_of_mem (h : here ∈ placed source) :
    here.line = 1 + Text.newlines (here.before source) := by
  obtain ⟨front, back, hsplit⟩ := List.append_of_mem h
  rw [(before_eq hsplit).1]
  exact (counts_of_place hsplit).1

theorem line_le_lastLine (h : here ∈ placed source) : here.line ≤ lastLine source := by
  have hle : Text.newlines (here.before source) ≤ Text.newlines source.toList :=
    (List.take_sublist _ _).count_le '\n'
  rw [line_eq_of_mem h, lastLine]
  omega

/-! ## The last piece -/

/-- A piece of a covered text stands behind the pieces before it, and what is left is covered by those
behind it. -/
theorem exists_rest_of_covers (h : Covers (ps ++ p :: qs) text) :
    ∃ rest, text = ps.flatMap Piece.chars ++ p.chars ++ rest ∧ Munch p.shape p.chars rest ∧ Covers qs rest := by
  induction ps generalizing text with
  | nil =>
      cases h with
      | cons hmunch hcovers => exact ⟨_, rfl, hmunch, hcovers⟩
  | cons first ps ih =>
      cases h with
      | cons _ hcovers =>
          obtain ⟨rest, rfl, hmunch, hback⟩ := ih hcovers
          exact ⟨rest, by simp only [List.flatMap_cons, List.append_assoc], hmunch, hback⟩

/-- A piece of a covered text stands somewhere in it, with what its shape asks for behind it. -/
theorem exists_split_of_mem (h : Covers ps text) (hp : p ∈ ps) :
    ∃ front rest, text = front ++ p.chars ++ rest ∧ Munch p.shape p.chars rest := by
  obtain ⟨before, after, rfl⟩ := List.append_of_mem hp
  obtain ⟨rest, htext, hmunch, -⟩ := exists_rest_of_covers h
  exact ⟨before.flatMap Piece.chars, rest, htext, hmunch⟩

theorem exists_munch_of_mem (h : Covers ps text) (hp : p ∈ ps) : ∃ rest, Munch p.shape p.chars rest := by
  obtain ⟨-, rest, -, hmunch⟩ := exists_split_of_mem h hp
  exact ⟨rest, hmunch⟩

theorem mem_pieces_of_mem_placed (h : here ∈ placed source) : here.piece ∈ pieces source.toList := by
  rw [← map_piece_place (pieces source.toList) 1 0]
  exact List.mem_map_of_mem h

/-- An open piece ends on the last line. -/
theorem lastLine_of_isOpen (h : here ∈ placed source) (hopen : here.piece.IsOpen) :
    here.line + here.piece.newlines = lastLine source := by
  obtain ⟨front, back, hsplit⟩ := List.append_of_mem h
  have hpieces := map_piece_place (pieces source.toList) 1 0
  rw [← placed, hsplit, List.map_append, List.map_cons] at hpieces
  obtain ⟨rest, -, hmunch, hcovers⟩ := exists_rest_of_covers (hpieces ▸ covers_pieces source.toList)
  obtain rfl := eq_nil_of_isOpen hmunch hopen
  have hback : back.flatMap (·.piece.chars) = [] := by
    have hnone := flatten_pieces []
    rw [← eq_pieces_of_covers hcovers, List.flatMap_map] at hnone
    exact hnone
  obtain ⟨-, htext⟩ := before_eq hsplit
  rw [hback, List.append_nil] at htext
  rw [lastLine, htext, Text.newlines_append, line_eq_of_mem h, Piece.newlines]
  omega

/-! ## Lines of tokens and of faults -/

theorem line_of_token? (h : here.token? = some t) : t.line = here.line := by
  cases hshape : here.piece.shape <;> simp [Placed.token?, hshape] at h <;> rw [← h]

theorem line_of_stray (hshape : here.piece.shape = .stray) (h : here.fault? = some fault) :
    fault.line = here.line := by
  simp only [Placed.fault?, hshape, Option.some.injEq] at h
  rw [← h]
  rfl

theorem line_of_openString (hshape : here.piece.shape = .openString) (h : here.fault? = some fault) :
    fault.line = (here.line + here.piece.newlines : Nat) := by
  simp only [Placed.fault?, hshape, Option.some.injEq] at h
  rw [← h]
  rfl

/-- A fault lies between the line where its piece starts and the line where it ends. -/
theorem line_of_fault? (h : here.fault? = some fault) :
    here.line ≤ fault.line ∧ fault.line ≤ (here.line + here.piece.newlines : Nat) := by
  cases hshape : here.piece.shape with
  | stray =>
      rw [line_of_stray hshape h]
      omega
  | openString =>
      rw [line_of_openString hshape h]
      omega
  | mark kind | string | numeral | word | blank | newline | comment | openComment =>
      simp [Placed.fault?, hshape] at h

/-- No piece starts before the line on which the piece before it ends. -/
theorem pairwise_place (ps : List Piece) (line offset : Nat) :
    (∀ here ∈ place line offset ps, line ≤ here.line) ∧
      (place line offset ps).Pairwise fun here next => here.line + here.piece.newlines ≤ next.line := by
  induction ps generalizing line offset with
  | nil => exact ⟨by simp [place], .nil⟩
  | cons p ps ih =>
      obtain ⟨hfrom, hpairwise⟩ := ih (line + p.newlines) (offset + p.chars.length)
      rw [place]
      refine ⟨?_, .cons hfrom hpairwise⟩
      intro here hmem
      rcases List.mem_cons.1 hmem with rfl | hmem
      · exact Nat.le_refl _
      · exact Nat.le_trans (Nat.le_add_right _ _) (hfrom here hmem)

theorem pairwise_tokens (source : String) :
    (tokens source).Pairwise fun s t => s.line ≤ t.line := by
  rw [tokens, Sequence.toList, List.pairwise_append]
  refine ⟨?_, List.pairwise_singleton _ _, ?_⟩
  · rw [sequence, List.pairwise_filterMap]
    refine (pairwise_place _ 1 0).2.imp ?_
    intro here next hle s hs t ht
    rw [line_of_token? hs, line_of_token? ht]
    omega
  · intro t ht last hlast
    obtain ⟨here, hmem, htoken⟩ := List.mem_filterMap.1 ht
    obtain rfl := List.mem_singleton.1 hlast
    rw [line_of_token? htoken]
    exact Int.ofNat_le.2 (line_le_lastLine hmem)

theorem pairwise_diagnostics (source : String) :
    (diagnostics source).Pairwise fun d e => d.line ≤ e.line := by
  rw [diagnostics, faults, List.pairwise_map, List.pairwise_filterMap]
  refine (pairwise_place _ 1 0).2.imp ?_
  intro here next hle fault hfault later hlater
  have hend := (line_of_fault? hfault).2
  have hstart := (line_of_fault? hlater).1
  show fault.line ≤ later.line
  omega

/-! ## One for one -/

/-- What is selected from a list, and what is made of what is selected, correspond one for one. -/
theorem forall₂_filter_filterMap {α β : Type} {R : α → β → Prop} {select : α → Bool} {make : α → Option β}
    {xs : List α} (hsome : ∀ x ∈ xs, select x = true → ∃ y, make x = some y ∧ R x y)
    (hnone : ∀ x ∈ xs, select x = false → make x = none) :
    List.Forall₂ R (xs.filter select) (xs.filterMap make) := by
  induction xs with
  | nil => exact .nil
  | cons x xs ih =>
      rw [List.forall_mem_cons] at hsome hnone
      have htail := ih hsome.2 hnone.2
      cases hselect : select x with
      | true =>
          obtain ⟨y, hmake, hrelated⟩ := hsome.1 hselect
          rw [List.filter_cons_of_pos hselect, List.filterMap_cons_some hmake]
          exact .cons hrelated htail
      | false =>
          rw [List.filter_cons_of_neg (by simp [hselect]), List.filterMap_cons_none (hnone.1 hselect)]
          exact htail

/-- A token is what its piece is read as, on the line of the piece. -/
def Placed.MakesTokenAt (source : String) (here : Placed) (t : Token) : Prop :=
  here.piece.MakesToken t ∧ t.kind ≠ .endOfInput ∧ t.line = (1 + Text.newlines (here.before source) : Nat)

/-- A diagnostic is what its piece is reported as, a stray character on its line and an open string on
the last line. -/
def Placed.MakesReportAt (source : String) (here : Placed) (d : Diagnostic) : Prop :=
  here.piece.MakesReport d ∧
    (d.code = some "L001" → d.line = (1 + Text.newlines (here.before source) : Nat)) ∧
    (d.code = some "L002" → d.line = (1 + Text.newlines source.toList : Nat))

theorem tokens_at (source : String) :
    List.Forall₂ (Placed.MakesTokenAt source) ((placed source).filter (·.piece.isToken))
      (sequence source).body := by
  refine forall₂_filter_filterMap ?_ fun here _ hno => token?_eq_none hno
  intro here hmem hpiece
  obtain ⟨rest, hmunch⟩ := exists_munch_of_mem (covers_pieces source.toList) (mem_pieces_of_mem_placed hmem)
  obtain ⟨t, htoken, hmakes, hkind⟩ := exists_token hmunch hpiece here.line here.offset
  refine ⟨t, htoken, hmakes, hkind, ?_⟩
  rw [line_of_token? htoken, line_eq_of_mem hmem]

theorem diagnostics_at (source : String) :
    List.Forall₂ (Placed.MakesReportAt source) ((placed source).filter (·.piece.isFaulty))
      (diagnostics source) := by
  rw [diagnostics, faults, List.map_filterMap]
  refine forall₂_filter_filterMap ?_ ?_
  · intro here hmem hpiece
    obtain ⟨fault, hfault, hreport⟩ := exists_fault hpiece here.line here.offset
    refine ⟨fault.diagnostic, by rw [hfault]; rfl, hreport, ?_⟩
    show (fault.code = some "L001" → fault.line = _) ∧ (fault.code = some "L002" → fault.line = _)
    rcases hreport.2.2 with ⟨hshape, hcode, -⟩ | ⟨hshape, hcode, -⟩
    · replace hcode : fault.code = some "L001" := hcode
      refine ⟨fun _ => ?_, fun hother => absurd (hcode.symm.trans hother) (by decide)⟩
      rw [line_of_stray hshape hfault, line_eq_of_mem hmem]
    · replace hcode : fault.code = some "L002" := hcode
      refine ⟨fun hother => absurd (hcode.symm.trans hother) (by decide), fun _ => ?_⟩
      rw [line_of_openString hshape hfault, lastLine_of_isOpen hmem (.inl hshape), lastLine]
  · intro here _ hno
    have hfault : here.fault? = none := fault?_eq_none hno
    rw [hfault]
    rfl

/-- Lines are exact everywhere. The pieces of a source are placed one behind the other, so the text before
a piece is that of the pieces before it. The tokens are those of the token pieces, in order, and each is on
the line that the line feeds before its first character make; the end of the input behind them is on the
last line. The diagnostics are those of the pieces at fault, in order: that of a stray character is on the
line that the line feeds before it make, that of an open string on the last line. So neither the lines of
the tokens nor those of the diagnostics ever go back. -/
theorem lines_exact (source : String) :
    (placed source).map Placed.piece = pieces source.toList ∧
    (∀ front here back, placed source = front ++ here :: back →
      here.before source = front.flatMap (·.piece.chars) ∧
        source.toList = here.before source ++ here.piece.chars ++ back.flatMap (·.piece.chars)) ∧
    (∃ body, tokens source = body ++ [⟨.endOfInput, "", .nil, (1 + Text.newlines source.toList : Nat)⟩] ∧
      List.Forall₂ (Placed.MakesTokenAt source) ((placed source).filter (·.piece.isToken)) body) ∧
    List.Forall₂ (Placed.MakesReportAt source) ((placed source).filter (·.piece.isFaulty))
      (diagnostics source) ∧
    ((tokens source).Pairwise fun s t => s.line ≤ t.line) ∧
    ((diagnostics source).Pairwise fun d e => d.line ≤ e.line) :=
  ⟨map_piece_place _ 1 0, fun _ _ _ h => before_eq h, ⟨_, rfl, tokens_at source⟩, diagnostics_at source,
    pairwise_tokens source, pairwise_diagnostics source⟩

/-- The line feeds of a string and of a comment count for what stands behind them, and those of an open
string for its own fault: the stray character is on the third line, and so is the open string, which goes
on to the fourth. -/
theorem stray_behind_string_and_comment :
    let quote := Text.doubleQuote
    let source := String.ofList
      [quote, '\n', quote, '/', '*', '\n', '*', '/', '@', '1', quote, '\n']
    let front : List Placed :=
      [⟨⟨.string, quote, ['\n', quote]⟩, 1, 0⟩, ⟨⟨.comment, '/', ['*', '\n', '*', '/']⟩, 2, 3⟩]
    let here : Placed := ⟨⟨.stray, '@', []⟩, 3, 8⟩
    let back : List Placed := [⟨⟨.numeral, '1', []⟩, 3, 9⟩, ⟨⟨.openString, quote, ['\n']⟩, 3, 10⟩]
    placed source = front ++ here :: back ∧
      here.before source = [quote, '\n', quote, '/', '*', '\n', '*', '/'] ∧
      (diagnostics source).map Diagnostic.line = [3, 4] := by
  intro quote source front here back
  have hplaced : placed source = front ++ here :: back := by cbv
  obtain ⟨-, hbefore, -⟩ := lines_exact source
  refine ⟨hplaced, (hbefore front here back hplaced).1, ?_⟩
  cbv

end LoxSyntax.Scan
