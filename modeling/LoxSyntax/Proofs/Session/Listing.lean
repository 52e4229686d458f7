/-
# LoxSyntax.Proofs.Session.Listing -- the listing of tokens settles the tokens

An entry of the listing is the name of a kind, a lexeme and a value, written as they are: the text of a
string may hold spaces, line feeds, and whatever looks like another entry. The entries can be told all the
same, one by one from the front (`entry_append_inj`). The name of a kind has no space in it, so it ends at
the first one. It says whether the lexeme is that of a string, which ends at its second quote, or another,
which has no space in it either (`IsDelimited`).

No more need be read, for a lexeme settles what it is read as (`unplaced_eq_of_lexeme_eq`): which value has to
follow is known, and how long it is. The line is the only field of a token that is not listed.
-/
import LoxSyntax.Proofs.Scan.Layout
import LoxSyntax.Proofs.Session.Account

namespace LoxSyntax

open Scan (Legible)

/-! ## Where a part of an entry ends -/

/-- Texts that do not hold a character and stand before it are the same if all that they start is. -/
theorem Text.append_cons_inj {c : Char} {front front' rest rest' : List Char} (h : c ∉ front) (h' : c ∉ front')
    (heq : front ++ c :: rest = front' ++ c :: rest') : front = front' ∧ rest = rest' := by
  have hstop : ∀ rest, Scan.StopsAt (· ≠ c) (c :: rest) := by simp [Scan.StopsAt]
  have hfront := congrArg (List.takeWhile (· ≠ c)) heq
  rw [Scan.takeWhile_append_of_stopsAt (Scan.all_ne_of_not_mem h) (hstop rest),
    Scan.takeWhile_append_of_stopsAt (Scan.all_ne_of_not_mem h') (hstop rest')] at hfront
  subst hfront
  exact ⟨rfl, (List.cons.inj (List.append_cancel_left heq)).2⟩

namespace Kind

theorem space_not_mem_name (kind : Kind) : ' ' ∉ kind.name.toList := by
  have hall : ∀ kind ∈ all, ' ' ∉ kind.name.toList := by decide
  exact hall kind kind.mem_all

theorem name_injective {kind kind' : Kind} (h : kind.name = kind'.name) : kind = kind' := by
  have hall : ∀ kind ∈ all, ∀ kind' ∈ all, kind.name = kind'.name → kind = kind' := by decide
  exact hall kind kind.mem_all kind' kind'.mem_all h

end Kind

namespace Token

variable {t t' : Token} {ts ts' : List Token} {rest rest' : List Char}

/-- Where the lexeme of a token ends can be told from it: it is a string, in quotes and with no quote between
them, or it has no spaces. -/
structure IsDelimited (t : Token) : Prop where
  quoted : t.kind = .string → ∃ inner, Text.doubleQuote ∉ inner ∧
    t.lexeme.toList = Text.doubleQuote :: (inner ++ [Text.doubleQuote])
  unspaced : t.kind ≠ .string → ' ' ∉ t.lexeme.toList

/-- Delimited lexemes of one kind are the same if all that they start is. -/
theorem IsDelimited.append_inj (h : t.IsDelimited) (h' : t'.IsDelimited) (hkind : t.kind = t'.kind)
    (heq : t.lexeme.toList ++ ' ' :: rest = t'.lexeme.toList ++ ' ' :: rest') :
    t.lexeme = t'.lexeme ∧ rest = rest' := by
  rw [← String.toList_inj]
  by_cases hstring : t.kind = .string
  · obtain ⟨inner, hno, hlexeme⟩ := h.quoted hstring
    obtain ⟨inner', hno', hlexeme'⟩ := h'.quoted (hkind ▸ hstring)
    rw [hlexeme, hlexeme'] at heq ⊢
    simp only [List.cons_append, List.append_assoc, List.nil_append, List.cons.injEq, true_and] at heq
    obtain ⟨rfl, hbehind⟩ := Text.append_cons_inj hno hno' heq
    exact ⟨rfl, (List.cons.inj hbehind).2⟩
  · exact Text.append_cons_inj (h.unspaced hstring) (h'.unspaced (hkind ▸ hstring)) heq

theorem isDelimited_of_unspaced (h : t.kind ≠ .string) (hlexeme : ' ' ∉ t.lexeme.toList) : t.IsDelimited :=
  ⟨fun hstring => absurd hstring h, fun _ => hlexeme⟩

/-! ## Lexemes of sources -/

theorem isDelimited_of_legible (h : Legible t) : t.IsDelimited := by
  obtain ⟨p, hchars, hread, -, hmunch⟩ := h
  replace hmunch := hmunch [] Scan.break_nil
  obtain ⟨-, -, hreads⟩ := Scan.makesToken_of_token? hmunch hread
  replace hreads : p.ReadsAs t.kind t.literal := hreads
  constructor
  · intro hstring
    generalize t.literal = value at hreads
    rw [hstring] at hreads
    cases hreads with
    | mark hshape =>
        have hmarks : ∀ entry ∈ Scan.marks, entry.2 ≠ .string := by decide
        rw [hshape] at hmunch
        exact absurd rfl (hmarks _ (Scan.mem_marks_of_munch hmunch))
    | string hshape _ =>
        rw [hshape, hchars] at hmunch
        generalize t.lexeme.toList = text at hmunch
        cases hmunch with
        | string hno => exact ⟨_, hno, rfl⟩
  · intro hother
    rw [← hchars]
    exact Scan.not_mem_of_readsAs (.inl (by decide)) hmunch hreads hother

theorem lexeme_ne_empty (h : Legible t) : t.lexeme ≠ "" := by
  obtain ⟨p, hchars, -⟩ := h
  intro hempty
  rw [hempty] at hchars
  cases hchars

/-- A lexeme is a piece of one shape only, so it is read as one token. -/
theorem unplaced_eq_of_lexeme_eq (h : Legible t) (h' : Legible t') (heq : t.lexeme = t'.lexeme) :
    t.unplaced = t'.unplaced := by
  obtain ⟨⟨shape, c, others⟩, hchars, hread, -, hmunch⟩ := h
  obtain ⟨⟨shape', c', others'⟩, hchars', hread', -, hmunch'⟩ := h'
  have hsame : c :: others = c' :: others' := hchars.trans ((congrArg String.toList heq).trans hchars'.symm)
  obtain ⟨rfl, rfl⟩ := List.cons.inj hsame
  have hshape := Scan.munch_iff.1 (hmunch [] Scan.break_nil)
  have hshape' := Scan.munch_iff.1 (hmunch' [] Scan.break_nil)
  obtain rfl : shape = shape' := congrArg Prod.fst (hshape.symm.trans hshape')
  exact Option.some.inj (hread.symm.trans hread')

/-! ## Entries -/

/-- The tokens that stand in listings: those that lexemes are read as, and ends of the input. -/
inductive IsListed : Token → Prop where
  | legible {t : Token} : Legible t → IsListed t
  | endOfInput (line : Int) : IsListed (.endOfInput line)

theorem isListed_of_mem_tokens {source : String} (h : t ∈ Scan.tokens source) : t.IsListed := by
  rcases List.mem_append.1 h with hbody | hlast
  · exact .legible (Scan.legible_of_mem_body source t hbody)
  · obtain rfl := List.mem_singleton.1 hlast
    exact .endOfInput _

theorem IsListed.isDelimited (h : t.IsListed) : t.IsDelimited := by
  cases h with
  | legible h => exact isDelimited_of_legible h
  | endOfInput line => exact isDelimited_of_unspaced (fun h => nomatch h) (by simp [Token.endOfInput])

theorem IsListed.unplaced_eq (h : t.IsListed) (h' : t'.IsListed) (heq : t.lexeme = t'.lexeme) :
    t.unplaced = t'.unplaced := by
  cases h with
  | legible h =>
      cases h' with
      | legible h' => exact unplaced_eq_of_lexeme_eq h h' heq
      | endOfInput line => exact absurd heq (lexeme_ne_empty h)
  | endOfInput line =>
      cases h' with
      | legible h' => exact absurd heq.symm (lexeme_ne_empty h')
      | endOfInput line' => rfl

/-- What a token has in a listing. -/
def entry (t : Token) : List Char := (t.display ++ "\n").toList

/-- What stands behind the lexeme in an entry is settled by the value. -/
theorem exists_entry_eq (value : Value) : ∃ behind, ∀ t : Token, t.literal = value →
    t.entry = t.kind.name.toList ++ ' ' :: (t.lexeme.toList ++ ' ' :: behind) := by
  by_cases hnil : value = .nil
  · refine ⟨['\n'], ?_⟩
    rintro t rfl
    simp [entry, display, hnil]
  · refine ⟨value.display.toList ++ ['\n'], ?_⟩
    rintro t rfl
    have hdisplay : t.display = t.kind.name ++ " " ++ t.lexeme ++ " " ++ t.literal.display := by
      unfold display
      split
      · contradiction
      · rfl
    simp [entry, hdisplay]

/-- Listed tokens are the same, lines apart, if all that their entries start is the same. -/
theorem IsListed.entry_append_inj (h : t.IsListed) (h' : t'.IsListed)
    (heq : t.entry ++ rest = t'.entry ++ rest') : t.unplaced = t'.unplaced ∧ rest = rest' := by
  obtain ⟨behind, hentry⟩ := exists_entry_eq t.literal
  obtain ⟨behind', hentry'⟩ := exists_entry_eq t'.literal
  have hparts := heq
  rw [hentry t rfl, hentry' t' rfl] at hparts
  simp only [List.append_assoc, List.cons_append] at hparts
  obtain ⟨hname, hlexemes⟩ := Text.append_cons_inj t.kind.space_not_mem_name t'.kind.space_not_mem_name hparts
  have hkind : t.kind = t'.kind := Kind.name_injective (String.toList_inj.1 hname)
  obtain ⟨hlexeme, -⟩ := h.isDelimited.append_inj h'.isDelimited hkind hlexemes
  have hsame : t.unplaced = t'.unplaced := h.unplaced_eq h' hlexeme
  -- the line is the one field that may differ, and it is not in the entry
  have hentries : t.entry = t'.entry := by
    show t.unplaced.entry = t'.unplaced.entry
    rw [hsame]
  rw [hentries] at heq
  exact ⟨hsame, List.append_cancel_left heq⟩

/-! ## Listings -/

theorem entry_ne_nil (t : Token) : t.entry ≠ [] := by simp [entry]

/-- Entries in a row are those of one list of tokens, lines apart. -/
theorem map_unplaced_eq_of_flatMap_entry_eq (h : ∀ t ∈ ts, t.IsListed) (h' : ∀ t ∈ ts', t.IsListed)
    (heq : ts.flatMap entry = ts'.flatMap entry) : ts.map unplaced = ts'.map unplaced := by
  induction ts generalizing ts' with
  | nil =>
      cases ts' with
      | nil => rfl
      | cons t' ts' => simp [entry_ne_nil] at heq
  | cons t ts ih =>
      cases ts' with
      | nil => simp [entry_ne_nil] at heq
      | cons t' ts' =>
          rw [List.forall_mem_cons] at h h'
          rw [List.flatMap_cons, List.flatMap_cons] at heq
          obtain ⟨hfirst, hrest⟩ := h.1.entry_append_inj h'.1 heq
          rw [List.map_cons, List.map_cons, hfirst, ih h.2 h'.2 hrest]

end Token

namespace Session

theorem toList_listing (ts : List Token) :
    (String.join (ts.map fun t => t.display ++ "\n")).toList = ts.flatMap Token.entry := by
  induction ts with
  | nil => rfl
  | cons t ts ih => rw [List.map_cons, String.join_cons, String.toList_append, ih, List.flatMap_cons, Token.entry]

/-- The listing of tokens determines the tokens: two sources that a session lists alike have as many tokens,
and these agree one by one in kind, lexeme and value. -/
theorem listing_determines_tokens (source source' : String)
    (h : Event.outOf ((fresh .tokens).run source).events = Event.outOf ((fresh .tokens).run source').events) :
    List.Forall₂ (fun t t' => t.kind = t'.kind ∧ t.lexeme = t'.lexeme ∧ t.literal = t'.literal)
      (Scan.tokens source) (Scan.tokens source') := by
  have hout : ∀ source, Event.outOf ((fresh .tokens).run source).events =
      String.join ((Scan.tokens source).map fun t => t.display ++ "\n") :=
    fun source => (accounts_run (fresh .tokens) source).tokens rfl
  rw [hout, hout, ← String.toList_inj, toList_listing, toList_listing] at h
  have hsame := Token.map_unplaced_eq_of_flatMap_entry_eq (fun _ => Token.isListed_of_mem_tokens)
    (fun _ => Token.isListed_of_mem_tokens) h
  rw [← List.forall₂_eq_eq_eq, List.forall₂_map_left_iff, List.forall₂_map_right_iff] at hsame
  refine hsame.imp ?_
  intro t t' ht
  obtain ⟨hkind, hlexeme, hliteral, -⟩ := Token.mk.inj ht
  exact ⟨hkind, hlexeme, hliteral⟩

/-- A string that holds a line like an entry, listed for two sources that have their tokens on other lines and
of which only one is free of faults. -/
theorem listing_of_string_with_entry :
    let listed (source : String) := Event.outOf ((fresh .tokens).run source).events
    let source := "(\"\nEOF  \" -1)"
    let source' := "( \"\nEOF  \" // text\n- 1 )@"
    listed source = "LEFT_PAREN ( \nSTRING \"\nEOF  \" \nEOF  \nMINUS - \nNUMBER 1 1\nRIGHT_PAREN ) \nEOF  \n" ∧
      listed source' = listed source ∧
      List.Forall₂ (fun t t' => t.kind = t'.kind ∧ t.lexeme = t'.lexeme ∧ t.literal = t'.literal)
        (Scan.tokens source) (Scan.tokens source') ∧ Scan.tokens source ≠ Scan.tokens source' := by
  intro listed source source'
  have hlisted : listed source =
      "LEFT_PAREN ( \nSTRING \"\nEOF  \" \nEOF  \nMINUS - \nNUMBER 1 1\nRIGHT_PAREN ) \nEOF  \n" := by decide +kernel
  have hlisted' : listed source' = listed source := by decide +kernel
  exact ⟨hlisted, hlisted', listing_determines_tokens source source' hlisted'.symm, by decide +kernel⟩

end Session

end LoxSyntax
