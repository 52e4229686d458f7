/-
# LoxSyntax.Proofs.Expr.Reread -- which prints are read back

The parenthesized form is there to be looked at. As a source it gives the tree again only where the tree is a
literal that is displayed as it is written: nil, a truth value, or a numeral (`print_read_back_iff`).

Every other form of tree is printed in parentheses, and a tree that is read from such a print starts with a
group. Then in its own print nothing but operators and parentheses stand before the word `group`, as in
`(- (- (group`. No tree is written like that: a minus can be taken for a sign, but the word begins nothing
(`unbegun_parenthesized`). So where the print is read as a tree at all, that tree is printed in another way.

A number with an exponent is read as the numeral in front of the exponent. That is another number, because it
is displayed without one. Infinity is displayed by a name.
-/
import LoxSyntax.Proofs.Expr.Parenthesized
import LoxSyntax.Proofs.Expr.Same
import LoxSyntax.Proofs.Parse.RoundTrip

namespace LoxSyntax

open Number (Double Layout topCode)
open Number.Decimal (nearestCode_millionth nearestCode_ten_pow_twenty_one)

namespace Expr

open Scan (Legible readings)

variable {e f : Expr} {t u : Token} {tokens more : List Token} {kinds : List Kind}

/-! ## What no tree is written with -/

/-- No tree is written with tokens that begin with these kinds: whatever signs and parentheses stand in
front, a kind follows that begins nothing. -/
inductive Unbegun : List Kind → Prop where
  | stuck {kind : Kind} {rest : List Kind} :
      (∀ t : Token, t.kind = kind → t.operand? = none) → kind.isUnary = false → kind ≠ .leftParen →
      Unbegun (kind :: rest)
  | sign {kind : Kind} {rest : List Kind} : kind.isUnary = true → Unbegun rest → Unbegun (kind :: rest)
  | group {rest : List Kind} : Unbegun rest → Unbegun (.leftParen :: rest)

theorem Unbegun.append (h : Unbegun kinds) (more : List Kind) : Unbegun (kinds ++ more) := by
  induction h with
  | stuck hoperand hunary hparen => exact .stuck hoperand hunary hparen
  | sign hunary _ ih => exact .sign hunary ih
  | group _ ih => exact .group ih

/-- By induction on the tree: a sign and a parenthesis are taken off together with what they stand in front of,
and a binary operator begins with its left operand. -/
theorem Yields.not_unbegun (h : e.Yields tokens) (hc : e.Canonical) (more : List Kind) :
    ¬Unbegun (tokens.map Token.kind ++ more) := by
  induction h generalizing more with
  | @literal value t hvalue =>
      intro hunbegun
      rw [List.map_singleton, List.singleton_append] at hunbegun
      generalize hkind : t.kind = kind at hunbegun
      have hnone : t.operand? = none := by
        cases hunbegun with
        | stuck hoperand _ _ => exact hoperand t hkind
        | sign hunary _ => exact Parse.operand?_eq_none_of_isUnary (hkind ▸ hunary)
        | group _ => exact Parse.operand?_eq_none_of_leftParen hkind
      rw [hnone] at hvalue
      cases hvalue
  | @grouping inner open' close tokens hopen _ _ ih =>
      intro hunbegun
      rw [List.cons_append, List.map_cons, hopen, List.map_append, List.cons_append, List.append_assoc] at hunbegun
      cases hunbegun with
      | stuck _ _ hparen => exact hparen rfl
      | sign hunary _ => cases hunary
      | group hinner => exact ih hc _ hinner
  | @unary operator operand tokens _ ih =>
      obtain ⟨hunary, -, hoperand⟩ := hc
      intro hunbegun
      rw [List.map_cons, List.cons_append] at hunbegun
      generalize operator.kind = kind at hunary hunbegun
      cases hunbegun with
      | stuck _ hno _ =>
          rw [hunary] at hno
          cases hno
      | sign _ hrest => exact ih hoperand _ hrest
      | group _ => cases hunary
  | @binary left right operator before after _ _ ihl _ =>
      intro hunbegun
      rw [List.map_append, List.append_assoc] at hunbegun
      exact ihl hc.2.1 _ hunbegun

theorem unbegun_identifier (rest : List Kind) : Unbegun (.identifier :: rest) := by
  refine .stuck ?_ rfl (by decide)
  intro t hkind
  simp [Token.operand?, hkind]

/-- A tree that is written with a token of a value first, and with no operator behind it, is that value. -/
theorem Yields.eq_literal {value : Value} (h : e.Yields tokens) (hc : e.Canonical) (hvalue : t.operand? = some value)
    (hlevel : u.kind.level? = none) {more rest : List Token} (hsplit : tokens ++ more = t :: u :: rest) :
    e = .literal value := by
  induction h generalizing more with
  | @literal value' t' hvalue' =>
      obtain ⟨rfl, -⟩ := List.cons.inj hsplit
      rw [hvalue] at hvalue'
      rw [Option.some.inj hvalue']
  | @grouping inner open' close tokens hopen _ _ _ =>
      obtain ⟨rfl, -⟩ := List.cons.inj hsplit
      rw [Parse.operand?_eq_none_of_leftParen hopen] at hvalue
      cases hvalue
  | @unary operator operand tokens _ _ =>
      obtain ⟨rfl, -⟩ := List.cons.inj hsplit
      rw [Parse.operand?_eq_none_of_isUnary hc.1] at hvalue
      cases hvalue
  | @binary left right operator before after hl _ ihl _ =>
      obtain ⟨⟨level, hoperator, -⟩, hleft, -⟩ := hc
      rw [List.append_assoc] at hsplit
      obtain rfl := ihl hleft hsplit
      -- the left operand is the first token alone, so its operator is the second one
      cases hl with
      | literal _ =>
          obtain ⟨-, hsecond⟩ := List.cons.inj hsplit
          obtain ⟨rfl, -⟩ := List.cons.inj hsecond
          rw [hlevel] at hoperator
          cases hoperator

/-! ## Trees that start with a group -/

/-- The first lexeme of the tree is a parenthesis: a group stands in front, or behind binary operators only. -/
inductive LedByGroup : Expr → Prop where
  | grouping (inner : Expr) : LedByGroup (grouping inner)
  | binary {left : Expr} (operator : Token) (right : Expr) :
      LedByGroup left → LedByGroup (binary left operator right)

theorem Yields.ledByGroup (h : e.Yields tokens) (hc : e.Canonical) {rest : List Token}
    (hsplit : tokens ++ more = t :: rest) (hkind : t.kind = .leftParen) : e.LedByGroup := by
  induction h generalizing more with
  | @literal value t' hvalue =>
      obtain ⟨rfl, -⟩ := List.cons.inj hsplit
      rw [Parse.operand?_eq_none_of_leftParen hkind] at hvalue
      cases hvalue
  | grouping => exact .grouping _
  | unary =>
      obtain ⟨rfl, -⟩ := List.cons.inj hsplit
      obtain ⟨hunary, -⟩ := hc
      rw [hkind] at hunary
      cases hunary
  | binary _ _ ihl _ =>
      rw [List.append_assoc] at hsplit
      exact .binary _ _ (ihl hc.2.1 hsplit)

theorem legible_group : Legible ⟨.identifier, "group", .nil, 0⟩ := by
  have hbody : (Scan.sequence "group").body = [⟨.identifier, "group", .nil, 1⟩] := by cbv
  have hmem : ⟨.identifier, "group", .nil, 1⟩ ∈ (Scan.sequence "group").body := by
    rw [hbody]
    exact List.mem_singleton_self _
  exact (Scan.legible_of_mem_body _ _ hmem).of_unplaced_eq rfl

/-- A binary operator that is no sign begins nothing. -/
theorem unbegun_of_level? {kind : Kind} (hlevel : kind.level?.isSome = true) (hunary : kind.isUnary = false)
    (rest : List Kind) : Unbegun (kind :: rest) := by
  have hparen : kind ≠ .leftParen := by
    rintro rfl
    cases hlevel
  refine .stuck ?_ hunary hparen
  rintro t rfl
  unfold Token.operand?
  split <;> simp_all [Kind.level?]

/-- The print of a tree that starts with a group is no source of a tree. -/
theorem unbegun_parenthesized (h : e.LedByGroup) (hs : e.OperatorsSpelled) (rest : List Char) :
    Unbegun ((readings (e.parenthesized.toList ++ rest)).map Token.kind) := by
  induction h generalizing rest with
  | grouping inner =>
      have hprint : (grouping inner).parenthesized.toList ++ rest =
          '(' :: ("group".toList ++ ' ' :: (inner.parenthesized.toList ++ ')' :: rest)) := by
        simp [parenthesized]
      rw [hprint, Scan.readings_openParen, legible_group.readings_append]
      exact .group (unbegun_identifier _)
  | @binary left operator right _ ih =>
      have hprint : (binary left operator right).parenthesized.toList ++ rest =
          '(' :: (operator.lexeme.toList ++ ' ' :: (left.parenthesized.toList ++
            ' ' :: (right.parenthesized.toList ++ ')' :: rest))) := by
        simp [parenthesized]
      obtain ⟨hmem, hliteral⟩ := hs.1 operator (by simp [operators_binary])
      have hlegible : Legible operator :=
        Scan.legible_of_mem_fixedLexemes (List.mem_append_left _ (List.mem_append_left _ hmem)) hliteral
      have hleft := ih (hs.of_mem_children List.mem_cons_self) (' ' :: (right.parenthesized.toList ++ ')' :: rest))
      rw [hprint, Scan.readings_openParen, hlegible.readings_append]
      refine .group ?_
      -- only a minus is read on, as the sign of what its left operand is printed as
      cases hunary : operator.kind.isUnary with
      | true => exact .sign hunary hleft
      | false =>
          have hlevel := (Kind.level?_isSome_iff operator.kind).2 (List.mem_map.2 ⟨_, hmem, rfl⟩)
          exact unbegun_of_level? hlevel hunary _

/-! ## Reading a print -/

variable {limit limit' : Option Nat} {source : String} {r r' : Reporter} {value : Value}

/-- A tree that a parser gives for a source is canonical, spelled, and written with the first tokens of it. -/
theorem exists_taken_of_parse (h : ((Parser.ofSource source r).parse limit).1 = some e) :
    ∃ taken more, Scan.tokens source = taken ++ more ∧ e.Yields taken ∧ e.Canonical ∧ e.OperatorsSpelled := by
  obtain ⟨taken, last, t, hattempt⟩ := exists_attempt_of_parse h
  obtain ⟨hy, hc, -⟩ := hattempt.complete
  obtain ⟨more, hrest⟩ := hattempt.rest
  have htaken : ∀ t ∈ taken, t.IsRead := fun t ht => ⟨source, t, mem_body_of_taken hattempt t ht, rfl⟩
  exact ⟨taken, t :: more, hrest, hy, hc, operatorsSpelled_of_yields hy hc htaken⟩

/-- A source is not read as a tree if its tokens begin like those of no tree. -/
theorem not_unbegun_of_parse (h : ((Parser.ofSource source r).parse limit).1 = some e) :
    ¬Unbegun ((readings source.toList).map Token.kind) := by
  obtain ⟨taken, more, hsplit, hy, hc, -⟩ := exists_taken_of_parse h
  intro hunbegun
  have hkinds : (Scan.tokens source).map Token.kind =
      (readings source.toList).map Token.kind ++ [.endOfInput] := by
    have hmap := congrArg (List.map Token.kind) (Scan.map_unplaced_tokens_source source)
    rw [List.map_map, List.map_append] at hmap
    exact hmap
  rw [hsplit, List.map_append] at hkinds
  have hno := hy.not_unbegun hc (more.map Token.kind)
  rw [hkinds] at hno
  exact hno (hunbegun.append _)

/-- No print in parentheses is read as a tree that is printed alike. -/
theorem parenthesized_ne_of_form (hform : e.form ≠ .literal)
    (h : ((Parser.ofSource e.parenthesized r).parse limit).1 = some f) : f.parenthesized ≠ e.parenthesized := by
  intro heq
  obtain ⟨taken, more, hsplit, hy, hc, hs⟩ := exists_taken_of_parse h
  have hmap := Scan.map_unplaced_tokens_source e.parenthesized
  rw [toList_parenthesized hform, List.append_assoc, List.singleton_append, Scan.readings_openParen,
    List.cons_append] at hmap
  obtain ⟨t, rest, htokens, hfirst, -⟩ := List.map_eq_cons_iff.1 hmap
  have hkind : t.kind = .leftParen := congrArg Token.kind hfirst
  have hled : f.LedByGroup := hy.ledByGroup hc (hsplit.symm.trans htokens) hkind
  have hunbegun := unbegun_parenthesized hled hs []
  rw [List.append_nil, heq] at hunbegun
  exact not_unbegun_of_parse h hunbegun

/-- A number with an exponent is read as the numeral in front of it. -/
theorem exists_eq_literal_of_exponent {magnitude : Fin topCode} (hno : ¬(Double.finite false magnitude).IsNumeral)
    (h : ((Parser.ofSource (literal (.number (.finite false magnitude))).parenthesized r).parse limit).1 = some f) :
    ∃ y : Double, f = literal (.number y) ∧ y.IsNumeral := by
  obtain ⟨numeral, power, y, htext, hdenotes, hnumeral⟩ := Number.Decimal.exists_numeral_of_not_isNumeral hno
  obtain ⟨taken, more, hsplit, hy, hc, -⟩ := exists_taken_of_parse h
  have hmap := Scan.map_unplaced_tokens_source (literal (.number (.finite false magnitude))).parenthesized
  obtain ⟨name, hname⟩ := Scan.readings_powerText 1 power
  rw [show (literal (.number (.finite false magnitude))).parenthesized.toList = _ from htext,
    Scan.readings_numeral hdenotes (Number.Decimal.endsNumeral_powerText 1 power), hname, List.cons_append,
    List.cons_append] at hmap
  obtain ⟨t, behind, htokens, hfirst, hmap⟩ := List.map_eq_cons_iff.1 hmap
  obtain ⟨u, rest, rfl, hsecond, -⟩ := List.map_eq_cons_iff.1 hmap
  have hvalue : t.operand? = some (.number y) := by
    rw [← isSafe_unplaced.operand?, hfirst]
    rfl
  have hlevel : u.kind.level? = none := by
    rw [show u.kind = .identifier from congrArg Token.kind hsecond]
    rfl
  exact ⟨y, hy.eq_literal hc hvalue hlevel (hsplit.symm.trans htokens), hnumeral⟩

/-- No number is read back from its display that is displayed otherwise than by a numeral. -/
theorem parenthesized_ne_of_not_isNumeral {x : Double} (hunsigned : (Value.number x).IsUnsigned) (hno : ¬x.IsNumeral)
    (h : ((Parser.ofSource (literal (.number x)).parenthesized r).parse limit).1 = some f) :
    f.parenthesized ≠ (literal (.number x)).parenthesized := by
  rcases hunsigned with rfl | ⟨magnitude, rfl⟩
  · have hname : readings "Infinity".toList = [⟨.identifier, "Infinity", .nil, 0⟩] := by cbv
    have hunbegun : Unbegun ((readings "Infinity".toList).map Token.kind) := by
      rw [hname]
      exact unbegun_identifier []
    exact absurd hunbegun (not_unbegun_of_parse h)
  · obtain ⟨y, rfl, hnumeral⟩ := exists_eq_literal_of_exponent hno h
    obtain ⟨magnitude', rfl, -⟩ := hnumeral.exists_magnitude
    intro heq
    have hdisplay : Layout.display.write (.finite false magnitude') =
        Layout.display.write (.finite false magnitude) := heq
    have hread := Value.ofDisplay?_write magnitude
    rw [← hdisplay, Value.ofDisplay?_write magnitude'] at hread
    obtain rfl : magnitude' = magnitude := by simpa using hread
    exact hno hnumeral

/-- A literal that is displayed as it is written is read back. -/
theorem parse_parenthesized_literal (h : value.IsWritten) (htext : ∀ s, value ≠ .text s) :
    ((Parser.ofSource (literal value).parenthesized r).parse limit).1 = some (literal value) := by
  have hsource : (literal value).source = (literal value).parenthesized := by
    cases value with
    | text s => exact absurd rfl (htext s)
    | nil | bool | number => exact String.intercalate_singleton
  have hspelled : (literal value).OperatorsSpelled := ⟨by simp [operators, walk], by simp [operators, walk]⟩
  obtain ⟨hsequence, hfaultless⟩ := sequence_source hspelled (by simpa [literals] using h)
  obtain ⟨htree, -⟩ := Parser.parse_start_unplaced hsequence limit r
  rw [Parser.parse_start_written (e := literal value) trivial (fun n _ => Nat.zero_le n) r] at htree
  rw [← hsource, Parser.ofSource_of_faultless hfaultless]
  obtain ⟨f, hf, hunplaced⟩ := Option.map_eq_some_iff.1 htree
  rw [hf]
  cases f with
  | literal value' => exact congrArg some hunplaced
  | grouping | unary | binary => cases hunplaced

/-- The tree is a literal that is displayed as it is written: nil, a truth value, or a number that is zero or
lies between a millionth and `10 ^ 21`. -/
def IsPlainLiteral (e : Expr) : Prop :=
  e = literal .nil ∨ (∃ b, e = literal (.bool b)) ∨ ∃ x : Double, e = literal (.number x) ∧ x.IsNumeral

/-- A print can be read back only where it is a literal. Let a parser give a tree without texts for a source.
Parsing the parenthesized form of the tree gives a tree of the same form exactly if the tree is nil, a truth
value, or a number that is displayed without an exponent. Where it is anything else, there is no tree, or one
that is printed in another way. -/
theorem print_read_back_iff (limit limit' : Option Nat) (source : String) (r r' : Reporter) (e : Expr)
    (he : ((Parser.ofSource source r).parse limit).1 = some e) (htexts : ∀ s, .text s ∉ e.literals) :
    let again := ((Parser.ofSource e.parenthesized r').parse limit').1
    ((∃ f, again = some f ∧ f.parenthesized = e.parenthesized) ↔ e.IsPlainLiteral) ∧
      (¬e.IsPlainLiteral → again = none ∨ ∃ f, again = some f ∧ f.parenthesized ≠ e.parenthesized) := by
  intro again
  have hother : ¬e.IsPlainLiteral → ∀ f, again = some f → f.parenthesized ≠ e.parenthesized := by
    intro hplain f hf
    by_cases hform : e.form = .literal
    · obtain ⟨value, rfl⟩ := exists_literal hform
      cases value with
      | nil => exact absurd (.inl rfl) hplain
      | bool b => exact absurd (.inr (.inl ⟨b, rfl⟩)) hplain
      | text s => exact absurd (List.mem_singleton_self _) (htexts s)
      | number x =>
          have hunsigned := (isRead_of_parse he).values _ (List.mem_singleton_self _)
          have hnumeral : ¬x.IsNumeral := fun hx => hplain (.inr (.inr ⟨x, rfl, hx⟩))
          exact parenthesized_ne_of_not_isNumeral hunsigned hnumeral hf
    · exact parenthesized_ne_of_form hform hf
  have hback : e.IsPlainLiteral → again = some e := by
    rintro (rfl | ⟨b, rfl⟩ | ⟨x, rfl, hnumeral⟩)
    · exact parse_parenthesized_literal trivial fun s h => nomatch h
    · exact parse_parenthesized_literal trivial fun s h => nomatch h
    · exact parse_parenthesized_literal hnumeral fun s h => nomatch h
  constructor
  · constructor
    · rintro ⟨f, hf, heq⟩
      by_contra hplain
      exact hother hplain f hf heq
    · exact fun hplain => ⟨e, hback hplain, rfl⟩
  · intro hplain
    cases hagain : again with
    | none => exact .inl rfl
    | some f => exact .inr ⟨f, rfl, hother hplain f hagain⟩

/-- The last number that is read back, and the next one, whose exponent is lost. -/
theorem ten_pow_twenty_one_is_read_back_as_one :
    let read (source : String) := ((Parser.ofSource source (.empty false)).parse Parse.defaultLimit).1
    let e := literal (.number (.ofCode false 4921056587992461135))
    let f := literal (.number (.ofCode false 4921056587992461136))
    read "999999999999999868928.0" = some e ∧ e.parenthesized = "999999999999999900000" ∧
      (∃ again, read e.parenthesized = some again ∧ again.parenthesized = e.parenthesized) ∧
      read "1000000000000000000000" = some f ∧ f.parenthesized = "1e+21" ∧
      read f.parenthesized = some (literal (.number .one)) ∧
      ¬∃ again, read f.parenthesized = some again ∧ again.parenthesized = f.parenthesized := by
  intro read e f
  have he : read "999999999999999868928.0" = some e := by decide +kernel
  have hf : read "1000000000000000000000" = some f := by decide +kernel
  have htexts : ∀ x : Double, ∀ s, .text s ∉ (literal (.number x)).literals := by simp [literals]
  have hplain : e.IsPlainLiteral := by
    refine .inr (.inr ⟨_, rfl, ?_⟩)
    rw [Double.ofCode_of_lt false (by decide)]
    refine .inr ?_
    rw [nearestCode_millionth, nearestCode_ten_pow_twenty_one]
    decide
  have hexponent : ¬f.IsPlainLiteral := by
    rintro (h | ⟨b, h⟩ | ⟨x, h, hnumeral⟩)
    · cases literal.inj h
    · cases literal.inj h
    · obtain rfl : Double.ofCode false 4921056587992461136 = x := Value.number.inj (literal.inj h)
      rw [Double.ofCode_of_lt false (by decide)] at hnumeral
      rcases hnumeral with hzero | ⟨-, hlt⟩
      · cases hzero
      · rw [nearestCode_ten_pow_twenty_one] at hlt
        exact absurd hlt (by decide)
  have hback := (print_read_back_iff _ Parse.defaultLimit _ _ (.empty false) e he (htexts _)).1
  have hlost := (print_read_back_iff _ Parse.defaultLimit _ _ (.empty false) f hf (htexts _)).1
  exact ⟨he, by decide +kernel, hback.2 hplain, hf, by decide +kernel, by decide +kernel,
    fun h => hexponent (hlost.1 h)⟩

end Expr

end LoxSyntax
