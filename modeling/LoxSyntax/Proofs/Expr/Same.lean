/-
# LoxSyntax.Proofs.Expr.Same -- what it says of two trees that they compare equal

Values compare equal as numbers, and a truth value counts as a number. So two trees that parsers give for
sources compare equal exactly if they become one tree when every truth value is replaced by the number that
it counts as (`same_iff`): among the values of tokens there is no negative zero and no not-a-number, and
operators have no value.

Trees that compare equal have the same shape, and their prints run alike up to the first place where their
literals differ. There one has a truth value and the other a number, so the one print goes on with a letter
and the other with a digit (`eq_of_display_append_eq`). So such trees are printed alike only if they are one
tree: nothing but a truth value against its number can keep them apart.
-/
import LoxSyntax.Proofs.Expr.ReversePolish

namespace LoxSyntax

open Number (Double Layout)

/-! ## Values -/

namespace Value

variable {v w : Value} {x y : Double} {rest rest' : List Char}

/-- A value, with the number that it counts as in place of a truth value. -/
def counted : Value → Value
  | .bool true => .number .one
  | .bool false => .number .zero
  | value => value

/-- The value is no number with a sign, and not the not-a-number. -/
def IsUnsigned : Value → Prop
  | .number x => x = .infinite false ∨ ∃ magnitude, x = .finite false magnitude
  | _ => True

theorem isUnsigned_counted (h : v.IsUnsigned) : v.counted.IsUnsigned := by
  rcases v with _ | (_ | _) | _ | _
  · exact h
  · exact .inr ⟨_, Double.ofCode_of_lt false (by decide)⟩
  · exact .inr ⟨_, Double.ofCode_of_lt false (by decide)⟩
  · exact h
  · exact h

/-- A number that is read back from its display has no sign. -/
theorem ReadsBack.isUnsigned (h : v.ReadsBack) : v.IsUnsigned := by
  rcases v with _ | _ | (_ | (_ | _) | ⟨_ | _, magnitude⟩) | _
  · exact trivial
  · exact trivial
  · have hread : ofDisplay? (Value.number .nan).display.toList = none := by decide
    cases hread.symm.trans h
  · exact .inl rfl
  · cases (ofDisplay?_minus "Infinity".toList).symm.trans h
  · exact .inr ⟨magnitude, rfl⟩
  · replace h : ofDisplay? (Layout.display.write (.finite true magnitude)).toList = _ := h
    by_cases hzero : magnitude.val = 0
    · have hwrite : Layout.display.write (.finite true magnitude) =
          Layout.display.write (.finite false magnitude) := by
        simp [Layout.write, Layout.sign, Layout.display, hzero]
      rw [hwrite, ofDisplay?_write] at h
      cases h
    · rw [toList_display_negative hzero, ofDisplay?_minus] at h
      cases h
  · exact trivial

theorem sameValue_iff (hx : (number x).IsUnsigned) (hy : (number y).IsUnsigned) :
    x.sameValue y = true ↔ x = y := by
  rcases hx with rfl | ⟨magnitude, rfl⟩
  · rcases hy with rfl | ⟨magnitude', rfl⟩ <;> simp [Double.sameValue]
  · rcases hy with rfl | ⟨magnitude', rfl⟩ <;> simp [Double.sameValue]

theorem counted_of_number? (h : v.number? = some x) : v.counted = .number x := by
  rcases v with _ | (_ | _) | _ | _ <;> cases h <;> rfl

theorem counted_of_number?_eq_none (h : v.number? = none) : v.counted = v := by
  rcases v with _ | (_ | _) | _ | _ <;> first | rfl | cases h

theorem number?_counted (v : Value) : v.counted.number? = v.number? := by
  rcases v with _ | (_ | _) | _ | _ <;> rfl

theorem same_of_number? (hx : v.number? = some x) (hy : w.number? = some y) :
    v.same w = x.sameValue y := by
  rcases v with _ | (_ | _) | _ | _ <;> cases hx <;> rcases w with _ | (_ | _) | _ | _ <;> cases hy <;> rfl

theorem same_of_number?_eq_none (h : v.number? = none ∨ w.number? = none) : v.same w = true ↔ v = w := by
  rcases v with _ | (_ | _) | _ | _ <;> rcases w with _ | (_ | _) | _ | _ <;> simp_all [same, number?]

/-- Values compare equal if they count as the same. -/
theorem same_iff (hv : v.IsUnsigned) (hw : w.IsUnsigned) : v.same w = true ↔ v.counted = w.counted := by
  cases hx : v.number? with
  | none =>
      rw [same_of_number?_eq_none (.inl hx)]
      refine ⟨congrArg counted, fun h => ?_⟩
      have hy : w.number? = none := by rw [← number?_counted, ← h, number?_counted, hx]
      rwa [counted_of_number?_eq_none hx, counted_of_number?_eq_none hy] at h
  | some x =>
      cases hy : w.number? with
      | none =>
          rw [same_of_number?_eq_none (.inr hy)]
          refine ⟨congrArg counted, fun h => ?_⟩
          rw [← number?_counted, ← h, number?_counted, hx] at hy
          cases hy
      | some y =>
          have hcountedv := isUnsigned_counted hv
          have hcountedw := isUnsigned_counted hw
          rw [counted_of_number? hx] at hcountedv
          rw [counted_of_number? hy] at hcountedw
          rw [same_of_number? hx hy, sameValue_iff hcountedv hcountedw, counted_of_number? hx,
            counted_of_number? hy, Value.number.injEq]

/-- Different values that count as the same are a truth value and its number. -/
theorem eq_or_of_counted_eq (h : v.counted = w.counted) :
    v = w ∨ ∃ b, (v = .bool b ∧ w = (Value.bool b).counted) ∨ (v = (Value.bool b).counted ∧ w = .bool b) := by
  cases v with
  | bool b =>
      cases w with
      | bool b' =>
          have hinjective : ∀ b b' : Bool, (Value.bool b).counted = (Value.bool b').counted → b = b' := by decide
          exact .inl (congrArg Value.bool (hinjective b b' h))
      | number y => exact .inr ⟨b, .inl ⟨rfl, h.symm⟩⟩
      | nil | text => cases b <;> cases h
  | nil | number | text =>
      cases w with
      | bool b => exact .inr ⟨b, .inr ⟨h, rfl⟩⟩
      | nil | number | text => exact .inl h

/-- A truth value is displayed by letters, and its number by a digit. -/
theorem display_bool_append_ne (b : Bool) (rest rest' : List Char) :
    (Value.bool b).display.toList ++ rest ≠ (Value.bool b).counted.display.toList ++ rest' := by
  have hheads : ∀ b : Bool, ∃ c d, (Value.bool b).display.toList.head? = some c ∧
      (Value.bool b).counted.display.toList.head? = some d ∧ c ≠ d := by
    intro b
    cases b with
    | false => exact ⟨'f', '0', by decide +kernel⟩
    | true => exact ⟨'t', '1', by decide +kernel⟩
  obtain ⟨c, d, hc, hd, hne⟩ := hheads b
  intro heq
  have hhead := congrArg List.head? heq
  rw [List.head?_append, List.head?_append, hc, hd] at hhead
  exact hne (Option.some.inj hhead)

/-- Values that count as the same and are displayed with texts behind them that make the same text are
equal. -/
theorem eq_of_display_append_eq (hcounted : v.counted = w.counted)
    (h : v.display.toList ++ rest = w.display.toList ++ rest') : v = w ∧ rest = rest' := by
  rcases eq_or_of_counted_eq hcounted with rfl | ⟨b, ⟨rfl, rfl⟩ | ⟨rfl, rfl⟩⟩
  · exact ⟨rfl, List.append_cancel_left h⟩
  · exact absurd h (display_bool_append_ne b rest rest')
  · exact absurd h.symm (display_bool_append_ne b rest' rest)

end Value

/-! ## Tokens of sources -/

namespace Token

/-- Tokens without values compare equal only if they are. -/
theorem same_iff {s t : Token} (hs : s.literal = .nil) (ht : t.literal = .nil) : s.same t = true ↔ s = t := by
  obtain ⟨kind, lexeme, literal, line⟩ := s
  obtain ⟨kind', lexeme', literal', line'⟩ := t
  obtain rfl : literal = .nil := hs
  obtain rfl : literal' = .nil := ht
  have hnil : Value.nil.same .nil = true := rfl
  simp [same, hnil, and_assoc]

/-- No value of a token of a source has a sign. -/
theorem IsRead.isUnsigned {t : Token} {value : Value} (h : t.IsRead) (hvalue : t.operand? = some value) :
    value.IsUnsigned := by
  cases value with
  | text s => exact trivial
  | nil | bool | number =>
      refine (h.readsBack hvalue ?_).isUnsigned
      rintro s ⟨⟩

end Token

namespace Expr

variable {e f : Expr} {rest rest' : List Char}

/-! ## Trees of sources -/

/-- A tree, with the numbers that they count as in place of truth values. -/
def counted : Expr → Expr
  | literal value => literal value.counted
  | grouping inner => grouping inner.counted
  | unary operator operand => unary operator operand.counted
  | binary left operator right => binary left.counted operator right.counted

/-- No number in the tree has a sign, and no operator has a value. -/
structure IsRead (e : Expr) : Prop where
  values : ∀ value ∈ e.literals, value.IsUnsigned
  binary : ∀ t ∈ e.operators .binary, t.literal = .nil
  unary : ∀ t ∈ e.operators .unary, t.literal = .nil

theorem IsRead.of_mem_children (h : e.IsRead) (hf : f ∈ e.children) : f.IsRead where
  values value hvalue := h.values value (literals_subset_of_mem_children hf hvalue)
  binary t ht := h.binary t (operators_subset_of_mem_children hf _ ht)
  unary t ht := h.unary t (operators_subset_of_mem_children hf _ ht)

theorem counted_of_no_bool (h : ∀ b, .bool b ∉ e.literals) : e.counted = e := by
  induction e with
  | literal value =>
      cases value with
      | bool b => exact absurd (List.mem_singleton_self _) (h b)
      | nil | number | text => rfl
  | grouping inner ih => rw [counted, ih h]
  | unary operator operand ih => rw [counted, ih h]
  | binary left operator right ihl ihr =>
      simp only [literals, List.mem_append, not_or] at h
      rw [counted, ihl fun b => (h b).1, ihr fun b => (h b).2]

/-- Trees compare equal if they count as the same. -/
theorem same_iff (he : e.IsRead) (hf : f.IsRead) : e.same f = true ↔ e.counted = f.counted := by
  induction e generalizing f with
  | literal v =>
      cases f with
      | literal w =>
          have hvalues := Value.same_iff (he.values v (List.mem_singleton_self v))
            (hf.values w (List.mem_singleton_self w))
          rw [same, hvalues, counted, counted, literal.injEq]
      | grouping | unary | binary => simp [same, counted]
  | grouping inner ih =>
      cases f with
      | grouping inner' =>
          have hinner := ih (he.of_mem_children List.mem_cons_self) (hf.of_mem_children List.mem_cons_self)
          rw [same, hinner, counted, counted, grouping.injEq]
      | literal | unary | binary => simp [same, counted]
  | unary operator operand ih =>
      cases f with
      | unary operator' operand' =>
          have hoperator := Token.same_iff (he.unary operator (by simp [operators_unary]))
            (hf.unary operator' (by simp [operators_unary]))
          have hoperand := ih (he.of_mem_children List.mem_cons_self) (hf.of_mem_children List.mem_cons_self)
          rw [same, Bool.and_eq_true, hoperator, hoperand, counted, counted, unary.injEq]
      | literal | grouping | binary => simp [same, counted]
  | binary left operator right ihl ihr =>
      cases f with
      | binary left' operator' right' =>
          have hoperator := Token.same_iff (he.binary operator (by simp [operators_binary]))
            (hf.binary operator' (by simp [operators_binary]))
          have hleft := ihl (he.of_mem_children List.mem_cons_self) (hf.of_mem_children List.mem_cons_self)
          have hright := ihr (he.of_mem_children (List.mem_cons_of_mem _ List.mem_cons_self))
            (hf.of_mem_children (List.mem_cons_of_mem _ List.mem_cons_self))
          rw [same, Bool.and_eq_true, Bool.and_eq_true, hleft, hoperator, hright, counted, counted,
            binary.injEq, and_assoc]
      | literal | grouping | unary => simp [same, counted]

/-- A parser of a source gives such trees. -/
theorem isRead_of_parse {limit : Option Nat} {source : String} {r : Reporter}
    (h : ((Parser.ofSource source r).parse limit).1 = some e) : e.IsRead := by
  obtain ⟨taken, hy, hc, hmem⟩ := exists_yields_of_parse h
  have htaken : ∀ t ∈ taken, t.IsRead := fun t ht => ⟨source, t, hmem t ht, rfl⟩
  obtain ⟨hbinary, hunary⟩ := operatorsSpelled_of_yields hy hc htaken
  refine ⟨fun value hvalue => ?_, fun t ht => (hbinary t ht).2, fun t ht => (hunary t ht).2⟩
  obtain ⟨t, ht, hoperand⟩ := exists_token_of_mem_literals hy hvalue
  exact (htaken t ht).isUnsigned hoperand

/-! ## Prints -/

/-- A print of a tree is put together from the prints of its children, in order: what stands in front of
them, between them and behind them is settled by the form and the operator. -/
structure IsComposed (print : Expr → List Char) : Prop where
  literal : ∀ value, print (literal value) = value.display.toList
  grouping : ∃ front back, ∀ inner, print (grouping inner) = front ++ (print inner ++ back)
  unary : ∀ t, ∃ front back, ∀ operand, print (unary t operand) = front ++ (print operand ++ back)
  binary : ∀ t, ∃ front middle back, ∀ left right,
    print (binary left t right) = front ++ (print left ++ (middle ++ (print right ++ back)))

theorem isComposed_parenthesized : IsComposed fun e => e.parenthesized.toList where
  literal _ := rfl
  grouping := ⟨"(group ".toList, ")".toList, fun inner => by simp [parenthesized]⟩
  unary t := ⟨"(".toList ++ t.lexeme.toList ++ " ".toList, ")".toList, fun operand => by simp [parenthesized]⟩
  binary t := ⟨"(".toList ++ t.lexeme.toList ++ " ".toList, " ".toList, ")".toList, fun left right => by
    simp [parenthesized]⟩

theorem isComposed_reversePolish : IsComposed fun e => e.reversePolish.toList where
  literal _ := rfl
  grouping := ⟨[], [], fun inner => by simp [reversePolish]⟩
  unary t := ⟨t.lexeme.toList, [], fun operand => by simp [reversePolish]⟩
  binary t := ⟨[], " ".toList, " ".toList ++ t.lexeme.toList, fun left right => by simp [reversePolish]⟩

/-- Trees that count as the same and are printed with texts behind them that make the same text are equal:
their prints cannot run alike beyond a place where the literals differ. -/
theorem IsComposed.eq_of_append_eq {print : Expr → List Char} (h : IsComposed print)
    (hcounted : e.counted = f.counted) (heq : print e ++ rest = print f ++ rest') : e = f ∧ rest = rest' := by
  induction e generalizing f rest rest' with
  | literal v =>
      cases f with
      | literal w =>
          rw [h.literal, h.literal] at heq
          obtain ⟨rfl, hrest⟩ := Value.eq_of_display_append_eq (literal.inj hcounted) heq
          exact ⟨rfl, hrest⟩
      | grouping | unary | binary => cases hcounted
  | grouping inner ih =>
      cases f with
      | grouping inner' =>
          obtain ⟨front, back, hprint⟩ := h.grouping
          simp only [hprint, List.append_assoc, List.append_cancel_left_eq] at heq
          obtain ⟨rfl, hrest⟩ := ih (grouping.inj hcounted) heq
          exact ⟨rfl, List.append_cancel_left hrest⟩
      | literal | unary | binary => cases hcounted
  | unary operator operand ih =>
      cases f with
      | unary operator' operand' =>
          obtain ⟨rfl, hoperand⟩ := unary.inj hcounted
          obtain ⟨front, back, hprint⟩ := h.unary operator
          simp only [hprint, List.append_assoc, List.append_cancel_left_eq] at heq
          obtain ⟨rfl, hrest⟩ := ih hoperand heq
          exact ⟨rfl, List.append_cancel_left hrest⟩
      | literal | grouping | binary => cases hcounted
  | binary left operator right ihl ihr =>
      cases f with
      | binary left' operator' right' =>
          obtain ⟨hleft, rfl, hright⟩ := binary.inj hcounted
          obtain ⟨front, middle, back, hprint⟩ := h.binary operator
          simp only [hprint, List.append_assoc, List.append_cancel_left_eq] at heq
          obtain ⟨rfl, hmiddle⟩ := ihl hleft heq
          obtain ⟨rfl, hrest⟩ := ihr hright (List.append_cancel_left hmiddle)
          exact ⟨rfl, List.append_cancel_left hrest⟩
      | literal | grouping | unary => cases hcounted

theorem IsComposed.eq_iff {print : Expr → List Char} (h : IsComposed print) (hcounted : e.counted = f.counted) :
    print e = print f ↔ e = f := by
  constructor
  · intro heq
    have hends : print e ++ [] = print f ++ [] := by rw [heq]
    exact (h.eq_of_append_eq hcounted hends).1
  · rintro rfl
    rfl

/-- Of two trees that parsers give for sources, comparing equal says that they are one tree once truth values
are replaced by the numbers they count as: one for truth, zero for falsehood. It does not say that they are
printed alike: if they compare equal, the parenthesized forms are the same only if the trees are, and so are
the postfix forms. Where there is no truth value in either, trees compare equal only if they are. -/
theorem same_iff_counted_and_printed_alike_iff (limit limit' : Option Nat) (source source' : String)
    (r r' : Reporter) (e f : Expr) (he : ((Parser.ofSource source r).parse limit).1 = some e)
    (hf : ((Parser.ofSource source' r').parse limit').1 = some f) :
    (e.same f = true ↔ e.counted = f.counted) ∧
      (e.same f = true → (e.parenthesized = f.parenthesized ↔ e = f) ∧
        (e.reversePolish = f.reversePolish ↔ e = f)) ∧
      ((∀ b, .bool b ∉ e.literals) → (∀ b, .bool b ∉ f.literals) → (e.same f = true ↔ e = f)) := by
  have hsame := same_iff (isRead_of_parse he) (isRead_of_parse hf)
  refine ⟨hsame, ?_, ?_⟩
  · intro h
    have hcounted := hsame.1 h
    rw [← String.toList_inj, ← String.toList_inj]
    exact ⟨isComposed_parenthesized.eq_iff hcounted, isComposed_reversePolish.eq_iff hcounted⟩
  · intro hno hno'
    rw [hsame, counted_of_no_bool hno, counted_of_no_bool hno']

/-- Truth and one compare equal wherever they stand in a tree, but they are not printed alike. -/
theorem negation_of_truth_same_as_negation_of_one :
    let read (source : String) := ((Parser.ofSource source (.empty false)).parse Parse.defaultLimit).1
    let tree (value : Value) := unary ⟨.bang, "!", .nil, 1⟩
      (grouping (binary (literal value) ⟨.equalEqual, "==", .nil, 1⟩ (literal (.number .zero))))
    let e := tree (.bool true)
    let f := tree (.number .one)
    read "!(true == 0)" = some e ∧ read "!(1 == 0)" = some f ∧ e.same f = true ∧
      e.parenthesized ≠ f.parenthesized ∧ e.reversePolish ≠ f.reversePolish := by
  intro read tree e f
  have he : read "!(true == 0)" = some e := by decide +kernel
  have hf : read "!(1 == 0)" = some f := by decide +kernel
  obtain ⟨hsame, hprints, -⟩ := same_iff_counted_and_printed_alike_iff _ _ _ _ _ _ e f he hf
  have hboth : e.same f = true := hsame.2 rfl
  obtain ⟨hparenthesized, hreverse⟩ := hprints hboth
  have hne : e ≠ f := by decide +kernel
  exact ⟨he, hf, hboth, fun h => hne (hparenthesized.1 h), fun h => hne (hreverse.1 h)⟩

/-- The trees of `true` and of `1` compare equal, and each is printed as its source. -/
theorem truth_same_as_one :
    let read (source : String) := ((Parser.ofSource source (.empty false)).parse Parse.defaultLimit).1
    let e := literal (.bool true)
    let f := literal (.number .one)
    read "true" = some e ∧ read "1" = some f ∧ e.same f = true ∧
      e.parenthesized = "true" ∧ f.parenthesized = "1" ∧ e.reversePolish = "true" ∧ f.reversePolish = "1" := by
  decide +kernel

end Expr

end LoxSyntax
