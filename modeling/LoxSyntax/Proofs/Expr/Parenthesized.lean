/-
# LoxSyntax.Proofs.Expr.Parenthesized -- the parenthesized form settles the tree

A tree that is no literal is printed as a word and its children, each behind a space, between parentheses
(`toList_parenthesized`). So both results about the print are shown for a tree from what holds of its
children: how many parentheses there are and that they are balanced (`count_parenthesized`,
`balanced_parenthesized`), and that no two trees have the same print (`isSettled`).

For the second one the print is read with a text behind it. Where a word ends is told by the space or the
parenthesis that follows it, and how many children there are is told by the parenthesis that follows the
last one. That is why a minus with one operand and a minus with two are not taken for each other. Only the
lexemes of the operators are printed, so only they are settled.
-/
import LoxSyntax.Expr.Printer
import LoxSyntax.Proofs.Expr.Display
import Mathlib

namespace LoxSyntax

/-! ## Words and parentheses -/

namespace Text

variable {text more word other rest rest' : List Char}

/-- Every parenthesis of the text has its partner. -/
inductive Balanced : List Char → Prop where
  | nil : Balanced []
  | other {c : Char} {rest : List Char} : c ≠ '(' → c ≠ ')' → Balanced rest → Balanced (c :: rest)
  | group {inner rest : List Char} :
      Balanced inner → Balanced rest → Balanced ('(' :: inner ++ ')' :: rest)

theorem Balanced.append (h : Balanced text) (h' : Balanced more) : Balanced (text ++ more) := by
  induction h with
  | nil => exact h'
  | other hopen hclose _ ih => exact .other hopen hclose ih
  | @group inner rest hinner _ _ ih =>
      have hgroup : '(' :: inner ++ ')' :: rest ++ more = '(' :: inner ++ ')' :: (rest ++ more) := by simp
      rw [hgroup]
      exact .group hinner ih

theorem IsWord.balanced (h : IsWord word) : Balanced word := by
  induction word with
  | nil => exact .nil
  | cons c word ih =>
      have hc : c ∉ [' ', '(', ')'] := h c List.mem_cons_self
      simp only [List.mem_cons, List.not_mem_nil, or_false, not_or] at hc
      exact .other hc.2.1 hc.2.2 (ih fun d hd => h d (List.mem_cons_of_mem c hd))

theorem IsWord.count_eq_zero (h : IsWord word) {c : Char} (hc : c ∈ [' ', '(', ')']) : word.count c = 0 :=
  List.count_eq_zero.2 fun hmem => h c hmem hc

/-- A word ends before the text: the text is empty, or goes on with a space or a closing parenthesis. -/
def EndsWord (text : List Char) : Prop := ∀ c ∈ text.head?, c = ' ' ∨ c = ')'

theorem EndsWord.ne_append (hend : EndsWord rest) {c : Char} (hc : c ∉ [' ', ')']) (text : List Char) :
    rest ≠ c :: text := by
  rintro rfl
  exact hc (by simpa using hend c rfl)

/-- Two words that are followed by their ends are the same if the texts are. -/
theorem IsWord.append_inj (h : IsWord word) (h' : IsWord other) (hend : EndsWord rest)
    (hend' : EndsWord rest') (heq : word ++ rest = other ++ rest') : word = other ∧ rest = rest' := by
  have hbreak : ∀ {c : Char}, c ∉ [' ', '(', ')'] → c ∉ [' ', ')'] := by
    intro c hc hmem
    simp only [List.mem_cons, List.not_mem_nil, or_false, not_or] at hc hmem
    rcases hmem with hspace | hclose
    · exact hc.1 hspace
    · exact hc.2.2 hclose
  induction word generalizing other with
  | nil =>
      cases other with
      | nil => exact ⟨rfl, heq⟩
      | cons c other => exact absurd heq (hend.ne_append (hbreak (h' c List.mem_cons_self)) _)
  | cons c word ih =>
      cases other with
      | nil => exact absurd heq.symm (hend'.ne_append (hbreak (h c List.mem_cons_self)) _)
      | cons d other =>
          obtain ⟨rfl, htexts⟩ := List.cons.inj heq
          have htail := ih (fun d hd => h d (List.mem_cons_of_mem c hd))
            (fun d hd => h' d (List.mem_cons_of_mem c hd)) htexts
          exact ⟨congrArg (c :: ·) htail.1, htail.2⟩

/-- No word starts with a parenthesis. -/
theorem IsWord.append_ne_open (h : IsWord word) (hend : EndsWord rest) (text : List Char) :
    word ++ rest ≠ '(' :: text := by
  cases word with
  | nil => exact hend.ne_append (by decide) text
  | cons c word =>
      intro heq
      have hc : c ∉ [' ', '(', ')'] := h c List.mem_cons_self
      rw [(List.cons.inj heq).1] at hc
      exact hc (by decide)

end Text

namespace Expr

open Number (Double)
open Text (Balanced EndsWord IsWord)

variable {e f : Expr} {es fs : List Expr} {rest rest' : List Char}

/-! ## Plain trees -/

/-- Every value of the tree is told by its display, and the operators are spelled like operators. -/
structure IsPlain (e : Expr) : Prop where
  values : ∀ value ∈ e.literals, value.IsPlain
  binary : ∀ t ∈ e.operators .binary, t.lexeme ∈ Kind.binaryOperators.map Prod.fst
  unary : ∀ t ∈ e.operators .unary, t.lexeme ∈ Kind.unaryOperators.map Prod.fst

theorem IsPlain.of_mem_children (h : e.IsPlain) (hf : f ∈ e.children) : f.IsPlain where
  values value hvalue := h.values value (literals_subset_of_mem_children hf hvalue)
  binary t ht := h.binary t (operators_subset_of_mem_children hf _ ht)
  unary t ht := h.unary t (operators_subset_of_mem_children hf _ ht)

/-- The word that a tree is printed with; a literal is printed without one. -/
def word : Expr → String
  | literal _ => ""
  | grouping _ => "group"
  | unary operator _ | binary _ operator _ => operator.lexeme

theorem lexeme_of_binary {left right : Expr} {operator : Token} (h : (binary left operator right).IsPlain) :
    operator.lexeme ∈ Kind.binaryOperators.map Prod.fst :=
  h.binary operator (by simp [operators_binary])

theorem lexeme_of_unary {operand : Expr} {operator : Token} (h : (unary operator operand).IsPlain) :
    operator.lexeme ∈ Kind.unaryOperators.map Prod.fst :=
  h.unary operator (by simp [operators_unary])

theorem IsPlain.isWord_word (h : e.IsPlain) : IsWord e.word.toList := by
  cases e with
  | literal value =>
      show IsWord "".toList
      decide
  | grouping inner =>
      show IsWord "group".toList
      decide
  | unary operator operand =>
      have hall : ∀ lexeme ∈ Kind.unaryOperators.map Prod.fst, IsWord lexeme.toList := by decide
      exact hall _ (lexeme_of_unary h)
  | binary left operator right =>
      have hall : ∀ lexeme ∈ Kind.binaryOperators.map Prod.fst, IsWord lexeme.toList := by decide
      exact hall _ (lexeme_of_binary h)

theorem exists_literal (h : e.form = .literal) : ∃ value, e = literal value := by
  cases e with
  | literal value => exact ⟨value, rfl⟩
  | _ => cases h

/-! ## The print of a tree by those of its children -/

/-- Trees as they are printed in a row, each behind a space. -/
def row (es : List Expr) : List Char := es.flatMap fun e => ' ' :: e.parenthesized.toList

theorem row_cons (e : Expr) (es : List Expr) : row (e :: es) = ' ' :: (e.parenthesized.toList ++ row es) := rfl

theorem toList_parenthesized (h : e.form ≠ .literal) :
    e.parenthesized.toList = ['('] ++ (e.word.toList ++ row e.children) ++ [')'] := by
  cases e with
  | literal value => exact absurd rfl h
  | grouping inner => simp [parenthesized, word, row, children]
  | unary operator operand => simp [parenthesized, word, row, children]
  | binary left operator right => simp [parenthesized, word, row, children]

/-- A tree holds of a property if every tree does whose children have it. -/
theorem induction_on_children {motive : Expr → Prop}
    (step : ∀ e, (∀ f ∈ e.children, motive f) → motive e) (e : Expr) : motive e := by
  induction e with
  | literal value => exact step _ (by simp [children])
  | grouping inner ih => exact step _ (by simpa [children] using ih)
  | unary operator operand ih => exact step _ (by simpa [children] using ih)
  | binary left operator right ihl ihr => exact step _ (by simpa [children] using ⟨ihl, ihr⟩)

/-! ## Parentheses -/

theorem count_row {paren : Char} (hparen : paren ≠ ' ')
    (h : ∀ f ∈ es, f.parenthesized.toList.count paren = f.walk.countP (·.form ≠ .literal)) :
    (row es).count paren = (es.flatMap walk).countP (·.form ≠ .literal) := by
  induction es with
  | nil => rfl
  | cons e es ih =>
      rw [List.forall_mem_cons] at h
      rw [row_cons, List.count_cons_of_ne hparen.symm, List.count_append, h.1, ih h.2, List.flatMap_cons,
        List.countP_append]

/-- Each tree in a plain tree, literals apart, has one parenthesis of each sort in the print. -/
theorem count_parenthesized {paren : Char} (hparen : paren ∈ ['(', ')']) (h : e.IsPlain) :
    e.parenthesized.toList.count paren = e.walk.countP (·.form ≠ .literal) := by
  have hspace : paren ≠ ' ' := by
    rintro rfl
    revert hparen
    decide
  have hbreak : paren ∈ [' ', '(', ')'] := List.mem_cons_of_mem ' ' hparen
  induction e using induction_on_children with
  | step e ih =>
      by_cases hform : e.form = .literal
      · obtain ⟨value, rfl⟩ := exists_literal hform
        have hword : IsWord value.display.toList := Value.isWord_display (h.values value (List.mem_singleton_self _))
        simpa [walk, form, parenthesized] using hword.count_eq_zero hbreak
      · have hchildren := count_row hspace fun f hf => ih f hf (h.of_mem_children hf)
        have hword : e.word.toList.count paren = 0 := h.isWord_word.count_eq_zero hbreak
        have hends : ['('].count paren + [')'].count paren = 1 := by
          rw [List.mem_cons, List.mem_singleton] at hparen
          rcases hparen with rfl | rfl <;> rfl
        have hself : (if decide (e.form ≠ .literal) = true then 1 else 0) = 1 := by simp [hform]
        rw [toList_parenthesized hform, walk_eq, List.countP_cons, hself, ← hchildren, List.count_append,
          List.count_append, List.count_append, hword]
        omega

theorem balanced_row (h : ∀ f ∈ es, Balanced f.parenthesized.toList) : Balanced (row es) := by
  induction es with
  | nil => exact .nil
  | cons e es ih =>
      rw [List.forall_mem_cons] at h
      exact .other (by decide) (by decide) (h.1.append (ih h.2))

theorem balanced_parenthesized (h : e.IsPlain) : Balanced e.parenthesized.toList := by
  induction e using induction_on_children with
  | step e ih =>
      by_cases hform : e.form = .literal
      · obtain ⟨value, rfl⟩ := exists_literal hform
        exact (Value.isWord_display (h.values value (List.mem_singleton_self _))).balanced
      · have hchildren := balanced_row fun f hf => ih f hf (h.of_mem_children hf)
        rw [toList_parenthesized hform]
        exact .group (h.isWord_word.balanced.append hchildren) .nil

/-! ## Reading the print -/

/-- A print with a text behind it is that of no other plain tree, and the text is no other. -/
def IsSettled (e : Expr) : Prop :=
  ∀ (f : Expr) (rest rest' : List Char), f.IsPlain → EndsWord rest → EndsWord rest' →
    e.parenthesized.toList ++ rest = f.parenthesized.toList ++ rest' → e.unsorted = f.unsorted ∧ rest = rest'

theorem endsWord_row (es : List Expr) (rest : List Char) : EndsWord (row es ++ ')' :: rest) := by
  cases es with
  | nil =>
      rintro c ⟨⟩
      exact .inr rfl
  | cons e es =>
      rintro c ⟨⟩
      exact .inl rfl

/-- A row of settled trees is settled by its print, the number of trees included. -/
theorem map_unsorted_eq_of_row_eq (h : ∀ e ∈ es, e.IsSettled) (hplain : ∀ f ∈ fs, f.IsPlain)
    (heq : row es ++ ')' :: rest = row fs ++ ')' :: rest') :
    es.map unsorted = fs.map unsorted ∧ rest = rest' := by
  induction es generalizing fs with
  | nil =>
      cases fs with
      | nil => exact ⟨rfl, (List.cons.inj heq).2⟩
      | cons f fs => exact absurd (List.cons.inj heq).1 (by decide)
  | cons e es ih =>
      cases fs with
      | nil => exact absurd (List.cons.inj heq).1 (by decide)
      | cons f fs =>
          rw [List.forall_mem_cons] at h hplain
          rw [row_cons, row_cons, List.cons_append, List.cons_append, List.append_assoc, List.append_assoc,
            List.cons.injEq] at heq
          obtain ⟨hfirst, hrest⟩ := h.1 f _ _ hplain.1 (endsWord_row es rest) (endsWord_row fs rest') heq.2
          obtain ⟨hmore, hend⟩ := ih h.2 hplain.2 hrest
          exact ⟨by rw [List.map_cons, List.map_cons, hfirst, hmore], hend⟩

/-- Plain trees with the same word and the same children are the same but for what is not printed. A word
and the number of children tell the forms apart. -/
theorem unsorted_eq_of_word_eq (h : e.IsPlain) (h' : f.IsPlain) (hform : e.form ≠ .literal)
    (hform' : f.form ≠ .literal) (hword : e.word = f.word)
    (hchildren : e.children.map unsorted = f.children.map unsorted) : e.unsorted = f.unsorted := by
  have hgroup : "group" ∉ Kind.unaryOperators.map Prod.fst ∧ "group" ∉ Kind.binaryOperators.map Prod.fst := by
    decide
  have harity : e.form.arity = f.form.arity := by
    have hlength := congrArg List.length hchildren
    rwa [List.length_map, List.length_map, length_children, length_children] at hlength
  cases e with
  | literal value => exact absurd rfl hform
  | grouping inner =>
      cases f with
      | literal value => exact absurd rfl hform'
      | grouping inner' =>
          exact congrArg Expr.grouping (List.cons.inj hchildren).1
      | unary operator operand =>
          have hlexeme := lexeme_of_unary h'
          rw [show operator.lexeme = "group" from hword.symm] at hlexeme
          exact absurd hlexeme hgroup.1
      | binary left operator right => exact absurd (show 1 = 2 from harity) (by decide)
  | unary operator operand =>
      cases f with
      | literal value => exact absurd rfl hform'
      | grouping inner =>
          have hlexeme := lexeme_of_unary h
          rw [show operator.lexeme = "group" from hword] at hlexeme
          exact absurd hlexeme hgroup.1
      | unary operator' operand' =>
          show unary ⟨.identifier, operator.lexeme, .nil, 0⟩ operand.unsorted = _
          rw [show operator.lexeme = operator'.lexeme from hword, (List.cons.inj hchildren).1]
          rfl
      | binary left operator' right => exact absurd (show 1 = 2 from harity) (by decide)
  | binary left operator right =>
      cases f with
      | literal value => exact absurd rfl hform'
      | grouping inner => exact absurd (show 2 = 1 from harity) (by decide)
      | unary operator' operand => exact absurd (show 2 = 1 from harity) (by decide)
      | binary left' operator' right' =>
          obtain ⟨hleft, hright⟩ := List.cons.inj hchildren
          show binary left.unsorted ⟨.identifier, operator.lexeme, .nil, 0⟩ right.unsorted = _
          rw [show operator.lexeme = operator'.lexeme from hword, hleft, (List.cons.inj hright).1]
          rfl

theorem isSettled_literal {value : Value} (h : value.IsPlain) : (literal value).IsSettled := by
  intro f rest rest' hplain hend hend' heq
  have hword : IsWord value.display.toList := Value.isWord_display h
  by_cases hform : f.form = .literal
  · obtain ⟨other, rfl⟩ := exists_literal hform
    have hother : other.IsPlain := hplain.values other (List.mem_singleton_self _)
    obtain ⟨hdisplay, hrest⟩ := hword.append_inj (Value.isWord_display hother) hend hend' heq
    have hvalue : value = other := Value.display_injective h hother (String.toList_inj.1 hdisplay)
    exact ⟨congrArg (fun v => (literal v).unsorted) hvalue, hrest⟩
  · rw [toList_parenthesized hform] at heq
    exact absurd heq (hword.append_ne_open hend _)

theorem isSettled_of_children (h : e.IsPlain) (hform : e.form ≠ .literal)
    (hchildren : ∀ f ∈ e.children, f.IsSettled) : e.IsSettled := by
  intro f rest rest' hplain hend hend' heq
  rw [toList_parenthesized hform] at heq
  by_cases hform' : f.form = .literal
  · obtain ⟨other, rfl⟩ := exists_literal hform'
    have hword := Value.isWord_display (hplain.values other (List.mem_singleton_self _))
    exact absurd heq.symm (hword.append_ne_open hend' _)
  · rw [toList_parenthesized hform'] at heq
    simp only [List.cons_append, List.nil_append, List.append_assoc, List.cons.injEq, true_and] at heq
    obtain ⟨hword, hrow⟩ := h.isWord_word.append_inj hplain.isWord_word (endsWord_row _ _) (endsWord_row _ _) heq
    obtain ⟨hunsorted, hrest⟩ :=
      map_unsorted_eq_of_row_eq hchildren (fun g hg => hplain.of_mem_children hg) hrow
    exact ⟨unsorted_eq_of_word_eq h hplain hform hform' (String.toList_inj.1 hword) hunsorted, hrest⟩

theorem isSettled (h : e.IsPlain) : e.IsSettled := by
  induction e using induction_on_children with
  | step e ih =>
      by_cases hform : e.form = .literal
      · obtain ⟨value, rfl⟩ := exists_literal hform
        exact isSettled_literal (h.values value (List.mem_singleton_self _))
      · exact isSettled_of_children h hform fun f hf => ih f hf (h.of_mem_children hf)

/-- The parenthesized form of a plain tree is balanced, and has one opening and one closing parenthesis for
each tree in it that is no literal. Plain trees that have the same form are the same, but for the kinds, the
values and the lines of their operators. -/
theorem parenthesized_faithful (e : Expr) (h : e.IsPlain) :
    Balanced e.parenthesized.toList ∧
      e.parenthesized.toList.count '(' = e.walk.countP (·.form ≠ .literal) ∧
      e.parenthesized.toList.count ')' = e.walk.countP (·.form ≠ .literal) ∧
      ∀ f : Expr, f.IsPlain → e.parenthesized = f.parenthesized → e.unsorted = f.unsorted := by
  refine ⟨balanced_parenthesized h, count_parenthesized (by decide) h, count_parenthesized (by decide) h, ?_⟩
  intro f hf heq
  have hnil : EndsWord [] := by
    rintro c ⟨⟩
  exact (isSettled h f [] [] hf hnil hnil (by rw [heq])).1

/-- A difference of a negation and a group, its operators from different lines. -/
theorem difference_is_settled_but_for_its_lines :
    let difference (line line' : Int) : Expr :=
      binary (unary ⟨.minus, "-", .nil, line⟩ (literal (.number .zero))) ⟨.minus, "-", .nil, line'⟩
        (grouping (literal (.number (.infinite true))))
    let e := difference 1 1
    let f := difference 2 3
    e.IsPlain ∧ f.IsPlain ∧ e.parenthesized = "(- (- 0) (group -Infinity))" ∧ Balanced e.parenthesized.toList ∧
      e.parenthesized.toList.count '(' = 3 ∧ e.parenthesized.toList.count ')' = 3 ∧
      e.parenthesized = f.parenthesized ∧ e.unsorted = f.unsorted ∧ e ≠ f := by
  intro difference e f
  have hplain : ∀ line line', (difference line line').IsPlain := by
    intro line line'
    constructor
    · show ∀ value ∈ [Value.number .zero, .number (.infinite true)], value.IsPlain
      have hzero : (Value.number .zero).IsPlain := ⟨by decide, by decide⟩
      have hinfinite : (Value.number (.infinite true)).IsPlain := ⟨by decide, by decide⟩
      simp [hzero, hinfinite]
    · show ∀ t ∈ [Token.mk .minus "-" .nil line'], t.lexeme ∈ Kind.binaryOperators.map Prod.fst
      simp [Kind.binaryOperators]
    · show ∀ t ∈ [Token.mk .minus "-" .nil line], t.lexeme ∈ Kind.unaryOperators.map Prod.fst
      simp [Kind.unaryOperators]
  have hprint : ∀ line line', (difference line line').parenthesized = "(- (- 0) (group -Infinity))" := by
    intro line line'
    cbv
  obtain ⟨hbalanced, hopen, hclose, hsettled⟩ := parenthesized_faithful e (hplain 1 1)
  have hsame : e.parenthesized = f.parenthesized := (hprint 1 1).trans (hprint 2 3).symm
  exact ⟨hplain 1 1, hplain 2 3, hprint 1 1, hbalanced, hopen, hclose, hsame, hsettled f (hplain 2 3) hsame,
    by decide⟩

end Expr

end LoxSyntax
