/-
# LoxSyntax.Proofs.Expr.ReversePolish -- the postfix form of a tree is a program for the tree

The reader of reverse Polish notation takes words one by one. A literal with its signs is one word, which
is no operator (`readWords_operand`), and a binary operator is one word, which takes two trees off the
stack. So the words of a tree, whatever words follow and whatever is on the stack already, put one tree on
it: the tree without its groupings (`readWords_reversePolish`).

That takes a tree whose operators are spelled as their kinds are and whose literals are read back from
their displays. The trees that a parser gives for tokens of a source are such trees, texts apart: they are
written with tokens it has taken, and a token of a source is what its piece is read as. A sign must stand
before one word, so the operand of a unary operator must not be a binary one.
-/
import LoxSyntax.Expr.Postorder
import LoxSyntax.Expr.Printer
import LoxSyntax.Parse.Parser
import LoxSyntax.Proofs.Expr.Display
import LoxSyntax.Proofs.Parse.Prefix
import LoxSyntax.Proofs.Scan.Lines

namespace LoxSyntax

/-! ## Tokens of sources -/

/-- Some source has the token, on whatever line. -/
def Token.IsRead (t : Token) : Prop :=
  ∃ source : String, ∃ t' ∈ (Scan.sequence source).body, t'.unplaced = t.unplaced

/-- The value is read back from its display, which has no sign to take off first. -/
def Value.ReadsBack (value : Value) : Prop := Value.ofDisplay? value.display.toList = some value

namespace Value

theorem readsBack_nil : ReadsBack .nil := by
  show ofDisplay? "nil".toList = _
  decide

theorem readsBack_bool (b : Bool) : ReadsBack (.bool b) := by
  cases b with
  | false =>
      show ofDisplay? "false".toList = _
      decide
  | true =>
      show ofDisplay? "true".toList = _
      decide

/-- The number that a decimal is nearest to is read back, as it has no sign; it may be infinite. -/
theorem readsBack_toDouble (d : Number.Decimal) : ReadsBack (.number d.toDouble) := by
  rw [Number.Decimal.toDouble, Number.Double.ofRatio, Number.Double.ofCode]
  split
  · exact ofDisplay?_write _
  · show ofDisplay? "Infinity".toList = _
    decide

end Value

namespace Token.IsRead

open Scan (Munch)

variable {t : Token} {value : Value}

/-- What some source has is a piece of it, read as a token. -/
theorem exists_piece (h : t.IsRead) :
    ∃ (p : Scan.Piece) (rest : List Char), Munch p.shape p.chars rest ∧ p.MakesToken t := by
  obtain ⟨source, t', hmem, hsame⟩ := h
  obtain ⟨here, hhere, htoken⟩ := List.mem_filterMap.1 hmem
  obtain ⟨rest, hmunch⟩ := Scan.exists_munch_of_mem (Scan.covers_pieces source.toList)
    (Scan.mem_pieces_of_mem_placed hhere)
  obtain ⟨-, hlexeme, hreads⟩ := Scan.makesToken_of_token? hmunch htoken
  -- where the token stands is no part of what it is read as
  obtain ⟨kind, lexeme, literal, line⟩ := t
  obtain ⟨rfl, rfl, rfl, -⟩ := Token.mk.inj hsame
  exact ⟨here.piece, rest, hmunch, hlexeme, hreads⟩

end Token.IsRead

/-- Marks that are operators are spelled as their kinds are. -/
theorem Scan.spelled_of_munch_mark {kind : Kind} {text rest : List Char} (h : Munch (.mark kind) text rest) :
    (kind.level?.isSome = true → (String.ofList text, kind) ∈ Kind.binaryOperators) ∧
      (kind.isUnary = true → (String.ofList text, kind) ∈ Kind.unaryOperators) := by
  have hmarks : ∀ entry ∈ marks,
      (entry.2.level?.isSome = true → (String.ofList entry.1, entry.2) ∈ Kind.binaryOperators) ∧
        (entry.2.isUnary = true → (String.ofList entry.1, entry.2) ∈ Kind.unaryOperators) := by
    decide
  exact hmarks _ (mem_marks_of_munch h)

namespace Token.IsRead

variable {t : Token} {value : Value}

/-- An operator that some source has is spelled as its kind is, and has no value. -/
theorem spelled (h : t.IsRead) :
    (t.kind.level?.isSome = true → (t.lexeme, t.kind) ∈ Kind.binaryOperators ∧ t.literal = .nil) ∧
      (t.kind.isUnary = true → (t.lexeme, t.kind) ∈ Kind.unaryOperators ∧ t.literal = .nil) := by
  obtain ⟨p, rest, hmunch, hlexeme, hreads⟩ := h.exists_piece
  obtain ⟨kind, lexeme, literal, line⟩ := t
  obtain rfl : lexeme = p.text := hlexeme
  cases hreads with
  | mark hshape =>
      rw [hshape] at hmunch
      obtain ⟨hbinary, hunary⟩ := Scan.spelled_of_munch_mark hmunch
      exact ⟨fun h => ⟨hbinary h, rfl⟩, fun h => ⟨hunary h, rfl⟩⟩
  | string | whole | fraction | keyword | identifier => simp [Kind.level?, Kind.isUnary]

/-- A value that some source has a token for is read back from its display, unless it is a text. -/
theorem readsBack (h : t.IsRead) (hvalue : t.operand? = some value) (htext : ∀ s, value ≠ .text s) :
    value.ReadsBack := by
  have hliteral : t.literal = value → value.ReadsBack := by
    rintro rfl
    obtain ⟨p, rest, -, -, hreads⟩ := h.exists_piece
    generalize t.kind = kind, t.literal = literal at hreads htext
    cases hreads with
    | mark | keyword | identifier => exact Value.readsBack_nil
    | string => exact absurd rfl (htext _)
    | whole | fraction => exact Value.readsBack_toDouble _
  unfold Token.operand? at hvalue
  split at hvalue
  · obtain rfl := Option.some.inj hvalue
    exact Value.readsBack_bool false
  · obtain rfl := Option.some.inj hvalue
    exact Value.readsBack_bool true
  · obtain rfl := Option.some.inj hvalue
    exact Value.readsBack_nil
  · exact hliteral (Option.some.inj hvalue)
  · exact hliteral (Option.some.inj hvalue)
  · cases hvalue

end Token.IsRead

namespace Expr

open Text (IsWord)

variable {e f : Expr} {t : Token} {tokens : List Token} {word text more : List Char}

/-! ## Trees that are postfix programs -/

/-- The trees that a reader of reverse Polish notation gives back: operators are spelled as their kinds are,
values are read back from their displays, and a unary operator stands before a literal with signs. -/
structure IsPostfix (e : Expr) : Prop where
  spelled : e.OperatorsSpelled
  values : ∀ value ∈ e.literals, value.ReadsBack
  signs : ∀ t operand, unary t operand ∈ e.walk →
    operand.ungrouped.form = .unary ∨ operand.ungrouped.form = .literal

theorem OperatorsSpelled.of_mem_children (h : e.OperatorsSpelled) (hf : f ∈ e.children) : f.OperatorsSpelled :=
  ⟨fun t ht => h.1 t (operators_subset_of_mem_children hf _ ht),
    fun t ht => h.2 t (operators_subset_of_mem_children hf _ ht)⟩

theorem IsPostfix.of_mem_children (h : e.IsPostfix) (hf : f ∈ e.children) : f.IsPostfix where
  spelled := h.spelled.of_mem_children hf
  values value hvalue := h.values value (literals_subset_of_mem_children hf hvalue)
  signs t operand hmem := h.signs t operand (walk_subset_of_mem_children hf hmem)

/-- Operators of a tree that is written with tokens of sources are spelled as their kinds are. -/
theorem operatorsSpelled_of_yields (hy : e.Yields tokens) (hc : e.Canonical)
    (hread : ∀ t ∈ tokens, t.IsRead) : e.OperatorsSpelled := by
  induction hy with
  | literal => exact ⟨by simp [operators, walk], by simp [operators, walk]⟩
  | grouping _ _ _ ih =>
      simp only [List.forall_mem_append, List.forall_mem_cons] at hread
      exact ih hc hread.1.2
  | @unary operator operand tokens _ ih =>
      obtain ⟨hunary, -, hoperand⟩ := hc
      rw [List.forall_mem_cons] at hread
      obtain ⟨hbinary', hunary'⟩ := ih hoperand hread.2
      refine ⟨?_, ?_⟩
      · simpa [operators_unary] using hbinary'
      · rw [operators_unary, if_pos rfl, List.singleton_append, List.forall_mem_cons]
        exact ⟨hread.1.spelled.2 hunary, hunary'⟩
  | @binary left right operator before after _ _ ihl ihr =>
      obtain ⟨⟨level, hlevel, -⟩, hleft, hright⟩ := hc
      rw [List.forall_mem_append, List.forall_mem_cons] at hread
      obtain ⟨hbefore, hoperator, hafter⟩ := hread
      obtain ⟨hbinaryl, hunaryl⟩ := ihl hleft hbefore
      obtain ⟨hbinaryr, hunaryr⟩ := ihr hright hafter
      refine ⟨?_, ?_⟩
      · rw [operators_binary, if_pos rfl, List.singleton_append, List.forall_mem_cons,
          List.forall_mem_append]
        exact ⟨hoperator.spelled.1 (by rw [hlevel]; rfl), hbinaryl, hbinaryr⟩
      · rw [operators_binary, if_neg (by decide), List.nil_append, List.forall_mem_append]
        exact ⟨hunaryl, hunaryr⟩

/-- The values of a tree are those of tokens that it is written with. -/
theorem exists_token_of_mem_literals (hy : e.Yields tokens) {value : Value} (h : value ∈ e.literals) :
    ∃ t ∈ tokens, t.operand? = some value := by
  induction hy with
  | @literal _ t hvalue =>
      obtain rfl := List.mem_singleton.1 h
      exact ⟨t, List.mem_singleton_self _, hvalue⟩
  | grouping _ _ _ ih =>
      obtain ⟨t, ht, hvalue⟩ := ih h
      exact ⟨t, by simp [ht], hvalue⟩
  | unary _ ih =>
      obtain ⟨t, ht, hvalue⟩ := ih h
      exact ⟨t, List.mem_cons_of_mem _ ht, hvalue⟩
  | binary _ _ ihl ihr =>
      rcases List.mem_append.1 h with h | h
      · obtain ⟨t, ht, hvalue⟩ := ihl h
        exact ⟨t, List.mem_append_left _ ht, hvalue⟩
      · obtain ⟨t, ht, hvalue⟩ := ihr h
        exact ⟨t, List.mem_append_right _ (List.mem_cons_of_mem _ ht), hvalue⟩

/-! ## Words -/

theorem words_ne_nil (text : List Char) : words text ≠ [] := by
  fun_cases words text <;> simp

/-- The words before a space and those behind it. -/
theorem words_append (text more : List Char) : words (text ++ ' ' :: more) = words text ++ words more := by
  induction text with
  | nil => rfl
  | cons c text ih =>
      rw [List.cons_append, words, words, ih]
      by_cases hspace : c = ' '
      · rw [if_pos hspace, if_pos hspace, List.cons_append]
      · rw [if_neg hspace, if_neg hspace]
        obtain ⟨word, rest, hwords⟩ := List.exists_cons_of_ne_nil (words_ne_nil text)
        rw [hwords]
        rfl

theorem words_of_isWord (h : IsWord word) : words word = [word] := by
  induction word with
  | nil => rfl
  | cons c word ih =>
      have hspace : c ≠ ' ' := by
        rintro rfl
        exact h ' ' List.mem_cons_self (by decide)
      rw [words, if_neg hspace, ih fun d hd => h d (List.mem_cons_of_mem c hd)]

/-! ## One step of the reader -/

/-- No operator is an operand. -/
theorem lookup_eq_none_of_operand? (h : operand? word = some e) :
    Kind.binaryOperators.lookup (String.ofList word) = none := by
  have hall : ∀ entry ∈ Kind.binaryOperators, operand? entry.1.toList = none := by decide
  cases hlookup : Kind.binaryOperators.lookup (String.ofList word) with
  | none => rfl
  | some kind =>
      have hnone := hall _ (Scan.mem_of_lookup_eq_some hlookup)
      rw [String.toList_ofList, h] at hnone
      cases hnone

theorem readWords_operand (h : operand? word = some e) (rest : List (List Char)) (stack : List Expr) :
    readWords (word :: rest) stack = readWords rest (e :: stack) := by
  simp only [readWords, lookup_eq_none_of_operand? h, h]

/-- An operator takes its operands off the stack and puts their application on it. -/
theorem readWords_operator (h : (t.lexeme, t.kind) ∈ Kind.binaryOperators) (hliteral : t.literal = .nil)
    (left right : Expr) (rest : List (List Char)) (stack : List Expr) :
    readWords (t.lexeme.toList :: rest) (right :: left :: stack) =
      readWords rest (binary left { t with line := 0 } right :: stack) := by
  have hall : ∀ entry ∈ Kind.binaryOperators, Kind.binaryOperators.lookup entry.1 = some entry.2 := by
    decide
  have hlookup : Kind.binaryOperators.lookup t.lexeme = some t.kind := hall _ h
  simp only [readWords, String.ofList_toList, hlookup, operatorToken, ← hliteral]

/-! ## Operands -/

/-- The character of a unary operator is one of two. -/
theorem mem_signs_of_lookup {c : Char} {kind : Kind}
    (h : Kind.unaryOperators.lookup (String.singleton c) = some kind) : c ∈ ['!', '-'] := by
  have hall : ∀ entry ∈ Kind.unaryOperators, entry.1.toList ∈ ['!', '-'].map fun c => [c] := by decide
  simpa using hall _ (Scan.mem_of_lookup_eq_some h)

/-- No display of a value that is read back starts with a sign. -/
theorem ofDisplay?_sign {c : Char} (h : c ∈ ['!', '-']) (rest : List Char) :
    Value.ofDisplay? (c :: rest) = none := by
  simp only [List.mem_cons, List.not_mem_nil, or_false] at h
  have hdigit : Number.isDigit c = false := by rcases h with rfl | rfl <;> decide
  have hread : Number.Decimal.ofText? (c :: rest) = none := Number.Decimal.ofText?_of_not_isDigit hdigit rest
  rcases h with rfl | rfl <;> simp [Value.ofDisplay?, hread]

theorem operand?_of_ofDisplay? {value : Value} (h : Value.ofDisplay? text = some value) :
    operand? text = some (literal value) := by
  cases text with
  | nil =>
      have hnone : Value.ofDisplay? [] = none := by decide
      rw [hnone] at h
      cases h
  | cons c rest =>
      have hsign : Kind.unaryOperators.lookup (String.singleton c) = none := by
        cases hlookup : Kind.unaryOperators.lookup (String.singleton c) with
        | none => rfl
        | some kind =>
            rw [ofDisplay?_sign (mem_signs_of_lookup hlookup) rest] at h
            cases h
      rw [operand?, hsign, h]
      rfl

/-- An operator in front of an operand is part of the operand. -/
theorem operand?_operator (h : (t.lexeme, t.kind) ∈ Kind.unaryOperators) (hliteral : t.literal = .nil)
    (hread : operand? word = some e) :
    operand? (t.lexeme.toList ++ word) = some (unary { t with line := 0 } e) := by
  have hall : ∀ entry ∈ Kind.unaryOperators, ∃ c, entry.1 = String.singleton c ∧
      Kind.unaryOperators.lookup (String.singleton c) = some entry.2 := by
    simp only [Kind.unaryOperators, List.forall_mem_cons]
    exact ⟨⟨'!', rfl, rfl⟩, ⟨'-', rfl, rfl⟩, by simp⟩
  obtain ⟨c, hlexeme, hlookup⟩ := hall _ h
  replace hlexeme : t.lexeme = String.singleton c := hlexeme
  rw [hlexeme, String.toList_singleton, List.singleton_append, operand?, hlookup, hread]
  simp only [Option.map_some, operatorToken, ← hliteral]

/-- A literal with signs is displayed as one word, and the word is read as the operand. -/
theorem operand?_reversePolish (h : e.IsPostfix)
    (hform : e.ungrouped.form = .unary ∨ e.ungrouped.form = .literal) :
    operand? e.reversePolish.toList = some e.ungrouped.unplaced ∧ IsWord e.reversePolish.toList := by
  induction e with
  | literal value =>
      have hread : value.ReadsBack := h.values value (List.mem_singleton_self _)
      exact ⟨operand?_of_ofDisplay? hread, Value.isWord_of_ofDisplay? hread⟩
  | grouping inner ih => exact ih (h.of_mem_children List.mem_cons_self) hform
  | unary operator operand ih =>
      obtain ⟨hread, hword⟩ := ih (h.of_mem_children List.mem_cons_self)
        (h.signs operator operand (mem_walk_self _))
      obtain ⟨hmem, hliteral⟩ := h.spelled.2 operator (by simp [operators_unary])
      have hsign : ∀ entry ∈ Kind.unaryOperators, IsWord entry.1.toList := by decide
      rw [reversePolish, String.toList_append]
      refine ⟨operand?_operator hmem hliteral hread, fun c hc => ?_⟩
      rcases List.mem_append.1 hc with hc | hc
      · exact hsign _ hmem c hc
      · exact hword c hc
  | binary left operator right =>
      rcases hform with hform | hform
      · cases hform
      · cases hform

/-! ## Runs of the reader -/

/-- An operand is one word, and puts itself on the stack. -/
theorem readWords_of_form (h : e.IsPostfix) (hform : e.ungrouped.form = .unary ∨ e.ungrouped.form = .literal)
    (rest : List (List Char)) (stack : List Expr) :
    readWords (words e.reversePolish.toList ++ rest) stack = readWords rest (e.ungrouped.unplaced :: stack) := by
  obtain ⟨hread, hword⟩ := operand?_reversePolish h hform
  rw [words_of_isWord hword, List.singleton_append]
  exact readWords_operand hread rest stack

/-- The words of a tree put the tree without its groupings on the stack. -/
theorem readWords_reversePolish (h : e.IsPostfix) (rest : List (List Char)) (stack : List Expr) :
    readWords (words e.reversePolish.toList ++ rest) stack = readWords rest (e.ungrouped.unplaced :: stack) := by
  induction e generalizing rest stack with
  | literal value => exact readWords_of_form h (.inr rfl) rest stack
  | grouping inner ih => exact ih (h.of_mem_children List.mem_cons_self) rest stack
  | unary operator operand => exact readWords_of_form h (.inl rfl) rest stack
  | binary left operator right ihl ihr =>
      have hleft : left.IsPostfix := h.of_mem_children (by simp [children])
      have hright : right.IsPostfix := h.of_mem_children (by simp [children])
      obtain ⟨hmem, hliteral⟩ := h.spelled.1 operator (by simp [operators_binary])
      have hoperator : ∀ entry ∈ Kind.binaryOperators, IsWord entry.1.toList := by decide
      have hsplit : words (binary left operator right).reversePolish.toList =
          words left.reversePolish.toList ++ (words right.reversePolish.toList ++ [operator.lexeme.toList]) := by
        rw [← words_of_isWord (hoperator _ hmem), ← words_append, ← words_append]
        simp [reversePolish]
      rw [hsplit, List.append_assoc, ihl hleft, List.append_assoc, ihr hright, List.singleton_append,
        readWords_operator hmem hliteral]
      rfl

/-! ## Trees that are parsed -/

/-- Only tokens before the end of the input are taken. -/
theorem mem_body_of_taken {limit : Option Nat} {c : Cursor} {taken : List Token} {last : Parse.State}
    {v : Parse.Verdict} (h : Parse.Attempt limit c taken last t v) : ∀ u ∈ taken, u ∈ c.tokens.body := by
  intro u hu
  obtain ⟨more, hrest⟩ := h.rest
  have hmem : u ∈ c.tokens.toList := by
    refine List.mem_of_mem_drop (i := c.position) ?_
    rw [← Cursor.rest, hrest]
    exact List.mem_append_left _ hu
  rcases List.mem_append.1 hmem with hbody | hlast
  · exact hbody
  · obtain rfl := List.mem_singleton.1 hlast
    have hend := h.takes.not_isEnd _ hu
    rw [c.tokens.last_isEnd] at hend
    cases hend

/-- A tree that a parser gives is the verdict of an attempt. -/
theorem exists_attempt_of_parse {limit : Option Nat} {p : Parser} (h : (p.parse limit).1 = some e) :
    ∃ taken last t, Parse.Attempt limit p.cursor taken last t (.complete e) := by
  rcases Nat.lt_or_ge p.cursor.position p.cursor.tokens.length with hplace | hplace
  · obtain ⟨taken, last, t, v, hattempt⟩ := Parse.exists_attempt limit hplace
    rw [Parser.parse, hattempt.parse_eq] at h
    cases v with
    | rejected cause => cases h
    | complete e' =>
        obtain rfl : e' = e := Option.some.inj h
        exact ⟨taken, last, t, hattempt⟩
  · -- behind the last token there is none to begin a tree with
    have hrest : p.cursor.rest = [] := List.drop_of_length_le (by rwa [Sequence.length_toList])
    have hverdict : (Parse.expression limit p.cursor.rest).verdict = .rejected .expectedExpression := by
      rw [hrest]
      rfl
    simp only [Parser.parse, Cursor.parse, hverdict] at h
    cases h

/-- A tree that a parser gives is canonical and is written with tokens of its sequence. -/
theorem exists_yields_of_parse {limit : Option Nat} {p : Parser} (h : (p.parse limit).1 = some e) :
    ∃ taken, e.Yields taken ∧ e.Canonical ∧ ∀ t ∈ taken, t ∈ p.cursor.tokens.body := by
  obtain ⟨taken, last, t, hattempt⟩ := exists_attempt_of_parse h
  obtain ⟨hy, hc, -⟩ := hattempt.complete
  exact ⟨taken, hy, hc, mem_body_of_taken hattempt⟩

/-- The postfix form of a parsed tree is a program for the tree. A parser of tokens that sources have, at
any place in them, has given a tree; there is no text in it, and what stands behind a unary operator is,
without groupings, a literal or a unary operator again. Then the words of its postfix form never find too
few trees on the stack, and leave one: the tree without its groupings, up to the lines of its operators. -/
theorem reversePolish_runs_to_tree (limit : Option Nat) (p : Parser) (e : Expr)
    (hread : ∀ t ∈ p.cursor.tokens.body, t.IsRead) (hparse : (p.parse limit).1 = some e)
    (htexts : ∀ s, .text s ∉ e.literals)
    (hsigns : ∀ t operand, unary t operand ∈ e.walk →
      operand.ungrouped.form = .unary ∨ operand.ungrouped.form = .literal) :
    readReversePolish e.reversePolish = some [e.ungrouped.unplaced] := by
  obtain ⟨taken, hy, hc, hmem⟩ := exists_yields_of_parse hparse
  have htaken : ∀ t ∈ taken, t.IsRead := fun t ht => hread t (hmem t ht)
  have hpostfix : e.IsPostfix := by
    refine ⟨operatorsSpelled_of_yields hy hc htaken, fun value hvalue => ?_, hsigns⟩
    obtain ⟨t, ht, hoperand⟩ := exists_token_of_mem_literals hy hvalue
    refine (htaken t ht).readsBack hoperand ?_
    rintro s rfl
    exact htexts s hvalue
  have hrun := readWords_reversePolish hpostfix [] []
  rwa [List.append_nil] at hrun

/-- `-(1)` and, on the next line, `- !-0.5`. The group leaves no trace, and the signs go with their
literals. -/
theorem difference_of_signs_runs_to_tree :
    let source := "-(1)\n- !-0.5"
    let p := Parser.start (Scan.sequence source) (.empty false)
    let minus (line : Int) : Token := ⟨.minus, "-", .nil, line⟩
    let one : Expr := literal (.number .one)
    let half : Expr := literal (.number (.ofCode false 0x3fe0000000000000))
    let tree (inner : Expr) (line line' : Int) : Expr :=
      binary (unary (minus line) inner) (minus line')
        (unary ⟨.bang, "!", .nil, line'⟩ (unary (minus line') half))
    (∀ t ∈ p.cursor.tokens.body, t.IsRead) ∧
      (p.parse Parse.defaultLimit).1 = some (tree (grouping one) 1 2) ∧
      (tree (grouping one) 1 2).reversePolish = "-1 !-0.5 -" ∧
      readReversePolish (tree (grouping one) 1 2).reversePolish = some [tree one 0 0] := by
  intro source p minus one half tree
  have hread : ∀ t ∈ p.cursor.tokens.body, t.IsRead := fun t ht => ⟨source, t, ht, rfl⟩
  have hparse : (p.parse Parse.defaultLimit).1 = some (tree (grouping one) 1 2) := by decide +kernel
  have hprint : (tree (grouping one) 1 2).reversePolish = "-1 !-0.5 -" := by decide +kernel
  refine ⟨hread, hparse, hprint, ?_⟩
  refine reversePolish_runs_to_tree Parse.defaultLimit p _ hread hparse ?_ ?_
  · intro s hs
    simp [tree, one, half, literals] at hs
  · intro t operand hmem
    simp [tree, one, half, walk] at hmem
    rcases hmem with ⟨-, rfl⟩ | ⟨-, rfl⟩ | ⟨-, rfl⟩
    · exact .inr rfl
    · exact .inl rfl
    · exact .inr rfl

end Expr

end LoxSyntax
