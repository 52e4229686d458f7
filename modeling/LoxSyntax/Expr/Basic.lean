/-
# LoxSyntax.Expr.Basic -- expression trees

A tree is a literal, a grouping of one tree, a unary operator before one tree, or a binary operator
between two. Operators are kept as the tokens they were read from.

`walk` lists a tree and all the trees in it, each before its children and those from left to right;
`depth` is the length of the longest way down to a literal.
-/
import LoxSyntax.Token.Basic

namespace LoxSyntax

/-- An expression. -/
inductive Expr where
  | literal (value : Value)
  | grouping (inner : Expr)
  | unary (operator : Token) (operand : Expr)
  | binary (left : Expr) (operator : Token) (right : Expr)
  deriving DecidableEq

namespace Expr

/-! ## Forms -/

/-- The form of a tree at its root. -/
inductive Form where
  | literal
  | grouping
  | unary
  | binary
  deriving DecidableEq

def Form.name : Form → String
  | literal => "Literal"
  | grouping => "Grouping"
  | unary => "Unary"
  | binary => "Binary"

/-- How many children a tree of a form has. -/
def Form.arity : Form → Nat
  | literal => 0
  | grouping | unary => 1
  | binary => 2

def form : Expr → Form
  | literal _ => .literal
  | grouping _ => .grouping
  | unary _ _ => .unary
  | binary _ _ _ => .binary

/-! ## Traversal -/

/-- The trees right below a tree, from left to right. -/
def children : Expr → List Expr
  | literal _ => []
  | grouping inner => [inner]
  | unary _ operand => [operand]
  | binary left _ right => [left, right]

/-- A tree and all the trees in it, each before its children. -/
def walk : Expr → List Expr
  | literal value => [literal value]
  | grouping inner => grouping inner :: inner.walk
  | unary operator operand => unary operator operand :: operand.walk
  | binary left operator right => binary left operator right :: (left.walk ++ right.walk)

/-- The height of a tree; a literal alone has none. -/
def depth : Expr → Nat
  | literal _ => 0
  | grouping inner => inner.depth + 1
  | unary _ operand => operand.depth + 1
  | binary left _ right => max left.depth right.depth + 1

theorem length_children (e : Expr) : e.children.length = e.form.arity := by
  cases e <;> rfl

theorem walk_eq (e : Expr) : e.walk = e :: e.children.flatMap walk := by
  cases e <;> simp [walk, children]

/-! ## Changes everywhere -/

/-- A tree with its operators changed. -/
def mapOperators (f : Token → Token) : Expr → Expr
  | literal value => literal value
  | grouping inner => grouping (inner.mapOperators f)
  | unary operator operand => unary (f operator) (operand.mapOperators f)
  | binary left operator right => binary (left.mapOperators f) (f operator) (right.mapOperators f)

/-- A tree without its groupings. -/
def ungrouped : Expr → Expr
  | literal value => literal value
  | grouping inner => inner.ungrouped
  | unary operator operand => unary operator operand.ungrouped
  | binary left operator right => binary left.ungrouped operator right.ungrouped

/-- The values of the literals of a tree, from left to right. -/
def literals : Expr → List Value
  | literal value => [value]
  | grouping inner => inner.literals
  | unary _ operand => operand.literals
  | binary left _ right => left.literals ++ right.literals

/-- The operators of a tree that have a given form. -/
def operators (form : Form) (e : Expr) : List Token :=
  e.walk.filterMap fun
    | unary operator _ => if form = .unary then some operator else none
    | binary _ operator _ => if form = .binary then some operator else none
    | _ => none

section Operators

variable (form : Form)

theorem operators_grouping (inner : Expr) : (grouping inner).operators form = inner.operators form := rfl

theorem operators_unary (operator : Token) (operand : Expr) :
    (unary operator operand).operators form =
      (if form = .unary then [operator] else []) ++ operand.operators form := by
  by_cases h : form = .unary <;> simp [operators, walk, h]

theorem operators_binary (left : Expr) (operator : Token) (right : Expr) :
    (binary left operator right).operators form =
      (if form = .binary then [operator] else []) ++ (left.operators form ++ right.operators form) := by
  by_cases h : form = .binary <;> simp [operators, walk, h]

end Operators

/-! ## What children have in common with their tree -/

section Children

variable {e f : Expr}

theorem mem_walk_self (e : Expr) : e ∈ e.walk := by
  rw [walk_eq]
  exact List.mem_cons_self

theorem walk_subset_of_mem_children (hf : f ∈ e.children) : f.walk ⊆ e.walk := by
  intro g hg
  rw [walk_eq e]
  exact List.mem_cons_of_mem _ (List.mem_flatMap.2 ⟨f, hf, hg⟩)

theorem operators_subset_of_mem_children (hf : f ∈ e.children) (form : Form) :
    f.operators form ⊆ e.operators form := by
  intro t ht
  obtain ⟨g, hg, hoperator⟩ := List.mem_filterMap.1 ht
  exact List.mem_filterMap.2 ⟨g, walk_subset_of_mem_children hf hg, hoperator⟩

theorem literals_subset_of_mem_children (hf : f ∈ e.children) : f.literals ⊆ e.literals := by
  intro value hvalue
  cases e with
  | literal value => cases hf
  | grouping inner | unary operator operand =>
      obtain rfl := List.mem_singleton.1 hf
      exact hvalue
  | binary left operator right =>
      rw [children, List.mem_cons, List.mem_singleton] at hf
      rcases hf with rfl | rfl
      · exact List.mem_append_left _ hvalue
      · exact List.mem_append_right _ hvalue

end Children

/-! ## Sameness -/

/-- Whether two trees agree in form everywhere, with the same operators and the same values. -/
def same : Expr → Expr → Bool
  | literal v, literal w => v.same w
  | grouping e, grouping f => e.same f
  | unary s e, unary t f => s.same t && e.same f
  | binary l s r, binary l' t r' => l.same l' && s.same t && r.same r'
  | _, _ => false

end Expr

end LoxSyntax
