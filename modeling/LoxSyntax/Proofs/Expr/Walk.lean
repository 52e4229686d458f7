/-
# LoxSyntax.Proofs.Expr.Walk -- a walk goes to every place once, and its forms settle the shape

A PLACE in a tree is the way down to it: which child is taken at each step, counted from zero. `places` lists
the places of a tree in the order in which a walk comes to them. It lists each of them once (`nodup_places`)
and no others (`mem_places_iff`), and the trees that stand there are the walk (`map_subtree?_places`).

How many children a tree has is settled by its form. So the forms along a walk can be read back from the
front: they tell where the walk of a tree ends, whatever stands behind it (`walk_append_inj`), and at each
place which form stands there.
-/
import LoxSyntax.Expr.Basic
import Mathlib.Data.List.Nodup

namespace LoxSyntax.Expr

-- powers, and the types of their exponents, are the same whatever else is imported, and so are sums
attribute [local instance (high)] instPowNat
attribute [local instance (high)] Zero.ofOfNat0

variable {e f : Expr} {place : List Nat}

/-! ## Places -/

/-- The tree that stands at a place. -/
def subtree? (e : Expr) : List Nat → Option Expr
  | [] => some e
  | i :: place => e.children[i]?.bind (·.subtree? place)

/-- The places of a tree, in the order of the walk. -/
def places : Expr → List (List Nat)
  | literal _ => [[]]
  | grouping inner => [] :: inner.places.map (0 :: ·)
  | unary _ operand => [] :: operand.places.map (0 :: ·)
  | binary left _ right => [] :: (left.places.map (0 :: ·) ++ right.places.map (1 :: ·))

theorem subtree?_nil (e : Expr) : e.subtree? [] = some e := rfl

theorem subtree?_cons {i : Nat} (h : e.children[i]? = some f) (place : List Nat) :
    e.subtree? (i :: place) = f.subtree? place := by
  rw [subtree?, h, Option.bind_some]

/-- Every place is listed, and nothing else is. -/
theorem mem_places_iff (e : Expr) (place : List Nat) :
    place ∈ e.places ↔ (e.subtree? place).isSome = true := by
  induction e generalizing place with
  | literal value => cases place <;> simp [places, subtree?, children]
  | grouping inner ih | unary operator inner ih =>
      rcases place with - | ⟨- | i, place⟩
      · simp [places, subtree?]
      · simp [places, subtree?, children, ih]
      · simp [places, subtree?, children]
  | binary left operator right ihl ihr =>
      rcases place with - | ⟨- | - | i, place⟩
      · simp [places, subtree?]
      · simp [places, subtree?, children, ihl]
      · simp [places, subtree?, children, ihr]
      · simp [places, subtree?, children]

/-- No place is listed twice. -/
theorem nodup_places (e : Expr) : e.places.Nodup := by
  have hcons : ∀ {i : Nat} {places : List (List Nat)}, places.Nodup → (places.map (i :: ·)).Nodup := by
    intro i places h
    exact List.Nodup.map (fun _ _ heq => (List.cons.inj heq).2) h
  induction e with
  | literal value => exact List.nodup_cons.2 ⟨List.not_mem_nil, List.nodup_nil⟩
  | grouping inner ih | unary operator inner ih =>
      exact List.nodup_cons.2 ⟨by simp, hcons ih⟩
  | binary left operator right ihl ihr =>
      refine List.nodup_cons.2 ⟨by simp, List.nodup_append.2 ⟨hcons ihl, hcons ihr, ?_⟩⟩
      -- the two sides differ in their first step
      intro a ha b hb
      obtain ⟨_, -, rfl⟩ := List.mem_map.1 ha
      obtain ⟨_, -, rfl⟩ := List.mem_map.1 hb
      simp

/-- The trees at the places of a tree, in order, are its walk. -/
theorem map_subtree?_places (e : Expr) : e.places.map e.subtree? = e.walk.map some := by
  have hchild : ∀ {e f : Expr} {i : Nat}, e.children[i]? = some f →
      f.places.map f.subtree? = f.walk.map some →
      (f.places.map (i :: ·)).map e.subtree? = f.walk.map some := by
    intro e f i h ih
    rw [List.map_map, ← ih]
    exact List.map_congr_left fun place _ => subtree?_cons h place
  induction e with
  | literal value => rfl
  | grouping inner ih | unary operator inner ih =>
      rw [places, walk, List.map_cons, List.map_cons, hchild rfl ih, subtree?_nil]
  | binary left operator right ihl ihr =>
      rw [places, walk, List.map_cons, List.map_cons, List.map_append, List.map_append, hchild rfl ihl,
        hchild rfl ihr, subtree?_nil]

/-! ## Blocks -/

theorem walk_infix_of_mem_children (h : f ∈ e.children) : f.walk <:+: e.walk := by
  rw [walk_eq e, List.flatMap_def]
  exact (List.infix_of_mem_flatten (List.mem_map_of_mem h)).trans (List.suffix_cons _ _).isInfix

/-- The walk of the tree at a place is a block of the walk. -/
theorem walk_infix_of_subtree? (h : e.subtree? place = some f) : f.walk <:+: e.walk := by
  induction place generalizing e with
  | nil =>
      obtain rfl := Option.some.inj h
      exact List.infix_refl _
  | cons i place ih =>
      obtain ⟨child, hchild, hf⟩ := Option.bind_eq_some_iff.1 h
      exact (ih hf).trans (walk_infix_of_mem_children (List.mem_of_getElem? hchild))

/-! ## Sizes -/

theorem length_walk_eq (e : Expr) : e.walk.length = 1 + (e.children.map (·.walk.length)).sum := by
  rw [walk_eq e, List.length_cons, List.length_flatMap, Nat.add_comm]

/-- The longest way down is visited from end to end. -/
theorem depth_lt_length_walk (e : Expr) : e.depth < e.walk.length := by
  induction e with
  | literal value => exact Nat.one_pos
  | grouping inner ih | unary operator inner ih => exact Nat.succ_lt_succ ih
  | binary left operator right ihl ihr =>
      rw [depth, walk, List.length_cons, List.length_append]
      omega

/-- A tree of a depth is largest if it branches everywhere. -/
theorem length_walk_lt (e : Expr) : e.walk.length < 2 ^ (e.depth + 1) := by
  induction e with
  | literal value => exact Nat.lt_two_pow_self
  | grouping inner ih | unary operator inner ih =>
      rw [depth, walk, List.length_cons, Nat.pow_succ]
      omega
  | binary left operator right ihl ihr =>
      have hleft := Nat.pow_le_pow_right Nat.two_pos (Nat.succ_le_succ (Nat.le_max_left left.depth right.depth))
      have hright := Nat.pow_le_pow_right Nat.two_pos (Nat.succ_le_succ (Nat.le_max_right left.depth right.depth))
      rw [depth, walk, List.length_cons, List.length_append, Nat.pow_succ]
      omega

/-! ## Shapes -/

/-- Two trees have the same form everywhere. -/
inductive SameShape : Expr → Expr → Prop where
  | literal (v w : Value) : SameShape (.literal v) (.literal w)
  | grouping {inner inner' : Expr} : SameShape inner inner' → SameShape (.grouping inner) (.grouping inner')
  | unary {operand operand' : Expr} (s t : Token) :
      SameShape operand operand' → SameShape (.unary s operand) (.unary t operand')
  | binary {left left' right right' : Expr} (s t : Token) :
      SameShape left left' → SameShape right right' → SameShape (.binary left s right) (.binary left' t right')

theorem SameShape.depth_eq (h : SameShape e f) : e.depth = f.depth := by
  induction h with
  | literal => rfl
  | grouping _ ih | unary _ _ _ ih => rw [depth, depth, ih]
  | binary _ _ _ _ ihl ihr => rw [depth, depth, ihl, ihr]

/-- Trees of one shape have the same places, with the same form at each. -/
theorem SameShape.form_subtree? (h : SameShape e f) (place : List Nat) :
    (e.subtree? place).map form = (f.subtree? place).map form := by
  induction h generalizing place with
  | literal => cases place <;> rfl
  | grouping _ ih | unary _ _ _ ih =>
      rcases place with - | ⟨- | i, place⟩
      · rfl
      · exact ih place
      · rfl
  | binary _ _ _ _ ihl ihr =>
      rcases place with - | ⟨- | - | i, place⟩
      · rfl
      · exact ihl place
      · exact ihr place
      · rfl

/-- The forms along a walk settle the shape of the tree, and where its walk ends. -/
theorem walk_append_inj {rest rest' : List Form} (h : e.walk.map form ++ rest = f.walk.map form ++ rest') :
    SameShape e f ∧ rest = rest' := by
  induction e generalizing f rest rest' with
  | literal v =>
      cases f with
      | literal w => exact ⟨.literal v w, (List.cons.inj h).2⟩
      | _ => cases (List.cons.inj h).1
  | grouping inner ih =>
      cases f with
      | grouping inner' =>
          obtain ⟨hinner, hrest⟩ := ih (List.cons.inj h).2
          exact ⟨.grouping hinner, hrest⟩
      | _ => cases (List.cons.inj h).1
  | unary s operand ih =>
      cases f with
      | unary t operand' =>
          obtain ⟨hoperand, hrest⟩ := ih (List.cons.inj h).2
          exact ⟨.unary s t hoperand, hrest⟩
      | _ => cases (List.cons.inj h).1
  | binary left s right ihl ihr =>
      cases f with
      | binary left' t right' =>
          simp only [walk, List.map_cons, List.map_append, List.cons_append, List.append_assoc] at h
          -- the walk on the right is what stands behind the walk on the left
          obtain ⟨hleft, hbehind⟩ := ihl (List.cons.inj h).2
          obtain ⟨hright, hrest⟩ := ihr hbehind
          exact ⟨.binary s t hleft hright, hrest⟩
      | _ => cases (List.cons.inj h).1

theorem Form.name_injective {a b : Form} (h : a.name = b.name) : a = b := by
  cases a <;> cases b <;> simp_all [name]

theorem sameShape_of_map_name_eq (h : e.walk.map (·.form.name) = f.walk.map (·.form.name)) : SameShape e f := by
  have hforms : e.walk.map form = f.walk.map form := by
    have hinjective : Function.Injective (List.map Form.name) :=
      List.map_injective_iff.2 fun _ _ => Form.name_injective
    apply hinjective
    rw [List.map_map, List.map_map]
    exact h
  exact (walk_append_inj (congrArg (· ++ []) hforms)).1

/-- A walk goes to every place of a tree exactly once, in an order that settles the shape. If the names of the
forms along the walks of two trees are the same, the trees have the same places, with the same form at each,
and are as deep. A walk is as long as the walks of the children and one more; its length lies between the depth
and one more and the number of places in a tree of that depth that branches everywhere; and the walk of the tree
at each place is a block of it. -/
theorem walk_settles_shape (e : Expr) :
    (∃ places : List (List Nat), places.Nodup ∧
      (∀ place, place ∈ places ↔ (e.subtree? place).isSome = true) ∧
      places.map e.subtree? = e.walk.map some) ∧
    (∀ f : Expr, e.walk.map (·.form.name) = f.walk.map (·.form.name) →
      (∀ place, (e.subtree? place).map form = (f.subtree? place).map form) ∧ e.depth = f.depth) ∧
    e.walk.length = 1 + (e.children.map (·.walk.length)).sum ∧
    e.depth + 1 ≤ e.walk.length ∧ e.walk.length ≤ 2 ^ (e.depth + 1) - 1 ∧
    ∀ place f, e.subtree? place = some f → f.walk <:+: e.walk := by
  refine ⟨⟨e.places, e.nodup_places, e.mem_places_iff, e.map_subtree?_places⟩, ?_, e.length_walk_eq,
    e.depth_lt_length_walk, Nat.le_pred_of_lt e.length_walk_lt, fun _ _ => walk_infix_of_subtree?⟩
  intro f h
  have hshape := sameShape_of_map_name_eq h
  exact ⟨hshape.form_subtree?, hshape.depth_eq⟩

/-- The trees of `1 - (1)` and of `nil * ("a")` differ in all their values and operators. -/
theorem difference_shaped_like_product :
    let one : Expr := .literal (.number .one)
    let e : Expr := .binary one ⟨.minus, "-", .nil, 1⟩ (.grouping one)
    let f : Expr := .binary (.literal .nil) ⟨.star, "*", .nil, 2⟩ (.grouping (.literal (.text "a")))
    e.walk.map (·.form.name) = ["Binary", "Literal", "Grouping", "Literal"] ∧
      f.walk.map (·.form.name) = ["Binary", "Literal", "Grouping", "Literal"] ∧
      (∀ place, (e.subtree? place).map form = (f.subtree? place).map form) ∧ e.depth = f.depth := by
  intro one e f
  have he : e.walk.map (·.form.name) = ["Binary", "Literal", "Grouping", "Literal"] := by decide
  have hf : f.walk.map (·.form.name) = ["Binary", "Literal", "Grouping", "Literal"] := by decide
  obtain ⟨-, hshape, -⟩ := walk_settles_shape e
  exact ⟨he, hf, hshape f (he.trans hf.symm)⟩

end LoxSyntax.Expr
