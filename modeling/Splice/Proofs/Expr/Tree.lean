import Splice.Expr

/-!
# Trees of expressions

Induction over trees with the operands of a node as one list, how deep lists and merges nest, the
leaves of a tree, and trees without their tokens.
-/

namespace Splice.Expr

/-- Induction over trees: the operands of a list or a merge all satisfy what is proved of it. -/
@[elab_as_elim, induction_eliminator]
theorem treeInduction {motive : Expr → Prop} (string : ∀ t s, motive (.string t s))
    (number : ∀ t x, motive (.number t x)) (boolean : ∀ t b, motive (.boolean t b))
    (list : ∀ t items, (∀ e ∈ items, motive e) → motive (.list t items))
    (merge : ∀ t operands, (∀ e ∈ operands, motive e) → motive (.merge t operands)) (e : Expr) :
    motive e := by
  refine @Expr.rec motive (fun es => ∀ e ∈ es, motive e) string number boolean list merge ?_ ?_ e
  · intro e he
    exact absurd he List.not_mem_nil
  · intro e es h hs e' he'
    rcases List.mem_cons.mp he' with rfl | he'
    · exact h
    · exact hs e' he'

def isEmptyMerge : Expr → Bool
  | merge _ [] => true
  | _ => false

/-! ## Nesting -/

mutual

/-- How many lists and merges are open at once in an expression. -/
def depth : Expr → Nat
  | list _ items => depthAll items + 1
  | merge _ operands => depthAll operands + 1
  | _ => 0

def depthAll : List Expr → Nat
  | [] => 0
  | e :: es => max (depth e) (depthAll es)

end

theorem depthAll_le {es : List Expr} {n : Nat} : depthAll es ≤ n ↔ ∀ e ∈ es, e.depth ≤ n := by
  induction es with
  | nil => simp [depthAll]
  | cons e es ih => rw [depthAll, Nat.max_le, ih, List.forall_mem_cons]

theorem depth_le_depthAll {es : List Expr} {e : Expr} (h : e ∈ es) : e.depth ≤ depthAll es :=
  depthAll_le.mp (Nat.le_refl _) e h

/-! ## Leaves -/

mutual

/-- The strings, numbers and booleans in an expression, from left to right. -/
def leaves : Expr → List Expr
  | list _ items => leavesAll items
  | merge _ operands => leavesAll operands
  | e => [e]

def leavesAll : List Expr → List Expr
  | [] => []
  | e :: es => leaves e ++ leavesAll es

end

theorem leavesAll_eq_flatMap (es : List Expr) : leavesAll es = es.flatMap leaves := by
  induction es with
  | nil => rfl
  | cons e es ih => rw [leavesAll, ih, List.flatMap_cons]

/-- What is read off the leaves of some expressions is read off those of each. -/
theorem filterMap_leavesAll {α : Type} (f : Expr → Option α) (es : List Expr) :
    (leavesAll es).filterMap f = es.flatMap fun e => e.leaves.filterMap f := by
  rw [leavesAll_eq_flatMap, List.filterMap_flatMap]

/-! ## Trees without tokens -/

mutual

/-- An expression with every token replaced by one and the same. -/
def forget : Expr → Expr
  | string _ s => string (.atEnd 0 0) s
  | number _ x => number (.atEnd 0 0) x
  | boolean _ b => boolean (.atEnd 0 0) b
  | list _ items => list (.atEnd 0 0) (forgetAll items)
  | merge _ operands => merge (.atEnd 0 0) (forgetAll operands)

def forgetAll : List Expr → List Expr
  | [] => []
  | e :: es => forget e :: forgetAll es

end

theorem forgetAll_eq_map (es : List Expr) : forgetAll es = es.map forget := by
  induction es with
  | nil => rfl
  | cons e es ih => rw [forgetAll, ih, List.map_cons]

theorem eval_forget (e : Expr) : e.forget.eval = e.eval := by
  induction e with
  | string | number | boolean => rfl
  | list t items ih =>
    simp only [forget, eval, evalAll_eq_map, forgetAll_eq_map, List.map_map]
    exact congrArg Value.array (List.map_congr_left ih)
  | merge t operands ih =>
    simp only [forget, eval, evalAll_eq_map, forgetAll_eq_map, List.map_map]
    exact congrArg Value.merge (List.map_congr_left ih)

end Splice.Expr
