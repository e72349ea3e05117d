import Splice.Proofs.Expr.Meaning

/-!
# Merges of merges

Merging groups of values first, and then what they merge to, is merging all the values at once, if
and only if they are all strings or no group of several strings is joined (`merge_map_merge_iff`).
A group that is joined puts one string into the list where its strings would be several.
-/

namespace Splice

namespace Value

variable {vs : List Value} {groups : List (List Value)}

theorem flatMap_flatten {α β : Type} (f : α → List β) (xss : List (List α)) :
    xss.flatten.flatMap f = xss.flatMap fun xs => xs.flatMap f := by
  rw [List.flatten_eq_flatMap, List.flatMap_assoc]
  rfl

theorem isString_merge (hne : vs ≠ []) : (merge vs).isString = vs.all isString := by
  cases hall : vs.all isString with
  | true =>
    rw [merge_of_all hne hall]
    rfl
  | false =>
    rw [merge_of_not_all hall]
    rfl

theorem all_isString_map_merge (h : ∀ g ∈ groups, g ≠ []) :
    (groups.map merge).all isString = groups.flatten.all isString := by
  rw [List.all_map, List.all_flatten, Bool.eq_iff_iff, List.all_eq_true, List.all_eq_true]
  exact forall₂_congr fun g hg => Bool.eq_iff_iff.mp (isString_merge (h g hg))

/-! ## Strings -/

theorem characters_merge_of_all (hne : vs ≠ []) (hall : vs.all isString = true) :
    (merge vs).characters = vs.flatMap characters := by
  rw [merge_of_all hne hall]
  exact String.toList_ofList

theorem merge_map_merge_of_all (hne : groups ≠ []) (h : ∀ g ∈ groups, g ≠ [])
    (hall : groups.flatten.all isString = true) :
    merge (groups.map merge) = merge groups.flatten := by
  have hflatten : groups.flatten ≠ [] := by
    obtain ⟨g, rest, rfl⟩ := List.exists_cons_of_ne_nil hne
    exact List.append_ne_nil_of_left_ne_nil (h g List.mem_cons_self) _
  have hgroups : ∀ g ∈ groups, (merge g).characters = g.flatMap characters := by
    intro g hg
    refine characters_merge_of_all (h g hg) (List.all_eq_true.mpr fun v hv => ?_)
    exact List.all_eq_true.mp hall v (List.mem_flatten.mpr ⟨g, hg, hv⟩)
  rw [merge_of_all hflatten hall,
    merge_of_all (mt List.map_eq_nil_iff.mp hne) ((all_isString_map_merge h).trans hall),
    List.flatMap_map, List.flatMap_congr hgroups, flatMap_flatten]

/-! ## Lists -/

theorem flatMap_elements_of_all (hall : vs.all isString = true) : vs.flatMap elements = vs := by
  induction vs with
  | nil => rfl
  | cons v vs ih =>
    rw [List.all_cons, Bool.and_eq_true] at hall
    obtain ⟨s, rfl⟩ := exists_eq_string hall.1
    rw [List.flatMap_cons, ih hall.2]
    rfl

/-- A group that is merged first puts no more into a list than its values do. -/
theorem length_elements_merge_le (hne : vs ≠ []) :
    (merge vs).elements.length ≤ (vs.flatMap elements).length := by
  cases hall : vs.all isString with
  | true =>
    rw [merge_of_all hne hall, flatMap_elements_of_all hall]
    exact List.length_pos_iff.mpr hne
  | false => rw [merge_of_not_all hall, elements_array]

/-- It puts the same into a list unless it is several strings. -/
theorem elements_merge_iff (hne : vs ≠ []) :
    vs.flatMap elements = (merge vs).elements ↔ (vs.all isString = true → vs.length = 1) := by
  cases hall : vs.all isString with
  | false =>
    rw [merge_of_not_all hall]
    exact iff_of_true rfl fun h => absurd h Bool.false_ne_true
  | true =>
    rw [merge_of_all hne hall, flatMap_elements_of_all hall, elements_string]
    constructor
    · intro heq _
      rw [heq]
      rfl
    · intro hone
      obtain ⟨v, rfl⟩ := List.length_eq_one_iff.mp (hone rfl)
      obtain ⟨s, rfl⟩ := exists_eq_string (List.all_eq_true.mp hall v List.mem_cons_self)
      simp [characters]

/-- Merging groups first changes nothing if and only if all values are strings, or no group is
several strings. -/
theorem merge_map_merge_iff (hne : groups ≠ []) (h : ∀ g ∈ groups, g ≠ []) :
    merge (groups.map merge) = merge groups.flatten ↔ groups.flatten.all isString = true ∨
      ∀ g ∈ groups, g.all isString = true → g.length = 1 := by
  cases hall : groups.flatten.all isString with
  | true => exact iff_of_true (merge_map_merge_of_all hne h hall) (.inl rfl)
  | false =>
    -- both are lists, and no group can make up for another that puts less into its list
    have hparts := Expr.flatMap_eq_flatMap_iff fun g hg => length_elements_merge_le (h g hg)
    rw [merge_of_not_all hall, merge_of_not_all ((all_isString_map_merge h).trans hall),
      array.injEq, List.flatMap_map, flatMap_flatten, eq_comm, hparts]
    simp only [Bool.false_eq_true, false_or]
    exact forall₂_congr fun g hg => elements_merge_iff (h g hg)

theorem merge_merge (hne : vs ≠ []) : merge [merge vs] = merge vs := by
  have hiff := @merge_map_merge_iff [vs] (List.cons_ne_nil _ _)
    (List.forall_mem_singleton.mpr hne)
  rw [List.map_singleton, List.flatten_singleton] at hiff
  refine hiff.mpr ?_
  cases hall : vs.all isString with
  | true => exact .inl rfl
  | false =>
    refine .inr (List.forall_mem_singleton.mpr fun h => ?_)
    exact Bool.noConfusion (hall.symm.trans h)

end Value

namespace Expr

theorem eval_merge (t : Token) (operands : List Expr) :
    (merge t operands).eval = .merge (operands.map eval) := by
  rw [eval, evalAll_eq_map]

theorem eval_merge_map (t : Token) (groups : List (Token × List Expr)) :
    (merge t (groups.map fun g => merge g.1 g.2)).eval =
      .merge ((groups.map fun g => g.2.map eval).map Value.merge) := by
  rw [eval_merge, List.map_map, List.map_map]
  exact congrArg Value.merge (List.map_congr_left fun g _ => eval_merge g.1 g.2)

theorem eval_merge_flatMap (t : Token) (groups : List (Token × List Expr)) :
    (merge t (groups.flatMap Prod.snd)).eval =
      .merge (groups.map fun g => g.2.map eval).flatten := by
  rw [eval_merge, List.map_flatMap, List.flatMap_def]

theorem all_isString_map_eval {es : List Expr} :
    (es.map eval).all Value.isString = true ↔ ∀ e ∈ es, e.eval.isString = true := by
  rw [List.all_map, List.all_eq_true]
  rfl

/-- **Grouping.** The merge of the merges of groups of operands has the value of the merge of all
the operands if and only if all operands are strings, or every group of strings is one operand. So
the merge of one merge has its value. -/
theorem eval_merge_groups_iff {groups : List (Token × List Expr)} (hne : groups ≠ [])
    (h : ∀ g ∈ groups, g.2 ≠ []) (t t' : Token) :
    ((merge t (groups.map fun g => merge g.1 g.2)).eval =
        (merge t' (groups.flatMap Prod.snd)).eval ↔
      (∀ g ∈ groups, ∀ e ∈ g.2, e.eval.isString = true) ∨
        ∀ g ∈ groups, (∀ e ∈ g.2, e.eval.isString = true) → g.2.length = 1) ∧
    ∀ operands ≠ [], ∀ inner : Token,
      (merge t [merge inner operands]).eval = (merge t' operands).eval := by
  constructor
  · have hgroups : ∀ g ∈ groups.map (fun g => g.2.map eval), g ≠ [] :=
      List.forall_mem_map.mpr fun g hg => mt List.map_eq_nil_iff.mp (h g hg)
    rw [eval_merge_map, eval_merge_flatMap,
      Value.merge_map_merge_iff (mt List.map_eq_nil_iff.mp hne) hgroups, List.all_flatten,
      List.all_eq_true, List.forall_mem_map, List.forall_mem_map]
    simp only [all_isString_map_eval, List.length_map]
  · intro operands hoperands inner
    rw [eval_merge, List.map_singleton, eval_merge, eval_merge]
    exact Value.merge_merge (mt List.map_eq_nil_iff.mp hoperands)

/-- A string in a group of its own, and a boolean with a merge of one string. -/
def mixedGroups : List (Token × List Expr) :=
  let t : Token := .atEnd 0 0
  [(t, [.string t "a"]), (t, [.boolean t true, .merge t [.string t "b"]])]

/-- Two strings in a group, and an empty list. -/
def joinedGroups : List (Token × List Expr) :=
  let t : Token := .atEnd 0 0
  [(t, [.string t "a", .string t "b"]), (t, [.list t []])]

/-- One string stays an element of its own, and two strings become one. -/
theorem eval_merge_groups_joined :
    (merge (.atEnd 0 0) (mixedGroups.map fun g => merge g.1 g.2)).eval =
        (merge (.atEnd 0 0) (mixedGroups.flatMap Prod.snd)).eval ∧
      (merge (.atEnd 0 0) (joinedGroups.map fun g => merge g.1 g.2)).eval ≠
        (merge (.atEnd 0 0) (joinedGroups.flatMap Prod.snd)).eval := by
  have hmixed := @eval_merge_groups_iff mixedGroups (by decide) (by decide) (.atEnd 0 0)
    (.atEnd 0 0)
  have hjoined := @eval_merge_groups_iff joinedGroups (by decide) (by decide)
    (.atEnd 0 0) (.atEnd 0 0)
  exact ⟨hmixed.1.mpr (by decide), mt hjoined.1.mp (by decide)⟩

end Expr

end Splice
