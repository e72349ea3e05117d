import Splice.Proofs.Expr.Script

/-!
# What scripts mean

A script always splices, where evaluation joins operands that are all strings: its value is
`Expr.splice` (`value?_script`). The two values are equal if and only if every merge of strings has
one operand and is itself an operand (`splice_eq_eval_iff`), and their leaves always are equal up to
joining adjacent strings (`joinStrings_leaves_splice`).
-/

namespace Splice

/-! ## Leaves of values -/

namespace Value

mutual

/-- The values in a value that are no arrays, from left to right. -/
def leaves : Value → List Value
  | array items => leavesAll items
  | v => [v]

def leavesAll : List Value → List Value
  | [] => []
  | v :: vs => leaves v ++ leavesAll vs

end

theorem leavesAll_eq_flatMap (vs : List Value) : leavesAll vs = vs.flatMap leaves := by
  induction vs with
  | nil => rfl
  | cons v vs ih => rw [leavesAll, ih, List.flatMap_cons]

theorem leaves_array (items : List Value) : (array items).leaves = items.flatMap leaves := by
  rw [leaves, leavesAll_eq_flatMap]

@[simp] theorem elements_array (items : List Value) : (array items).elements = items := rfl

@[simp] theorem elements_string (s : String) : (string s).elements = [string s] := rfl

theorem flatMap_leaves_elements (v : Value) : v.elements.flatMap leaves = v.leaves := by
  cases v with
  | array items => exact (leaves_array items).symm
  | _ => rfl

/-! ## Joining strings -/

/-- A value before others; a string is joined to a string that follows. -/
def joinTo : Value → List Value → List Value
  | string a, string b :: vs => string (a ++ b) :: vs
  | v, vs => v :: vs

/-- Values with every run of adjacent strings joined. -/
def joinStrings (vs : List Value) : List Value := vs.foldr joinTo []

theorem joinTo_foldr (v : Value) (vs rest : List Value) :
    joinTo v (vs.foldr joinTo rest) = (joinTo v vs).foldr joinTo rest := by
  cases vs with
  | nil => cases v <;> rfl
  | cons w vs =>
    cases v with
    | string a =>
      cases w with
      | string b =>
        show joinTo (string a) (joinTo (string b) (vs.foldr joinTo rest)) =
          joinTo (string (a ++ b)) (vs.foldr joinTo rest)
        generalize vs.foldr joinTo rest = tail
        cases tail with
        | nil => rfl
        | cons x tail =>
          cases x with
          | string c => simp only [joinTo, String.append_assoc]
          | _ => rfl
      | _ => rfl
    | _ => rfl

/-- Runs may be joined in the first part before the whole is joined. -/
theorem foldr_joinTo (vs rest : List Value) :
    vs.foldr joinTo rest = (joinStrings vs).foldr joinTo rest := by
  induction vs with
  | nil => rfl
  | cons v vs ih =>
    rw [List.foldr_cons, ih, joinTo_foldr]
    rfl

theorem joinStrings_append (xs ys : List Value) :
    joinStrings (xs ++ ys) = (joinStrings xs).foldr joinTo (joinStrings ys) := by
  unfold joinStrings
  rw [List.foldr_append, foldr_joinTo]
  rfl

/-- Joining depends on the parts only up to joining. -/
theorem joinStrings_flatMap_congr {α : Type} {f g : α → List Value} {l : List α}
    (h : ∀ a ∈ l, joinStrings (f a) = joinStrings (g a)) :
    joinStrings (l.flatMap f) = joinStrings (l.flatMap g) := by
  induction l with
  | nil => rfl
  | cons a l ih =>
    obtain ⟨ha, hl⟩ := List.forall_mem_cons.mp h
    rw [List.flatMap_cons, List.flatMap_cons, joinStrings_append, joinStrings_append, ha, ih hl]

/-! ## Merging -/

theorem merge_of_all {vs : List Value} (hne : vs ≠ []) (h : vs.all isString = true) :
    merge vs = string (String.ofList (vs.flatMap characters)) := by
  unfold merge
  rw [if_neg (mt List.isEmpty_iff.mp hne), if_pos h]

theorem merge_of_not_all {vs : List Value} (h : vs.all isString = false) :
    merge vs = array (vs.flatMap elements) := by
  unfold merge
  rw [if_neg, h, if_neg Bool.false_ne_true]
  intro hempty
  rw [List.isEmpty_iff.mp hempty] at h
  exact Bool.noConfusion h

theorem exists_eq_string {v : Value} (h : v.isString = true) : ∃ s, v = string s := by
  cases v with
  | string s => exact ⟨s, rfl⟩
  | _ => exact absurd h Bool.false_ne_true

theorem joinStrings_of_all {vs : List Value} (hne : vs ≠ []) (h : vs.all isString = true) :
    joinStrings vs = [string (String.ofList (vs.flatMap characters))] := by
  induction vs with
  | nil => exact absurd rfl hne
  | cons v vs ih =>
    rw [List.all_cons, Bool.and_eq_true] at h
    obtain ⟨s, rfl⟩ := exists_eq_string h.1
    rw [joinStrings, List.foldr_cons, ← joinStrings, List.flatMap_cons, String.ofList_append]
    show joinTo (string s) (joinStrings vs) = [string (String.ofList s.toList ++ _)]
    rw [String.ofList_toList]
    by_cases hvs : vs = []
    · rw [hvs]
      simp [joinStrings, joinTo]
    · rw [ih hvs h.2]
      rfl

theorem flatMap_leaves_of_all {vs : List Value} (h : vs.all isString = true) :
    vs.flatMap leaves = vs := by
  induction vs with
  | nil => rfl
  | cons v vs ih =>
    rw [List.all_cons, Bool.and_eq_true] at h
    obtain ⟨s, rfl⟩ := exists_eq_string h.1
    rw [List.flatMap_cons, ih h.2]
    rfl

end Value

/-! ## Splicing -/

namespace Expr

mutual

/-- The value of an expression if merges never join strings. -/
def splice : Expr → Value
  | string _ s => .string s
  | number _ x => .number x
  | boolean _ b => .boolean b
  | list _ items => .array (spliceAll items)
  | merge _ operands =>
    if operands.isEmpty then .null else .array ((spliceAll operands).flatMap Value.elements)

def spliceAll : List Expr → List Value
  | [] => []
  | e :: es => splice e :: spliceAll es

end

theorem spliceAll_eq_map (es : List Expr) : spliceAll es = es.map splice := by
  induction es with
  | nil => rfl
  | cons e es ih => rw [spliceAll, ih, List.map_cons]

theorem splice_merge {operands : List Expr} (h : operands ≠ []) (t : Token) :
    (merge t operands).splice = .array (operands.flatMap fun e => e.splice.elements) := by
  rw [splice, if_neg (mt List.isEmpty_iff.mp h), spliceAll_eq_map, List.flatMap_map]

theorem elements_eq_spread (v : Value) : v.elements = Js.spread v := by
  cases v <;> rfl

theorem value_js (e : Expr) : e.js.value = e.splice := by
  induction e with
  | string | number | boolean => rfl
  | list t items ih =>
    rw [js, splice, jsAll_eq_map, spliceAll_eq_map, Js.value, Js.valueAll_eq_map, List.map_map]
    exact congrArg Value.array (List.map_congr_left ih)
  | merge t operands ih =>
    rw [js, splice, jsAll_eq_map, spliceAll_eq_map]
    split
    case isTrue => rfl
    case isFalse =>
      have helements : Value.elements = Js.spread := funext elements_eq_spread
      have hvalues : operands.map (Js.value ∘ js) = operands.map splice := List.map_congr_left ih
      rw [Js.value, Js.valueAll_eq_map, List.map_map, hvalues, helements]

theorem value?_script (e : Expr) :
    Js.value? e.script.toList = if e.isEmptyMerge then none else some e.splice := by
  rw [Js.value?, read?_script]
  split
  case isTrue => rfl
  case isFalse => exact congrArg some (value_js e)

/-! ## Where splicing agrees with joining -/

/-- Whether some expression has a value that is no string. -/
def mixes (es : List Expr) : Bool := es.any fun e => !e.eval.isString

mutual

/-- Whether a test holds of the operands of every merge that has any. The test is told whether the
merge is an operand of a merge. -/
def everyMerge (test : Bool → List Expr → Bool) (operand : Bool) : Expr → Bool
  | list _ items => everyMergeAll test false items
  | merge _ operands =>
    operands.isEmpty || test operand operands && everyMergeAll test true operands
  | _ => true

def everyMergeAll (test : Bool → List Expr → Bool) (operand : Bool) : List Expr → Bool
  | [] => true
  | e :: es => everyMerge test operand e && everyMergeAll test operand es

end

/-- Whether no merge has operands that are all strings. -/
def isMixed (e : Expr) : Bool := e.everyMerge (fun _ es => mixes es) false

/-- Whether every merge of strings has one operand, and is an operand of a merge. -/
def agrees (operand : Bool) (e : Expr) : Bool :=
  e.everyMerge (fun operand es => mixes es || operand && es.length == 1) operand

theorem everyMergeAll_eq_true {test : Bool → List Expr → Bool} {operand : Bool} {es : List Expr} :
    everyMergeAll test operand es = true ↔ ∀ e ∈ es, e.everyMerge test operand = true := by
  induction es with
  | nil => simp [everyMergeAll]
  | cons e es ih => rw [everyMergeAll, Bool.and_eq_true, ih, List.forall_mem_cons]

theorem eval_list (t : Token) (items : List Expr) :
    (list t items).eval = .array (items.map eval) := by
  rw [eval, evalAll_eq_map]

theorem splice_list (t : Token) (items : List Expr) :
    (list t items).splice = .array (items.map splice) := by
  rw [splice, spliceAll_eq_map]

theorem all_isString_eval (es : List Expr) :
    (es.map eval).all Value.isString = !mixes es := by
  rw [mixes, List.not_any_eq_all_not, List.all_map]
  simp only [Bool.not_not]
  rfl

theorem eval_merge_of_mixes {operands : List Expr} (h : mixes operands = true) (t : Token) :
    (merge t operands).eval = .array (operands.flatMap fun e => e.eval.elements) := by
  rw [eval, evalAll_eq_map, Value.merge_of_not_all (by rw [all_isString_eval, h]; rfl),
    List.flatMap_map]

theorem eval_merge_of_not_mixes {operands : List Expr} (hne : operands ≠ [])
    (h : mixes operands = false) (t : Token) :
    (merge t operands).eval =
      .string (String.ofList ((operands.map eval).flatMap Value.characters)) := by
  rw [eval, evalAll_eq_map, Value.merge_of_all (mt List.map_eq_nil_iff.mp hne)
    (by rw [all_isString_eval, h]; rfl)]

theorem exists_eval_eq_string {es : List Expr} (h : mixes es = false) {e : Expr} (he : e ∈ es) :
    ∃ s, e.eval = .string s := by
  have hall : (es.map eval).all Value.isString = true := by rw [all_isString_eval, h]; rfl
  exact Value.exists_eq_string (List.all_eq_true.mp hall _ (List.mem_map_of_mem he))

theorem length_flatMap_le {α β : Type} {f g : α → List β} {l : List α}
    (h : ∀ a ∈ l, (f a).length ≤ (g a).length) : (l.flatMap f).length ≤ (l.flatMap g).length := by
  induction l with
  | nil => exact Nat.le_refl _
  | cons a l ih =>
    obtain ⟨ha, hl⟩ := List.forall_mem_cons.mp h
    rw [List.flatMap_cons, List.flatMap_cons, List.length_append, List.length_append]
    exact Nat.add_le_add ha (ih hl)

/-- If no part is shorter, the parts of equal lists are equal. -/
theorem flatMap_eq_flatMap_iff {α β : Type} {f g : α → List β} {l : List α}
    (h : ∀ a ∈ l, (f a).length ≤ (g a).length) :
    l.flatMap g = l.flatMap f ↔ ∀ a ∈ l, g a = f a := by
  induction l with
  | nil => simp
  | cons a l ih =>
    obtain ⟨ha, hl⟩ := List.forall_mem_cons.mp h
    rw [List.flatMap_cons, List.flatMap_cons, List.forall_mem_cons, ← ih hl]
    constructor
    · intro heq
      -- the first parts end together, or else the other parts would be shorter
      have hlength := congrArg List.length heq
      have hle := length_flatMap_le hl
      rw [List.length_append, List.length_append] at hlength
      exact List.append_inj heq (by omega)
    · rintro ⟨hfirst, hothers⟩
      rw [hfirst, hothers]

/-- Splicing puts no less into a merged list than joining does. -/
theorem length_elements_eval_le (e : Expr) :
    e.eval.elements.length ≤ e.splice.elements.length := by
  induction e with
  | string | number | boolean => exact Nat.le_refl _
  | list t items ih =>
    rw [eval_list, splice_list]
    simp only [Value.elements, List.length_map, Nat.le_refl]
  | merge t operands ih =>
    by_cases hne : operands = []
    · rw [hne]
      exact Nat.le_refl _
    rw [splice_merge hne]
    cases hmix : mixes operands with
    | true =>
      rw [eval_merge_of_mixes hmix]
      exact length_flatMap_le ih
    | false =>
      rw [eval_merge_of_not_mixes hne hmix]
      obtain ⟨e, es, rfl⟩ := List.exists_cons_of_ne_nil hne
      obtain ⟨s, hs⟩ := exists_eval_eq_string hmix List.mem_cons_self
      have hfirst := ih e List.mem_cons_self
      rw [hs] at hfirst
      show 1 ≤ ((e :: es).flatMap _).length
      rw [List.flatMap_cons, List.length_append]
      exact Nat.le_trans hfirst (Nat.le_add_right _ _)

theorem agrees_list {operand : Bool} {t : Token} {items : List Expr} :
    (list t items).agrees operand = true ↔ ∀ e ∈ items, e.agrees false = true := by
  rw [agrees, everyMerge, everyMergeAll_eq_true]
  rfl

theorem agrees_merge {operands : List Expr} (hne : operands ≠ []) {operand : Bool} {t : Token} :
    (merge t operands).agrees operand = true ↔
      (mixes operands = true ∨ operand = true ∧ operands.length = 1) ∧
        ∀ e ∈ operands, e.agrees true = true := by
  have hempty : operands.isEmpty = false := List.isEmpty_eq_false_iff.mpr hne
  rw [agrees, everyMerge, hempty, Bool.false_or, Bool.and_eq_true, everyMergeAll_eq_true,
    Bool.or_eq_true, Bool.and_eq_true, beq_iff_eq]
  rfl

/-- Both values of an expression are equal, and both put the same into a merged list, under the
conditions that `agrees` states. -/
theorem splice_eq_eval_iff_and (e : Expr) :
    (e.splice = e.eval ↔ e.agrees false = true) ∧
      (e.splice.elements = e.eval.elements ↔ e.agrees true = true) := by
  induction e with
  | string | number | boolean => exact ⟨iff_of_true rfl rfl, iff_of_true rfl rfl⟩
  | list t items ih =>
    have hitems : items.map splice = items.map eval ↔ ∀ e ∈ items, e.agrees false = true := by
      rw [List.map_inj_left]
      exact forall₂_congr fun e he => (ih e he).1
    rw [splice_list, eval_list, agrees_list, agrees_list, Value.array.injEq]
    exact ⟨hitems, hitems⟩
  | merge t operands ih =>
    by_cases hne : operands = []
    · rw [hne]
      exact ⟨iff_of_true rfl rfl, iff_of_true rfl rfl⟩
    rw [splice_merge hne, agrees_merge hne, agrees_merge hne]
    cases hmix : mixes operands with
    | true =>
      -- both values are arrays, and no operand can make up for another
      have hparts : (operands.flatMap fun e => e.splice.elements) =
          (operands.flatMap fun e => e.eval.elements) ↔ ∀ e ∈ operands, e.agrees true = true := by
        rw [flatMap_eq_flatMap_iff fun e _ => length_elements_eval_le e]
        exact forall₂_congr fun e he => (ih e he).2
      rw [eval_merge_of_mixes hmix, Value.array.injEq]
      simp only [Value.elements_array, hparts, true_or, true_and, and_self]
    | false =>
      -- a string against an array, which can only put the same into a list around them
      rw [eval_merge_of_not_mixes hne hmix]
      refine ⟨iff_of_false Value.noConfusion (by simp), ?_⟩
      simp only [Value.elements_array, Value.elements_string, Bool.false_eq_true, false_or,
        true_and]
      rcases operands with _ | ⟨e, _ | ⟨e', es⟩⟩
      · exact absurd rfl hne
      · obtain ⟨s, hs⟩ := exists_eval_eq_string hmix List.mem_cons_self
        have hih := (ih e List.mem_cons_self).2
        rw [hs] at hih
        simpa [hs, Value.characters] using hih
      · -- two strings splice to two elements at least
        have hone {x : Expr} (hx : x ∈ e :: e' :: es) : 1 ≤ x.splice.elements.length := by
          obtain ⟨s, hs⟩ := exists_eval_eq_string hmix hx
          have hle := length_elements_eval_le x
          rwa [hs] at hle
        have hfirst := hone List.mem_cons_self
        have hsecond := hone (List.mem_cons_of_mem _ List.mem_cons_self)
        refine iff_of_false ?_ (by simp)
        intro heq
        have hlength := congrArg List.length heq
        rw [List.flatMap_cons, List.flatMap_cons, List.length_append, List.length_append,
          List.length_singleton] at hlength
        omega

/-- **Where the backends agree.** Splicing gives the value of an expression if and only if every
merge of strings has one operand and is itself an operand. -/
theorem splice_eq_eval_iff (e : Expr) : e.splice = e.eval ↔ e.agrees false = true :=
  (splice_eq_eval_iff_and e).1

theorem everyMerge_mono {test test' : Bool → List Expr → Bool}
    (htest : ∀ operand operand' es, test operand es = true → test' operand' es = true)
    {operand operand' : Bool} {e : Expr} (h : e.everyMerge test operand = true) :
    e.everyMerge test' operand' = true := by
  induction e generalizing operand operand' with
  | string | number | boolean => rfl
  | list t items ih =>
    rw [everyMerge, everyMergeAll_eq_true] at h ⊢
    exact fun e he => ih e he (h e he)
  | merge t operands ih =>
    rw [everyMerge, Bool.or_eq_true, Bool.and_eq_true, everyMergeAll_eq_true] at h ⊢
    apply h.imp_right
    rintro ⟨hown, hothers⟩
    refine ⟨htest _ _ _ hown, ?_⟩
    intro e he
    exact ih e he (hothers e he)

/-- Splicing gives the value of an expression in which no merge joins strings. -/
theorem splice_eq_eval_of_isMixed {e : Expr} (h : e.isMixed = true) : e.splice = e.eval := by
  rw [splice_eq_eval_iff]
  refine everyMerge_mono ?_ h
  intro _ operand es hmix
  rw [hmix, Bool.true_or]

/-! ## Leaves -/

/-- The leaves of both values of an expression are equal up to joining adjacent strings. -/
theorem joinStrings_leaves_splice (e : Expr) :
    Value.joinStrings e.splice.leaves = Value.joinStrings e.eval.leaves := by
  induction e with
  | string | number | boolean => rfl
  | list t items ih =>
    rw [splice_list, eval_list, Value.leaves_array, Value.leaves_array, List.flatMap_map,
      List.flatMap_map]
    exact Value.joinStrings_flatMap_congr ih
  | merge t operands ih =>
    by_cases hne : operands = []
    · rw [hne]
      rfl
    have hparts : Value.joinStrings (operands.flatMap fun e => e.splice.leaves) =
        Value.joinStrings (operands.flatMap fun e => e.eval.leaves) :=
      Value.joinStrings_flatMap_congr ih
    rw [splice_merge hne, Value.leaves_array, List.flatMap_assoc]
    simp only [Value.flatMap_leaves_elements, hparts]
    cases hmix : mixes operands with
    | true =>
      rw [eval_merge_of_mixes hmix, Value.leaves_array, List.flatMap_assoc]
      simp only [Value.flatMap_leaves_elements]
    | false =>
      have hall : (operands.map eval).all Value.isString = true := by
        rw [all_isString_eval, hmix]
        rfl
      rw [eval_merge_of_not_mixes hne hmix, ← List.flatMap_map, Value.flatMap_leaves_of_all hall,
        Value.joinStrings_of_all (mt List.map_eq_nil_iff.mp hne) hall]
      rfl

/-- **What a script means.** The script of an expression evaluates to its spliced value, unless it
is empty. That is the value of the expression if no merge joins strings, and in any case neither
backend loses, repeats or reorders a leaf: the leaves are equal up to joining adjacent strings. -/
theorem value?_script_eq_splice (e : Expr) :
    (Js.value? e.script.toList = if e.isEmptyMerge then none else some e.splice) ∧
      (e.isMixed = true →
        Js.value? e.script.toList = if e.isEmptyMerge then none else some e.eval) ∧
      Value.joinStrings e.splice.leaves = Value.joinStrings e.eval.leaves := by
  refine ⟨value?_script e, ?_, joinStrings_leaves_splice e⟩
  intro h
  rw [value?_script, splice_eq_eval_of_isMixed h]

end Expr

end Splice
