import Splice.Proofs.Program
import Splice.Proofs.RoundTrip
import Splice.Proofs.Value

/-!
# Nesting of values

A merge nests no deeper than its deepest operand, but for the one array that is around spliced
operands (`Value.depth_merge_le`). So a value nests no deeper than its expression
(`depth_eval_le`), and the values of programs are nested up to the limit of the parser, whatever
stands side by side in them (`depth_value_le`).
-/

namespace Splice

namespace Value

mutual

/-- How many arrays are open at once in a value. -/
def depth : Value → Nat
  | array items => depthAll items + 1
  | _ => 0

def depthAll : List Value → Nat
  | [] => 0
  | v :: vs => max (depth v) (depthAll vs)

end

theorem depthAll_le {vs : List Value} {n : Nat} : depthAll vs ≤ n ↔ ∀ v ∈ vs, v.depth ≤ n := by
  induction vs with
  | nil => simp [depthAll]
  | cons v vs ih => rw [depthAll, Nat.max_le, ih, List.forall_mem_cons]

theorem depth_le_depthAll {vs : List Value} {v : Value} (h : v ∈ vs) : v.depth ≤ depthAll vs :=
  depthAll_le.mp (Nat.le_refl _) v h

/-- An element of an array is nested less than the array, and no other value is nested at all. -/
theorem depth_lt_of_mem_elements {v w : Value} (h : w ∈ v.elements) : w.depth < max v.depth 1 := by
  cases v with
  | array items =>
    have hle : w.depth ≤ depthAll items := depth_le_depthAll h
    exact Nat.lt_of_lt_of_le (Nat.lt_succ_of_le hle) (Nat.le_max_left _ _)
  | null | boolean | number | string =>
    rw [List.mem_singleton.mp h]
    exact Nat.one_pos

/-- A merge nests no deeper than its deepest operand, but for the array around spliced operands. -/
theorem depth_merge_le (vs : List Value) : (merge vs).depth ≤ max (depthAll vs) 1 := by
  unfold merge
  split
  case isTrue => exact Nat.zero_le _
  case isFalse =>
    split
    case isTrue => exact Nat.zero_le _
    case isFalse =>
      have helements : depthAll (vs.flatMap elements) ≤ max (depthAll vs) 1 - 1 := by
        refine depthAll_le.mpr fun w hw => ?_
        obtain ⟨v, hv, hw⟩ := List.mem_flatMap.mp hw
        have hlt := depth_lt_of_mem_elements hw
        have hle := depth_le_depthAll hv
        omega
      show depthAll (vs.flatMap elements) + 1 ≤ _
      omega

end Value

namespace Expr

theorem depth_eval_le (e : Expr) : e.eval.depth ≤ e.depth := by
  have hall {es : List Expr} (ih : ∀ e ∈ es, e.eval.depth ≤ e.depth) :
      Value.depthAll (es.map eval) ≤ depthAll es := by
    refine Value.depthAll_le.mpr (List.forall_mem_map.mpr fun e he => ?_)
    exact Nat.le_trans (ih e he) (depth_le_depthAll he)
  induction e with
  | string | number | boolean => exact Nat.le_refl _
  | list t items ih =>
    rw [eval, evalAll_eq_map, Value.depth, depth]
    exact Nat.succ_le_succ (hall ih)
  | merge t operands ih =>
    have hmerge := Value.depth_merge_le (operands.map eval)
    have hoperands := hall ih
    rw [eval, evalAll_eq_map, depth]
    omega

/-! ## Sources of every depth -/

def nested : Nat → Expr
  | 0 => boolean (.atEnd 0 0) true
  | n + 1 => list (.atEnd 0 0) [nested n]

theorem isWritable_nested (n : Nat) : (nested n).isWritable = true := by
  induction n with
  | zero => rfl
  | succ n ih => rw [nested, isWritable, isWritableAll_eq_true, List.forall_mem_singleton, ih]

theorem depth_nested (n : Nat) : (nested n).depth = n ∧ (nested n).eval.depth = n := by
  induction n with
  | zero => exact ⟨rfl, rfl⟩
  | succ n ih =>
    obtain ⟨hdepth, heval⟩ := ih
    constructor
    · rw [nested, depth, depthAll, depthAll, hdepth, Nat.max_zero]
    · rw [nested, eval, evalAll, evalAll, Value.depth, Value.depthAll, Value.depthAll, heval,
        Nat.max_zero]

end Expr

/-! ## Values of programs -/

/-- The root of a program is within the limit of the parser. -/
theorem depth_le_of_rootRun {source : Source} {e : Expr}
    (h : (rootRun source).outcome = .ok (some e)) : e.depth ≤ maxNesting := by
  cases hscan : (scanRun source).outcome with
  | error failure =>
    rw [rootRun, Run.outcome_andThen_error hscan] at h
    cases h
  | ok tokens =>
    rw [rootRun, Run.outcome_andThen_ok hscan, parseRun_outcome_eq_ok_iff] at h
    exact (parse_eq_ok_some_iff.mp h).depth_le

/-- **Nesting of values.** The value of an expression nests no more arrays than the expression nests
lists and merges. So the value that a program gives is nested at most 256 deep; and programs give
values of every depth up to that. -/
theorem depth_value_le :
    (∀ e : Expr, e.eval.depth ≤ e.depth) ∧
      (∀ octets v, (run .value octets).outcome = .ok (.value v) → v.depth ≤ 256) ∧
      ∀ n ≤ 256, ∃ octets v, (run .value octets).outcome = .ok (.value v) ∧ v.depth = n := by
  refine ⟨Expr.depth_eval_le, ?_, ?_⟩
  · intro octets v hv
    obtain ⟨root, hroot, rfl⟩ := outcome_value_eq_ok_iff.mp hv
    cases root with
    | none => exact Nat.zero_le _
    | some e => exact Nat.le_trans e.depth_eval_le (depth_le_of_rootRun hroot)
  · intro n hn
    obtain ⟨hdepth, heval⟩ := Expr.depth_nested n
    obtain ⟨tokens, e, hforget, hroot⟩ :=
      rootRun_source (Expr.isWritable_nested n) (hdepth.trans_le hn)
    refine ⟨Text.encode (Expr.nested n).source, e.eval, ?_, ?_⟩
    · rw [run, Source.ofOctets_encode]
      exact outcome_value_eq_ok_iff.mpr ⟨some e, by rw [hroot], rfl⟩
    · rw [← e.eval_forget, hforget, Expr.eval_forget, heval]

/-- The octets of `[[] (++ [[]] []) []]`. -/
def siblingOctets : List UInt8 :=
  [0x5B, 0x5B, 0x5D, 0x20, 0x28, 0x2B, 0x2B, 0x20, 0x5B, 0x5B, 0x5D, 0x5D, 0x20, 0x5B, 0x5D, 0x29,
    0x20, 0x5B, 0x5D, 0x5D]

/-- Lists and merges that stand side by side do not add up. -/
theorem depth_value_le_siblings :
    (run .value siblingOctets).outcome =
        .ok (.value (.array [.array [], .array [.array []], .array []])) ∧
      (Value.array [.array [], .array [.array []], .array []]).depth = 3 ∧
      (Value.array [.array [], .array [.array []], .array []]).depth ≤ 256 := by
  have hv : (run .value siblingOctets).outcome =
      .ok (.value (.array [.array [], .array [.array []], .array []])) := rfl
  exact ⟨hv, rfl, depth_value_le.2.1 siblingOctets _ hv⟩

end Splice
