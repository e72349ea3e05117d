import Splice.Program
import Splice.Proofs.Expr.Meaning

/-!
# Runs

A run towards a value or a script reads the root of the source first (`rootRun`), and then only
depends on the root. The two goals are compared on every source that both accept
(`value?_script_eq_value_iff`).
-/

namespace Splice

namespace Run

variable {α β γ : Type}

theorem andThen_assoc (r : Run α) (f : α → Run β) (g : β → Run γ) :
    (r.andThen f).andThen g = r.andThen fun a => (f a).andThen g := by
  obtain ⟨events, outcome⟩ := r
  cases outcome with
  | error => rfl
  | ok a =>
    show Run.andThen ⟨events ++ (f a).events, (f a).outcome⟩ g =
      ⟨events ++ ((f a).andThen g).events, ((f a).andThen g).outcome⟩
    unfold andThen
    dsimp only
    split <;> simp

theorem map_andThen (r : Run α) (f : α → Run β) (g : β → γ) :
    (r.andThen f).map g = r.andThen fun a => (f a).map g := by
  obtain ⟨events, outcome⟩ := r
  cases outcome <;> rfl

theorem outcome_andThen_ok {r : Run α} {a : α} (h : r.outcome = .ok a) (f : α → Run β) :
    (r.andThen f).outcome = (f a).outcome := by
  unfold andThen
  rw [h]

theorem outcome_andThen_error {r : Run α} {e : Failure} (h : r.outcome = .error e) (f : α → Run β) :
    (r.andThen f).outcome = .error e := by
  unfold andThen
  rw [h]

theorem diagnostics_andThen_ok {r : Run α} {a : α} (h : r.outcome = .ok a) (f : α → Run β) :
    (r.andThen f).diagnostics = r.diagnostics ++ (f a).diagnostics := by
  unfold andThen
  rw [h]
  exact List.filterMap_append

theorem diagnostics_andThen_error {r : Run α} {e : Failure} (h : r.outcome = .error e)
    (f : α → Run β) : (r.andThen f).diagnostics = r.diagnostics := by
  unfold andThen
  rw [h]
  rfl

end Run

theorem diagnostics_evalRun (root : Option Expr) : (evalRun root).diagnostics = [] := by
  cases root <;> rfl

theorem diagnostics_scriptRun (root : Option Expr) : (scriptRun root).diagnostics = [] := by
  show List.filterMap _ (List.concat (List.map _ _) _) = []
  rw [List.concat_eq_append, List.filterMap_append, List.filterMap_map, List.append_eq_nil_iff]
  refine ⟨List.filterMap_eq_nil_iff.mpr fun t _ => rfl, rfl⟩

/-- The root of a source, and what happens in reading it. -/
def rootRun (source : Source) : Run (Option Expr) :=
  (scanRun source).andThen fun tokens => parseRun tokens source.text

theorem runSource_value (source : Source) : runSource .value source =
    (rootRun source).andThen fun root => (evalRun root).map .value := by
  rw [rootRun, Run.andThen_assoc]
  simp only [runSource, Run.map_andThen]

theorem runSource_script (source : Source) : runSource .script source =
    (rootRun source).andThen fun root => (scriptRun root).map .script := by
  rw [rootRun, Run.andThen_assoc]
  simp only [runSource, Run.map_andThen]

theorem outcome_value_eq_ok_iff {source : Source} {v : Value} :
    (runSource .value source).outcome = .ok (.value v) ↔
      ∃ root, (rootRun source).outcome = .ok root ∧ Expr.evalRoot root = v := by
  rw [runSource_value]
  cases h : (rootRun source).outcome with
  | error e => simp [Run.outcome_andThen_error h]
  | ok root => simp [Run.outcome_andThen_ok h, evalRun, Run.map, Except.map]

theorem outcome_script_eq_ok_iff {source : Source} {js : String} :
    (runSource .script source).outcome = .ok (.script js) ↔
      ∃ root, (rootRun source).outcome = .ok root ∧ Expr.scriptRoot root = js := by
  rw [runSource_script]
  cases h : (rootRun source).outcome with
  | error e => simp [Run.outcome_andThen_error h]
  | ok root => simp [Run.outcome_andThen_ok h, scriptRun, Run.map, Except.map]

/-- **Agreement of the backends.** A script evaluates to the value of its program if and only if
the program has a root that is no empty merge, in which every merge of strings has one operand and
is itself an operand. -/
theorem value?_script_eq_value_iff {octets : List UInt8} {v : Value} {js : String}
    (hv : (run .value octets).outcome = .ok (.value v))
    (hjs : (run .script octets).outcome = .ok (.script js)) :
    Js.value? js.toList = some v ↔ ∃ e, (rootRun (.ofOctets octets)).outcome = .ok (some e) ∧
      e.isEmptyMerge = false ∧ e.agrees false = true := by
  obtain ⟨root, hroot, rfl⟩ := outcome_value_eq_ok_iff.mp hv
  obtain ⟨root', hroot', rfl⟩ := outcome_script_eq_ok_iff.mp hjs
  obtain rfl : root = root' := Except.ok.inj (hroot.symm.trans hroot')
  rw [hroot]
  cases root with
  | none => exact iff_of_false (fun h => Option.some_ne_none _ h.symm) (by simp)
  | some e =>
    show Js.value? e.script.toList = some e.eval ↔ _
    rw [Expr.value?_script]
    cases hempty : e.isEmptyMerge with
    | true =>
      refine iff_of_false (fun h => Option.some_ne_none _ h.symm) ?_
      rintro ⟨e', he', hne, -⟩
      obtain rfl : e = e' := Option.some.inj (Except.ok.inj he')
      exact Bool.noConfusion (hempty.symm.trans hne)
    | false =>
      rw [if_neg Bool.false_ne_true, Option.some.injEq, Expr.splice_eq_eval_iff]
      constructor
      · intro h
        exact ⟨e, rfl, hempty, h⟩
      · rintro ⟨e', he', -, h⟩
        obtain rfl : e = e' := Option.some.inj (Except.ok.inj he')
        exact h

def mixedOctets : List UInt8 :=
  [0x28, 0x2B, 0x2B, 0x20, 0x22, 0x61, 0x22, 0x20, 0x5B, 0x74, 0x72, 0x75, 0x65, 0x5D, 0x29]

/-- A string and a list are spliced by both backends. -/
theorem value?_script_mixed :
    (run .value mixedOctets).outcome = .ok (.value (.array [.string "a", .boolean true])) ∧
      (run .script mixedOctets).outcome = .ok (.script "[].concat(\"a\",[true])") ∧
      Js.value? "[].concat(\"a\",[true])".toList = some (.array [.string "a", .boolean true]) := by
  have hv : (run .value mixedOctets).outcome =
      .ok (.value (.array [.string "a", .boolean true])) := rfl
  have hjs : (run .script mixedOctets).outcome = .ok (.script "[].concat(\"a\",[true])") := rfl
  exact ⟨hv, hjs, (value?_script_eq_value_iff hv hjs).mpr ⟨_, rfl, rfl, rfl⟩⟩

def stringOctets : List UInt8 :=
  [0x28, 0x2B, 0x2B, 0x20, 0x22, 0x61, 0x22, 0x20, 0x22, 0x62, 0x22, 0x29]

/-- Two strings are joined by one backend and spliced by the other. -/
theorem value?_script_strings :
    (∃ e, (rootRun (.ofOctets stringOctets)).outcome = .ok (some e) ∧ e.isEmptyMerge = false) ∧
      (run .value stringOctets).outcome = .ok (.value (.string "ab")) ∧
      (run .script stringOctets).outcome = .ok (.script "[].concat(\"a\",\"b\")") ∧
      Js.value? "[].concat(\"a\",\"b\")".toList = some (.array [.string "a", .string "b"]) ∧
      Js.value? "[].concat(\"a\",\"b\")".toList ≠ some (.string "ab") := by
  have hjs : Js.value? "[].concat(\"a\",\"b\")".toList =
      some (.array [.string "a", .string "b"]) :=
    Expr.value?_script (.merge (.atEnd 0 0) [.string (.atEnd 0 0) "a", .string (.atEnd 0 0) "b"])
  refine ⟨⟨_, rfl, rfl⟩, rfl, rfl, hjs, ?_⟩
  rw [hjs]
  exact fun h => Value.noConfusion (Option.some.inj h)

end Splice
