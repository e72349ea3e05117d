import Splice.Proofs.Json
import Splice.Value

/-!
# Values as JSON

The JSON tree of a value says the value, with null for every number that is not finite
(`value?_toJson`). Both texts of a value read back as its tree (`read?_compact`, `read?_pretty`).
-/

namespace Splice

/-! ## Trees of values -/

mutual

/-- The value that a tree denotes; objects denote none. -/
def Json.value? : Json → Option Value
  | .null => some .null
  | .boolean b => some (.boolean b)
  | .number literal => (Binary64.read? literal).map .number
  | .string s => some (.string s)
  | .array items => (valueAll? items).map .array
  | .object _ => none

def Json.valueAll? : List Json → Option (List Value)
  | [] => some []
  | j :: js => (value? j).bind fun v => (valueAll? js).map (v :: ·)

end

namespace Value

/-- Induction over values: the elements of an array all satisfy what is proved of it. -/
@[elab_as_elim, induction_eliminator]
theorem valueInduction {motive : Value → Prop} (null : motive .null)
    (boolean : ∀ b, motive (.boolean b)) (number : ∀ x, motive (.number x))
    (string : ∀ s, motive (.string s))
    (array : ∀ items, (∀ v ∈ items, motive v) → motive (.array items)) (v : Value) : motive v := by
  refine @Value.rec motive (fun vs => ∀ v ∈ vs, motive v) null boolean number string array ?_ ?_ v
  · intro v hv
    exact absurd hv List.not_mem_nil
  · intro v vs h hs v' hv'
    rcases List.mem_cons.mp hv' with rfl | hv'
    · exact h
    · exact hs v' hv'

mutual

/-- A value with null for every number that is not finite. -/
def finite : Value → Value
  | number x => if x.isFinite then number x else null
  | array items => array (finiteAll items)
  | v => v

def finiteAll : List Value → List Value
  | [] => []
  | v :: vs => finite v :: finiteAll vs

end

mutual

def isFinite : Value → Bool
  | number x => x.isFinite
  | array items => isFiniteAll items
  | _ => true

def isFiniteAll : List Value → Bool
  | [] => true
  | v :: vs => isFinite v && isFiniteAll vs

end

theorem finiteAll_eq_map (vs : List Value) : finiteAll vs = vs.map finite := by
  induction vs with
  | nil => rfl
  | cons v vs ih => rw [finiteAll, ih, List.map_cons]

theorem isFiniteAll_eq_true {vs : List Value} :
    isFiniteAll vs = true ↔ ∀ v ∈ vs, v.isFinite = true := by
  induction vs with
  | nil => simp [isFiniteAll]
  | cons v vs ih => rw [isFiniteAll, Bool.and_eq_true, ih, List.forall_mem_cons]

theorem toJsonAll_eq_map (vs : List Value) : toJsonAll vs = vs.map toJson := by
  induction vs with
  | nil => rfl
  | cons v vs ih => rw [toJsonAll, ih, List.map_cons]

theorem finite_of_isFinite {v : Value} (h : v.isFinite = true) : v.finite = v := by
  induction v with
  | null | boolean | string => rfl
  | number x => exact if_pos h
  | array items ih =>
    have hitems := isFiniteAll_eq_true.mp h
    have heq : items.map finite = items.map id :=
      List.map_congr_left fun v hv => ih v hv (hitems v hv)
    rw [finite, finiteAll_eq_map, heq, List.map_id]

theorem isNumeral_text {x : Binary64} (h : x.isFinite = true) : Json.isNumeral x.text = true := by
  obtain ⟨hall, hstrict⟩ := Front.isStrict_unsigned_text h
  rw [Json.isNumeral, List.all_eq_true.mpr hall, hstrict, Bool.and_true]

theorem isStrict_toJson (v : Value) : v.toJson.IsStrict := by
  induction v with
  | null => exact .null
  | boolean => exact .boolean
  | string => exact .string
  | number x =>
    rw [toJson]
    split
    case isTrue h => exact .number (isNumeral_text h)
    case isFalse => exact .null
  | array items ih =>
    rw [toJson, toJsonAll_eq_map]
    exact .array (List.forall_mem_map.mpr ih)

theorem value?_toJson (v : Value) : v.toJson.value? = some v.finite := by
  induction v with
  | null | boolean | string => rfl
  | number x =>
    rw [toJson, finite]
    split
    case isTrue => rw [Json.value?, Binary64.read?_text, Option.map_some]
    case isFalse => rfl
  | array items ih =>
    have hitems : Json.valueAll? (toJsonAll items) = some (finiteAll items) := by
      induction items with
      | nil => rfl
      | cons v vs ihs =>
        obtain ⟨hv, hvs⟩ := List.forall_mem_cons.mp ih
        rw [toJsonAll, Json.valueAll?, hv, Option.bind_some, ihs hvs, finiteAll, Option.map_some]
    rw [toJson, Json.value?, hitems, finite, Option.map_some]

/-! ## Texts of values -/

theorem read?_compact (v : Value) : Json.read? v.compact.toList = some v.toJson :=
  Json.read?_render Json.Layout.isSound_compact Front.isSound_printable v.isStrict_toJson

theorem read?_pretty (v : Value) : Json.read? v.pretty.toList = some v.toJson :=
  Json.read?_render Json.Layout.isSound_indented Front.isSound_printable v.isStrict_toJson

end Value

end Splice
