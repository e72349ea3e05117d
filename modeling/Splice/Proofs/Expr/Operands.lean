import Mathlib.Data.List.Chain
import Splice.Proofs.Layout
import Splice.Proofs.Program

/-!
# Operands of scripts

Writing appends a text to what is there already, and asks of that only whether it has become longer
(`write_eq_append_script`). The text is empty for one kind of expression alone, which is the one of
value null (`script_eq_empty_iff`, `eval_eq_null_iff`); wherever such an expression is an operand,
`null` stands in its place. So every operand has a text (`script_list`, `script_merge`), and nowhere
in a script does a comma or a closing bracket stand where an operand should
(`fillsOperands_script`).
-/

namespace Splice

/-! ## Texts without gaps -/

namespace Js

open Json

/-- A place after which an operand is to come. -/
def expects (place : Zone × Char) : Bool :=
  place.1 == .outside && ['[', '(', ','].contains place.2

/-- A place before which an operand has come to its end. -/
def ends (place : Zone × Char) : Bool :=
  place.1 == .outside && [',', ']', ')'].contains place.2

/-- No operand is left out between two places; an array may have none. -/
def Fills (a b : Zone × Char) : Prop :=
  expects a = true → ends b = true → a.2 = '[' ∧ b.2 = ']'

instance : DecidableRel Fills := fun _ _ => inferInstanceAs (Decidable (_ → _ → _ ∧ _))

/-- No operand is left out of a text: outside of strings, an opening bracket or a comma does not
stand before a comma or a closing bracket, unless they are the brackets of an array without
elements. -/
def FillsOperands (text : List Char) : Prop :=
  ∀ before c d after, text = before ++ c :: d :: after → Zone.outside.read before = .outside →
    c ∈ ['[', '(', ','] → d ∈ [',', ']', ')'] → c = '[' ∧ d = ']'

/-- A text with a comma too many leaves out an operand. -/
example : ¬FillsOperands "[1,]".toList := by
  intro h
  have hgap := h "[1".toList ',' ']' [] rfl rfl (by decide) (by decide)
  exact absurd hgap.1 (by decide)

/-- The text of an operand: no operand is left out of it, nor at one of its sides. -/
structure IsOperand (text : List Char) : Prop where
  closed : Zone.outside.read text = .outside
  ne_nil : text ≠ []
  fills : (Zone.outside.places text).IsChain Fills
  first : ∀ place ∈ (Zone.outside.places text).head?, ends place = false
  last : ∀ place ∈ (Zone.outside.places text).getLast?, expects place = false

theorem fillsOperands_of_isChain {text : List Char}
    (h : (Zone.outside.places text).IsChain Fills) : FillsOperands text := by
  rintro before c d after rfl hbefore hc hd
  have hstep : Zone.outside.step c = .outside := by
    refine if_neg ?_
    rintro rfl
    exact absurd hc (by decide)
  rw [Zone.places_append, hbefore, Zone.places, hstep, Zone.places] at h
  have hfills := List.isChain_iff_forall_rel_of_append_cons_cons.mp h rfl
  exact hfills (List.contains_iff_mem.mpr hc) (List.contains_iff_mem.mpr hd)

namespace IsOperand

variable {text text' : List Char}

/-- A text that is not empty, with neither brackets nor commas outside of strings. -/
theorem of_plain (hclosed : Zone.outside.read text = .outside) (hne : text ≠ [])
    (h : ∀ c, (Zone.outside, c) ∈ Zone.outside.places text → c ∉ ['[', '(', ',', ']', ')']) :
    IsOperand text := by
  have hplace {place : Zone × Char} (hmem : place ∈ Zone.outside.places text) :
      expects place = false ∧ ends place = false := by
    obtain ⟨zone, c⟩ := place
    by_cases hzone : zone = .outside
    · subst hzone
      have hc := h c hmem
      simp only [List.mem_cons, List.not_mem_nil, or_false, not_or] at hc
      simp [expects, ends, hc]
    · simp [expects, ends, hzone]
  refine ⟨hclosed, hne, ?_, ?_, ?_⟩
  · refine List.isChain_iff_forall_rel_of_append_cons_cons.mpr fun a b _ _ heq ha => ?_
    have hmem : a ∈ Zone.outside.places text := heq ▸ List.mem_append_right _ List.mem_cons_self
    exact absurd ha (Bool.eq_false_iff.mp (hplace hmem).1)
  · exact fun place hp => (hplace (List.mem_of_mem_head? hp)).2
  · exact fun place hp => (hplace (List.mem_of_mem_getLast? hp)).1

theorem of_all (hne : text ≠ [])
    (h : text.all (fun c => !(['"', '[', '(', ',', ']', ')'].contains c)) = true) :
    IsOperand text := by
  have hplain {c : Char} (hc : c ∈ text) : c ∉ ['"', '[', '(', ',', ']', ')'] := by
    have hother := List.all_eq_true.mp h c hc
    rwa [Bool.not_eq_true', ← Bool.not_eq_true, List.contains_iff_mem] at hother
  have hquote : '"' ∉ text := fun hquote => hplain hquote (by decide)
  refine of_plain (Zone.read_outside hquote) hne fun c hc hmem => ?_
  exact hplain (Zone.mem_of_mem_places hc) (List.mem_cons_of_mem _ hmem)

theorem quote (s : List Char) : IsOperand (Json.quote .standard s) := by
  refine of_plain (Zone.read_quote Front.isSound_standard s) (List.cons_ne_nil _ _) fun c hc => ?_
  rw [Zone.places_quote Front.isSound_standard s hc]
  decide

theorem places_ne_nil (h : IsOperand text) : Zone.outside.places text ≠ [] := by
  obtain ⟨c, cs, rfl⟩ := List.exists_cons_of_ne_nil h.ne_nil
  exact List.cons_ne_nil _ _

/-- Nothing is left out between an operand and what follows it. -/
theorem isChain_append (h : IsOperand text) {places : List (Zone × Char)}
    (hplaces : places.IsChain Fills) :
    (Zone.outside.places text ++ places).IsChain Fills := by
  refine List.isChain_append.mpr ⟨h.fills, hplaces, fun a ha b _ hexpects => ?_⟩
  exact absurd hexpects (Bool.eq_false_iff.mp (h.last a ha))

/-- Nothing is left out between what precedes an operand and the operand. -/
theorem append_isChain (h : IsOperand text) {places rest : List (Zone × Char)}
    (hplaces : places.IsChain Fills) (hrest : (Zone.outside.places text ++ rest).IsChain Fills) :
    (places ++ (Zone.outside.places text ++ rest)).IsChain Fills := by
  refine List.isChain_append.mpr ⟨hplaces, hrest, fun a _ b hb _ hends => ?_⟩
  rw [List.head?_append_of_ne_nil _ h.places_ne_nil] at hb
  exact absurd hends (Bool.eq_false_iff.mp (h.first b hb))

theorem comma (h : IsOperand text) (h' : IsOperand text') : IsOperand (text ++ ',' :: text') := by
  have hplaces : Zone.outside.places (text ++ ',' :: text') =
      Zone.outside.places text ++ ([(.outside, ',')] ++ (Zone.outside.places text' ++ [])) := by
    rw [Zone.places_append, h.closed, List.append_nil]
    rfl
  refine ⟨?_, by simp, ?_, ?_, ?_⟩
  · rw [Zone.read_append, h.closed]
    exact h'.closed
  · rw [hplaces]
    exact h.isChain_append (h'.append_isChain (List.isChain_singleton _) (h'.isChain_append .nil))
  · rw [hplaces, List.head?_append_of_ne_nil _ h.places_ne_nil]
    exact h.first
  · rw [hplaces, List.append_nil, ← List.append_assoc,
      List.getLast?_append_of_ne_nil _ h'.places_ne_nil]
    exact h'.last

theorem enclosed {opening : List Char} {close : Char}
    (hb : opening = ['['] ∧ close = ']' ∨ opening = call ∧ close = ')') (h : IsOperand text) :
    IsOperand (opening ++ (text ++ [close])) := by
  have hopening : Zone.outside.read opening = .outside ∧
      (Zone.outside.places opening).IsChain Fills ∧
      ∃ places, Zone.outside.places opening = (.outside, '[') :: places := by
    rcases hb with ⟨rfl, -⟩ | ⟨rfl, -⟩ <;> exact ⟨rfl, by decide, _, rfl⟩
  have hclose : Zone.outside.step close = .outside ∧ expects (.outside, close) = false := by
    rcases hb with ⟨-, rfl⟩ | ⟨-, rfl⟩ <;> decide
  obtain ⟨hread, hchain, before, hbefore⟩ := hopening
  have hplaces : Zone.outside.places (opening ++ (text ++ [close])) =
      Zone.outside.places opening ++ (Zone.outside.places text ++ [(.outside, close)]) := by
    rw [Zone.places_append, hread, Zone.places_append, h.closed]
    rfl
  refine ⟨?_, by simp, ?_, ?_, ?_⟩
  · rw [Zone.read_append, hread, Zone.read_append, h.closed]
    exact hclose.1
  · rw [hplaces]
    exact h.append_isChain hchain (h.isChain_append (List.isChain_singleton _))
  · rw [hplaces, hbefore]
    rintro place ⟨⟩
    rfl
  · rw [hplaces, ← List.append_assoc, List.getLast?_concat]
    rintro place ⟨⟩
    exact hclose.2

theorem intercalate {texts : List (List Char)} (hne : texts ≠ [])
    (h : ∀ text ∈ texts, IsOperand text) : IsOperand ([','].intercalate texts) := by
  induction texts with
  | nil => exact absurd rfl hne
  | cons text texts ih =>
    obtain ⟨htext, htexts⟩ := List.forall_mem_cons.mp h
    cases texts with
    | nil => rwa [List.intercalate_singleton]
    | cons text' texts =>
      rw [List.intercalate_cons_cons, List.append_assoc]
      exact htext.comma (ih (List.cons_ne_nil _ _) htexts)

end IsOperand

end Js

namespace Expr

/-! ## What is written -/

def operand (e : Expr) : String := if e.script = "" then "null" else e.script

theorem write_eq_append_script (e : Expr) (out : String) : e.write out = out ++ e.script := by
  rw [← String.toList_inj, toList_write, String.toList_append, toList_script]

theorem isEmptyMerge_iff {e : Expr} : e.isEmptyMerge = true ↔ ∃ t, e = merge t [] := by
  constructor
  · intro h
    cases e with
    | merge t operands =>
      cases operands with
      | nil => exact ⟨t, rfl⟩
      | cons => exact absurd h Bool.false_ne_true
    | _ => exact absurd h Bool.false_ne_true
  · rintro ⟨t, rfl⟩
    rfl

theorem script_eq_empty_iff {e : Expr} : e.script = "" ↔ ∃ t, e = merge t [] := by
  rw [← isEmptyMerge_iff, ← code_eq_nil_iff, ← String.toList_inj, toList_script]
  rfl

theorem toList_operand (e : Expr) : e.operand.toList = orNull e.code := by
  have hscript : e.script = "" ↔ e.code = [] := by
    rw [← String.toList_inj, toList_script]
    rfl
  unfold operand orNull
  by_cases h : e.code = []
  · rw [if_pos h, if_pos (hscript.mpr h)]
  · rw [if_neg h, if_neg (mt hscript.mp h), toList_script]

theorem map_toList_operand (es : List Expr) :
    (es.map operand).map String.toList = es.map fun e => orNull e.code := by
  rw [List.map_map]
  exact List.map_congr_left fun e _ => e.toList_operand

theorem operand_ne_empty (e : Expr) : e.operand ≠ "" := by
  unfold operand
  split
  case isTrue => decide
  case isFalse h => exact h

theorem script_list (t : Token) (items : List Expr) :
    (list t items).script = "[" ++ ",".intercalate (items.map operand) ++ "]" := by
  rw [← String.toList_inj, toList_script, code_list, String.toList_append, String.toList_append,
    String.toList_intercalate, map_toList_operand]
  rfl

theorem script_merge (t : Token) (e : Expr) (es : List Expr) :
    (merge t (e :: es)).script =
      "[].concat(" ++ ",".intercalate ((e :: es).map operand) ++ ")" := by
  rw [← String.toList_inj, toList_script, code_merge (List.cons_ne_nil e es), String.toList_append,
    String.toList_append, String.toList_intercalate, map_toList_operand, List.append_assoc]
  rfl

theorem eval_eq_null_iff {e : Expr} : e.eval = .null ↔ ∃ t, e = merge t [] := by
  constructor
  · intro h
    cases e with
    | merge t operands =>
      cases operands with
      | nil => exact ⟨t, rfl⟩
      | cons e es =>
        rw [eval, evalAll_eq_map, List.map_cons, Value.merge, List.isEmpty_cons,
          if_neg Bool.false_ne_true] at h
        split at h <;> cases h
    | _ => cases h
  · rintro ⟨t, rfl⟩
    rfl

/-! ## No operand is left out -/

theorem isOperand_numberLiteral (x : Binary64) : Js.IsOperand (numberLiteral x) := by
  have hplain : ['"', '[', '(', ',', ']', ')'].all (!Front.isNumeralChar ·) = true := by decide
  cases x with
  | finite negative rank =>
    refine .of_all (numberLiteral_ne_nil _) (List.all_eq_true.mpr fun c hc => ?_)
    have hnumeral : Json.isNumeral (numberLiteral (.finite negative rank)) = true := by
      rw [numberLiteral_of_isFinite rfl]
      exact Value.isNumeral_text rfl
    have hall := List.all_eq_true.mp (Bool.and_eq_true_iff.mp hnumeral).1 c hc
    rw [Bool.not_eq_true', ← Bool.not_eq_true, List.contains_iff_mem]
    intro hmem
    have hother := List.all_eq_true.mp hplain c hmem
    rw [hall] at hother
    exact Bool.noConfusion hother
  | infinite negative => cases negative <;> exact .of_all (by decide) (by decide)
  | nan => exact .of_all (by decide) (by decide)

theorem isOperand_orNull_code (e : Expr) : Js.IsOperand (orNull e.code) := by
  have hword (word : List Char) (h : word ≠ [] ∧
      word.all (fun c => !(['"', '[', '(', ',', ']', ')'].contains c)) = true) :
      Js.IsOperand word := .of_all h.1 h.2
  induction e with
  | string t s => exact Js.IsOperand.quote s.toList
  | number t x =>
    rw [code, orNull_of_ne_nil (numberLiteral_ne_nil x)]
    exact isOperand_numberLiteral x
  | boolean t b =>
    cases b with
    | true => exact hword "true".toList (by decide)
    | false => exact hword "false".toList (by decide)
  | list t items ih =>
    rw [orNull_code_list]
    by_cases h : items = []
    · rw [h]
      exact ⟨rfl, by decide, by decide, by decide, by decide⟩
    · exact (Js.IsOperand.intercalate (by simpa using h) (List.forall_mem_map.mpr ih)).enclosed
        (.inl ⟨rfl, rfl⟩)
  | merge t operands ih =>
    by_cases h : operands = []
    · rw [h]
      exact hword "null".toList (by decide)
    · rw [orNull_code_merge h]
      exact (Js.IsOperand.intercalate (by simpa using h) (List.forall_mem_map.mpr ih)).enclosed
        (.inr ⟨rfl, rfl⟩)

theorem fillsOperands_script (e : Expr) : Js.FillsOperands e.script.toList := by
  rw [toList_script]
  by_cases h : e.code = []
  · rw [h]
    exact Js.fillsOperands_of_isChain .nil
  · rw [← orNull_of_ne_nil h]
    exact Js.fillsOperands_of_isChain (isOperand_orNull_code e).fills

/-! ## Programs -/

theorem scriptRoot_eq_empty_iff (root : Option Expr) :
    scriptRoot root = "" ↔ evalRoot root = .null := by
  cases root with
  | none => exact iff_of_true rfl rfl
  | some e => exact script_eq_empty_iff.trans eval_eq_null_iff.symm

end Expr

theorem outcome_script_empty_iff (octets : List UInt8) :
    (run .script octets).outcome = .ok (.script "") ↔
      (run .value octets).outcome = .ok (.value .null) := by
  rw [run, run, outcome_script_eq_ok_iff, outcome_value_eq_ok_iff]
  simp only [Expr.scriptRoot_eq_empty_iff]

/-- **Writing scripts.** Writing an expression appends a text that does not depend on what is there.
The text is empty for a merge without operands and for nothing else, and nothing else has the value
null; so a program has an empty script if and only if its value is null. A script has the texts of
all operands, none of which is empty, and no place in it where an operand is left out. -/
theorem write_appends_operands :
    (∀ (e : Expr) (out : String), e.write out = out ++ e.script) ∧
      (∀ e : Expr, (e.script = "" ↔ ∃ t, e = .merge t []) ∧
        ((∃ t, e = .merge t []) ↔ e.eval = .null)) ∧
      (∀ octets, (run .script octets).outcome = .ok (.script "") ↔
        (run .value octets).outcome = .ok (.value .null)) ∧
      (∀ e : Expr, e.operand ≠ "" ∧ Js.FillsOperands e.script.toList) ∧
      (∀ t items, (Expr.list t items).script =
        "[" ++ ",".intercalate (items.map Expr.operand) ++ "]") ∧
      ∀ t e es, (Expr.merge t (e :: es)).script =
        "[].concat(" ++ ",".intercalate ((e :: es).map Expr.operand) ++ ")" :=
  ⟨Expr.write_eq_append_script,
    fun _ => ⟨Expr.script_eq_empty_iff, Expr.eval_eq_null_iff.symm⟩,
    outcome_script_empty_iff,
    fun e => ⟨e.operand_ne_empty, e.fillsOperands_script⟩,
    Expr.script_list,
    Expr.script_merge⟩

end Splice
