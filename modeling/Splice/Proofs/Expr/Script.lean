import Splice.Expr.Script
import Splice.Proofs.Expr.Tree
import Splice.Proofs.JavaScript

/-!
# What scripts say

Writing a script adds a text that does not depend on what stands before it (`toList_write`). That
text reads back as one JavaScript expression (`read?_script`), unless there is nothing to read: only
a merge without operands writes nothing (`code_eq_nil_iff`). So the text tells the expression, but
for its tokens (`write_eq_append_iff`).
-/

namespace Splice.Expr

/-! ## The text that is written -/

/-- The text of an operand: `null` stands for an operand that writes nothing. -/
def orNull (text : List Char) : List Char := if text = [] then "null".toList else text

mutual

def code : Expr → List Char
  | string _ s => Json.quote .standard s.toList
  | number _ x => numberLiteral x
  | boolean _ b => if b then "true".toList else "false".toList
  | list _ items => '[' :: ([','].intercalate (codeAll items) ++ [']'])
  | merge _ operands =>
    if operands.isEmpty then []
    else Js.call ++ ([','].intercalate (codeAll operands) ++ [')'])

def codeAll : List Expr → List (List Char)
  | [] => []
  | e :: es => orNull (code e) :: codeAll es

end

theorem codeAll_eq_map (es : List Expr) : codeAll es = es.map fun e => orNull e.code := by
  induction es with
  | nil => rfl
  | cons e es ih => rw [codeAll, ih, List.map_cons]

theorem code_list (t : Token) (items : List Expr) : (list t items).code =
    '[' :: ([','].intercalate (items.map fun e => orNull e.code) ++ [']']) := by
  rw [code, codeAll_eq_map]

theorem code_merge {operands : List Expr} (h : operands ≠ []) (t : Token) :
    (merge t operands).code =
      Js.call ++ ([','].intercalate (operands.map fun e => orNull e.code) ++ [')']) := by
  rw [code, codeAll_eq_map, if_neg (mt List.isEmpty_iff.mp h)]

theorem orNull_of_ne_nil {text : List Char} (h : text ≠ []) : orNull text = text := if_neg h

theorem orNull_code_list (t : Token) (items : List Expr) : orNull (list t items).code =
    '[' :: ([','].intercalate (items.map fun e => orNull e.code) ++ [']']) := by
  rw [code_list, orNull_of_ne_nil (List.cons_ne_nil _ _)]

theorem orNull_code_merge {operands : List Expr} (h : operands ≠ []) (t : Token) :
    orNull (merge t operands).code =
      Js.call ++ ([','].intercalate (operands.map fun e => orNull e.code) ++ [')']) := by
  have hcall : Js.call ≠ [] := List.cons_ne_nil _ _
  rw [code_merge h, orNull_of_ne_nil (List.append_ne_nil_of_left_ne_nil hcall _)]

theorem toList_filled {before after : String} {text : List Char}
    (h : after.toList = before.toList ++ text) :
    (filled before after).toList = before.toList ++ orNull text := by
  obtain rfl : after = before ++ String.ofList text := by
    rw [← String.toList_inj, h, String.toList_append, String.toList_ofList]
  have hsize : (before ++ String.ofList text).utf8ByteSize = before.utf8ByteSize ↔ text = [] := by
    rw [String.utf8ByteSize_append, Nat.add_eq_left, String.utf8ByteSize_eq_zero_iff,
      ← String.toList_inj, String.toList_ofList]
    rfl
  unfold filled orNull
  by_cases ht : text = []
  · rw [if_pos (hsize.mpr ht), if_pos ht, String.toList_append, h, ht, List.append_nil]
  · rw [if_neg (mt hsize.mp ht), if_neg ht, h]

theorem toList_writeOperands {e : Expr} {es : List Expr} (out separator : String)
    (h : ∀ e' ∈ e :: es, ∀ out, (e'.write out).toList = out.toList ++ e'.code) :
    (writeOperands out separator (e :: es)).toList =
      out.toList ++ separator.toList ++ [','].intercalate (codeAll (e :: es)) := by
  induction es generalizing e out separator with
  | nil =>
    rw [writeOperands, writeOperands, toList_filled (h e List.mem_cons_self _),
      String.toList_append, codeAll, codeAll, List.intercalate_singleton]
  | cons e' es ih =>
    rw [writeOperands, ih _ _ fun e' he => h e' (List.mem_cons_of_mem _ he),
      toList_filled (h e List.mem_cons_self _), String.toList_append]
    simp only [codeAll, List.intercalate_cons_cons, List.append_assoc]
    rfl

theorem toList_write (e : Expr) (out : String) : (e.write out).toList = out.toList ++ e.code := by
  have hopen : "[".toList = ['['] := rfl
  have hclose : "]".toList = [']'] := rfl
  have hend : ")".toList = [')'] := rfl
  have hempty : "".toList = [] := rfl
  induction e generalizing out with
  | string t s => rw [write, code, String.toList_append, String.toList_ofList]
  | number t x => rw [write, code, String.toList_append, String.toList_ofList]
  | boolean t b => cases b <;> rw [write, code, String.toList_append] <;> rfl
  | list t items ih =>
    rw [write, code_list, String.toList_append, hclose]
    cases items with
    | nil =>
      rw [writeOperands, String.toList_append, hopen, List.append_assoc]
      rfl
    | cons e es =>
      rw [toList_writeOperands _ _ ih, String.toList_append, hopen, hempty, codeAll_eq_map]
      simp only [List.append_assoc, List.append_nil, List.cons_append, List.nil_append]
  | merge t operands ih =>
    cases operands with
    | nil =>
      rw [write, code]
      exact (List.append_nil _).symm
    | cons e es =>
      have hcall : "[].concat(".toList = Js.call := rfl
      rw [write, List.isEmpty_cons, if_neg Bool.false_ne_true, code_merge (List.cons_ne_nil e es),
        String.toList_append, hend, toList_writeOperands _ _ ih, String.toList_append, hempty,
        hcall, codeAll_eq_map]
      simp only [List.append_assoc, List.append_nil]

theorem toList_script (e : Expr) : e.script.toList = e.code := by
  rw [script, toList_write]
  rfl

theorem map_orNull_code_forget {es : List Expr} (h : ∀ e ∈ es, e.forget.code = e.code) :
    (es.map forget).map (fun e => orNull e.code) = es.map fun e => orNull e.code := by
  rw [List.map_map]
  apply List.map_congr_left
  intro e he
  exact congrArg orNull (h e he)

theorem code_forget (e : Expr) : e.forget.code = e.code := by
  induction e with
  | string | number | boolean => rfl
  | list t items ih =>
    rw [forget, forgetAll_eq_map, code_list, code_list, map_orNull_code_forget ih]
  | merge t operands ih =>
    by_cases h : operands = []
    · rw [h]
      rfl
    · rw [forget, forgetAll_eq_map, code_merge (mt List.map_eq_nil_iff.mp h), code_merge h,
        map_orNull_code_forget ih]

theorem script_forget (e : Expr) : e.forget.script = e.script := by
  rw [← String.toList_inj, toList_script, toList_script, code_forget]

theorem numberLiteral_of_isFinite {x : Binary64} (h : x.isFinite = true) :
    numberLiteral x = x.text := by
  cases x with
  | finite => rfl
  | infinite => exact absurd h Bool.false_ne_true
  | nan => rfl

theorem numberLiteral_ne_nil (x : Binary64) : numberLiteral x ≠ [] := by
  cases x with
  | finite negative rank =>
    obtain ⟨c, cs, -, htext⟩ := @Binary64.exists_text_eq_cons (.finite negative rank) rfl
    rw [numberLiteral_of_isFinite rfl]
    rcases htext with htext | htext <;> rw [htext] <;> exact List.cons_ne_nil _ _
  | infinite negative => cases negative <;> decide
  | nan => decide

theorem code_eq_nil_iff (e : Expr) : e.code = [] ↔ e.isEmptyMerge = true := by
  cases e with
  | string t s => simp [code, Json.quote, isEmptyMerge]
  | number t x => simp [code, numberLiteral_ne_nil, isEmptyMerge]
  | boolean t b => cases b <;> simp [code, isEmptyMerge]
  | list t items => simp [code, isEmptyMerge]
  | merge t operands =>
    cases operands with
    | nil => simp [code, isEmptyMerge]
    | cons e es =>
      rw [code_merge (List.cons_ne_nil e es)]
      simp [isEmptyMerge]

/-! ## The expression that is read -/

mutual

/-- The JavaScript expression that an expression is written as. -/
def js : Expr → Js
  | string _ s => .string s
  | number _ x => .number x
  | boolean _ b => .boolean b
  | list _ items => .array (jsAll items)
  | merge _ operands => if operands.isEmpty then .null else .concat (jsAll operands)

def jsAll : List Expr → List Js
  | [] => []
  | e :: es => js e :: jsAll es

end

theorem jsAll_eq_map (es : List Expr) : jsAll es = es.map js := by
  induction es with
  | nil => rfl
  | cons e es ih => rw [jsAll, ih, List.map_cons]

theorem literal?_numberLiteral (x : Binary64) {rest : List Char} (h : Front.Stops rest) :
    Js.literal? (numberLiteral x ++ rest) = some (.number x, rest) := by
  cases x with
  | finite negative rank =>
    rw [numberLiteral_of_isFinite rfl]
    exact Js.literal?_number rfl h
  | infinite negative => exact Js.literal?_word (Js.infinite_mem_words negative) rest
  | nan => exact Js.literal?_word Js.nan_mem_words rest

theorem stops_separator {c close : Char} (hclose : close = ']' ∨ close = ')')
    (hc : c = ',' ∨ c = close) (rest : List Char) : Front.Stops (c :: rest) := by
  intro c' hc'
  obtain rfl : c = c' := Option.some.inj hc'
  rcases hclose with rfl | rfl <;> rcases hc with rfl | rfl <;> decide

/-- Operands read back between their brackets. -/
theorem enclosed?_code {n : Nat} {close : Char} (hclose : close = ']' ∨ close = ')')
    {es : List Expr} (rest : List Char)
    (h : ∀ e ∈ es, ∀ {rest}, Front.Stops rest →
      Js.expression? n (orNull e.code ++ rest) = some (e.js, rest)) :
    Front.enclosed? (Js.expression? n) close
      ([','].intercalate (es.map fun e => orNull e.code) ++ close :: rest) =
        some (es.map js, rest) := by
  refine Front.enclosed?_intercalate ?_ (Js.expression?_close hclose n) rest ?_
  · rcases hclose with rfl | rfl <;> decide
  · intro e he c rest hc
    exact h e he (stops_separator hclose hc rest)

/-- The text of an operand reads back where no numeral goes on. -/
theorem expression?_code (e : Expr) {n : Nat} (hn : e.depth < n) {rest : List Char}
    (hrest : Front.Stops rest) :
    Js.expression? n (orNull e.code ++ rest) = some (e.js, rest) := by
  induction e generalizing n rest with
  | string t s =>
    have hquote := Js.literal?_quote Front.isSound_standard s.toList rest
    rw [String.ofList_toList] at hquote
    exact Js.expression?_of_literal? (Nat.ne_of_gt hn) hquote
  | number t x =>
    rw [code, orNull_of_ne_nil (numberLiteral_ne_nil x)]
    exact Js.expression?_of_literal? (Nat.ne_of_gt hn) (literal?_numberLiteral x hrest)
  | boolean t b =>
    rw [code, orNull_of_ne_nil (by cases b <;> decide)]
    exact Js.expression?_of_literal? (Nat.ne_of_gt hn)
      (Js.literal?_word (Js.boolean_mem_words b) rest)
  | list t items ih =>
    obtain ⟨n, rfl⟩ := Nat.exists_eq_succ_of_ne_zero (Nat.ne_of_gt (Nat.zero_lt_of_lt hn))
    have hitems (e : Expr) (he : e ∈ items) {rest : List Char} (hrest : Front.Stops rest) :
        Js.expression? n (orNull e.code ++ rest) = some (e.js, rest) :=
      ih e he (Nat.lt_of_le_of_lt (depth_le_depthAll he) (Nat.lt_of_succ_lt_succ hn)) hrest
    -- only an empty array begins as a call does, and no point follows it
    have hcall : Js.call.isPrefixOf?
        ('[' :: ([','].intercalate (items.map fun e => orNull e.code) ++ ']' :: rest)) = none := by
      cases items with
      | nil => exact Js.isPrefixOf?_call_of_stops hrest
      | cons e es =>
        obtain ⟨c, rest', hc, -, heq⟩ :=
          Front.exists_intercalate_eq ']' (fun e => orNull e.code) e es rest
        rw [heq]
        exact Js.isPrefixOf?_call_of_item
          (hitems e List.mem_cons_self (stops_separator (.inl rfl) hc rest'))
    rw [orNull_code_list, List.cons_append, List.append_assoc, List.singleton_append,
      Js.expression?, Js.among?_array hcall, enclosed?_code (.inl rfl) rest hitems, js,
      jsAll_eq_map]
    rfl
  | merge t operands ih =>
    by_cases h : operands = []
    · rw [h]
      exact Js.expression?_of_literal? (Nat.ne_of_gt (Nat.zero_lt_of_lt hn))
        (Js.literal?_word Js.null_mem_words rest)
    obtain ⟨n, rfl⟩ := Nat.exists_eq_succ_of_ne_zero (Nat.ne_of_gt (Nat.zero_lt_of_lt hn))
    have hoperands (e : Expr) (he : e ∈ operands) {rest : List Char} (hrest : Front.Stops rest) :
        Js.expression? n (orNull e.code ++ rest) = some (e.js, rest) :=
      ih e he (Nat.lt_of_le_of_lt (depth_le_depthAll he) (Nat.lt_of_succ_lt_succ hn)) hrest
    rw [orNull_code_merge h, List.append_assoc, List.append_assoc, List.singleton_append,
      Js.expression?, Js.among?_concat, enclosed?_code (.inr rfl) rest hoperands, js, jsAll_eq_map,
      if_neg (mt List.isEmpty_iff.mp h)]
    rfl

theorem depthAll_le_length {es : List Expr}
    (h : ∀ e ∈ es, e.depth < (orNull e.code).length) :
    depthAll es ≤ ([','].intercalate (es.map fun e => orNull e.code)).length :=
  depthAll_le.mpr fun e he => Nat.le_of_lt (Nat.lt_of_lt_of_le (h e he)
    (length_le_intercalate _ (List.mem_map_of_mem he)))

theorem depth_lt_length (e : Expr) : e.depth < (orNull e.code).length := by
  have hpos (text : List Char) : 0 < (orNull text).length := by
    unfold orNull
    split
    case isTrue => decide
    case isFalse h => exact List.length_pos_of_ne_nil h
  induction e with
  | string | number | boolean => exact hpos _
  | list t items ih =>
    have := depthAll_le_length ih
    rw [orNull_code_list, depth]
    simp only [List.length_cons, List.length_append, List.length_nil]
    omega
  | merge t operands ih =>
    by_cases h : operands = []
    · rw [h]
      show 1 < "null".toList.length
      decide
    · have := depthAll_le_length ih
      have hcall : Js.call.length = 10 := rfl
      rw [orNull_code_merge h, depth]
      simp only [List.length_cons, List.length_append, List.length_nil, hcall]
      omega

/-- **Scripts are expressions.** The script of an expression reads as the JavaScript expression it
stands for, unless it is empty. -/
theorem read?_script (e : Expr) :
    Js.read? e.script.toList = if e.isEmptyMerge then none else some e.js := by
  rw [toList_script]
  by_cases h : e.isEmptyMerge = true
  · rw [if_pos h, (code_eq_nil_iff e).mpr h]
    rfl
  · have hcode : orNull e.code = e.code := orNull_of_ne_nil (mt (code_eq_nil_iff e).mp h)
    have hread := expression?_code e (depth_lt_length e) Front.stops_nil
    rw [hcode, List.append_nil] at hread
    rw [if_neg h, Js.read?, hread]

/-! ## The expression behind a script -/

mutual

/-- The expression that is written as a JavaScript expression, with one and the same token
everywhere. -/
def ofJs : Js → Expr
  | .null => merge (.atEnd 0 0) []
  | .boolean b => boolean (.atEnd 0 0) b
  | .number x => number (.atEnd 0 0) x
  | .string s => string (.atEnd 0 0) s
  | .array items => list (.atEnd 0 0) (ofJsAll items)
  | .concat arguments => merge (.atEnd 0 0) (ofJsAll arguments)

def ofJsAll : List Js → List Expr
  | [] => []
  | e :: es => ofJs e :: ofJsAll es

end

theorem ofJsAll_eq_map (es : List Js) : ofJsAll es = es.map ofJs := by
  induction es with
  | nil => rfl
  | cons e es ih => rw [ofJsAll, ih, List.map_cons]

theorem ofJs_js (e : Expr) : ofJs e.js = e.forget := by
  have hall {es : List Expr} (h : ∀ e ∈ es, ofJs e.js = e.forget) :
      ofJsAll (jsAll es) = forgetAll es := by
    rw [ofJsAll_eq_map, jsAll_eq_map, forgetAll_eq_map, List.map_map]
    exact List.map_congr_left h
  induction e with
  | string | number | boolean => rfl
  | list t items ih => rw [js, ofJs, forget, hall ih]
  | merge t operands ih =>
    cases operands with
    | nil => rfl
    | cons e es => rw [js, List.isEmpty_cons, if_neg Bool.false_ne_true, ofJs, forget, hall ih]

/-- The expression of a script; an empty script is one of a merge without operands. -/
def ofScript? (text : List Char) : Option Expr :=
  if text = [] then some (merge (.atEnd 0 0) []) else (Js.read? text).map ofJs

/-- A script loses nothing but the tokens. -/
theorem ofScript?_code (e : Expr) : ofScript? e.code = some e.forget := by
  unfold ofScript?
  split
  case isTrue h =>
    have hempty : e.isEmptyMerge = true := (code_eq_nil_iff e).mp h
    cases e with
    | merge t operands =>
      cases operands with
      | nil => rfl
      | cons => exact absurd hempty Bool.false_ne_true
    | _ => exact absurd hempty Bool.false_ne_true
  case isFalse h =>
    rw [← toList_script, read?_script, if_neg (mt (code_eq_nil_iff e).mpr h), Option.map_some,
      ofJs_js]

/-- **Scripts are unambiguous.** Two expressions add one and the same text to what stands before
them if and only if they differ in no more than their tokens. -/
theorem write_eq_append_iff (a b : Expr) (before before' : String) :
    (∃ text, a.write before = before ++ text ∧ b.write before' = before' ++ text) ↔
      a.forget = b.forget := by
  have hwrite (e : Expr) (before text : String) :
      e.write before = before ++ text ↔ e.code = text.toList := by
    rw [← String.toList_inj, toList_write, String.toList_append, List.append_cancel_left_eq]
  simp only [hwrite]
  constructor
  · rintro ⟨text, ha, hb⟩
    have hscript : ofScript? a.code = ofScript? b.code := by rw [ha, hb]
    rw [ofScript?_code, ofScript?_code] at hscript
    exact Option.some.inj hscript
  · intro h
    refine ⟨String.ofList a.code, (String.toList_ofList).symm, ?_⟩
    rw [String.toList_ofList, ← code_forget a, h, code_forget]

end Splice.Expr
