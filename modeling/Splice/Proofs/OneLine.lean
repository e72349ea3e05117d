import Splice.Proofs.Expr.Script
import Splice.Proofs.Outcome
import Splice.Proofs.Printing

/-!
# Texts of one line

A JSON tree in the compact layout is one line, whatever strings are in it
(`Json.newline_not_mem_write`), and so is a script (`Expr.newline_not_mem_code`). So what is said
about a run is one line: a value, a script, a list of tokens, or why there is none
(`newline_not_mem_response`).
-/

namespace Splice

theorem newline_not_mem_intercalate {texts : List (List Char)} (h : ∀ text ∈ texts, '\n' ∉ text) :
    '\n' ∉ [','].intercalate texts := by
  cases texts with
  | nil => exact List.not_mem_nil
  | cons text texts =>
    obtain ⟨htext, htexts⟩ := List.forall_mem_cons.mp h
    rw [intercalate_cons_eq_flatMap, List.mem_append, List.mem_flatMap]
    rintro (hmem | ⟨other, hother, hmem⟩)
    · exact htext hmem
    · rcases List.mem_cons.mp hmem with hcomma | hmem
      · cases hcomma
      · exact htexts other hother hmem

/-! ## Trees -/

namespace Json

variable {e : Escaping}

/-- A line feed in a string is escaped, and so is no other character as one. -/
theorem newline_not_mem_escape (he : e.IsSound) (c : Char) : '\n' ∉ e.escape c := by
  unfold Escaping.escape
  split
  case h_1 letter hletter =>
    have hunescape := he.letters hletter
    simp only [List.mem_cons, List.not_mem_nil, or_false, not_or]
    refine ⟨by decide, ?_⟩
    rintro rfl
    cases hunescape
  case h_2 hnone =>
    split
    case isTrue =>
      intro hmem
      have hall : ∀ n < 16, Nat.digitChar n ≠ '\n' := by decide
      simp only [List.mem_cons] at hmem
      rcases hmem with hslash | hu | hmem
      · cases hslash
      · cases hu
      · obtain ⟨n, hn, hdigit⟩ := mem_hexDigits hmem
        exact hall n hn hdigit.symm
    case isFalse hcode =>
      obtain ⟨-, -, hspace⟩ := he.plain hnone (Bool.eq_false_iff.mpr hcode)
      rw [List.mem_singleton]
      rintro rfl
      exact absurd hspace (by decide)

theorem newline_not_mem_quote (he : e.IsSound) (s : List Char) : '\n' ∉ quote e s := by
  intro hmem
  rcases List.mem_cons.mp hmem with hquote | hmem
  · cases hquote
  rcases List.mem_append.mp hmem with hmem | hmem
  · obtain ⟨c, -, hc⟩ := List.mem_flatMap.mp hmem
    exact newline_not_mem_escape he c hc
  · cases List.mem_singleton.mp hmem

theorem newline_not_mem_bracketed {texts : List (List Char)} (h : ∀ text ∈ texts, '\n' ∉ text)
    (depth : Nat) {first last : Char} (hfirst : first ≠ '\n') (hlast : last ≠ '\n') :
    '\n' ∉ Layout.compact.bracketed depth first last texts := by
  unfold Layout.bracketed
  split
  case h_1 => simp [hfirst.symm, hlast.symm]
  case h_2 =>
    have htexts := newline_not_mem_intercalate h
    simpa [Layout.compact, hfirst.symm, hlast.symm] using htexts

theorem newline_not_mem_numeral {literal : List Char} (h : isNumeral literal = true) :
    '\n' ∉ literal := by
  intro hmem
  have hall := (Bool.and_eq_true_iff.mp h).1
  exact absurd (List.all_eq_true.mp hall _ hmem) (by decide)

theorem newline_not_mem_write (he : e.IsSound) {j : Json} (hj : j.IsStrict) (depth : Nat) :
    '\n' ∉ write .compact e depth j := by
  induction hj generalizing depth with
  | null =>
    show '\n' ∉ "null".toList
    decide
  | @boolean b =>
    show '\n' ∉ if b then "true".toList else "false".toList
    cases b <;> decide
  | number h => exact newline_not_mem_numeral h
  | string => exact newline_not_mem_quote he _
  | array _ ih =>
    rw [write, writeItems_eq_map]
    refine newline_not_mem_bracketed (List.forall_mem_map.mpr ?_) depth (by decide) (by decide)
    exact fun j hj => ih j hj (depth + 1)
  | object _ ih =>
    rw [write, writeMembers_eq_map]
    refine newline_not_mem_bracketed (List.forall_mem_map.mpr ?_) depth (by decide) (by decide)
    intro m hm
    have hname := newline_not_mem_quote he m.1.toList
    have hcolon : '\n' ∉ Layout.compact.colon := by decide
    simp only [writeMember, List.mem_append, not_or]
    exact ⟨⟨hname, hcolon⟩, ih m hm (depth + 1)⟩

theorem newline_not_mem_render (he : e.IsSound) {j : Json} (hj : j.IsStrict) :
    '\n' ∉ (render .compact e j).toList := by
  rw [render, String.toList_ofList]
  exact newline_not_mem_write he hj 0

theorem isNumeral_toDigits (n : Nat) : isNumeral (Nat.toDigits 10 n) = true := by
  have htext : (Decimal.ofNat n).text = Nat.toDigits 10 n := List.append_nil _
  rw [← htext, isNumeral, Front.unsigned_text, Front.isStrict_text, Bool.and_true,
    List.all_eq_true]
  exact fun c hc => Front.isNumeralChar_of_mem_text hc

end Json

theorem Token.isStrict_toJson (t : Token) : t.toJson.IsStrict := by
  refine .object ?_
  simp [Json.IsStrict.string, Json.IsStrict.number, Json.isNumeral_toDigits]

/-! ## Scripts -/

namespace Expr

theorem newline_not_mem_numberLiteral (x : Binary64) : '\n' ∉ numberLiteral x := by
  cases x with
  | finite negative rank =>
    rw [numberLiteral_of_isFinite rfl]
    exact Json.newline_not_mem_numeral (Value.isNumeral_text rfl)
  | infinite negative => cases negative <;> decide
  | nan => decide

theorem newline_not_mem_orNull {text : List Char} (h : '\n' ∉ text) : '\n' ∉ orNull text := by
  unfold orNull
  split
  case isTrue => decide
  case isFalse => exact h

theorem newline_not_mem_code (e : Expr) : '\n' ∉ e.code := by
  have hcodes {es : List Expr} (ih : ∀ e ∈ es, '\n' ∉ e.code) :
      '\n' ∉ [','].intercalate (es.map fun e => orNull e.code) :=
    newline_not_mem_intercalate
      (List.forall_mem_map.mpr fun e he => newline_not_mem_orNull (ih e he))
  induction e with
  | string t s => exact Json.newline_not_mem_quote Front.isSound_standard _
  | number t x => exact newline_not_mem_numberLiteral x
  | boolean t b =>
    show '\n' ∉ if b then "true".toList else "false".toList
    cases b <;> decide
  | list t items ih => simpa [code_list] using hcodes ih
  | merge t operands ih =>
    by_cases h : operands = []
    · rw [h]
      exact List.not_mem_nil
    · have hcall : '\n' ∉ Js.call := by decide
      simpa [code_merge h, hcall] using hcodes ih

end Expr

theorem Expr.newline_not_mem_scriptRoot (root : Option Expr) :
    '\n' ∉ (scriptRoot root).toList := by
  cases root with
  | none => decide
  | some e =>
    rw [scriptRoot, toList_script]
    exact newline_not_mem_code e

/-! ## Responses -/

/-- What a run gives is what it is for: a value, the script of a root, or tokens. -/
theorem product_cases {goal : Goal} {source : Source} {product : Product}
    (h : (runSource goal source).outcome = .ok product) :
    (goal = .value ∧ ∃ v, product = .value v) ∨
      (goal = .script ∧ ∃ root, product = .script (Expr.scriptRoot root)) ∨
      goal = .tokens ∧ ∃ ts, product = .tokens ts := by
  cases goal with
  | value =>
    rw [runSource_value] at h
    cases hroot : (rootRun source).outcome with
    | ok root =>
      rw [Run.outcome_andThen_ok hroot] at h
      exact .inl ⟨rfl, _, (Except.ok.inj h).symm⟩
    | error e =>
      rw [Run.outcome_andThen_error hroot] at h
      cases h
  | script =>
    rw [runSource_script] at h
    cases hroot : (rootRun source).outcome with
    | ok root =>
      rw [Run.outcome_andThen_ok hroot] at h
      exact .inr (.inl ⟨rfl, root, (Except.ok.inj h).symm⟩)
    | error e =>
      rw [Run.outcome_andThen_error hroot] at h
      cases h
  | tokens =>
    rw [runSource] at h
    cases hscan : (scanRun source).outcome with
    | ok tokens =>
      rw [Run.outcome_andThen_ok hscan] at h
      exact .inr (.inr ⟨rfl, tokens, (Except.ok.inj h).symm⟩)
    | error e =>
      rw [Run.outcome_andThen_error hscan] at h
      cases h

/-- What is said about a run: the text of what it gives, with values and tokens on one line, or why
it gives nothing. -/
def Run.response (r : Run Product) : String :=
  match r.outcome with
  | .ok product => product.text .compact
  | .error e => e.message

theorem newline_not_mem_response (goal : Goal) (octets : List UInt8) :
    '\n' ∉ (run goal octets).response.toList := by
  rw [Run.response, run]
  rcases runSource_cases goal (.ofOctets octets) with ⟨-, houtcome, -⟩ | ⟨-, -, houtcome, -⟩ |
    ⟨-, -, ⟨product, houtcome⟩, -⟩
  · rw [houtcome]
    decide
  · rw [houtcome]
    decide
  · rw [houtcome]
    rcases product_cases houtcome with ⟨-, v, rfl⟩ | ⟨-, root, rfl⟩ | ⟨-, ts, rfl⟩
    · exact Json.newline_not_mem_render Front.isSound_printable v.isStrict_toJson
    · exact Expr.newline_not_mem_scriptRoot root
    · have hstrict : (Json.array (ts.map Token.toJson)).IsStrict :=
        .array (List.forall_mem_map.mpr fun t _ => t.isStrict_toJson)
      exact Json.newline_not_mem_render Front.isSound_standard hstrict

end Splice
