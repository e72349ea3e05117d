import Mathlib.Data.List.Basic
import Splice.Proofs.Reading
import Splice.Value

/-!
# JavaScript

The part of JavaScript that scripts are written in: literals, array literals, and calls of `concat`
on an empty array. `Js.read?` reads an expression off a whole text, and `Js.value` is what it
evaluates to.
-/

namespace Splice

inductive Js where
  | null
  | boolean (b : Bool)
  | number (x : Binary64)
  | string (s : String)
  | array (items : List Js)
  /-- The call `[].concat(arguments)`. -/
  | concat (arguments : List Js)

namespace Js

/-! ## Evaluation -/

/-- What `concat` appends for an argument: the elements of an array, one level deep, and any other
value itself. -/
def spread : Value → List Value
  | .array items => items
  | v => [v]

mutual

def value : Js → Value
  | null => .null
  | boolean b => .boolean b
  | number x => .number x
  | string s => .string s
  | array items => .array (valueAll items)
  | concat arguments => .array ((valueAll arguments).flatMap spread)

def valueAll : List Js → List Value
  | [] => []
  | e :: es => value e :: valueAll es

end

@[simp] theorem valueAll_eq_map (es : List Js) : valueAll es = es.map value := by
  induction es with
  | nil => rfl
  | cons e es ih => rw [valueAll, ih, List.map_cons]

/-! ## Reading -/

/-- The words, and what they denote. -/
def words : List (List Char × Js) :=
  [("null".toList, null), ("true".toList, boolean true), ("false".toList, boolean false),
    ("NaN".toList, number .nan), ("Infinity".toList, number (.infinite false)),
    ("-Infinity".toList, number (.infinite true))]

/-- A word at the front of a text. -/
def word? : Front Js := fun text =>
  words.findSome? fun (word, e) => (word.isPrefixOf? text).map (e, ·)

/-- A literal at the front of a text. -/
def literal? : Front Js
  | '"' :: rest => (Front.string? rest).map fun (s, rest) => (string (String.ofList s), rest)
  | text => (word? text).or ((Front.number? text).map fun (x, rest) => (number x, rest))

/-- What a call of `concat` begins with. -/
def call : List Char := "[].concat(".toList

/-- An expression at the front of a text, of which the items are read by `item`. -/
def among? (item : Front Js) : Front Js := fun text =>
  match call.isPrefixOf? text with
  | some rest => (Front.enclosed? item ')' rest).map fun (es, rest) => (concat es, rest)
  | none =>
    match text with
    | '[' :: rest => (Front.enclosed? item ']' rest).map fun (es, rest) => (array es, rest)
    | text => literal? text

/-- An expression at the front of a text, in which fewer than `n` brackets are open at once. -/
def expression? : Nat → Front Js
  | 0 => fun _ => none
  | n + 1 => among? (expression? n)

/-- The expression that a whole text is, if it is one. -/
def read? (text : List Char) : Option Js :=
  match expression? text.length text with
  | some (e, []) => some e
  | _ => none

/-- What a whole text evaluates to, if it is an expression. -/
def value? (text : List Char) : Option Value := (read? text).map value

/-! ### Literals -/

theorem literal?_word {word : List Char} {e : Js} (h : (word, e) ∈ words) (rest : List Char) :
    literal? (word ++ rest) = some (e, rest) := by
  simp only [words, List.mem_cons, Prod.mk.injEq, List.not_mem_nil, or_false] at h
  rcases h with ⟨rfl, rfl⟩ | ⟨rfl, rfl⟩ | ⟨rfl, rfl⟩ | ⟨rfl, rfl⟩ | ⟨rfl, rfl⟩ | ⟨rfl, rfl⟩ <;> rfl

theorem null_mem_words : ("null".toList, null) ∈ words := by simp [words]

theorem boolean_mem_words (b : Bool) :
    (if b then "true".toList else "false".toList, boolean b) ∈ words := by
  cases b <;> simp [words]

theorem nan_mem_words : ("NaN".toList, number .nan) ∈ words := by simp [words]

theorem infinite_mem_words (negative : Bool) :
    (if negative then "-Infinity".toList else "Infinity".toList, number (.infinite negative)) ∈
      words := by
  cases negative <;> simp [words]

theorem literal?_quote {e : Json.Escaping} (he : e.IsSound) (s rest : List Char) :
    literal? (Json.quote e s ++ rest) = some (string (String.ofList s), rest) := by
  rw [Json.quote_append, literal?, Front.string?_flatMap he]
  rfl

theorem word?_eq_none {c : Char} (hc : c.isDigit = true) (cs : List Char) :
    word? (c :: cs) = none ∧ word? ('-' :: c :: cs) = none := by
  have hne {x : Char} (hx : x.isDigit = false) : (x == c) = false := by
    rw [beq_eq_false_iff_ne]
    rintro rfl
    exact Bool.noConfusion (hx.symm.trans hc)
  constructor
  · simp [word?, words, List.isPrefixOf?, hne]
  · simp [word?, words, List.isPrefixOf?, hne]

theorem literal?_number {x : Binary64} (h : x.isFinite = true) {rest : List Char}
    (hrest : Front.Stops rest) : literal? (x.text ++ rest) = some (number x, rest) := by
  have hnumber := Front.number?_text h hrest
  obtain ⟨c, cs, hc, htext⟩ := Binary64.exists_text_eq_cons h
  obtain ⟨hword, hneg⟩ := word?_eq_none hc (cs ++ rest)
  have hquote : c ≠ '"' := by
    rintro rfl
    exact absurd hc (by decide)
  rcases htext with htext | htext <;> rw [htext] at hnumber ⊢
  · rw [List.cons_append] at hnumber ⊢
    rw [literal?, hword, hnumber]
    · rfl
    · exact fun cs h => hquote (List.cons.inj h).1
  · rw [List.cons_append, List.cons_append] at hnumber ⊢
    rw [literal?, hneg, hnumber]
    · rfl
    · exact fun cs h => absurd (List.cons.inj h).1 (by decide)

/-! ### Brackets -/

theorem isPrefixOf?_call_of_ne {c : Char} (h : c ≠ '[') (cs : List Char) :
    call.isPrefixOf? (c :: cs) = none := by
  show (if ('[' == c) = true then _ else none) = none
  rw [if_neg (fun hc => h (beq_iff_eq.mp hc).symm)]

theorem isPrefixOf?_call_of_ne' {c : Char} (h : c ≠ ']') (cs : List Char) :
    call.isPrefixOf? ('[' :: c :: cs) = none := by
  show (if (']' == c) = true then _ else none) = none
  rw [if_neg (fun hc => h (beq_iff_eq.mp hc).symm)]

theorem isPrefixOf?_call_of_stops {rest : List Char} (h : Front.Stops rest) :
    call.isPrefixOf? ('[' :: ']' :: rest) = none := by
  cases rest with
  | nil => rfl
  | cons c cs =>
    show (if ('.' == c) = true then _ else none) = none
    rw [if_neg]
    intro hc
    rw [← beq_iff_eq.mp hc] at h
    exact absurd (h '.' rfl) (by decide)

variable {item : Front Js}

/-- No literal begins with a bracket. -/
theorem among?_of_literal? {text rest : List Char} {e : Js} (h : literal? text = some (e, rest)) :
    among? item text = some (e, rest) := by
  cases text with
  | nil => exact absurd (h.symm.trans rfl) (Option.some_ne_none _)
  | cons c cs =>
    have hc : c ≠ '[' := by
      rintro rfl
      exact Option.some_ne_none _ (h.symm.trans rfl)
    unfold among?
    rw [isPrefixOf?_call_of_ne hc]
    dsimp only
    split
    case h_1 heq => exact absurd (List.cons.inj heq).1 hc
    case h_2 => exact h

theorem expression?_of_literal? {n : Nat} (hn : n ≠ 0) {text rest : List Char} {e : Js}
    (h : literal? text = some (e, rest)) : expression? n text = some (e, rest) := by
  obtain ⟨n, rfl⟩ := Nat.exists_eq_succ_of_ne_zero hn
  exact among?_of_literal? h

theorem among?_concat (text : List Char) : among? item (call ++ text) =
    (Front.enclosed? item ')' text).map fun (es, rest) => (concat es, rest) := by
  have hcall : call.isPrefixOf? (call ++ text) = some text :=
    List.isPrefixOf?_eq_some_iff_append_eq.mpr rfl
  unfold among?
  rw [hcall]

theorem among?_array {text : List Char} (h : call.isPrefixOf? ('[' :: text) = none) :
    among? item ('[' :: text) =
      (Front.enclosed? item ']' text).map fun (es, rest) => (array es, rest) := by
  unfold among?
  rw [h]
  rfl

theorem expression?_close {c : Char} (h : c = ']' ∨ c = ')') (n : Nat) (rest : List Char) :
    expression? n (c :: rest) = none := by
  cases n with
  | zero => rfl
  | succ n => rcases h with rfl | rfl <;> rfl

/-- An array is no call if an item stands in it. -/
theorem isPrefixOf?_call_of_item {n : Nat} {text : List Char} {found : Js × List Char}
    (h : expression? n text = some found) : call.isPrefixOf? ('[' :: text) = none := by
  cases text with
  | nil => rfl
  | cons c cs =>
    refine isPrefixOf?_call_of_ne' ?_ cs
    rintro rfl
    rw [expression?_close (.inl rfl)] at h
    exact Option.some_ne_none _ h.symm

end Js

end Splice
