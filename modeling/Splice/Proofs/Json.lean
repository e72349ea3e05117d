import Mathlib.Data.List.DropRight
import Splice.Proofs.Reading

/-!
# Reading JSON

A strict reader of JSON texts (`Json.read?`): blanks may stand only around elements, names, colons
and the whole, no comma is left over, and numerals and strings are as the standard has them. What a
tree is written as reads back as the tree, whatever the layout (`read?_render`).
-/

namespace Splice.Json

/-! ## The reader -/

def isBlank (c : Char) : Bool := [' ', '\t', '\n', '\r'].contains c

/-- A text without the blanks in front. -/
def skip (text : List Char) : List Char := text.dropWhile isBlank

/-- A reader that also takes the blanks before and after. -/
def spaced? {α : Type} (item : Front α) : Front α := fun text =>
  (item (skip text)).map fun (x, rest) => (x, skip rest)

/-- The words, and what they denote. -/
def words : List (List Char × Json) :=
  [("null".toList, null), ("true".toList, boolean true), ("false".toList, boolean false)]

/-- A word at the front of a text. -/
def word? : Front Json := fun text =>
  words.findSome? fun (word, j) => (word.isPrefixOf? text).map (j, ·)

/-- Whether a text is a numeral, with a minus sign or none. -/
def isNumeral (text : List Char) : Bool :=
  text.all Front.isNumeralChar && Front.isStrict (Front.unsigned text)

/-- A numeral at the front of a text, which takes up all characters that can go on with it. -/
def numeral? : Front (List Char) := fun text =>
  if isNumeral (text.takeWhile Front.isNumeralChar) then
    some (text.takeWhile Front.isNumeralChar, text.dropWhile Front.isNumeralChar)
  else none

/-- A literal at the front of a text. -/
def literal? : Front Json
  | '"' :: rest => (Front.string? rest).map fun (s, rest) => (string (String.ofList s), rest)
  | text => (word? text).or ((numeral? text).map fun (literal, rest) => (number literal, rest))

/-- A member of an object at the front of a text, of which the value is read by `item`. -/
def member? (item : Front Json) : Front (String × Json)
  | '"' :: rest => (Front.string? rest).bind fun (name, rest) =>
    match skip rest with
    | ':' :: rest => (item (skip rest)).map fun (j, rest) => ((String.ofList name, j), rest)
    | _ => none
  | _ => none

/-- A tree at the front of a text, of which the elements are read by `item`. -/
def among? (item : Front Json) : Front Json
  | '[' :: rest =>
    (Front.enclosed? (spaced? item) ']' (skip rest)).map fun (items, rest) => (array items, rest)
  | '{' :: rest => (Front.enclosed? (spaced? (member? item)) '}' (skip rest)).map
      fun (members, rest) => (object members, rest)
  | text => literal? text

/-- A tree at the front of a text, in which fewer than `n` brackets are open at once. -/
def tree? : Nat → Front Json
  | 0 => fun _ => none
  | n + 1 => among? (tree? n)

/-- The tree that a whole text is, if it is one. -/
def read? (text : List Char) : Option Json :=
  match spaced? (tree? text.length) text with
  | some (j, []) => some j
  | _ => none

/-! ## Blanks -/

theorem skip_append {blanks : List Char} (h : ∀ c ∈ blanks, isBlank c = true) (text : List Char) :
    skip (blanks ++ text) = skip text := List.dropWhile_append_of_pos h

theorem skip_cons {c : Char} (h : isBlank c = false) (cs : List Char) : skip (c :: cs) = c :: cs :=
  List.dropWhile_cons_of_neg (Bool.eq_false_iff.mp h)

theorem skip_skip (text : List Char) : skip (skip text) = skip text :=
  List.dropWhile_idempotent _ _

/-- No numeral goes on with blanks before a character that none goes on with. -/
theorem stops_append {blanks : List Char} (h : ∀ c ∈ blanks, isBlank c = true) {c : Char}
    (hc : Front.isNumeralChar c = false) (rest : List Char) :
    Front.Stops (blanks ++ c :: rest) := by
  intro d hd
  cases blanks with
  | nil => exact Option.some.inj hd ▸ hc
  | cons b blanks =>
    obtain rfl : b = d := Option.some.inj hd
    have hb : b = ' ' ∨ b = '\t' ∨ b = '\n' ∨ b = '\r' := by
      simpa [isBlank] using h b List.mem_cons_self
    rcases hb with rfl | rfl | rfl | rfl <;> decide

/-- A text begins neither with a blank nor with a closing bracket. -/
def Opens (text : List Char) : Prop :=
  ∃ c cs, text = c :: cs ∧ isBlank c = false ∧ c ≠ ']' ∧ c ≠ '}'

theorem Opens.append {text : List Char} (h : Opens text) (rest : List Char) :
    Opens (text ++ rest) := by
  obtain ⟨c, cs, rfl, hc⟩ := h
  exact ⟨c, cs ++ rest, rfl, hc⟩

theorem Opens.skip {text : List Char} (h : Opens text) : Json.skip text = text := by
  obtain ⟨c, cs, rfl, hblank, -⟩ := h
  exact skip_cons hblank cs

/-! ## Elements -/

section

variable {α : Type} {item : Front α} {code : α → List Char} {before after rest text : List Char}
  {close : Char}

theorem spaced?_skip (item : Front α) (text : List Char) :
    spaced? item (skip text) = spaced? item text := by
  rw [spaced?, skip_skip]
  rfl

theorem items?_skip (item : Front α) (close : Char) (n : Nat) (text : List Char) :
    Front.items? (spaced? item) close n (skip text) =
      Front.items? (spaced? item) close n text := by
  cases n with
  | zero => rfl
  | succ n => simp only [Front.items?, spaced?_skip]

theorem spaced?_append {x : α} (hbefore : ∀ c ∈ before, isBlank c = true)
    (hafter : ∀ c ∈ after, isBlank c = true) (htext : Opens text) {c : Char}
    (hc : isBlank c = false)
    (h : item (text ++ (after ++ c :: rest)) = some (x, after ++ c :: rest)) :
    spaced? item (before ++ text ++ (after ++ c :: rest)) = some (x, c :: rest) := by
  rw [spaced?, List.append_assoc, skip_append hbefore, (htext.append _).skip, h, Option.map_some]
  dsimp only
  rw [skip_append hafter, skip_cons hc]

theorem of_isClosing (h : close = ']' ∨ close = '}') :
    isBlank close = false ∧ Front.isNumeralChar close = false ∧ close ≠ ',' := by
  rcases h with rfl | rfl <;> decide

/-- Elements that read back one by one read back one after another, whatever blanks stand before
them and before the closing bracket. -/
theorem items?_spaced {e : α} {es : List α} {n : Nat} (hclose : close = ']' ∨ close = '}')
    (hbefore : ∀ c ∈ before, isBlank c = true) (hafter : ∀ c ∈ after, isBlank c = true)
    (hcode : ∀ e' ∈ e :: es, Opens (code e'))
    (h : ∀ e' ∈ e :: es, ∀ rest, Front.Stops rest → item (code e' ++ rest) = some (e', rest))
    (hn : es.length < n) :
    Front.items? (spaced? item) close n ([','].intercalate ((e :: es).map fun e =>
      before ++ code e) ++ (after ++ close :: rest)) = some (e :: es, rest) := by
  obtain ⟨hblank, hnumeral, hcomma⟩ := of_isClosing hclose
  conv_rhs => rw [← List.map_id (e :: es)]
  refine Front.items?_intercalate hcomma hn (fun e' he rest => ?_) (fun e' he => ?_)
  · have hstops : Front.Stops ([] ++ ',' :: rest) := stops_append (List.forall_mem_nil _) rfl rest
    exact spaced?_append hbefore (List.forall_mem_nil _) (hcode e' he) rfl (h e' he _ hstops)
  · have hstops : Front.Stops (after ++ close :: rest) := stops_append hafter hnumeral rest
    exact spaced?_append hbefore hafter (hcode e' he) hblank (h e' he _ hstops)

theorem enclosed?_spaced {e : α} {es : List α} (hclose : close = ']' ∨ close = '}')
    (hbefore : ∀ c ∈ before, isBlank c = true) (hafter : ∀ c ∈ after, isBlank c = true)
    (hcode : ∀ e' ∈ e :: es, Opens (code e'))
    (h : ∀ e' ∈ e :: es, ∀ rest, Front.Stops rest → item (code e' ++ rest) = some (e', rest)) :
    Front.enclosed? (spaced? item) close
      (skip ([','].intercalate ((e :: es).map fun e => before ++ code e) ++
        (after ++ close :: rest))) = some (e :: es, rest) := by
  obtain ⟨d, others, hd⟩ : ∃ d others, after ++ close :: rest = d :: others := by
    cases after with
    | nil => exact ⟨close, rest, rfl⟩
    | cons d after => exact ⟨d, _, rfl⟩
  obtain ⟨c, rest', -, hlength, heq⟩ :=
    Front.exists_intercalate_eq d (fun e => before ++ code e) e es others
  -- the first element begins with a character of its own
  obtain ⟨first, cs, hfirst, hblank, hbracket, hbrace⟩ := hcode e List.mem_cons_self
  have hskip : skip ([','].intercalate ((e :: es).map fun e => before ++ code e) ++
      (after ++ close :: rest)) = first :: (cs ++ c :: rest') := by
    rw [hd, heq, hfirst, List.append_assoc, skip_append hbefore]
    exact skip_cons hblank _
  have hne : first ≠ close := by
    rcases hclose with rfl | rfl
    · exact hbracket
    · exact hbrace
  rw [hskip, Front.enclosed?, if_neg hne, ← hskip, items?_skip]
  refine items?_spaced hclose hbefore hafter hcode h ?_
  rw [List.length_append, List.length_cons]
  omega

end

/-! ## Literals -/

section

variable {e : Escaping} {rest : List Char}

theorem literal?_word {word : List Char} {j : Json} (h : (word, j) ∈ words) (rest : List Char) :
    literal? (word ++ rest) = some (j, rest) := by
  simp only [words, List.mem_cons, Prod.mk.injEq, List.not_mem_nil, or_false] at h
  rcases h with ⟨rfl, rfl⟩ | ⟨rfl, rfl⟩ | ⟨rfl, rfl⟩ <;> rfl

theorem null_mem_words : ("null".toList, null) ∈ words := by simp [words]

theorem boolean_mem_words (b : Bool) :
    (if b then "true".toList else "false".toList, boolean b) ∈ words := by
  cases b <;> simp [words]

theorem literal?_quote (he : e.IsSound) (s rest : List Char) :
    literal? (quote e s ++ rest) = some (string (String.ofList s), rest) := by
  rw [quote_append, literal?, Front.string?_flatMap he]
  rfl

theorem exists_cons_of_isNumeral {literal : List Char} (h : isNumeral literal = true) :
    ∃ c cs, c.isDigit = true ∧ (literal = c :: cs ∨ literal = '-' :: c :: cs) := by
  have hdigit {text : List Char} (h : Front.isStrict text = true) :
      ∃ c cs, c.isDigit = true ∧ text = c :: cs := by
    cases text with
    | nil => cases h
    | cons c cs =>
      refine ⟨c, cs, ?_, rfl⟩
      by_contra hc
      rw [Front.isStrict, List.takeWhile_cons_of_neg hc] at h
      cases h
  obtain ⟨c, cs, hc, heq⟩ := hdigit ((Bool.and_eq_true _ _).mp h).2
  refine ⟨c, cs, hc, ?_⟩
  unfold Front.unsigned at heq
  split at heq
  case h_1 => exact .inr (congrArg _ heq)
  case h_2 => exact .inl heq

theorem literal?_numeral {literal : List Char} (h : isNumeral literal = true)
    (hrest : Front.Stops rest) : literal? (literal ++ rest) = some (number literal, rest) := by
  have hall : ∀ c ∈ literal, Front.isNumeralChar c = true :=
    List.all_eq_true.mp ((Bool.and_eq_true _ _).mp h).1
  obtain ⟨htake, hdrop⟩ := Front.takeWhile_append_of_stops hall hrest
  have hnumeral : numeral? (literal ++ rest) = some (literal, rest) := by
    rw [numeral?, htake, hdrop, if_pos h]
  obtain ⟨c, cs, hc, heq⟩ := exists_cons_of_isNumeral h
  have hne {d : Char} (hd : d.isDigit = false) : (d == c) = false := by
    rw [beq_eq_false_iff_ne]
    rintro rfl
    exact Bool.noConfusion (hd.symm.trans hc)
  have hquote : c ≠ '"' := by
    rintro rfl
    exact absurd hc (by decide)
  -- no word begins as a numeral does
  rcases heq with rfl | rfl
  · have hword : word? (c :: (cs ++ rest)) = none := by
      simp [word?, words, List.isPrefixOf?, hne]
    rw [List.cons_append] at hnumeral ⊢
    rw [literal?, hword, hnumeral]
    · rfl
    · exact fun cs h => hquote (List.cons.inj h).1
  · rw [List.cons_append] at hnumeral ⊢
    rw [literal?, hnumeral]
    · rfl
    · exact fun cs h => absurd (List.cons.inj h).1 (by decide)

/-- No literal begins with a bracket. -/
theorem tree?_of_literal? {n : Nat} (hn : n ≠ 0) {text : List Char} {j : Json}
    (h : literal? text = some (j, rest)) : tree? n text = some (j, rest) := by
  obtain ⟨n, rfl⟩ := Nat.exists_eq_succ_of_ne_zero hn
  show among? (tree? n) text = _
  unfold among?
  split
  case h_1 => exact absurd (h.symm.trans rfl) (Option.some_ne_none _)
  case h_2 => exact absurd (h.symm.trans rfl) (Option.some_ne_none _)
  case h_3 => exact h

end

/-! ## Trees that are written -/

/-- A layout writes blanks only, and a colon among blanks between a name and its value. -/
structure Layout.IsSound (l : Layout) : Prop where
  breaks : ∀ depth, ∀ c ∈ l.breakAt depth, isBlank c = true
  colon : ∃ before after, l.colon = before ++ ':' :: after ∧
    (∀ c ∈ before, isBlank c = true) ∧ ∀ c ∈ after, isBlank c = true

theorem Layout.isSound_compact : Layout.compact.IsSound where
  breaks _ := List.forall_mem_nil _
  colon := ⟨[], [], rfl, List.forall_mem_nil _, List.forall_mem_nil _⟩

theorem Layout.isSound_indented : Layout.indented.IsSound where
  breaks depth := by
    refine List.forall_mem_cons.mpr ⟨rfl, fun c hc => ?_⟩
    rw [List.eq_of_mem_replicate hc]
    rfl
  colon := ⟨[], [' '], rfl, List.forall_mem_nil _, List.forall_mem_singleton.mpr rfl⟩

/-- A tree whose numbers are spelled as numerals. -/
inductive IsStrict : Json → Prop where
  | null : IsStrict null
  | boolean {b} : IsStrict (boolean b)
  | number {literal} : isNumeral literal = true → IsStrict (number literal)
  | string {s} : IsStrict (string s)
  | array {items} : (∀ j ∈ items, IsStrict j) → IsStrict (array items)
  | object {members} : (∀ m ∈ members, IsStrict m.2) → IsStrict (object members)

section

variable {l : Layout} {e : Escaping} {j : Json} {depth n : Nat} {rest : List Char}

theorem writeItems_eq_map (items : List Json) :
    writeItems l e depth items = items.map (write l e depth) := by
  induction items with
  | nil => rfl
  | cons j items ih => rw [writeItems, ih, List.map_cons]

theorem bracketed_of_ne_nil (depth : Nat) (first last : Char) {texts : List (List Char)}
    (h : texts ≠ []) : l.bracketed depth first last texts =
      first :: ([','].intercalate (texts.map (l.breakAt (depth + 1) ++ ·)) ++
        (l.breakAt depth ++ [last])) := by
  unfold Layout.bracketed
  split
  case h_1 => exact absurd rfl h
  case h_2 => rw [List.append_assoc, List.cons_append]

theorem bracketed_cons (depth : Nat) (first last : Char) (text : List Char)
    (texts : List (List Char)) : l.bracketed depth first last (text :: texts) =
      first :: (l.breakAt (depth + 1) ++ (text ++
        (texts.flatMap (fun text => ',' :: (l.breakAt (depth + 1) ++ text)) ++
          (l.breakAt depth ++ [last])))) := by
  rw [bracketed_of_ne_nil depth first last (List.cons_ne_nil text texts), List.map_cons,
    intercalate_cons_eq_flatMap, List.flatMap_map]
  simp only [List.append_assoc]

theorem bracketed_compact (depth : Nat) (first last : Char) (texts : List (List Char)) :
    Layout.compact.bracketed depth first last texts =
      first :: ([','].intercalate texts ++ [last]) := by
  by_cases h : texts = []
  · rw [h]
    rfl
  · have hmap : texts.map (Layout.compact.breakAt (depth + 1) ++ ·) = texts := List.map_id texts
    rw [bracketed_of_ne_nil depth first last h, hmap]
    rfl

def writeMember (l : Layout) (e : Escaping) (depth : Nat) (m : String × Json) : List Char :=
  quote e m.1.toList ++ l.colon ++ write l e depth m.2

theorem writeMembers_eq_map (members : List (String × Json)) :
    writeMembers l e depth members = members.map (writeMember l e depth) := by
  induction members with
  | nil => rfl
  | cons m members ih => rw [writeMembers, ih, List.map_cons, writeMember]

theorem length_lt_bracketed {α : Type} {x : α} {xs : List α} (h : x ∈ xs) (l : Layout)
    (depth : Nat) (first last : Char) (code : α → List Char) :
    (code x).length < (l.bracketed depth first last (xs.map code)).length := by
  have hmem : l.breakAt (depth + 1) ++ code x ∈ (xs.map code).map (l.breakAt (depth + 1) ++ ·) :=
    List.mem_map_of_mem (List.mem_map_of_mem h)
  have hle := length_le_intercalate [','] hmem
  unfold Layout.bracketed
  split
  case h_1 hnil =>
    rw [List.map_eq_nil_iff.mp hnil] at h
    exact absurd h List.not_mem_nil
  case h_2 =>
    simp only [List.length_append, List.length_cons] at hle ⊢
    omega

/-- What stands between brackets reads back if each element does. -/
theorem enclosed?_bracketed {α : Type} {item : Front α} {code : α → List Char} {es : List α}
    {close : Char} (hl : l.IsSound) (hclose : close = ']' ∨ close = '}')
    (hcode : ∀ e ∈ es, Opens (code e))
    (h : ∀ e ∈ es, ∀ rest, Front.Stops rest → item (code e ++ rest) = some (e, rest))
    (depth : Nat) (first : Char) (rest : List Char) :
    ∃ text, l.bracketed depth first close (es.map code) ++ rest = first :: text ∧
      Front.enclosed? (spaced? item) close (skip text) = some (es, rest) := by
  cases es with
  | nil =>
    refine ⟨close :: rest, rfl, ?_⟩
    rw [skip_cons (of_isClosing hclose).1]
    exact if_pos rfl
  | cons e es =>
    refine ⟨_, ?_, enclosed?_spaced hclose (hl.breaks (depth + 1)) (hl.breaks depth) hcode h⟩
    rw [List.map_cons, Layout.bracketed, ← List.map_cons, List.map_map]
    · simp only [List.cons_append, List.append_assoc, List.nil_append]
      rfl
    · simp

theorem opens_quote (s : List Char) : Opens (quote e s) :=
  ⟨'"', _, rfl, by decide, by decide, by decide⟩

theorem IsStrict.opens (h : j.IsStrict) : Opens (write l e depth j) := by
  have hbracketed (first last : Char) (texts : List (List Char)) :
      ∃ cs, l.bracketed depth first last texts = first :: cs := by
    unfold Layout.bracketed
    split <;> exact ⟨_, rfl⟩
  cases h with
  | null => exact ⟨_, _, rfl, by decide, by decide, by decide⟩
  | @boolean b => cases b <;> exact ⟨_, _, rfl, by decide, by decide, by decide⟩
  | number h =>
    obtain ⟨c, cs, hc, heq⟩ := exists_cons_of_isNumeral h
    have hne {d : Char} (hd : d.isDigit = false) : c ≠ d := by
      rintro rfl
      exact Bool.noConfusion (hd.symm.trans hc)
    rcases heq with rfl | rfl
    · have hblank : isBlank c = false := by simp [isBlank, hne]
      exact ⟨c, cs, rfl, hblank, hne rfl, hne rfl⟩
    · exact ⟨'-', c :: cs, rfl, by decide, by decide, by decide⟩
  | string => exact opens_quote _
  | array =>
    obtain ⟨cs, hcs⟩ := hbracketed '[' ']' _
    exact ⟨'[', cs, hcs, by decide, by decide, by decide⟩
  | object =>
    obtain ⟨cs, hcs⟩ := hbracketed '{' '}' _
    exact ⟨'{', cs, hcs, by decide, by decide, by decide⟩

theorem member?_write {item : Front Json} (hl : l.IsSound) (he : e.IsSound) {m : String × Json}
    (hm : Opens (write l e depth m.2))
    (h : item (write l e depth m.2 ++ rest) = some (m.2, rest)) :
    member? item (writeMember l e depth m ++ rest) = some (m, rest) := by
  obtain ⟨before, after, hcolon, hbefore, hafter⟩ := hl.colon
  rw [writeMember, List.append_assoc, List.append_assoc, quote_append, member?,
    Front.string?_flatMap he, Option.bind_some, hcolon]
  simp only [List.append_assoc, List.cons_append]
  rw [skip_append hbefore, skip_cons (by decide)]
  show (item (skip (after ++ (write l e depth m.2 ++ rest)))).map _ = _
  rw [skip_append hafter, (hm.append _).skip, h, Option.map_some, String.ofList_toList]

/-- A tree as it is written reads back where no numeral goes on, with as much fuel as its text is
long. -/
theorem tree?_write (hl : l.IsSound) (he : e.IsSound) (hj : j.IsStrict)
    (hn : (write l e depth j).length ≤ n) (hrest : Front.Stops rest) :
    tree? n (write l e depth j ++ rest) = some (j, rest) := by
  have hpos {j : Json} {depth n : Nat} (hj : j.IsStrict) (hn : (write l e depth j).length ≤ n) :
      n ≠ 0 := by
    obtain ⟨c, cs, hcons, -⟩ : Opens (write l e depth j) := hj.opens
    rintro rfl
    rw [hcons] at hn
    exact Nat.not_succ_le_zero _ hn
  induction hj generalizing depth n rest with
  | null => exact tree?_of_literal? (hpos .null hn) (literal?_word null_mem_words rest)
  | boolean => exact tree?_of_literal? (hpos .boolean hn) (literal?_word (boolean_mem_words _) rest)
  | number h => exact tree?_of_literal? (hpos (.number h) hn) (literal?_numeral h hrest)
  | @string s =>
    have hquote := literal?_quote he s.toList rest
    rw [String.ofList_toList] at hquote
    exact tree?_of_literal? (hpos .string hn) hquote
  | @array items hitems ih =>
    obtain ⟨n, rfl⟩ := Nat.exists_eq_succ_of_ne_zero (hpos (.array hitems) hn)
    rw [write, writeItems_eq_map] at hn ⊢
    have hitem (j : Json) (hj : j ∈ items) (rest : List Char) (hrest : Front.Stops rest) :
        tree? n (write l e (depth + 1) j ++ rest) = some (j, rest) := by
      have hlt := length_lt_bracketed hj l depth '[' ']' (write l e (depth + 1))
      exact ih j hj (Nat.le_of_lt_succ (Nat.lt_of_lt_of_le hlt hn)) hrest
    obtain ⟨text, htext, hread⟩ := enclosed?_bracketed hl (.inl rfl)
      (fun j hj => (hitems j hj).opens) hitem depth '[' rest
    rw [htext, tree?, among?, hread]
    rfl
  | @object members hmembers ih =>
    obtain ⟨n, rfl⟩ := Nat.exists_eq_succ_of_ne_zero (hpos (.object hmembers) hn)
    rw [write, writeMembers_eq_map] at hn ⊢
    have hmember (m : String × Json) (hm : m ∈ members) (rest : List Char)
        (hrest : Front.Stops rest) :
        member? (tree? n) (writeMember l e (depth + 1) m ++ rest) = some (m, rest) := by
      have hlt := length_lt_bracketed hm l depth '{' '}' (writeMember l e (depth + 1))
      refine member?_write hl he (hmembers m hm).opens (ih m hm ?_ hrest)
      have hle : (write l e (depth + 1) m.2).length ≤ (writeMember l e (depth + 1) m).length := by
        rw [writeMember, List.length_append]
        omega
      omega
    have hopens (m : String × Json) : Opens (writeMember l e (depth + 1) m) :=
      ((opens_quote _).append _).append _
    obtain ⟨text, htext, hread⟩ := enclosed?_bracketed hl (.inr rfl) (fun m _ => hopens m) hmember
      depth '{' rest
    rw [htext, tree?, among?, hread]
    rfl

/-- **Trees read back.** A tree reads back from its text in any layout of blanks. -/
theorem read?_render (hl : l.IsSound) (he : e.IsSound) (hj : j.IsStrict) :
    read? (render l e j).toList = some j := by
  have hread := tree?_write hl he hj (Nat.le_refl (write l e 0 j).length) Front.stops_nil
  rw [List.append_nil] at hread
  rw [render, String.toList_ofList, read?, spaced?, hj.opens.skip, hread]
  rfl

/-- A comma too many, a zero too many and a second text are no tree. -/
example : read? "[1, ]".toList = none ∧ read? "01".toList = none ∧
    read? "[1] 2".toList = none := ⟨rfl, rfl, rfl⟩

end

end Splice.Json
