import Splice.Json
import Splice.Proofs.Binary64.Text

/-!
# Reading literals

Readers of string literals, numerals and comma-separated items, as JSON and JavaScript have them.
A string that was written with a sound escaping reads back (`string?_flatMap`), and so does the text
of a finite number where no numeral goes on (`number?_text`).
-/

namespace Splice

/-! ## Joined texts -/

theorem intercalate_cons {α : Type} (sep text : List α) (texts : List (List α)) :
    sep.intercalate (text :: texts) = text ++ texts.flatMap (sep ++ ·) := by
  induction texts generalizing text with
  | nil => simp
  | cons text' texts ih =>
    rw [List.intercalate_cons_cons, ih, List.flatMap_cons, List.append_assoc, List.append_assoc]

theorem intercalate_cons_eq_flatMap {α : Type} (x : α) (text : List α) (texts : List (List α)) :
    [x].intercalate (text :: texts) = text ++ texts.flatMap (x :: ·) :=
  intercalate_cons [x] text texts

theorem length_le_intercalate {α : Type} {texts : List (List α)} {text : List α} (sep : List α)
    (h : text ∈ texts) : text.length ≤ (sep.intercalate texts).length := by
  induction texts with
  | nil => exact absurd h List.not_mem_nil
  | cons first others ih =>
    cases others with
    | nil => rw [List.mem_singleton.mp h, List.intercalate_singleton]
    | cons second others =>
      rw [List.intercalate_cons_cons, List.length_append, List.length_append]
      rcases List.mem_cons.mp h with rfl | h
      · omega
      · have := ih h
        omega

/-! ## Readers -/

/-- A reader of the front of a text: what it reads, and what follows. -/
abbrev Front (α : Type) : Type := List Char → Option (α × List Char)

namespace Front

/-! ## Strings -/

def hexValue? (c : Char) : Option Nat :=
  if c.isDigit then some (c.toNat - 0x30)
  else if 'a' ≤ c ∧ c ≤ 'f' then some (c.toNat - 0x57)
  else if 'A' ≤ c ∧ c ≤ 'F' then some (c.toNat - 0x37)
  else none

def hex? (digits : List Char) : Option Nat :=
  digits.foldlM (fun n c => (hexValue? c).map (n * 16 + ·)) 0

/-- The character that a letter after a backslash stands for. -/
def unescape? (letter : Char) : Option Char :=
  [('"', '"'), ('\\', '\\'), ('/', '/'), ('b', '\x08'), ('f', '\x0c'), ('n', '\n'), ('r', '\r'),
    ('t', '\t')].lookup letter

/-- The code units of a string up to its closing quote, and what follows the quote. A character
that stands for itself is one unit. -/
def units? : Front (List Nat)
  | [] => none
  | '"' :: cs => some ([], cs)
  | '\\' :: 'u' :: a :: b :: c :: d :: cs =>
    (hex? [a, b, c, d]).bind fun n => (units? cs).map fun (ns, rest) => (n :: ns, rest)
  | '\\' :: letter :: cs =>
    (unescape? letter).bind fun c => (units? cs).map fun (ns, rest) => (c.toNat :: ns, rest)
  | c :: cs =>
    if c = '\\' ∨ c.toNat < 0x20 then none
    else (units? cs).map fun (ns, rest) => (c.toNat :: ns, rest)

/-- The characters that code units encode: a code point, or two halves of one. -/
def scalars? : List Nat → Option (List Char)
  | [] => some []
  | n :: ns =>
    if n.isValidChar then (scalars? ns).map (Char.ofNat n :: ·)
    else match ns with
      | [] => none
      | low :: ns =>
        if n / 0x400 = 0x36 ∧ low / 0x400 = 0x37 then
          (scalars? ns).map (Char.ofNat (0x10000 + n % 0x400 * 0x400 + low % 0x400) :: ·)
        else none

/-- The characters of a string after its opening quote. -/
def string? : Front (List Char) := fun text =>
  (units? text).bind fun (ns, rest) => (scalars? ns).map (·, rest)

theorem hexValue?_digitChar {d : Nat} (h : d < 16) : hexValue? (Nat.digitChar d) = some d := by
  revert d
  decide

theorem hex?_hexDigits (width n : Nat) : hex? (Json.hexDigits width n) = some (n % 16 ^ width) := by
  induction width generalizing n with
  | zero => rw [Nat.pow_zero, Nat.mod_one]; rfl
  | succ width ih =>
    have hdigit := hexValue?_digitChar (Nat.mod_lt n (by decide : 0 < 16))
    unfold hex? at ih ⊢
    rw [Json.hexDigits, List.foldlM_append, ih, Option.bind_eq_bind, Option.bind_some,
      List.foldlM_cons, hdigit, Nat.pow_succ', Nat.mod_mul]
    simp [Nat.mul_comm, Nat.add_comm]

theorem scalars?_map_toNat (s : List Char) : scalars? (s.map Char.toNat) = some s := by
  induction s with
  | nil => rfl
  | cons c s ih =>
    have hvalid : c.toNat.isValidChar := c.valid
    unfold scalars?
    simp only [List.map_cons, if_pos hvalid, ih, Option.map_some]
    exact congrArg (fun c => some (c :: s)) (Char.ofNat_toNat c)

end Front

theorem Json.quote_append (e : Json.Escaping) (s rest : List Char) :
    Json.quote e s ++ rest = '"' :: (s.flatMap e.escape ++ '"' :: rest) := by
  simp [Json.quote]

/-- An escaping is sound: its letters stand for what they replace, what is written by its code
point fits four digits, and only what may stand for itself does. -/
structure Json.Escaping.IsSound (e : Json.Escaping) : Prop where
  letters : ∀ {c letter}, e.letters.lookup c = some letter → Front.unescape? letter = some c
  byCode : ∀ {c}, e.byCode c = true → c.toNat < 0x10000
  plain : ∀ {c}, e.letters.lookup c = none → e.byCode c = false →
    c ≠ '"' ∧ c ≠ '\\' ∧ 0x20 ≤ c.toNat

namespace Front

variable {e : Json.Escaping}

theorem units?_letter {letter c : Char} (h : unescape? letter = some c) (cs : List Char) :
    units? ('\\' :: letter :: cs) =
      (units? cs).map fun (ns, rest) => (c.toNat :: ns, rest) := by
  have hu : letter ≠ 'u' := by
    rintro rfl
    exact Option.some_ne_none c (h.symm.trans rfl)
  rw [units?, h, Option.bind_some]
  rintro a b c d cs rfl
  exact absurd rfl hu

theorem units?_code {a b c d : Char} {n : Nat} (h : hex? [a, b, c, d] = some n) (cs : List Char) :
    units? ('\\' :: 'u' :: a :: b :: c :: d :: cs) =
      (units? cs).map fun (ns, rest) => (n :: ns, rest) := by
  rw [units?, h, Option.bind_some]

theorem units?_plain {c : Char} (hquote : c ≠ '"') (hslash : c ≠ '\\') (hspace : 0x20 ≤ c.toNat)
    (cs : List Char) :
    units? (c :: cs) = (units? cs).map fun (ns, rest) => (c.toNat :: ns, rest) := by
  rw [units?, if_neg (not_or.mpr ⟨hslash, Nat.not_lt.mpr hspace⟩)]
  · exact hquote
  · intro _ _ _ _ _ hc _
    exact hslash hc
  · intro _ _ hc _
    exact hslash hc

theorem units?_escape (he : e.IsSound) (c : Char) (cs : List Char) :
    units? (e.escape c ++ cs) = (units? cs).map fun (ns, rest) => (c.toNat :: ns, rest) := by
  unfold Json.Escaping.escape
  split
  case h_1 letter hletter => exact units?_letter (he.letters hletter) cs
  case h_2 hnone =>
    by_cases hcode : e.byCode c = true
    · have hlt : c.toNat < 16 ^ 4 := he.byCode hcode
      have hhex := hex?_hexDigits 4 c.toNat
      rw [Nat.mod_eq_of_lt hlt] at hhex
      rw [if_pos hcode]
      exact units?_code hhex cs
    · obtain ⟨hquote, hslash, hspace⟩ := he.plain hnone (Bool.not_eq_true _ ▸ hcode)
      rw [if_neg hcode]
      exact units?_plain hquote hslash hspace cs

theorem units?_flatMap (he : e.IsSound) (s rest : List Char) :
    units? (s.flatMap e.escape ++ '"' :: rest) = some (s.map Char.toNat, rest) := by
  induction s with
  | nil => rfl
  | cons c s ih => rw [List.flatMap_cons, List.append_assoc, units?_escape he, ih]; rfl

theorem string?_flatMap (he : e.IsSound) (s rest : List Char) :
    string? (s.flatMap e.escape ++ '"' :: rest) = some (s, rest) := by
  unfold string?
  simp only [units?_flatMap he, Option.bind_some, scalars?_map_toNat, Option.map_some]

/-- What makes an escaping sound, entry by entry. -/
theorem isSound_of_letters (hletters : ∀ p ∈ e.letters, unescape? p.2 = some p.1)
    (hquote : '"' ∈ e.letters.map Prod.fst) (hslash : '\\' ∈ e.letters.map Prod.fst)
    (hcode : ∀ c, e.byCode c = true → c.toNat < 0x10000)
    (hspace : ∀ c, e.byCode c = false → 0x20 ≤ c.toNat) : e.IsSound where
  letters {c letter} h := by
    obtain ⟨before, after, heq, -⟩ := List.lookup_eq_some_iff.mp h
    refine hletters (c, letter) ?_
    rw [heq]
    exact List.mem_append_right _ List.mem_cons_self
  byCode := hcode _
  plain {c} hnone h := by
    have hne {x : Char} (hx : x ∈ e.letters.map Prod.fst) : c ≠ x := by
      obtain ⟨p, hp, rfl⟩ := List.mem_map.mp hx
      exact bne_iff_ne.mp (List.lookup_eq_none_iff.mp hnone p hp)
    exact ⟨hne hquote, hne hslash, hspace c h⟩

theorem isSound_standard : Json.Escaping.standard.IsSound := by
  refine isSound_of_letters (by decide) (by decide) (by decide) (fun c h => ?_) fun c h => ?_
  · exact Nat.lt_trans (of_decide_eq_true h) (by decide)
  · exact Nat.le_of_not_lt (of_decide_eq_false h)

theorem isSound_printable : Json.Escaping.printable.IsSound := by
  refine isSound_of_letters (by decide) (by decide) (by decide) (fun c h => ?_) fun c h => ?_
  all_goals
    simp only [Json.Escaping.printable, Text.isControl, Bool.or_eq_true, Bool.or_eq_false_iff,
      Bool.and_eq_true, decide_eq_true_eq, decide_eq_false_iff_not] at h
    omega

/-! ## Numerals -/

/-- A character that goes on with a numeral. -/
def isNumeralChar (c : Char) : Bool := c.isDigit || ['-', '+', '.', 'e', 'E'].contains c

/-- Whether a text is a numeral without a sign: no superfluous zero in front, and digits on both
sides of a point. -/
def isStrict (cs : List Char) : Bool :=
  let whole := cs.takeWhile Char.isDigit
  (whole != [] && (whole.head? != some '0' || whole == ['0'])) &&
    match cs.dropWhile Char.isDigit with
    | '.' :: after =>
      after.takeWhile Char.isDigit != [] &&
        (Numeral.readExponent? (after.dropWhile Char.isDigit)).isSome
    | after => (Numeral.readExponent? after).isSome

def unsigned : List Char → List Char
  | '-' :: cs => cs
  | cs => cs

/-- The number of a numeral, which takes up all characters that can go on with it. -/
def number? : Front Binary64 := fun text =>
  if isStrict (unsigned (text.takeWhile isNumeralChar)) then
    (Binary64.read? (text.takeWhile isNumeralChar)).map (·, text.dropWhile isNumeralChar)
  else none

/-- No numeral goes on with a text. -/
def Stops (rest : List Char) : Prop := ∀ c ∈ rest.head?, isNumeralChar c = false

theorem stops_nil : Stops [] := by
  intro c h
  exact absurd h (Option.not_mem_none c)

theorem isStrict_text (d : Decimal) : isStrict d.text = true := by
  have hleading : (d.whole.head? != some '0' || d.whole == ['0']) = true := by
    by_cases h : d.whole.head? = some '0'
    · rw [d.leading h]
      rfl
    · rw [bne_iff_ne.mpr h, Bool.true_or]
  have hwhole : (d.whole != []) = true := bne_iff_ne.mpr d.whole_ne_nil
  unfold isStrict
  simp only [d.takeWhile_text, d.dropWhile_text, hleading, hwhole, Bool.true_and]
  unfold Decimal.tail
  by_cases h : d.fraction = []
  · rw [if_pos h]
    rfl
  · simp only [if_neg h, d.takeWhile_fraction, d.dropWhile_fraction, bne_iff_ne.mpr h,
      Bool.true_and]
    rfl

theorem takeWhile_append_of_stops {own rest : List Char} (hown : ∀ c ∈ own, isNumeralChar c = true)
    (hrest : Stops rest) : (own ++ rest).takeWhile isNumeralChar = own ∧
      (own ++ rest).dropWhile isNumeralChar = rest := by
  rw [List.takeWhile_append_of_pos hown, List.dropWhile_append_of_pos hown]
  cases rest with
  | nil => exact ⟨List.append_nil own, rfl⟩
  | cons c rest =>
    have hc : ¬isNumeralChar c = true := Bool.not_eq_true _ ▸ hrest c rfl
    rw [List.takeWhile_cons_of_neg hc, List.dropWhile_cons_of_neg hc, List.append_nil]
    exact ⟨rfl, rfl⟩

theorem isNumeralChar_of_mem_text {d : Decimal} {c : Char} (h : c ∈ d.text) :
    isNumeralChar c = true := by
  rcases d.isDigit_or_eq_of_mem h with hc | rfl
  · rw [isNumeralChar, hc, Bool.true_or]
  · rfl

theorem unsigned_text (d : Decimal) : unsigned d.text = d.text := by
  obtain ⟨c, cs, htext, hc⟩ := d.exists_cons
  rw [htext, unsigned]
  intro cs' h
  rw [(List.cons.inj h).1] at hc
  exact absurd hc (by decide)

theorem isStrict_unsigned_text {x : Binary64} (h : x.isFinite = true) :
    (∀ c ∈ x.text, isNumeralChar c = true) ∧ isStrict (unsigned x.text) = true := by
  cases x with
  | finite negative rank =>
    obtain ⟨d, htext, -⟩ := Binary64.exists_decimal rank
    cases negative with
    | false =>
      show (∀ c ∈ Binary64.magnitudeText rank, _) ∧
        isStrict (unsigned (Binary64.magnitudeText rank)) = true
      rw [htext, unsigned_text]
      exact ⟨fun c hc => isNumeralChar_of_mem_text hc, isStrict_text d⟩
    | true =>
      show (∀ c ∈ '-' :: Binary64.magnitudeText rank, _) ∧
        isStrict (Binary64.magnitudeText rank) = true
      rw [htext, List.forall_mem_cons]
      exact ⟨⟨rfl, fun c hc => isNumeralChar_of_mem_text hc⟩, isStrict_text d⟩
  | infinite => exact absurd h Bool.false_ne_true
  | nan => exact absurd h Bool.false_ne_true

theorem number?_text {x : Binary64} (h : x.isFinite = true) {rest : List Char}
    (hrest : Stops rest) : number? (x.text ++ rest) = some (x, rest) := by
  obtain ⟨hall, hstrict⟩ := isStrict_unsigned_text h
  obtain ⟨htake, hdrop⟩ := takeWhile_append_of_stops hall hrest
  rw [number?, htake, hdrop, if_pos hstrict, Binary64.read?_text x, Option.map_some]

/-! ## Items -/

variable {α β : Type} {item : Front α} {close : Char}

/-- At most `n` items with commas between them, at least one, and a closing character. -/
def items? (item : Front α) (close : Char) : Nat → Front (List α)
  | 0, _ => none
  | n + 1, text =>
    match item text with
    | some (x, c :: rest) =>
      if c = close then some ([x], rest)
      else if c = ',' then (items? item close n rest).map fun (xs, rest) => (x :: xs, rest)
      else none
    | _ => none

/-- Items with commas between them up to a closing character. -/
def enclosed? (item : Front α) (close : Char) : Front (List α)
  | [] => none
  | c :: rest =>
    if c = close then some ([], rest) else items? item close (rest.length + 1) (c :: rest)

/-- The first of some items stands before a comma or the closing character. -/
theorem exists_intercalate_eq (close : Char) (code : β → List Char) (e : β) (es : List β)
    (rest : List Char) : ∃ c rest', (c = ',' ∨ c = close) ∧ es.length ≤ rest'.length ∧
      [','].intercalate ((e :: es).map code) ++ close :: rest = code e ++ c :: rest' := by
  induction es generalizing e with
  | nil =>
    refine ⟨close, rest, .inr rfl, Nat.zero_le _, ?_⟩
    rw [List.map_singleton, List.intercalate_singleton]
  | cons e' es ih =>
    obtain ⟨c, rest', -, hlength, heq⟩ := ih e'
    refine ⟨',', code e' ++ c :: rest', .inl rfl, ?_, ?_⟩
    · rw [List.length_cons, List.length_append, List.length_cons]
      omega
    · rw [← heq, List.map_cons, List.map_cons, List.intercalate_cons_cons]
      simp

/-- Items read back if each reads back before a comma, and the last before what ends the items. -/
theorem items?_intercalate {code : β → List Char} {value : β → α} {e : β} {es : List β} {n : Nat}
    {ending rest : List Char} (hclose : close ≠ ',') (hn : es.length < n)
    (hcomma : ∀ e' ∈ e :: es, ∀ rest,
      item (code e' ++ ',' :: rest) = some (value e', ',' :: rest))
    (hend : ∀ e' ∈ e :: es, item (code e' ++ ending) = some (value e', close :: rest)) :
    items? item close n ([','].intercalate ((e :: es).map code) ++ ending) =
      some ((e :: es).map value, rest) := by
  induction es generalizing e n with
  | nil =>
    obtain ⟨n, rfl⟩ := Nat.exists_eq_succ_of_ne_zero (Nat.ne_of_gt (Nat.zero_lt_of_lt hn))
    rw [List.map_singleton, List.intercalate_singleton, items?, hend e List.mem_cons_self]
    exact if_pos rfl
  | cons e' es ih =>
    obtain ⟨n, rfl⟩ := Nat.exists_eq_succ_of_ne_zero (Nat.ne_of_gt (Nat.zero_lt_of_lt hn))
    have hitem := hcomma e List.mem_cons_self ([','].intercalate ((e' :: es).map code) ++ ending)
    have hrest := ih (Nat.lt_of_succ_lt_succ hn)
      (fun e'' he => hcomma e'' (List.mem_cons_of_mem _ he))
      (fun e'' he => hend e'' (List.mem_cons_of_mem _ he))
    rw [List.map_cons, List.map_cons, List.intercalate_cons_cons, List.append_assoc,
      List.append_assoc, List.singleton_append, ← List.map_cons, items?, hitem]
    show (if ',' = close then _ else _) = _
    rw [if_neg hclose.symm, if_pos rfl, hrest]
    rfl

/-- Items that read back one by one read back together. -/
theorem enclosed?_intercalate {code : β → List Char} {value : β → α} {es : List β}
    (hclose : close ≠ ',') (hnone : ∀ rest, item (close :: rest) = none) (rest : List Char)
    (h : ∀ e ∈ es, ∀ c rest, c = ',' ∨ c = close →
      item (code e ++ c :: rest) = some (value e, c :: rest)) :
    enclosed? item close ([','].intercalate (es.map code) ++ close :: rest) =
      some (es.map value, rest) := by
  cases es with
  | nil => exact if_pos rfl
  | cons e es =>
    obtain ⟨c, rest', hc, hlength, heq⟩ := exists_intercalate_eq close code e es rest
    have hitem := h e List.mem_cons_self c rest' hc
    cases htext : [','].intercalate ((e :: es).map code) ++ close :: rest with
    | nil => simp at htext
    | cons first others =>
      have hfirst : first ≠ close := by
        rintro rfl
        rw [← heq, htext, hnone] at hitem
        exact Option.some_ne_none _ hitem.symm
      -- every item stands before a character of its own
      have hfuel : es.length < others.length + 1 := by
        have := congrArg List.length (htext.symm.trans heq)
        simp only [List.length_cons, List.length_append] at this
        omega
      rw [enclosed?, if_neg hfirst, ← htext]
      exact items?_intercalate hclose hfuel (fun e' he rest => h e' he ',' rest (.inl rfl))
        (fun e' he => h e' he close rest (.inr rfl))

end Front

end Splice
