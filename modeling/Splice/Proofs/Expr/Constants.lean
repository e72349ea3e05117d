import Splice.Proofs.Expr.Script
import Splice.Proofs.Value

/-!
# Scripts and printed values

A constant has no merges but those without operands, and all its numbers are finite. Its script and
its printed value are written alike, but for some characters of strings: those that one escaping
writes by a letter or as themselves and the other by their code point. Each such character is
longer in the printed value, and nothing is shorter there, so both texts are equal only without
them (`script_eq_compact_iff`).
-/

namespace Splice

/-! ## Texts that fit -/

/-- A text is no longer than another, and as long only under a condition that makes both equal. -/
structure Fits (text text' : List Char) (p : Prop) : Prop where
  length_le : text.length ≤ text'.length
  of_length_eq : text.length = text'.length → p
  eq_of : p → text = text'

namespace Fits

variable {text text' other other' : List Char} {p q : Prop}

theorem refl (text : List Char) : Fits text text True :=
  ⟨Nat.le_refl _, fun _ => trivial, fun _ => rfl⟩

theorem of_lt (h : text.length < text'.length) : Fits text text' False :=
  ⟨Nat.le_of_lt h, fun heq => absurd heq (Nat.ne_of_lt h), False.elim⟩

theorem congr (h : Fits text text' p) (hpq : p ↔ q) : Fits text text' q := by
  rwa [propext hpq] at h

theorem eq_iff (h : Fits text text' p) : text = text' ↔ p :=
  ⟨fun heq => h.of_length_eq (congrArg List.length heq), h.eq_of⟩

theorem append (h : Fits text text' p) (h' : Fits other other' q) :
    Fits (text ++ other) (text' ++ other') (p ∧ q) where
  length_le := by
    rw [List.length_append, List.length_append]
    exact Nat.add_le_add h.length_le h'.length_le
  of_length_eq heq := by
    have hle := h.length_le
    have hle' := h'.length_le
    rw [List.length_append, List.length_append] at heq
    exact ⟨h.of_length_eq (by omega), h'.of_length_eq (by omega)⟩
  eq_of hpq := by rw [h.eq_of hpq.1, h'.eq_of hpq.2]

theorem append_left (before : List Char) (h : Fits text text' p) :
    Fits (before ++ text) (before ++ text') p :=
  ((refl before).append h).congr (iff_of_eq (true_and p))

theorem append_right (h : Fits text text' p) (after : List Char) :
    Fits (text ++ after) (text' ++ after) p :=
  (h.append (refl after)).congr (iff_of_eq (and_true p))

theorem flatMap {α : Type} {f g : α → List Char} {p : α → Prop} {xs : List α}
    (h : ∀ x ∈ xs, Fits (f x) (g x) (p x)) :
    Fits (xs.flatMap f) (xs.flatMap g) (∀ x ∈ xs, p x) := by
  induction xs with
  | nil => exact (refl []).congr (iff_of_true trivial (List.forall_mem_nil p))
  | cons x xs ih =>
    obtain ⟨hx, hxs⟩ := List.forall_mem_cons.mp h
    exact (hx.append (ih hxs)).congr List.forall_mem_cons.symm

theorem intercalate {α : Type} {f g : α → List Char} {p : α → Prop} {xs : List α} (c : Char)
    (h : ∀ x ∈ xs, Fits (f x) (g x) (p x)) :
    Fits ([c].intercalate (xs.map f)) ([c].intercalate (xs.map g)) (∀ x ∈ xs, p x) := by
  cases xs with
  | nil => exact (refl []).congr (iff_of_true trivial (List.forall_mem_nil p))
  | cons x xs =>
    obtain ⟨hx, hxs⟩ := List.forall_mem_cons.mp h
    have hothers := flatMap fun x hx => (hxs x hx).append_left [c]
    rw [List.map_cons, List.map_cons, intercalate_cons_eq_flatMap, intercalate_cons_eq_flatMap,
      List.flatMap_map, List.flatMap_map]
    exact (hx.append hothers).congr List.forall_mem_cons.symm

end Fits

/-! ## Escapings -/

namespace Json

/-- A character that both escapings write alike: neither backspace nor form feed nor one from delete
to the last control character. -/
def IsShared (c : Char) : Prop := c ≠ '\x08' ∧ c ≠ '\x0c' ∧ ¬(0x7F ≤ c.toNat ∧ c.toNat ≤ 0x9F)

instance (c : Char) : Decidable (IsShared c) := inferInstanceAs (Decidable (_ ∧ _ ∧ _))

theorem lookup_letters {c : Char} (hb : c ≠ '\x08') (hf : c ≠ '\x0c') :
    Escaping.standard.letters.lookup c = Escaping.printable.letters.lookup c := by
  have hb' : (c == '\x08') = false := beq_false_of_ne hb
  have hf' : (c == '\x0c') = false := beq_false_of_ne hf
  simp only [Escaping.standard, Escaping.printable, List.lookup_cons, hb', hf']

/-- Where one escaping has a letter or the character itself, the other has the longer code. -/
theorem fits_escape (c : Char) :
    Fits (Escaping.standard.escape c) (Escaping.printable.escape c) (IsShared c) := by
  by_cases hb : c = '\x08'
  · subst hb
    exact (Fits.of_lt (by decide)).congr (iff_of_false id fun h => h.1 rfl)
  by_cases hf : c = '\x0c'
  · subst hf
    exact (Fits.of_lt (by decide)).congr (iff_of_false id fun h => h.2.1 rfl)
  have hstandard : Escaping.standard.byCode c = decide (c.toNat < 0x20) := rfl
  have hprintable : Escaping.printable.byCode c =
      (decide (c.toNat < 0x20) || decide (0x7F ≤ c.toNat) && decide (c.toNat ≤ 0x9F)) := rfl
  unfold Escaping.escape
  rw [lookup_letters hb hf, hstandard, hprintable]
  cases hletter : Escaping.printable.letters.lookup c with
  | some letter =>
    have hall : ∀ p ∈ Escaping.printable.letters, p.1.toNat < 0x7F := by decide
    obtain ⟨before, after, heq, -⟩ := List.lookup_eq_some_iff.mp hletter
    have hlt : c.toNat < 0x7F :=
      hall (c, letter) (heq ▸ List.mem_append_right _ List.mem_cons_self)
    exact (Fits.refl _).congr (iff_of_true trivial ⟨hb, hf, by omega⟩)
  | none =>
    by_cases hlow : c.toNat < 0x20
    · simp only [hlow, decide_true, Bool.true_or, if_true]
      exact (Fits.refl _).congr (iff_of_true trivial ⟨hb, hf, by omega⟩)
    by_cases hhigh : 0x7F ≤ c.toNat ∧ c.toNat ≤ 0x9F
    · simp only [hlow, hhigh, decide_true, decide_false, Bool.false_or, Bool.and_self, if_true]
      refine (Fits.of_lt ?_).congr (iff_of_false id fun h => h.2.2 hhigh)
      show 1 < (hexDigits 4 c.toNat).length + 1 + 1
      omega
    · have hcode : (decide (0x7F ≤ c.toNat) && decide (c.toNat ≤ 0x9F)) = false := by
        simpa using hhigh
      simp only [hlow, hcode, decide_false, Bool.false_or]
      exact (Fits.refl _).congr (iff_of_true trivial ⟨hb, hf, hhigh⟩)

theorem fits_quote (s : List Char) :
    Fits (quote .standard s) (quote .printable s) (∀ c ∈ s, IsShared c) :=
  ((Fits.flatMap fun c _ => fits_escape c).append_left ['"']).append_right ['"']

end Json

/-! ## Constants -/

namespace Expr

/-- An expression of strings, finite numbers, booleans, lists, and merges without operands. -/
inductive IsConstant : Expr → Prop where
  | string {t s} : IsConstant (.string t s)
  | number {t x} : x.isFinite = true → IsConstant (.number t x)
  | boolean {t b} : IsConstant (.boolean t b)
  | list {t items} : (∀ e ∈ items, IsConstant e) → IsConstant (.list t items)
  | empty {t} : IsConstant (.merge t [])

def string? : Expr → Option String
  | string _ s => some s
  | _ => none

def strings (e : Expr) : List String := e.leaves.filterMap string?

theorem strings_list (t : Token) (items : List Expr) :
    (list t items).strings = items.flatMap strings := filterMap_leavesAll string? items

/-- An expression of which all characters of strings are shared by the escapings. -/
def IsShared (e : Expr) : Prop := ∀ s ∈ e.strings, ∀ c ∈ s.toList, Json.IsShared c

theorem isShared_string {t : Token} {s : String} :
    (string t s).IsShared ↔ ∀ c ∈ s.toList, Json.IsShared c := by
  have hstrings : (string t s).strings = [s] := rfl
  rw [IsShared, hstrings]
  exact List.forall_mem_singleton

theorem isShared_list {t : Token} {items : List Expr} :
    (list t items).IsShared ↔ ∀ e ∈ items, e.IsShared := by
  rw [IsShared, strings_list]
  simp only [List.mem_flatMap, IsShared]
  constructor
  · intro h e he s hs
    exact h s ⟨e, he, hs⟩
  · rintro h s ⟨e, he, hs⟩
    exact h e he s hs

/-- An expression without strings prints one text, so it fits. -/
theorem fits_of_eq {e : Expr} {text : List Char} (hcode : orNull e.code = text)
    (hstrings : e.strings = []) : Fits (orNull e.code) text e.IsShared := by
  rw [hcode, IsShared, hstrings]
  exact (Fits.refl text).congr (iff_of_true trivial (List.forall_mem_nil _))

/-- As an operand a constant fits its printed value. -/
theorem IsConstant.fits {e : Expr} (h : e.IsConstant) (depth : Nat) :
    Fits (orNull e.code) (e.eval.toJson.write .compact .printable depth) e.IsShared := by
  induction e generalizing depth with
  | string t s =>
    have hne : Json.quote .standard s.toList ≠ [] := List.cons_ne_nil _ _
    rw [code, orNull_of_ne_nil hne]
    exact (Json.fits_quote s.toList).congr isShared_string.symm
  | number t x =>
    cases h with
    | number hfinite =>
      refine fits_of_eq ?_ rfl
      rw [code, orNull_of_ne_nil (numberLiteral_ne_nil x), numberLiteral_of_isFinite hfinite, eval,
        Value.toJson, if_pos hfinite, Json.write]
  | boolean t b =>
    refine fits_of_eq ?_ rfl
    rw [code, orNull_of_ne_nil (by cases b <;> decide), eval, Value.toJson, Json.write]
  | list t items ih =>
    cases h with
    | list hitems =>
      have hfits := Fits.intercalate ',' fun e he => ih e he (hitems e he) (depth + 1)
      rw [orNull_code_list, eval, evalAll_eq_map, Value.toJson, Value.toJsonAll_eq_map, Json.write,
        Json.writeItems_eq_map, Json.bracketed_compact, List.map_map, List.map_map]
      exact ((hfits.append_right [']']).append_left ['[']).congr isShared_list.symm
  | merge t operands =>
    cases h with
    | empty => exact fits_of_eq rfl rfl

/-- **Constants.** The script of a constant that is no merge is its printed value if and only if no
string in it has a backspace, a form feed or a character from delete to the last control
character. -/
theorem script_eq_compact_iff {e : Expr} (hconstant : e.IsConstant)
    (hroot : e.isEmptyMerge = false) :
    e.script = e.eval.compact ↔ ∀ s ∈ e.strings, ∀ c ∈ s.toList,
      c ≠ '\x08' ∧ c ≠ '\x0c' ∧ ¬(0x7F ≤ c.toNat ∧ c.toNat ≤ 0x9F) := by
  have hcode : e.code ≠ [] := by
    intro hnil
    rw [(code_eq_nil_iff e).mp hnil] at hroot
    cases hroot
  have hfits := hconstant.fits 0
  rw [orNull_of_ne_nil hcode] at hfits
  rw [← String.toList_inj, toList_script, Value.compact, Json.render, String.toList_ofList]
  exact hfits.eq_iff

/-- A list of a string with an accent and an escaped quote, zero, and a merge without operands. -/
def sharedList : Expr :=
  .list (.atEnd 0 0) [.string (.atEnd 0 0) "é\"\n", .number (.atEnd 0 0) (.zero false),
    .merge (.atEnd 0 0) []]

/-- It is written alike as a script and as a value. -/
theorem script_eq_compact_list : sharedList.IsConstant ∧ sharedList.isEmptyMerge = false ∧
    sharedList.script = sharedList.eval.compact := by
  have hconstant : sharedList.IsConstant := by
    refine .list (List.forall_mem_cons.mpr ⟨.string, List.forall_mem_cons.mpr ⟨.number rfl, ?_⟩⟩)
    exact List.forall_mem_singleton.mpr .empty
  refine ⟨hconstant, rfl, (script_eq_compact_iff hconstant rfl).mpr ?_⟩
  refine List.forall_mem_singleton.mpr ?_
  have hquote : ∀ c ∈ ['"', '\n'], Json.IsShared c :=
    List.forall_mem_cons.mpr ⟨by decide, List.forall_mem_singleton.mpr (by decide)⟩
  exact List.forall_mem_cons.mpr ⟨by decide, hquote⟩

/-- A delete is one character in a script, and six in a value. -/
example : (string (.atEnd 0 0) "\x7f").script = "\"\x7f\"" ∧
    (string (.atEnd 0 0) "\x7f").eval.compact = "\"\\u007f\"" := ⟨rfl, rfl⟩

end Expr

end Splice
