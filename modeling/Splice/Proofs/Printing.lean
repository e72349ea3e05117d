import Splice.Proofs.Value

/-!
# Printing values

The texts of a value hold no control character but the line feeds of the breaks that a layout
writes: outside of strings, after an opening bracket or a comma, or before a closing bracket
(`Json.Layout.IsLaidOut`). They read back as the value (`print_reads_back`).
-/

namespace Splice

open Text

namespace Json

/-! ## Strings in a text -/

theorem mem_hexDigits {width n : Nat} {c : Char} (h : c ∈ hexDigits width n) :
    ∃ d < 16, c = Nat.digitChar d := by
  induction width generalizing n with
  | zero => exact absurd h List.not_mem_nil
  | succ width ih =>
    rcases List.mem_append.mp h with h | h
    · exact ih h
    · exact ⟨n % 16, Nat.mod_lt _ (by decide), List.mem_singleton.mp h⟩

/-- Where a text has come to: between the parts of a tree, in a string, or after a backslash in a
string. -/
inductive Zone where
  | outside
  | string
  | escape
deriving DecidableEq

namespace Zone

def step : Zone → Char → Zone
  | outside, c => if c = '"' then string else outside
  | string, c => if c = '"' then outside else if c = '\\' then escape else string
  | escape, _ => string

def read (z : Zone) (text : List Char) : Zone := text.foldl step z

theorem read_append (z : Zone) (text text' : List Char) :
    z.read (text ++ text') = (z.read text).read text' := List.foldl_append

/-- Only a quote begins a string. -/
theorem read_outside {text : List Char} (h : '"' ∉ text) : outside.read text = outside := by
  induction text with
  | nil => rfl
  | cons c cs ih =>
    have hc : c ≠ '"' := fun hc => h (hc ▸ List.mem_cons_self)
    have hcs : '"' ∉ cs := fun hcs => h (List.mem_cons_of_mem _ hcs)
    have hstep : outside.step c = outside := if_neg hc
    rw [read, List.foldl_cons, hstep]
    exact ih hcs

/-- Only a quote ends a string, unless a backslash is before it. -/
theorem read_string {text : List Char} (h : ∀ c ∈ text, c ≠ '"' ∧ c ≠ '\\') :
    string.read text = string := by
  induction text with
  | nil => rfl
  | cons c cs ih =>
    obtain ⟨⟨hquote, hslash⟩, hcs⟩ := List.forall_mem_cons.mp h
    have hstep : string.step c = string := by rw [step, if_neg hquote, if_neg hslash]
    rw [read, List.foldl_cons, hstep]
    exact ih hcs

variable {e : Escaping}

/-- A character as it is written does not end a string. -/
theorem read_escape (he : e.IsSound) (c : Char) : string.read (e.escape c) = string := by
  unfold Escaping.escape
  split
  case h_1 => rfl
  case h_2 hnone =>
    split
    case isTrue =>
      have hplain : ∀ d < 16, Nat.digitChar d ≠ '"' ∧ Nat.digitChar d ≠ '\\' := by decide
      show string.read (hexDigits 4 c.toNat) = string
      refine read_string fun c' hc' => ?_
      obtain ⟨d, hd, rfl⟩ := mem_hexDigits hc'
      exact hplain d hd
    case isFalse hcode =>
      obtain ⟨hquote, hslash, -⟩ := he.plain hnone (Bool.eq_false_iff.mpr hcode)
      exact read_string (List.forall_mem_singleton.mpr ⟨hquote, hslash⟩)

theorem read_flatMap_escape (he : e.IsSound) (s : List Char) :
    string.read (s.flatMap e.escape) = string := by
  induction s with
  | nil => rfl
  | cons c s ih => rw [List.flatMap_cons, read_append, read_escape he, ih]

theorem read_quote (he : e.IsSound) (s : List Char) : outside.read (quote e s) = outside := by
  show (string.read (s.flatMap e.escape ++ ['"'])) = outside
  rw [read_append, read_flatMap_escape he]
  rfl

end Zone

/-! ## Breaks -/

namespace Layout

/-- A character is in a break: outside of strings, after an opening bracket or a comma, or before a
closing bracket. -/
def InBreak (l : Layout) (before : List Char) (c : Char) (after : List Char) : Prop :=
  ∃ depth earlier start rest later, l.breakAt depth = start ++ c :: rest ∧
    before = earlier ++ start ∧ after = rest ++ later ∧ Zone.outside.read earlier = .outside ∧
    (['['] <:+ earlier ∨ [','] <:+ earlier ∨ [']'] <+: later)

/-- Every control character of a text is in a break, and no string is open after it. -/
structure IsLaidOut (l : Layout) (text : List Char) : Prop where
  closed : Zone.outside.read text = .outside
  inBreak : ∀ {before c after}, text = before ++ c :: after → isControl c = true →
    l.InBreak before c after

variable {l : Layout} {text text' : List Char} {depth : Nat}

theorem isLaidOut_of_printable (hclosed : Zone.outside.read text = .outside)
    (h : ∀ c ∈ text, isControl c = false) : l.IsLaidOut text where
  closed := hclosed
  inBreak {before c after} heq hc := by
    have hmem : c ∈ text := heq ▸ List.mem_append_right _ List.mem_cons_self
    exact absurd (hc.symm.trans (h c hmem)) Bool.noConfusion

theorem isLaidOut_of_all (hclosed : Zone.outside.read text = .outside)
    (h : text.all (fun c => !isControl c) = true) : l.IsLaidOut text := by
  refine isLaidOut_of_printable hclosed fun c hc => ?_
  exact Bool.not_eq_true' _ ▸ List.all_eq_true.mp h c hc

theorem IsLaidOut.append (h : l.IsLaidOut text) (h' : l.IsLaidOut text') :
    l.IsLaidOut (text ++ text') where
  closed := by rw [Zone.read_append, h.closed, h'.closed]
  inBreak {before c after} heq hc := by
    have hright {between : List Char} (heq : text' = between ++ c :: after) :
        l.InBreak (text ++ between) c after := by
      obtain ⟨depth, earlier, start, rest, later, hbreak, rfl, hafter, hclosed, hplace⟩ :=
        h'.inBreak heq hc
      refine ⟨depth, text ++ earlier, start, rest, later, hbreak, (List.append_assoc _ _ _).symm,
        hafter, ?_, ?_⟩
      · rw [Zone.read_append, h.closed, hclosed]
      · exact hplace.imp (·.trans (List.suffix_append _ _))
          (Or.imp_left (·.trans (List.suffix_append _ _)))
    rcases List.append_eq_append_iff.mp heq with ⟨between, rfl, hrest⟩ | ⟨between, htext, hrest⟩
    · exact hright hrest
    · cases between with
      | nil =>
        rw [List.append_nil] at htext
        rw [← htext, ← List.append_nil text]
        exact hright hrest.symm
      | cons d between =>
        obtain ⟨rfl, rfl⟩ := List.cons.inj hrest
        obtain ⟨depth, earlier, start, rest, later, hbreak, hbefore, rfl, hclosed, hplace⟩ :=
          h.inBreak htext hc
        refine ⟨depth, earlier, start, rest, later ++ text', hbreak, hbefore,
          List.append_assoc _ _ _, hclosed, ?_⟩
        exact hplace.imp_right (Or.imp_right (·.trans (List.prefix_append _ _)))

theorem isLaidOut_nil : l.IsLaidOut [] := isLaidOut_of_printable rfl (List.forall_mem_nil _)

theorem isLaidOut_flatMap {α : Type} {xs : List α} {code : α → List Char}
    (h : ∀ x ∈ xs, l.IsLaidOut (code x)) : l.IsLaidOut (xs.flatMap code) := by
  induction xs with
  | nil => exact isLaidOut_nil
  | cons x xs ih =>
    obtain ⟨hx, hxs⟩ := List.forall_mem_cons.mp h
    exact hx.append (ih hxs)

/-- No string begins in a break. -/
theorem IsSound.read_breakAt (hl : l.IsSound) (depth : Nat) :
    Zone.outside.read (l.breakAt depth) = .outside := by
  refine Zone.read_outside fun h => ?_
  exact absurd (hl.breaks depth '"' h) (by decide)

/-- A break after an opening bracket or a comma. -/
theorem IsSound.isLaidOut_after (hl : l.IsSound) (depth : Nat) {c : Char} (hc : c = '[' ∨ c = ',') :
    l.IsLaidOut (c :: l.breakAt depth) where
  closed := by
    have hstep : Zone.outside.step c = .outside := by rcases hc with rfl | rfl <;> rfl
    rw [Zone.read, List.foldl_cons, hstep]
    exact hl.read_breakAt depth
  inBreak {before d after} heq hd := by
    cases before with
    | nil =>
      obtain ⟨rfl, -⟩ := List.cons.inj heq
      rcases hc with rfl | rfl <;> exact absurd hd (by decide)
    | cons c' before =>
      obtain ⟨rfl, hbreak⟩ := List.cons.inj heq
      refine ⟨depth, [c], before, after, [], hbreak, rfl, (List.append_nil _).symm, ?_, ?_⟩
      · rcases hc with rfl | rfl <;> rfl
      · rcases hc with rfl | rfl
        · exact .inl List.suffix_rfl
        · exact .inr (.inl List.suffix_rfl)

/-- A break before a closing bracket. -/
theorem IsSound.isLaidOut_before (hl : l.IsSound) (depth : Nat) :
    l.IsLaidOut (l.breakAt depth ++ [']']) where
  closed := by
    rw [Zone.read_append, hl.read_breakAt]
    rfl
  inBreak {before d after} heq hd := by
    rcases List.append_eq_append_iff.mp heq with ⟨between, -, hrest⟩ | ⟨between, hbreak, hrest⟩
    · have hmem : d ∈ [']'] := hrest ▸ List.mem_append_right _ List.mem_cons_self
      rw [List.mem_singleton.mp hmem] at hd
      exact absurd hd (by decide)
    · cases between with
      | nil =>
        obtain ⟨rfl, -⟩ := List.cons.inj hrest
        exact absurd hd (by decide)
      | cons d' between =>
        obtain ⟨rfl, rfl⟩ := List.cons.inj hrest
        exact ⟨depth, [], before, between, [']'], hbreak, rfl, rfl, rfl,
          .inr (.inr List.prefix_rfl)⟩

theorem IsSound.isLaidOut_bracketed (hl : l.IsSound) (depth : Nat) {texts : List (List Char)}
    (h : ∀ text ∈ texts, l.IsLaidOut text) : l.IsLaidOut (l.bracketed depth '[' ']' texts) := by
  unfold bracketed
  split
  case h_1 => exact isLaidOut_of_all rfl rfl
  case h_2 hne =>
    cases texts with
    | nil => exact absurd rfl hne
    | cons text texts =>
      obtain ⟨htext, htexts⟩ := List.forall_mem_cons.mp h
      have hothers : l.IsLaidOut (texts.flatMap fun text => ',' :: l.breakAt (depth + 1) ++ text) :=
        isLaidOut_flatMap fun text ht => (hl.isLaidOut_after _ (.inr rfl)).append (htexts text ht)
      have hall := ((hl.isLaidOut_after (depth + 1) (.inl rfl)).append htext).append
        (hothers.append (hl.isLaidOut_before depth))
      rw [List.map_cons, intercalate_cons_eq_flatMap, List.flatMap_map]
      simpa only [List.cons_append, List.append_assoc] using hall

end Layout

end Json

namespace Value

variable {l : Json.Layout}

theorem isControl_of_mem_escape {c d : Char} (h : d ∈ Json.Escaping.printable.escape c) :
    isControl d = false := by
  unfold Json.Escaping.escape at h
  split at h
  case h_1 letter hletter =>
    have hall : ∀ p ∈ Json.Escaping.printable.letters, isControl p.2 = false := by decide
    obtain ⟨before, after, heq, -⟩ := List.lookup_eq_some_iff.mp hletter
    have hmem : (c, letter) ∈ Json.Escaping.printable.letters :=
      heq ▸ List.mem_append_right _ List.mem_cons_self
    rcases List.mem_cons.mp h with rfl | h
    · rfl
    · rw [List.mem_singleton.mp h]
      exact hall _ hmem
  case h_2 =>
    split at h
    case isTrue =>
      have hall : ∀ n < 16, isControl (Nat.digitChar n) = false := by decide
      rcases List.mem_cons.mp h with rfl | h
      · rfl
      rcases List.mem_cons.mp h with rfl | h
      · rfl
      · obtain ⟨n, hn, rfl⟩ := Json.mem_hexDigits h
        exact hall n hn
    case isFalse hcode =>
      rw [List.mem_singleton.mp h]
      exact Bool.eq_false_iff.mpr hcode

theorem isLaidOut_quote (s : List Char) : l.IsLaidOut (Json.quote .printable s) := by
  refine Json.Layout.isLaidOut_of_printable (Json.Zone.read_quote Front.isSound_printable s) ?_
  intro c hc
  rcases List.mem_cons.mp hc with rfl | hc
  · rfl
  rcases List.mem_append.mp hc with hc | hc
  · obtain ⟨d, -, hd⟩ := List.mem_flatMap.mp hc
    exact isControl_of_mem_escape hd
  · rw [List.mem_singleton.mp hc]
    rfl

theorem isLaidOut_text {x : Binary64} (h : x.isFinite = true) : l.IsLaidOut x.text := by
  obtain ⟨hall, -⟩ := Front.isStrict_unsigned_text h
  have hplain {c : Char} (hc : Front.isNumeralChar c = true) : c ≠ '"' ∧ isControl c = false := by
    refine ⟨?_, ?_⟩
    · rintro rfl
      exact absurd hc (by decide)
    · have hc : c.isDigit = true ∨ c = '-' ∨ c = '+' ∨ c = '.' ∨ c = 'e' ∨ c = 'E' := by
        simpa [Front.isNumeralChar] using hc
      rcases hc with hc | rfl | rfl | rfl | rfl | rfl
      · have hrange : 0x30 ≤ c.toNat ∧ c.toNat ≤ 0x39 := by
          simpa [Char.isDigit, UInt32.le_iff_toNat_le] using hc
        rw [isControl, Bool.or_eq_false_iff, Bool.and_eq_false_iff]
        simp only [decide_eq_false_iff_not]
        omega
      all_goals decide
  refine Json.Layout.isLaidOut_of_printable (Json.Zone.read_outside fun hquote => ?_) fun c hc => ?_
  · exact (hplain (hall _ hquote)).1 rfl
  · exact (hplain (hall c hc)).2

theorem isLaidOut_null : l.IsLaidOut "null".toList := Json.Layout.isLaidOut_of_all rfl rfl

theorem isLaidOut_boolean (b : Bool) :
    l.IsLaidOut (if b then "true".toList else "false".toList) := by
  cases b <;> exact Json.Layout.isLaidOut_of_all rfl rfl

theorem isLaidOut_write (hl : l.IsSound) (v : Value) (depth : Nat) :
    l.IsLaidOut (v.toJson.write l .printable depth) := by
  induction v generalizing depth with
  | null => exact isLaidOut_null
  | boolean b => exact isLaidOut_boolean b
  | string s => exact isLaidOut_quote s.toList
  | number x =>
    rw [toJson]
    split
    case isTrue h => exact isLaidOut_text h
    case isFalse => exact isLaidOut_null
  | array items ih =>
    rw [toJson, toJsonAll_eq_map, Json.write, Json.writeItems_eq_map]
    refine hl.isLaidOut_bracketed depth (List.forall_mem_map.mpr (List.forall_mem_map.mpr ?_))
    exact fun v hv => ih v hv (depth + 1)

theorem isControl_of_mem_compact {v : Value} {c : Char} (h : c ∈ v.compact.toList) :
    isControl c = false := by
  rw [compact, Json.render, String.toList_ofList] at h
  obtain ⟨before, after, heq⟩ := List.append_of_mem h
  by_contra hc
  obtain ⟨depth, -, start, rest, -, hbreak, -⟩ :=
    (isLaidOut_write Json.Layout.isSound_compact v 0).inBreak heq (Bool.not_eq_false _ ▸ hc)
  exact absurd hbreak.symm (by simp [Json.Layout.compact])

/-- A control character of the text with one element a line is the line feed of a break. -/
theorem newline_of_isControl_pretty {v : Value} {before after : List Char} {c : Char}
    (h : v.pretty.toList = before ++ c :: after) (hc : isControl c = true) :
    c = '\n' ∧ Json.Zone.outside.read before = .outside ∧
      (['['] <:+ before ∨ [','] <:+ before ∨ [']'] <+: after.dropWhile (· == ' ')) := by
  rw [pretty, Json.render, String.toList_ofList] at h
  obtain ⟨depth, earlier, start, rest, later, hbreak, rfl, rfl, hclosed, hplace⟩ :=
    (isLaidOut_write Json.Layout.isSound_indented v 0).inBreak h hc
  have hspaces (n : Nat) : ∀ d ∈ List.replicate n ' ', d = ' ' := fun d => List.eq_of_mem_replicate
  -- a break is one line feed and spaces, of which none is a control character
  change '\n' :: List.replicate (2 * depth) ' ' = start ++ c :: rest at hbreak
  cases start with
  | nil =>
    obtain ⟨rfl, rfl⟩ := List.cons.inj hbreak
    rw [List.append_nil]
    refine ⟨rfl, hclosed, hplace.imp_right (Or.imp_right ?_)⟩
    rintro ⟨post, rfl⟩
    have hdrop : ∀ d ∈ List.replicate (2 * depth) ' ', (d == ' ') = true :=
      fun d hd => beq_iff_eq.mpr (hspaces _ d hd)
    rw [List.dropWhile_append_of_pos hdrop]
    exact ⟨post, rfl⟩
  | cons d start =>
    obtain ⟨-, hbreak⟩ := List.cons.inj hbreak
    have hmem : c ∈ List.replicate (2 * depth) ' ' :=
      hbreak ▸ List.mem_append_right _ List.mem_cons_self
    rw [hspaces _ c hmem] at hc
    exact absurd hc (by decide)

/-- **Printing.** Both texts of a value read back as the value, with null for the numbers that are
not finite; so the text on one line tells apart values of finite numbers. It has no control
character, and the text with one element a line has none but line feeds, which are outside of
strings: after an opening bracket or a comma, or before the spaces before a closing bracket. -/
theorem print_reads_back (v : Value) :
    (Json.read? v.compact.toList).bind Json.value? = some v.finite ∧
      (Json.read? v.pretty.toList).bind Json.value? = some v.finite ∧
      (∀ w : Value, v.isFinite = true → w.isFinite = true → v.compact = w.compact → v = w) ∧
      (∀ c ∈ v.compact.toList, isControl c = false) ∧
      ∀ before c after, v.pretty.toList = before ++ c :: after → isControl c = true →
        c = '\n' ∧ Json.Zone.outside.read before = .outside ∧
          (['['] <:+ before ∨ [','] <:+ before ∨ [']'] <+: after.dropWhile (· == ' ')) := by
  have hcompact (v : Value) : (Json.read? v.compact.toList).bind Json.value? = some v.finite := by
    rw [read?_compact, Option.bind_some, value?_toJson]
  refine ⟨hcompact v, ?_, ?_, fun c hc => isControl_of_mem_compact hc,
    fun before c after h hc => newline_of_isControl_pretty h hc⟩
  · rw [read?_pretty, Option.bind_some, value?_toJson]
  · intro w hv hw htext
    have hread := hcompact v
    rw [htext, hcompact w, finite_of_isFinite hv, finite_of_isFinite hw] at hread
    exact (Option.some.inj hread).symm

/-- Every element is on a line of its own, and the line feed of a string is escaped. -/
example : (array [array [], array [string "a\n"]]).pretty =
    "[\n  [],\n  [\n    \"a\\n\"\n  ]\n]" := rfl

end Value

end Splice
