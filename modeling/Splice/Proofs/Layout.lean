import Splice.Proofs.OneLine

/-!
# Layout

The text of a value with one element a line is its text on one line with layout between the parts:
without the spaces and line feeds outside of strings it is that text (`strip_write`). Each line feed
is followed by two spaces for every array that is open there (`indents_write`), and the lines are
those of the elements, further in, between those of the brackets (`write_eq_intercalate`).
-/

namespace Splice

open Text

namespace Json

/-! ## Zones of characters -/

/-- The characters of a text, each with the zone it stands in. -/
def Zone.places (z : Zone) : List Char → List (Zone × Char)
  | [] => []
  | c :: cs => (z, c) :: places (z.step c) cs

/-- A space or a line feed outside of strings. -/
def isLayout (place : Zone × Char) : Bool :=
  place.1 == .outside && (place.2 == ' ' || place.2 == '\n')

/-- A text without the spaces and line feeds outside of strings. -/
def strip (text : List Char) : List Char :=
  ((Zone.outside.places text).filter (!isLayout ·)).map Prod.snd

/-- How many arrays are open after a text: the opening brackets outside of strings, less the closing
ones. -/
def openArrays (text : List Char) : Int :=
  (Zone.outside.places text).count (.outside, '[') -
    (Zone.outside.places text).count (.outside, ']')

namespace Zone

theorem places_append (z : Zone) (text text' : List Char) :
    z.places (text ++ text') = z.places text ++ (z.read text).places text' := by
  induction text generalizing z with
  | nil => rfl
  | cons c cs ih =>
    rw [List.cons_append, places, ih, places, List.cons_append]
    rfl

theorem map_snd_places (z : Zone) (text : List Char) : (z.places text).map Prod.snd = text := by
  induction text generalizing z with
  | nil => rfl
  | cons c cs ih => rw [places, List.map_cons, ih]

theorem mem_of_mem_places {z : Zone} {text : List Char} {place : Zone × Char}
    (h : place ∈ z.places text) : place.2 ∈ text :=
  map_snd_places z text ▸ List.mem_map_of_mem h

theorem places_string {text : List Char} (h : ∀ c ∈ text, c ≠ '"' ∧ c ≠ '\\') :
    ∀ place ∈ string.places text, place.1 ≠ .outside := by
  induction text with
  | nil => exact List.forall_mem_nil _
  | cons c cs ih =>
    obtain ⟨⟨hquote, hslash⟩, hcs⟩ := List.forall_mem_cons.mp h
    have hstep : string.step c = string := by rw [step, if_neg hquote, if_neg hslash]
    rw [places, hstep]
    exact List.forall_mem_cons.mpr ⟨Zone.noConfusion, ih hcs⟩

/-- No part of a character as it is written is outside. -/
theorem places_escape {e : Escaping} (he : e.IsSound) (c : Char) :
    ∀ place ∈ string.places (e.escape c), place.1 ≠ .outside := by
  unfold Escaping.escape
  split
  case h_1 letter _ =>
    show ∀ place ∈ [(string, '\\'), (escape, letter)], place.1 ≠ .outside
    simp
  case h_2 hnone =>
    split
    case isTrue =>
      have hplain : ∀ d < 16, Nat.digitChar d ≠ '"' ∧ Nat.digitChar d ≠ '\\' := by decide
      have hdigits : ∀ place ∈ string.places (hexDigits 4 c.toNat), place.1 ≠ .outside := by
        refine places_string fun c' hc' => ?_
        obtain ⟨d, hd, rfl⟩ := mem_hexDigits hc'
        exact hplain d hd
      show ∀ place ∈ (string, '\\') :: (escape, 'u') :: string.places (hexDigits 4 c.toNat),
        place.1 ≠ .outside
      simpa using hdigits
    case isFalse hcode =>
      obtain ⟨hquote, hslash, -⟩ := he.plain hnone (Bool.eq_false_iff.mpr hcode)
      exact places_string (List.forall_mem_singleton.mpr ⟨hquote, hslash⟩)

theorem places_flatMap_escape {e : Escaping} (he : e.IsSound) (s : List Char) :
    ∀ place ∈ string.places (s.flatMap e.escape), place.1 ≠ .outside := by
  induction s with
  | nil => exact List.forall_mem_nil _
  | cons c s ih =>
    rw [List.flatMap_cons, places_append, read_escape he]
    exact List.forall_mem_append.mpr ⟨places_escape he c, ih⟩

theorem places_quote {e : Escaping} (he : e.IsSound) (s : List Char) {c : Char}
    (h : (outside, c) ∈ outside.places (quote e s)) : c = '"' := by
  have hplaces : outside.places (quote e s) =
      (outside, '"') :: (string.places (s.flatMap e.escape) ++ [(string, '"')]) := by
    show (outside, '"') :: string.places (s.flatMap e.escape ++ ['"']) = _
    rw [places_append, read_flatMap_escape he]
    rfl
  rw [hplaces] at h
  rcases List.mem_cons.mp h with heq | h
  · exact congrArg Prod.snd heq
  rcases List.mem_append.mp h with h | h
  · exact absurd rfl (places_flatMap_escape he s _ h)
  · cases List.mem_singleton.mp h

end Zone

/-! ## Stripping -/

variable {text text' : List Char}

theorem strip_append (h : Zone.outside.read text = .outside) (text' : List Char) :
    strip (text ++ text') = strip text ++ strip text' := by
  rw [strip, Zone.places_append, h, List.filter_append, List.map_append]
  rfl

theorem openArrays_append (h : Zone.outside.read text = .outside) (text' : List Char) :
    openArrays (text ++ text') = openArrays text + openArrays text' := by
  unfold openArrays
  rw [Zone.places_append, h, List.count_append, List.count_append]
  omega

/-- A text of a part that is no array: it is closed, and outside of strings it has neither layout
nor brackets. -/
structure IsLeaf (text : List Char) : Prop where
  closed : Zone.outside.read text = .outside
  newline_not_mem : '\n' ∉ text
  plain : ∀ c, (Zone.outside, c) ∈ Zone.outside.places text → c ∉ [' ', '[', ']']

namespace IsLeaf

theorem strip_eq (h : IsLeaf text) : strip text = text := by
  have hkeep : ∀ place ∈ Zone.outside.places text, (!isLayout place) = true := by
    rintro ⟨zone, c⟩ hplace
    by_cases hzone : zone = .outside
    · subst hzone
      have hspace : c ≠ ' ' := by
        rintro rfl
        exact h.plain _ hplace (by decide)
      have hnewline : c ≠ '\n' := by
        rintro rfl
        exact h.newline_not_mem (Zone.mem_of_mem_places hplace)
      simp [isLayout, hspace, hnewline]
    · simp [isLayout, hzone]
  rw [strip, List.filter_eq_self.mpr hkeep, Zone.map_snd_places]

theorem openArrays_eq (h : IsLeaf text) : openArrays text = 0 := by
  have habsent {c : Char} (hc : c ∈ [' ', '[', ']']) :
      (Zone.outside.places text).count (.outside, c) = 0 :=
    List.count_eq_zero_of_not_mem fun hmem => h.plain c hmem hc
  unfold openArrays
  rw [habsent (by decide), habsent (by decide)]
  rfl

theorem quote {e : Escaping} (he : e.IsSound) (s : List Char) : IsLeaf (quote e s) where
  closed := Zone.read_quote he s
  newline_not_mem := newline_not_mem_quote he s
  plain c hc := by
    rw [Zone.places_quote he s hc]
    decide

theorem of_plain (h : ∀ c ∈ text, c ∉ ['"', '\n', ' ', '[', ']']) : IsLeaf text where
  closed := Zone.read_outside fun hquote => h _ hquote (by decide)
  newline_not_mem hnewline := h _ hnewline (by decide)
  plain c hc hmem := by
    refine h c (Zone.mem_of_mem_places hc) ?_
    exact List.mem_cons_of_mem _ (List.mem_cons_of_mem _ hmem)

theorem of_all (h : text.all (fun c => !(['"', '\n', ' ', '[', ']'].contains c)) = true) :
    IsLeaf text := by
  refine of_plain fun c hc hmem => ?_
  have hother := List.all_eq_true.mp h c hc
  rw [List.contains_iff_mem.mpr hmem] at hother
  exact Bool.noConfusion hother

end IsLeaf

/-! ## Brackets -/

section

variable {α : Type} {xs : List α} {code : α → List Char}

theorem read_flatMap (h : ∀ x ∈ xs, Zone.outside.read (code x) = .outside) :
    Zone.outside.read (xs.flatMap code) = .outside := by
  induction xs with
  | nil => rfl
  | cons x xs ih =>
    obtain ⟨hx, hxs⟩ := List.forall_mem_cons.mp h
    rw [List.flatMap_cons, Zone.read_append, hx, ih hxs]

theorem strip_flatMap (h : ∀ x ∈ xs, Zone.outside.read (code x) = .outside) :
    strip (xs.flatMap code) = xs.flatMap fun x => strip (code x) := by
  induction xs with
  | nil => rfl
  | cons x xs ih =>
    obtain ⟨hx, hxs⟩ := List.forall_mem_cons.mp h
    rw [List.flatMap_cons, strip_append hx, ih hxs, List.flatMap_cons]

end

theorem read_breakAt (depth : Nat) : Zone.outside.read (Layout.indented.breakAt depth) = .outside :=
  Layout.isSound_indented.read_breakAt depth

theorem strip_breakAt (depth : Nat) : strip (Layout.indented.breakAt depth) = [] := by
  have hspaces (n : Nat) : strip (List.replicate n ' ') = [] := by
    induction n with
    | zero => rfl
    | succ n ih => exact ih
  exact hspaces (2 * depth)

theorem openArrays_breakAt (depth : Nat) : openArrays (Layout.indented.breakAt depth) = 0 := by
  have habsent {c : Char} (hc : c ≠ '\n' ∧ c ≠ ' ') :
      (Zone.outside.places (Layout.indented.breakAt depth)).count (.outside, c) = 0 := by
    refine List.count_eq_zero_of_not_mem fun hmem => ?_
    rcases List.mem_cons.mp (Zone.mem_of_mem_places hmem) with heq | hspaces
    · exact hc.1 heq
    · exact hc.2 (List.eq_of_mem_replicate hspaces)
  unfold openArrays
  rw [habsent (by decide), habsent (by decide)]
  rfl

/-- A line feed of a break and a text after it is the first character, or it is in the text. -/
theorem breakAt_append_cases {depth : Nat} {text before after : List Char}
    (h : Layout.indented.breakAt depth ++ text = before ++ '\n' :: after) :
    before = [] ∧ after = List.replicate (2 * depth) ' ' ++ text ∨
      ∃ between, before = Layout.indented.breakAt depth ++ between ∧
        text = between ++ '\n' :: after := by
  cases before with
  | nil => exact .inl ⟨rfl, (List.cons.inj h).2.symm⟩
  | cons d before =>
    obtain ⟨rfl, hrest⟩ := List.cons.inj h
    rcases List.append_eq_append_iff.mp hrest with ⟨between, rfl, htext⟩ | ⟨between, hspaces, htext⟩
    · exact .inr ⟨between, rfl, htext⟩
    · cases between with
      | nil =>
        rw [List.append_nil] at hspaces
        refine .inr ⟨[], ?_, htext.symm⟩
        rw [← hspaces, List.append_nil]
        rfl
      | cons e between =>
        obtain ⟨rfl, -⟩ := List.cons.inj htext
        have hmem : '\n' ∈ List.replicate (2 * depth) ' ' :=
          hspaces ▸ List.mem_append_right _ List.mem_cons_self
        exact absurd (List.eq_of_mem_replicate hmem) (by decide)

/-- Without layout the parts between brackets are as on one line. -/
theorem strip_bracketed (depth : Nat) {texts : List (List Char)}
    (h : ∀ text ∈ texts, Zone.outside.read text = .outside) :
    strip (Layout.indented.bracketed depth '[' ']' texts) =
      '[' :: ([','].intercalate (texts.map strip) ++ [']']) := by
  cases texts with
  | nil => rfl
  | cons text texts =>
    obtain ⟨htext, htexts⟩ := List.forall_mem_cons.mp h
    have hitem (text : List Char) : strip (',' :: (Layout.indented.breakAt (depth + 1) ++ text)) =
        ',' :: strip text := by
      show ',' :: strip (Layout.indented.breakAt (depth + 1) ++ text) = _
      rw [strip_append (read_breakAt _), strip_breakAt, List.nil_append]
    have hothers : ∀ text ∈ texts, Zone.outside.read
        (',' :: (Layout.indented.breakAt (depth + 1) ++ text)) = .outside := by
      intro text ht
      show Zone.outside.read (Layout.indented.breakAt (depth + 1) ++ text) = .outside
      rw [Zone.read_append, read_breakAt, htexts text ht]
    rw [bracketed_cons]
    show '[' :: strip _ = _
    rw [strip_append (read_breakAt _), strip_breakAt, strip_append htext,
      strip_append (read_flatMap hothers), strip_flatMap hothers, strip_append (read_breakAt _),
      strip_breakAt, List.map_cons, intercalate_cons_eq_flatMap, List.flatMap_map]
    simp only [hitem, List.nil_append, List.append_assoc]
    rfl

/-! ## Indentation -/

/-- A text takes the number of open arrays from one to another, and every line feed in it is followed
by two spaces for each array that is open there, less one before a closing bracket, and then by what
is no space. -/
structure Indents (depth : Int) (text : List Char) (depth' : Int) : Prop where
  closed : Zone.outside.read text = .outside
  balance : depth + openArrays text = depth'
  follows : ∀ before after, text = before ++ '\n' :: after →
    Zone.outside.read before = .outside ∧ ∃ (count : Nat) (c : Char) (rest : List Char),
      after = List.replicate (2 * count) ' ' ++ c :: rest ∧ c ≠ ' ' ∧
        depth + openArrays before = count + if c = ']' then 1 else 0

namespace Indents

variable {depth depth' depth'' : Int} {text text' : List Char}

theorem append (h : Indents depth text depth') (h' : Indents depth' text' depth'') :
    Indents depth (text ++ text') depth'' where
  closed := by rw [Zone.read_append, h.closed, h'.closed]
  balance := by
    rw [openArrays_append h.closed, ← Int.add_assoc, h.balance, h'.balance]
  follows before after heq := by
    have hright {between : List Char} (heq : text' = between ++ '\n' :: after) :
        Zone.outside.read (text ++ between) = .outside ∧
          ∃ (count : Nat) (c : Char) (rest : List Char),
            after = List.replicate (2 * count) ' ' ++ c :: rest ∧ c ≠ ' ' ∧
              depth + openArrays (text ++ between) = count + if c = ']' then 1 else 0 := by
      obtain ⟨hclosed, count, c, rest, hafter, hc, hcount⟩ := h'.follows between after heq
      refine ⟨by rw [Zone.read_append, h.closed, hclosed], count, c, rest, hafter, hc, ?_⟩
      rw [openArrays_append h.closed, ← Int.add_assoc, h.balance, hcount]
    rcases List.append_eq_append_iff.mp heq with ⟨between, rfl, hrest⟩ | ⟨between, htext, hrest⟩
    · exact hright hrest
    · cases between with
      | nil =>
        rw [List.append_nil] at htext
        rw [← htext, ← List.append_nil text]
        exact hright hrest.symm
      | cons d between =>
        obtain ⟨rfl, rfl⟩ := List.cons.inj hrest
        obtain ⟨hclosed, count, c, rest, hafter, hc, hcount⟩ := h.follows before between htext
        refine ⟨hclosed, count, c, rest ++ text', ?_, hc, hcount⟩
        rw [hafter]
        exact List.append_assoc _ _ _

theorem of_newline_not_mem (hclosed : Zone.outside.read text = .outside)
    (hbalance : depth + openArrays text = depth') (h : '\n' ∉ text) :
    Indents depth text depth' where
  closed := hclosed
  balance := hbalance
  follows before after heq := by
    refine absurd ?_ h
    rw [heq]
    exact List.mem_append_right _ List.mem_cons_self

theorem of_isLeaf (h : IsLeaf text) (depth : Int) : Indents depth text depth :=
  of_newline_not_mem h.closed (by rw [h.openArrays_eq, Int.add_zero]) h.newline_not_mem

theorem opening (depth : Int) : Indents depth ['['] (depth + 1) :=
  of_newline_not_mem rfl rfl (by decide)

theorem comma (depth : Int) : Indents depth [','] depth :=
  of_newline_not_mem rfl (Int.add_zero depth) (by decide)

theorem closing (depth : Int) : Indents (depth + 1) [']'] depth :=
  of_newline_not_mem rfl (Int.add_neg_cancel_right depth 1) (by decide)

theorem flatMap {α : Type} {xs : List α} {code : α → List Char}
    (h : ∀ x ∈ xs, Indents depth (code x) depth) : Indents depth (xs.flatMap code) depth := by
  induction xs with
  | nil => exact of_newline_not_mem rfl (Int.add_zero depth) List.not_mem_nil
  | cons x xs ih =>
    obtain ⟨hx, hxs⟩ := List.forall_mem_cons.mp h
    exact hx.append (ih hxs)

/-- A break before a character that the spaces of the break are for. -/
theorem breakAt {count : Nat} {c : Char} {cs : List Char} (hc : c ≠ ' ')
    (hcount : depth = count + if c = ']' then 1 else 0) (h : Indents depth (c :: cs) depth') :
    Indents depth (Layout.indented.breakAt count ++ c :: cs) depth' where
  closed := by rw [Zone.read_append, read_breakAt, h.closed]
  balance := by
    rw [openArrays_append (read_breakAt count), openArrays_breakAt, Int.zero_add, h.balance]
  follows before after heq := by
    rcases breakAt_append_cases heq with ⟨rfl, rfl⟩ | ⟨between, rfl, htext⟩
    · exact ⟨rfl, count, c, cs, rfl, hc, (Int.add_zero depth).trans hcount⟩
    · obtain ⟨hclosed, hfollows⟩ := h.follows between after htext
      refine ⟨by rw [Zone.read_append, read_breakAt, hclosed], ?_⟩
      rwa [openArrays_append (read_breakAt count), openArrays_breakAt, Int.zero_add]

theorem bracketed {depth : Nat} {texts : List (List Char)}
    (h : ∀ text ∈ texts, Opens text ∧ Indents (depth + 1) text (depth + 1)) :
    Indents depth (Layout.indented.bracketed depth '[' ']' texts) depth := by
  have hitem {text : List Char} (hopens : Opens text)
      (htext : Indents (depth + 1) text (depth + 1)) :
      Indents (depth + 1) (Layout.indented.breakAt (depth + 1) ++ text) (depth + 1) := by
    obtain ⟨c, cs, rfl, hblank, hclose, -⟩ := hopens
    have hspace : c ≠ ' ' := by
      rintro rfl
      exact absurd hblank (by decide)
    refine htext.breakAt hspace ?_
    rw [if_neg hclose]
    rfl
  have hend : Indents (depth + 1) (Layout.indented.breakAt depth ++ [']']) depth :=
    (closing depth).breakAt (by decide) rfl
  cases texts with
  | nil => exact (opening depth).append (closing depth)
  | cons text texts =>
    obtain ⟨⟨hopens, htext⟩, htexts⟩ := List.forall_mem_cons.mp h
    have hothers : Indents (depth + 1)
        (texts.flatMap fun text => ',' :: (Layout.indented.breakAt (depth + 1) ++ text))
        (depth + 1) :=
      flatMap fun text ht => (comma _).append (hitem (htexts text ht).1 (htexts text ht).2)
    have hall := (opening depth).append ((hitem hopens htext).append (hothers.append hend))
    rw [bracketed_cons]
    rw [List.append_assoc] at hall
    exact hall

end Indents

end Json

namespace Value

open Json

/-- What a value that is no array is written as is a leaf, the same in every layout. -/
theorem isLeaf_write {v : Value} (h : ∀ items, v ≠ array items) (l : Layout) (depth : Nat) :
    IsLeaf (v.toJson.write l .printable depth) ∧
      v.toJson.write l .printable depth = v.compact.toList := by
  have hnull : IsLeaf "null".toList := .of_all (by decide)
  rw [compact, render, String.toList_ofList]
  cases v with
  | null => exact ⟨hnull, rfl⟩
  | boolean b =>
    have htrue : IsLeaf "true".toList := .of_all (by decide)
    have hfalse : IsLeaf "false".toList := .of_all (by decide)
    cases b with
    | true => exact ⟨htrue, rfl⟩
    | false => exact ⟨hfalse, rfl⟩
  | string s => exact ⟨.quote Front.isSound_printable s.toList, rfl⟩
  | number x =>
    rw [toJson]
    split
    case isTrue hfinite =>
      have hother : ['"', '\n', ' ', '[', ']'].all (!Front.isNumeralChar ·) = true := by decide
      refine ⟨.of_plain fun c hc hmem => ?_, rfl⟩
      have hnumeral := List.all_eq_true.mp hother c hmem
      rw [(Front.isStrict_unsigned_text hfinite).1 c hc] at hnumeral
      exact Bool.noConfusion hnumeral
    case isFalse => exact ⟨hnull, rfl⟩
  | array items => exact absurd rfl (h items)

theorem closed_write (v : Value) (depth : Nat) :
    Zone.outside.read (v.toJson.write .indented .printable depth) = .outside :=
  (isLaidOut_write Layout.isSound_indented v depth).closed

/-- Without layout the text of a value is its text on one line. -/
theorem strip_write (v : Value) (depth depth' : Nat) :
    strip (v.toJson.write .indented .printable depth) =
      v.toJson.write .compact .printable depth' := by
  have hleaf {v : Value} (h : ∀ items, v ≠ array items) (depth depth' : Nat) :
      strip (v.toJson.write .indented .printable depth) =
        v.toJson.write .compact .printable depth' := by
    obtain ⟨hleaf, htext⟩ := isLeaf_write h .indented depth
    rw [hleaf.strip_eq, htext, (isLeaf_write h .compact depth').2]
  induction v generalizing depth depth' with
  | array items ih =>
    have hclosed : ∀ text ∈ (items.map toJson).map (write .indented .printable (depth + 1)),
        Zone.outside.read text = .outside := by
      rw [List.map_map]
      exact List.forall_mem_map.mpr fun v _ => closed_write v (depth + 1)
    rw [toJson, toJsonAll_eq_map, write, write, writeItems_eq_map, writeItems_eq_map,
      strip_bracketed depth hclosed, bracketed_compact, List.map_map, List.map_map, List.map_map]
    have hitems : items.map ((strip ∘ write .indented .printable (depth + 1)) ∘ toJson) =
        items.map (write .compact .printable (depth' + 1) ∘ toJson) :=
      List.map_congr_left fun v hv => ih v hv (depth + 1) (depth' + 1)
    rw [hitems]
  | null | boolean b | number x | string s => exact hleaf (by simp) depth depth'

theorem indents_write (v : Value) (depth : Nat) :
    Indents depth (v.toJson.write .indented .printable depth) depth := by
  induction v generalizing depth with
  | array items ih =>
    rw [toJson, toJsonAll_eq_map, write, writeItems_eq_map]
    refine Indents.bracketed (List.forall_mem_map.mpr (List.forall_mem_map.mpr fun v hv => ?_))
    exact ⟨v.isStrict_toJson.opens, ih v hv (depth + 1)⟩
  | null | boolean b | number x | string s =>
    exact .of_isLeaf (isLeaf_write (by simp) .indented depth).1 depth

/-! ## Lines -/

/-- Lines with a comma after the last of them. -/
def withComma : List (List Char) → List (List Char)
  | [] => []
  | [row] => [row ++ [',']]
  | row :: row' :: rows => row :: withComma (row' :: rows)

/-- The lines of elements, one element after another, with commas between the elements. -/
def separated : List (List (List Char)) → List (List Char)
  | [] => []
  | [rows] => rows
  | rows :: rows' :: others => withComma rows ++ separated (rows' :: others)

mutual

/-- The lines of a value: one for a value that is no array and for an array without elements; else
the lines of the elements, two spaces further in, between those of the brackets. -/
def rows : Value → List (List Char)
  | array [] => [['[', ']']]
  | array (v :: vs) => ['['] :: (separated (rows v :: rowsAll vs)).map ([' ', ' '] ++ ·) ++ [[']']]
  | v => [v.compact.toList]

def rowsAll : List Value → List (List (List Char))
  | [] => []
  | v :: vs => rows v :: rowsAll vs

end

theorem rowsAll_eq_map (vs : List Value) : rowsAll vs = vs.map rows := by
  induction vs with
  | nil => rfl
  | cons v vs ih => rw [rowsAll, ih, List.map_cons]

theorem rows_cons (v : Value) (vs : List Value) : (array (v :: vs)).rows =
    ['['] :: (separated ((v :: vs).map rows)).map ([' ', ' '] ++ ·) ++ [[']']] := by
  rw [rows, rowsAll_eq_map, List.map_cons]

theorem rows_of_ne_array {v : Value} (h : ∀ items, v ≠ array items) :
    v.rows = [v.compact.toList] := by
  cases v with
  | array items => exact absurd rfl (h items)
  | null | boolean b | number x | string s => rfl

theorem rows_ne_nil (v : Value) : v.rows ≠ [] := by
  cases v with
  | array items => cases items <;> exact List.cons_ne_nil _ _
  | null | boolean b | number x | string s => exact List.cons_ne_nil _ _

theorem flatMap_withComma (sep : List Char) {rows : List (List Char)} (h : rows ≠ []) :
    (withComma rows).flatMap (sep ++ ·) = rows.flatMap (sep ++ ·) ++ [','] := by
  induction rows with
  | nil => exact absurd rfl h
  | cons row rows ih =>
    cases rows with
    | nil => simp [withComma]
    | cons row' rows =>
      rw [withComma, List.flatMap_cons, ih (List.cons_ne_nil _ _), List.flatMap_cons,
        List.append_assoc]
      simp

theorem flatMap_separated (sep : List Char) {elements : List (List (List Char))}
    (h : ∀ rows ∈ elements, rows ≠ []) : (separated elements).flatMap (sep ++ ·) =
      [','].intercalate (elements.map fun rows => rows.flatMap (sep ++ ·)) := by
  induction elements with
  | nil => rfl
  | cons rows others ih =>
    obtain ⟨hrows, hothers⟩ := List.forall_mem_cons.mp h
    cases others with
    | nil => simp [separated]
    | cons rows' others =>
      rw [separated, List.flatMap_append, flatMap_withComma sep hrows, ih hothers]
      simp [List.intercalate_cons_cons]

theorem breakAt_succ (depth : Nat) :
    Layout.indented.breakAt (depth + 1) = Layout.indented.breakAt depth ++ [' ', ' '] := by
  show '\n' :: List.replicate (2 * (depth + 1)) ' ' = '\n' :: (List.replicate (2 * depth) ' ' ++ _)
  rw [Nat.mul_succ, List.replicate_add]
  rfl

/-- The text of a value is its lines, joined by breaks. -/
theorem write_eq_intercalate (v : Value) (depth : Nat) :
    v.toJson.write .indented .printable depth =
      (Layout.indented.breakAt depth).intercalate v.rows := by
  induction v generalizing depth with
  | array items ih =>
    cases items with
    | nil => exact List.intercalate_singleton.symm
    | cons v vs =>
      have hitem : ∀ item ∈ v :: vs, item.rows.flatMap (Layout.indented.breakAt (depth + 1) ++ ·) =
          Layout.indented.breakAt (depth + 1) ++
            item.toJson.write .indented .printable (depth + 1) := by
        intro item hitem
        obtain ⟨row, rows, hrows⟩ := List.exists_cons_of_ne_nil item.rows_ne_nil
        rw [ih item hitem, hrows, intercalate_cons, List.flatMap_cons, List.append_assoc]
      have hrows : ∀ element ∈ (v :: vs).map rows, element ≠ [] :=
        List.forall_mem_map.mpr fun item _ => item.rows_ne_nil
      have hindent : ((separated ((v :: vs).map rows)).map ([' ', ' '] ++ ·)).flatMap
          (Layout.indented.breakAt depth ++ ·) = [','].intercalate ((v :: vs).map fun item =>
            Layout.indented.breakAt (depth + 1) ++
              item.toJson.write .indented .printable (depth + 1)) := by
        rw [List.flatMap_map]
        simp only [← List.append_assoc, ← breakAt_succ]
        rw [flatMap_separated _ hrows, List.map_map]
        exact congrArg _ (List.map_congr_left hitem)
      have hne : ((v :: vs).map toJson).map (write .indented .printable (depth + 1)) ≠ [] :=
        List.cons_ne_nil _ _
      rw [toJson, toJsonAll_eq_map, write, writeItems_eq_map, bracketed_of_ne_nil _ _ _ hne,
        rows_cons, List.cons_append, intercalate_cons, List.flatMap_append, hindent, List.map_map,
        List.map_map, List.flatMap_singleton]
      rfl
  | null | boolean b | number x | string s =>
    rw [rows_of_ne_array (by simp), List.intercalate_singleton]
    exact (isLeaf_write (by simp) .indented depth).2

theorem newline_not_mem_withComma {rows : List (List Char)} (h : ∀ row ∈ rows, '\n' ∉ row) :
    ∀ row ∈ withComma rows, '\n' ∉ row := by
  induction rows with
  | nil => exact List.forall_mem_nil _
  | cons row rows ih =>
    obtain ⟨hrow, hrows⟩ := List.forall_mem_cons.mp h
    cases rows with
    | nil => exact List.forall_mem_singleton.mpr (by simpa using hrow)
    | cons row' rows => exact List.forall_mem_cons.mpr ⟨hrow, ih hrows⟩

theorem newline_not_mem_separated {elements : List (List (List Char))}
    (h : ∀ rows ∈ elements, ∀ row ∈ rows, '\n' ∉ row) : ∀ row ∈ separated elements, '\n' ∉ row := by
  induction elements with
  | nil => exact List.forall_mem_nil _
  | cons rows others ih =>
    obtain ⟨hrows, hothers⟩ := List.forall_mem_cons.mp h
    cases others with
    | nil => exact hrows
    | cons rows' others =>
      exact List.forall_mem_append.mpr ⟨newline_not_mem_withComma hrows, ih hothers⟩

theorem newline_not_mem_rows (v : Value) : ∀ row ∈ v.rows, '\n' ∉ row := by
  induction v with
  | array items ih =>
    cases items with
    | nil => exact List.forall_mem_singleton.mpr (by decide)
    | cons v vs =>
      have hrows := newline_not_mem_separated (List.forall_mem_map.mpr ih)
      rw [rows_cons, List.cons_append]
      refine List.forall_mem_cons.mpr ⟨by decide, List.forall_mem_append.mpr ⟨?_, ?_⟩⟩
      · refine List.forall_mem_map.mpr fun row hrow => ?_
        simpa using hrows row hrow
      · exact List.forall_mem_singleton.mpr (by decide)
  | null | boolean b | number x | string s =>
    rw [rows_of_ne_array (by simp)]
    exact List.forall_mem_singleton.mpr
      (newline_not_mem_render Front.isSound_printable (isStrict_toJson _))

/-- **Layout.** Without the spaces and line feeds outside of strings the text with one element a
line is the text on one line. Every line feed in it is outside of strings, and is followed by exactly
two spaces for each array that is open there, less one before a closing bracket. Every element of an
array has lines of its own, further in, between those of the brackets, and an array without elements
is `[]`. -/
theorem pretty_layout (v : Value) :
    strip v.pretty.toList = v.compact.toList ∧
      (∀ before after, v.pretty.toList = before ++ '\n' :: after →
        Zone.outside.read before = .outside ∧ ∃ (count : Nat) (c : Char) (rest : List Char),
          after = List.replicate (2 * count) ' ' ++ c :: rest ∧ c ≠ ' ' ∧
            openArrays before = count + if c = ']' then 1 else 0) ∧
      lines v.pretty.toList = v.rows := by
  have hpretty : v.pretty.toList = v.toJson.write .indented .printable 0 := by
    rw [pretty, render, String.toList_ofList]
  have hcompact : v.compact.toList = v.toJson.write .compact .printable 0 := by
    rw [compact, render, String.toList_ofList]
  rw [hpretty, hcompact]
  refine ⟨strip_write v 0 0, ?_, ?_⟩
  · intro before after heq
    obtain ⟨hclosed, count, c, rest, hafter, hc, hcount⟩ :=
      (indents_write v 0).follows before after heq
    exact ⟨hclosed, count, c, rest, hafter, hc, (Int.zero_add _).symm.trans hcount⟩
  · rw [write_eq_intercalate]
    exact List.splitOn_intercalate '\n' v.newline_not_mem_rows v.rows_ne_nil

/-- The elements of an inner array are two spaces further in than the array. -/
example : (array [array [], array [null, boolean true]]).rows.map String.ofList =
    ["[", "  [],", "  [", "    null,", "    true", "  ]", "]"] := rfl

end Value

end Splice
