import Splice.Proofs.Token.Spelling

/-!
# Rendering tokens

Tokens can be written as text again: a template is one item, and every other token is one
(`items`). Items are laid out with blanks and comments between them (`LaidOut`). However the items
of the tokens of a source are laid out, scanning gives tokens of the same kinds and texts
(`scanRun_of_laidOut`).
-/

namespace Splice

open Text Scan

namespace Token

/-- What a token is up to its place. -/
def form (t : Token) : Kind × String := (t.kind, t.raw)

/-- The text that a token is written as outside of templates. -/
def spelling (t : Token) : List Char :=
  if t.kind = .string then '"' :: (t.raw.toList ++ ['"']) else t.raw.toList

/-- The text that a part of a template is written as. -/
def partSpelling (t : Token) : List Char :=
  if t.kind = .string then t.raw.toList else '{' :: (t.raw.toList ++ ['}'])

@[simp] theorem form_of (kind : Kind) (text : List Char) (start : Location) :
    (of kind text start).form = (kind, String.ofList text) := rfl

@[simp] theorem spelling_of_string (text : List Char) (start : Location) :
    (of .string text start).spelling = '"' :: (text ++ ['"']) := by
  simp [spelling, of]

theorem spelling_of {kind : Kind} (h : kind ≠ .string) (text : List Char) (start : Location) :
    (of kind text start).spelling = text := by
  simp [spelling, of, h]

theorem partSpelling_ofWord (text : List Char) (start : Location) :
    (ofWord text start).partSpelling = '{' :: (text ++ ['}']) := by
  simp [partSpelling, ofWord, of, (Kind.ofWord_ne _).1]

end Token

/-! ## Items -/

/-- The items of tokens: outside of templates, or inside one whose text so far is given. -/
def itemsFrom : Option (List Char) → List Token → List (List Char)
  | none, [] => []
  | some text, [] => [text]
  | none, t :: ts =>
    if t.kind = .template then itemsFrom (some ['\'']) ts else t.spelling :: itemsFrom none ts
  | some text, t :: ts =>
    if t.kind = .template then (text ++ ['\'']) :: itemsFrom none ts
    else itemsFrom (some (text ++ t.partSpelling)) ts

/-- The items that tokens are written as. -/
def items (tokens : List Token) : List (List Char) := itemsFrom none tokens

theorem items_cons {t : Token} (h : t.kind ≠ .template) (ts : List Token) :
    items (t :: ts) = t.spelling :: items ts := by
  rw [items, itemsFrom, if_neg h]
  rfl

theorem itemsFrom_parts {parts : List Token} (h : ∀ t ∈ parts, t.kind ≠ .template)
    (text : List Char) {t : Token} (ht : t.kind = .template) (ts : List Token) :
    itemsFrom (some text) (parts ++ t :: ts) =
      (text ++ (parts.flatMap Token.partSpelling ++ ['\''])) :: items ts := by
  induction parts generalizing text with
  | nil =>
    rw [List.nil_append, itemsFrom, if_pos ht]
    rfl
  | cons u parts ih =>
    obtain ⟨hu, hparts⟩ := List.forall_mem_cons.mp h
    rw [List.cons_append, itemsFrom, if_neg hu, ih hparts, List.flatMap_cons, List.append_assoc,
      List.append_assoc]

theorem items_template {t t' : Token} {parts : List Token} (ht : t.kind = .template)
    (h : ∀ t ∈ parts, t.kind ≠ .template) (ht' : t'.kind = .template) (ts : List Token) :
    items (t :: (parts ++ t' :: ts)) =
      ('\'' :: (parts.flatMap Token.partSpelling ++ ['\''])) :: items ts := by
  rw [items, itemsFrom, if_pos ht, itemsFrom_parts h _ ht']
  rfl

/-! ## Layouts -/

/-- A text that may stand between items: a blank, or a comment with its line feed. -/
inductive Gap : List Char → Prop where
  | blank {c} : isSpace c = true → Gap [c]
  | comment {text} : '\n' ∉ text → Gap (';' :: ';' :: (text ++ ['\n']))

/-- Items one after another in a text, with gaps between any two of them. -/
inductive LaidOut : List (List Char) → List Char → Prop where
  | nil : LaidOut [] []
  | gap {gap items text} : Gap gap → LaidOut items text → LaidOut items (gap ++ text)
  | last {item text} : LaidOut [] text → LaidOut [item] (item ++ text)
  | item {item gap items text} : Gap gap → LaidOut items text →
      LaidOut (item :: items) (item ++ (gap ++ text))

/-- A gap begins with a break, and is no lexeme. -/
theorem Gap.lexed {gap : List Char} (h : Gap gap) {xs ys : List Located} {ts : List Token}
    (hxs : xs.map Located.char = gap) (hts : Lexed ys ts) :
    ∃ x xs', xs = x :: xs' ∧ isBreak x.char = true ∧ Lexed (xs ++ ys) ts := by
  cases h with
  | @blank c hc =>
    obtain ⟨x, rfl, rfl⟩ := List.map_eq_singleton_iff.mp hxs
    exact ⟨x, [], rfl, by rw [isBreak, hc]; rfl, .blank hc hts⟩
  | @comment text htext =>
    obtain ⟨x, rest, rfl, hx, hrest⟩ := List.map_eq_cons_iff.mp hxs
    obtain ⟨x', rest', rfl, hx', hrest'⟩ := List.map_eq_cons_iff.mp hrest
    obtain ⟨body, last, rfl, rfl, hlast⟩ := List.map_eq_append_iff.mp hrest'
    obtain ⟨z, rfl, hz⟩ := List.map_eq_singleton_iff.mp hlast
    refine ⟨x, _, rfl, by rw [hx]; rfl, ?_⟩
    have hbody : ∀ w ∈ body, w.char ≠ '\n' := by
      intro w hw hline
      exact htext (hline ▸ List.mem_map_of_mem hw)
    rw [List.cons_append, List.cons_append, List.append_assoc]
    exact .comment hx hx' hbody hz hts

/-- Before the line feed that ends a text without items is a break. -/
theorem LaidOut.isBreak_head {text : List Char} (h : LaidOut [] text) {xs : List Located}
    (hxs : xs.map Located.char = text) {z : Located} (hz : z.char = '\n') :
    ∃ y ys, xs ++ [z] = y :: ys ∧ isBreak y.char = true := by
  cases h with
  | nil =>
    obtain rfl : xs = [] := List.map_eq_nil_iff.mp hxs
    exact ⟨z, [], rfl, by rw [hz]; rfl⟩
  | gap hgap h =>
    obtain ⟨own, others, rfl, hown, -⟩ := List.map_eq_append_iff.mp hxs
    obtain ⟨y, ys, rfl, hy, -⟩ := hgap.lexed hown .nil
    exact ⟨y, _, rfl, hy⟩

/-! ## Scanning a layout -/

/-- Before a break, an item is scanned as tokens that are some given ones up to their places. -/
def Rescans (item : List Char) (ts : List Token) : Prop :=
  ∀ {xs ys : List Located} {y : Located} {us : List Token}, xs.map Located.char = item →
    isBreak y.char = true → Lexed (y :: ys) us →
      ∃ ts', ts'.map Token.form = ts.map Token.form ∧ Lexed (xs ++ y :: ys) (ts' ++ us)

/-- Items that are scanned as some tokens, one after another. -/
inductive Itemized : List (List Char) → List Token → Prop where
  | nil : Itemized [] []
  | cons {item ts items us} : Rescans item ts → Itemized items us →
      Itemized (item :: items) (ts ++ us)

theorem Spells.spelling {text raw : List Char} {kind : Kind} (h : Spells text kind raw)
    (place : Location) : kind ≠ .template ∧ (Token.of kind raw place).spelling = text := by
  cases h with
  | mark hc =>
    obtain ⟨hstring, htemplate, -⟩ := Kind.ne_of_ofChar? hc
    exact ⟨htemplate, Token.spelling_of hstring _ _⟩
  | word => exact ⟨(Kind.ofWord_ne _).2.1, Token.spelling_of (Kind.ofWord_ne _).1 _ _⟩
  | string => exact ⟨by decide, Token.spelling_of_string _ _⟩
  | plus | merge | number => exact ⟨by decide, Token.spelling_of (by decide) _ _⟩

theorem Spells.rescans {text raw : List Char} {kind : Kind} (h : Spells text kind raw)
    (place : Location) : Rescans text [.of kind raw place] := by
  intro xs ys y us hxs hy hus
  obtain ⟨x, -, hlexed⟩ := h.lexed hxs hy hus
  exact ⟨[.of kind raw x.place], rfl, hlexed⟩

theorem forall_char_of_map_eq {p : Char → Prop} {xs ys : List Located}
    (h : ys.map Located.char = xs.map Located.char) (hxs : ∀ x ∈ xs, p x.char) :
    ∀ y ∈ ys, p y.char := by
  have hmap : ∀ c ∈ ys.map Located.char, p c := h ▸ List.forall_mem_map.mpr hxs
  exact List.forall_mem_map.mp hmap

theorem map_form_ofLiteral {text ys : List Located}
    (h : ys.map Located.char = text.reverse.map Located.char) :
    (Token.ofLiteral ys.reverse).map Token.form = (Token.ofLiteral text).map Token.form := by
  unfold Token.ofLiteral
  rw [List.reverse_reverse]
  cases htext : text.reverse with
  | nil =>
    rw [htext] at h
    rw [List.map_eq_nil_iff.mp h]
  | cons x xs =>
    rw [htext] at h
    obtain ⟨y, ys', rfl, -, -⟩ := List.map_eq_cons_iff.mp h
    show [(Kind.string, String.ofList ((y :: ys').map Located.char))] = _
    rw [h]
    rfl

theorem flatMap_partSpelling_ofLiteral (text : List Located) :
    (Token.ofLiteral text).flatMap Token.partSpelling = text.reverse.map Located.char := by
  unfold Token.ofLiteral
  cases text.reverse with
  | nil => rfl
  | cons x xs => simp [Token.partSpelling, Token.of]

theorem Interior.plain_append {ys : List Located} (hys : ∀ y ∈ ys, isPlain y.char = true)
    {text xs : List Located} {ts : List Token} (h : Interior (ys.reverse ++ text) xs ts) :
    Interior text (ys ++ xs) ts := by
  induction ys generalizing text with
  | nil => exact h
  | cons y ys ih =>
    obtain ⟨hy, hys⟩ := List.forall_mem_cons.mp hys
    refine .plain hy (ih hys ?_)
    rwa [List.reverse_cons, List.append_assoc] at h

/-- The parts of a template can be written one after another, each slot with both its braces. -/
theorem Interior.exists_parts {text xs : List Located} {ts : List Token} (h : Interior text xs ts)
    (htext : ∀ x ∈ text, isPlain x.char = true) {ys : List Located}
    (hys : ys.map Located.char = ts.flatMap Token.partSpelling) :
    ∃ us, us.map Token.form = ts.map Token.form ∧ Interior [] ys us := by
  have hplain {text ys : List Located} (htext : ∀ x ∈ text, isPlain x.char = true)
      (hys : ys.map Located.char = text.reverse.map Located.char) :
      ∀ y ∈ ys, isPlain y.char = true :=
    forall_char_of_map_eq (p := (isPlain · = true)) hys
      fun x hx => htext x (List.mem_reverse.mp hx)
  induction h generalizing ys with
  | @done text =>
    rw [flatMap_partSpelling_ofLiteral] at hys
    refine ⟨_, map_form_ofLiteral hys, ?_⟩
    have hinterior : Interior [] (ys ++ []) (Token.ofLiteral ys.reverse) := by
      apply Interior.plain_append (hplain htext hys)
      rw [List.append_nil]
      exact .done
    rwa [List.append_nil] at hinterior
  | plain hx _ ih => exact ih (List.forall_mem_cons.mpr ⟨hx, htext⟩) hys
  | brace _ _ ih => exact ih htext hys
  | @slot text x word xs ts hx hword hhead _ ih =>
    rw [List.flatMap_append, flatMap_partSpelling_ofLiteral, List.flatMap_cons,
      Token.partSpelling_ofWord] at hys
    obtain ⟨own, slot, rfl, hown, hslot⟩ := List.map_eq_append_iff.mp hys
    obtain ⟨z, rest, rfl, hz, hrest⟩ := List.map_eq_cons_iff.mp hslot
    obtain ⟨inner, others, rfl, hinner, hothers⟩ := List.map_eq_append_iff.mp hrest
    obtain ⟨word', last, rfl, hword', hlast⟩ := List.map_eq_append_iff.mp hinner
    obtain ⟨z', rfl, hz'⟩ := List.map_eq_singleton_iff.mp hlast
    obtain ⟨us, hform, hinterior⟩ := ih (List.forall_mem_nil _) hothers
    refine ⟨Token.ofLiteral own.reverse ++ .ofWord (word'.map Located.char) z.place.next :: us,
      ?_, .plain_append (hplain htext hown) ?_⟩
    · rw [List.map_append, List.map_append, List.map_cons, List.map_cons, map_form_ofLiteral hown,
        hform, hword']
      rfl
    · have hchars : ∀ y ∈ word', isWord y.char = true :=
        forall_char_of_map_eq (p := (isWord · = true)) hword' hword
      have hbrace : ∀ y ∈ (z' :: others).head?, isWord y.char = false := by
        rintro y ⟨⟩
        rw [hz']
        decide
      rw [List.append_nil, List.append_assoc]
      exact .slot hz hchars hbrace (.brace hz' hinterior)

theorem Interior.rescans {body : List Located} {us : List Token} (h : Interior [] body us)
    (first last : Location) : Rescans ('\'' :: (us.flatMap Token.partSpelling ++ ['\'']))
      (.of .template [] first :: (us ++ [.of .template [] last])) := by
  intro xs ys y vs hxs hy hvs
  obtain ⟨x, rest, rfl, hx, hrest⟩ := List.map_eq_cons_iff.mp hxs
  obtain ⟨body', quote, rfl, hbody', hquote⟩ := List.map_eq_append_iff.mp hrest
  obtain ⟨z, rfl, hz⟩ := List.map_eq_singleton_iff.mp hquote
  obtain ⟨us', hform, hinterior⟩ := h.exists_parts (List.forall_mem_nil _) hbody'
  refine ⟨.of .template [] x.place :: (us' ++ [.of .template [] z.place.next]), ?_, ?_⟩
  · simp [hform]
  · have hlexed := Lexed.template hx hinterior hz hvs
    simpa using hlexed

theorem Itemized.of_spells {text raw : List Char} {kind : Kind} (h : Spells text kind raw)
    {place : Location} {ts : List Token} (hts : Itemized (items ts) ts) :
    Itemized (items (.of kind raw place :: ts)) (.of kind raw place :: ts) := by
  obtain ⟨htemplate, hspelling⟩ := h.spelling place
  rw [items_cons htemplate, hspelling]
  exact .cons (h.rescans place) hts

/-- The items of lexemes are scanned as their tokens. -/
theorem Lexed.itemized {xs : List Located} {ts : List Token} (h : Lexed xs ts) :
    Itemized (items ts) ts := by
  induction h with
  | nil => exact .nil
  | blank _ _ ih | comment _ _ _ _ _ ih => exact ih
  | mark hx _ ih => exact .of_spells (.mark hx) ih
  | plus _ _ _ ih => exact .of_spells .plus ih
  | merge _ _ _ ih => exact .of_spells .merge ih
  | string _ hbody _ _ ih => exact .of_spells (.string (List.forall_mem_map.mpr hbody)) ih
  | word hx hbody _ _ ih => exact .of_spells (.word hx (List.forall_mem_map.mpr hbody)) ih
  | number hx hbody _ _ ih => exact .of_spells (.number hx (List.forall_mem_map.mpr hbody)) ih
  | @template x body us y xs ts _ hbody _ _ ih =>
    have hparts : ∀ t ∈ us, t.kind ≠ .template := fun t ht => (kind_ne_of_interior hbody t ht).1
    rw [items_template rfl hparts rfl, List.append_cons us, ← List.cons_append]
    exact .cons (hbody.rescans _ _) ih

/-- Items that are laid out are lexemes of the same tokens, up to their places. -/
theorem LaidOut.exists_lexed {items : List (List Char)} {text : List Char} (h : LaidOut items text)
    {ts : List Token} (hts : Itemized items ts) {xs : List Located}
    (hxs : xs.map Located.char = text) {z : Located} (hz : z.char = '\n') :
    ∃ us, us.map Token.form = ts.map Token.form ∧ Lexed (xs ++ [z]) us := by
  induction h generalizing ts xs with
  | nil =>
    cases hts
    obtain rfl : xs = [] := List.map_eq_nil_iff.mp hxs
    exact ⟨[], rfl, .blank (by rw [hz]; rfl) .nil⟩
  | gap hgap _ ih =>
    obtain ⟨own, others, rfl, hown, hothers⟩ := List.map_eq_append_iff.mp hxs
    obtain ⟨us, hform, hlexed⟩ := ih hts hothers
    obtain ⟨-, -, -, -, h⟩ := hgap.lexed hown hlexed
    exact ⟨us, hform, List.append_assoc own others [z] ▸ h⟩
  | last hrest ih =>
    cases hts with
    | @cons _ ts _ rest hitem hnil =>
      obtain ⟨own, others, rfl, hown, hothers⟩ := List.map_eq_append_iff.mp hxs
      obtain ⟨us, hform, hlexed⟩ := ih hnil hothers
      obtain ⟨y, ys, hys, hy⟩ := hrest.isBreak_head hothers hz
      rw [hys] at hlexed
      obtain ⟨ts', hform', h⟩ := hitem hown hy hlexed
      refine ⟨ts' ++ us, ?_, ?_⟩
      · rw [List.map_append, List.map_append, hform, hform']
      · rwa [List.append_assoc, hys]
  | item hgap _ ih =>
    cases hts with
    | cons hitem hitems =>
      obtain ⟨own, rest, rfl, hown, hrest⟩ := List.map_eq_append_iff.mp hxs
      obtain ⟨between, others, rfl, hbetween, hothers⟩ := List.map_eq_append_iff.mp hrest
      obtain ⟨us, hform, hlexed⟩ := ih hitems hothers
      obtain ⟨y, ys, rfl, hy, hlexed⟩ := hgap.lexed hbetween hlexed
      obtain ⟨ts', hform', h⟩ := hitem hown hy hlexed
      refine ⟨ts' ++ us, ?_, ?_⟩
      · rw [List.map_append, List.map_append, hform, hform']
      · rwa [List.append_assoc, List.append_assoc]

/-- **Tokens up to layout.** However the items of the tokens of a source are laid out, scanning
finds no problem and gives the same tokens up to their places. -/
theorem scanRun_of_laidOut {octets : List UInt8} {ts : List Token} {text : List Char}
    (h : (scanRun (.ofOctets octets)).outcome = .ok ts)
    (htext : LaidOut (items (beforeEnd ts)) text) :
    ∃ ts', (scanRun (.ofOctets (encode text))).outcome = .ok ts' ∧
      (scanRun (.ofOctets (encode text))).diagnostics = [] ∧
      ts'.map Token.form = ts.map Token.form := by
  obtain ⟨us, hlexed, rfl⟩ := outcome_scanRun_eq_ok_iff.mp h
  rw [beforeEnd_append_atEnd (kind_ne_eof_of_lexed hlexed)] at htext
  obtain ⟨us', hform, hlexed'⟩ := htext.exists_lexed hlexed.itemized
    ((Source.ofText text).map_char_located.trans (Source.text_ofText text))
    (z := ⟨'\n', (Source.ofText text).stop⟩) rfl
  rw [Source.ofOctets_encode, scanRun_of_lexed hlexed']
  refine ⟨_, rfl, rfl, ?_⟩
  rw [List.map_append, List.map_append, hform]
  rfl

/-- A template between parentheses, with a slot that begins with a digit and a stray brace. -/
def slotSource : List Char := ['(', '\'', '{', '1', 'a', '}', 'b', '}', '\'', 'x', ')']

def slotTokens : List Token :=
  [⟨.openParen, "(", 0, 0⟩, ⟨.template, "", 1, 0⟩, ⟨.name, "1a", 3, 0⟩, ⟨.string, "b", 6, 0⟩,
    ⟨.template, "", 9, 0⟩, ⟨.name, "x", 9, 0⟩, ⟨.closeParen, ")", 10, 0⟩, ⟨.eof, "", 11, 0⟩]

/-- The items of these tokens with a comment and blanks between them. -/
def slotLayout : List Char :=
  ['(', ';', ';', 'y', '\n', '\'', '{', '1', 'a', '}', 'b', '\'', '\t', 'x', '\n', ' ', ')']

/-- A word that begins with a digit stays one word in a slot, however the template is laid out. -/
theorem scanRun_slotLayout : (scanRun (.ofOctets (encode slotSource))).outcome = .ok slotTokens ∧
    ∃ ts', (scanRun (.ofOctets (encode slotLayout))).outcome = .ok ts' ∧
      (scanRun (.ofOctets (encode slotLayout))).diagnostics = [] ∧
      ts'.map Token.form = slotTokens.map Token.form := by
  have hscan : (scanRun (.ofOctets (encode slotSource))).outcome = .ok slotTokens := rfl
  have hparen : LaidOut [[')']] [' ', ')'] := .gap (.blank rfl) (@LaidOut.last [')'] [] .nil)
  have hword : LaidOut [['x'], [')']] ['x', '\n', ' ', ')'] :=
    @LaidOut.item ['x'] ['\n'] _ _ (.blank rfl) hparen
  have htemplate : LaidOut [['\'', '{', '1', 'a', '}', 'b', '\''], ['x'], [')']]
      (slotLayout.drop 5) := @LaidOut.item _ ['\t'] _ _ (.blank rfl) hword
  have hlaidOut : LaidOut (items (beforeEnd slotTokens)) slotLayout :=
    @LaidOut.item ['('] _ _ _ (@Gap.comment ['y'] (by decide)) htemplate
  exact ⟨hscan, scanRun_of_laidOut hscan hlaidOut⟩

end Splice
