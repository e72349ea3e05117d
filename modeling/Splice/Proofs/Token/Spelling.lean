import Splice.Proofs.Scanning
import Splice.Proofs.Source

/-!
# Spellings of tokens

The texts that are one token between tokens (`Spells`): such a text is scanned as its token before
a break, a character that goes on with no token. The text of a token spells the token itself, unless
it is a string or a name in the slot of a template that begins with no letter
(`scanRun_raw_iff`).
-/

namespace Splice

open Text Scan

/-- A character that ends every token but a string, a template and a comment. -/
def isBreak (c : Char) : Bool := isSpace c || c == ';'

theorem isBreak_cases {c : Char} (h : isBreak c = true) :
    c = ' ' ∨ c = '\t' ∨ c = '\r' ∨ c = '\n' ∨ c = ';' := by
  simpa [isBreak, isSpace, or_assoc] using h

theorem ne_plus_of_isBreak {c : Char} (h : isBreak c = true) : c ≠ '+' := by
  rcases isBreak_cases h with rfl | rfl | rfl | rfl | rfl <;> decide

theorem isWord_of_isBreak {c : Char} (h : isBreak c = true) : isWord c = false := by
  rcases isBreak_cases h with rfl | rfl | rfl | rfl | rfl <;> decide

theorem isNumeric_of_isBreak {c : Char} (h : isBreak c = true) : isNumeric c = false := by
  rcases isBreak_cases h with rfl | rfl | rfl | rfl | rfl <;> decide

/-- A text that is one token between tokens, the kind of the token, and its text. -/
inductive Spells : List Char → Kind → List Char → Prop where
  | mark {c kind} : Kind.ofChar? c = some kind → Spells [c] kind [c]
  | plus : Spells ['+'] .plus ['+']
  | merge : Spells ['+', '+'] .merge ['+', '+']
  | string {text} : (∀ c ∈ text, c ≠ '"' ∧ c ≠ '\n') →
      Spells ('"' :: (text ++ ['"'])) .string text
  | word {c cs} : isLetter c = true → (∀ d ∈ cs, isWord d = true) →
      Spells (c :: cs) (.ofWord (String.ofList (c :: cs))) (c :: cs)
  | number {c cs} : c.isDigit = true → (∀ d ∈ cs, isNumeric d = true) →
      Spells (c :: cs) .number (c :: cs)

theorem Spells.lexed {text raw : List Char} {kind : Kind} (h : Spells text kind raw)
    {xs ys : List Located} {y : Located} {ts : List Token} (hxs : xs.map Located.char = text)
    (hy : isBreak y.char = true) (hts : Lexed (y :: ys) ts) :
    ∃ x ∈ xs.head?, Lexed (xs ++ y :: ys) (.of kind raw x.place :: ts) := by
  cases h with
  | mark hc =>
    obtain ⟨x, rfl, rfl⟩ := List.map_eq_singleton_iff.mp hxs
    exact ⟨x, rfl, .mark hc hts⟩
  | plus =>
    obtain ⟨x, rfl, hx⟩ := List.map_eq_singleton_iff.mp hxs
    exact ⟨x, rfl, .plus hx (ne_plus_of_isBreak hy) hts⟩
  | merge =>
    obtain ⟨x, rest, rfl, hx, hrest⟩ := List.map_eq_cons_iff.mp hxs
    obtain ⟨x', rfl, hx'⟩ := List.map_eq_singleton_iff.mp hrest
    exact ⟨x, rfl, .merge hx hx' hts⟩
  | string htext =>
    obtain ⟨x, rest, rfl, hx, hrest⟩ := List.map_eq_cons_iff.mp hxs
    obtain ⟨body, last, rfl, rfl, hlast⟩ := List.map_eq_append_iff.mp hrest
    obtain ⟨z, rfl, hz⟩ := List.map_eq_singleton_iff.mp hlast
    refine ⟨x, rfl, ?_⟩
    rw [List.cons_append, List.append_assoc]
    exact .string hx (List.forall_mem_map.mp htext) hz hts
  | word hc hcs =>
    obtain ⟨x, body, rfl, rfl, rfl⟩ := List.map_eq_cons_iff.mp hxs
    exact ⟨x, rfl, .word hc (List.forall_mem_map.mp hcs) (isWord_of_isBreak hy) hts⟩
  | number hc hcs =>
    obtain ⟨x, body, rfl, rfl, rfl⟩ := List.map_eq_cons_iff.mp hxs
    exact ⟨x, rfl, .number hc (List.forall_mem_map.mp hcs) (isNumeric_of_isBreak hy) hts⟩

/-! ## Scanning a spelling by itself -/

theorem Spells.newline_not_mem {text raw : List Char} {kind : Kind} (h : Spells text kind raw) :
    '\n' ∉ text := by
  have hall {p : Char → Bool} (hp : p '\n' = false) {cs : List Char} (hcs : ∀ c ∈ cs, p c = true) :
      '\n' ∉ cs := fun hmem => Bool.noConfusion (hp.symm.trans (hcs _ hmem))
  have hcons {c : Char} {cs : List Char} (hc : c ≠ '\n') (hcs : '\n' ∉ cs) : '\n' ∉ c :: cs :=
    List.not_mem_cons_of_ne_of_not_mem hc.symm hcs
  cases h with
  | mark hc => exact hcons (by rintro rfl; cases hc) List.not_mem_nil
  | plus | merge => decide
  | string htext => simpa using fun h => (htext _ h).2 rfl
  | word hc hcs => exact hcons (by rintro rfl; revert hc; decide) (hall (by decide) hcs)
  | number hc hcs => exact hcons (by rintro rfl; revert hc; decide) (hall (by decide) hcs)

theorem Spells.outcome_scanRun {text raw : List Char} {kind : Kind} (h : Spells text kind raw) :
    (scanRun (.ofOctets (encode text))).outcome =
      .ok [⟨kind, String.ofList raw, 0, 0⟩, .atEnd (encode text).length 0] := by
  have hchars : (Source.ofOctets (encode text)).located.map Located.char = text := by
    rw [Source.ofOctets_encode, Source.map_char_located, Source.text_ofText]
  have hcount : (encode text).count 10 = 0 := by
    rw [← count_newline_decode, characters_encode]
    exact List.count_eq_zero_of_not_mem h.newline_not_mem
  obtain ⟨x, hx, hlexed⟩ := h.lexed hchars (y := ⟨'\n', (Source.ofOctets (encode text)).stop⟩) rfl
    (.blank rfl .nil)
  rw [scanRun_of_lexed hlexed, Source.stop_ofOctets, hcount, place_of_mem_head?_locate hx]
  rfl

/-! ## Words -/

/-- Every word but a name begins with a letter. -/
theorem isLetter_head_of_ofWord_ne_name {s : String} (h : Kind.ofWord s ≠ .name) :
    ∃ c cs, s.toList = c :: cs ∧ isLetter c = true := by
  have hkeywords : ∀ kind ∈ Kind.keywords, kind.label.toList.head?.any isLetter = true := by decide
  unfold Kind.ofWord at h
  split at h
  case isTrue hboolean =>
    rcases hboolean with rfl | rfl
    · exact ⟨'t', ['r', 'u', 'e'], rfl, rfl⟩
    · exact ⟨'f', ['a', 'l', 's', 'e'], rfl, rfl⟩
  case isFalse =>
    cases hkeyword : Kind.keyword? s with
    | none => exact absurd (by rw [hkeyword]; rfl) h
    | some kind =>
      have hlabel : kind.label = s := by simpa using List.find?_some hkeyword
      have hhead := hkeywords kind (List.mem_of_find?_eq_some hkeyword)
      rw [hlabel] at hhead
      cases hs : s.toList with
      | nil =>
        rw [hs] at hhead
        exact absurd hhead Bool.false_ne_true
      | cons c cs =>
        rw [hs] at hhead
        exact ⟨c, cs, rfl, hhead⟩

/-- A token that is a word: at the top level, or in the slot of a template. -/
def Token.IsWord (t : Token) : Prop :=
  t.kind = .ofWord t.raw ∧ ∀ c ∈ t.raw.toList, isWord c = true

theorem isWord_of_mem_interior {text xs : List Located} {ts : List Token}
    (h : Interior text xs ts) : ∀ t ∈ ts, t.kind = .string ∨ t.IsWord := by
  have hliteral {text : List Located} :
      ∀ t ∈ Token.ofLiteral text, t.kind = .string ∨ t.IsWord :=
    fun t ht => .inl (kind_of_mem_ofLiteral ht)
  induction h with
  | done => exact hliteral
  | plain _ _ ih | brace _ _ ih => exact ih
  | slot _ hword _ _ ih =>
    refine List.forall_mem_append.mpr ⟨hliteral, List.forall_mem_cons.mpr ⟨.inr ⟨rfl, ?_⟩, ih⟩⟩
    rw [Token.ofWord, Token.of, String.toList_ofList]
    exact List.forall_mem_map.mpr hword

/-- A token spells itself, or it is a string, a boundary of a template, or a word in a slot. -/
theorem spells_of_mem_lexed {xs : List Located} {ts : List Token} (h : Lexed xs ts) :
    ∀ t ∈ ts, t.kind = .string ∨ t.kind = .template ∨
      Spells t.raw.toList t.kind t.raw.toList ∨ t.IsWord := by
  have hspells {kind : Kind} {raw : List Char} (h : Spells raw kind raw) (place : Location) :
      Spells (Token.of kind raw place).raw.toList kind (Token.of kind raw place).raw.toList := by
    rwa [Token.of, String.toList_ofList]
  induction h with
  | nil => exact List.forall_mem_nil _
  | blank _ _ ih | comment _ _ _ _ _ ih => exact ih
  | mark hx _ ih => exact List.forall_mem_cons.mpr ⟨.inr (.inr (.inl (hspells (.mark hx) _))), ih⟩
  | plus _ _ _ ih => exact List.forall_mem_cons.mpr ⟨.inr (.inr (.inl (hspells .plus _))), ih⟩
  | merge _ _ _ ih => exact List.forall_mem_cons.mpr ⟨.inr (.inr (.inl (hspells .merge _))), ih⟩
  | string _ _ _ _ ih => exact List.forall_mem_cons.mpr ⟨.inl rfl, ih⟩
  | word hx hbody _ _ ih =>
    have hword := Spells.word hx (List.forall_mem_map.mpr hbody)
    exact List.forall_mem_cons.mpr ⟨.inr (.inr (.inl (hspells hword _))), ih⟩
  | number hx hbody _ _ ih =>
    have hnumber := Spells.number hx (List.forall_mem_map.mpr hbody)
    exact List.forall_mem_cons.mpr ⟨.inr (.inr (.inl (hspells hnumber _))), ih⟩
  | template _ hbody _ _ ih =>
    refine List.forall_mem_cons.mpr ⟨.inr (.inl rfl), List.forall_mem_append.mpr ⟨?_,
      List.forall_mem_cons.mpr ⟨.inr (.inl rfl), ih⟩⟩⟩
    intro t ht
    rcases isWord_of_mem_interior hbody t ht with h | h
    · exact .inl h
    · exact .inr (.inr (.inr h))

theorem Spells.isLetter_head {text raw : List Char} {kind : Kind} (h : Spells text kind raw)
    (hkind : kind = .name) : ∀ c ∈ text.head?, isLetter c = true := by
  cases h with
  | word hletter =>
    rintro c ⟨⟩
    exact hletter
  | mark hc => exact absurd hkind (Kind.ne_of_ofChar? hc).2.2.2
  | plus | merge | string | number => cases hkind

theorem isLetter_of_lexed_name {x : Located} {xs : List Located} {t : Token} {ts : List Token}
    (h : Lexed (x :: xs) (t :: ts)) (ht : t.kind = .name) (hx : isWord x.char = true) :
    isLetter x.char = true := by
  cases h with
  | word hletter => exact hletter
  | blank hspace =>
    have hbreak : isBreak x.char = true := by rw [isBreak, hspace]; rfl
    exact absurd ((isWord_of_isBreak hbreak).symm.trans hx) Bool.false_ne_true
  | comment hsemicolon =>
    rw [hsemicolon] at hx
    exact absurd hx (by decide)
  | mark hkind => exact absurd ht (Kind.ne_of_ofChar? hkind).2.2.2
  | plus | merge | string | number | template => exact absurd ht (by simp [Token.of])

theorem isLetter_of_outcome_scanRun {c : Char} {cs : List Char} {t last : Token}
    (h : (scanRun (.ofOctets (encode (c :: cs)))).outcome = .ok [t, last]) (ht : t.kind = .name)
    (hc : isWord c = true) : isLetter c = true := by
  rw [Source.ofOctets_encode] at h
  obtain ⟨us, hlexed, hus⟩ := outcome_scanRun_eq_ok_iff.mp h
  have hsplit : [t] ++ [last] = us ++ [_] := hus
  obtain ⟨rfl, -⟩ := List.append_inj' hsplit rfl
  have hlexed' : Lexed (⟨c, .origin⟩ :: _) [t] := hlexed
  exact isLetter_of_lexed_name hlexed' ht hc

/-! ## Scanning the text of a token -/

/-- What a scan gives for the text of a token if the token spells itself. -/
def Token.alone (t : Token) : List Token :=
  [⟨t.kind, t.raw, 0, 0⟩, .atEnd (encode t.raw.toList).length 0]

theorem Spells.outcome_scanRun_raw {t : Token} (h : Spells t.raw.toList t.kind t.raw.toList) :
    (scanRun (.ofOctets (encode t.raw.toList))).outcome = .ok t.alone := by
  have hrun := h.outcome_scanRun
  rwa [String.ofList_toList] at hrun

/-- A word is scanned as itself if and only if it is no name or begins with a letter. -/
theorem Token.IsWord.outcome_scanRun_iff {t : Token} (h : t.IsWord)
    (hempty : ¬(t.kind = .name ∧ t.raw = "")) :
    (scanRun (.ofOctets (encode t.raw.toList))).outcome = .ok t.alone ↔
      (t.kind = .name → ∀ c ∈ t.raw.toList.head?, isLetter c = true) := by
  obtain ⟨hkind, hword⟩ := h
  obtain ⟨c, cs, htext⟩ : ∃ c cs, t.raw.toList = c :: cs := by
    refine List.exists_cons_of_ne_nil fun hnil => hempty ?_
    have hraw : t.raw = "" := String.toList_inj.mp hnil
    rw [hraw] at hkind
    exact ⟨hkind, hraw⟩
  rw [htext] at hword
  obtain ⟨hc, hcs⟩ := List.forall_mem_cons.mp hword
  by_cases hletter : isLetter c = true
  · have hspells : Spells t.raw.toList t.kind t.raw.toList := by
      rw [hkind, ← String.ofList_toList (s := t.raw), String.toList_ofList, htext]
      exact .word hletter hcs
    exact iff_of_true hspells.outcome_scanRun_raw hspells.isLetter_head
  · -- a word that begins with no letter is a name, and no name outside of templates begins so
    have hname : t.kind = .name := by
      by_contra hne
      obtain ⟨d, ds, hd, hdletter⟩ := isLetter_head_of_ofWord_ne_name (hkind ▸ hne)
      obtain ⟨rfl, -⟩ := List.cons.inj (htext.symm.trans hd)
      exact hletter hdletter
    refine iff_of_false (fun hrun => hletter ?_) fun h => hletter (h hname c (by rw [htext]; rfl))
    rw [htext] at hrun
    exact isLetter_of_outcome_scanRun hrun hname hc

/-- **Scanning the text of a token.** The text of a token that is no string, no boundary of a
template, not the end of the input and no empty name is scanned as that token alone if and only if
the token is no name or begins with a letter. -/
theorem scanRun_raw_iff {octets : List UInt8} {ts : List Token} {t : Token}
    (h : (scanRun (.ofOctets octets)).outcome = .ok ts) (ht : t ∈ ts) (hstring : t.kind ≠ .string)
    (htemplate : t.kind ≠ .template) (heof : t.kind ≠ .eof)
    (hempty : ¬(t.kind = .name ∧ t.raw = "")) :
    (scanRun (.ofOctets (encode t.raw.toList))).outcome =
        .ok [⟨t.kind, t.raw, 0, 0⟩, .atEnd (encode t.raw.toList).length 0] ↔
      (t.kind = .name → ∀ c ∈ t.raw.toList.head?, isLetter c = true) := by
  obtain ⟨us, hlexed, rfl⟩ := outcome_scanRun_eq_ok_iff.mp h
  have hmem : t ∈ us := by
    refine (List.mem_append.mp ht).resolve_right fun hend => heof ?_
    rw [List.mem_singleton.mp hend]
    rfl
  rcases spells_of_mem_lexed hlexed t hmem with h | h | hspells | hword
  · exact absurd h hstring
  · exact absurd h htemplate
  · exact iff_of_true hspells.outcome_scanRun_raw hspells.isLetter_head
  · exact hword.outcome_scanRun_iff hempty

/-- The octets of a template with a reserved word in its slot. -/
def keywordInSlot : List UInt8 := encode ['\'', '{', 'i', 'f', '}', '\'']

/-- A reserved word in a slot is scanned as itself. -/
theorem scanRun_raw_keyword :
    (scanRun (.ofOctets keywordInSlot)).outcome = .ok [⟨.template, "", 0, 0⟩, ⟨.ifWord, "if", 2, 0⟩,
        ⟨.template, "", 6, 0⟩, .atEnd 6 0] ∧
      (scanRun (.ofOctets (encode "if".toList))).outcome =
        .ok [⟨.ifWord, "if", 0, 0⟩, .atEnd 2 0] := by
  have hscan : (scanRun (.ofOctets keywordInSlot)).outcome = .ok [⟨.template, "", 0, 0⟩,
      ⟨.ifWord, "if", 2, 0⟩, ⟨.template, "", 6, 0⟩, .atEnd 6 0] := rfl
  have hmem : (⟨.ifWord, "if", 2, 0⟩ : Token) ∈ [⟨.template, "", 0, 0⟩, ⟨.ifWord, "if", 2, 0⟩,
      ⟨.template, "", 6, 0⟩, Token.atEnd 6 0] := by decide
  refine ⟨hscan, ?_⟩
  exact (scanRun_raw_iff hscan hmem (by decide) (by decide) (by decide) (by decide)).mpr (by decide)

/-- The octets of a template with a digit and a letter in its slot. -/
def digitInSlot : List UInt8 := encode ['\'', '{', '1', 'a', '}', '\'']

/-- A name in a slot that begins with a digit is scanned as a number and a name. -/
theorem scanRun_raw_digit :
    (scanRun (.ofOctets digitInSlot)).outcome = .ok [⟨.template, "", 0, 0⟩, ⟨.name, "1a", 2, 0⟩,
        ⟨.template, "", 6, 0⟩, .atEnd 6 0] ∧
      (scanRun (.ofOctets (encode "1a".toList))).outcome =
        .ok [⟨.number, "1", 0, 0⟩, ⟨.name, "a", 1, 0⟩, .atEnd 2 0] ∧
      (scanRun (.ofOctets (encode "1a".toList))).outcome ≠
        .ok [⟨.name, "1a", 0, 0⟩, .atEnd (encode "1a".toList).length 0] := by
  have hscan : (scanRun (.ofOctets (encode "1a".toList))).outcome =
      .ok [⟨.number, "1", 0, 0⟩, ⟨.name, "a", 1, 0⟩, .atEnd 2 0] := rfl
  refine ⟨rfl, hscan, ?_⟩
  rw [hscan]
  exact fun h => absurd (Except.ok.inj h) (by decide)

end Splice
