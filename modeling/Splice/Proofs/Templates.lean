import Mathlib.Data.List.Chain
import Splice.Proofs.Columns
import Splice.Proofs.Token.Spelling

/-!
# Templates

The tokens of the boundaries of templates come in pairs (`Paired`), one pair for each two quotes.
What stands between the two tokens of a pair is all of the text between the quotes but its braces:
the literal text, and one word for each opening brace (`AreParts`). The reading of lexemes carries
this from character to character (`areParts_of_interior`).
-/

namespace Splice

open Text Scan

def Kind.words : List Kind := boolean :: name :: keywords

/-- A brace; in a template neither of the two is text. -/
def isBrace (c : Char) : Bool := c == '{' || c == '}'

/-- Tokens that are the parts of a template with some text between its quotes. -/
structure AreParts (text : List Char) (parts : List Token) : Prop where
  kinds : ∀ t ∈ parts, t.kind = .string ∧ t.raw ≠ "" ∨ t.kind ∈ Kind.words
  /-- There are no two strings in a row. -/
  apart : parts.IsChain fun t u => ¬(t.kind = .string ∧ u.kind = .string)
  slots : parts.countP (·.kind ∈ Kind.words) = text.count '{'
  raws : parts.flatMap (·.raw.toList) = text.filter (!isBrace ·)

/-- The tokens of a template in octets: one at its first quote, its parts, and one after its second
quote. -/
structure IsTemplate (octets : List UInt8) (opening : Token) (parts : List Token)
    (closing : Token) : Prop where
  kinds : opening.kind = .template ∧ closing.kind = .template
  raws : opening.raw = "" ∧ closing.raw = ""
  line : ∀ t ∈ parts ++ [closing], t.line = opening.line
  exists_inner : ∃ before inner after, octets = before ++ 39 :: (inner ++ 39 :: after) ∧
    characters octets =
      characters before ++ '\'' :: (characters inner ++ '\'' :: characters after) ∧
    opening.offset = before.length ∧ opening.line = before.count 10 ∧
    closing.offset = before.length + 1 + inner.length + 1 ∧
    (∀ c ∈ characters inner, c ≠ '\'' ∧ c ≠ '\n') ∧ AreParts (characters inner) parts

/-- Tokens of octets in which the template tokens are those of templates, one pair after another. -/
inductive Paired (octets : List UInt8) : List Token → Prop where
  | nil : Paired octets []
  | other {t ts} : t.kind ≠ .template → Paired octets ts → Paired octets (t :: ts)
  | template {t parts t' ts} : IsTemplate octets t parts t' → Paired octets ts →
      Paired octets (t :: (parts ++ t' :: ts))

/-! ## Parts -/

theorem ne_of_class {p : Char → Bool} {c d : Char} (hc : p c = true) (hd : p d = false) :
    c ≠ d := by
  rintro rfl
  exact Bool.noConfusion (hc.symm.trans hd)

theorem isBrace_of_class {p : Char → Bool} {c : Char} (hc : p c = true) (hopen : p '{' = false)
    (hclose : p '}' = false) : isBrace c = false := by
  have hneOpen : c ≠ '{' := ne_of_class hc hopen
  have hneClose : c ≠ '}' := ne_of_class hc hclose
  simp [isBrace, hneOpen, hneClose]

theorem count_filter_of_isBrace {text : List Char} (h : ∀ c ∈ text, isBrace c = false) :
    text.count '{' = 0 ∧ text.filter (!isBrace ·) = text := by
  constructor
  · refine List.count_eq_zero_of_not_mem fun hmem => ?_
    exact Bool.noConfusion (h '{' hmem)
  · refine List.filter_eq_self.mpr fun c hc => ?_
    rw [h c hc]
    rfl

variable {text after word : List Char} {ts us : List Token}

/-- Literal text is one part, or none if it is empty. -/
theorem areParts_ofLiteral {text : List Located} (h : ∀ x ∈ text, isPlain x.char = true) :
    AreParts (text.reverse.map Located.char) (Token.ofLiteral text) := by
  obtain ⟨hcount, hfilter⟩ : (text.reverse.map Located.char).count '{' = 0 ∧
      (text.reverse.map Located.char).filter (!isBrace ·) = text.reverse.map Located.char := by
    apply count_filter_of_isBrace
    refine List.forall_mem_map.mpr fun x hx => ?_
    exact isBrace_of_class (h x (List.mem_reverse.mp hx)) rfl rfl
  unfold Token.ofLiteral
  split
  case h_1 hreverse =>
    rw [hreverse]
    exact ⟨List.forall_mem_nil _, .nil, rfl, rfl⟩
  case h_2 x xs hreverse =>
    rw [hreverse] at hcount hfilter ⊢
    refine ⟨List.forall_mem_singleton.mpr (.inl ⟨rfl, ?_⟩), .singleton _, ?_, ?_⟩
    · exact fun hnil => List.cons_ne_nil _ _ (String.ofList_injective hnil)
    · rw [hcount]
      rfl
    · rw [hfilter, List.flatMap_singleton]
      exact String.toList_ofList

namespace AreParts

/-- A closing brace is no part, and parts no others. -/
theorem brace (h : AreParts (text ++ after) ts) : AreParts (text ++ '}' :: after) ts where
  kinds := h.kinds
  apart := h.apart
  slots := by
    rw [h.slots, List.count_append, List.count_append, List.count_cons_of_ne (by decide)]
  raws := by
    rw [h.raws, List.filter_append, List.filter_append, List.filter_cons_of_neg (by decide)]

/-- A word in a slot is a part that does not need another one next to it. -/
theorem slot (h : AreParts text us) (hword : ∀ c ∈ word, isWord c = true)
    (h' : AreParts after ts) (start : Location) :
    AreParts (text ++ '{' :: (word ++ after)) (us ++ .ofWord word start :: ts) := by
  have hkind : (Token.ofWord word start).kind ∈ Kind.words := Kind.ofWord_mem _
  have hstring : (Token.ofWord word start).kind ≠ .string := (Kind.ofWord_ne _).1
  obtain ⟨hcount, hfilter⟩ : word.count '{' = 0 ∧ word.filter (!isBrace ·) = word := by
    apply count_filter_of_isBrace
    intro c hc
    exact isBrace_of_class (hword c hc) (by decide) (by decide)
  constructor
  · exact List.forall_mem_append.mpr ⟨h.kinds, List.forall_mem_cons.mpr ⟨.inr hkind, h'.kinds⟩⟩
  · refine List.isChain_append.mpr ⟨h.apart, List.isChain_cons.mpr ⟨?_, h'.apart⟩, ?_⟩
    · exact fun _ _ hboth => hstring hboth.1
    · rintro t - _ ⟨⟩ hboth
      exact hstring hboth.2
  · rw [List.countP_append, List.countP_cons_of_pos (by simpa using hkind), h.slots, h'.slots,
      List.count_append, List.count_cons_self, List.count_append, hcount, Nat.zero_add]
  · have hraw : (Token.ofWord word start).raw.toList = word := String.toList_ofList
    rw [List.flatMap_append, List.flatMap_cons, hraw, h.raws, h'.raws, List.filter_append,
      List.filter_cons_of_neg (by decide), List.filter_append, hfilter]

end AreParts

/-- What is between the quotes of a template is all in its parts, but for the braces. -/
theorem areParts_of_interior {text xs : List Located} {ts : List Token} (h : Interior text xs ts)
    (htext : ∀ x ∈ text, isPlain x.char = true) :
    AreParts (text.reverse.map Located.char ++ xs.map Located.char) ts := by
  induction h with
  | done =>
    rw [List.map_nil, List.append_nil]
    exact areParts_ofLiteral htext
  | plain hx _ ih => simpa using ih (List.forall_mem_cons.mpr ⟨hx, htext⟩)
  | brace hx _ ih =>
    rw [List.map_cons, hx]
    exact (ih htext).brace
  | @slot text x word xs ts hx hword _ _ ih =>
    have hafter : AreParts (xs.map Located.char) ts := ih (List.forall_mem_nil _)
    rw [List.map_cons, List.map_append, hx]
    exact (areParts_ofLiteral htext).slot (List.forall_mem_map.mpr hword) hafter _

theorem char_ne_of_interior {text xs : List Located} {ts : List Token} (h : Interior text xs ts) :
    ∀ x ∈ xs, x.char ≠ '\'' ∧ x.char ≠ '\n' := by
  induction h with
  | done => exact List.forall_mem_nil _
  | plain hx _ ih => exact List.forall_mem_cons.mpr ⟨⟨ne_of_class hx rfl, ne_of_class hx rfl⟩, ih⟩
  | brace hx _ ih =>
    refine List.forall_mem_cons.mpr ⟨?_, ih⟩
    rw [hx]
    decide
  | slot hx hword _ _ ih =>
    refine List.forall_mem_cons.mpr ⟨?_, List.forall_mem_append.mpr ⟨?_, ih⟩⟩
    · rw [hx]
      decide
    · intro y hy
      have hyword := hword y hy
      exact ⟨ne_of_class hyword (by decide), ne_of_class hyword (by decide)⟩

/-! ## Places -/

/-- Characters without a line feed are on one line, as is the location after them. -/
theorem line_of_locate {l : Location} {ps : List Piece}
    (h : ∀ x ∈ locate l ps, x.char ≠ '\n') :
    (∀ x ∈ locate l ps, x.place.line = l.line) ∧ (l.read ps).line = l.line := by
  induction ps generalizing l with
  | nil => exact ⟨List.forall_mem_nil _, rfl⟩
  | cons p ps ih =>
    obtain ⟨hp, hps⟩ := List.forall_mem_cons.mp h
    obtain ⟨hline, hread⟩ := ih hps
    have hafter : (l.after p).line = l.line := by
      rw [Location.after, if_neg hp]
    rw [hafter] at hline hread
    exact ⟨List.forall_mem_cons.mpr ⟨rfl, hline⟩, hread⟩

theorem octets_of_quote {p : Piece} (h : p.char = '\'') : p.octets = [39] := by
  cases p with
  | encoded c =>
    obtain rfl : c = '\'' := h
    rfl
  | malformed octets =>
    change '\uFFFD' = '\'' at h
    exact absurd h (by decide)

/-- A piece that is a quote, and one that is after it somewhere, cut octets. -/
theorem exists_octets_of_quotes {octets : List UInt8} {ps qs rs : List Piece} {p q : Piece}
    (hp : p.char = '\'') (hq : q.char = '\'') (h : decode octets = ps ++ p :: (qs ++ q :: rs)) :
    ∃ before inner after, octets = before ++ 39 :: (inner ++ 39 :: after) ∧ decode before = ps ∧
      decode inner = qs ∧ decode after = rs := by
  have hquote {p : Piece} {cs : List UInt8} (hp : p.char = '\'') (h : decode cs = [p]) :
      cs = [39] := by
    rw [← flatMap_octets_decode cs, h, List.flatMap_singleton, octets_of_quote hp]
  obtain ⟨before, rest, rfl, hbefore, hrest⟩ := decode_eq_append h
  obtain ⟨first, rest, rfl, hfirst, hrest⟩ := @decode_eq_append _ [p] _ hrest
  obtain ⟨inner, rest, rfl, hinner, hrest⟩ := decode_eq_append hrest
  obtain ⟨second, after, rfl, hsecond, hafter⟩ := @decode_eq_append _ [q] _ hrest
  obtain rfl := hquote hp hfirst
  obtain rfl := hquote hq hsecond
  exact ⟨before, inner, after, rfl, hbefore, hinner, hafter⟩

/-- What is after a piece that is no line feed keeps the line feed at the end. -/
theorem exists_eq_concat_newline {ps before after : List Piece} {p : Piece} (hp : p.char ≠ '\n')
    (h : ps ++ [.encoded '\n'] = before ++ p :: after) : ∃ rest, ps = before ++ p :: rest := by
  rcases List.eq_nil_or_concat' after with rfl | ⟨rest, r, rfl⟩
  · obtain ⟨-, hlast⟩ := List.append_inj' h rfl
    obtain rfl : .encoded '\n' = p := (List.cons.inj hlast).1
    exact absurd rfl hp
  · rw [← List.cons_append, ← List.append_assoc] at h
    exact ⟨rest, (List.append_inj' h rfl).1⟩

/-- Two quotes among the characters of a source, in its octets. -/
theorem exists_octets_of_terminated {octets : List UInt8} {before body after : List Located}
    {x y : Located} (hx : x.char = '\'') (hy : y.char = '\'')
    (h : (Source.ofOctets octets).terminated = before ++ x :: (body ++ y :: after)) :
    ∃ front inner back, octets = front ++ 39 :: (inner ++ 39 :: back) ∧
      characters octets =
        characters front ++ '\'' :: (characters inner ++ '\'' :: characters back) ∧
      x.place = Location.origin.read (decode front) ∧
      body = locate x.place.next (decode inner) ∧ y.place = x.place.next.read (decode inner) := by
  have hlocate : locate .origin (decode octets ++ [.encoded '\n']) =
      before ++ x :: (body ++ y :: after) := by
    rw [← h, locate_append]
    rfl
  obtain ⟨ps, p, rest, hpieces, -, rfl, hrest⟩ := exists_pieces_of_locate_eq hlocate
  obtain ⟨qs, q, rs, rfl, rfl, rfl, -⟩ := exists_pieces_of_locate_eq hrest.symm
  change p.char = '\'' at hx
  change q.char = '\'' at hy
  have hq : q.char ≠ '\n' := by
    rw [hy]
    decide
  obtain ⟨rs, hdecode⟩ : ∃ rs', decode octets = ps ++ p :: (qs ++ q :: rs') := by
    rw [← List.cons_append, ← List.append_assoc] at hpieces
    obtain ⟨rs', hrs⟩ := exists_eq_concat_newline hq hpieces
    exact ⟨rs', by rw [hrs, List.append_assoc, List.cons_append]⟩
  obtain ⟨front, inner, back, rfl, rfl, rfl, rfl⟩ := exists_octets_of_quotes hx hy hdecode
  have hnext := Location.next_eq_after (.inr hx) (Location.origin.read (decode front))
  refine ⟨front, inner, back, rfl, ?_, rfl, by rw [hnext], by rw [hnext]⟩
  rw [characters, hdecode]
  simp [characters, hx, hy]

theorem isTemplate_of_interior {octets : List UInt8} {before body after : List Located}
    {x y : Located} (h : (Source.ofOctets octets).terminated = before ++ x :: (body ++ y :: after))
    (hx : x.char = '\'') (hbody : Interior [] body us) (hy : y.char = '\'') :
    IsTemplate octets (.of .template [] x.place) us (.of .template [] y.place.next) := by
  obtain ⟨front, inner, back, hoctets, htext, hopening, rfl, hclosing⟩ :=
    exists_octets_of_terminated hx hy h
  have hchars : (locate x.place.next (decode inner)).map Located.char = characters inner :=
    map_char_locate _ _
  have hparts := areParts_of_interior hbody (List.forall_mem_nil _)
  have hne := char_ne_of_interior hbody
  obtain ⟨hline, hread⟩ := line_of_locate fun x hx => (hne x hx).2
  have hplace := hopening.trans (Location.read_decode front)
  have hoffset : y.place.offset = front.length + 1 + inner.length := by
    rw [hclosing, Location.offset_read, flatMap_octets_decode, hplace]
    rfl
  rw [hchars] at hparts
  constructor
  · exact ⟨rfl, rfl⟩
  · exact ⟨rfl, rfl⟩
  · refine List.forall_mem_append.mpr ⟨fun t ht => ?_, List.forall_mem_singleton.mpr ?_⟩
    · obtain ⟨z, hz, hbegins | ⟨-, hbegins⟩⟩ := isPlacedIn_of_mem_interior hbody t ht
      all_goals exact hbegins.2.trans (hline z hz)
    · exact (congrArg Location.line hclosing).trans hread
  · refine ⟨front, inner, back, hoctets, htext, congrArg Location.offset hplace,
      congrArg Location.line hplace, congrArg (· + 1) hoffset, ?_, hparts⟩
    rw [← hchars]
    exact List.forall_mem_map.mpr hne

theorem paired_of_lexed {octets : List UInt8} {xs : List Located} (h : Lexed xs ts)
    (before : List Located) (hxs : (Source.ofOctets octets).terminated = before ++ xs) :
    Paired octets ts := by
  induction h generalizing before with
  | nil => exact .nil
  | @blank x xs ts _ _ ih => exact ih (before ++ [x]) (by simp [hxs])
  | @comment x y body z xs ts _ _ _ _ _ ih =>
    exact ih (before ++ x :: y :: (body ++ [z])) (by simp [hxs])
  | @mark x kind xs ts hx _ ih =>
    exact .other (Kind.ne_of_ofChar? hx).2.1 (ih (before ++ [x]) (by simp [hxs]))
  | @plus x y xs ts _ _ _ ih =>
    exact .other (by simp [Token.of]) (ih (before ++ [x]) (by simp [hxs]))
  | @merge x y xs ts _ _ _ ih =>
    exact .other (by simp [Token.of]) (ih (before ++ [x, y]) (by simp [hxs]))
  | @string x body y xs ts _ _ _ _ ih =>
    exact .other (by simp [Token.of]) (ih (before ++ x :: (body ++ [y])) (by simp [hxs]))
  | @word x body y xs ts _ _ _ _ ih =>
    exact .other (Kind.ofWord_ne _).2.1 (ih (before ++ x :: body) (by simp [hxs]))
  | @number x body y xs ts _ _ _ _ ih =>
    exact .other (by simp [Token.of]) (ih (before ++ x :: body) (by simp [hxs]))
  | @template x body us y xs ts hx hbody hy _ ih =>
    exact .template (isTemplate_of_interior hxs hx hbody hy)
      (ih (before ++ x :: (body ++ [y])) (by simp [hxs]))

/-- One more token that is not of a template. -/
theorem Paired.concat {octets : List UInt8} (h : Paired octets ts) {t : Token}
    (ht : t.kind ≠ .template) : Paired octets (ts ++ [t]) := by
  induction h with
  | nil => exact .other ht .nil
  | other hu _ ih => exact .other hu ih
  | template htemplate _ ih => simpa using Paired.template htemplate ih

/-- **Templates.** In the tokens of octets that are scanned without problems, the template tokens
come in pairs, one for the two quotes of a template. On the line of the first, and between the two,
are literal texts that are not empty, no two in a row, and words, one for each opening brace between
the quotes; all their characters, in order, are the text between the quotes without its braces. -/
theorem paired_of_outcome_scanRun {octets : List UInt8} {tokens : List Token}
    (h : (scanRun (.ofOctets octets)).outcome = .ok tokens) : Paired octets tokens := by
  obtain ⟨ts, hlexed, rfl⟩ := outcome_scanRun_eq_ok_iff.mp h
  have hpaired : Paired octets ts := paired_of_lexed hlexed [] rfl
  exact hpaired.concat (by simp [Token.atEnd])

/-- A template below a bracket, with an unmatched brace in its literal text and an empty slot at its
end. -/
def bracesOctets : List UInt8 :=
  encode ['[', '\n', '\'', 'a', '}', 'é', '{', 'i', 'f', '}', '{', '\'', ']']

def bracesTokens : List Token :=
  [⟨.openBracket, "[", 0, 0⟩, ⟨.template, "", 2, 1⟩, ⟨.string, "aé", 3, 1⟩, ⟨.ifWord, "if", 8, 1⟩,
    ⟨.name, "", 12, 1⟩, ⟨.template, "", 13, 1⟩, ⟨.closeBracket, "]", 13, 1⟩, .atEnd 14 1]

/-- The tokens of its two quotes are a pair. -/
theorem paired_bracesTokens : (scanRun (.ofOctets bracesOctets)).outcome = .ok bracesTokens ∧
    Paired bracesOctets bracesTokens := by
  have hok : (scanRun (.ofOctets bracesOctets)).outcome = .ok bracesTokens := rfl
  exact ⟨hok, paired_of_outcome_scanRun hok⟩

end Splice
