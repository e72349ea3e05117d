import Splice.Proofs.Columns
import Splice.Proofs.Passes
import Splice.Proofs.Token.Tiling

/-!
# Streams of tokens

Every pass gives tokens that end with the end of the input (`Reader.exists_tokens`). The tokens of
lexemes are in the order of their offsets (`inOrder_lexed`). If the source is well-formed, they are
spelled where they say they are, one after another, and outside of templates there are only blanks
and comments between them (`isFaithful_of_tiled`).
-/

namespace Splice

open Text Scan

/-! ## Ends -/

theorem Kind.ofChar?_ne_unknown {c : Char} {kind : Kind} (h : ofChar? c = some kind) :
    kind ≠ .unknown := by
  unfold ofChar? at h
  split at h
  case h_14 => cases h
  all_goals
    cases h
    decide

theorem Kind.ofWord_ne_unknown (s : String) : ofWord s ≠ .unknown := by
  have hall : ∀ kind ∈ boolean :: name :: keywords, kind ≠ .unknown := by decide
  exact hall _ (ofWord_mem s)

variable {text xs ys : List Located} {ts us : List Token}

theorem kind_ne_unknown_of_interior (h : Interior text xs ts) : ∀ t ∈ ts, t.kind ≠ .unknown := by
  have hliteral (text : List Located) : ∀ t ∈ Token.ofLiteral text, t.kind ≠ .unknown := by
    intro t ht
    rw [kind_of_mem_ofLiteral ht]
    decide
  induction h with
  | done => exact hliteral _
  | plain _ _ ih | brace _ _ ih => exact ih
  | slot _ _ _ _ ih =>
    exact List.forall_mem_append.mpr
      ⟨hliteral _, List.forall_mem_cons.mpr ⟨Kind.ofWord_ne_unknown _, ih⟩⟩

theorem kind_ne_unknown_of_lexed (h : Lexed xs ts) : ∀ t ∈ ts, t.kind ≠ .unknown := by
  induction h with
  | nil => exact List.forall_mem_nil _
  | blank _ _ ih | comment _ _ _ _ _ ih => exact ih
  | mark hx _ ih => exact List.forall_mem_cons.mpr ⟨Kind.ofChar?_ne_unknown hx, ih⟩
  | plus _ _ _ ih | merge _ _ _ ih | string _ _ _ _ ih | number _ _ _ _ ih =>
    exact List.forall_mem_cons.mpr ⟨by simp [Token.of], ih⟩
  | word _ _ _ _ ih => exact List.forall_mem_cons.mpr ⟨Kind.ofWord_ne_unknown _, ih⟩
  | template _ hbody _ _ ih =>
    refine List.forall_mem_cons.mpr ⟨by simp [Token.of], List.forall_mem_append.mpr
      ⟨kind_ne_unknown_of_interior hbody, ?_⟩⟩
    exact List.forall_mem_cons.mpr ⟨by simp [Token.of], ih⟩

namespace Reader

variable {r : Reader}

/-- A pass without failure gives the tokens of the lexemes ahead, and the end of the input. -/
theorem exists_lexed (h : r.next.failed = false) : ∃ ts, Lexed r.ahead ts ∧
    r.tokens = ts ++ [.atEnd r.source.stop.offset r.source.stop.line] ∧
      r.next = ⟨r.source, r.source.stop, false⟩ := by
  obtain ⟨-, hproblems⟩ : r.failed = false ∧ r.pass.problems = [] := by
    simpa [next] using h
  obtain ⟨ts, hpass⟩ := Pass.exists_ofChars_eq hproblems
  refine ⟨ts, Pass.ofChars_eq_iff_lexed.mp hpass, ?_, ?_⟩
  · rw [tokens, h, pass, hpass]
    rfl
  · have hended : r.pass.ended = r.source.stop := congrArg Pass.ended hpass
    rw [← h, ← hended]
    rfl

/-- A pass gives lexemes and the end of the input; after a failure, only the end of the input. -/
theorem exists_tokens (r : Reader) : ∃ ts last, r.tokens = ts ++ [last] ∧ last.kind = .eof ∧
    (∀ t ∈ ts, t.kind ≠ .eof ∧ t.kind ≠ .unknown) ∧ (r.next.failed = true → ts = []) := by
  cases hfailed : r.next.failed with
  | true => exact ⟨[], _, if_pos hfailed, rfl, List.forall_mem_nil _, fun _ => rfl⟩
  | false =>
    obtain ⟨ts, hlexed, htokens, -⟩ := exists_lexed hfailed
    refine ⟨ts, _, htokens, rfl, fun t ht => ?_, fun h => absurd h Bool.false_ne_true⟩
    exact ⟨kind_ne_eof_of_lexed hlexed t ht, kind_ne_unknown_of_lexed hlexed t ht⟩

theorem source_after (r : Reader) (n : Nat) : (r.after n).source = r.source := by
  induction n with
  | zero => rfl
  | succ n ih => exact ih

/-- As long as nothing fails, the first pass gives the tokens of the source, and the passes after it
begin at the end of the input and give only that. -/
theorem exists_lexed_after {octets : List UInt8} {n : Nat}
    (h : ((ofSource (.ofOctets octets)).after n).next.failed = false) : ∃ ts,
      ((ofSource (.ofOctets octets)).after n).tokens =
        ts ++ [.atEnd octets.length (octets.count 10)] ∧
      (((ofSource (.ofOctets octets)).after n).place.offset = 0 ∧
          Lexed (Source.ofOctets octets).terminated ts ∨
        ((ofSource (.ofOctets octets)).after n).place.offset = octets.length ∧ ts = []) := by
  obtain ⟨ts, hlexed, htokens, -⟩ := exists_lexed h
  rw [source_after] at htokens
  refine ⟨ts, htokens.trans (by rw [ofSource, Source.stop_ofOctets]), ?_⟩
  cases n with
  | zero =>
    rw [after, ahead_ofSource] at hlexed
    exact .inl ⟨rfl, hlexed⟩
  | succ n =>
    have hbefore : ((ofSource (.ofOctets octets)).after n).next.failed = false :=
      (Bool.or_eq_false_iff.mp h).1
    obtain ⟨-, -, -, hnext⟩ := exists_lexed hbefore
    rw [after, hnext, source_after, ofSource] at hlexed
    have hahead : (Reader.mk (.ofOctets octets) (Source.ofOctets octets).stop false).ahead =
        [] ++ [⟨'\n', (Source.ofOctets octets).stop⟩] :=
      @ahead_eq octets _ [] ⟨'\n', (Source.ofOctets octets).stop⟩ rfl false
    rw [hahead] at hlexed
    have hpass := congrArg Pass.scanned (Pass.ofChars_eq_iff_lexed.mpr hlexed)
    refine .inr ⟨?_, (List.append_cancel_right hpass).symm⟩
    rw [after, hnext, source_after, ofSource, Source.stop_ofOctets]

end Reader

/-! ## Order -/

def InOrder (ts : List Token) : Prop := ts.Pairwise fun t u => t.offset ≤ u.offset

def Ascending (xs : List Located) : Prop :=
  xs.Pairwise fun x y => x.place.offset < y.place.offset

theorem Token.IsPlacedIn.offset_le {t : Token} {offset : Nat} (h : t.IsPlacedIn xs)
    (hxs : ∀ x ∈ xs, x.place.offset < offset) : t.offset ≤ offset := by
  obtain ⟨x, hx, hplace | ⟨-, hplace⟩⟩ := h
  · rw [hplace.1]
    exact Nat.le_of_lt (hxs x hx)
  · rw [hplace.1]
    exact hxs x hx

theorem Token.IsPlacedIn.le_offset {t : Token} {offset : Nat} (h : t.IsPlacedIn xs)
    (hxs : ∀ x ∈ xs, offset ≤ x.place.offset) : offset ≤ t.offset := by
  obtain ⟨x, hx, hplace | ⟨-, hplace⟩⟩ := h
  · rw [hplace.1]
    exact hxs x hx
  · rw [hplace.1]
    exact Nat.le_succ_of_le (hxs x hx)

/-- Tokens of some characters, and then those of others after them. -/
theorem InOrder.append (hplaces : Ascending (xs ++ ys)) (hts : InOrder ts) (hus : InOrder us)
    (hxs : ∀ t ∈ ts, t.IsPlacedIn xs) (hys : ∀ u ∈ us, u.IsPlacedIn ys) : InOrder (ts ++ us) := by
  obtain ⟨-, hbetween, hacross⟩ := List.pairwise_append.mp hplaces
  refine List.pairwise_append.mpr ⟨hts, hus, ?_⟩
  intro t ht u hu
  cases ys with
  | nil =>
    obtain ⟨y, hy, -⟩ := hys u hu
    exact absurd hy List.not_mem_nil
  | cons y ys =>
    have hfirst : t.offset ≤ y.place.offset :=
      (hxs t ht).offset_le fun x hx => hacross x hx y List.mem_cons_self
    refine Nat.le_trans hfirst ((hys u hu).le_offset ?_)
    refine List.forall_mem_cons.mpr ⟨Nat.le_refl _, fun z hz => ?_⟩
    exact Nat.le_of_lt ((List.pairwise_cons.mp hbetween).1 z hz)

theorem inOrder_ofLiteral (text : List Located) : InOrder (Token.ofLiteral text) := by
  unfold Token.ofLiteral
  split
  case h_1 => exact .nil
  case h_2 => exact List.pairwise_singleton _ _

theorem inOrder_interior (h : Interior text xs ts) (hplaces : Ascending (text.reverse ++ xs)) :
    InOrder ts := by
  induction h with
  | done => exact inOrder_ofLiteral _
  | plain _ _ ih =>
    apply ih
    rwa [List.reverse_cons, List.append_assoc]
  | brace _ _ ih =>
    exact ih (hplaces.sublist ((List.sublist_cons_self _ _).append_left _))
  | @slot text x word xs ts hx _ _ hinterior ih =>
    have hown : Ascending ([x] ++ (word ++ xs)) := (List.pairwise_append.mp hplaces).2.1
    have hrest : Ascending xs :=
      hown.sublist ((List.sublist_append_right _ _).trans (List.sublist_append_right _ _))
    have hword := isPlacedIn_next (.ofWord (String.ofList (word.map Located.char)))
      (word.map Located.char) (List.mem_singleton_self x) (.inl hx)
    have hinner : ∀ t ∈ ts, t.IsPlacedIn (word ++ xs) :=
      fun t ht => (isPlacedIn_of_mem_interior hinterior t ht).append_left word
    have hliteral : ∀ t ∈ Token.ofLiteral text, t.IsPlacedIn text.reverse :=
      fun t ht => (isPlacedIn_of_mem_ofLiteral ht).mono fun x => List.mem_reverse.mpr
    have htail := InOrder.append hown (List.pairwise_singleton _ _) (ih hrest)
      (List.forall_mem_singleton.mpr hword) hinner
    refine .append hplaces (inOrder_ofLiteral text) htail hliteral ?_
    exact List.forall_mem_cons.mpr
      ⟨hword.append_right (word ++ xs), fun t ht => (hinner t ht).append_left [x]⟩

/-- A token in the first characters, and the tokens of the lexemes after them. -/
theorem InOrder.cons {t : Token} (hplaces : Ascending (xs ++ ys)) (ht : t.IsPlacedIn xs)
    (hys : Lexed ys us) (hus : Ascending ys → InOrder us) : InOrder (t :: us) :=
  .append hplaces (List.pairwise_singleton _ _) (hus (List.pairwise_append.mp hplaces).2.1)
    (List.forall_mem_singleton.mpr ht) (isPlacedIn_of_mem_lexed hys)

theorem inOrder_lexed (h : Lexed xs ts) (hplaces : Ascending xs) : InOrder ts := by
  have hfirst (kind : Kind) (text : List Char) (x : Located) :
      (Token.of kind text x.place).IsPlacedIn [x] :=
    isPlacedIn_of kind text (List.mem_singleton_self x)
  induction h with
  | nil => exact .nil
  | blank _ _ ih => exact ih (List.pairwise_cons.mp hplaces).2
  | comment _ _ _ _ _ ih =>
    rw [← List.cons_append, ← List.cons_append, List.append_cons] at hplaces
    exact ih (List.pairwise_append.mp hplaces).2.1
  | @mark x kind xs ts _ h ih =>
    have hplaces : Ascending ([x] ++ xs) := hplaces
    exact .cons hplaces (hfirst _ _ x) h ih
  | @plus x y xs ts _ _ h ih =>
    have hplaces : Ascending ([x] ++ y :: xs) := hplaces
    exact .cons hplaces (hfirst _ _ x) h ih
  | @merge x y xs ts _ _ h ih =>
    have hplaces : Ascending ([x, y] ++ xs) := hplaces
    exact .cons hplaces ((hfirst _ _ x).append_right [y]) h ih
  | @string x body y xs ts _ _ _ h ih =>
    rw [List.append_cons, ← List.cons_append] at hplaces
    exact .cons hplaces ((hfirst _ _ x).append_right (body ++ [y])) h ih
  | @word x body y xs ts _ _ _ h ih | @number x body y xs ts _ _ _ h ih =>
    rw [← List.cons_append] at hplaces
    exact .cons hplaces ((hfirst _ _ x).append_right body) h ih
  | @template x body us y xs ts _ hbody hy h ih =>
    have hplaces : Ascending ([x] ++ (body ++ ([y] ++ xs))) := hplaces
    have hbetween : Ascending (body ++ ([y] ++ xs)) := (List.pairwise_append.mp hplaces).2.1
    obtain ⟨hinner, hclose, -⟩ := List.pairwise_append.mp hbetween
    have hquote := isPlacedIn_next .template [] (List.mem_singleton_self y) (.inr hy)
    have hafter : InOrder (.of .template [] y.place.next :: ts) := .cons hclose hquote h ih
    have hafterPlaced : ∀ t ∈ .of .template [] y.place.next :: ts, t.IsPlacedIn ([y] ++ xs) :=
      List.forall_mem_cons.mpr ⟨hquote.append_right xs,
        fun t ht => (isPlacedIn_of_mem_lexed h t ht).append_left [y]⟩
    have hinnerPlaced : ∀ t ∈ us, t.IsPlacedIn body := isPlacedIn_of_mem_interior hbody
    have htail := InOrder.append hbetween (inOrder_interior hbody hinner) hafter hinnerPlaced
      hafterPlaced
    refine .append hplaces (List.pairwise_singleton _ _) htail
      (List.forall_mem_singleton.mpr (hfirst _ _ x)) ?_
    exact List.forall_mem_append.mpr
      ⟨fun t ht => (hinnerPlaced t ht).append_right _,
        fun t ht => (hafterPlaced t ht).append_left body⟩

/-! ## Octets -/

theorem encode_append (cs ds : List Char) : encode (cs ++ ds) = encode cs ++ encode ds :=
  List.flatMap_append

theorem length_encode (cs : List Char) : (encode cs).length = utf8Length cs := by
  induction cs with
  | nil => rfl
  | cons c cs ih =>
    have hc : (String.utf8EncodeChar c).length = c.utf8Size := Piece.length_octets (.encoded c)
    rw [encode, List.flatMap_cons, List.length_append, hc, ← encode, ih, utf8Length]

theorem encode_characters {octets : List UInt8} (h : isWellFormed octets = true) :
    encode (characters octets) = octets := by
  have hencoded : ∀ p ∈ decode octets, String.utf8EncodeChar p.char = p.octets := by
    intro p hp
    have hp := List.all_eq_true.mp h p hp
    cases p with
    | encoded c => rfl
    | malformed octets => cases hp
  rw [encode, characters, List.flatMap_map]
  exact (List.flatMap_congr hencoded).trans (flatMap_octets_decode octets)

theorem drop_encode (before after : List Char) :
    (encode (before ++ after)).drop (utf8Length before) = encode after := by
  rw [encode_append, ← length_encode, List.drop_left]

theorem encode_isPrefix {cs ds : List Char} (h : cs <+: ds) : encode cs <+: encode ds := by
  obtain ⟨rest, rfl⟩ := h
  rw [encode_append]
  exact List.prefix_append _ _

/-! ## Encoded texts -/

theorem locate_encoded_append (l : Location) (text text' : List Char) :
    locate l ((text ++ text').map .encoded) =
      locate l (text.map .encoded) ++ locate (l.read (text.map .encoded)) (text'.map .encoded) := by
  rw [List.map_append, locate_append]
  rfl

theorem map_char_locate_encoded (l : Location) (text : List Char) :
    (locate l (text.map .encoded)).map Located.char = text := by
  rw [map_char_locate, List.map_map]
  exact List.map_id text

theorem Location.offset_read_encoded (l : Location) (text : List Char) :
    (l.read (text.map .encoded)).offset = l.offset + utf8Length text := by
  rw [offset_read, List.flatMap_map, ← length_encode]
  rfl

theorem Location.line_read_encoded (l : Location) (text : List Char) :
    (l.read (text.map .encoded)).line = l.line + text.count '\n' := by
  rw [line_read, List.map_map]
  exact congrArg (l.line + List.count '\n' ·) (List.map_id text)

theorem terminated_of_isWellFormed {octets : List UInt8} (h : isWellFormed octets = true) :
    (Source.ofOctets octets).terminated =
      locate .origin ((characters octets ++ ['\n']).map .encoded) := by
  have hencode : octets ++ [10] = encode (characters octets ++ ['\n']) := by
    rw [encode_append, encode_characters h]
    rfl
  rw [Source.terminated_ofOctets, hencode, decode_encode]

theorem length_of_isWellFormed {octets : List UInt8} (h : isWellFormed octets = true) :
    octets.length = utf8Length (characters octets) := by
  conv_lhs => rw [← encode_characters h]
  exact length_encode _

/-! ## Where characters begin -/

/-- An offset at which a character of a source begins. -/
def StartsAt (octets : List UInt8) (offset : Nat) : Prop :=
  ∃ x ∈ (Source.ofOctets octets).located, x.place.offset = offset

/-- After octets that decode by themselves is a character, or nothing. -/
theorem startsAt_or_eq {before after : List UInt8}
    (h : decode (before ++ after) = decode before ++ decode after) :
    StartsAt (before ++ after) before.length ∨ before.length = (before ++ after).length := by
  cases hafter : decode after with
  | nil =>
    have hnil : after = [] := by
      rw [← flatMap_octets_decode after, hafter]
      rfl
    rw [hnil, List.append_nil]
    exact .inr rfl
  | cons p ps =>
    refine .inl ⟨⟨p.char, Location.origin.read (decode before)⟩, ?_, ?_⟩
    · rw [Source.located, Source.ofOctets, h, hafter, locate_append]
      exact List.mem_append_right _ List.mem_cons_self
    · rw [Location.read_decode]

/-! ## Tokens and octets -/

/-- From an offset of a source there are blanks and comments up to a token; the end of the input
ends a comment. -/
def Token.FollowsGap (octets : List UInt8) (start : Nat) (t : Token) : Prop :=
  ∃ gap, (octets.drop start).take (t.offset - start) = encode gap ∧
    LaidOut [] (gap ++ if t.kind = .eof then ['\n'] else [])

/-- What the octets of a source are where a token is, after some tokens and before others. -/
structure Token.IsFaithful (octets : List UInt8) (before : List Token) (t : Token)
    (after : List Token) : Prop where
  /-- A token that is no string has its text there. -/
  raw : t.kind ≠ .string → encode t.raw.toList <+: octets.drop t.offset
  /-- A string outside of templates has its text there between quotes. -/
  quoted : t.kind = .string → insideAfter false before = false →
    encode ('"' :: (t.raw.toList ++ ['"'])) <+: octets.drop t.offset
  /-- Literal text has its text there, apart from closing braces. -/
  literal : t.kind = .string → insideAfter false before = true →
    t.raw.toList <+: (characters (octets.drop t.offset)).filter (· != '}')
  /-- The next token is not before the end of this one. -/
  next : ∀ u ∈ after.head?,
    t.offset + utf8Length (t.spellingIn (insideAfter false before)) ≤ u.offset
  /-- Outside of templates there are only blanks and comments between this token and the next. -/
  gap : insideAfter false (before ++ [t]) = false → ∀ u ∈ after.head?,
    u.FollowsGap octets (t.offset + utf8Length (t.spellingIn (insideAfter false before)))

/-- Outside of templates the first token of a tiling follows a gap. -/
theorem followsGap_of_tiled {earlier rest : List Char} {t : Token}
    (h : Tiled false (utf8Length earlier) rest (t :: ts)) :
    t.FollowsGap (encode (earlier ++ rest)) (utf8Length earlier) := by
  obtain ⟨gap, rest, rfl, ht, hlaid⟩ := h.exists_gap
  refine ⟨gap, ?_, hlaid⟩
  rw [ht, Nat.add_sub_cancel_left, drop_encode, encode_append, ← length_encode, List.take_left]

theorem isFaithful_of_tiled {text : List Char} {before after : List Token} {t : Token}
    (h : Tiled false 0 text (before ++ t :: after)) : t.IsFaithful (encode text) before after := by
  obtain ⟨earlier, rest, rfl, hrest⟩ := h.exists_rest
  obtain ⟨skipped, own, others, rfl, hoffset, hspelled, hothers⟩ := hrest.exists_spelled
  rw [Nat.zero_add, ← utf8Length_append] at hoffset
  have hdrop : (encode (earlier ++ (skipped ++ (own ++ others)))).drop t.offset =
      encode (own ++ others) := by
    rw [hoffset, ← List.append_assoc, drop_encode]
  constructor
  case raw =>
    intro hk
    rw [hdrop]
    exact encode_isPrefix ((hspelled.raw_isPrefix hk).trans (List.prefix_append _ _))
  case quoted =>
    intro hk hinside
    rw [hinside] at hspelled
    rw [hdrop, ← hspelled.eq_quoted hk]
    exact encode_isPrefix (List.prefix_append _ _)
  case literal =>
    intro hk hinside
    rw [hinside] at hspelled
    rw [hdrop, characters_encode, List.filter_append, ← hspelled.raw_eq_filter hk]
    exact List.prefix_append _ _
  case next =>
    intro u hu
    obtain ⟨after, rfl⟩ := List.head?_eq_some_iff.mp hu
    have hle := (hothers (List.cons_ne_nil _ _)).offset_le
    have hlength := hspelled.utf8Length_le
    omega
  case gap =>
    intro houtside u hu
    obtain ⟨after, rfl⟩ := List.head?_eq_some_iff.mp hu
    have hinside : (insideAfter false before ^^ (t.kind == .template)) = false := by
      rwa [insideAfter_append] at houtside
    have hnext := hothers (List.cons_ne_nil _ _)
    rw [hinside, hoffset, ← utf8Length_append] at hnext
    rw [← hspelled.eq_spellingIn hinside, hoffset, ← utf8Length_append]
    simpa using followsGap_of_tiled hnext

theorem tiled_of_lexed {octets : List UInt8} (h : Lexed (Source.ofOctets octets).terminated ts)
    (hwell : isWellFormed octets = true) :
    Tiled false 0 (characters octets) (ts ++ [.atEnd octets.length (octets.count 10)]) := by
  have hterminated := terminated_of_isWellFormed hwell
  have hplaces : Consecutive 0 (Source.ofOctets octets).terminated :=
    hterminated ▸ consecutive_locate .origin _
  have htext : (Source.ofOctets octets).terminated.map Located.char =
      characters octets ++ ['\n'] := by
    rw [hterminated, map_char_locate_encoded]
  have hlength := length_of_isWellFormed hwell
  exact h.tiles rfl rfl 0 _ hplaces htext (hlength.trans (Nat.zero_add _).symm)

/-! ## Tokens of a source -/

/-- What tokens say about the octets that they are read from, by a pass that begins at an offset. -/
structure AreRead (octets : List UInt8) (begin : Nat) (ts : List Token) : Prop where
  order : InOrder ts
  start : ∀ t ∈ ts, StartsAt octets t.offset ∨ t.offset = octets.length
  line : ∀ t ∈ ts, t.line = (t.octetsBefore octets).count 10
  stop : ∀ t ∈ ts, t.kind = .eof → t.offset = octets.length
  /-- There are only blanks and comments before the first token. -/
  first : isWellFormed octets = true → ∀ t ∈ ts.head?, t.FollowsGap octets begin
  faithful : isWellFormed octets = true → ∀ before t after, ts = before ++ t :: after →
    t.IsFaithful octets before after

theorem areRead_of_lexed {octets : List UInt8}
    (h : Lexed (Source.ofOctets octets).terminated ts) :
    AreRead octets 0 (ts ++ [.atEnd octets.length (octets.count 10)]) := by
  have hplace := exists_octets_of_lexed h
  constructor
  case order =>
    refine List.pairwise_append.mpr ⟨inOrder_lexed h (Source.pairwise_terminated octets),
      List.pairwise_singleton _ _, ?_⟩
    intro t ht last hlast
    obtain ⟨before, after, rfl, hoffset, -⟩ := hplace t (List.mem_append_left _ ht)
    rw [List.mem_singleton.mp hlast, hoffset]
    exact (List.prefix_append before after).length_le
  case start =>
    intro t ht
    obtain ⟨before, after, rfl, hoffset, -, hdecode⟩ := hplace t ht
    rw [hoffset]
    exact startsAt_or_eq hdecode
  case line =>
    intro t ht
    obtain ⟨before, after, rfl, hoffset, hline, -⟩ := hplace t ht
    rw [hline, Token.octetsBefore, hoffset, List.take_left]
  case stop =>
    intro t ht heof
    rcases List.mem_append.mp ht with ht | ht
    · exact absurd heof (kind_ne_eof_of_lexed h t ht)
    · rw [List.mem_singleton.mp ht]
      rfl
  case first =>
    intro hwell t ht
    obtain ⟨us, hts⟩ := List.head?_eq_some_iff.mp ht
    have htiled := tiled_of_lexed h hwell
    rw [hts] at htiled
    have hgap := @followsGap_of_tiled _ [] _ _ htiled
    rwa [List.nil_append, encode_characters hwell] at hgap
  case faithful =>
    intro hwell before t after hts
    have htiled := tiled_of_lexed h hwell
    rw [hts] at htiled
    have hfaithful := isFaithful_of_tiled htiled
    rwa [encode_characters hwell] at hfaithful

theorem areRead_atEnd (octets : List UInt8) :
    AreRead octets octets.length [.atEnd octets.length (octets.count 10)] where
  order := List.pairwise_singleton _ _
  start := List.forall_mem_singleton.mpr (.inr rfl)
  line := List.forall_mem_singleton.mpr (by
    rw [Token.octetsBefore, Token.atEnd, List.take_length])
  stop := List.forall_mem_singleton.mpr fun _ => rfl
  first _ t ht := by
    cases ht
    have hline : LaidOut [] ['\n'] := .gap (.blank rfl) .nil
    refine ⟨[], ?_, hline⟩
    rw [List.drop_length]
    exact List.take_nil
  faithful _ before t after hts := by
    obtain ⟨rfl, rfl, rfl⟩ : before = [] ∧ t = .atEnd octets.length (octets.count 10) ∧
        after = [] := by
      cases before with
      | nil => simpa [eq_comm] using hts
      | cons u before => simp at hts
    constructor
    case raw => exact fun _ => List.nil_prefix
    case quoted | literal => exact fun hk => absurd hk (by simp [Token.atEnd])
    case next => exact fun u hu => absurd hu (by simp)
    case gap => exact fun _ u hu => absurd hu (by simp)

/-- **Tokens of passes.** Any pass of a reader gives tokens of which the last is the end of the
input, and no other; none of them is a character that begins no token, and after a failure there are
no others. As long as nothing fails, the tokens are in order, each at a character and with the line
feeds before it. Well-formed octets have the texts of the tokens at their offsets, one after
another, and outside of templates there are only blanks and comments before and between them. -/
theorem areRead_of_passes (octets : List UInt8) (n : Nat) :
    (∃ ts last, ((Reader.ofSource (.ofOctets octets)).after n).tokens = ts ++ [last] ∧
      last.kind = .eof ∧ (∀ t ∈ ts, t.kind ≠ .eof ∧ t.kind ≠ .unknown) ∧
        (((Reader.ofSource (.ofOctets octets)).after n).next.failed = true → ts = [])) ∧
    (((Reader.ofSource (.ofOctets octets)).after n).next.failed = false →
      AreRead octets ((Reader.ofSource (.ofOctets octets)).after n).place.offset
        ((Reader.ofSource (.ofOctets octets)).after n).tokens) := by
  refine ⟨Reader.exists_tokens _, fun hfailed => ?_⟩
  obtain ⟨ts, htokens, ⟨hplace, hlexed⟩ | ⟨hplace, rfl⟩⟩ := Reader.exists_lexed_after hfailed
  · rw [htokens, hplace]
    exact areRead_of_lexed hlexed
  · rw [htokens, hplace]
    exact areRead_atEnd octets

/-- A string, a comment, and a template with literal text around a brace and a slot. -/
def streamText : List Char :=
  ['"', 'é', '"', ';', ';', 'ü', '\n', '\'', 'a', '}', 'b', '{', 'x', '}', '\'']

def streamTokens : List Token :=
  [⟨.string, "é", 0, 0⟩, ⟨.template, "", 9, 1⟩, ⟨.string, "ab", 10, 1⟩, ⟨.name, "x", 14, 1⟩,
    ⟨.template, "", 17, 1⟩, .atEnd 17 1]

/-- They are read without failure. -/
theorem areRead_streamTokens :
    ((Reader.ofSource (.ofOctets (encode streamText))).after 0).next.failed = false ∧
      isWellFormed (encode streamText) = true ∧ AreRead (encode streamText) 0 streamTokens ∧
      ∀ before t after, streamTokens = before ++ t :: after →
        t.IsFaithful (encode streamText) before after := by
  have hfailed : ((Reader.ofSource (.ofOctets (encode streamText))).after 0).next.failed = false :=
    rfl
  have hwell : isWellFormed (encode streamText) = true := by decide
  have hread : AreRead (encode streamText) 0 streamTokens :=
    (areRead_of_passes (encode streamText) 0).2 hfailed
  exact ⟨hfailed, hwell, hread, hread.faithful hwell⟩

end Splice
