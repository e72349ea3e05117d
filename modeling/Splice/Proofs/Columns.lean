import Splice.Proofs.Scanning
import Splice.Proofs.Source

/-!
# Columns of misfits

A token that a parse does not accept is reported with the line and the column where it begins. Its
line is the number of line feeds before it. Its column is counted in the characters of the source by
the number of octets before it; it is the number of characters on its line before it if these octets
are as many as those of their characters, and too small if there are fewer of them
(`diagnostics_rootRun`).
-/

namespace Splice

open Text Scan

/-! ## Columns of offsets -/

theorem prefix_of_utf8Length_le {xs ys text : List Char} (hxs : xs <+: text) (hys : ys <+: text)
    (h : utf8Length xs ≤ utf8Length ys) : xs <+: ys := by
  rcases List.prefix_or_prefix_of_prefix hxs hys with hprefix | ⟨rest, rfl⟩
  · exact hprefix
  · rw [utf8Length_append] at h
    obtain rfl : rest = [] := eq_nil_of_utf8Length_eq_zero (by omega)
    exact ⟨[], by rw [List.append_nil, List.append_nil]⟩

theorem columnAt_eq {text before : List Char} (h : before <+: text) :
    columnAt text (utf8Length before) = (lastLine before).length := by
  rw [columnAt, takeOctets?_eq_some_iff.mpr ⟨rfl, h⟩, lastLine, List.length_reverse]

/-- An offset inside the last line of a text has a smaller column than the end of that line. -/
theorem columnAt_lt {text before : List Char} {offset : Nat} (h : before <+: text)
    (hlt : offset < utf8Length before)
    (hle : utf8Length before ≤ offset + utf8Length (lastLine before)) :
    columnAt text offset < (lastLine before).length := by
  obtain ⟨earlier, hbefore, hearlier⟩ := exists_eq_append_lastLine before
  have hlength : utf8Length before = utf8Length earlier + utf8Length (lastLine before) := by
    rw [← utf8Length_append, ← hbefore]
  unfold columnAt
  split
  case h_1 taken htaken =>
    obtain ⟨hoffset, hprefix⟩ := takeOctets?_eq_some_iff.mp htaken
    have hearly : earlier <+: text := (hbefore ▸ List.prefix_append _ _).trans h
    -- what is taken ends in the last line, before the end of it
    obtain ⟨own, rfl⟩ := prefix_of_utf8Length_le hearly hprefix (by omega)
    obtain ⟨rest, hrest⟩ := prefix_of_utf8Length_le hprefix h (by omega)
    have hown : own ++ rest = lastLine before := by
      rw [hbefore, List.append_assoc] at hrest
      exact List.append_cancel_left hrest
    have hline : '\n' ∉ own := fun hmem =>
      newline_not_mem_lastLine before (hown ▸ List.mem_append_left _ hmem)
    have hne : rest ≠ [] := by
      rintro rfl
      rw [← hown, List.append_nil, ← utf8Length_append] at hlength
      omega
    have hpos := List.length_pos_iff.mpr hne
    have hcolumn : ((earlier ++ own).reverse.takeWhile (· != '\n')).length = own.length := by
      rw [← List.length_reverse, ← lastLine, lastLine_append hline, hearlier, List.nil_append]
    rw [hcolumn, ← hown, List.length_append]
    omega
  case h_2 =>
    refine List.length_pos_iff.mpr fun hnil => ?_
    rw [hnil, utf8Length] at hle
    omega

/-! ## Places of tokens -/

/-- A token begins at a location. -/
def Token.BeginsAt (t : Token) (l : Location) : Prop := t.offset = l.offset ∧ t.line = l.line

/-- A token begins at one of some characters, or after a brace or a quote among them. -/
def Token.IsPlacedIn (t : Token) (xs : List Located) : Prop :=
  ∃ x ∈ xs, t.BeginsAt x.place ∨ (x.char = '{' ∨ x.char = '\'') ∧ t.BeginsAt x.place.next

namespace Token.IsPlacedIn

variable {t : Token} {xs ys : List Located}

theorem mono (h : t.IsPlacedIn xs) (hsubset : ∀ x ∈ xs, x ∈ ys) : t.IsPlacedIn ys := by
  obtain ⟨x, hx, hplace⟩ := h
  exact ⟨x, hsubset x hx, hplace⟩

theorem cons (h : t.IsPlacedIn xs) (x : Located) : t.IsPlacedIn (x :: xs) :=
  h.mono fun _ => List.mem_cons_of_mem x

theorem append_left (h : t.IsPlacedIn xs) (ys : List Located) : t.IsPlacedIn (ys ++ xs) :=
  h.mono fun _ => List.mem_append_right ys

theorem append_right (h : t.IsPlacedIn xs) (ys : List Located) : t.IsPlacedIn (xs ++ ys) :=
  h.mono fun _ => List.mem_append_left ys

end Token.IsPlacedIn

theorem isPlacedIn_of (kind : Kind) (text : List Char) {x : Located} {xs : List Located}
    (h : x ∈ xs) : (Token.of kind text x.place).IsPlacedIn xs :=
  ⟨x, h, .inl ⟨rfl, rfl⟩⟩

theorem isPlacedIn_next (kind : Kind) (text : List Char) {x : Located} {xs : List Located}
    (h : x ∈ xs) (hx : x.char = '{' ∨ x.char = '\'') :
    (Token.of kind text x.place.next).IsPlacedIn xs :=
  ⟨x, h, .inr ⟨hx, rfl, rfl⟩⟩

theorem isPlacedIn_of_mem_ofLiteral {text : List Located} {t : Token}
    (h : t ∈ Token.ofLiteral text) : t.IsPlacedIn text := by
  unfold Token.ofLiteral at h
  split at h
  case h_1 => exact absurd h List.not_mem_nil
  case h_2 x xs hreverse =>
    rw [List.mem_singleton.mp h]
    exact isPlacedIn_of _ _ (List.mem_reverse.mp (hreverse ▸ List.mem_cons_self))

theorem isPlacedIn_of_mem_interior {text xs : List Located} {ts : List Token}
    (h : Interior text xs ts) : ∀ t ∈ ts, t.IsPlacedIn (text ++ xs) := by
  have hliteral (text xs : List Located) : ∀ t ∈ Token.ofLiteral text, t.IsPlacedIn (text ++ xs) :=
    fun t ht => (isPlacedIn_of_mem_ofLiteral ht).append_right xs
  induction h with
  | done => exact hliteral _ _
  | plain _ _ ih =>
    intro t ht
    exact (ih t ht).mono fun x hx => by simpa [or_left_comm] using hx
  | brace _ _ ih =>
    intro t ht
    exact (ih t ht).mono fun x hx => by simpa [or_left_comm] using .inr (List.mem_append.mp hx)
  | slot hx _ _ _ ih =>
    refine List.forall_mem_append.mpr ⟨hliteral _ _, List.forall_mem_cons.mpr ⟨?_, ?_⟩⟩
    · exact isPlacedIn_next _ _ (List.mem_append_right _ List.mem_cons_self) (.inl hx)
    · intro t ht
      exact (((ih t ht).append_left _).cons _).append_left _

theorem isPlacedIn_of_mem_lexed {xs : List Located} {ts : List Token} (h : Lexed xs ts) :
    ∀ t ∈ ts, t.IsPlacedIn xs := by
  have hcons {kind : Kind} {text : List Char} {x : Located} {xs : List Located} {ts : List Token}
      (h : ∀ t ∈ ts, t.IsPlacedIn (x :: xs)) :
      ∀ t ∈ Token.of kind text x.place :: ts, t.IsPlacedIn (x :: xs) :=
    List.forall_mem_cons.mpr ⟨isPlacedIn_of _ _ List.mem_cons_self, h⟩
  induction h with
  | nil => exact List.forall_mem_nil _
  | blank _ _ ih => exact fun t ht => (ih t ht).cons _
  | comment _ _ _ _ _ ih => exact fun t ht => ((((ih t ht).cons _).append_left _).cons _).cons _
  | mark _ _ ih | plus _ _ _ ih => exact hcons fun t ht => (ih t ht).cons _
  | merge _ _ _ ih => exact hcons fun t ht => ((ih t ht).cons _).cons _
  | string _ _ _ _ ih => exact hcons fun t ht => (((ih t ht).cons _).append_left _).cons _
  | word _ _ _ _ ih | number _ _ _ _ ih => exact hcons fun t ht => ((ih t ht).append_left _).cons _
  | @template x body us y xs ts _ hbody hy _ ih =>
    have hclose : y ∈ x :: (body ++ y :: xs) := by simp
    apply hcons
    refine List.forall_mem_append.mpr ⟨?_, List.forall_mem_cons.mpr
      ⟨isPlacedIn_next _ _ hclose (.inr hy), ?_⟩⟩
    · exact fun t ht => ((isPlacedIn_of_mem_interior hbody t ht).append_right _).cons _
    · exact fun t ht => (((ih t ht).cons _).append_left _).cons _

theorem Location.next_eq_after {p : Piece} (h : p.char = '{' ∨ p.char = '\'') (l : Location) :
    l.next = l.after p := by
  cases p with
  | encoded c =>
    rcases h with rfl | rfl
    all_goals rfl
  | malformed octets =>
    change '\uFFFD' = '{' ∨ '\uFFFD' = '\'' at h
    exact absurd h (by decide)

/-- Before a token of a source stand octets that decode by themselves. -/
theorem Token.IsPlacedIn.exists_octets {t : Token} {octets : List UInt8}
    (h : t.IsPlacedIn (Source.ofOctets octets).terminated) :
    ∃ before after, octets = before ++ after ∧ t.offset = before.length ∧
      t.line = before.count 10 ∧ decode octets = decode before ++ decode after := by
  obtain ⟨ps, qs, hdecode, hplace⟩ : ∃ ps qs, decode octets = ps ++ qs ∧
      t.BeginsAt (Location.origin.read ps) := by
    obtain ⟨x, hx, hplace⟩ := h
    rcases List.mem_append.mp hx with hx | hx
    · obtain ⟨ps, p, qs, hdecode, rfl⟩ := exists_pieces_of_mem_locate hx
      rcases hplace with hplace | ⟨hchar, hplace⟩
      · exact ⟨ps, p :: qs, hdecode, hplace⟩
      · refine ⟨ps ++ [p], qs, hdecode.trans (List.append_cons ps p qs), ?_⟩
        rw [Location.next_eq_after hchar] at hplace
        rwa [Location.read_append]
    · rw [List.mem_singleton.mp hx] at hplace
      refine ⟨decode octets, [], (List.append_nil _).symm, hplace.resolve_right ?_⟩
      rintro ⟨hchar, -⟩
      change '\n' = '{' ∨ '\n' = '\'' at hchar
      exact absurd hchar (by decide)
  obtain ⟨before, after, rfl, rfl, rfl⟩ := decode_eq_append hdecode
  rw [Token.BeginsAt, Location.read_decode] at hplace
  exact ⟨before, after, rfl, hplace.1, hplace.2, hdecode⟩

/-- So do they before the tokens of lexemes and the end of the input. -/
theorem exists_octets_of_lexed {octets : List UInt8} {ts : List Token}
    (h : Lexed (Source.ofOctets octets).terminated ts) :
    ∀ t ∈ ts ++ [.atEnd octets.length (octets.count 10)], ∃ before after,
      octets = before ++ after ∧ t.offset = before.length ∧ t.line = before.count 10 ∧
        decode octets = decode before ++ decode after := by
  refine List.forall_mem_append.mpr ⟨?_, List.forall_mem_singleton.mpr ?_⟩
  · exact fun t ht => (isPlacedIn_of_mem_lexed h t ht).exists_octets
  · exact ⟨octets, [], (List.append_nil _).symm, rfl, rfl, (List.append_nil _).symm⟩

/-! ## Misfits -/

namespace Parse

/-- The token that a parse blames, or may come to blame, is one of some tokens. -/
inductive Blames (ts : List Token) : Parse → Prop where
  | inside {frames} : Blames ts (.inside frames)
  | opened {paren frames} : paren ∈ ts → Blames ts (.opened paren frames)
  | complete {e} : Blames ts (.complete e)
  | failed {m} : m.token ∈ ts → Blames ts (.failed m)

variable {ts us : List Token} {t : Token} {s : Parse}

theorem Blames.place (e : Expr) (frames : List Frame) : Blames ts (place e frames) := by
  cases frames with
  | nil => exact .complete
  | cons => exact .inside

theorem Blames.enter (ht : t ∈ ts) (f : Frame) (frames : List Frame) :
    Blames ts (enter t f frames) := by
  unfold Parse.enter
  split
  case isTrue => exact .inside
  case isFalse => exact .failed ht

theorem Blames.stepInside (ht : t ∈ ts) (frames : List Frame) :
    Blames ts (stepInside frames t) := by
  unfold Parse.stepInside
  split
  case h_1 =>
    split
    case h_1 => exact .place _ _
    case h_2 => exact .failed ht
  case h_2 | h_3 => exact .place _ _
  case h_4 => exact .enter ht _ _
  case h_5 => exact .opened ht
  case h_6 | h_7 =>
    split
    case h_1 => exact .place _ _
    case h_2 => exact .failed ht
  case h_8 => exact .failed ht

theorem Blames.step (h : Blames ts s) (ht : t ∈ ts) : Blames ts (s.step t) := by
  cases h with
  | inside => exact .stepInside ht _
  | @opened paren frames hparen =>
    show Blames ts (if t.kind = .merge then Parse.enter paren (.merge t []) frames else misplaced t)
    split
    case isTrue => exact .enter hparen _ _
    case isFalse => exact .failed ht
  | complete => exact .failed ht
  | failed hm => exact .failed hm

theorem Blames.foldl (h : Blames ts s) (hus : ∀ t ∈ us, t ∈ ts) :
    Blames ts (us.foldl Parse.step s) := by
  induction us generalizing s with
  | nil => exact h
  | cons u us ih =>
    obtain ⟨hu, hus⟩ := List.forall_mem_cons.mp hus
    exact ih (h.step hu) hus

theorem Blames.finish (h : Blames ts s) {last : Token} (hlast : last ∈ ts) {m : Misfit}
    (hm : s.finish last = .error m) : m.token ∈ ts := by
  cases h with
  | complete => cases hm
  | failed hmem =>
    cases hm
    exact hmem
  | inside | opened =>
    cases hm
    exact hlast

end Parse

/-- A parse that fails blames one of the tokens, or the end where there is none. -/
theorem token_mem_of_parse {ts : List Token} {octets : Nat} {m : Misfit}
    (hend : ∃ t ∈ ts, t.kind = .eof) (h : parse ts octets = .error m) : m.token ∈ ts := by
  have hlast : endToken ts octets ∈ ts := by
    obtain ⟨t, ht, heof⟩ := hend
    have hfind : (ts.find? (·.kind == .eof)).isSome = true :=
      List.find?_isSome.mpr ⟨t, ht, beq_iff_eq.mpr heof⟩
    obtain ⟨u, hu⟩ := Option.isSome_iff_exists.mp hfind
    rw [endToken, hu]
    exact List.mem_of_find?_eq_some hu
  unfold parse at h
  split at h
  case h_1 => cases h
  case h_2 t us hts =>
    have hsubset : ∀ u ∈ t :: us, u ∈ ts := by
      rw [← hts]
      exact fun u hu => (List.takeWhile_sublist _).subset hu
    have hblames := Parse.Blames.foldl (s := .inside []) .inside hsubset
    cases hfinish : ((t :: us).foldl Parse.step (.inside [])).finish (endToken ts octets) with
    | ok e =>
      rw [hfinish] at h
      cases h
    | error m' =>
      rw [hfinish] at h
      cases h
      exact hblames.finish hlast hfinish

/-! ## Diagnostics of a parse -/

theorem length_flatMap_octets_le {ps : List Piece} (h : ∀ p ∈ ps, p.IsPart) :
    (ps.flatMap Piece.octets).length ≤ utf8Length (ps.map Piece.char) := by
  induction ps with
  | nil => exact Nat.le_refl _
  | cons p ps ih =>
    obtain ⟨hp, hps⟩ := List.forall_mem_cons.mp h
    have htail := ih hps
    have hsize : p.size ≤ p.char.utf8Size := by
      cases p with
      | encoded c => exact Nat.le_refl _
      | malformed octets => exact hp.2
    rw [List.flatMap_cons, List.length_append, Piece.length_octets, List.map_cons, utf8Length]
    omega

theorem length_le_utf8Length_characters (octets : List UInt8) :
    octets.length ≤ utf8Length (characters octets) := by
  have hparts : ∀ p ∈ decode octets, p.IsPart := fun p hp => isPart_of_mem_decode hp
  have hle := length_flatMap_octets_le hparts
  rwa [flatMap_octets_decode] at hle

namespace Token

def octetsBefore (t : Token) (octets : List UInt8) : List UInt8 := octets.take t.offset

/-- The characters before a token on its line. -/
def lineBefore (t : Token) (octets : List UInt8) : List Char :=
  lastLine (characters (t.octetsBefore octets))

end Token

/-- The tokens of a source without problems are after octets that decode by themselves. -/
theorem octetsBefore_of_mem {octets : List UInt8} {ts : List Token}
    (h : (scanRun (.ofOctets octets)).outcome = .ok ts) {t : Token} (ht : t ∈ ts) :
    t.offset = (t.octetsBefore octets).length ∧ t.line = (t.octetsBefore octets).count 10 ∧
      characters (t.octetsBefore octets) <+: characters octets := by
  obtain ⟨before, after, rfl, hoffset, hline, hdecode⟩ : ∃ before after, octets = before ++ after ∧
      t.offset = before.length ∧ t.line = before.count 10 ∧
      decode octets = decode before ++ decode after := by
    obtain ⟨us, hlexed, rfl⟩ := outcome_scanRun_eq_ok_iff.mp h
    rw [Source.stop_ofOctets] at ht
    exact exists_octets_of_lexed hlexed t ht
  have hbefore : t.octetsBefore (before ++ after) = before := by
    rw [Token.octetsBefore, hoffset, List.take_left]
  rw [hbefore]
  refine ⟨hoffset, hline, characters after, ?_⟩
  rw [characters, characters, characters, hdecode, List.map_append]

/-- **Columns of misfits.** A parse that fails reports one token of the source, with the number of
line feeds before it. If replacement characters add no more octets before it than its line has
there, its column is the number of characters before it on its line if and only if they add none. -/
theorem diagnostics_rootRun {octets : List UInt8} {ts : List Token} {m : Misfit}
    (hscan : (scanRun (.ofOctets octets)).outcome = .ok ts)
    (hparse : parse ts (utf8Length (characters octets)) = .error m) :
    (rootRun (.ofOctets octets)).diagnostics =
        [⟨m.problem (characters octets), characters octets⟩] ∧
      m.token ∈ ts ∧
      (m.problem (characters octets)).line = (m.token.octetsBefore octets).count 10 ∧
      (utf8Length (characters (m.token.octetsBefore octets)) ≤
          (m.token.octetsBefore octets).length + utf8Length (m.token.lineBefore octets) →
        ((m.problem (characters octets)).column = (m.token.lineBefore octets).length ↔
          utf8Length (characters (m.token.octetsBefore octets)) =
            (m.token.octetsBefore octets).length)) := by
  obtain ⟨us, hlexed, hts⟩ := outcome_scanRun_eq_ok_iff.mp hscan
  have hmem : m.token ∈ ts := by
    refine token_mem_of_parse ?_ hparse
    rw [hts]
    exact ⟨_, List.mem_append_right _ List.mem_cons_self, rfl⟩
  obtain ⟨hoffset, hline, hprefix⟩ := octetsBefore_of_mem hscan hmem
  have hle := length_le_utf8Length_characters (m.token.octetsBefore octets)
  refine ⟨?_, hmem, hline, fun hgrowth => ?_⟩
  · have hfailed : parseRun ts (Source.ofOctets octets).text =
        ⟨[.diagnosed ⟨m.problem (characters octets), characters octets⟩, .parsed true],
          .error .parse⟩ := by
      rw [parseRun, show parse ts (utf8Length (Source.ofOctets octets).text) = .error m from hparse]
      rfl
    rw [rootRun, scanRun_of_lexed hlexed, ← hts, Run.andThen]
    dsimp only
    rw [hfailed]
    rfl
  · show columnAt (characters octets) m.token.offset = _ ↔ _
    constructor
    · intro hcolumn
      by_contra hne
      rw [hoffset] at hcolumn
      exact absurd hcolumn (Nat.ne_of_lt (columnAt_lt hprefix (by omega) hgrowth))
    · intro hlength
      rw [hoffset, ← hlength]
      exact columnAt_eq hprefix

/-- The octets of `"é" )`. -/
def accentOctets : List UInt8 := [0x22, 0xC3, 0xA9, 0x22, 0x20, 0x29]

def accentMisfit : Misfit := ⟨.misplacedToken, ⟨.closeParen, ")", 5, 0⟩⟩

/-- A character of two octets is one column. -/
theorem diagnostics_rootRun_accent :
    (scanRun (.ofOctets accentOctets)).outcome =
        .ok [⟨.string, "é", 0, 0⟩, accentMisfit.token, .atEnd 6 0] ∧
      (rootRun (.ofOctets accentOctets)).diagnostics =
        [⟨⟨.misplacedToken, 0, 4, ")"⟩, ['"', 'é', '"', ' ', ')']⟩] := by
  have hscan : (scanRun (.ofOctets accentOctets)).outcome =
      .ok [⟨.string, "é", 0, 0⟩, accentMisfit.token, .atEnd 6 0] := rfl
  have hparse : parse [⟨.string, "é", 0, 0⟩, accentMisfit.token, .atEnd 6 0]
      (utf8Length (characters accentOctets)) = .error accentMisfit := rfl
  obtain ⟨hdiagnostics, -, -, hcolumn⟩ := diagnostics_rootRun hscan hparse
  have hfour : (accentMisfit.problem (characters accentOctets)).column = 4 :=
    (hcolumn (by decide)).mpr (by decide)
  have hproblem : accentMisfit.problem (characters accentOctets) =
      ⟨.misplacedToken, 0, (accentMisfit.problem (characters accentOctets)).column, ")"⟩ := rfl
  rw [hfour] at hproblem
  refine ⟨hscan, ?_⟩
  rw [hdiagnostics, hproblem]
  rfl

/-- A string with an octet that begins no character, and a parenthesis after it. -/
def strayOctets : List UInt8 := [0x22, 0xFF, 0x22, 0x20, 0x29]

/-- A replacement character before a token on its line moves the column of the token: four
characters stand before the parenthesis, and its column is two. -/
theorem diagnostics_rootRun_stray :
    (scanRun (.ofOctets strayOctets)).outcome =
        .ok [⟨.string, "\uFFFD", 0, 0⟩, ⟨.closeParen, ")", 4, 0⟩, .atEnd 5 0] ∧
      (rootRun (.ofOctets strayOctets)).diagnostics =
        [⟨⟨.misplacedToken, 0, 2, ")"⟩, ['"', '\uFFFD', '"', ' ', ')']⟩] ∧
      (lastLine (characters (strayOctets.take 4))).length = 4 :=
  ⟨rfl, rfl, rfl⟩

end Splice
