import Splice.Proofs.Token.Rendering

/-!
# Texts and the places of their tokens

The tokens of a text tile it (`Lexed.tiles`): each is spelled at its offset, and what is left out
between them are blanks and comments, or in a template braces. The literal text of a template is
spelled with closing braces in it that its token does not have.
-/

namespace Splice

open Text Scan

/-! ## Characters one after another -/

/-- Characters one after another from an offset on, each as long as it is encoded. -/
def Consecutive : Nat → List Located → Prop
  | _, [] => True
  | offset, x :: xs => x.place.offset = offset ∧ Consecutive (offset + x.char.utf8Size) xs

theorem consecutive_append {offset : Nat} {xs ys : List Located} :
    Consecutive offset (xs ++ ys) ↔
      Consecutive offset xs ∧ Consecutive (offset + utf8Length (xs.map Located.char)) ys := by
  induction xs generalizing offset with
  | nil => simp [Consecutive, utf8Length]
  | cons x xs ih =>
    rw [List.cons_append, Consecutive, Consecutive, ih, List.map_cons, utf8Length, and_assoc,
      Nat.add_assoc]

theorem consecutive_locate (l : Location) (text : List Char) :
    Consecutive l.offset (locate l (text.map .encoded)) := by
  induction text generalizing l with
  | nil => trivial
  | cons c text ih =>
    have hrest := ih (l.after (.encoded c))
    rw [Location.offset_after] at hrest
    exact ⟨rfl, hrest⟩

/-! ## Tilings -/

/-- Tokens tile a text from an offset on, to the end of the input. The text begins outside of
templates, or inside one. -/
inductive Tiled : Bool → Nat → List Char → List Token → Prop where
  | last {offset gap t} : LaidOut [] (gap ++ ['\n']) → t.kind = .eof → t.raw = "" →
      t.offset = offset + utf8Length gap → Tiled false offset gap [t]
  | token {offset gap rest t ts} : LaidOut [] gap → t.kind ≠ .template → t.kind ≠ .eof →
      t.offset = offset + utf8Length gap →
      Tiled false (t.offset + utf8Length t.spelling) rest ts →
      Tiled false offset (gap ++ (t.spelling ++ rest)) (t :: ts)
  | opening {offset gap rest t ts} : LaidOut [] gap → t.kind = .template → t.raw = "" →
      t.offset = offset + utf8Length gap → Tiled true (t.offset + 1) rest ts →
      Tiled false offset (gap ++ '\'' :: rest) (t :: ts)
  | literal {offset braces part rest t ts} : (∀ c ∈ braces, c = '}') → t.kind = .string →
      part.filter (· != '}') = t.raw.toList → t.offset = offset + utf8Length braces →
      Tiled true (t.offset + utf8Length part) rest ts →
      Tiled true offset (braces ++ (part ++ rest)) (t :: ts)
  | slot {offset braces rest t ts} : (∀ c ∈ braces, c = '}') → t.kind ≠ .template →
      t.kind ≠ .string → t.offset = offset + utf8Length braces + 1 →
      Tiled true (t.offset + utf8Length t.raw.toList) rest ts →
      Tiled true offset (braces ++ '{' :: (t.raw.toList ++ rest)) (t :: ts)
  | closing {offset braces rest t ts} : (∀ c ∈ braces, c = '}') → t.kind = .template → t.raw = "" →
      t.offset = offset + utf8Length braces + 1 → Tiled false t.offset rest ts →
      Tiled true offset (braces ++ '\'' :: rest) (t :: ts)

namespace Tiled

variable {offset : Nat} {gap rest : List Char} {ts : List Token}

theorem gap_append (hgap : Gap gap) (h : Tiled false (offset + utf8Length gap) rest ts) :
    Tiled false offset (gap ++ rest) ts := by
  cases h with
  | last hlaid hk hraw hoffset =>
    refine .last ?_ hk hraw ?_
    · rw [List.append_assoc]
      exact .gap hgap hlaid
    · rw [hoffset, utf8Length_append, Nat.add_assoc]
  | token hlaid ht heof hoffset h =>
    rw [← List.append_assoc]
    refine .token (.gap hgap hlaid) ht heof ?_ h
    rw [hoffset, utf8Length_append, Nat.add_assoc]
  | opening hlaid hk hraw hoffset h =>
    rw [← List.append_assoc]
    refine .opening (.gap hgap hlaid) hk hraw ?_ h
    rw [hoffset, utf8Length_append, Nat.add_assoc]

theorem brace_cons (h : Tiled true (offset + 1) rest ts) : Tiled true offset ('}' :: rest) ts := by
  have hlength (braces : List Char) :
      offset + 1 + utf8Length braces = offset + utf8Length ('}' :: braces) := by
    rw [utf8Length, Nat.add_assoc]
    rfl
  have hbraces {braces : List Char} (h : ∀ c ∈ braces, c = '}') : ∀ c ∈ '}' :: braces, c = '}' :=
    List.forall_mem_cons.mpr ⟨rfl, h⟩
  cases h with
  | literal hskip hk hpart hoffset h =>
    rw [hlength] at hoffset
    exact .literal (hbraces hskip) hk hpart hoffset h
  | slot hskip ht hk hoffset h =>
    rw [hlength] at hoffset
    exact .slot (hbraces hskip) ht hk hoffset h
  | closing hskip hk hraw hoffset h =>
    rw [hlength] at hoffset
    exact .closing (hbraces hskip) hk hraw hoffset h

end Tiled

/-! ## One token of a tiling -/

/-- Whether tokens end inside of a template, given whether they begin inside of one: a template
token begins a template or ends it. -/
def insideAfter (inside : Bool) (ts : List Token) : Bool :=
  ts.foldl (fun inside t => inside ^^ (t.kind == .template)) inside

theorem insideAfter_append (inside : Bool) (ts us : List Token) :
    insideAfter inside (ts ++ us) = insideAfter (insideAfter inside ts) us :=
  List.foldl_append

theorem insideAfter_eq_self {ts : List Token} (h : ∀ t ∈ ts, t.kind ≠ .template) (inside : Bool) :
    insideAfter inside ts = inside := by
  induction ts generalizing inside with
  | nil => rfl
  | cons t ts ih =>
    obtain ⟨ht, hts⟩ := List.forall_mem_cons.mp h
    show insideAfter (inside ^^ (t.kind == .template)) ts = inside
    rw [beq_false_of_ne ht, Bool.xor_false, ih hts]

/-- The text that a token is written as, inside of a template or outside. The quote that ends a
template is before its token. -/
def Token.spellingIn (inside : Bool) (t : Token) : List Char :=
  if inside then t.raw.toList else if t.kind = .template then ['\''] else t.spelling

/-- A text spells a token; that of literal text may have closing braces in it. -/
inductive Token.SpelledBy (inside : Bool) (t : Token) : List Char → Prop where
  | exact : (t.kind = .template → t.raw = "") → (inside = true → t.kind ≠ .string) →
      SpelledBy inside t (t.spellingIn inside)
  | literal {part} : inside = true → t.kind = .string → part.filter (· != '}') = t.raw.toList →
      SpelledBy inside t part

theorem utf8Length_filter_le (p : Char → Bool) (cs : List Char) :
    utf8Length (cs.filter p) ≤ utf8Length cs := by
  induction cs with
  | nil => exact Nat.le_refl _
  | cons c cs ih =>
    rw [List.filter_cons]
    split
    case isTrue => exact Nat.add_le_add_left ih _
    case isFalse => exact Nat.le_trans ih (Nat.le_add_left _ _)

namespace Token.SpelledBy

variable {inside : Bool} {t : Token} {own : List Char}

theorem raw_isPrefix (h : t.SpelledBy inside own) (hk : t.kind ≠ .string) :
    t.raw.toList <+: own := by
  cases h with
  | exact hraw _ =>
    unfold spellingIn spelling
    split
    case isTrue => exact List.prefix_rfl
    case isFalse =>
      split
      case isTrue htemplate =>
        rw [hraw htemplate]
        exact List.nil_prefix
      case isFalse => exact List.prefix_rfl
  | literal _ hstring => exact absurd hstring hk

theorem eq_quoted (h : t.SpelledBy false own) (hk : t.kind = .string) :
    own = '"' :: (t.raw.toList ++ ['"']) := by
  cases h with
  | exact => simp [spellingIn, spelling, hk]
  | literal hinside => cases hinside

theorem raw_eq_filter (h : t.SpelledBy true own) (hk : t.kind = .string) :
    t.raw.toList = own.filter (· != '}') := by
  cases h with
  | exact _ hstring => exact absurd hk (hstring rfl)
  | literal _ _ hpart => exact hpart.symm

theorem utf8Length_le (h : t.SpelledBy inside own) :
    utf8Length (t.spellingIn inside) ≤ utf8Length own := by
  cases h with
  | exact => exact Nat.le_refl _
  | literal hinside _ hpart =>
    rw [spellingIn, if_pos hinside, ← hpart]
    exact utf8Length_filter_le _ _

theorem eq_spellingIn (h : t.SpelledBy inside own)
    (houtside : (inside ^^ (t.kind == .template)) = false) : own = t.spellingIn inside := by
  cases h with
  | exact => rfl
  | literal hinside hk =>
    rw [hinside, hk] at houtside
    cases houtside

end Token.SpelledBy

namespace Tiled

variable {inside : Bool} {offset : Nat} {text : List Char} {before after us : List Token}
  {t u : Token}

/-- The first token of a tiling: what is left out before it, what spells it, and what the others
tile. -/
theorem exists_spelled (h : Tiled inside offset text (t :: us)) : ∃ skipped own rest,
    text = skipped ++ (own ++ rest) ∧ t.offset = offset + utf8Length skipped ∧
      t.SpelledBy inside own ∧
      (us ≠ [] → Tiled (inside ^^ (t.kind == .template)) (t.offset + utf8Length own) rest us) := by
  cases h with
  | last hlaid hk hraw hoffset =>
    have hown : t.spellingIn false = [] := by
      simp [Token.spellingIn, Token.spelling, hk, hraw]
    refine ⟨text, t.spellingIn false, [], ?_, hoffset, .exact (by simp [hk]) (by simp), by simp⟩
    rw [hown, List.append_nil, List.append_nil]
  | @token _ gap rest _ _ hlaid ht heof hoffset h =>
    have hown : t.spellingIn false = t.spelling := by simp [Token.spellingIn, ht]
    refine ⟨gap, t.spellingIn false, rest, by rw [hown], hoffset,
      .exact (absurd · ht) (by simp), ?_⟩
    intro _
    rw [hown, beq_false_of_ne ht]
    exact h
  | @opening _ gap rest _ _ hlaid hk hraw hoffset h =>
    have hown : t.spellingIn false = ['\''] := by simp [Token.spellingIn, hk]
    refine ⟨gap, t.spellingIn false, rest, by rw [hown]; rfl, hoffset,
      .exact (fun _ => hraw) (by simp), ?_⟩
    intro _
    rw [hown, hk]
    exact h
  | @literal _ braces part rest _ _ hbraces hk hpart hoffset h =>
    refine ⟨braces, part, rest, rfl, hoffset, .literal rfl hk hpart, ?_⟩
    intro _
    rw [hk]
    exact h
  | @slot _ braces rest _ _ hbraces ht hk hoffset h =>
    refine ⟨braces ++ ['{'], t.spellingIn true, rest, ?_, ?_,
      .exact (absurd · ht) fun _ => hk, ?_⟩
    · rw [List.append_assoc]
      rfl
    · rw [hoffset, utf8Length_append, ← Nat.add_assoc]
      rfl
    · intro _
      rw [beq_false_of_ne ht]
      exact h
  | @closing _ braces rest _ _ hbraces hk hraw hoffset h =>
    have hown : t.spellingIn true = [] := by simp [Token.spellingIn, hraw]
    refine ⟨braces ++ ['\''], t.spellingIn true, rest, ?_, ?_,
      .exact (fun _ => hraw) (by simp [hk]), ?_⟩
    · rw [hown, List.append_assoc]
      rfl
    · rw [hoffset, utf8Length_append, ← Nat.add_assoc]
      rfl
    · intro _
      rw [hown, hk]
      exact h

theorem offset_le (h : Tiled inside offset text (t :: us)) : offset ≤ t.offset := by
  obtain ⟨skipped, -, -, -, hoffset, -⟩ := h.exists_spelled
  omega

/-- The tokens from any one of a tiling on tile the rest of the text. -/
theorem exists_rest (h : Tiled inside offset text (before ++ t :: after)) : ∃ earlier rest,
    text = earlier ++ rest ∧
      Tiled (insideAfter inside before) (offset + utf8Length earlier) rest (t :: after) := by
  induction before generalizing inside offset text with
  | nil => exact ⟨[], text, rfl, h⟩
  | cons u before ih =>
    obtain ⟨skipped, own, others, rfl, hoffset, -, hothers⟩ := h.exists_spelled
    have hne : before ++ t :: after ≠ [] :=
      List.append_ne_nil_of_right_ne_nil _ (List.cons_ne_nil _ _)
    obtain ⟨earlier, rest, rfl, hrest⟩ := ih (hothers hne)
    refine ⟨skipped ++ (own ++ earlier), rest, by simp, ?_⟩
    have hlength : offset + utf8Length (skipped ++ (own ++ earlier)) =
        u.offset + utf8Length own + utf8Length earlier := by
      rw [hoffset, utf8Length_append, utf8Length_append]
      omega
    rw [hlength]
    exact hrest

/-- Outside of templates only gaps are left out. -/
theorem exists_gap (h : Tiled false offset text (t :: us)) : ∃ gap rest, text = gap ++ rest ∧
    t.offset = offset + utf8Length gap ∧
      LaidOut [] (gap ++ if t.kind = .eof then ['\n'] else []) := by
  cases h with
  | last hlaid hk _ hoffset =>
    refine ⟨text, [], (List.append_nil _).symm, hoffset, ?_⟩
    rwa [if_pos hk]
  | token hlaid _ heof hoffset _ =>
    refine ⟨_, _, rfl, hoffset, ?_⟩
    rwa [if_neg heof, List.append_nil]
  | opening hlaid hk _ hoffset _ =>
    refine ⟨_, _, rfl, hoffset, ?_⟩
    rwa [if_neg (by simp [hk]), List.append_nil]

end Tiled

/-! ## Templates -/

/-- Literal text has been gathered from a part of a template that begins at an offset. -/
structure Gathers (text : List Located) (offset : Nat) (part : List Char) : Prop where
  chars : part.filter (· != '}') = text.reverse.map Located.char
  start : ∀ x ∈ text.getLast?, x.place.offset = offset
  empty : text = [] → part = []

variable {text xs : List Located} {offset : Nat} {part after : List Char} {ts us : List Token}

theorem gathers_nil (offset : Nat) : Gathers [] offset [] where
  chars := rfl
  start := by simp
  empty _ := rfl

theorem Gathers.tiled (h : Gathers text offset part)
    (hafter : Tiled true (offset + utf8Length part) after us) :
    Tiled true offset (part ++ after) (Token.ofLiteral text ++ us) := by
  unfold Token.ofLiteral
  split
  case h_1 hreverse =>
    rw [h.empty (List.reverse_eq_nil_iff.mp hreverse)] at hafter ⊢
    exact hafter
  case h_2 x xs hreverse =>
    have hx : x ∈ text.getLast? := by
      rw [← List.head?_reverse, hreverse]
      rfl
    have hstart := h.start x hx
    have hraw : part.filter (· != '}') =
        (Token.of .string ((x :: xs).map Located.char) x.place).raw.toList := by
      rw [h.chars, hreverse]
      exact String.toList_ofList.symm
    refine @Tiled.literal offset [] part after _ us (List.forall_mem_nil _) rfl hraw hstart ?_
    show Tiled true (x.place.offset + utf8Length part) after us
    rwa [hstart]

theorem Gathers.plain {x : Located} (h : Gathers text offset part) (hx : isPlain x.char = true)
    (hplace : x.place.offset = offset + utf8Length part) :
    Gathers (x :: text) offset (part ++ [x.char]) where
  chars := by
    have hne : x.char ≠ '}' := by
      intro hbrace
      rw [hbrace] at hx
      exact absurd hx (by decide)
    rw [List.filter_append, h.chars, List.reverse_cons, List.map_append,
      List.filter_cons_of_pos (p := (· != '}')) (bne_iff_ne.mpr hne)]
    rfl
  start y hy := by
    cases text with
    | nil =>
      rw [h.empty rfl] at hplace
      obtain rfl : x = y := by simpa using hy
      exact hplace
    | cons z text => exact h.start y (by simpa using hy)
  empty hnil := absurd hnil (List.cons_ne_nil _ _)

theorem Gathers.brace (h : Gathers text offset part) (htext : text ≠ []) :
    Gathers text offset (part ++ ['}']) where
  chars := by
    rw [List.filter_append, h.chars]
    exact List.append_nil _
  start := h.start
  empty hnil := absurd hnil htext

theorem Tiled.slot_of_word {x : Located} {word : List Located} (hx : x.char = '{')
    (h : Tiled true (x.place.offset + 1 + utf8Length (word.map Located.char)) after us) :
    Tiled true x.place.offset ((x :: word).map Located.char ++ after)
      (.ofWord (word.map Located.char) x.place.next :: us) := by
  have hraw : (Token.ofWord (word.map Located.char) x.place.next).raw.toList =
      word.map Located.char := String.toList_ofList
  rw [← hraw] at h
  have hslot := @Tiled.slot x.place.offset [] after
    (.ofWord (word.map Located.char) x.place.next) us (List.forall_mem_nil _)
    (Kind.ofWord_ne _).2.1 (Kind.ofWord_ne _).1 rfl h
  rwa [hraw, List.nil_append, ← List.cons_append, ← hx, ← List.map_cons] at hslot

theorem Interior.tiled (h : Interior text xs ts) (hpart : Gathers text offset part)
    (hxs : Consecutive (offset + utf8Length part) xs)
    (hafter : Tiled true (offset + utf8Length part + utf8Length (xs.map Located.char)) after us) :
    Tiled true offset (part ++ (xs.map Located.char ++ after)) (ts ++ us) := by
  induction h generalizing offset part with
  | done => exact hpart.tiled hafter
  | @plain text x xs ts hx _ ih =>
    obtain ⟨hplace, hrest⟩ := hxs
    have hlength : offset + utf8Length (part ++ [x.char]) =
        offset + utf8Length part + x.char.utf8Size := by
      rw [utf8Length_append, Nat.add_assoc]
      rfl
    have htiled := ih (hpart.plain hx hplace) (hlength ▸ hrest) (by
      rw [hlength]
      rwa [List.map_cons, utf8Length, ← Nat.add_assoc] at hafter)
    rwa [List.append_assoc] at htiled
  | @brace text x xs ts hx _ ih =>
    obtain ⟨hplace, hrest⟩ := hxs
    have hsize : x.char.utf8Size = 1 := by
      rw [hx]
      rfl
    rw [List.map_cons, utf8Length, hsize, ← Nat.add_assoc] at hafter
    rw [hsize] at hrest
    by_cases htext : text = []
    · -- no literal text has begun, and the brace is between two parts
      subst htext
      obtain rfl : part = [] := hpart.empty rfl
      rw [List.map_cons, hx]
      exact (ih (gathers_nil (offset + 1)) hrest hafter).brace_cons
    · have hlength : offset + utf8Length (part ++ ['}']) = offset + utf8Length part + 1 := by
        rw [utf8Length_append, Nat.add_assoc]
        rfl
      rw [← hlength] at hrest hafter
      have htiled := ih (hpart.brace htext) hrest hafter
      rw [List.map_cons, hx]
      rwa [List.append_assoc] at htiled
  | @slot text x word xs ts hx hword _ _ ih =>
    obtain ⟨hplace, hrest⟩ := hxs
    have hsize : x.char.utf8Size = 1 := by
      rw [hx]
      rfl
    rw [hsize, ← hplace] at hrest
    obtain ⟨-, hrest⟩ := consecutive_append.mp hrest
    rw [List.map_cons, List.map_append, utf8Length, utf8Length_append, hsize, ← hplace,
      ← Nat.add_assoc, ← Nat.add_assoc] at hafter
    have hslot := (ih (gathers_nil _) hrest hafter).slot_of_word hx
    rw [hplace] at hslot
    simpa using hpart.tiled hslot

/-! ## Lexemes -/

theorem exists_of_append_eq {own rest text : List Char} (h : own ++ rest = text ++ ['\n'])
    (hown : own.getLast? ≠ some '\n' ∨ rest ≠ []) :
    ∃ after, text = own ++ after ∧ rest = after ++ ['\n'] := by
  rcases List.append_eq_append_iff.mp h with ⟨between, htext, hrest⟩ | ⟨between, hown', hrest⟩
  · exact ⟨between, htext, hrest⟩
  · cases between with
    | nil => exact ⟨[], by simpa using hown'.symm, hrest.symm⟩
    | cons c between =>
      obtain ⟨rfl, hnil⟩ := List.cons.inj hrest
      obtain ⟨rfl, rfl⟩ := List.append_eq_nil_iff.mp hnil.symm
      rw [hown', List.getLast?_concat] at hown
      simp at hown

/-- Up to the line feed at their end, characters are a text that tokens and the end of the input
tile. -/
def Tiles (xs : List Located) (ts : List Token) (last : Token) : Prop :=
  ∀ offset text, Consecutive offset xs → xs.map Located.char = text ++ ['\n'] →
    last.offset = offset + utf8Length text → Tiled false offset text (ts ++ [last])

namespace Tiles

variable {own : List Located} {last t : Token}

theorem gap (hend : last.kind = .eof) (hraw : last.raw = "") (hgap : Gap (own.map Located.char))
    (hxs : Lexed xs ts) (h : Tiles xs ts last) : Tiles (own ++ xs) ts last := by
  intro offset text hplaces htext hlast
  rw [List.map_append] at htext
  by_cases hnil : xs = []
  · -- the gap is ended by the end of the input
    subst hnil
    cases hxs
    have hlaid : LaidOut [] (text ++ ['\n']) := by
      rw [← htext]
      exact .gap hgap .nil
    exact .last hlaid hend hraw hlast
  · obtain ⟨after, rfl, hafter⟩ :=
      exists_of_append_eq htext (.inr (mt List.map_eq_nil_iff.mp hnil))
    obtain ⟨-, hplaces⟩ := consecutive_append.mp hplaces
    refine .gap_append hgap (h _ _ hplaces hafter ?_)
    rw [hlast, utf8Length_append, Nat.add_assoc]

theorem token {x : Located} {body : List Located} (hkind : t.kind ≠ .template)
    (heof : t.kind ≠ .eof) (hspelling : t.spelling = (x :: body).map Located.char)
    (hplace : t.offset = x.place.offset)
    (hown : ((x :: body).map Located.char).getLast? ≠ some '\n' ∨ xs ≠ [])
    (h : Tiles xs ts last) : Tiles (x :: (body ++ xs)) (t :: ts) last := by
  intro offset text hplaces htext hlast
  rw [← List.cons_append] at hplaces htext
  rw [List.map_append] at htext
  obtain ⟨after, rfl, hafter⟩ :=
    exists_of_append_eq htext (hown.imp_right (mt List.map_eq_nil_iff.mp))
  obtain ⟨⟨rfl, -⟩, hrest⟩ := consecutive_append.mp hplaces
  rw [← hspelling, ← hplace] at hrest hlast ⊢
  have hend : last.offset = t.offset + utf8Length t.spelling + utf8Length after := by
    rw [hlast, utf8Length_append, Nat.add_assoc]
  exact @Tiled.token _ [] _ _ _ .nil hkind heof rfl (h _ _ hrest hafter hend)

theorem template {x y : Located} {body : List Located} {us : List Token} (hx : x.char = '\'')
    (hbody : Interior [] body us) (hy : y.char = '\'') (h : Tiles xs ts last) :
    Tiles (x :: (body ++ y :: xs))
      (.of .template [] x.place :: (us ++ .of .template [] y.place.next :: ts)) last := by
  intro offset text hplaces htext hlast
  have hquote : '\''.utf8Size = 1 := rfl
  rw [List.append_cons, ← List.cons_append] at hplaces htext
  rw [List.map_append] at htext
  have hown : ((x :: (body ++ [y])).map Located.char).getLast? ≠ some '\n' := by
    rw [List.map_cons, List.map_append, List.map_singleton, hy, ← List.cons_append,
      List.getLast?_concat]
    decide
  obtain ⟨after, rfl, hafter⟩ := exists_of_append_eq htext (.inl hown)
  obtain ⟨⟨rfl, hplaces⟩, hrest⟩ := consecutive_append.mp hplaces
  obtain ⟨hinner, hclose, -⟩ := consecutive_append.mp hplaces
  have hchars : (x :: (body ++ [y])).map Located.char ++ after =
      '\'' :: (body.map Located.char ++ '\'' :: after) := by
    simp [hx, hy]
  have hlength : utf8Length ((x :: (body ++ [y])).map Located.char) =
      1 + (utf8Length (body.map Located.char) + 1) := by
    rw [List.map_cons, List.map_append, List.map_singleton, utf8Length, utf8Length_append, hx, hy]
    rfl
  rw [hx, hquote] at hinner hclose
  rw [hlength] at hrest
  rw [hchars]
  -- the quotes are one octet each, and the last token is after the second of them
  have hnext : y.place.next.offset = x.place.offset + 1 + utf8Length (body.map Located.char) +
      utf8Length [] + 1 := congrArg (· + 1) hclose
  have hend : last.offset = y.place.next.offset + utf8Length after := by
    rw [hlast, utf8Length_append, hlength, hnext, utf8Length]
    omega
  have hrest : Consecutive y.place.next.offset xs := by
    rw [hnext, utf8Length]
    convert hrest using 1
    omega
  have hclosing := @Tiled.closing _ [] _ (.of .template [] y.place.next) _ (List.forall_mem_nil _)
    rfl rfl hnext (h _ _ hrest hafter hend)
  have hinside := hbody.tiled (gathers_nil _) hinner hclosing
  have htiled := @Tiled.opening x.place.offset [] _ (.of .template [] x.place) _ .nil rfl rfl rfl
    hinside
  simpa using htiled

end Tiles

/-- Lexemes, up to the line feed at their end. -/
theorem Lexed.tiles {last : Token} (hend : last.kind = .eof) (hraw : last.raw = "")
    (h : Lexed xs ts) : Tiles xs ts last := by
  induction h with
  | nil =>
    intro offset text _ htext
    simp at htext
  | @blank x xs ts hx hxs ih => exact @Tiles.gap _ _ [x] _ hend hraw (.blank hx) hxs ih
  | @comment x y body z xs ts hx hy hbody hz hxs ih =>
    have hgap : Gap ((x :: y :: (body ++ [z])).map Located.char) := by
      have hline : '\n' ∉ body.map Located.char := by
        intro hmem
        obtain ⟨w, hw, hchar⟩ := List.mem_map.mp hmem
        exact hbody w hw hchar
      simpa [hx, hy, hz] using Gap.comment hline
    have hsplit : x :: y :: (body ++ z :: xs) = x :: y :: (body ++ [z]) ++ xs := by simp
    rw [hsplit]
    exact Tiles.gap hend hraw hgap hxs ih
  | @mark x kind xs ts hx _ ih =>
    obtain ⟨hstring, htemplate, heof, -⟩ := Kind.ne_of_ofChar? hx
    have hline : x.char ≠ '\n' := by
      intro hline
      rw [hline] at hx
      cases hx
    exact @Tiles.token _ _ _ _ x [] htemplate heof (Token.spelling_of hstring _ _) rfl
      (.inl (by simpa using hline)) ih
  | @plus x y xs ts hx hy _ ih =>
    have hspelling : (Token.of .plus ['+'] x.place).spelling = [x].map Located.char := by
      rw [Token.spelling_of (by decide), List.map_singleton, hx]
    exact @Tiles.token _ _ _ _ x [] (by simp [Token.of]) (by simp [Token.of]) hspelling rfl
      (.inr (List.cons_ne_nil _ _)) ih
  | @merge x y xs ts hx hy _ ih =>
    have hspelling : (Token.of .merge ['+', '+'] x.place).spelling = [x, y].map Located.char := by
      rw [Token.spelling_of (by decide), List.map_cons, List.map_singleton, hx, hy]
    exact @Tiles.token _ _ _ _ x [y] (by simp [Token.of]) (by simp [Token.of]) hspelling rfl
      (.inl (by simp [hy])) ih
  | @string x body y xs ts hx hbody hy _ ih =>
    have hspelling : (Token.of .string (body.map Located.char) x.place).spelling =
        (x :: (body ++ [y])).map Located.char := by
      rw [Token.spelling_of_string, List.map_cons, List.map_append, List.map_singleton, hx, hy]
    have hown : ((x :: (body ++ [y])).map Located.char).getLast? ≠ some '\n' := by
      rw [← hspelling, Token.spelling_of_string, ← List.cons_append, List.getLast?_concat]
      decide
    rw [List.append_cons]
    exact .token (by simp [Token.of]) (by simp [Token.of]) hspelling rfl (.inl hown) ih
  | @word x body y xs ts hx hbody hy _ ih =>
    obtain ⟨hstring, htemplate, heof⟩ :=
      Kind.ofWord_ne (String.ofList ((x :: body).map Located.char))
    exact .token htemplate heof (Token.spelling_of hstring _ _) rfl (.inr (List.cons_ne_nil _ _)) ih
  | @number x body y xs ts hx hbody hy _ ih =>
    exact .token (by simp [Token.of]) (by simp [Token.of]) (Token.spelling_of (by decide) _ _) rfl
      (.inr (List.cons_ne_nil _ _)) ih
  | template hx hbody hy _ ih => exact Tiles.template hx hbody hy ih

end Splice
