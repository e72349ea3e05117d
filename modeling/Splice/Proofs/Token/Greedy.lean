import Splice.Proofs.Streams
import Splice.Proofs.Templates
import Splice.Proofs.Token.Region

/-!
# Greedy tokens

A token takes up all characters that can go on with it, so a run of pluses outside of strings,
templates and comments is one merge for every two, and then a plus if one is left over
(`tokens_are_greedy`). What both need of a lexeme is in one place (`IsLexeme`): where its first
token ends, that tokens after the first are inside of a template, and that no run begins in the
middle of it. The rest is by induction on the lexemes, in the two directions: from a token to where
it is spelled (`Lexemes.exists_isGreedyAt`), and from where a run begins to the tokens before it
(`Lexemes.exists_lexed`).
-/

namespace Splice

open Text Scan

/-! ## Characters that go on with a token -/

/-- Whether a character goes on with a token of a kind. -/
def Kind.goesOn (kind : Kind) (c : Char) : Bool :=
  if kind ∈ words then isWord c
  else if kind = .number then isNumeric c
  else kind == .plus && c == '+'

theorem Kind.goesOn_ofWord (s : String) (c : Char) : (ofWord s).goesOn c = isWord c :=
  if_pos (ofWord_mem s)

/-- Nothing goes on with a token that is no word, no number and no plus. -/
theorem Kind.goesOn_eq_false {kind : Kind} (hword : kind ∉ words) (hnumber : kind ≠ .number)
    (hplus : kind ≠ .plus) (c : Char) : kind.goesOn c = false := by
  rw [goesOn, if_neg hword, if_neg hnumber, beq_false_of_ne hplus, Bool.false_and]

theorem Kind.goesOn_ofChar? {c : Char} {kind : Kind} (h : ofChar? c = some kind) (d : Char) :
    kind.goesOn d = false := by
  unfold ofChar? at h
  split at h
  case h_14 => cases h
  all_goals
    cases h
    exact goesOn_eq_false (by decide) (by decide) (by decide) d

/-! ## Lexemes one by one -/

/-- A token begins before some characters end: at one of them or before it, or after a quote that is
the boundary of a template. -/
def Token.IsWithin (t : Token) (xs : List Located) : Prop :=
  ∃ x ∈ xs, t.offset ≤ x.place.offset ∨ t.kind = .template ∧ t.offset = x.place.offset + 1

/-- Some characters begin with the spelling of a token, as it is outside of templates, and what is
after it does not go on with the token. -/
def Token.IsGreedyAt (t : Token) (xs : List Located) : Prop :=
  ∃ x body post, xs = x :: (body ++ post) ∧ t.offset = x.place.offset ∧
    (x :: body).map Located.char = t.spellingIn false ∧
    ((t.spellingIn false).getLast? ≠ some '\n' ∨ post ≠ []) ∧
    ∀ y ∈ post.head?, t.kind.goesOn y.char = false

/-- A blank, a comment or a lexeme: its characters, its tokens, and the characters after it. A token
of it that is outside of templates is the first one. -/
structure IsLexeme (own : List Located) (mine : List Token) (next : List Located) : Prop where
  isSealed : IsSealed (own.map Located.char)
  first : ∀ t ∈ mine.head?, t.IsGreedyAt (own ++ next)
  outside : insideAfter false mine = false
  inside : ∀ before after, mine = before ++ after → before ≠ [] → after ≠ [] →
    insideAfter false before = true
  within : Ascending own → ∀ t ∈ mine, t.IsWithin own

namespace IsLexeme

variable {own next : List Located} {mine : List Token}

theorem gap (h : IsSealed (own.map Located.char)) : IsLexeme own [] next where
  isSealed := h
  first t ht := by cases ht
  outside := rfl
  inside before after heq hne := absurd (List.append_eq_nil_iff.mp heq.symm).1 hne
  within _ t ht := absurd ht List.not_mem_nil

theorem token {x : Located} {body : List Located} {t : Token}
    (h : IsSealed ((x :: body).map Located.char)) (hkind : t.kind ≠ .template)
    (hspelling : t.spelling = (x :: body).map Located.char) (hplace : t.offset = x.place.offset)
    (hend : ((x :: body).map Located.char).getLast? ≠ some '\n' ∨ next ≠ [])
    (hnext : ∀ y ∈ next.head?, t.kind.goesOn y.char = false) : IsLexeme (x :: body) [t] next where
  isSealed := h
  first u hu := by
    obtain rfl : t = u := Option.some.inj hu
    have hown : t.spellingIn false = (x :: body).map Located.char := by
      rw [Token.spellingIn, if_neg Bool.false_ne_true, if_neg hkind, hspelling]
    exact ⟨x, body, next, rfl, hplace, hown.symm, hown ▸ hend, hnext⟩
  outside := by
    rw [insideAfter, List.foldl_cons, beq_false_of_ne hkind]
    rfl
  inside before after heq hbefore hafter := by
    obtain ⟨u, before, rfl⟩ := List.exists_cons_of_ne_nil hbefore
    obtain ⟨-, hnil⟩ := List.cons.inj heq
    exact absurd (List.append_eq_nil_iff.mp hnil.symm).2 hafter
  within _ := List.forall_mem_singleton.mpr ⟨x, List.mem_cons_self, .inl (Nat.le_of_eq hplace)⟩

theorem blank {x : Located} (hx : isSpace x.char = true) : IsLexeme [x] [] next :=
  .gap (.singleton (not_mem_of_class hx (by decide)))

theorem comment {x y z : Located} {body : List Located} (hx : x.char = ';') (hy : y.char = ';')
    (hbody : ∀ w ∈ body, w.char ≠ '\n') (hz : z.char = '\n') :
    IsLexeme (x :: y :: (body ++ [z])) [] next := by
  have hstep : ∀ c ∈ body.map Located.char, Region.comment.step c = .comment :=
    List.forall_mem_map.mpr fun w hw => if_neg (hbody w hw)
  have hsealed := @IsSealed.delimited [';', ';'] _ '\n' .comment rfl rfl (by decide) hstep rfl
  exact .gap (by simpa [hx, hy, hz] using hsealed)

theorem mark {x : Located} {kind : Kind} (hx : Kind.ofChar? x.char = some kind) :
    IsLexeme [x] [.of kind [x.char] x.place] next := by
  obtain ⟨hstring, htemplate, -⟩ := Kind.ne_of_ofChar? hx
  have hmark : (Kind.ofChar? x.char).isSome = true := by
    rw [hx]
    rfl
  have hsealed : IsSealed [x.char] :=
    .singleton (not_mem_of_class (p := fun c => (Kind.ofChar? c).isSome) hmark (by decide))
  have hline : [x.char].getLast? ≠ some '\n' := by
    intro hlast
    have hchar : x.char = '\n' := Option.some.inj hlast
    rw [hchar] at hx
    cases hx
  exact .token hsealed htemplate (Token.spelling_of hstring _ _) rfl (.inl hline)
    fun y _ => Kind.goesOn_ofChar? hx y.char

theorem plus {x y : Located} (hx : x.char = '+') (hy : y.char ≠ '+') :
    IsLexeme [x] [.of .plus ['+'] x.place] (y :: next) := by
  have hsealed : IsSealed [x.char] := .singleton (by rw [hx]; decide)
  have hspelling : (Token.of .plus ['+'] x.place).spelling = [x].map Located.char := by
    rw [Token.spelling_of (by decide), List.map_singleton, hx]
  refine .token hsealed (by simp [Token.of]) hspelling rfl (.inr (List.cons_ne_nil _ _)) ?_
  rintro z ⟨⟩
  exact beq_false_of_ne hy

theorem merge {x y : Located} (hx : x.char = '+') (hy : y.char = '+') :
    IsLexeme [x, y] [.of .merge ['+', '+'] x.place] next := by
  have hchars : [x, y].map Located.char = ['+', '+'] := by
    rw [List.map_cons, List.map_singleton, hx, hy]
  have hspelling : (Token.of .merge ['+', '+'] x.place).spelling = [x, y].map Located.char :=
    (Token.spelling_of (by decide) _ _).trans hchars.symm
  have hnext (c : Char) : Kind.merge.goesOn c = false :=
    Kind.goesOn_eq_false (by decide) (by decide) (by decide) c
  refine .token (hchars ▸ .merge) (by simp [Token.of]) hspelling rfl (.inl ?_)
    fun z _ => hnext z.char
  rw [hchars]
  decide

theorem string {x y : Located} {body : List Located} (hx : x.char = '"')
    (hbody : ∀ z ∈ body, z.char ≠ '"' ∧ z.char ≠ '\n') (hy : y.char = '"') :
    IsLexeme (x :: (body ++ [y])) [.of .string (body.map Located.char) x.place] next := by
  have hstep : ∀ c ∈ body.map Located.char, Region.string.step c = .string :=
    List.forall_mem_map.mpr fun z hz => if_neg (hbody z hz).1
  have hsealed := @IsSealed.delimited ['"'] _ '"' .string rfl rfl (by decide) hstep rfl
  have hchars : (x :: (body ++ [y])).map Located.char =
      '"' :: (body.map Located.char ++ ['"']) := by
    rw [List.map_cons, List.map_append, List.map_singleton, hx, hy]
  have hspelling : (Token.of .string (body.map Located.char) x.place).spelling =
      (x :: (body ++ [y])).map Located.char :=
    (Token.spelling_of_string _ _).trans hchars.symm
  have hnext (c : Char) : Kind.string.goesOn c = false :=
    Kind.goesOn_eq_false (by decide) (by decide) (by decide) c
  refine .token (hchars ▸ hsealed) (by simp [Token.of]) hspelling rfl (.inl ?_)
    fun z _ => hnext z.char
  rw [hchars, ← List.cons_append, List.getLast?_concat]
  decide

/-- A token that takes up characters of a class as long as there are any. -/
theorem of_class {p : Char → Bool} {x y : Located} {body : List Located} {kind : Kind}
    (hx : p x.char = true) (hbody : ∀ z ∈ body, p z.char = true)
    (hother : ['+', '"', '\'', ';'].all (!p ·) = true) (hstring : kind ≠ .string)
    (htemplate : kind ≠ .template) (hy : kind.goesOn y.char = false) :
    IsLexeme (x :: body) [.of kind ((x :: body).map Located.char) x.place] (y :: next) := by
  have hown : ∀ z ∈ x :: body, p z.char = true := List.forall_mem_cons.mpr ⟨hx, hbody⟩
  refine .token (.of_class (List.forall_mem_map.mpr hown) hother) htemplate
    (Token.spelling_of hstring _ _) rfl (.inr (List.cons_ne_nil _ _)) ?_
  rintro z ⟨⟩
  exact hy

theorem word {x y : Located} {body : List Located} (hx : isLetter x.char = true)
    (hbody : ∀ z ∈ body, isWord z.char = true) (hy : isWord y.char = false) :
    IsLexeme (x :: body) [.ofWord ((x :: body).map Located.char) x.place] (y :: next) := by
  obtain ⟨hstring, htemplate, -⟩ := Kind.ofWord_ne (String.ofList ((x :: body).map Located.char))
  have hnext := (Kind.goesOn_ofWord (String.ofList ((x :: body).map Located.char)) y.char).trans hy
  exact .of_class (isWord_of_isLetter hx) hbody (by decide) hstring htemplate hnext

theorem number {x y : Located} {body : List Located} (hx : x.char.isDigit = true)
    (hbody : ∀ z ∈ body, isNumeric z.char = true) (hy : isNumeric y.char = false) :
    IsLexeme (x :: body) [.of .number ((x :: body).map Located.char) x.place] (y :: next) :=
  .of_class (isNumeric_of_isDigit hx) hbody (by decide) (by decide) (by decide) hy

theorem template {x y : Located} {body : List Located} {us : List Token} (hx : x.char = '\'')
    (hbody : Interior [] body us) (hy : y.char = '\'') :
    IsLexeme (x :: (body ++ [y]))
      (.of .template [] x.place :: (us ++ [.of .template [] y.place.next])) next where
  isSealed := by
    have hstep : ∀ c ∈ body.map Located.char, Region.template.step c = .template := by
      refine List.forall_mem_map.mpr fun z hz => ?_
      exact if_neg (char_ne_of_interior hbody z hz).1
    have hsealed := @IsSealed.delimited ['\''] _ '\'' .template rfl rfl (by decide) hstep rfl
    simpa [hx, hy] using hsealed
  first t ht := by
    obtain rfl : Token.of .template [] x.place = t := Option.some.inj ht
    have hquote : ['\''].getLast? ≠ some '\n' := by decide
    have hlast (c : Char) : Kind.template.goesOn c = false :=
      Kind.goesOn_eq_false (by decide) (by decide) (by decide) c
    refine ⟨x, [], body ++ [y] ++ next, rfl, rfl, ?_, .inl hquote, fun z _ => hlast z.char⟩
    rw [List.map_singleton, hx]
    rfl
  outside := by
    have hus := insideAfter_eq_self (fun t ht => (kind_ne_of_interior hbody t ht).1) true
    show insideAfter true (us ++ [_]) = false
    rw [insideAfter_append, hus]
    rfl
  inside before after heq hbefore hafter := by
    obtain ⟨u, before, rfl⟩ := List.exists_cons_of_ne_nil hbefore
    obtain ⟨rfl, hrest⟩ := List.cons.inj heq
    show insideAfter true before = true
    have hfront : before <+: us := prefix_of_concat_eq hrest hafter
    exact insideAfter_eq_self
      (fun t ht => (kind_ne_of_interior hbody t (hfront.subset ht)).1) true
  within hplaces := by
    have hbetween : Ascending (body ++ [y]) := (List.pairwise_cons.mp hplaces).2
    have hbefore (z : Located) (hz : z ∈ body) : z.place.offset < y.place.offset :=
      (List.pairwise_append.mp hbetween).2.2 z hz y (List.mem_singleton_self y)
    have hlast : y ∈ x :: (body ++ [y]) := by simp
    refine List.forall_mem_cons.mpr ⟨⟨x, List.mem_cons_self, .inl (Nat.le_refl _)⟩,
      List.forall_mem_append.mpr ⟨fun t ht => ?_, List.forall_mem_singleton.mpr ?_⟩⟩
    · exact ⟨y, hlast, .inl ((isPlacedIn_of_mem_interior hbody t ht).offset_le hbefore)⟩
    · exact ⟨y, hlast, .inr ⟨rfl, rfl⟩⟩

end IsLexeme

/-- Blanks, comments and lexemes, one after another. -/
inductive Lexemes : List Located → List Token → Prop where
  | nil : Lexemes [] []
  | append {own xs mine ts} : IsLexeme own mine xs → Lexed (own ++ xs) (mine ++ ts) →
      Lexemes xs ts → Lexemes (own ++ xs) (mine ++ ts)

theorem Lexed.lexemes {xs : List Located} {ts : List Token} (h : Lexed xs ts) : Lexemes xs ts := by
  induction h with
  | nil => exact .nil
  | @blank x xs ts hx h ih => exact @Lexemes.append [x] _ [] _ (.blank hx) (.blank hx h) ih
  | @comment x y body z xs ts hx hy hbody hz h ih =>
    have hsplit : x :: y :: (body ++ z :: xs) = x :: y :: (body ++ [z]) ++ xs := by simp
    have hlexed := Lexed.comment hx hy hbody hz h
    rw [hsplit] at hlexed ⊢
    exact @Lexemes.append _ _ [] _ (.comment hx hy hbody hz) hlexed ih
  | @mark x kind xs ts hx h ih => exact @Lexemes.append [x] _ [_] _ (.mark hx) (.mark hx h) ih
  | @plus x y xs ts hx hy h ih =>
    exact @Lexemes.append [x] _ [_] _ (.plus hx hy) (.plus hx hy h) ih
  | @merge x y xs ts hx hy h ih =>
    exact @Lexemes.append [x, y] _ [_] _ (.merge hx hy) (.merge hx hy h) ih
  | @string x body y xs ts hx hbody hy h ih =>
    have hlexed := Lexed.string hx hbody hy h
    rw [List.append_cons, ← List.cons_append] at hlexed ⊢
    exact @Lexemes.append _ _ [_] _ (.string hx hbody hy) hlexed ih
  | @word x body y xs ts hx hbody hy h ih =>
    exact @Lexemes.append (x :: body) _ [_] _ (.word hx hbody hy) (.word hx hbody hy h) ih
  | @number x body y xs ts hx hbody hy h ih =>
    exact @Lexemes.append (x :: body) _ [_] _ (.number hx hbody hy) (.number hx hbody hy h) ih
  | @template x body us y xs ts hx hbody hy h ih =>
    have hlexed := Lexed.template hx hbody hy h
    rw [List.append_cons, ← List.cons_append] at hlexed ⊢
    rw [List.append_cons us, ← List.cons_append] at hlexed ⊢
    exact .append (.template hx hbody hy) hlexed ih

/-! ## Spellings -/

/-- A token that is outside of templates is spelled among the characters, and nothing goes on with
it. -/
theorem Lexemes.exists_isGreedyAt {xs : List Located} {ts before after : List Token} {t : Token}
    (h : Lexemes xs ts) (hts : ts = before ++ t :: after)
    (hinside : insideAfter false before = false) :
    ∃ pre suf, xs = pre ++ suf ∧ t.IsGreedyAt suf := by
  induction h generalizing before with
  | nil => simp at hts
  | @append own xs mine ts hlexeme _ _ ih =>
    have hbehind {before : List Token} (hts : ts = before ++ t :: after)
        (hinside : insideAfter false before = false) :
        ∃ pre suf, own ++ xs = pre ++ suf ∧ t.IsGreedyAt suf := by
      obtain ⟨pre, suf, rfl, hgreedy⟩ := ih hts hinside
      exact ⟨own ++ pre, suf, (List.append_assoc _ _ _).symm, hgreedy⟩
    rcases List.append_eq_append_iff.mp hts with ⟨between, rfl, hrest⟩ | ⟨between, rfl, hrest⟩
    · rw [insideAfter_append, hlexeme.outside] at hinside
      exact hbehind hrest hinside
    · cases between with
      | nil => exact @hbehind [] hrest.symm rfl
      | cons u between =>
        obtain ⟨rfl, -⟩ := List.cons.inj hrest
        cases before with
        | nil => exact ⟨[], own ++ xs, rfl, hlexeme.first t rfl⟩
        | cons v before =>
          have htrue := hlexeme.inside _ _ rfl (List.cons_ne_nil v before) (List.cons_ne_nil t _)
          exact Bool.noConfusion (hinside.symm.trans htrue)

/-! ## Runs of pluses -/

/-- The tokens of so many pluses from an offset on. -/
def plusRun (offset line n : Nat) : List Token :=
  (List.range (n / 2)).map (fun i => ⟨.merge, "++", offset + 2 * i, line⟩) ++
    List.replicate (n % 2) ⟨.plus, "+", offset + 2 * (n / 2), line⟩

theorem plusRun_add_two (offset line n : Nat) :
    plusRun offset line (n + 2) = ⟨.merge, "++", offset, line⟩ :: plusRun (offset + 2) line n := by
  have hshift (i : Nat) : offset + 2 * (i + 1) = offset + 2 + 2 * i := by omega
  have hhalf : (n + 2) / 2 = n / 2 + 1 := Nat.add_div_right n Nat.two_pos
  have hodd : (n + 2) % 2 = n % 2 := Nat.add_mod_right n 2
  rw [plusRun, hhalf, hodd, hshift, List.range_succ_eq_map, List.map_cons, List.map_map, plusRun,
    List.cons_append]
  simp only [Function.comp_def, Nat.succ_eq_add_one, hshift]
  rfl

/-- A plus is a token if there is no other after it, and with another it is a merge. -/
theorem Lexed.plus_cases {x : Located} {xs : List Located} {ts : List Token}
    (h : Lexed (x :: xs) ts) (hx : x.char = '+') :
    (∃ us, (∀ y ∈ xs.head?, y.char ≠ '+') ∧ ts = .of .plus ['+'] x.place :: us ∧ Lexed xs us) ∨
      ∃ y ys us, xs = y :: ys ∧ y.char = '+' ∧ ts = .of .merge ['+', '+'] x.place :: us ∧
        Lexed ys us := by
  cases h with
  | plus _ hy h =>
    refine .inl ⟨_, ?_, rfl, h⟩
    rintro z ⟨⟩
    exact hy
  | merge _ hy h => exact .inr ⟨_, _, _, rfl, hy, rfl, h⟩
  | mark hother =>
    rw [hx] at hother
    cases hother
  | blank hother | word hother | number hother | comment hother | string hother | template hother =>
    rw [hx] at hother
    exact absurd hother (by decide)

/-- A run of pluses is read as merges, and a plus if one is left over. -/
theorem Lexed.exists_plusRun {l : Location} {n : Nat} {post : List Located} {ts : List Token}
    (h : Lexed (locate l ((List.replicate n '+').map .encoded) ++ post) ts)
    (hpost : ∀ y ∈ post.head?, y.char ≠ '+') :
    ∃ vs, ts = plusRun l.offset l.line n ++ vs ∧ Lexed post vs := by
  induction n using Nat.twoStepInduction generalizing l ts with
  | zero => exact ⟨ts, rfl, h⟩
  | one =>
    have hone : Lexed (⟨'+', l⟩ :: post) ts := h
    rcases hone.plus_cases rfl with ⟨us, -, rfl, hus⟩ | ⟨y, ys, us, rfl, hy, -⟩
    · exact ⟨us, rfl, hus⟩
    · exact absurd hy (hpost y rfl)
  | more n ih _ =>
    rcases h.plus_cases rfl with ⟨us, hother, -⟩ | ⟨y, ys, us, hys, -, rfl, h⟩
    · exact absurd rfl (hother _ rfl)
    · obtain ⟨-, rfl⟩ := List.cons.inj hys
      obtain ⟨vs, rfl, hvs⟩ := ih h
      refine ⟨vs, ?_, hvs⟩
      rw [plusRun_add_two]
      rfl

/-- A run of pluses begins in code between some characters and others. -/
structure BeginsRun (pre suf : List Located) : Prop where
  plus : ∃ y ∈ suf.head?, y.char = '+'
  fresh : (pre.map Located.char).getLast? ≠ some '+'
  outside : (Region.code.read (pre.map Located.char)).isOutside = true

/-- A run does not begin in the middle of a lexeme. -/
theorem BeginsRun.exists_rest {own xs pre suf : List Located} (h : BeginsRun pre suf)
    (hown : IsSealed (own.map Located.char)) (hpre : pre ≠ []) (heq : own ++ xs = pre ++ suf) :
    ∃ rest, pre = own ++ rest ∧ xs = rest ++ suf ∧ BeginsRun rest suf := by
  have hbehind {rest : List Located} (hrest : pre = own ++ rest) : BeginsRun rest suf := by
    have houtside := h.outside
    have hfresh := h.fresh
    rw [hrest, List.map_append, Region.read_append, hown.closed] at houtside
    refine ⟨h.plus, fun hlast => hfresh ?_, houtside⟩
    rw [hrest, List.map_append, List.getLast?_append, hlast]
    rfl
  rcases List.append_eq_append_iff.mp heq with ⟨rest, hrest, hxs⟩ | ⟨between, hown', hsuf⟩
  · exact ⟨rest, hrest, hxs, hbehind hrest⟩
  · cases between with
    | nil =>
      rw [List.append_nil] at hown'
      have hrest : pre = own ++ [] := by rw [List.append_nil, hown']
      exact ⟨[], hrest, hsuf.symm, hbehind hrest⟩
    | cons y between =>
      obtain ⟨z, hz, hplus⟩ := h.plus
      obtain rfl : y = z := by
        rw [hsuf] at hz
        exact Option.some.inj hz
      have hchars : own.map Located.char =
          pre.map Located.char ++ '+' :: between.map Located.char := by
        rw [hown', List.map_append, List.map_cons, hplus]
      have hlast := hown.inner _ _ hchars (mt List.map_eq_nil_iff.mp hpre) h.outside
      exact absurd hlast h.fresh

/-- Where a run begins, the lexemes before it end. -/
theorem Lexemes.exists_lexed {xs pre suf : List Located} {ts : List Token} (h : Lexemes xs ts)
    (hplaces : Ascending xs) (heq : xs = pre ++ suf) (hrun : BeginsRun pre suf) :
    ∃ us vs, ts = us ++ vs ∧ Lexed suf vs ∧ ∀ t ∈ us, t.IsWithin pre := by
  induction h generalizing pre with
  | nil =>
    obtain ⟨y, hy, -⟩ := hrun.plus
    rw [(List.append_eq_nil_iff.mp heq.symm).2] at hy
    cases hy
  | @append own xs mine ts hlexeme hlexed _ ih =>
    by_cases hpre : pre = []
    · subst hpre
      rw [heq] at hlexed
      exact ⟨[], _, rfl, hlexed, List.forall_mem_nil _⟩
    · obtain ⟨hown, hxs, -⟩ := List.pairwise_append.mp hplaces
      obtain ⟨rest, rfl, hrest, hrun⟩ := hrun.exists_rest hlexeme.isSealed hpre heq
      obtain ⟨us, vs, rfl, hvs, hus⟩ := ih hxs hrest hrun
      refine ⟨mine ++ us, vs, (List.append_assoc _ _ _).symm, hvs, ?_⟩
      refine List.forall_mem_append.mpr ⟨fun t ht => ?_, fun t ht => ?_⟩
      · obtain ⟨x, hx, hplace⟩ := hlexeme.within hown t ht
        exact ⟨x, List.mem_append_left _ hx, hplace⟩
      · obtain ⟨x, hx, hplace⟩ := hus t ht
        exact ⟨x, List.mem_append_right _ hx, hplace⟩

/-! ## Sources -/

theorem utf8Length_replicate_plus (n : Nat) : utf8Length (List.replicate n '+') = n := by
  induction n with
  | zero => rfl
  | succ n ih =>
    rw [List.replicate_succ, utf8Length, ih]
    exact Nat.add_comm 1 n

theorem exists_spelling_of_lexed {octets : List UInt8} {ts before after : List Token} {t : Token}
    (hwell : isWellFormed octets = true) (h : Lexed (Source.ofOctets octets).terminated ts)
    (hts : ts = before ++ t :: after) (hinside : insideAfter false before = false) :
    ∃ earlier rest, characters octets = earlier ++ (t.spellingIn false ++ rest) ∧
      t.offset = utf8Length earlier ∧ ∀ c ∈ rest.head?, t.kind.goesOn c = false := by
  obtain ⟨pre, suf, hxs, x, body, post, rfl, hoffset, hspelling, hend, hnext⟩ :=
    h.lexemes.exists_isGreedyAt hts hinside
  rw [terminated_of_isWellFormed hwell] at hxs
  have hplaces : Consecutive 0 (pre ++ x :: (body ++ post)) :=
    hxs ▸ consecutive_locate .origin _
  have hchars : pre.map Located.char ++ t.spellingIn false ++ post.map Located.char =
      characters octets ++ ['\n'] := by
    have hmap := congrArg (List.map Located.char) hxs
    rw [map_char_locate_encoded] at hmap
    rw [← hspelling, List.append_assoc, ← List.map_append, ← List.map_append]
    exact hmap.symm
  have hlast : (pre.map Located.char ++ t.spellingIn false).getLast? ≠ some '\n' ∨
      post.map Located.char ≠ [] := by
    have hne : t.spellingIn false ≠ [] := hspelling ▸ List.cons_ne_nil _ _
    rw [List.getLast?_append_of_ne_nil _ hne]
    exact hend.imp_right (mt List.map_eq_nil_iff.mp)
  obtain ⟨rest, htext, hrest⟩ := exists_of_append_eq hchars hlast
  refine ⟨pre.map Located.char, rest, by rw [htext, List.append_assoc], ?_, ?_⟩
  · obtain ⟨-, hplace, -⟩ := consecutive_append.mp hplaces
    rw [hoffset, hplace, Nat.zero_add]
  · intro c hc
    obtain ⟨others, rfl⟩ := List.head?_eq_some_iff.mp hc
    obtain ⟨y, post, rfl, rfl, -⟩ := List.map_eq_cons_iff.mp hrest
    exact hnext y rfl

theorem exists_plusRun_of_lexed {octets : List UInt8} {ts : List Token} {earlier rest : List Char}
    {n : Nat} (hwell : isWellFormed octets = true)
    (h : Lexed (Source.ofOctets octets).terminated ts)
    (htext : characters octets = earlier ++ (List.replicate n '+' ++ rest)) (hn : 0 < n)
    (hfresh : earlier.getLast? ≠ some '+') (hrest : rest.head? ≠ some '+')
    (houtside : (Region.code.read earlier).isOutside = true) :
    ∃ before after, ts = before ++ (plusRun (utf8Length earlier) (earlier.count '\n') n ++ after) ∧
      (∀ t ∈ before, t.offset < utf8Length earlier ∨
        t.kind = .template ∧ t.offset = utf8Length earlier) ∧
      ∀ t ∈ after, utf8Length earlier + n ≤ t.offset := by
  -- the locations where the run begins and where it ends
  obtain ⟨l, hl⟩ : ∃ l, l = Location.origin.read (earlier.map .encoded) := ⟨_, rfl⟩
  obtain ⟨l', hl'⟩ : ∃ l', l' = l.read ((List.replicate n '+').map .encoded) := ⟨_, rfl⟩
  have hstart : l.offset = utf8Length earlier ∧ l.line = earlier.count '\n' := by
    rw [hl, Location.offset_read_encoded, Location.line_read_encoded]
    exact ⟨Nat.zero_add _, Nat.zero_add _⟩
  have hstop : l'.offset = utf8Length earlier + n := by
    rw [hl', Location.offset_read_encoded, hstart.1, utf8Length_replicate_plus]
  have hxs : (Source.ofOctets octets).terminated = locate .origin (earlier.map .encoded) ++
      (locate l ((List.replicate n '+').map .encoded) ++
        locate l' ((rest ++ ['\n']).map .encoded)) := by
    rw [terminated_of_isWellFormed hwell, htext, List.append_assoc, List.append_assoc,
      locate_encoded_append, ← hl, locate_encoded_append, ← hl']
  have hplaces := Source.pairwise_terminated octets
  rw [hxs] at h hplaces
  obtain ⟨n, rfl⟩ := Nat.exists_eq_succ_of_ne_zero (Nat.ne_of_gt hn)
  have hrun : BeginsRun (locate .origin (earlier.map .encoded))
      (locate l ((List.replicate (n + 1) '+').map .encoded) ++
        locate l' ((rest ++ ['\n']).map .encoded)) := by
    refine ⟨⟨⟨'+', l⟩, rfl, rfl⟩, ?_, ?_⟩ <;> rwa [map_char_locate_encoded]
  obtain ⟨us, vs, rfl, hvs, hus⟩ := h.lexemes.exists_lexed hplaces rfl hrun
  have hother : ∀ y ∈ (locate l' ((rest ++ ['\n']).map .encoded)).head?, y.char ≠ '+' := by
    cases rest with
    | nil =>
      rintro y ⟨⟩
      exact (by decide : '\n' ≠ '+')
    | cons c rest =>
      rintro y ⟨⟩
      exact fun hplus => hrest (congrArg some hplus)
  obtain ⟨ws, rfl, hws⟩ := hvs.exists_plusRun hother
  refine ⟨us, ws, by rw [← hstart.1, ← hstart.2], fun t ht => ?_, fun t ht => ?_⟩
  · obtain ⟨x, hx, hplace⟩ := hus t ht
    have hbefore : x.place.offset < l.offset :=
      (List.pairwise_append.mp hplaces).2.2 x hx ⟨'+', l⟩ List.mem_cons_self
    rcases hplace with hle | ⟨hkind, hafter⟩
    · exact .inl (by omega)
    · have hle : t.offset ≤ utf8Length earlier := by omega
      exact (Nat.lt_or_eq_of_le hle).imp_right (⟨hkind, ·⟩)
  · rw [← hstop]
    exact (isPlacedIn_of_mem_lexed hws t ht).le_offset fun x hx => le_offset_of_mem_locate hx

/-- **Greedy scanning.** Well-formed octets that are scanned without problems have the spelling of
each token that is outside of templates at its offset, and the character after it does not go on
with the token: no letter, numeral or `_` after a word, no part of a numeral after a number, and no
plus after a plus. Where a text has so many pluses in a row and no more, outside of strings,
templates and comments, there is one merge for every two, and then a plus if one is left over. -/
theorem tokens_are_greedy {octets : List UInt8} {ts : List Token}
    (hwell : isWellFormed octets = true) (h : (scanRun (.ofOctets octets)).outcome = .ok ts) :
    (∀ before t after, ts = before ++ t :: after → insideAfter false before = false →
      ∃ earlier rest, characters octets = earlier ++ (t.spellingIn false ++ rest) ∧
        t.offset = utf8Length earlier ∧ ∀ c ∈ rest.head?, t.kind.goesOn c = false) ∧
    ∀ earlier n rest, characters octets = earlier ++ (List.replicate n '+' ++ rest) → 0 < n →
      earlier.getLast? ≠ some '+' → rest.head? ≠ some '+' →
      (Region.code.read earlier).isOutside = true →
      ∃ before after,
        ts = before ++ (plusRun (utf8Length earlier) (earlier.count '\n') n ++ after) ∧
        (∀ t ∈ before, t.offset < utf8Length earlier ∨
          t.kind = .template ∧ t.offset = utf8Length earlier) ∧
        ∀ t ∈ after, utf8Length earlier + n ≤ t.offset := by
  obtain ⟨us, hlexed, rfl⟩ := outcome_scanRun_eq_ok_iff.mp h
  have hlength := length_of_isWellFormed hwell
  constructor
  · intro before t after hts hinside
    rcases List.eq_nil_or_concat' after with rfl | ⟨after, last, rfl⟩
    · -- the end of the input is after all characters
      obtain ⟨-, hlast⟩ := List.append_inj' hts rfl
      obtain rfl := (List.cons.inj hlast).1
      refine ⟨characters octets, [], ?_, ?_, by simp⟩
      · exact (List.append_nil _).symm
      · rw [Source.stop_ofOctets]
        exact hlength
    · rw [← List.cons_append, ← List.append_assoc] at hts
      obtain ⟨hus, -⟩ := List.append_inj' hts rfl
      exact exists_spelling_of_lexed hwell hlexed hus hinside
  · intro earlier n rest htext hn hfresh hrest houtside
    obtain ⟨before, after, rfl, hbefore, hafter⟩ :=
      exists_plusRun_of_lexed hwell hlexed htext hn hfresh hrest houtside
    have hend : utf8Length earlier + n ≤ octets.length := by
      rw [hlength, htext, utf8Length_append, utf8Length_append, utf8Length_replicate_plus]
      omega
    rw [Source.stop_ofOctets]
    refine ⟨before, after ++ [.atEnd octets.length (octets.count 10)], ?_, hbefore, ?_⟩
    · rw [List.append_assoc, List.append_assoc]
    · exact List.forall_mem_append.mpr ⟨hafter, List.forall_mem_singleton.mpr hend⟩

/-- A template with a plus in it, three pluses, and a word before a string with a plus in it. -/
def plusOctets : List UInt8 := encode ['\'', 'é', '+', '\'', '+', '+', '+', 'x', '"', '+', '"']

def plusTokens : List Token :=
  [⟨.template, "", 0, 0⟩, ⟨.string, "é+", 1, 0⟩, ⟨.template, "", 5, 0⟩, ⟨.merge, "++", 5, 0⟩,
    ⟨.plus, "+", 7, 0⟩, ⟨.name, "x", 8, 0⟩, ⟨.string, "+", 9, 0⟩, .atEnd 12 0]

/-- The three pluses are a merge and a plus, and the word ends before the string. -/
theorem tokens_are_greedy_pluses :
    (scanRun (.ofOctets plusOctets)).outcome = .ok plusTokens ∧
      (∃ earlier rest, characters plusOctets = earlier ++ (['x'] ++ rest) ∧
        8 = utf8Length earlier ∧ ∀ c ∈ rest.head?, isWord c = false) ∧
      ∃ before after, plusTokens =
          before ++ ([⟨.merge, "++", 5, 0⟩, ⟨.plus, "+", 7, 0⟩] ++ after) ∧
        (∀ t ∈ before, t.offset < 5 ∨ t.kind = .template ∧ t.offset = 5) ∧
        ∀ t ∈ after, 8 ≤ t.offset := by
  have hok : (scanRun (.ofOctets plusOctets)).outcome = .ok plusTokens := rfl
  have hwell : isWellFormed plusOctets = true := by decide
  obtain ⟨hspelled, hruns⟩ := tokens_are_greedy hwell hok
  refine ⟨hok, hspelled (plusTokens.take 5) _ _ rfl rfl, ?_⟩
  exact hruns ['\'', 'é', '+', '\''] 3 ['x', '"', '+', '"'] rfl (by decide) (by decide)
    (by decide) rfl

end Splice
