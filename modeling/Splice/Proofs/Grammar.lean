import Splice.Expr.Parse
import Splice.Proofs.Binary64.Nearest
import Splice.Proofs.Binary64.Numerals
import Splice.Proofs.Expr.Tree

/-!
# The grammar

`Phrase depth ts` says that the tokens `ts` derive from `expression`. A tree writes tokens back,
and `IsTreeOf` says that it is a tree of given tokens: it writes them, and its leaves are readings.
Phrases are the token lists that have a tree (`phrase_iff`).
-/

namespace Splice

/-! ## Numbers -/

namespace Token

/-- The text of a token without the underscores in it. -/
def numeral (t : Token) : List Char := t.raw.toList.filter (· != '_')

/-- A number is what a token denotes: the text without underscores is a numeral that rounds to the
number. -/
def Denotes (t : Token) (x : Binary64) : Prop := ∃ n, IsNumeral t.numeral n ∧ n.RoundsTo x

theorem denotes_ofNumeral {t : Token} {n : Numeral} (h : IsNumeral t.numeral n) :
    t.Denotes (.ofNumeral n) := ⟨n, h, Numeral.roundsTo_iff.mpr rfl⟩

end Token

theorem Parse.number?_eq_some_iff {t : Token} {x : Binary64} :
    number? t.raw = some x ↔ t.Denotes x := by
  have hread : number? t.raw = (Numeral.read? t.numeral).map .ofNumeral := rfl
  rw [hread, Option.map_eq_some_iff]
  refine exists_congr fun n => and_congr Numeral.read?_eq_some_iff ?_
  rw [Numeral.roundsTo_iff, eq_comm]

/-! ## Phrases -/

/-- Tokens that are one expression, with at most so many lists and merges open at once. -/
inductive Phrase : Nat → List Token → Prop where
  | number {depth t n} : t.kind = .number → IsNumeral t.numeral n → Phrase depth [t]
  | string {depth t} : t.kind = .string → Phrase depth [t]
  | boolean {depth t} : t.kind = .boolean → Phrase depth [t]
  | list {depth opening closing} {parts : List (List Token)} : opening.kind = .openBracket →
      (∀ p ∈ parts, Phrase depth p) → closing.kind = .closeBracket →
      Phrase (depth + 1) (opening :: (parts.flatten ++ [closing]))
  | merge {depth paren operator closing} {parts : List (List Token)} : paren.kind = .openParen →
      operator.kind = .merge → (∀ p ∈ parts, Phrase depth p) → closing.kind = .closeParen →
      Phrase (depth + 1) (paren :: operator :: (parts.flatten ++ [closing]))

theorem Phrase.ne_nil {depth : Nat} {ts : List Token} (h : Phrase depth ts) : ts ≠ [] := by
  cases h <;> exact List.cons_ne_nil _ _

/-- The kinds of the tokens of phrases. -/
def Kind.ofPhrases : List Kind :=
  [.number, .string, .boolean, .openBracket, .closeBracket, .openParen, .merge, .closeParen]

theorem Phrase.kind_mem {depth : Nat} {ts : List Token} (h : Phrase depth ts) {t : Token}
    (ht : t ∈ ts) : t.kind ∈ Kind.ofPhrases := by
  have hparts {parts : List (List Token)} (ih : ∀ p ∈ parts, t ∈ p → t.kind ∈ Kind.ofPhrases)
      (ht : t ∈ parts.flatten) : t.kind ∈ Kind.ofPhrases := by
    obtain ⟨p, hp, ht⟩ := List.mem_flatten.mp ht
    exact ih p hp ht
  induction h with
  | number hk _ | string hk | boolean hk =>
    rw [List.mem_singleton.mp ht, hk]
    decide
  | list ho _ hc ih =>
    simp only [List.mem_cons, List.mem_append, List.not_mem_nil, or_false] at ht
    rcases ht with rfl | ht | rfl
    · rw [ho]
      decide
    · exact hparts ih ht
    · rw [hc]
      decide
  | merge hp ho _ hc ih =>
    simp only [List.mem_cons, List.mem_append, List.not_mem_nil, or_false] at ht
    rcases ht with rfl | rfl | ht | rfl
    · rw [hp]
      decide
    · rw [ho]
      decide
    · exact hparts ih ht
    · rw [hc]
      decide

theorem Phrase.kind_ne_eof {depth : Nat} {ts : List Token} (h : Phrase depth ts) {t : Token}
    (ht : t ∈ ts) : t.kind ≠ .eof := by
  intro heof
  have hmem := h.kind_mem ht
  rw [heof] at hmem
  exact absurd hmem (by decide)

/-! ## Tokens of a tree -/

namespace Token

/-- A token of which only the kind is known. -/
def bare (k : Kind) : Token := ⟨k, "", 0, 0⟩

/-- The delimiters that a tree does not keep. -/
def isDropped (t : Token) : Bool :=
  t.kind == .openParen || t.kind == .closeParen || t.kind == .closeBracket

/-- A token as a tree writes it back: a delimiter that it does not keep is bare. -/
def written (t : Token) : Token := if t.isDropped then bare t.kind else t

@[simp] theorem kind_written (t : Token) : t.written.kind = t.kind := by
  unfold written
  split <;> rfl

theorem written_of_kept {t : Token} (h : t.isDropped = false) : t.written = t := by
  rw [written, h]
  rfl

theorem eq_of_written_eq {t u : Token} (h : t.written = u) (hu : u.isDropped = false) : t = u := by
  have hk : t.kind = u.kind := by rw [← h, kind_written]
  have ht : t.isDropped = false := by rw [isDropped, hk, ← isDropped, hu]
  rw [← h, written_of_kept ht]

theorem written_of_dropped {t : Token} {k : Kind} (hk : t.kind = k)
    (h : (bare k).isDropped = true) : t.written = bare k := by
  have ht : t.isDropped = true := by rw [← h, isDropped, isDropped, hk]; rfl
  rw [written, ht, hk]
  rfl

end Token

namespace Expr

mutual

/-- The tokens that an expression writes back. -/
def tokens : Expr → List Token
  | string t _ | number t _ | boolean t _ => [t]
  | list t items => t :: (tokensAll items ++ [.bare .closeBracket])
  | merge t operands => .bare .openParen :: t :: (tokensAll operands ++ [.bare .closeParen])

def tokensAll : List Expr → List Token
  | [] => []
  | e :: es => tokens e ++ tokensAll es

end

@[simp] theorem tokensAll_append (es es' : List Expr) :
    tokensAll (es ++ es') = tokensAll es ++ tokensAll es' := by
  induction es with
  | nil => rfl
  | cons e es ih => rw [List.cons_append, tokensAll, tokensAll, ih, List.append_assoc]

/-- Every leaf is the reading of its token, and every node has a token of its kind. -/
inductive Read : Expr → Prop where
  | string {t} : t.kind = .string → Read (.string t t.raw)
  | number {t x} : t.kind = .number → t.Denotes x → Read (.number t x)
  | boolean {t} : t.kind = .boolean → Read (.boolean t (t.raw == "true"))
  | list {t items} : t.kind = .openBracket → (∀ e ∈ items, Read e) → Read (.list t items)
  | merge {t operands} : t.kind = .merge → (∀ e ∈ operands, Read e) → Read (.merge t operands)

/-- A tree of some tokens: it writes them back, its leaves are readings, and at most `limit` lists
and merges are open at once. -/
structure IsTreeOf (limit : Nat) (ts : List Token) (e : Expr) : Prop where
  tokens_eq : e.tokens = ts.map Token.written
  read : e.Read
  depth_le : e.depth ≤ limit

structure AreTreesOf (limit : Nat) (ts : List Token) (es : List Expr) : Prop where
  tokens_eq : tokensAll es = ts.map Token.written
  read : ∀ e ∈ es, e.Read
  depth_le : ∀ e ∈ es, e.depth ≤ limit

namespace AreTreesOf

variable {limit : Nat} {ts us : List Token} {e : Expr} {es : List Expr}

theorem nil : AreTreesOf limit [] [] := ⟨rfl, by simp, by simp⟩

theorem append {es' : List Expr} (h : AreTreesOf limit ts es) (h' : AreTreesOf limit us es') :
    AreTreesOf limit (ts ++ us) (es ++ es') where
  tokens_eq := by rw [tokensAll_append, h.tokens_eq, h'.tokens_eq, List.map_append]
  read := List.forall_mem_append.mpr ⟨h.read, h'.read⟩
  depth_le := List.forall_mem_append.mpr ⟨h.depth_le, h'.depth_le⟩

theorem singleton (h : IsTreeOf limit ts e) : AreTreesOf limit ts [e] where
  tokens_eq := by rw [tokensAll, tokensAll, List.append_nil, h.tokens_eq]
  read := by simpa using h.read
  depth_le := by simpa using h.depth_le

/-- The tokens of some trees fall into those of the first and those of the others. -/
theorem uncons (h : AreTreesOf limit ts (e :: es)) :
    ∃ own rest, ts = own ++ rest ∧ IsTreeOf limit own e ∧ AreTreesOf limit rest es := by
  obtain ⟨own, rest, rfl, hown, hrest⟩ := List.map_eq_append_iff.mp h.tokens_eq.symm
  obtain ⟨hr, hrs⟩ := List.forall_mem_cons.mp h.read
  obtain ⟨hd, hds⟩ := List.forall_mem_cons.mp h.depth_le
  exact ⟨own, rest, rfl, ⟨hown.symm, hr, hd⟩, ⟨hrest.symm, hrs, hds⟩⟩

end AreTreesOf

namespace IsTreeOf

variable {limit : Nat} {ts us : List Token} {t paren closing : Token} {es : List Expr}

theorem of_string (hk : t.kind = .string) : IsTreeOf limit [t] (.string t t.raw) where
  tokens_eq := by simp [tokens, Token.written_of_kept, Token.isDropped, hk]
  read := .string hk
  depth_le := Nat.zero_le _

theorem of_number {x : Binary64} (hk : t.kind = .number) (hx : t.Denotes x) :
    IsTreeOf limit [t] (.number t x) where
  tokens_eq := by simp [tokens, Token.written_of_kept, Token.isDropped, hk]
  read := .number hk hx
  depth_le := Nat.zero_le _

theorem of_boolean (hk : t.kind = .boolean) :
    IsTreeOf limit [t] (.boolean t (t.raw == "true")) where
  tokens_eq := by simp [tokens, Token.written_of_kept, Token.isDropped, hk]
  read := .boolean hk
  depth_le := Nat.zero_le _

theorem of_list (hk : t.kind = .openBracket) (h : AreTreesOf limit us es)
    (hc : closing.kind = .closeBracket) :
    IsTreeOf (limit + 1) (t :: (us ++ [closing])) (.list t es) where
  tokens_eq := by
    have ht : t.written = t := Token.written_of_kept (by simp [Token.isDropped, hk])
    have hw : closing.written = .bare .closeBracket := Token.written_of_dropped hc rfl
    simp [tokens, h.tokens_eq, ht, hw]
  read := .list hk h.read
  depth_le := Nat.succ_le_succ (depthAll_le.mpr h.depth_le)

theorem of_merge (hp : paren.kind = .openParen) (hk : t.kind = .merge) (h : AreTreesOf limit us es)
    (hc : closing.kind = .closeParen) :
    IsTreeOf (limit + 1) (paren :: t :: (us ++ [closing])) (.merge t es) where
  tokens_eq := by
    have ht : t.written = t := Token.written_of_kept (by simp [Token.isDropped, hk])
    have hw : paren.written = .bare .openParen := Token.written_of_dropped hp rfl
    have hw' : closing.written = .bare .closeParen := Token.written_of_dropped hc rfl
    simp [tokens, h.tokens_eq, ht, hw, hw']
  read := .merge hk h.read
  depth_le := Nat.succ_le_succ (depthAll_le.mpr h.depth_le)

theorem eq_singleton {e : Expr} (h : IsTreeOf limit ts e) (he : e.tokens = [t])
    (ht : t.isDropped = false) : ts = [t] := by
  obtain ⟨u, rfl, hu⟩ := List.map_eq_singleton_iff.mp (h.tokens_eq.symm.trans he)
  rw [Token.eq_of_written_eq hu ht]

/-- The tokens of a list: its own, those of its items, and a closing bracket. -/
theorem list_cases (h : IsTreeOf limit ts (.list t es)) :
    ∃ us closing depth, limit = depth + 1 ∧ ts = t :: (us ++ [closing]) ∧
      t.kind = .openBracket ∧ closing.kind = .closeBracket ∧ AreTreesOf depth us es := by
  obtain ⟨htok, hread, hdepth⟩ := h
  cases hread with
  | list hk hr =>
    obtain ⟨t', rest, rfl, ht', hrest⟩ := List.map_eq_cons_iff.mp htok.symm
    obtain ⟨us, last, rfl, hus, hlast⟩ := List.map_eq_append_iff.mp hrest
    obtain ⟨closing, rfl, hc⟩ := List.map_eq_singleton_iff.mp hlast
    obtain rfl : t' = t := Token.eq_of_written_eq ht' (by simp [Token.isDropped, hk])
    obtain ⟨d, rfl⟩ : ∃ d, limit = d + 1 := Nat.exists_eq_add_one.mpr (Nat.zero_lt_of_lt hdepth)
    have hck : closing.kind = .closeBracket := by rw [← Token.kind_written, hc]; rfl
    exact ⟨us, closing, d, rfl, rfl, hk, hck, hus.symm, hr,
      depthAll_le.mp (Nat.le_of_succ_le_succ hdepth)⟩

/-- The tokens of a merge: a parenthesis, its own, those of its operands, and a parenthesis. -/
theorem merge_cases (h : IsTreeOf limit ts (.merge t es)) :
    ∃ paren us closing depth, limit = depth + 1 ∧ ts = paren :: t :: (us ++ [closing]) ∧
      paren.kind = .openParen ∧ t.kind = .merge ∧ closing.kind = .closeParen ∧
      AreTreesOf depth us es := by
  obtain ⟨htok, hread, hdepth⟩ := h
  cases hread with
  | merge hk hr =>
    obtain ⟨paren, rest', rfl, hp, hrest'⟩ := List.map_eq_cons_iff.mp htok.symm
    obtain ⟨t', rest, rfl, ht', hrest⟩ := List.map_eq_cons_iff.mp hrest'
    obtain ⟨us, last, rfl, hus, hlast⟩ := List.map_eq_append_iff.mp hrest
    obtain ⟨closing, rfl, hc⟩ := List.map_eq_singleton_iff.mp hlast
    obtain rfl : t' = t := Token.eq_of_written_eq ht' (by simp [Token.isDropped, hk])
    obtain ⟨d, rfl⟩ : ∃ d, limit = d + 1 := Nat.exists_eq_add_one.mpr (Nat.zero_lt_of_lt hdepth)
    have hpk : paren.kind = .openParen := by rw [← Token.kind_written, hp]; rfl
    have hck : closing.kind = .closeParen := by rw [← Token.kind_written, hc]; rfl
    exact ⟨paren, us, closing, d, rfl, rfl, hpk, hk, hck, hus.symm, hr,
      depthAll_le.mp (Nat.le_of_succ_le_succ hdepth)⟩

end IsTreeOf

/-! ## Phrases and trees -/

variable {depth : Nat} {ts : List Token}

/-- The trees of phrases are the trees of what the phrases make together. -/
theorem exists_areTreesOf {parts : List (List Token)}
    (h : ∀ p ∈ parts, ∃ e, IsTreeOf depth p e) : ∃ es, AreTreesOf depth parts.flatten es := by
  induction parts with
  | nil => exact ⟨[], .nil⟩
  | cons p parts ih =>
    obtain ⟨⟨e, he⟩, hs⟩ := List.forall_mem_cons.mp h
    obtain ⟨es, hes⟩ := ih hs
    exact ⟨e :: es, (AreTreesOf.singleton he).append hes⟩

/-- The tokens of trees fall into the phrases of the single trees. -/
theorem exists_phrases {es : List Expr}
    (hp : ∀ e ∈ es, ∀ {p}, IsTreeOf depth p e → Phrase depth p) (h : AreTreesOf depth ts es) :
    ∃ parts : List (List Token), ts = parts.flatten ∧ ∀ p ∈ parts, Phrase depth p := by
  induction es generalizing ts with
  | nil =>
    have hts : ts = [] := List.map_eq_nil_iff.mp h.tokens_eq.symm
    exact ⟨[], hts, by simp⟩
  | cons e es ih =>
    obtain ⟨own, rest, rfl, he, hes⟩ := h.uncons
    obtain ⟨hpe, hpes⟩ := List.forall_mem_cons.mp hp
    obtain ⟨parts, rfl, hparts⟩ := ih hpes hes
    exact ⟨own :: parts, rfl, List.forall_mem_cons.mpr ⟨hpe he, hparts⟩⟩

theorem exists_isTreeOf (h : Phrase depth ts) : ∃ e, IsTreeOf depth ts e := by
  induction h with
  | number hk hn => exact ⟨_, .of_number hk (Token.denotes_ofNumeral hn)⟩
  | string hk => exact ⟨_, .of_string hk⟩
  | boolean hk => exact ⟨_, .of_boolean hk⟩
  | list ho _ hc ih =>
    obtain ⟨items, h⟩ := exists_areTreesOf ih
    exact ⟨_, .of_list ho h hc⟩
  | merge hp ho _ hc ih =>
    obtain ⟨operands, h⟩ := exists_areTreesOf ih
    exact ⟨_, .of_merge hp ho h hc⟩

theorem IsTreeOf.phrase {e : Expr} (h : IsTreeOf depth ts e) : Phrase depth ts := by
  induction e generalizing depth ts with
  | string t s =>
    cases h.read with
    | string hk =>
      rw [h.eq_singleton rfl (by simp [Token.isDropped, hk])]
      exact .string hk
  | number t x =>
    cases h.read with
    | number hk hx =>
      rw [h.eq_singleton rfl (by simp [Token.isDropped, hk])]
      obtain ⟨n, hn, -⟩ := hx
      exact .number hk hn
  | boolean t b =>
    cases h.read with
    | boolean hk =>
      rw [h.eq_singleton rfl (by simp [Token.isDropped, hk])]
      exact .boolean hk
  | list t items ih =>
    obtain ⟨us, closing, d, rfl, rfl, hk, hc, hus⟩ := h.list_cases
    obtain ⟨parts, rfl, hparts⟩ := exists_phrases (fun e he => ih e he) hus
    exact .list hk hparts hc
  | merge t operands ih =>
    obtain ⟨paren, us, closing, d, rfl, rfl, hp, hk, hc, hus⟩ := h.merge_cases
    obtain ⟨parts, rfl, hparts⟩ := exists_phrases (fun e he => ih e he) hus
    exact .merge hp hk hparts hc

end Expr

/-- Phrases are the token lists that have a tree. -/
theorem phrase_iff {depth : Nat} {ts : List Token} :
    Phrase depth ts ↔ ∃ e, Expr.IsTreeOf depth ts e :=
  ⟨Expr.exists_isTreeOf, fun ⟨_, h⟩ => h.phrase⟩

end Splice
