import Splice.Proofs.Parsing

/-!
# Prefixes of sentences

A sentence is a phrase, of any depth, and the end of the input. Tokens are viable if others complete
them to a sentence. All that the parser has read is viable until it fails (`Reads.isViable`). The
converse holds but for the limit on nesting: a phrase of any depth is read to its end, or it is
nested too deep (`Phrase.foldl_step`), so a token that is rejected for another reason completes
nothing (`not_isViable_of_step`).
-/

namespace Splice

open Splice.Expr

/-- Tokens that are one expression, of any depth. -/
def IsPhrase (ts : List Token) : Prop := ∃ depth, Phrase depth ts

/-- Tokens that others complete to a phrase and the end of the input. -/
def IsViable (ts : List Token) : Prop :=
  ∃ rest phrase last, IsPhrase phrase ∧ last.kind = .eof ∧ ts ++ rest = phrase ++ [last]

/-- Tokens after which an expression may start. -/
def MayStart (ts : List Token) : Prop := ∃ phrase, IsPhrase phrase ∧ IsViable (ts ++ phrase)

namespace Token

def opens (t : Token) : Bool := t.kind == .openBracket || t.kind == .merge

def closes (t : Token) : Bool := t.kind == .closeBracket || t.kind == .closeParen

end Token

/-- How many lists and merges are open after some tokens. -/
def nesting (ts : List Token) : Nat := ts.countP Token.opens - ts.countP Token.closes

variable {ts us own phrase : List Token} {t : Token}

/-! ## Phrases of any depth -/

theorem Phrase.mono {depth depth' : Nat} (h : Phrase depth ts) (hle : depth ≤ depth') :
    Phrase depth' ts := by
  induction h generalizing depth' with
  | number hk hv => exact .number hk hv
  | string hk => exact .string hk
  | boolean hk => exact .boolean hk
  | list ho _ hc ih =>
    obtain ⟨d, rfl⟩ : ∃ d, depth' = d + 1 := Nat.exists_eq_add_one.mpr (by omega)
    exact .list ho (fun p hp => ih p hp (Nat.le_of_succ_le_succ hle)) hc
  | merge hp ho _ hc ih =>
    obtain ⟨d, rfl⟩ : ∃ d, depth' = d + 1 := Nat.exists_eq_add_one.mpr (by omega)
    exact .merge hp ho (fun p hp => ih p hp (Nat.le_of_succ_le_succ hle)) hc

theorem countP_opens_flatten {parts : List (List Token)}
    (h : ∀ p ∈ parts, p.countP Token.opens = p.countP Token.closes) :
    parts.flatten.countP Token.opens = parts.flatten.countP Token.closes := by
  rw [List.countP_flatten, List.countP_flatten, List.map_congr_left h]

theorem Phrase.countP_opens {depth : Nat} (h : Phrase depth ts) :
    ts.countP Token.opens = ts.countP Token.closes := by
  induction h with
  | number hk | string hk | boolean hk => simp [Token.opens, Token.closes, hk]
  | list ho _ hc ih => simp [Token.opens, Token.closes, ho, hc, countP_opens_flatten ih]
  | merge hp ho _ hc ih => simp [Token.opens, Token.closes, hp, ho, hc, countP_opens_flatten ih]

/-- A phrase starts with a token that may stand where an expression is due. -/
theorem IsPhrase.exists_cons (h : IsPhrase ts) :
    ∃ t rest, ts = t :: rest ∧ t.kind ≠ .merge ∧ t.kind ≠ .eof := by
  obtain ⟨depth, h⟩ := h
  cases h with
  | number hk | string hk | boolean hk => exact ⟨_, _, rfl, by simp [hk]⟩
  | list ho => exact ⟨_, _, rfl, by simp [ho]⟩
  | merge hp => exact ⟨_, _, rfl, by simp [hp]⟩

theorem isPhrase_emptyList {opening closing : Token} (ho : opening.kind = .openBracket)
    (hc : closing.kind = .closeBracket) : IsPhrase [opening, closing] :=
  ⟨1, @Phrase.list 0 _ _ [] ho (List.forall_mem_nil _) hc⟩

theorem isPhrase_emptyMerge {paren operator closing : Token} (hp : paren.kind = .openParen)
    (ho : operator.kind = .merge) (hc : closing.kind = .closeParen) :
    IsPhrase [paren, operator, closing] :=
  ⟨1, @Phrase.merge 0 _ _ _ [] hp ho (List.forall_mem_nil _) hc⟩

theorem exists_depth {parts : List (List Token)} (h : ∀ p ∈ parts, IsPhrase p) :
    ∃ depth, ∀ p ∈ parts, Phrase depth p := by
  induction parts with
  | nil => exact ⟨0, List.forall_mem_nil _⟩
  | cons p parts ih =>
    obtain ⟨⟨d, hp⟩, hparts⟩ := List.forall_mem_cons.mp h
    obtain ⟨depth, hdepth⟩ := ih hparts
    exact ⟨max d depth, List.forall_mem_cons.mpr ⟨hp.mono (Nat.le_max_left _ _),
      fun q hq => (hdepth q hq).mono (Nat.le_max_right _ _)⟩⟩

theorem Expr.AreTreesOf.exists_parts {limit : Nat} {es : List Expr} (h : AreTreesOf limit ts es) :
    ∃ parts : List (List Token), ts = parts.flatten ∧ ∀ p ∈ parts, Phrase limit p :=
  exists_phrases (fun _ _ {_} he => he.phrase) h

theorem IsViable.of_append (h : IsViable (ts ++ us)) : IsViable ts := by
  obtain ⟨rest, phrase, last, hphrase, hlast, heq⟩ := h
  exact ⟨us ++ rest, phrase, last, hphrase, hlast, (List.append_assoc _ _ _).symm.trans heq⟩

theorem IsViable.kind_ne_template (h : IsViable ts) : ∀ t ∈ ts, t.kind ≠ .template := by
  obtain ⟨rest, phrase, last, ⟨depth, hphrase⟩, hlast, heq⟩ := h
  intro t ht htemplate
  have hmem : t ∈ phrase ++ [last] := heq ▸ List.mem_append_left rest ht
  rcases List.mem_append.mp hmem with hmem | hmem
  · have hkind := hphrase.kind_mem hmem
    rw [htemplate] at hkind
    exact absurd hkind (by decide)
  · rw [List.mem_singleton.mp hmem, hlast] at htemplate
    cases htemplate

/-! ## What the parser has read -/

namespace Parse

variable {limit : Nat} {frames : List Frame} {f : Frame} {s : Parse}

/-- A frame with one more phrase in it can be closed. -/
theorem Opens.exists_closing (h : Opens limit f own) (hphrase : IsPhrase phrase) :
    ∃ closing, IsPhrase (own ++ phrase ++ [closing]) := by
  have hparts {us : List Token} {es : List Expr} (hus : AreTreesOf limit us es) :
      ∃ depth parts, us ++ phrase = List.flatten parts ∧ ∀ p ∈ parts, Phrase depth p := by
    obtain ⟨parts, rfl, hparts⟩ := hus.exists_parts
    have hall : ∀ p ∈ parts ++ [phrase], IsPhrase p :=
      List.forall_mem_append.mpr ⟨fun p hp => ⟨limit, hparts p hp⟩, by simpa using hphrase⟩
    obtain ⟨depth, hdepth⟩ := exists_depth hall
    exact ⟨depth, _, by simp, hdepth⟩
  cases h with
  | list hk hi =>
    obtain ⟨depth, parts, heq, hdepth⟩ := hparts hi
    refine ⟨.bare .closeBracket, depth + 1, ?_⟩
    rw [List.cons_append, List.cons_append, heq]
    exact .list hk hdepth rfl
  | merge hp hk ho =>
    obtain ⟨depth, parts, heq, hdepth⟩ := hparts ho
    refine ⟨.bare .closeParen, depth + 1, ?_⟩
    rw [List.cons_append, List.cons_append, List.cons_append, List.cons_append, heq]
    exact .merge hp hk hdepth rfl

/-- A phrase may follow where an expression is due: then the frames can be closed, one after
another. -/
theorem Stack.isViable (h : Stack limit frames ts) (hphrase : IsPhrase phrase) :
    IsViable (ts ++ phrase) := by
  induction h generalizing phrase with
  | nil => exact ⟨[.bare .eof], phrase, .bare .eof, hphrase, rfl, rfl⟩
  | cons _ hf ih =>
    obtain ⟨closing, hclosed⟩ := hf.exists_closing hphrase
    have hviable := ih hclosed
    rw [← List.append_assoc, ← List.append_assoc] at hviable
    exact hviable.of_append

theorem Stack.mayStart (h : Stack limit frames ts) : MayStart ts :=
  have hphrase : IsPhrase [.bare .string] := ⟨0, .string rfl⟩
  ⟨_, hphrase, h.isViable hphrase⟩

theorem Reads.isViable (h : Reads s ts) (hs : ∀ m, s ≠ .failed m) : IsViable ts := by
  cases h with
  | inside h =>
    obtain ⟨phrase, -, hviable⟩ := h.mayStart
    exact hviable.of_append
  | @opened limit frames ts paren h hp =>
    have hphrase : IsPhrase [paren, .bare .merge, .bare .closeParen] :=
      isPhrase_emptyMerge hp rfl rfl
    have hviable := h.isViable hphrase
    rw [List.append_cons] at hviable
    exact hviable.of_append
  | complete h => exact ⟨[.bare .eof], ts, .bare .eof, ⟨_, h.phrase⟩, rfl, rfl⟩
  | failed => exact absurd rfl (hs _)

theorem Opens.countP_opens (h : Opens limit f own) :
    own.countP Token.opens = own.countP Token.closes + 1 := by
  have hparts {us : List Token} {es : List Expr} (hus : AreTreesOf limit us es) :
      us.countP Token.opens = us.countP Token.closes := by
    obtain ⟨parts, rfl, hparts⟩ := hus.exists_parts
    exact countP_opens_flatten fun p hp => (hparts p hp).countP_opens
  cases h with
  | list hk hi => simp [Token.opens, Token.closes, hk, hparts hi]
  | merge hp hk ho => simp [Token.opens, Token.closes, hp, hk, hparts ho]

theorem Stack.nesting_eq (h : Stack limit frames ts) : nesting ts = frames.length := by
  suffices hcount : ts.countP Token.opens = ts.countP Token.closes + frames.length by
    unfold nesting
    omega
  induction h with
  | nil => rfl
  | cons _ hf ih =>
    have hown := hf.countP_opens
    rw [List.countP_append, List.countP_append, List.length_cons]
    omega

/-! ## What the parser reads of a sentence -/

def upTo (ts : List Token) : Parse := ts.foldl step (inside [])

theorem upTo_concat (ts : List Token) (t : Token) : upTo (ts ++ [t]) = (upTo ts).step t :=
  List.foldl_append

theorem reads_upTo (ts : List Token) : Reads (upTo ts) ts := .foldl (.inside .nil) ts

/-- A parse that has placed an expression in some frames, or has found it nested too deep. -/
def Places (frames : List Frame) (s : Parse) : Prop :=
  (∃ e, s = place e frames) ∨ ∃ t, s = failed ⟨.tooDeep maxNesting, t⟩

theorem foldl_step_failed (m : Misfit) (ts : List Token) : ts.foldl step (failed m) = failed m := by
  induction ts with
  | nil => rfl
  | cons t ts ih => exact ih

/-- Phrases inside a frame all go into it, unless one is nested too deep. -/
theorem foldl_step_flatten {parts : List (List Token)}
    (h : ∀ p ∈ parts, ∀ frames, Places frames (p.foldl step (inside frames))) (f : Frame)
    (frames : List Frame) :
    (∃ es, parts.flatten.foldl step (inside (f :: frames)) = inside (f.pushAll es :: frames)) ∨
      ∃ t, parts.flatten.foldl step (inside (f :: frames)) = failed ⟨.tooDeep maxNesting, t⟩ := by
  induction parts generalizing f with
  | nil => exact .inl ⟨[], rfl⟩
  | cons p parts ih =>
    obtain ⟨hp, hparts⟩ := List.forall_mem_cons.mp h
    rw [List.flatten_cons, List.foldl_append]
    rcases hp (f :: frames) with ⟨e, he⟩ | ⟨t, ht⟩
    · rw [he]
      rcases ih hparts (f.push e) with ⟨es, hes⟩ | hdeep
      · exact .inl ⟨e :: es, hes⟩
      · exact .inr hdeep
    · rw [ht]
      exact .inr ⟨t, foldl_step_failed _ _⟩

/-- Phrases inside a frame that can be closed, unless it opens too deep. -/
theorem places_enter {parts : List (List Token)} {closing : Token}
    (h : ∀ p ∈ parts, ∀ frames, Places frames (p.foldl step (inside frames)))
    (hclose : ∀ es, ∃ e, step (inside (f.pushAll es :: frames)) closing = place e frames)
    (opening : Token) :
    Places frames ((parts.flatten ++ [closing]).foldl step (enter opening f frames)) := by
  unfold enter
  split
  case isTrue =>
    rw [List.foldl_append]
    rcases foldl_step_flatten h f frames with ⟨es, hes⟩ | ⟨t, ht⟩
    · rw [hes]
      exact .inl (hclose es)
    · rw [ht]
      exact .inr ⟨t, rfl⟩
  case isFalse => exact .inr ⟨opening, foldl_step_failed _ _⟩

end Parse

open Parse

/-- The parser reads a phrase of any depth to its end, unless it is nested too deep. -/
theorem Phrase.foldl_step {depth : Nat} (h : Phrase depth ts) (frames : List Frame) :
    Places frames (ts.foldl step (inside frames)) := by
  induction h generalizing frames with
  | @number _ t n hk hn =>
    have hx := number?_eq_some_iff.mpr (Token.denotes_ofNumeral hn)
    exact .inl ⟨.number t (.ofNumeral n), by simp [step, stepInside, hk, hx]⟩
  | @string _ t hk => exact .inl ⟨.string t t.raw, by simp [step, stepInside, hk]⟩
  | @boolean _ t hk => exact .inl ⟨.boolean t (t.raw == "true"), by simp [step, stepInside, hk]⟩
  | @list _ opening closing parts ho _ hc ih =>
    have hopen : step (inside frames) opening = enter opening (.list opening []) frames := by
      simp [step, stepInside, ho]
    rw [List.foldl_cons, hopen]
    refine places_enter ih (fun es => ⟨.list opening (es.reverse ++ []).reverse, ?_⟩) opening
    rw [Frame.pushAll_list]
    simp only [step, stepInside, hc]
  | @merge _ paren operator closing parts hp ho _ hc ih =>
    have hparen : step (inside frames) paren = opened paren frames := by
      simp [step, stepInside, hp]
    have hopen : step (opened paren frames) operator =
        enter paren (.merge operator []) frames := by
      simp [step, ho]
    rw [List.foldl_cons, hparen, List.foldl_cons, hopen]
    refine places_enter ih (fun es => ⟨.merge operator (es.reverse ++ []).reverse, ?_⟩) paren
    rw [Frame.pushAll_merge]
    simp only [step, stepInside, hc]

/-- A token that is rejected, and not for its depth, completes nothing. -/
theorem not_isViable_of_step {m : Misfit}
    (hstep : (upTo ts).step t = failed m) (hm : m.fault ≠ .tooDeep maxNesting)
    (hlast : t.kind = .eof → ∀ e, upTo ts ≠ complete e) :
    ¬IsViable (ts ++ [t]) := by
  rintro ⟨rest, phrase, last, ⟨depth, hphrase⟩, hkind, heq⟩
  rw [List.append_assoc, List.singleton_append] at heq
  have hplaces : Places [] (upTo phrase) := hphrase.foldl_step []
  rcases List.eq_nil_or_concat rest with rfl | ⟨between, u, rfl⟩
  · -- the token is the end of the input
    obtain ⟨rfl, hlasts⟩ := List.append_inj' heq rfl
    obtain rfl : t = last := List.head_eq_of_cons_eq hlasts
    rcases hplaces with ⟨e, he⟩ | ⟨u, hu⟩
    · exact hlast hkind e he
    · rw [hu] at hstep
      cases hstep
      exact hm rfl
  · rw [List.concat_eq_append, ← List.cons_append, ← List.append_assoc] at heq
    obtain ⟨rfl, -⟩ := List.append_inj' heq rfl
    rw [upTo, List.foldl_append, ← upTo, List.foldl_cons, hstep, foldl_step_failed] at hplaces
    rcases hplaces with ⟨e, he⟩ | ⟨u, hu⟩
    · cases he
    · cases hu
      exact hm rfl

/-- Where an expression may start, the parser expects one, unless it has failed. -/
theorem MayStart.exists_inside (h : MayStart ts) (hs : ∀ m, upTo ts ≠ failed m) :
    ∃ frames, upTo ts = inside frames := by
  obtain ⟨phrase, hphrase, hviable⟩ := h
  obtain ⟨t, rest, rfl, hmerge, heof⟩ := hphrase.exists_cons
  rw [List.append_cons] at hviable
  have hnot (hstep : (upTo ts).step t = misplaced t) : False :=
    not_isViable_of_step hstep (by simp) (fun h => absurd h heof) hviable.of_append
  cases hstate : upTo ts with
  | inside frames => exact ⟨frames, rfl⟩
  | opened paren frames =>
    rw [hstate] at hnot
    exact (hnot (if_neg hmerge)).elim
  | complete e =>
    rw [hstate] at hnot
    exact (hnot rfl).elim
  | failed m => exact absurd hstate (hs m)

end Splice
