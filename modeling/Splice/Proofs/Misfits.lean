import Splice.Proofs.Outcome
import Splice.Proofs.Prefixes

/-!
# Misfits

A parse that fails does so at one token (`exists_rejects_of_parse`). What is before the token can be
completed to a sentence. With the token it cannot, unless the token opens a list or a merge inside
as many others as may be open.
-/

namespace Splice

open Parse

/-- After some tokens and before others a token is rejected, with a fault: the parser fails at it,
or it opens a list or a merge too deep. -/
inductive Rejects (before : List Token) (t : Token) : List Token → Fault → Prop where
  | step {after fault} : (upTo before).step t = failed ⟨fault, t⟩ → fault ≠ .tooDeep maxNesting →
      (∀ m, upTo before ≠ failed m) → (t.kind = .eof → ∀ e, upTo before ≠ complete e) →
      Rejects before t after fault
  | list {limit frames after} : Stack limit frames before → frames.length = maxNesting →
      t.kind = .openBracket → Rejects before t after (.tooDeep maxNesting)
  | merge {limit frames u after} : Stack limit frames before → frames.length = maxNesting →
      t.kind = .openParen → u.kind = .merge → Rejects before t (u :: after) (.tooDeep maxNesting)

variable {ts before after : List Token} {t : Token} {fault : Fault} {m : Misfit}

/-! ## Where a parse fails -/

theorem Rejects.append (h : Rejects before t after fault) (us : List Token) :
    Rejects before t (after ++ us) fault := by
  cases h with
  | step hstep hfault hs hlast => exact .step hstep hfault hs hlast
  | list h hlength hk => exact .list h hlength hk
  | merge h hlength hp hk => exact .merge h hlength hp hk

namespace Parse

variable {frames : List Frame}

theorem place_ne_failed (e : Expr) (frames : List Frame) (m : Misfit) :
    place e frames ≠ failed m := by
  cases frames <;> exact Parse.noConfusion

theorem enter_eq_failed {opening : Token} {f : Frame} (h : enter opening f frames = failed m) :
    m = ⟨.tooDeep maxNesting, opening⟩ ∧ ¬frames.length < maxNesting := by
  unfold enter at h
  split at h
  case isTrue => cases h
  case isFalse hlength =>
    cases h
    exact ⟨rfl, hlength⟩

/-- How a token inside frames is rejected: as a number that its text does not denote, as a list that
opens too deep, or as misplaced. -/
theorem stepInside_eq_failed (h : stepInside frames t = failed m) :
    m = ⟨.badNumber, t⟩ ∧ t.kind = .number ∨
      m = ⟨.tooDeep maxNesting, t⟩ ∧ t.kind = .openBracket ∧ ¬frames.length < maxNesting ∨
      m = ⟨.misplacedToken, t⟩ ∧
        t.kind ∉ [.number, .string, .boolean, .openBracket, .openParen] := by
  unfold stepInside at h
  split at h
  case h_1 hk =>
    split at h
    case h_1 => exact absurd h (place_ne_failed _ _ _)
    case h_2 =>
      cases h
      exact .inl ⟨rfl, hk⟩
  case h_2 | h_3 => exact absurd h (place_ne_failed _ _ _)
  case h_4 hk =>
    obtain ⟨rfl, hlength⟩ := enter_eq_failed h
    exact .inr (.inl ⟨rfl, hk, hlength⟩)
  case h_5 => cases h
  case h_6 hk | h_7 hk =>
    split at h
    case h_1 => exact absurd h (place_ne_failed _ _ _)
    case h_2 =>
      cases h
      exact .inr (.inr ⟨rfl, by simp [hk]⟩)
  case h_8 hnumber hstring hboolean hbracket hparen _ _ =>
    cases h
    exact .inr (.inr ⟨rfl, by simpa using ⟨hnumber, hstring, hboolean, hbracket, hparen⟩⟩)

theorem exists_rejects (heof : ∀ t ∈ ts, t.kind ≠ .eof) (h : upTo ts = failed m) :
    ∃ before after, ts = before ++ m.token :: after ∧ Rejects before m.token after m.fault := by
  induction ts using List.reverseRecOn with
  | nil => cases h
  | append_singleton us u ih =>
    obtain ⟨hus, hu⟩ := List.forall_mem_append.mp heof
    have hlast : u.kind = .eof → ∀ e, upTo us ≠ complete e :=
      fun hk => absurd hk (hu u List.mem_cons_self)
    have hreads := reads_upTo us
    rw [upTo_concat] at h
    cases hstate : upTo us with
    | inside frames =>
      have hlive : ∀ m, upTo us ≠ failed m := by simp [hstate]
      have hstep : stepInside frames u = failed m := by rwa [hstate] at h
      rw [hstate] at hreads
      obtain ⟨hstack⟩ := hreads
      rcases stepInside_eq_failed hstep with ⟨rfl, -⟩ | ⟨rfl, hk, hlength⟩ | ⟨rfl, -⟩
      · exact ⟨us, [], rfl, .step h (by simp) hlive hlast⟩
      · have hall := hstack.length_add
        exact ⟨us, [], rfl, .list hstack (by omega) hk⟩
      · exact ⟨us, [], rfl, .step h (by simp) hlive hlast⟩
    | opened paren frames =>
      by_cases hk : u.kind = .merge
      · have hstep : enter paren (.merge u []) frames = failed m := by
          rw [hstate] at h
          exact (if_pos hk).symm.trans h
        obtain ⟨rfl, hlength⟩ := enter_eq_failed hstep
        rw [hstate] at hreads
        cases hreads with
        | @opened limit _ ts _ hstack hp =>
          have hall := hstack.length_add
          exact ⟨ts, [u], List.append_assoc _ _ _, .merge hstack (by omega) hp hk⟩
      · have hlive : ∀ m, upTo us ≠ failed m := by simp [hstate]
        have hstep : (upTo us).step u = misplaced u := by
          rw [hstate]
          exact if_neg hk
        cases hstep.symm.trans h
        exact ⟨us, [], rfl, .step hstep (by simp) hlive hlast⟩
    | complete e =>
      have hlive : ∀ m, upTo us ≠ failed m := by simp [hstate]
      have hstep : (upTo us).step u = misplaced u := by
        rw [hstate]
        rfl
      cases hstep.symm.trans h
      exact ⟨us, [], rfl, .step hstep (by simp) hlive hlast⟩
    | failed m' =>
      rw [hstate] at h
      cases h
      obtain ⟨before, after, rfl, hrejects⟩ := ih hus hstate
      exact ⟨before, after ++ [u], by simp, hrejects.append [u]⟩

theorem finish_eq_error {s : Parse} {last : Token} (h : s.finish last = .error m) :
    s = failed m ∨
      m = ⟨.misplacedToken, last⟩ ∧ (∀ m, s ≠ failed m) ∧ ∀ e, s ≠ complete e := by
  cases s with
  | inside frames | opened paren frames =>
    cases h
    exact .inr ⟨rfl, by simp, by simp⟩
  | complete e => cases h
  | failed m' =>
    cases h
    exact .inl rfl

theorem rejects_last {last : Token} (hlast : last.kind = .eof) (hm : ∀ m, upTo ts ≠ failed m)
    (hcomplete : ∀ e, upTo ts ≠ complete e) : Rejects ts last after .misplacedToken := by
  refine .step ?_ (by simp) hm fun _ => hcomplete
  cases hstate : upTo ts with
  | inside frames => simp [step, stepInside, hlast, misplaced]
  | opened paren frames => simp [step, hlast, misplaced]
  | complete e => exact absurd hstate (hcomplete e)
  | failed m => exact absurd hstate (hm m)

end Parse

/-- The end of the input is one of the tokens, or there is none and it stands after all octets. -/
theorem beforeEnd_cases (tokens : List Token) (octets : Nat) :
    (endToken tokens octets).kind = .eof ∧
      ((∃ after, tokens = beforeEnd tokens ++ endToken tokens octets :: after) ∨
        (∀ t ∈ tokens, t.kind ≠ .eof) ∧ tokens = beforeEnd tokens ∧
          endToken tokens octets = .atEnd octets 0) := by
  unfold endToken beforeEnd
  cases hfind : tokens.find? (·.kind == .eof) with
  | some last =>
    obtain ⟨hlast, before, after, rfl, hbefore⟩ := List.find?_eq_some_iff_append.mp hfind
    have hne : ∀ t ∈ before, (t.kind != .eof) = true := hbefore
    refine ⟨beq_iff_eq.mp hlast, .inl ⟨after, ?_⟩⟩
    rw [List.takeWhile_append_of_pos hne, List.takeWhile_cons_of_neg (by simpa using hlast),
      List.append_nil]
    rfl
  | none =>
    have hne : ∀ t ∈ tokens, t.kind ≠ .eof := by simpa using List.find?_eq_none.mp hfind
    refine ⟨rfl, .inr ⟨hne, ?_, rfl⟩⟩
    exact (List.takeWhile_eq_self_iff.mpr fun t ht => bne_iff_ne.mpr (hne t ht)).symm

/-- A parse that fails does so at one of its tokens, or at the end of the input after them. -/
theorem exists_rejects_of_parse {tokens : List Token} {octets : Nat}
    (h : parse tokens octets = .error m) :
    ∃ before after, (tokens = before ++ m.token :: after ∨
      (∀ t ∈ tokens, t.kind ≠ .eof) ∧ tokens = before ∧ after = [] ∧ m.token = .atEnd octets 0) ∧
      Rejects before m.token after m.fault := by
  obtain ⟨hlast, htokens⟩ := beforeEnd_cases tokens octets
  have hfinish : (upTo (beforeEnd tokens)).finish (endToken tokens octets) = .error m := by
    unfold parse at h
    split at h
    case h_1 => cases h
    case h_2 t ts hts =>
      rw [← hts, ← upTo] at h
      cases hresult : (upTo (beforeEnd tokens)).finish (endToken tokens octets) with
      | ok e =>
        rw [hresult] at h
        cases h
      | error m' =>
        rw [hresult] at h
        cases h
        rfl
  rcases finish_eq_error hfinish with hfailed | ⟨rfl, hm, hcomplete⟩
  · have heof : ∀ t ∈ beforeEnd tokens, t.kind ≠ .eof := by
      intro t ht
      have hne := List.mem_takeWhile_imp ht
      exact bne_iff_ne.mp hne
    obtain ⟨before, after, hbefore, hrejects⟩ := exists_rejects heof hfailed
    rw [hbefore] at htokens
    rcases htokens with ⟨rest, htokens⟩ | ⟨-, htokens, -⟩
    · rw [List.append_assoc, List.cons_append] at htokens
      exact ⟨before, _, .inl htokens, hrejects.append _⟩
    · exact ⟨before, after, .inl htokens, hrejects⟩
  · rcases htokens with ⟨rest, htokens⟩ | ⟨hne, htokens, hend⟩
    · exact ⟨_, rest, .inl htokens, rejects_last hlast hm hcomplete⟩
    · exact ⟨_, [], .inr ⟨hne, htokens, rfl, hend⟩, rejects_last hlast hm hcomplete⟩

/-! ## What is rejected -/

namespace Rejects

/-- What is before a rejected token can be completed to a sentence. -/
theorem isViable (h : Rejects before t after fault) : IsViable before := by
  cases h with
  | step _ _ hs _ => exact (reads_upTo before).isViable hs
  | list h _ _ | merge h _ _ _ =>
    obtain ⟨phrase, -, hviable⟩ := h.mayStart
    exact hviable.of_append

/-- With the token it can be completed if and only if the token opens a list or merge too deep. -/
theorem tooDeep_iff_isViable (h : Rejects before t after fault) :
    fault = .tooDeep maxNesting ↔ IsViable (before ++ [t]) := by
  cases h with
  | step hstep hfault _ hlast =>
    exact iff_of_false hfault (not_isViable_of_step hstep hfault hlast)
  | list h _ hk =>
    have hphrase : IsPhrase [t, .bare .closeBracket] := isPhrase_emptyList hk rfl
    have hviable := h.isViable hphrase
    rw [List.append_cons] at hviable
    exact iff_of_true rfl hviable.of_append
  | merge h _ hp _ =>
    have hphrase : IsPhrase [t, .bare .merge, .bare .closeParen] := isPhrase_emptyMerge hp rfl rfl
    have hviable := h.isViable hphrase
    rw [List.append_cons] at hviable
    exact iff_of_true rfl hviable.of_append

theorem badNumber_iff (h : Rejects before t after fault) :
    fault = .badNumber ↔ t.kind = .number ∧ MayStart before := by
  cases h with
  | step hstep _ hs _ =>
    constructor
    · rintro rfl
      have hreads := reads_upTo before
      cases hstate : upTo before with
      | inside frames =>
        rw [hstate] at hstep hreads
        obtain ⟨hstack⟩ := hreads
        rcases stepInside_eq_failed hstep with ⟨-, hk⟩ | ⟨hm, -⟩ | ⟨hm, -⟩
        · exact ⟨hk, hstack.mayStart⟩
        · cases hm
        · cases hm
      | opened paren frames =>
        rw [hstate, Parse.step] at hstep
        split at hstep
        case isTrue => cases (enter_eq_failed hstep).1
        case isFalse => cases hstep
      | complete e =>
        rw [hstate] at hstep
        cases hstep
      | failed m => exact absurd hstate (hs m)
    · rintro ⟨hk, hstart⟩
      obtain ⟨frames, hstate⟩ := hstart.exists_inside hs
      rw [hstate] at hstep
      rcases stepInside_eq_failed hstep with ⟨hm, -⟩ | ⟨-, hbracket, -⟩ | ⟨-, hother⟩
      · cases hm
        rfl
      · cases hk.symm.trans hbracket
      · simp [hk] at hother
  | list _ _ hk | merge _ _ hk _ => simp [hk]

/-- A token is rejected as too deep if it opens a list or a merge where an expression may start,
with as many open as may be. -/
theorem tooDeep_iff (h : Rejects before t after fault) : fault = .tooDeep maxNesting ↔
    (t.kind = .openBracket ∨ t.kind = .openParen ∧ ∃ u rest, after = u :: rest ∧ u.kind = .merge) ∧
      MayStart before ∧ nesting before = maxNesting := by
  cases h with
  | step hstep hfault hs hlast =>
    refine iff_of_false hfault ?_
    rintro ⟨hopens, hstart, -⟩
    obtain ⟨frames, hstate⟩ := hstart.exists_inside hs
    rw [hstate] at hstep
    rcases stepInside_eq_failed hstep with ⟨-, hnumber⟩ | ⟨hm, -⟩ | ⟨-, hother⟩
    · simp [hnumber] at hopens
    · cases hm
      exact hfault rfl
    · rcases hopens with hk | ⟨hk, -⟩
      · simp [hk] at hother
      · simp [hk] at hother
  | list h hlength hk =>
    exact iff_of_true rfl ⟨.inl hk, h.mayStart, h.nesting_eq.trans hlength⟩
  | merge h hlength hp hk =>
    exact iff_of_true rfl ⟨.inr ⟨hp, _, _, rfl, hk⟩, h.mayStart, h.nesting_eq.trans hlength⟩

end Rejects

/-- **Errors of the parser.** A parse that fails reports one problem, about one of the tokens or the
end of the input after them. The tokens before it can be completed to a sentence: an expression, of
any depth and with numbers that their texts denote, and the end of the input. With the token they
cannot, unless the problem is the depth. The problem is a bad number if and only if the token is a
number where an expression may start. It is the depth if and only if the token opens a list or a
merge where an expression may start, inside 256 others. -/
theorem parseRun_fails_at_misfit {tokens : List Token} {text : List Char}
    (h : (parseRun tokens text).outcome = .error .parse) :
    ∃ before t after d,
      (tokens = before ++ t :: after ∨ (∀ u ∈ tokens, u.kind ≠ .eof) ∧ tokens = before ∧
        after = [] ∧ t = .atEnd (Text.utf8Length text) 0) ∧
      (parseRun tokens text).diagnostics = [d] ∧
      d.problem.text = t.shown ∧ d.problem.line = t.line ∧
      d.problem.fault ∈ [.badNumber, .misplacedToken, .tooDeep 256] ∧
      IsViable before ∧
      (d.problem.fault = .tooDeep 256 ↔ IsViable (before ++ [t])) ∧
      (d.problem.fault = .badNumber ↔ t.kind = .number ∧ MayStart before) ∧
      (d.problem.fault = .tooDeep 256 ↔
        (t.kind = .openBracket ∨
          t.kind = .openParen ∧ ∃ u rest, after = u :: rest ∧ u.kind = .merge) ∧
        MayStart before ∧ nesting before = 256) := by
  unfold parseRun at h ⊢
  split at h
  case h_1 | h_2 => cases h
  case h_3 m hm =>
    obtain ⟨before, after, htokens, hrejects⟩ := exists_rejects_of_parse hm
    exact ⟨before, m.token, after, ⟨m.problem text, text⟩, htokens, rfl, rfl, rfl,
      fault_of_parse hm, hrejects.isViable, hrejects.tooDeep_iff_isViable, hrejects.badNumber_iff,
      hrejects.tooDeep_iff⟩

/-- The tokens of a list with an operator in it that has no place there. -/
def operatorTokens : List Token :=
  [⟨.openBracket, "[", 0, 0⟩, ⟨.plus, "+", 1, 0⟩, .atEnd 2 0]

/-- The operator is rejected, and the bracket before it is not. -/
theorem parseRun_fails_at_operator :
    (parseRun operatorTokens ['[', '+']).outcome = .error .parse ∧
      ∃ before t after, operatorTokens = before ++ t :: after ∧ t.shown = "+" ∧
        IsViable before ∧ ¬IsViable (before ++ [t]) := by
  have houtcome : (parseRun operatorTokens ['[', '+']).outcome = .error .parse := rfl
  have hreported : (parseRun operatorTokens ['[', '+']).diagnostics =
      [⟨⟨.misplacedToken, 0, 1, "+"⟩, ['[', '+']⟩] := rfl
  obtain ⟨before, t, after, d, htokens, hd, htext, -, -, hviable, hdeep, -⟩ :=
    parseRun_fails_at_misfit houtcome
  cases hreported.symm.trans hd
  refine ⟨houtcome, before, t, after, ?_, htext.symm, hviable, ?_⟩
  · refine htokens.resolve_right ?_
    rintro ⟨hne, -⟩
    exact hne (.atEnd 2 0) (by decide) rfl
  · rw [← hdeep]
    simp

end Splice
