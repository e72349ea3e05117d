import Splice.Proofs.Program
import Splice.Proofs.Token.Lexeme

/-!
# Scanning a source

The first pass of a reader goes over the whole source. It gives tokens if and only if the source,
with a line feed at its end, is lexemes of these tokens (`outcome_scanRun_eq_ok_iff`). No lexeme is
the end of the input, so the tokens of the lexemes are the tokens before the end.
-/

namespace Splice

open Text Scan

/-- The characters of a source with a line feed at their end. -/
def Source.terminated (s : Source) : List Located := s.located ++ [⟨'\n', s.stop⟩]

theorem Source.located_from_origin (s : Source) :
    s.located.dropWhile (·.place.offset < Location.origin.offset) = s.located := by
  cases s.located <;> rfl

theorem Reader.pass_ofSource (source : Source) :
    (Reader.ofSource source).pass = Pass.ofChars source.located source.stop :=
  congrArg (fun chars => Pass.ofChars chars source.stop) source.located_from_origin

/-! ## Kinds of lexemes -/

theorem Kind.ofWord_mem (s : String) : Kind.ofWord s ∈ boolean :: name :: keywords := by
  unfold ofWord
  split
  case isTrue => exact List.mem_cons_self
  case isFalse =>
    cases h : keyword? s with
    | none => simp
    | some kind =>
      have hmem : kind ∈ keywords := List.mem_of_find?_eq_some h
      exact List.mem_cons_of_mem _ (List.mem_cons_of_mem _ hmem)

/-- A word is no string, no boundary of a template, and not the end of the input. -/
theorem Kind.ofWord_ne (s : String) :
    ofWord s ≠ .string ∧ ofWord s ≠ .template ∧ ofWord s ≠ .eof := by
  have hall : ∀ kind ∈ boolean :: name :: keywords,
      kind ≠ .string ∧ kind ≠ .template ∧ kind ≠ .eof := by decide
  exact hall _ (ofWord_mem s)

/-- Neither is a character that is a token by itself, and it is no name. -/
theorem Kind.ne_of_ofChar? {c : Char} {kind : Kind} (h : ofChar? c = some kind) :
    kind ≠ .string ∧ kind ≠ .template ∧ kind ≠ .eof ∧ kind ≠ .name := by
  unfold ofChar? at h
  split at h
  case h_14 => cases h
  all_goals
    cases h
    decide

theorem kind_of_mem_ofLiteral {text : List Located} {t : Token} (h : t ∈ Token.ofLiteral text) :
    t.kind = .string := by
  unfold Token.ofLiteral at h
  split at h
  case h_1 => exact absurd h List.not_mem_nil
  case h_2 =>
    rw [List.mem_singleton] at h
    rw [h]
    rfl

theorem kind_ne_of_interior {text xs : List Located} {ts : List Token} (h : Interior text xs ts) :
    ∀ t ∈ ts, t.kind ≠ .template ∧ t.kind ≠ .eof := by
  induction h with
  | done =>
    intro t ht
    rw [kind_of_mem_ofLiteral ht]
    decide
  | plain _ _ ih | brace _ _ ih => exact ih
  | slot _ _ _ _ ih =>
    refine List.forall_mem_append.mpr ⟨?_, List.forall_mem_cons.mpr ⟨(Kind.ofWord_ne _).2, ih⟩⟩
    intro t ht
    rw [kind_of_mem_ofLiteral ht]
    decide

theorem kind_ne_eof_of_lexed {xs : List Located} {ts : List Token} (h : Lexed xs ts) :
    ∀ t ∈ ts, t.kind ≠ .eof := by
  induction h with
  | nil => exact List.forall_mem_nil _
  | blank _ _ ih | comment _ _ _ _ _ ih => exact ih
  | mark hx _ ih => exact List.forall_mem_cons.mpr ⟨(Kind.ne_of_ofChar? hx).2.2.1, ih⟩
  | plus _ _ _ ih | merge _ _ _ ih | string _ _ _ _ ih | number _ _ _ _ ih =>
    exact List.forall_mem_cons.mpr ⟨by simp [Token.of], ih⟩
  | word _ _ _ _ ih => exact List.forall_mem_cons.mpr ⟨(Kind.ofWord_ne _).2.2, ih⟩
  | template _ hbody _ _ ih =>
    have hinner := fun t ht => (kind_ne_of_interior hbody t ht).2
    refine List.forall_mem_cons.mpr ⟨by simp [Token.of], List.forall_mem_append.mpr ⟨hinner, ?_⟩⟩
    exact List.forall_mem_cons.mpr ⟨by simp [Token.of], ih⟩

theorem beforeEnd_append_atEnd {ts : List Token} (h : ∀ t ∈ ts, t.kind ≠ .eof) (offset line : Nat) :
    beforeEnd (ts ++ [.atEnd offset line]) = ts := by
  unfold beforeEnd
  rw [List.takeWhile_append_of_pos fun t ht => bne_iff_ne.mpr (h t ht)]
  exact List.append_nil ts

/-! ## Runs -/

theorem Reader.tokens_ofSource {source : Source} {ts : List Token} {ended : Location}
    (h : (Reader.ofSource source).pass = ⟨ts, [], ended⟩) :
    (Reader.ofSource source).next.failed = false ∧ (Reader.ofSource source).tokens = ts := by
  have hfailed : (Reader.ofSource source).next.failed = false := by
    rw [Reader.next, h]
    rfl
  refine ⟨hfailed, ?_⟩
  rw [Reader.tokens, hfailed, h]
  rfl

theorem scanRun_of_pass {source : Source} {ts : List Token} {ended : Location}
    (h : (Reader.ofSource source).pass = ⟨ts, [], ended⟩) :
    scanRun source = ⟨[.scanned ts.length false], .ok ts⟩ := by
  obtain ⟨hfailed, htokens⟩ := Reader.tokens_ofSource h
  unfold scanRun
  simp only [hfailed, htokens, h]
  rfl

/-- A pass without problems ends where its characters end. -/
theorem Pass.exists_ofChars_eq {xs : List Located} {stop : Location}
    (h : (Pass.ofChars xs stop).problems = []) :
    ∃ ts, Pass.ofChars xs stop = ⟨ts ++ [.atEnd stop.offset stop.line], [], stop⟩ := by
  rcases mode_run_newline Scan.fresh xs stop with hmode | ⟨place, hmode⟩
  · rw [Pass.ofChars_of_ground hmode] at h ⊢
    exact ⟨_, congrArg (Pass.mk _ · _) h⟩
  · -- a scan that has stopped has found an open template
    obtain ⟨p, hp, -⟩ := (isStopped_run_fresh (xs ++ [⟨'\n', stop⟩])).mp ⟨place, hmode⟩
    rw [Pass.ofChars_of_stopped hmode] at h
    rw [List.reverse_eq_nil_iff.mp h] at hp
    exact absurd hp List.not_mem_nil

theorem scanRun_of_lexed {source : Source} {ts : List Token} (h : Lexed source.terminated ts) :
    scanRun source = ⟨[.scanned (ts.length + 1) false],
      .ok (ts ++ [.atEnd source.stop.offset source.stop.line])⟩ := by
  have hpass := (Reader.pass_ofSource source).trans (Pass.ofChars_eq_iff_lexed.mpr h)
  rw [scanRun_of_pass hpass, List.length_append]
  rfl

/-- **Scanning.** A source is scanned without problems if and only if it is lexemes. -/
theorem outcome_scanRun_eq_ok_iff {source : Source} {tokens : List Token} :
    (scanRun source).outcome = .ok tokens ↔
      ∃ ts, Lexed source.terminated ts ∧
        tokens = ts ++ [.atEnd source.stop.offset source.stop.line] := by
  constructor
  · intro h
    cases hproblems : (Reader.ofSource source).pass.problems with
    | cons p ps =>
      have hfailed : (Reader.ofSource source).next.failed = true := by
        rw [Reader.next, hproblems]
        rfl
      unfold scanRun at h
      simp only [hfailed, if_true] at h
      cases h
    | nil =>
      rw [Reader.pass_ofSource] at hproblems
      obtain ⟨ts, hts⟩ := Pass.exists_ofChars_eq hproblems
      rw [scanRun_of_pass ((Reader.pass_ofSource source).trans hts)] at h
      exact ⟨ts, Pass.ofChars_eq_iff_lexed.mp hts, (Except.ok.inj h).symm⟩
  · rintro ⟨ts, hlexed, rfl⟩
    rw [scanRun_of_lexed hlexed]

end Splice
