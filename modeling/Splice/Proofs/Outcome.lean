import Splice.Proofs.Parsing
import Splice.Proofs.Scanning
import Splice.Proofs.Token.Problems

/-!
# Outcomes and diagnostics

Scanning fails if and only if it reports something (`scanRun_cases`), a parse fails if and only if
it reports something, which is then one problem (`parseRun_cases`), and nothing after a parse fails
or reports. So the outcome of a run and its diagnostics say the same
(`outcome_run_iff_diagnostics`).
-/

namespace Splice

/-! ## Scanning -/

theorem diagnostics_scanRun (source : Source) : (scanRun source).diagnostics =
    (Reader.ofSource source).pass.problems.map (⟨·, source.text⟩) := by
  show List.filterMap _ (List.map _ _ ++ [_]) = _
  rw [List.filterMap_append, List.filterMap_map]
  exact (List.append_nil _).trans (congrFun List.filterMap_eq_map' _)

/-- Scanning gives the tokens of the pass and reports nothing, or it fails and reports something;
then the end of the input is all there is. -/
theorem scanRun_cases (source : Source) :
    (scanRun source).diagnostics = [] ∧
        (scanRun source).outcome = .ok (Reader.ofSource source).tokens ∨
      (scanRun source).diagnostics ≠ [] ∧ (scanRun source).outcome = .error .scan ∧
        ∃ offset line, (Reader.ofSource source).tokens = [.atEnd offset line] := by
  rw [diagnostics_scanRun]
  cases h : (Reader.ofSource source).pass.problems with
  | nil =>
    have hfailed : (Reader.ofSource source).next.failed = false := by
      rw [Reader.next, h]
      rfl
    refine .inl ⟨rfl, ?_⟩
    rw [scanRun, hfailed]
    rfl
  | cons p ps =>
    have hfailed : (Reader.ofSource source).next.failed = true := by
      rw [Reader.next, h]
      rfl
    refine .inr ⟨List.cons_ne_nil _ _, ?_, ?_⟩
    · rw [scanRun, hfailed]
      rfl
    · rw [Reader.tokens, hfailed]
      exact ⟨_, _, rfl⟩

theorem map_problem_scanRun (source : Source) :
    (scanRun source).diagnostics.map Diagnostic.problem =
      (Scan.fresh.run source.terminated).problems.reverse := by
  rw [diagnostics_scanRun, List.map_map, Reader.pass_ofSource, Pass.problems_ofChars]
  exact List.map_id _

/-- Scanning that succeeds gives the tokens of a scan that ends between tokens. -/
theorem scan_of_outcome_scanRun {source : Source} {tokens : List Token}
    (h : (scanRun source).outcome = .ok tokens) :
    (Scan.fresh.run source.terminated).mode = .ground ∧
      ∀ t ∈ (Scan.fresh.run source.terminated).tokens, t ∈ tokens := by
  have hnone : (Scan.fresh.run source.terminated).problems = [] := by
    rcases scanRun_cases source with ⟨hnil, -⟩ | ⟨-, herror, -⟩
    · have hproblems := map_problem_scanRun source
      rw [hnil, eq_comm] at hproblems
      exact List.reverse_eq_nil_iff.mp hproblems
    · cases herror.symm.trans h
  have hmode : (Scan.fresh.run source.terminated).mode = .ground := by
    have hends := Scan.mode_run_newline .fresh source.located source.stop
    refine hends.resolve_right fun hstopped => ?_
    obtain ⟨p, hp, -⟩ := (Scan.isStopped_run_fresh source.terminated).mp hstopped
    rw [hnone] at hp
    exact List.not_mem_nil hp
  have hpass := (Reader.pass_ofSource source).trans (Pass.ofChars_of_ground hmode)
  have hproblems : (Scan.fresh.run (source.located ++ [⟨'\n', source.stop⟩])).problems = [] := hnone
  rw [hproblems] at hpass
  rw [scanRun_of_pass hpass] at h
  cases h
  exact ⟨hmode, fun t ht => List.mem_append_left _ (List.mem_reverse.mpr ht)⟩

theorem fault_of_mem_diagnostics_scanRun {source : Source} {d : Diagnostic}
    (h : d ∈ (scanRun source).diagnostics) :
    d.problem.fault ∈ [.unknownCharacter, .openString, .openTemplate] := by
  have hmem := List.mem_map_of_mem (f := Diagnostic.problem) h
  rw [map_problem_scanRun, List.mem_reverse] at hmem
  exact Scan.fault_of_mem_run hmem

/-- Only the last problem of scanning may be an open template. -/
theorem eq_nil_of_diagnostics_scanRun {source : Source} {before after : List Diagnostic}
    {d : Diagnostic} (h : (scanRun source).diagnostics = before ++ d :: after)
    (hfault : d.problem.fault = .openTemplate) : after = [] := by
  have hproblems := map_problem_scanRun source
  rw [h, eq_comm, List.reverse_eq_iff, List.map_append, List.map_cons, List.reverse_append,
    List.reverse_cons] at hproblems
  have htail := Scan.fault_ne_of_mem_tail source.terminated
  rw [hproblems] at htail
  cases hafter : (after.map Diagnostic.problem).reverse with
  | nil => exact List.map_eq_nil_iff.mp (List.reverse_eq_nil_iff.mp hafter)
  | cons p ps =>
    rw [hafter] at htail
    exact absurd hfault (htail d.problem (by simp))

/-! ## Parsing -/

namespace Parse

/-- The faults that a parse can have. -/
def faults : List Fault := [.badNumber, .misplacedToken, .tooDeep maxNesting]

/-- If a parse has failed, it has one of its faults. -/
def IsSound : Parse → Prop
  | failed m => m.fault ∈ faults
  | _ => True

theorem isSound_place (e : Expr) (frames : List Frame) : (place e frames).IsSound := by
  cases frames <;> trivial

theorem isSound_misplaced (t : Token) : (misplaced t).IsSound := by
  simp [misplaced, IsSound, faults]

theorem isSound_enter (opening : Token) (f : Frame) (frames : List Frame) :
    (enter opening f frames).IsSound := by
  unfold enter
  split
  case isTrue => trivial
  case isFalse => simp [IsSound, faults]

theorem isSound_stepInside (frames : List Frame) (t : Token) : (stepInside frames t).IsSound := by
  unfold stepInside
  split
  case h_1 =>
    split
    case h_1 => exact isSound_place _ _
    case h_2 => simp [IsSound, faults]
  case h_2 | h_3 => exact isSound_place _ _
  case h_4 => exact isSound_enter _ _ _
  case h_5 => trivial
  case h_6 | h_7 =>
    split
    case h_1 => exact isSound_place _ _
    case h_2 => exact isSound_misplaced t
  case h_8 => exact isSound_misplaced t

theorem IsSound.step {s : Parse} (h : s.IsSound) (t : Token) : (s.step t).IsSound := by
  cases s with
  | inside frames => exact isSound_stepInside frames t
  | opened paren frames =>
    show (if t.kind = .merge then Parse.enter paren (.merge t []) frames else misplaced t).IsSound
    split
    case isTrue => exact isSound_enter _ _ _
    case isFalse => exact isSound_misplaced t
  | complete => exact isSound_misplaced t
  | failed => exact h

theorem IsSound.foldl {s : Parse} (h : s.IsSound) (ts : List Token) :
    (ts.foldl Parse.step s).IsSound := by
  induction ts generalizing s with
  | nil => exact h
  | cons t ts ih => exact ih (h.step t)

theorem IsSound.finish {s : Parse} (h : s.IsSound) {last : Token} {m : Misfit}
    (hm : s.finish last = .error m) : m.fault ∈ faults := by
  cases s with
  | complete => cases hm
  | failed =>
    cases hm
    exact h
  | inside | opened =>
    cases hm
    exact isSound_misplaced last

end Parse

theorem fault_of_parse {ts : List Token} {octets : Nat} {m : Misfit}
    (h : parse ts octets = .error m) : m.fault ∈ Parse.faults := by
  unfold parse at h
  split at h
  case h_1 => cases h
  case h_2 t us _ =>
    have hsound := Parse.IsSound.foldl (s := .inside []) trivial (t :: us)
    cases hfinish : ((t :: us).foldl Parse.step (.inside [])).finish (endToken ts octets) with
    | ok e =>
      rw [hfinish] at h
      cases h
    | error m' =>
      rw [hfinish] at h
      cases h
      exact hsound.finish hfinish

/-- A parse gives a root or nothing and reports nothing, or it fails and reports one problem. -/
theorem parseRun_cases (ts : List Token) (text : List Char) :
    (∃ root, (parseRun ts text).outcome = .ok root ∧ (parseRun ts text).diagnostics = []) ∨
      ∃ d, (parseRun ts text).outcome = .error .parse ∧ (parseRun ts text).diagnostics = [d] ∧
        d.problem.fault ∈ Parse.faults := by
  unfold parseRun
  split
  case h_1 => exact .inl ⟨none, rfl, rfl⟩
  case h_2 e _ => exact .inl ⟨some e, rfl, rfl⟩
  case h_3 m h => exact .inr ⟨_, rfl, rfl, fault_of_parse h⟩

theorem parseRun_atEnd (offset line : Nat) (text : List Char) :
    parseRun [.atEnd offset line] text = ⟨[], .ok none⟩ := rfl

/-! ## Running -/

/-- The parse of the tokens that scanning gives, also after a failure. -/
def Source.parsed (source : Source) : Run (Option Expr) :=
  parseRun (Reader.ofSource source).tokens source.text

/-- Reading the root of a source is scanning it, and parsing it unless scanning failed. -/
theorem rootRun_cases (source : Source) :
    (scanRun source).diagnostics = [] ∧ (rootRun source).outcome = source.parsed.outcome ∧
        (rootRun source).diagnostics = source.parsed.diagnostics ∨
      (scanRun source).diagnostics ≠ [] ∧ (rootRun source).outcome = .error .scan ∧
        (rootRun source).diagnostics = (scanRun source).diagnostics ∧
        source.parsed = ⟨[], .ok none⟩ := by
  rcases scanRun_cases source with ⟨hnil, hok⟩ | ⟨hne, herror, offset, line, htokens⟩
  · refine .inl ⟨hnil, Run.outcome_andThen_ok hok _, ?_⟩
    rw [rootRun, Run.diagnostics_andThen_ok hok, hnil]
    rfl
  · have hreports : (rootRun source).diagnostics = (scanRun source).diagnostics :=
      Run.diagnostics_andThen_error herror _
    refine .inr ⟨hne, Run.outcome_andThen_error herror _, hreports, ?_⟩
    rw [Source.parsed, htokens, parseRun_atEnd]

theorem outcome_rootRun_of_tokens {source : Source} {ts : List Token}
    (hscan : (scanRun source).outcome = .ok ts) :
    (rootRun source).outcome = (parseRun ts source.text).outcome :=
  Run.outcome_andThen_ok hscan _

theorem diagnostics_rootRun_of_tokens {source : Source} {ts : List Token}
    (hscan : (scanRun source).outcome = .ok ts) :
    (rootRun source).diagnostics = (parseRun ts source.text).diagnostics := by
  have hscanned : (scanRun source).diagnostics = [] := by
    rcases scanRun_cases source with ⟨hnil, -⟩ | ⟨-, herror, -⟩
    · exact hnil
    · cases hscan.symm.trans herror
  rw [rootRun, Run.diagnostics_andThen_ok hscan, hscanned]
  rfl

/-- A misfit is all that is reported about tokens. -/
theorem rootRun_of_misfit {source : Source} {ts : List Token} {m : Misfit}
    (hscan : (scanRun source).outcome = .ok ts)
    (hparse : parse ts (Text.utf8Length source.text) = .error m) :
    (rootRun source).outcome = .error .parse ∧
      (rootRun source).diagnostics = [⟨m.problem source.text, source.text⟩] := by
  rw [outcome_rootRun_of_tokens hscan, diagnostics_rootRun_of_tokens hscan, parseRun, hparse]
  exact ⟨rfl, rfl⟩

/-- A run for a value or a script reads the root; what it does then cannot fail, and reports
nothing. -/
theorem runSource_of_ne_tokens {goal : Goal} (h : goal ≠ .tokens) (source : Source) :
    (runSource goal source).diagnostics = (rootRun source).diagnostics ∧
      ((∃ product, (runSource goal source).outcome = .ok product) ↔
        ∃ root, (rootRun source).outcome = .ok root) ∧
      ∀ e, (runSource goal source).outcome = .error e ↔ (rootRun source).outcome = .error e := by
  obtain ⟨back, hback, hrun⟩ : ∃ back : Option Expr → Run Product,
      (∀ root, (back root).diagnostics = [] ∧ ∃ product, (back root).outcome = .ok product) ∧
        runSource goal source = (rootRun source).andThen back := by
    cases goal with
    | value =>
      exact ⟨_, fun root => ⟨diagnostics_evalRun root, _, rfl⟩, runSource_value source⟩
    | script =>
      exact ⟨_, fun root => ⟨diagnostics_scriptRun root, _, rfl⟩, runSource_script source⟩
    | tokens => exact absurd rfl h
  rw [hrun]
  cases hroot : (rootRun source).outcome with
  | ok root =>
    obtain ⟨hnone, product, hproduct⟩ := hback root
    rw [Run.diagnostics_andThen_ok hroot, Run.outcome_andThen_ok hroot, hnone, hproduct]
    simp
  | error e =>
    rw [Run.diagnostics_andThen_error hroot, Run.outcome_andThen_error hroot]
    simp

/-- How a run can end: in scanning, in parsing, or with a product. -/
theorem runSource_cases (goal : Goal) (source : Source) :
    (scanRun source).diagnostics ≠ [] ∧ (runSource goal source).outcome = .error .scan ∧
        (runSource goal source).diagnostics = (scanRun source).diagnostics ∨
      (scanRun source).diagnostics = [] ∧ goal ≠ .tokens ∧
        (runSource goal source).outcome = .error .parse ∧
        (runSource goal source).diagnostics = source.parsed.diagnostics ∧
        source.parsed.diagnostics.length = 1 ∨
      (scanRun source).diagnostics = [] ∧ (goal = .tokens ∨ source.parsed.diagnostics = []) ∧
        (∃ product, (runSource goal source).outcome = .ok product) ∧
        (runSource goal source).diagnostics = [] := by
  by_cases hgoal : goal = .tokens
  · subst hgoal
    unfold runSource
    rcases scanRun_cases source with ⟨hnil, hok⟩ | ⟨hne, herror, -⟩
    · refine .inr (.inr ⟨hnil, .inl rfl, ⟨_, Run.outcome_andThen_ok hok _⟩, ?_⟩)
      rw [Run.diagnostics_andThen_ok hok, hnil]
      rfl
    · exact .inl ⟨hne, Run.outcome_andThen_error herror _, Run.diagnostics_andThen_error herror _⟩
  · obtain ⟨hdiagnostics, hok, herror⟩ := runSource_of_ne_tokens hgoal source
    rw [hdiagnostics, hok, herror, herror]
    rcases rootRun_cases source with ⟨hnil, hparsed, hreports⟩ | ⟨hne, hscan, hreports, -⟩
    · rw [hparsed, hreports]
      rcases parseRun_cases (Reader.ofSource source).tokens source.text with
        ⟨root, hroot, hnone⟩ | ⟨d, hfail, hone, -⟩
      · exact .inr (.inr ⟨hnil, .inr hnone, ⟨root, hroot⟩, hnone⟩)
      · exact .inr (.inl ⟨hnil, hgoal, hfail, rfl, congrArg List.length hone⟩)
    · exact .inl ⟨hne, hscan, hreports⟩

theorem outcome_runSource_iff (goal : Goal) (source : Source) :
    ((∃ product, (runSource goal source).outcome = .ok product) ↔
        (runSource goal source).diagnostics = []) ∧
      ((runSource goal source).outcome = .error .scan ↔ (scanRun source).diagnostics ≠ []) ∧
      ((runSource goal source).outcome = .error .parse ↔ goal ≠ .tokens ∧
        (scanRun source).diagnostics = [] ∧ source.parsed.diagnostics.length = 1) := by
  rcases runSource_cases goal source with ⟨hne, houtcome, hreports⟩ |
    ⟨hnil, hgoal, houtcome, hreports, hone⟩ | ⟨hnil, hnone, ⟨product, houtcome⟩, hreports⟩
  · rw [houtcome, hreports]
    simp [hne]
  · have hsome : source.parsed.diagnostics ≠ [] := List.ne_nil_of_length_eq_add_one hone
    rw [houtcome, hreports]
    simp [hnil, hgoal, hone, hsome]
  · have hnot : goal ≠ .tokens → source.parsed.diagnostics.length ≠ 1 := by
      intro hgoal
      rw [hnone.resolve_left hgoal]
      exact Nat.zero_ne_one
    rw [houtcome, hreports]
    simpa [hnil] using hnot

/-- **Outcomes and diagnostics.** A run gives a product if and only if it reports nothing. It fails
in scanning if and only if scanning reports something: then that is all it reports, an open template
comes last, and the tokens that are left are an empty program. It fails in parsing, towards a value
or a script only, if and only if scanning reports nothing and the parse one problem. Both goals
report the same and fail alike. -/
theorem outcome_run_iff_diagnostics (octets : List UInt8) :
    (∀ goal, ((∃ product, (run goal octets).outcome = .ok product) ↔
        (run goal octets).diagnostics = []) ∧
      ((run goal octets).outcome = .error .scan ↔
        (scanRun (.ofOctets octets)).diagnostics ≠ []) ∧
      ((run goal octets).outcome = .error .parse ↔ goal ≠ .tokens ∧
        (scanRun (.ofOctets octets)).diagnostics = [] ∧
        (Source.ofOctets octets).parsed.diagnostics.length = 1)) ∧
    ((scanRun (.ofOctets octets)).diagnostics ≠ [] →
      (∀ goal, (run goal octets).diagnostics = (scanRun (.ofOctets octets)).diagnostics) ∧
      (∀ d ∈ (scanRun (.ofOctets octets)).diagnostics,
        d.problem.fault ∈ [.unknownCharacter, .openString, .openTemplate]) ∧
      (∀ before d after, (scanRun (.ofOctets octets)).diagnostics = before ++ d :: after →
        d.problem.fault = .openTemplate → after = []) ∧
      (Source.ofOctets octets).parsed.outcome = .ok none ∧
      (Source.ofOctets octets).parsed.diagnostics = []) ∧
    ((scanRun (.ofOctets octets)).diagnostics = [] → ∀ goal ≠ .tokens,
      (run goal octets).diagnostics = (Source.ofOctets octets).parsed.diagnostics) ∧
    (∀ d ∈ (Source.ofOctets octets).parsed.diagnostics,
      d.problem.fault ∈ [.badNumber, .misplacedToken, .tooDeep 256]) ∧
    (run .value octets).diagnostics = (run .script octets).diagnostics ∧
    ∀ e, (run .value octets).outcome = .error e ↔ (run .script octets).outcome = .error e := by
  unfold run
  generalize Source.ofOctets octets = source
  have hvalueGoal : Goal.value ≠ .tokens := by simp
  have hscriptGoal : Goal.script ≠ .tokens := by simp
  obtain ⟨hvalue, -, hvalueError⟩ := runSource_of_ne_tokens hvalueGoal source
  obtain ⟨hscript, -, hscriptError⟩ := runSource_of_ne_tokens hscriptGoal source
  refine ⟨fun goal => outcome_runSource_iff goal source, ?_, ?_, ?_, hvalue.trans hscript.symm,
    fun e => (hvalueError e).trans (hscriptError e).symm⟩
  · intro hne
    have hparsed : source.parsed = ⟨[], .ok none⟩ := by
      rcases rootRun_cases source with ⟨hnil, -⟩ | ⟨-, -, -, hparsed⟩
      · exact absurd hnil hne
      · exact hparsed
    refine ⟨?_, fun d hd => fault_of_mem_diagnostics_scanRun hd,
      fun _ _ _ h hfault => eq_nil_of_diagnostics_scanRun h hfault, ?_, ?_⟩
    · intro goal
      rcases runSource_cases goal source with ⟨-, -, hreports⟩ | ⟨hnil, -⟩ | ⟨hnil, -⟩
      · exact hreports
      · exact absurd hnil hne
      · exact absurd hnil hne
    · rw [hparsed]
    · rw [hparsed]
      rfl
  · intro hnil goal hgoal
    rcases rootRun_cases source with ⟨-, -, hreports⟩ | ⟨hne, -⟩
    · exact (runSource_of_ne_tokens hgoal source).1.trans hreports
    · exact absurd hnil hne
  · intro d hd
    rcases parseRun_cases (Reader.ofSource source).tokens source.text with
      ⟨root, -, hnone⟩ | ⟨d', -, hone, hfault⟩
    · exact absurd (hnone ▸ hd) List.not_mem_nil
    · have hd : d ∈ [d'] := hone ▸ hd
      rwa [List.mem_singleton.mp hd]

end Splice
