import Splice.Proofs.Scanning
import Splice.Proofs.Source
import Splice.Proofs.Token.Relocation

/-!
# Scanning line by line

No token goes on over a line feed. A pass that stops does so at the line feed of a line with an open
template, where the next pass begins, so the passes over a source find the problems of its lines,
each line scanned by itself (`exhausts_iff_lines`).
-/

namespace Splice

open Text Scan

/-! ## Lines of octets -/

/-- The lines of a source from a place on. -/
def linesFrom (start index : Nat) : List (List UInt8) → List Line
  | [] => []
  | octets :: rest =>
    ⟨octets, start, index⟩ :: linesFrom (start + octets.length + 1) (index + 1) rest

/-- The lines of an octet string: what stands between its line feeds. -/
def octetLines (octets : List UInt8) : List Line := linesFrom 0 0 (octets.splitOn 10)

/-- Octets are a line, or a line and a line feed and more octets. -/
theorem lineInduction {motive : List UInt8 → Prop} (last : ∀ line, 10 ∉ line → motive line)
    (newline : ∀ line rest, 10 ∉ line → motive rest → motive (line ++ 10 :: rest))
    (octets : List UInt8) : motive octets := by
  induction hlength : octets.length using Nat.strongRecOn generalizing octets with
  | ind length ih =>
    by_cases h : 10 ∈ octets
    · obtain ⟨line, rest, rfl, hline⟩ := List.eq_append_cons_of_mem h
      have hlt : rest.length < length := by
        rw [← hlength, List.length_append, List.length_cons]
        omega
      exact newline line rest hline (ih rest.length hlt rest rfl)
    · exact last octets h

theorem newline_not_mem_of_mem_lines {octets : List UInt8} {start index : Nat} {n : Line}
    (h : n ∈ linesFrom start index (octets.splitOn 10)) : 10 ∉ n.octets := by
  induction octets using lineInduction generalizing start index with
  | last line hline =>
    rw [List.splitOn_eq_singleton hline] at h
    rw [List.mem_singleton.mp h]
    exact hline
  | newline line rest hline ih =>
    rw [List.splitOn_append_cons_self_of_not_mem hline] at h
    rcases List.mem_cons.mp h with rfl | h
    · exact hline
    · exact ih h

/-! ## Characters of a line -/

/-- The characters of a source with a line feed at their end are those of its octets with one. -/
theorem Source.terminated_ofOctets (octets : List UInt8) :
    (ofOctets octets).terminated = locate .origin (decode (octets ++ [10])) := by
  rw [decode_newline, locate_append]
  rfl

variable {n : Line}

theorem Location.after_onLine {p : Piece} (h : p.char ≠ '\n') (l : Location) :
    (l.onLine n).after p = (l.after p).onLine n := by
  unfold after
  rw [if_neg h, if_neg h]
  simp [onLine, Nat.add_assoc]

theorem Location.read_onLine {ps : List Piece} (h : ∀ p ∈ ps, p.char ≠ '\n') (l : Location) :
    (l.onLine n).read ps = (l.read ps).onLine n := by
  induction ps generalizing l with
  | nil => rfl
  | cons p ps ih =>
    obtain ⟨hp, hps⟩ := List.forall_mem_cons.mp h
    rw [read_cons, read_cons, after_onLine hp, ih hps]

theorem locate_onLine {ps : List Piece} (h : ∀ p ∈ ps, p.char ≠ '\n') (l : Location) :
    locate (l.onLine n) ps = (locate l ps).map (·.onLine n) := by
  induction ps generalizing l with
  | nil => rfl
  | cons p ps ih =>
    obtain ⟨hp, hps⟩ := List.forall_mem_cons.mp h
    rw [locate, locate, List.map_cons, Location.after_onLine hp, ih hps]
    rfl

theorem char_ne_newline {octets : List UInt8} (h : 10 ∉ octets) :
    ∀ p ∈ decode octets, p.char ≠ '\n' := by
  intro p hp hline
  have hmem : '\n' ∈ characters octets := hline ▸ List.mem_map_of_mem hp
  rw [← List.count_pos_iff, count_newline_decode, List.count_pos_iff] at hmem
  exact h hmem

namespace Line

def source (n : Line) : Source := .ofOctets n.octets

/-- The characters of a line and its line feed in the source. -/
def located (n : Line) : List Located := n.source.terminated.map (·.onLine n)

/-- Where a line begins. -/
def place (n : Line) : Location := ⟨n.start, n.index, 0⟩

/-- The scan of a line by itself. -/
def scan (n : Line) : Scan := Scan.fresh.run n.source.terminated

end Line

theorem locate_line (h : 10 ∉ n.octets) :
    locate n.place (decode (n.octets ++ [10])) = n.located ∧
      n.place.read (decode (n.octets ++ [10])) =
        ⟨n.start + n.octets.length + 1, n.index + 1, 0⟩ := by
  have hchars := char_ne_newline h
  have hread : n.place.read (decode n.octets) = n.source.stop.onLine n :=
    Location.read_onLine hchars .origin
  rw [decode_newline, locate_append, Location.read_append, ← Location.read, hread]
  constructor
  · rw [Line.located, Source.terminated, List.map_append]
    exact congrArg (· ++ _) (locate_onLine hchars .origin)
  · rw [Line.source, Source.stop_ofOctets]
    rfl

theorem locate_lines (octets : List UInt8) (start index : Nat) :
    locate ⟨start, index, 0⟩ (decode (octets ++ [10])) =
      (linesFrom start index (octets.splitOn 10)).flatMap Line.located := by
  induction octets using lineInduction generalizing start index with
  | last line hline =>
    obtain ⟨hlocate, -⟩ := locate_line (n := ⟨line, start, index⟩) hline
    rw [List.splitOn_eq_singleton hline]
    exact hlocate.trans (List.append_nil _).symm
  | newline line rest hline ih =>
    obtain ⟨hlocate, hread⟩ := locate_line (n := ⟨line, start, index⟩) hline
    have hdecode : decode (line ++ 10 :: rest ++ [10]) =
        decode (line ++ [10]) ++ decode (rest ++ [10]) := by
      rw [List.append_assoc, List.cons_append, decode_newline, decode_newline line [],
        List.append_assoc]
      rfl
    rw [List.splitOn_append_cons_self_of_not_mem hline, hdecode, locate_append]
    have hrest := ih (start + line.length + 1) (index + 1)
    rw [← hread] at hrest
    exact congrArg₂ (· ++ ·) hlocate hrest

theorem terminated_eq_lines (octets : List UInt8) :
    (Source.ofOctets octets).terminated = (octetLines octets).flatMap Line.located := by
  rw [Source.terminated_ofOctets]
  exact locate_lines octets 0 0

/-! ## Where a pass begins -/

theorem Source.pairwise_terminated (octets : List UInt8) :
    (ofOctets octets).terminated.Pairwise (fun x y => x.place.offset < y.place.offset) := by
  rw [terminated_ofOctets]
  refine pairwise_locate (r := (·.offset < ·.offset)) Nat.lt_trans (fun p hp l => ?_) .origin
  have hsize := (isPart_of_mem_decode hp).size_pos
  rw [Location.offset_after]
  omega

theorem dropWhile_eq_of_pairwise {xs ys : List Located} {x : Located}
    (h : (xs ++ x :: ys).Pairwise (fun x y => x.place.offset < y.place.offset)) :
    (xs ++ x :: ys).dropWhile (·.place.offset < x.place.offset) = x :: ys := by
  have hxs : ∀ y ∈ xs, decide (y.place.offset < x.place.offset) = true := fun y hy =>
    decide_eq_true ((List.pairwise_append.mp h).2.2 y hy x List.mem_cons_self)
  rw [List.dropWhile_append_of_pos hxs, List.dropWhile_cons_of_neg (by simp)]

namespace Reader

/-- The characters that the reader's pass scans, with a line feed at their end. -/
def ahead (r : Reader) : List Located :=
  r.source.located.dropWhile (·.place.offset < r.place.offset) ++ [⟨'\n', r.source.stop⟩]

theorem ahead_ofSource (source : Source) : (ofSource source).ahead = source.terminated :=
  congrArg (· ++ _) source.located_from_origin

theorem ahead_eq {octets : List UInt8} {xs ys : List Located} {x : Located}
    (h : (Source.ofOctets octets).terminated = xs ++ x :: ys) (failed : Bool) :
    (Reader.mk (.ofOctets octets) x.place failed).ahead = x :: ys := by
  have hpairwise := Source.pairwise_terminated octets
  rw [h] at hpairwise
  have hdrop := dropWhile_eq_of_pairwise hpairwise
  rw [← h, Source.terminated, List.dropWhile_append] at hdrop
  unfold ahead
  split at hdrop
  case isFalse => exact hdrop
  case isTrue hempty =>
    -- all characters of the source are dropped, but not the line feed at its end
    rw [List.isEmpty_iff.mp hempty, List.nil_append]
    rw [List.dropWhile_cons] at hdrop
    split at hdrop
    case isTrue => cases hdrop
    case isFalse => exact hdrop

end Reader

/-! ## Scans of a line -/

namespace Line

/-- The scan of a line ends between tokens, or has stopped at the end of the line. -/
theorem mode_scan (h : 10 ∉ n.octets) :
    n.scan.mode = .ground ∨ n.scan.mode = .stopped n.source.stop := by
  have hchars : ∀ x ∈ n.source.located, x.char ≠ '\n' := by
    intro x hx
    obtain ⟨ps, p, qs, hdecode, rfl⟩ := exists_pieces_of_mem_locate hx
    have hp : p ∈ n.source.pieces := hdecode ▸ List.mem_append_right _ List.mem_cons_self
    exact char_ne_newline h p hp
  have hfresh : ¬Scan.fresh.IsStopped := by simp [IsStopped, fresh]
  have hbefore := not_isStopped_run hfresh hchars
  have hscan : n.scan = (Scan.fresh.run n.source.located).step ⟨'\n', n.source.stop⟩ := by
    rw [scan, Source.terminated, run_append]
    rfl
  rcases mode_step_newline (s := Scan.fresh.run n.source.located)
    (x := ⟨'\n', n.source.stop⟩) rfl with hground | hstopped
  · exact .inl (hscan ▸ hground)
  · rcases step_stops_iff hbefore ⟨'\n', n.source.stop⟩ with ⟨hnot, -⟩ | ⟨-, hmode, -⟩
    · exact absurd hstopped hnot
    · exact .inr (hscan ▸ hmode)

/-- The tokens that the scan of a line finds, where they are in the source. -/
def found (n : Line) : List Token := n.scan.tokens.reverse.map (·.onLine n)

/-- The problems that the first pass over the line alone finds, on the line. -/
def problems (n : Line) : List Problem :=
  (Reader.ofSource n.source).pass.problems.map (·.onLine n)

/-- The tokens that a reader gives for the line alone, but its end, where they are in the source. -/
def tokens (n : Line) : List Token :=
  (beforeEnd (Reader.ofSource n.source).tokens).map (·.onLine n)

theorem problems_eq (n : Line) : n.problems = n.scan.problems.reverse.map (·.onLine n) := by
  rw [problems, Reader.pass_ofSource, Pass.problems_ofChars]
  rfl

theorem hasOpenTemplate_problems_iff (n : Line) :
    HasOpenTemplate n.problems ↔ n.scan.IsStopped := by
  rw [scan, isStopped_run_fresh, problems_eq, scan]
  simp [HasOpenTemplate, Problem.onLine]

theorem run_located {s : Scan} (hs : s.mode = .ground) : s.run n.located = n.scan.onLine n s := by
  have hfresh : s = Scan.fresh.onLine n s := by
    obtain ⟨mode, tokens, problems⟩ := s
    cases hs
    rfl
  conv_lhs => rw [hfresh]
  exact run_onLine n s Scan.fresh n.source.terminated

/-- The scan of lines without open templates finds what the scans of the lines find. -/
theorem run_lines {ns : List Line} (h : ∀ n ∈ ns, n.scan.mode = .ground) {s : Scan}
    (hs : s.mode = .ground) : s.run (ns.flatMap located) =
      ⟨.ground, (ns.flatMap found).reverse ++ s.tokens,
        (ns.flatMap problems).reverse ++ s.problems⟩ := by
  induction ns generalizing s with
  | nil =>
    obtain ⟨mode, tokens, problems⟩ := s
    cases hs
    rfl
  | cons n ns ih =>
    obtain ⟨hn, hns⟩ := List.forall_mem_cons.mp h
    have hground : (n.scan.onLine n s).mode = .ground := by
      rw [onLine, hn]
      rfl
    rw [List.flatMap_cons, run_append, run_located hs, ih hns hground]
    simp [onLine, found, problems_eq]

/-- Some lines have no open template, or there is a first line with one. -/
theorem ground_or_exists_stopped {ns : List Line} (h : ∀ n ∈ ns, 10 ∉ n.octets) :
    (∀ n ∈ ns, n.scan.mode = .ground) ∨ ∃ before n after, ns = before ++ n :: after ∧
      (∀ m ∈ before, m.scan.mode = .ground) ∧ n.scan.mode = .stopped n.source.stop := by
  induction ns with
  | nil => exact .inl (List.forall_mem_nil _)
  | cons n ns ih =>
    obtain ⟨hn, hns⟩ := List.forall_mem_cons.mp h
    rcases mode_scan hn with hground | hstopped
    · rcases ih hns with hall | ⟨before, m, after, rfl, hbefore, hm⟩
      · exact .inl (List.forall_mem_cons.mpr ⟨hground, hall⟩)
      · exact .inr ⟨n :: before, m, after, rfl, List.forall_mem_cons.mpr ⟨hground, hbefore⟩, hm⟩
    · exact .inr ⟨[], n, ns, rfl, List.forall_mem_nil _, hstopped⟩

end Line

/-! ## Passes over lines -/

namespace Reader

variable {r : Reader}

/-- A pass over lines without open templates gives their tokens and finds their problems. -/
theorem pass_of_ground {ns : List Line}
    (hahead : Scan.fresh.run r.ahead = Scan.fresh.run (ns.flatMap Line.located))
    (h : ∀ n ∈ ns, n.scan.mode = .ground) :
    r.pass = ⟨ns.flatMap Line.found ++ [.atEnd r.source.stop.offset r.source.stop.line],
      ns.flatMap Line.problems, r.source.stop⟩ := by
  rw [Line.run_lines h rfl] at hahead
  have hground : (Scan.fresh.run r.ahead).mode = .ground := by rw [hahead]
  refine (Pass.ofChars_of_ground hground).trans ?_
  rw [← ahead, hahead]
  simp [fresh]

/-- A pass stops at the end of the first line with an open template. -/
theorem pass_of_stopped {before after : List Line} {n : Line}
    (hahead : Scan.fresh.run r.ahead =
      Scan.fresh.run ((before ++ n :: after).flatMap Line.located))
    (hbefore : ∀ m ∈ before, m.scan.mode = .ground) (hn : n.scan.mode = .stopped n.source.stop) :
    r.pass = ⟨[], before.flatMap Line.problems ++ n.problems, n.source.stop.onLine n⟩ := by
  obtain ⟨found, hfound⟩ : ∃ s : Scan, s = ⟨.ground, (before.flatMap Line.found).reverse ++ [],
      (before.flatMap Line.problems).reverse ++ []⟩ := ⟨_, rfl⟩
  have hfirst : Scan.fresh.run (before.flatMap Line.located) = found :=
    (Line.run_lines hbefore rfl).trans hfound.symm
  have hmode : (n.scan.onLine n found).mode = .stopped (n.source.stop.onLine n) := by
    rw [Scan.onLine, hn]
    rfl
  -- the scan has stopped, so the lines after it change nothing
  have hrun : Scan.fresh.run r.ahead = n.scan.onLine n found := by
    rw [hahead, List.flatMap_append, List.flatMap_cons, run_append, run_append, hfirst,
      Line.run_located (by rw [hfound]), run_of_isStopped ⟨_, hmode⟩]
  have hstopped : (Scan.fresh.run r.ahead).mode = .stopped (n.source.stop.onLine n) := by
    rw [hrun, hmode]
  refine (Pass.ofChars_of_stopped hstopped).trans ?_
  rw [← ahead, hrun, Scan.onLine, hfound]
  simp [Line.problems_eq]

/-- The passes of a reader until one finds no open template find some problems in all. -/
inductive Exhausts : Reader → List Problem → Prop where
  | done {r : Reader} : ¬HasOpenTemplate r.pass.problems → Exhausts r r.pass.problems
  | again {r : Reader} {ps} : HasOpenTemplate r.pass.problems → Exhausts r.next ps →
      Exhausts r (r.pass.problems ++ ps)

theorem Exhausts.unique {ps qs : List Problem} (hps : r.Exhausts ps) (hqs : r.Exhausts qs) :
    ps = qs := by
  induction hps generalizing qs with
  | done hopen =>
    cases hqs with
    | done => rfl
    | again hopen' => exact absurd hopen' hopen
  | again hopen _ ih =>
    cases hqs with
    | done hopen' => exact absurd hopen hopen'
    | again _ hnext => rw [ih hnext]

theorem exhausts_of_ground {ns : List Line}
    (hahead : Scan.fresh.run r.ahead = Scan.fresh.run (ns.flatMap Line.located))
    (h : ∀ n ∈ ns, n.scan.mode = .ground) : r.Exhausts (ns.flatMap Line.problems) := by
  have hpass := pass_of_ground hahead h
  have hdone : ¬HasOpenTemplate r.pass.problems := by
    rw [hpass]
    rintro ⟨p, hp, hfault⟩
    obtain ⟨n, hn, hp⟩ := List.mem_flatMap.mp hp
    obtain ⟨place, hplace⟩ := n.hasOpenTemplate_problems_iff.mp ⟨p, hp, hfault⟩
    exact Mode.noConfusion ((h n hn).symm.trans hplace)
  have hexhausts := Exhausts.done hdone
  rwa [hpass] at hexhausts

/-- A pass that a line stops leaves the lines after it to the passes that follow. -/
theorem exhausts_of_stopped {before after : List Line} {n : Line} {ps : List Problem}
    (hahead : Scan.fresh.run r.ahead =
      Scan.fresh.run ((before ++ n :: after).flatMap Line.located))
    (hbefore : ∀ m ∈ before, m.scan.mode = .ground) (hn : n.scan.mode = .stopped n.source.stop)
    (hnext : r.next.Exhausts ps) :
    r.Exhausts (before.flatMap Line.problems ++ n.problems ++ ps) := by
  have hpass := pass_of_stopped hahead hbefore hn
  have hopen : HasOpenTemplate r.pass.problems := by
    rw [hpass]
    obtain ⟨p, hp, hfault⟩ := n.hasOpenTemplate_problems_iff.mpr ⟨_, hn⟩
    exact ⟨p, List.mem_append_right _ hp, hfault⟩
  have hexhausts := Exhausts.again hopen hnext
  rwa [hpass] at hexhausts

/-- After such a pass the reader has the line feed and the lines after it ahead. -/
theorem run_ahead_next {octets : List UInt8} {before after : List Line} {n : Line}
    (hlines : octetLines octets = before ++ n :: after) (hsource : r.source = .ofOctets octets)
    (hended : r.pass.ended = n.source.stop.onLine n) :
    Scan.fresh.run r.next.ahead = Scan.fresh.run (after.flatMap Line.located) := by
  have hterminated : (Source.ofOctets octets).terminated =
      (before.flatMap Line.located ++ n.source.located.map (·.onLine n)) ++
        ⟨'\n', n.source.stop.onLine n⟩ :: after.flatMap Line.located := by
    rw [terminated_eq_lines, hlines]
    simp [Line.located, Source.terminated, Located.onLine]
  rw [next, hended, hsource, ahead_eq hterminated]
  rfl

/-- A reader that has the last lines of a source ahead finds the problems of these lines. -/
theorem exhausts_lines {octets : List UInt8} {before ns : List Line}
    (hlines : octetLines octets = before ++ ns) (hsource : r.source = .ofOctets octets)
    (hahead : Scan.fresh.run r.ahead = Scan.fresh.run (ns.flatMap Line.located)) :
    r.Exhausts (ns.flatMap Line.problems) := by
  -- by the number of lines ahead: a pass goes over all of them, or stops on one and leaves fewer
  induction hlength : ns.length using Nat.strongRecOn generalizing before ns r with
  | ind length ih =>
    have hns : ∀ n ∈ ns, 10 ∉ n.octets := fun n hn =>
      newline_not_mem_of_mem_lines (hlines ▸ List.mem_append_right _ hn)
    rcases Line.ground_or_exists_stopped hns with hall | ⟨first, n, after, rfl, hfirst, hn⟩
    · exact exhausts_of_ground hahead hall
    · have hsplit : octetLines octets = (before ++ first) ++ n :: after := by
        rw [hlines, List.append_assoc]
      have hended : r.pass.ended = n.source.stop.onLine n := by
        rw [pass_of_stopped hahead hfirst hn]
      have hlt : after.length < length := by
        rw [← hlength, List.length_append, List.length_cons]
        omega
      have hrest : r.next.Exhausts (after.flatMap Line.problems) :=
        ih after.length hlt (hsplit.trans (List.append_cons _ _ _)) hsource
          (run_ahead_next hsplit hsource hended) rfl
      rw [List.flatMap_append, List.flatMap_cons, ← List.append_assoc]
      exact exhausts_of_stopped hahead hfirst hn hrest

end Reader

/-! ## Tokens of lines -/

namespace Line

theorem mode_scan_of_problems (h : 10 ∉ n.octets) (hproblems : n.problems = []) :
    n.scan.mode = .ground := by
  refine (mode_scan h).resolve_right fun hstopped => ?_
  obtain ⟨p, hp, -⟩ := n.hasOpenTemplate_problems_iff.mpr ⟨_, hstopped⟩
  rw [hproblems] at hp
  exact List.not_mem_nil hp

theorem tokens_eq_found (h : 10 ∉ n.octets) (hproblems : n.problems = []) :
    n.tokens = n.found := by
  have hpass : (Pass.ofChars n.source.located n.source.stop).problems = [] := by
    rw [← Reader.pass_ofSource]
    exact List.map_eq_nil_iff.mp hproblems
  obtain ⟨ts, hts⟩ := Pass.exists_ofChars_eq hpass
  have hscan := Pass.ofChars_of_ground (mode_scan_of_problems h hproblems)
  have hfound : n.scan.tokens.reverse = ts := by
    rw [hts] at hscan
    exact (List.append_cancel_right (congrArg Pass.scanned hscan)).symm
  have htokens := (Reader.tokens_ofSource ((Reader.pass_ofSource n.source).trans hts)).2
  rw [tokens, htokens, found, hfound,
    beforeEnd_append_atEnd (kind_ne_eof_of_lexed (Pass.ofChars_eq_iff_lexed.mp hts))]

end Line

/-- **Scanning line by line.** The passes over a source until one finds no open template end. In all
they find the problems of the lines, each scanned by itself. If there are none, the tokens are those
of the lines, and the end after all octets and line feeds. -/
theorem exhausts_iff_lines (octets : List UInt8) :
    (∀ ps, (Reader.ofSource (.ofOctets octets)).Exhausts ps ↔
      ps = (octetLines octets).flatMap Line.problems) ∧
    ((octetLines octets).flatMap Line.problems = [] →
      (Reader.ofSource (.ofOctets octets)).tokens =
        (octetLines octets).flatMap Line.tokens ++ [.atEnd octets.length (octets.count 10)]) := by
  have hahead : Scan.fresh.run (Reader.ofSource (.ofOctets octets)).ahead =
      Scan.fresh.run ((octetLines octets).flatMap Line.located) := by
    rw [Reader.ahead_ofSource, terminated_eq_lines]
  have hlines : ∀ n ∈ octetLines octets, 10 ∉ n.octets :=
    fun n hn => newline_not_mem_of_mem_lines hn
  constructor
  · have hexhausts := Reader.exhausts_lines (List.nil_append _).symm rfl hahead
    intro ps
    constructor
    · intro h
      exact h.unique hexhausts
    · rintro rfl
      exact hexhausts
  · intro hproblems
    have hnone : ∀ n ∈ octetLines octets, n.problems = [] := List.flatMap_eq_nil_iff.mp hproblems
    have hpass := Reader.pass_of_ground hahead fun n hn =>
      Line.mode_scan_of_problems (hlines n hn) (hnone n hn)
    rw [hproblems] at hpass
    have htokens : (octetLines octets).flatMap Line.tokens =
        (octetLines octets).flatMap Line.found :=
      List.flatMap_congr fun n hn => Line.tokens_eq_found (hlines n hn) (hnone n hn)
    have hstop : (Reader.ofSource (.ofOctets octets)).source.stop = _ := Source.stop_ofOctets octets
    rw [(Reader.tokens_ofSource hpass).2, htokens, hstop]

/-- A template that a line feed leaves open, and below it a character that begins no token. -/
def openTemplateOctets : List UInt8 := encode ['\'', '\n', '$', '\n', '1']

def cleanOctets : List UInt8 := encode ['1', '\n', '[', ']']

/-- The second pass finds what is on the lines after an open template. -/
theorem exhausts_openTemplate :
    (Reader.ofSource (.ofOctets openTemplateOctets)).Exhausts
        [⟨.openTemplate, 0, 1, ""⟩, ⟨.unknownCharacter, 1, 0, "$"⟩] ∧
      (octetLines cleanOctets).flatMap Line.problems = [] ∧
      (Reader.ofSource (.ofOctets cleanOctets)).tokens =
        [⟨.number, "1", 0, 0⟩, ⟨.openBracket, "[", 2, 1⟩, ⟨.closeBracket, "]", 3, 1⟩,
          .atEnd 4 1] := by
  have hproblems : (octetLines cleanOctets).flatMap Line.problems = [] := rfl
  refine ⟨((exhausts_iff_lines openTemplateOctets).1 _).mpr rfl, hproblems, ?_⟩
  exact ((exhausts_iff_lines cleanOctets).2 hproblems).trans rfl

end Splice
