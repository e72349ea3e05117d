import Splice.Program
import Splice.Proofs.Grammar

/-!
# Parsing

The parser accepts the phrases of the grammar and gives each its tree (`parse_eq_ok_some_iff`).
A tree of the tokens drives the stack of frames as if it were one token (`foldl_step_tree`), and
every state that the parser reaches is accounted for by the tokens it has read (`Reads.step`).
-/

namespace Splice

open Splice.Expr

/-! ## The parser on the tokens of a tree -/

def Frame.pushAll (f : Frame) (es : List Expr) : Frame := es.foldl (fun f e => f.push e) f

theorem Frame.pushAll_list (t : Token) (items es : List Expr) :
    (Frame.list t items).pushAll es = .list t (es.reverse ++ items) := by
  induction es generalizing items with
  | nil => rfl
  | cons e es ih => simpa [pushAll, push] using ih (e :: items)

theorem Frame.pushAll_merge (t : Token) (operands es : List Expr) :
    (Frame.merge t operands).pushAll es = .merge t (es.reverse ++ operands) := by
  induction es generalizing operands with
  | nil => rfl
  | cons e es ih => simpa [pushAll, push] using ih (e :: operands)

namespace Parse

/-- Trees that are placed one after another all go into the innermost frame. -/
theorem foldl_step_trees {limit : Nat} {ts : List Token} {es : List Expr} (frames : List Frame)
    (f : Frame) (h : AreTreesOf limit ts es)
    (hrun : ∀ e ∈ es, ∀ {ts f}, IsTreeOf limit ts e →
      ts.foldl step (inside (f :: frames)) = place e (f :: frames)) :
    ts.foldl step (inside (f :: frames)) = inside (f.pushAll es :: frames) := by
  induction es generalizing ts f with
  | nil =>
    obtain rfl : ts = [] := List.map_eq_nil_iff.mp h.tokens_eq.symm
    rfl
  | cons e es ih =>
    obtain ⟨own, rest, rfl, he, hes⟩ := h.uncons
    obtain ⟨hrune, hrunes⟩ := List.forall_mem_cons.mp hrun
    rw [List.foldl_append, hrune he, place, ih (f.push e) hes hrunes]
    rfl

theorem foldl_step_tree {limit : Nat} {ts : List Token} {e : Expr} {frames : List Frame}
    (h : IsTreeOf limit ts e) (hlimit : frames.length + limit ≤ maxNesting) :
    ts.foldl step (inside frames) = place e frames := by
  induction e generalizing limit ts frames with
  | string t s =>
    cases h.read with
    | string hk =>
      rw [h.eq_singleton rfl (by simp [Token.isDropped, hk])]
      simp [step, stepInside, hk]
  | number t x =>
    cases h.read with
    | number hk hx =>
      rw [h.eq_singleton rfl (by simp [Token.isDropped, hk])]
      simp [step, stepInside, hk, number?_eq_some_iff.mpr hx]
  | boolean t b =>
    cases h.read with
    | boolean hk =>
      rw [h.eq_singleton rfl (by simp [Token.isDropped, hk])]
      simp [step, stepInside, hk]
  | list t items ih =>
    obtain ⟨us, closing, d, rfl, rfl, hk, hc, hus⟩ := h.list_cases
    have hopen : step (inside frames) t = inside (.list t [] :: frames) := by
      simp only [step, stepInside, hk, enter]
      rw [if_pos (by omega)]
    have hlength (f : Frame) : (f :: frames).length + d ≤ maxNesting := by
      rw [List.length_cons]
      omega
    have hitems := foldl_step_trees frames (.list t []) hus fun e he _ f h => ih e he h (hlength f)
    rw [List.foldl_cons, hopen, List.foldl_append, hitems, Frame.pushAll_list]
    simp [step, stepInside, hc]
  | merge t operands ih =>
    obtain ⟨paren, us, closing, d, rfl, rfl, hp, hk, hc, hus⟩ := h.merge_cases
    have hparen : step (inside frames) paren = opened paren frames := by
      simp only [step, stepInside, hp]
    have hopen : step (opened paren frames) t = inside (.merge t [] :: frames) := by
      simp only [step, enter]
      rw [if_pos hk, if_pos (by omega)]
    have hlength (f : Frame) : (f :: frames).length + d ≤ maxNesting := by
      rw [List.length_cons]
      omega
    have hitems := foldl_step_trees frames (.merge t []) hus fun e he _ f h => ih e he h (hlength f)
    rw [List.foldl_cons, hparen, List.foldl_cons, hopen, List.foldl_append, hitems,
      Frame.pushAll_merge]
    simp [step, stepInside, hc]

/-! ## What the parser has read -/

/-- A frame has read some tokens: those that open it and those of its expressions. -/
inductive Opens (limit : Nat) : Frame → List Token → Prop where
  | list {t us items} : t.kind = .openBracket → AreTreesOf limit us items.reverse →
      Opens limit (.list t items) (t :: us)
  | merge {paren t us operands} : paren.kind = .openParen → t.kind = .merge →
      AreTreesOf limit us operands.reverse → Opens limit (.merge t operands) (paren :: t :: us)

/-- A stack of frames has read some tokens, and so many more frames may open. -/
inductive Stack : Nat → List Frame → List Token → Prop where
  | nil : Stack maxNesting [] []
  | cons {limit f frames before own} : Stack (limit + 1) frames before → Opens limit f own →
      Stack limit (f :: frames) (before ++ own)

inductive Reads : Parse → List Token → Prop where
  | inside {limit frames ts} : Stack limit frames ts → Reads (.inside frames) ts
  | opened {limit frames ts paren} : Stack limit frames ts → paren.kind = .openParen →
      Reads (.opened paren frames) (ts ++ [paren])
  | complete {ts e} : IsTreeOf maxNesting ts e → Reads (.complete e) ts
  | failed {m ts} : Reads (.failed m) ts

variable {limit : Nat} {ts us own : List Token} {frames : List Frame} {f : Frame} {e : Expr}

theorem Stack.length_add (h : Stack limit frames ts) : frames.length + limit = maxNesting := by
  induction h with
  | nil => exact Nat.zero_add _
  | cons _ _ ih => rw [← ih, List.length_cons, Nat.add_assoc, Nat.add_comm 1]

theorem Opens.push (h : Opens limit f own) (he : IsTreeOf limit us e) :
    Opens limit (f.push e) (own ++ us) := by
  cases h with
  | list hk hi =>
    refine .list hk ?_
    rw [List.reverse_cons]
    exact hi.append (.singleton he)
  | merge hp hk ho =>
    refine .merge hp hk ?_
    rw [List.reverse_cons]
    exact ho.append (.singleton he)

theorem Reads.place (h : Stack limit frames ts) (he : IsTreeOf limit us e) :
    Reads (place e frames) (ts ++ us) := by
  cases h with
  | nil => exact .complete he
  | cons hframes hf =>
    rw [List.append_assoc]
    exact .inside (.cons hframes (hf.push he))

theorem Reads.enter {opening : Token} (h : Stack limit frames ts)
    (hf : ∀ limit, Opens limit f own) : Reads (enter opening f frames) (ts ++ own) := by
  unfold Parse.enter
  split
  case isTrue hlt =>
    have hlength := h.length_add
    obtain ⟨n, rfl⟩ : ∃ n, limit = n + 1 := Nat.exists_eq_add_one.mpr (by omega)
    exact .inside (.cons h (hf n))
  case isFalse => exact .failed

/-- A token inside frames: a leaf and a finished frame are placed, an opening token opens. -/
theorem Reads.stepInside (h : Stack limit frames ts) (t : Token) :
    Reads (stepInside frames t) (ts ++ [t]) := by
  unfold Parse.stepInside
  split
  case h_1 hk =>
    split
    case h_1 x hx => exact .place h (.of_number hk (number?_eq_some_iff.mp hx))
    case h_2 => exact .failed
  case h_2 hk => exact .place h (.of_string hk)
  case h_3 hk => exact .place h (.of_boolean hk)
  case h_4 hk => exact .enter h fun _ => .list hk .nil
  case h_5 hk => exact .opened h hk
  case h_6 hk =>
    split
    case h_1 opening items outer =>
      cases h with
      | cons hframes hf =>
        cases hf with
        | list ho hi =>
          rw [List.append_assoc]
          exact .place hframes (.of_list ho hi hk)
    case h_2 => exact .failed
  case h_7 hk =>
    split
    case h_1 operator operands outer =>
      cases h with
      | cons hframes hf =>
        cases hf with
        | merge hp ho hi =>
          rw [List.append_assoc]
          exact .place hframes (.of_merge hp ho hi hk)
    case h_2 => exact .failed
  case h_8 => exact .failed

theorem Reads.step {s : Parse} (h : Reads s ts) (t : Token) : Reads (s.step t) (ts ++ [t]) := by
  cases h with
  | inside h => exact .stepInside h t
  | @opened limit frames ts paren h hp =>
    show Reads (if t.kind = .merge then Parse.enter paren (.merge t []) frames else misplaced t) _
    split
    case isTrue hk =>
      rw [List.append_assoc]
      exact .enter h fun _ => .merge hp hk .nil
    case isFalse => exact .failed
  | complete => exact .failed
  | failed => exact .failed

theorem Reads.foldl {s : Parse} (h : Reads s ts) (us : List Token) :
    Reads (us.foldl Parse.step s) (ts ++ us) := by
  induction us generalizing s ts with
  | nil => simpa using h
  | cons u us ih => simpa using ih (h.step u)

end Parse

/-! ## Programs -/

/-- The parse of a program is the tree of the tokens before its end. -/
theorem parse_eq_ok_some_iff {tokens : List Token} {octets : Nat} {e : Expr} :
    parse tokens octets = .ok (some e) ↔ IsTreeOf maxNesting (beforeEnd tokens) e := by
  unfold parse
  constructor
  · split
    case h_1 => simp
    case h_2 t ts hts =>
      intro h
      have hr := Parse.Reads.foldl (.inside .nil) (t :: ts)
      cases hs : (t :: ts).foldl Parse.step (.inside []) with
      | complete root =>
        rw [hs] at h hr
        obtain rfl : root = e := by simpa [Parse.finish, Except.map] using h
        cases hr with
        | complete h => rwa [hts]
      | _ =>
        rw [hs] at h
        simp [Parse.finish, Except.map] at h
  · intro h
    have hrun : (beforeEnd tokens).foldl Parse.step (.inside []) = Parse.place e [] :=
      Parse.foldl_step_tree h (Nat.le_of_eq (Nat.zero_add _))
    split
    case h_1 hts =>
      rw [hts] at h
      exact absurd rfl h.phrase.ne_nil
    case h_2 t ts hts =>
      rw [hts] at hrun
      rw [hrun]
      rfl

theorem parse_eq_ok_none_iff {tokens : List Token} {octets : Nat} :
    parse tokens octets = .ok none ↔ beforeEnd tokens = [] := by
  unfold parse
  split
  case h_1 hts => simp [hts]
  case h_2 t ts hts =>
    rw [hts]
    cases ((t :: ts).foldl Parse.step (.inside [])).finish (endToken tokens octets) <;>
      simp [Except.map]

theorem parseRun_outcome_eq_ok_iff {tokens : List Token} {text : List Char} {root : Option Expr} :
    (parseRun tokens text).outcome = .ok root ↔
      parse tokens (Text.utf8Length text) = .ok root := by
  unfold parseRun
  split <;> simp_all

theorem parseRun_outcome_eq_error_iff {tokens : List Token} {text : List Char} :
    (parseRun tokens text).outcome = .error .parse ↔
      ¬∃ root, parse tokens (Text.utf8Length text) = .ok root := by
  unfold parseRun
  split <;> simp_all

/-- **Soundness and completeness.** A parse gives a tree for the phrases nested at most 256 deep,
nothing for an empty program, and a failure for all else. A tree it gives writes the tokens back,
and its leaves are the readings of their tokens. -/
theorem parseRun_iff_phrase (tokens : List Token) (text : List Char) :
    ((∃ e, (parseRun tokens text).outcome = .ok (some e)) ↔ Phrase 256 (beforeEnd tokens)) ∧
    ((parseRun tokens text).outcome = .ok none ↔ beforeEnd tokens = []) ∧
    ((parseRun tokens text).outcome = .error .parse ↔
      beforeEnd tokens ≠ [] ∧ ¬Phrase 256 (beforeEnd tokens)) ∧
    ∀ e, (parseRun tokens text).outcome = .ok (some e) →
      e.tokens = (beforeEnd tokens).map Token.written ∧ e.Read := by
  have hphrase : (∃ e, parse tokens (Text.utf8Length text) = .ok (some e)) ↔
      Phrase 256 (beforeEnd tokens) := by
    rw [phrase_iff]
    exact exists_congr fun e => parse_eq_ok_some_iff
  simp only [parseRun_outcome_eq_ok_iff, parseRun_outcome_eq_error_iff]
  refine ⟨hphrase, parse_eq_ok_none_iff, ?_, ?_⟩
  · rw [Option.exists, parse_eq_ok_none_iff, hphrase, not_or]
  · intro e he
    have h := parse_eq_ok_some_iff.mp he
    exact ⟨h.tokens_eq, h.read⟩

end Splice
