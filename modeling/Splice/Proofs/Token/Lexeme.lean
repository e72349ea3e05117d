import Splice.Proofs.Token.Problems

/-!
# Lexemes

What the characters of a source are where a scan finds no problem: blanks, comments and lexemes. A
lexeme is one token, except that a template is one for each of its quotes and parts. `Lexed` says
so without a scan: a word or a number ends before a character that cannot go on with it. The scans
without problems are the readings into lexemes (`ofChars_eq_iff_lexed`).
-/

namespace Splice

open Text Scan

namespace Token

def of (kind : Kind) (text : List Char) (start : Location) : Token :=
  ⟨kind, String.ofList text, start.offset, start.line⟩

def ofWord (text : List Char) (start : Location) : Token :=
  of (.ofWord (String.ofList text)) text start

/-- The token of the literal text of a template, latest character first; none if it is empty. -/
def ofLiteral (text : List Located) : List Token :=
  match text.reverse with
  | [] => []
  | x :: xs => [of .string ((x :: xs).map Located.char) x.place]

end Token

/-! ## The grammar of lexemes -/

/-- Characters between the quotes of a template, after literal text that is not a token yet, and
the tokens of both. A closing brace stands for nothing. -/
inductive Interior : List Located → List Located → List Token → Prop where
  | done {text} : Interior text [] (Token.ofLiteral text)
  | plain {text x xs ts} : isPlain x.char = true → Interior (x :: text) xs ts →
      Interior text (x :: xs) ts
  | brace {text x xs ts} : x.char = '}' → Interior text xs ts → Interior text (x :: xs) ts
  | slot {text x word xs ts} : x.char = '{' → (∀ y ∈ word, isWord y.char = true) →
      (∀ y ∈ xs.head?, isWord y.char = false) → Interior [] xs ts →
      Interior text (x :: (word ++ xs))
        (Token.ofLiteral text ++ .ofWord (word.map Located.char) x.place.next :: ts)

/-- Characters that are blanks, comments and lexemes, and the tokens of the lexemes. -/
inductive Lexed : List Located → List Token → Prop where
  | nil : Lexed [] []
  | blank {x xs ts} : isSpace x.char = true → Lexed xs ts → Lexed (x :: xs) ts
  | comment {x y body z xs ts} : x.char = ';' → y.char = ';' → (∀ w ∈ body, w.char ≠ '\n') →
      z.char = '\n' → Lexed xs ts → Lexed (x :: y :: (body ++ z :: xs)) ts
  | mark {x kind xs ts} : Kind.ofChar? x.char = some kind → Lexed xs ts →
      Lexed (x :: xs) (.of kind [x.char] x.place :: ts)
  | plus {x y xs ts} : x.char = '+' → y.char ≠ '+' → Lexed (y :: xs) ts →
      Lexed (x :: y :: xs) (.of .plus ['+'] x.place :: ts)
  | merge {x y xs ts} : x.char = '+' → y.char = '+' → Lexed xs ts →
      Lexed (x :: y :: xs) (.of .merge ['+', '+'] x.place :: ts)
  | string {x body y xs ts} : x.char = '"' → (∀ z ∈ body, z.char ≠ '"' ∧ z.char ≠ '\n') →
      y.char = '"' → Lexed xs ts →
      Lexed (x :: (body ++ y :: xs)) (.of .string (body.map Located.char) x.place :: ts)
  | word {x body y xs ts} : isLetter x.char = true → (∀ z ∈ body, isWord z.char = true) →
      isWord y.char = false → Lexed (y :: xs) ts →
      Lexed (x :: (body ++ y :: xs)) (.ofWord ((x :: body).map Located.char) x.place :: ts)
  | number {x body y xs ts} : x.char.isDigit = true →
      (∀ z ∈ body, isNumeric z.char = true) → isNumeric y.char = false → Lexed (y :: xs) ts →
      Lexed (x :: (body ++ y :: xs)) (.of .number ((x :: body).map Located.char) x.place :: ts)
  | template {x body us y xs ts} : x.char = '\'' → Interior [] body us → y.char = '\'' →
      Lexed xs ts → Lexed (x :: (body ++ y :: xs))
        (.of .template [] x.place :: (us ++ .of .template [] y.place.next :: ts))

/-- Characters that complete what a mode is inside of, and then are lexemes; and the tokens of
both. -/
inductive Completes : Mode → List Located → List Token → Prop where
  | ground {xs ts} : Lexed xs ts → Completes .ground xs ts
  | plus {start y xs ts} : y.char ≠ '+' → Lexed (y :: xs) ts →
      Completes (.plus start) (y :: xs) (.of .plus ['+'] start :: ts)
  | merge {start y xs ts} : y.char = '+' → Lexed xs ts →
      Completes (.plus start) (y :: xs) (.of .merge ['+', '+'] start :: ts)
  | semicolon {start y xs ts} : y.char = ';' → Completes .comment xs ts →
      Completes (.semicolon start) (y :: xs) ts
  | comment {body y xs ts} : (∀ z ∈ body, z.char ≠ '\n') → y.char = '\n' → Lexed xs ts →
      Completes .comment (body ++ y :: xs) ts
  | string {start text body y xs ts} : (∀ z ∈ body, z.char ≠ '"' ∧ z.char ≠ '\n') →
      y.char = '"' → Lexed xs ts → Completes (.string start text) (body ++ y :: xs)
        (.of .string (text.reverse ++ body.map Located.char) start :: ts)
  | word {start text body y xs ts} : (∀ z ∈ body, isWord z.char = true) → isWord y.char = false →
      Lexed (y :: xs) ts → Completes (.word start text) (body ++ y :: xs)
        (.ofWord (text.reverse ++ body.map Located.char) start :: ts)
  | number {start text body y xs ts} : (∀ z ∈ body, isNumeric z.char = true) →
      isNumeric y.char = false → Lexed (y :: xs) ts →
      Completes (.number start text) (body ++ y :: xs)
        (.of .number (text.reverse ++ body.map Located.char) start :: ts)
  | template {text body us y xs ts} : Interior text body us → y.char = '\'' → Lexed xs ts →
      Completes (.template text) (body ++ y :: xs) (us ++ .of .template [] y.place.next :: ts)
  | slot {start text word body us y xs ts} : (∀ z ∈ word, isWord z.char = true) →
      (∀ z ∈ body.head?, isWord z.char = false) → Interior [] body us → y.char = '\'' →
      Lexed xs ts → Completes (.slot start text) (word ++ (body ++ y :: xs))
        (.ofWord (text.reverse ++ word.map Located.char) start ::
          (us ++ .of .template [] y.place.next :: ts))

theorem Completes.slot_of_template {start : Location} {text : List Char} {xs : List Located}
    {ts : List Token} (h : Completes (.template []) xs ts)
    (hxs : ∀ x ∈ xs.head?, isWord x.char = false) :
    Completes (.slot start text) xs (.ofWord text.reverse start :: ts) := by
  cases h with
  | @template _ body us y xs ts hbody hy h =>
    have hhead : ∀ z ∈ body.head?, isWord z.char = false := by
      intro z hz
      apply hxs z
      rw [List.head?_append, hz]
      rfl
    have hslot := @Completes.slot start text [] _ _ _ _ _ (List.forall_mem_nil _) hhead hbody hy h
    simpa using hslot

namespace Scan

variable {s : Scan} {x : Located} {xs : List Located} {ts after : List Token} {text : List Located}

theorem literal_eq_add (s : Scan) (text : List Located) :
    s.literal text = s.add (Token.ofLiteral text) := by
  unfold literal Token.ofLiteral
  cases text.reverse <;> rfl

/-! ## Scans without problems read lexemes -/

/-- The characters complete a mode, and their tokens lead from the tokens before to those after. -/
def Finds (mode : Mode) (before : List Token) (xs : List Located) (after : List Token) : Prop :=
  ∃ ts, Completes mode xs ts ∧ after = ts.reverse ++ before

theorem Finds.begin (hclean : (s.begin x).problems = [])
    (h : Finds (s.begin x).mode (s.begin x).tokens xs after) :
    Finds .ground s.tokens (x :: xs) after := by
  have hbegins := s.begins_begin x
  generalize s.begin x = s' at hbegins h hclean
  obtain ⟨ts, hcompletes, rfl⟩ := h
  cases hbegins with
  | blank hx =>
    cases hcompletes with
    | ground h => exact ⟨ts, .ground (.blank hx h), rfl⟩
  | plus hx =>
    cases hcompletes with
    | plus hy h => exact ⟨_, .ground (.plus hx hy h), rfl⟩
    | merge hy h => exact ⟨_, .ground (.merge hx hy h), rfl⟩
  | semicolon hx =>
    cases hcompletes with
    | semicolon hy h =>
      cases h with
      | comment hbody hz h => exact ⟨ts, .ground (.comment hx hy hbody hz h), rfl⟩
  | string hx =>
    cases hcompletes with
    | string hbody hy h => exact ⟨_, .ground (.string hx hbody hy h), rfl⟩
  | template hx =>
    cases hcompletes with
    | template hbody hy h =>
      refine ⟨_, .ground (.template hx hbody hy h), ?_⟩
      rw [List.reverse_cons, List.append_assoc]
      rfl
  | mark hx =>
    cases hcompletes with
    | ground h =>
      refine ⟨_, .ground (.mark hx h), ?_⟩
      rw [List.reverse_cons, List.append_assoc]
      rfl
  | word hx =>
    cases hcompletes with
    | word hbody hy h => exact ⟨_, .ground (.word hx hbody hy h), rfl⟩
  | number hx =>
    cases hcompletes with
    | number hbody hy h => exact ⟨_, .ground (.number hx hbody hy h), rfl⟩
  | unknown => exact absurd hclean (List.cons_ne_nil _ _)

theorem Finds.inTemplate (hclean : (s.inTemplate text x).problems = [])
    (h : Finds (s.inTemplate text x).mode (s.inTemplate text x).tokens xs after) :
    Finds (.template text) s.tokens (x :: xs) after := by
  have hinterpolates := s.interpolates_inTemplate text x
  generalize s.inTemplate text x = s' at hinterpolates h hclean
  obtain ⟨ts, hcompletes, rfl⟩ := h
  cases hinterpolates with
  | brace hx =>
    cases hcompletes with
    | template hbody hy h => exact ⟨_, .template (.brace hx hbody) hy h, rfl⟩
  | slot hx =>
    cases hcompletes with
    | slot hword hhead hbody hy h =>
      refine ⟨_, by simpa using Completes.template (.slot hx hword hhead hbody) hy h, ?_⟩
      simp [literal_eq_add, add, into]
  | close hx =>
    cases hcompletes with
    | ground h =>
      refine ⟨_, .template .done hx h, ?_⟩
      simp [literal_eq_add, add, into, emit, Token.of]
  | stop => exact absurd hclean (List.cons_ne_nil _ _)
  | plain hx =>
    cases hcompletes with
    | template hbody hy h => exact ⟨_, .template (.plain hx hbody) hy h, rfl⟩

theorem Finds.step (hclean : (s.step x).problems = [])
    (h : Finds (s.step x).mode (s.step x).tokens xs after) :
    Finds s.mode s.tokens (x :: xs) after := by
  have hsteps := s.steps_step x
  generalize hmode : s.mode = mode at hsteps
  generalize s.step x = s' at hsteps h hclean
  cases hsteps with
  | ground => exact .begin hclean h
  | merge hx =>
    obtain ⟨ts, ⟨h⟩, rfl⟩ := h
    refine ⟨_, .merge hx h, ?_⟩
    rw [List.reverse_cons, List.append_assoc]
    rfl
  | plus hx =>
    obtain ⟨ts, ⟨hlexed⟩, rfl⟩ := Finds.begin hclean h
    refine ⟨_, .plus hx hlexed, ?_⟩
    rw [List.reverse_cons, List.append_assoc]
    rfl
  | openComment hx =>
    obtain ⟨ts, h, rfl⟩ := h
    exact ⟨ts, .semicolon hx h, rfl⟩
  | @semicolon start hx =>
    -- a single semicolon is reported
    rw [problems_begin, List.append_eq_nil_iff] at hclean
    exact absurd hclean.2 (List.cons_ne_nil _ _)
  | closeComment hx =>
    obtain ⟨ts, ⟨h⟩, rfl⟩ := h
    exact ⟨ts, .comment (List.forall_mem_nil _) hx h, rfl⟩
  | comment hx =>
    obtain ⟨ts, h, rfl⟩ := h
    cases h with
    | comment hbody hy h =>
      exact ⟨ts, .comment (List.forall_mem_cons.mpr ⟨hx, hbody⟩) hy h, rfl⟩
  | closeString hx =>
    obtain ⟨ts, ⟨h⟩, rfl⟩ := h
    refine ⟨_, .string (List.forall_mem_nil _) hx h, ?_⟩
    simp [into, emit, Token.of]
  | breakString => exact absurd hclean (List.cons_ne_nil _ _)
  | string hquote hline =>
    obtain ⟨ts, h, rfl⟩ := h
    cases h with
    | string hbody hy h =>
      refine ⟨_, .string (List.forall_mem_cons.mpr ⟨⟨hquote, hline⟩, hbody⟩) hy h, ?_⟩
      simp [into]
  | word hx =>
    obtain ⟨ts, h, rfl⟩ := h
    cases h with
    | word hbody hy h =>
      refine ⟨_, .word (List.forall_mem_cons.mpr ⟨hx, hbody⟩) hy h, ?_⟩
      simp [into]
  | closeWord hx =>
    obtain ⟨ts, ⟨hlexed⟩, rfl⟩ := Finds.begin hclean h
    refine ⟨_, .word (List.forall_mem_nil _) hx hlexed, ?_⟩
    simp [Scan.word, emit, Token.ofWord, Token.of]
  | number hx =>
    obtain ⟨ts, h, rfl⟩ := h
    cases h with
    | number hbody hy h =>
      refine ⟨_, .number (List.forall_mem_cons.mpr ⟨hx, hbody⟩) hy h, ?_⟩
      simp [into]
  | closeNumber hx =>
    obtain ⟨ts, ⟨hlexed⟩, rfl⟩ := Finds.begin hclean h
    refine ⟨_, .number (List.forall_mem_nil _) hx hlexed, ?_⟩
    simp [emit, Token.of]
  | template => exact .inTemplate hclean h
  | slot hx =>
    obtain ⟨ts, h, rfl⟩ := h
    cases h with
    | slot hword hhead hbody hy h =>
      refine ⟨_, .slot (List.forall_mem_cons.mpr ⟨hx, hword⟩) hhead hbody hy h, ?_⟩
      simp [into]
  | closeSlot hx =>
    obtain ⟨ts, hcompletes, rfl⟩ := Finds.inTemplate hclean h
    refine ⟨_, hcompletes.slot_of_template (by simpa using hx), ?_⟩
    simp [Scan.word, emit, Token.ofWord, Token.of]
  | stopped =>
    obtain ⟨ts, h, -⟩ := h
    rw [hmode] at h
    cases h

/-- A scan that ends between tokens and finds no problem has read lexemes. -/
theorem finds_run (hmode : (s.run xs).mode = .ground) (hclean : (s.run xs).problems = []) :
    Finds s.mode s.tokens xs (s.run xs).tokens := by
  induction xs generalizing s with
  | nil =>
    rw [run_nil] at hmode ⊢
    rw [hmode]
    exact ⟨[], .ground .nil, rfl⟩
  | cons x xs ih =>
    refine .step ?_ (ih hmode hclean)
    have hsuffix := problems_run (s.step x) xs
    rwa [← run_cons, hclean, List.suffix_nil] at hsuffix

/-! ## Lexemes are scanned without problems -/

theorem inTemplate_plain (hx : isPlain x.char = true) :
    s.inTemplate text x = s.into (.template (x :: text)) := by
  have h := s.interpolates_inTemplate text x
  generalize s.inTemplate text x = s' at h
  cases h with
  | plain => rfl
  | brace h | slot h | close h | stop h =>
    rw [h] at hx
    exact absurd hx (by decide)

theorem run_slot {start : Location} {word : List Located}
    (hword : ∀ y ∈ word, isWord y.char = true) (hx : isWord x.char = false) :
    (s.into (.slot start [])).run (word ++ x :: xs) =
      ((s.add [.ofWord (word.map Located.char) start]).into (.template [])).run (x :: xs) := by
  have hcollect : (s.into (.slot start [])).run word =
      s.into (.slot start ((word.map Located.char).reverse ++ [])) := by
    refine @run_into s (.slot start) (isWord · = true) ?_ word ?_ []
    · intro text y hy
      exact if_pos hy
    · exact List.forall_mem_map.mpr hword
  have hstep : (s.into (.slot start ((word.map Located.char).reverse ++ []))).step x =
      (s.word start ((word.map Located.char).reverse ++ [])).inTemplate [] x :=
    if_neg (by simp [hx])
  rw [run_append, hcollect, run_cons, hstep, List.append_nil, Scan.word, List.reverse_reverse]
  rfl

theorem run_interior {body : List Located} (h : Interior text body ts) {y : Located}
    (hy : y.char = '\'') : (s.into (.template text)).run (body ++ [y]) =
      (s.add (ts ++ [.of .template [] y.place.next])).into .ground := by
  induction h generalizing s with
  | @done text =>
    have hstep : (s.into (.template text)).step y = _ := inTemplate_close hy
    rw [List.nil_append, run_cons, run_nil, hstep, literal_eq_add, ← add_add]
    rfl
  | @plain text x xs ts hx _ ih =>
    have hstep : (s.into (.template text)).step x = s.into (.template (x :: text)) :=
      inTemplate_plain hx
    rw [List.cons_append, run_cons, hstep, ih]
  | @brace text x xs ts hx _ ih =>
    have hstep : (s.into (.template text)).step x = s.into (.template text) := inTemplate_brace hx
    rw [List.cons_append, run_cons, hstep, ih]
  | @slot text x word xs ts hx hword hhead _ ih =>
    have hstep : (s.into (.template text)).step x = _ := inTemplate_slot hx
    -- what follows the word: the rest of the template, or its closing quote
    obtain ⟨z, zs, hzs, hz⟩ : ∃ z zs, xs ++ [y] = z :: zs ∧ isWord z.char = false := by
      cases xs with
      | nil => exact ⟨y, [], rfl, by rw [hy]; decide⟩
      | cons z zs => exact ⟨z, zs ++ [y], rfl, hhead z rfl⟩
    rw [List.cons_append, run_cons, hstep, literal_eq_add, List.append_assoc, hzs,
      run_slot hword hz, ← hzs, ih, add_add]
    simp [add, into]

theorem run_of_lexed (h : Lexed xs ts) : (s.into .ground).run xs = (s.add ts).into .ground := by
  induction h generalizing s with
  | nil => rfl
  | @blank x xs ts hx _ ih =>
    have hstep : (s.into .ground).step x = s.into .ground := begin_of_isSpace hx
    rw [run_cons, hstep, ih]
  | @comment x y body z xs ts hx hy hbody hz _ ih =>
    have hsemicolon : (s.into .ground).step x = s.into (.semicolon x.place) := begin_semicolon hx
    have hopen : (s.into (.semicolon x.place)).step y = s.into .comment := if_pos hy
    have hrun : (s.into .comment).run body = s.into .comment := by
      refine @run_into s (fun _ => .comment) (· ≠ '\n') ?_ body ?_ []
      · intro text w hw
        exact if_neg hw
      · exact List.forall_mem_map.mpr hbody
    have hclose : (s.into .comment).step z = s.into .ground := if_pos hz
    rw [run_cons, run_cons, hsemicolon, hopen, run_append, hrun, run_cons, hclose, ih]
  | @mark x kind xs ts hx _ ih =>
    have hstep : (s.into .ground).step x = (s.add [.of kind [x.char] x.place]).into .ground :=
      begin_mark hx
    rw [run_cons, hstep, ih, add_add]
    rfl
  | @plus x y xs ts hx hy _ ih =>
    have hplus : (s.into .ground).step x = s.into (.plus x.place) := begin_plus hx
    have hstep : (s.into (.plus x.place)).step y =
        ((s.add [.of .plus ['+'] x.place]).into .ground).step y := if_neg hy
    rw [run_cons, hplus, run_cons, hstep, ← run_cons, ih, add_add]
    rfl
  | @merge x y xs ts hx hy _ ih =>
    have hplus : (s.into .ground).step x = s.into (.plus x.place) := begin_plus hx
    have hstep : (s.into (.plus x.place)).step y =
        (s.add [.of .merge ['+', '+'] x.place]).into .ground := if_pos hy
    rw [run_cons, hplus, run_cons, hstep, ih, add_add]
    rfl
  | @string x body y xs ts hx hbody hy _ ih =>
    have hquote : (s.into .ground).step x = s.into (.string x.place []) := begin_quote hx
    have hrun : (s.into (.string x.place [])).run body = _ :=
      run_into (p := fun c => c ≠ '"' ∧ c ≠ '\n') step_string (List.forall_mem_map.mpr hbody) []
    have hclose : (s.into (.string x.place ((body.map Located.char).reverse ++ []))).step y =
        (s.add [.of .string (body.map Located.char) x.place]).into .ground := by
      refine (if_pos hy).trans ?_
      rw [List.append_nil, List.reverse_reverse]
      rfl
    rw [run_cons, hquote, run_append, hrun, run_cons, hclose, ih, add_add]
    rfl
  | @word x body y xs ts hx hbody hy _ ih =>
    have hstep : ((s.into .ground).run (x :: body)).step y =
        ((s.add [.ofWord ((x :: body).map Located.char) x.place]).into .ground).step y :=
      step_run_while (fun cs => .ofWord (String.ofList cs)) rfl rfl (begin_letter hx)
        (List.forall_mem_map.mpr hbody) hy
    rw [← List.cons_append, run_append, run_cons, hstep, ← run_cons, ih, add_add]
    rfl
  | @number x body y xs ts hx hbody hy _ ih =>
    have hstep : ((s.into .ground).run (x :: body)).step y =
        ((s.add [.of .number ((x :: body).map Located.char) x.place]).into .ground).step y :=
      step_run_while (fun _ => .number) rfl rfl (begin_digit hx)
        (List.forall_mem_map.mpr hbody) hy
    rw [← List.cons_append, run_append, run_cons, hstep, ← run_cons, ih, add_add]
    rfl
  | @template x body us y xs ts hx hbody hy _ ih =>
    have hopen : (s.into .ground).step x =
        (s.add [.of .template [] x.place]).into (.template []) := begin_template hx
    rw [run_cons, hopen, List.append_cons body y xs, run_append, run_interior hbody hy, ih, add_add,
      add_add]
    simp

end Scan

/-! ## Passes without problems -/

namespace Pass

variable {xs : List Located} {stop : Location}

/-- **Scanning.** A pass finds no problem and gives some tokens if and only if the characters, with
a line feed at their end, are lexemes of these tokens. -/
theorem ofChars_eq_iff_lexed {ts : List Token} :
    Pass.ofChars xs stop = ⟨ts ++ [.atEnd stop.offset stop.line], [], stop⟩ ↔
      Lexed (xs ++ [⟨'\n', stop⟩]) ts := by
  constructor
  · intro h
    rcases mode_run_newline Scan.fresh xs stop with hmode | ⟨place, hmode⟩
    · rw [ofChars_of_ground hmode, Pass.mk.injEq, List.append_cancel_right_eq,
        List.reverse_eq_nil_iff] at h
      obtain ⟨us, ⟨hlexed⟩, htokens⟩ := finds_run hmode h.2.1
      obtain rfl : us = ts := by
        rw [← h.1, htokens, List.reverse_append, List.reverse_reverse]
        rfl
      exact hlexed
    · rw [ofChars_of_stopped hmode, Pass.mk.injEq] at h
      exact absurd h.1.symm (List.append_ne_nil_of_right_ne_nil _ (List.cons_ne_nil _ _))
  · intro h
    have hrun : Scan.fresh.run (xs ++ [⟨'\n', stop⟩]) = (Scan.fresh.add ts).into .ground :=
      run_of_lexed (s := .fresh) h
    have hground : (Scan.fresh.run (xs ++ [⟨'\n', stop⟩])).mode = .ground := by rw [hrun]; rfl
    rw [ofChars_of_ground hground, hrun]
    show Pass.mk ((ts.reverse ++ []).reverse ++ _) [] stop = _
    rw [List.append_nil, List.reverse_reverse]

end Pass

end Splice
