import Mathlib.Data.List.Forall2
import Splice.Proofs.Binary64.Literals
import Splice.Proofs.Expr.Meaning
import Splice.Proofs.Misfits
import Splice.Proofs.Token.Spelling

/-!
# Numbers

From the text of a token to a number in a value. A number that is scanned begins with a digit, so
the parser accepts it if and only if its text without underscores is a literal
(`denotes_iff_literal`). The numbers of a tree are the readings of the tokens of numbers, in their
order (`forall₂_numbers`), and evaluation keeps all of them (`numbers_eval`).
-/

namespace Splice

open Text Scan

namespace Token

def isNumber (t : Token) : Bool := t.kind == .number

end Token

/-- A number as it is read from a token: the number nearest to what a literal denotes. Its sign bit
is clear, and it is printed as null if and only if the literal overflows. -/
structure IsReading (t : Token) (x : Binary64) : Prop where
  denoted : ∃ coefficient exponent, Literal t.numeral coefficient exponent ∧
    x = .ofDecimal false coefficient exponent
  isUnsigned : x.IsUnsigned
  null_iff : (Value.number x).compact = "null" ↔ Overflows t.numeral

variable {ts : List Token} {t : Token}

/-! ## Tokens -/

theorem Kind.ofWord_ne_number (s : String) : ofWord s ≠ .number := by
  intro h
  have hmem := ofWord_mem s
  rw [h] at hmem
  exact absurd hmem (by decide)

theorem Kind.ofChar?_ne_number (c : Char) : ofChar? c ≠ some .number := by
  intro h
  unfold ofChar? at h
  split at h <;> cases h

/-- A number begins with a digit, and digits, marks and underscores follow. -/
theorem Spells.number_cases {text raw : List Char} {kind : Kind} (h : Spells text kind raw)
    (hk : kind = .number) :
    ∃ c cs, raw = c :: cs ∧ c.isDigit = true ∧ ∀ d ∈ cs, isNumeric d = true := by
  cases h with
  | number hc hcs => exact ⟨_, _, rfl, hc, hcs⟩
  | mark hc => exact absurd (hk ▸ hc) (Kind.ofChar?_ne_number _)
  | word => exact absurd hk (Kind.ofWord_ne_number _)
  | plus | merge | string => cases hk

/-- Without its underscores a number that is scanned has no character but those of literals. -/
theorem exists_numeral {xs : List Located} (h : Lexed xs ts) (ht : t ∈ ts)
    (hk : t.kind = .number) :
    ∃ c cs, t.numeral = c :: cs ∧ c.isDigit = true ∧
      ∀ d ∈ cs, d.isDigit = true ∨ d ∈ ['.', 'e', '-'] := by
  rcases spells_of_mem_lexed h t ht with hstring | htemplate | hspells | ⟨hword, -⟩
  · cases hk.symm.trans hstring
  · cases hk.symm.trans htemplate
  · obtain ⟨c, cs, hraw, hc, hcs⟩ := hspells.number_cases hk
    have hkeep : (c != '_') = true := by
      rw [bne_iff_ne]
      rintro rfl
      exact absurd hc (by decide)
    refine ⟨c, cs.filter (· != '_'), ?_, hc, ?_⟩
    · rw [Token.numeral, hraw]
      exact List.filter_cons_of_pos hkeep
    intro d hd
    obtain ⟨hmem, hne⟩ := List.mem_filter.mp hd
    have hnumeric := hcs d hmem
    simp only [isNumeric, Bool.or_eq_true, beq_iff_eq] at hnumeric
    rcases hnumeric with (((hdigit | rfl) | rfl) | rfl) | rfl
    · exact .inl hdigit
    · exact .inr (by decide)
    · exact absurd hne (by decide)
    · exact .inr (by decide)
    · exact .inr (by decide)
  · exact absurd (hword.symm.trans hk) (Kind.ofWord_ne_number _)

/-- A number that is scanned denotes what its text denotes as a literal, without underscores. -/
theorem Token.denotes_iff_literal {xs : List Located} (h : Lexed xs ts) (ht : t ∈ ts)
    (hk : t.kind = .number) {x : Binary64} :
    t.Denotes x ↔ ∃ coefficient exponent, Literal t.numeral coefficient exponent ∧
      x = .ofDecimal false coefficient exponent := by
  obtain ⟨c, cs, hnumeral, hc, hcs⟩ := exists_numeral h ht hk
  rw [Token.Denotes, hnumeral]
  constructor
  · rintro ⟨n, hn, hx⟩
    obtain ⟨coefficient, exponent, hliteral, rfl⟩ := (Numeral.isNumeral_iff_literal hc hcs).mp hn
    exact ⟨coefficient, exponent, hliteral, Numeral.roundsTo_iff.mp hx⟩
  · rintro ⟨coefficient, exponent, hliteral, rfl⟩
    have hn := (Numeral.isNumeral_iff_literal hc hcs).mpr ⟨_, _, hliteral, rfl⟩
    exact ⟨_, hn, Numeral.roundsTo_iff.mpr rfl⟩

/-- JSON has no spelling for a number if and only if the number is not finite. -/
theorem compact_number_eq_null_iff (x : Binary64) :
    (Value.number x).compact = "null" ↔ x.isFinite = false := by
  have hcompact : (Value.number x).compact =
      (if x.isFinite then Json.number x.text else Json.null).render .compact .printable := rfl
  rw [hcompact]
  cases hfinite : x.isFinite with
  | false => exact iff_of_true rfl rfl
  | true =>
    refine iff_of_false ?_ (by simp)
    intro hnull
    have htext : x.text = ['n', 'u', 'l', 'l'] := String.ofList_injective hnull
    obtain ⟨c, cs, hc, hcons | hcons⟩ := Binary64.exists_text_eq_cons hfinite
    · rw [(List.cons.inj (hcons.symm.trans htext)).1] at hc
      exact absurd hc (by decide)
    · exact absurd (List.cons.inj (hcons.symm.trans htext)).1 (by decide)

theorem isReading_of_literal {coefficient : Nat} {exponent : Int}
    (h : Literal t.numeral coefficient exponent) :
    IsReading t (.ofDecimal false coefficient exponent) where
  denoted := ⟨coefficient, exponent, h, rfl⟩
  isUnsigned := Binary64.isUnsigned_ofDecimal coefficient exponent
  null_iff := by
    have hunsigned := Binary64.isUnsigned_ofDecimal coefficient exponent
    rw [compact_number_eq_null_iff, hunsigned.isFinite_eq_false_iff, h.infinite_iff]

/-! ## Values -/

namespace Value

def number? : Value → Option Binary64
  | number x => some x
  | _ => none

def numbers (v : Value) : List Binary64 := v.leaves.filterMap number?

theorem numbers_array (items : List Value) : (array items).numbers = items.flatMap numbers := by
  rw [numbers, leaves_array, List.filterMap_flatMap]
  rfl

theorem numbers_of_all {vs : List Value} (h : vs.all isString = true) :
    vs.flatMap numbers = [] := by
  rw [List.flatMap_eq_nil_iff]
  intro v hv
  obtain ⟨s, rfl⟩ := exists_eq_string (List.all_eq_true.mp h v hv)
  rfl

theorem numbers_merge (vs : List Value) : (merge vs).numbers = vs.flatMap numbers := by
  cases hall : vs.all isString with
  | true =>
    rw [numbers_of_all hall]
    by_cases hne : vs = []
    · subst hne
      rfl
    · rw [merge_of_all hne hall]
      rfl
  | false =>
    rw [merge_of_not_all hall, numbers_array, List.flatMap_assoc]
    refine List.flatMap_congr fun v _ => ?_
    rw [numbers, ← flatMap_leaves_elements, List.filterMap_flatMap]
    rfl

end Value

/-! ## Trees -/

namespace Expr

def number? : Expr → Option Binary64
  | number _ x => some x
  | _ => none

def numbers (e : Expr) : List Binary64 := e.leaves.filterMap number?

theorem numbers_list (t : Token) (items : List Expr) :
    (list t items).numbers = items.flatMap numbers := filterMap_leavesAll number? items

theorem numbers_merge (t : Token) (operands : List Expr) :
    (merge t operands).numbers = operands.flatMap numbers := filterMap_leavesAll number? operands

theorem numbers_eval (e : Expr) : e.eval.numbers = e.numbers := by
  have hall {es : List Expr} (ih : ∀ e ∈ es, e.eval.numbers = e.numbers) :
      (es.map eval).flatMap Value.numbers = es.flatMap numbers := by
    rw [List.flatMap_map]
    exact List.flatMap_congr ih
  induction e with
  | string | number | boolean => rfl
  | list t items ih => rw [eval, evalAll_eq_map, Value.numbers_array, hall ih, numbers_list]
  | merge t operands ih => rw [eval, evalAll_eq_map, Value.numbers_merge, hall ih, numbers_merge]

/-- A number in a tree is the reading of its token. -/
def Numbers (t : Token) (x : Binary64) : Prop := t.kind = .number ∧ t.Denotes x

theorem forall₂_flatMap_numbers {es : List Expr}
    (h : ∀ e ∈ es, List.Forall₂ Numbers (e.tokens.filter Token.isNumber) e.numbers) :
    List.Forall₂ Numbers ((tokensAll es).filter Token.isNumber) (es.flatMap numbers) := by
  induction es with
  | nil => exact .nil
  | cons e es ih =>
    obtain ⟨he, hes⟩ := List.forall_mem_cons.mp h
    rw [tokensAll, List.flatMap_cons, List.filter_append]
    exact List.rel_append he (ih hes)

/-- The numbers of a tree are the readings of the tokens of numbers that it writes. -/
theorem Read.forall₂_numbers {e : Expr} (h : e.Read) :
    List.Forall₂ Numbers (e.tokens.filter Token.isNumber) e.numbers := by
  have hskip {t : Token} (ts : List Token) (ht : t.kind ≠ .number) :
      (t :: ts).filter Token.isNumber = ts.filter Token.isNumber :=
    List.filter_cons_of_neg (by rwa [Token.isNumber, beq_iff_eq])
  have hlast {k : Kind} (ts : List Token) (hk : k ≠ .number) :
      (ts ++ [Token.bare k]).filter Token.isNumber = ts.filter Token.isNumber := by
    rw [List.filter_append, hskip [] hk, List.filter_nil, List.append_nil]
  induction e with
  | string t s =>
    cases h with
    | string hk =>
      rw [tokens, hskip [] (by simp [hk])]
      exact .nil
  | number t x =>
    cases h with
    | number hk hx =>
      have hnumber : t.isNumber = true := beq_iff_eq.mpr hk
      rw [tokens, List.filter_cons_of_pos hnumber]
      exact .cons ⟨hk, hx⟩ .nil
  | boolean t b =>
    cases h with
    | boolean hk =>
      rw [tokens, hskip [] (by simp [hk])]
      exact .nil
  | list t items ih =>
    cases h with
    | list hk hitems =>
      have hclosing : Kind.closeBracket ≠ .number := by decide
      rw [tokens, hskip _ (by simp [hk]), hlast _ hclosing, numbers_list]
      exact forall₂_flatMap_numbers fun e he => ih e he (hitems e he)
  | merge t operands ih =>
    cases h with
    | merge hk hoperands =>
      have hparen : (Token.bare .openParen).kind ≠ .number := by decide
      have hclosing : Kind.closeParen ≠ .number := by decide
      rw [tokens, hskip _ hparen, hskip _ (by simp [hk]), hlast _ hclosing, numbers_merge]
      exact forall₂_flatMap_numbers fun e he => ih e he (hoperands e he)

theorem filter_isNumber_map_written (ts : List Token) :
    (ts.map Token.written).filter Token.isNumber = ts.filter Token.isNumber := by
  have hkind : Token.isNumber ∘ Token.written = Token.isNumber := by
    funext t
    exact congrArg (· == Kind.number) t.kind_written
  have hwritten : ∀ t ∈ ts.filter Token.isNumber, t.written = id t := by
    intro t ht
    have hk : t.kind = .number := beq_iff_eq.mp (List.mem_filter.mp ht).2
    exact Token.written_of_kept (by simp [Token.isDropped, hk])
  rw [List.filter_map, hkind, List.map_congr_left hwritten, List.map_id]

/-- The numbers of a tree are the readings of the tokens of numbers that it is a tree of. -/
theorem IsTreeOf.forall₂_numbers {limit : Nat} {ts : List Token} {e : Expr}
    (h : IsTreeOf limit ts e) : List.Forall₂ Numbers (ts.filter Token.isNumber) e.numbers := by
  rw [← filter_isNumber_map_written, ← h.tokens_eq]
  exact h.read.forall₂_numbers

end Expr

/-! ## Runs -/

open Parse

/-- A number that is scanned is accepted where an expression is due if and only if it is a literal
without its underscores. -/
theorem stepInside_number {xs : List Located} (h : Lexed xs ts) (ht : t ∈ ts)
    (hk : t.kind = .number) (frames : List Frame) :
    (∃ x, stepInside frames t = place (.number t x) frames ∧ IsReading t x) ∧ IsLiteral t.numeral ∨
      stepInside frames t = failed ⟨.badNumber, t⟩ ∧ ¬IsLiteral t.numeral := by
  cases hx : number? t.raw with
  | some x =>
    obtain ⟨coefficient, exponent, hliteral, rfl⟩ :=
      (Token.denotes_iff_literal h ht hk).mp (number?_eq_some_iff.mp hx)
    refine .inl ⟨⟨_, ?_, isReading_of_literal hliteral⟩, coefficient, exponent, hliteral⟩
    simp only [stepInside, hk, hx]
  | none =>
    refine .inr ⟨by simp only [stepInside, hk, hx], ?_⟩
    rintro ⟨coefficient, exponent, hliteral⟩
    have hdenotes := (Token.denotes_iff_literal h ht hk).mpr ⟨_, _, hliteral, rfl⟩
    cases hx.symm.trans (number?_eq_some_iff.mpr hdenotes)

theorem parse_of_failed {us rest : List Token} {m : Misfit} {octets : Nat}
    (hfailed : upTo us = failed m) (hbefore : beforeEnd ts = us ++ rest) :
    parse ts octets = .error m := by
  have hall : upTo (beforeEnd ts) = failed m := by
    rw [hbefore, upTo, List.foldl_append, ← upTo, hfailed, foldl_step_failed]
  unfold parse
  split
  case h_1 hnil =>
    rw [hnil] at hall
    cases hall
  case h_2 u us hus =>
    rw [← hus, ← upTo, hall]
    rfl

variable {octets : List UInt8}

/-- The tokens of a source are lexemes and the end of the input. -/
theorem lexed_beforeEnd (hscan : (scanRun (.ofOctets octets)).outcome = .ok ts) :
    Lexed (Source.ofOctets octets).terminated (beforeEnd ts) ∧
      ∃ offset line, ts = beforeEnd ts ++ [.atEnd offset line] := by
  obtain ⟨us, hlexed, rfl⟩ := outcome_scanRun_eq_ok_iff.mp hscan
  rw [beforeEnd_append_atEnd (kind_ne_eof_of_lexed hlexed)]
  exact ⟨hlexed, _, _, rfl⟩

theorem filter_isNumber_beforeEnd (hscan : (scanRun (.ofOctets octets)).outcome = .ok ts) :
    ts.filter Token.isNumber = (beforeEnd ts).filter Token.isNumber := by
  obtain ⟨-, offset, line, hts⟩ := lexed_beforeEnd hscan
  have hsplit := congrArg (List.filter Token.isNumber) hts
  rw [List.filter_append] at hsplit
  exact hsplit.trans (List.append_nil _)

/-- The numbers of the root of a source are the readings of the numbers that are scanned. -/
theorem forall₂_numbers_root {e : Expr} (hscan : (scanRun (.ofOctets octets)).outcome = .ok ts)
    (hroot : (rootRun (.ofOctets octets)).outcome = .ok (some e)) :
    List.Forall₂ IsReading (ts.filter Token.isNumber) e.numbers := by
  rw [outcome_rootRun_of_tokens hscan, parseRun_outcome_eq_ok_iff, parse_eq_ok_some_iff] at hroot
  obtain ⟨hlexed, -⟩ := lexed_beforeEnd hscan
  rw [filter_isNumber_beforeEnd hscan]
  have hmem : ∀ t ∈ (beforeEnd ts).filter Token.isNumber, t ∈ beforeEnd ts :=
    fun t ht => List.mem_of_mem_filter ht
  refine ((List.forall₂_and_left _ _).mpr ⟨hmem, hroot.forall₂_numbers⟩).imp ?_
  rintro t x ⟨ht, hk, hx⟩
  obtain ⟨coefficient, exponent, hliteral, rfl⟩ :=
    (Token.denotes_iff_literal hlexed ht hk).mp hx
  exact isReading_of_literal hliteral

theorem forall₂_numbers_run {v : Value} (hscan : (scanRun (.ofOctets octets)).outcome = .ok ts)
    (hrun : (run .value octets).outcome = .ok (.value v)) :
    List.Forall₂ IsReading (ts.filter Token.isNumber) v.numbers := by
  obtain ⟨root, hroot, rfl⟩ := outcome_value_eq_ok_iff.mp hrun
  cases root with
  | some e =>
    rw [Expr.evalRoot, Expr.numbers_eval]
    exact forall₂_numbers_root hscan hroot
  | none =>
    rw [outcome_rootRun_of_tokens hscan, parseRun_outcome_eq_ok_iff, parse_eq_ok_none_iff] at hroot
    rw [filter_isNumber_beforeEnd hscan, hroot]
    exact .nil

/-- A number that the parser meets where an expression may start: what follows if it is a literal
without its underscores, and what if it is not. -/
theorem meets_number {before after : List Token}
    (hscan : (scanRun (.ofOctets octets)).outcome = .ok ts) (hts : ts = before ++ t :: after)
    (hk : t.kind = .number) (hstart : MayStart before) (hlive : ∀ m, upTo before ≠ failed m) :
    (∃ frames x, upTo (before ++ [t]) = place (.number t x) frames ∧ IsReading t x) ∧
        IsLiteral t.numeral ∨
      upTo (before ++ [t]) = failed ⟨.badNumber, t⟩ ∧
        parse ts (utf8Length (characters octets)) = .error ⟨.badNumber, t⟩ ∧
        t.shown = t.raw ∧ ¬IsLiteral t.numeral := by
  obtain ⟨hlexed, offset, line, hend⟩ := lexed_beforeEnd hscan
  obtain ⟨frames, hframes⟩ := hstart.exists_inside hlive
  have hstep : upTo (before ++ [t]) = stepInside frames t := by
    rw [upTo_concat, hframes]
    rfl
  obtain ⟨rest, hrest⟩ : ∃ rest, beforeEnd ts = before ++ [t] ++ rest := by
    have hsplit := hts.symm.trans hend
    rcases List.eq_nil_or_concat after with rfl | ⟨between, last, rfl⟩
    · obtain ⟨-, hlast⟩ := List.append_inj' hsplit rfl
      rw [List.head_eq_of_cons_eq hlast] at hk
      cases hk
    · rw [List.concat_eq_append, ← List.cons_append, ← List.append_assoc] at hsplit
      obtain ⟨hbetween, -⟩ := List.append_inj' hsplit rfl
      exact ⟨between, hbetween.symm.trans (List.append_cons before t between)⟩
  have hmem : t ∈ beforeEnd ts := by
    rw [hrest]
    exact List.mem_append_left _ (List.mem_append_right _ List.mem_cons_self)
  rcases stepInside_number hlexed hmem hk frames with ⟨⟨x, hx, hreading⟩, hliteral⟩ | ⟨hbad, hnot⟩
  · exact .inl ⟨⟨frames, x, hstep.trans hx, hreading⟩, hliteral⟩
  · have hraw : t.raw ≠ "" := by
      obtain ⟨c, cs, hnumeral, -⟩ := exists_numeral hlexed hmem hk
      intro hempty
      rw [Token.numeral, hempty] at hnumeral
      cases hnumeral
    have hfailed := hstep.trans hbad
    exact .inr ⟨hfailed, parse_of_failed hfailed hrest, if_neg hraw, hnot⟩

/-- **Numbers.** In a source that is scanned, a number that the parser meets where an expression may
start is accepted if and only if it is a literal without its underscores; else the parse fails, and
the one problem it reports is a bad number with the text of the token. The numbers of a tree that is
parsed, and those of a value, are the readings of the numbers that are scanned, one by one: no sign
bit is set, none is no number, and one is printed as null if and only if its literal overflows. -/
theorem numbers_read {octets : List UInt8} {ts : List Token}
    (hscan : (scanRun (.ofOctets octets)).outcome = .ok ts) :
    (∀ before t after, ts = before ++ t :: after → t.kind = .number → MayStart before →
      (∀ m, upTo before ≠ failed m) →
      ((∀ m, upTo (before ++ [t]) ≠ failed m) ↔ IsLiteral t.numeral) ∧
        (IsLiteral t.numeral →
          ∃ frames x, upTo (before ++ [t]) = place (.number t x) frames ∧ IsReading t x) ∧
        (¬IsLiteral t.numeral → (rootRun (.ofOctets octets)).outcome = .error .parse ∧
          ∃ d, (rootRun (.ofOctets octets)).diagnostics = [d] ∧ d.problem.fault = .badNumber ∧
            d.problem.text = t.raw ∧ d.problem.line = t.line)) ∧
    (∀ e, (rootRun (.ofOctets octets)).outcome = .ok (some e) →
      List.Forall₂ IsReading (ts.filter Token.isNumber) e.numbers) ∧
    ∀ v, (run .value octets).outcome = .ok (.value v) →
      List.Forall₂ IsReading (ts.filter Token.isNumber) v.numbers := by
  refine ⟨?_, fun e => forall₂_numbers_root hscan, fun v => forall₂_numbers_run hscan⟩
  intro before t after hts hk hstart hlive
  rcases meets_number hscan hts hk hstart hlive with
    ⟨⟨frames, x, hx, hreading⟩, hliteral⟩ | ⟨hfailed, hparse, hshown, hnot⟩
  · refine ⟨iff_of_true ?_ hliteral, fun _ => ⟨frames, x, hx, hreading⟩, absurd hliteral⟩
    rw [hx]
    exact place_ne_failed _ _
  · refine ⟨iff_of_false (fun hlive => hlive _ hfailed) hnot, fun h => absurd h hnot, fun _ => ?_⟩
    obtain ⟨houtcome, hdiagnostics⟩ := rootRun_of_misfit hscan hparse
    exact ⟨houtcome, _, hdiagnostics, rfl, hshown, rfl⟩

/-- A list of a number with an underscore and a bare point, and one that overflows. -/
def overflowText : List Char := ['[', '0', '_', '0', '.', ' ', '1', 'e', '9', '9', '9', ']']

def overflowTokens : List Token :=
  [⟨.openBracket, "[", 0, 0⟩, ⟨.number, "0_0.", 1, 0⟩, ⟨.number, "1e999", 6, 0⟩,
    ⟨.closeBracket, "]", 11, 0⟩, .atEnd 12 0]

/-- The first number is zero, and the second is infinite and printed as null. -/
theorem numbers_read_overflow :
    (scanRun (.ofOctets (encode overflowText))).outcome = .ok overflowTokens ∧
      ∃ v, (run .value (encode overflowText)).outcome = .ok (.value v) ∧
        v.numbers = [.zero false, .infinite false] ∧ v.compact = "[0,null]" ∧
        Overflows ['1', 'e', '9', '9', '9'] := by
  have hscan : (scanRun (.ofOctets (encode overflowText))).outcome = .ok overflowTokens := rfl
  have hparse : (parseRun overflowTokens overflowText).outcome =
      .ok (some (.list ⟨.openBracket, "[", 0, 0⟩ [.number ⟨.number, "0_0.", 1, 0⟩ (.zero false),
        .number ⟨.number, "1e999", 6, 0⟩ (.infinite false)])) := rfl
  have hroot := (outcome_rootRun_of_tokens hscan).trans hparse
  have hrun : (run .value (encode overflowText)).outcome =
      .ok (.value (.array [.number (.zero false), .number (.infinite false)])) :=
    outcome_value_eq_ok_iff.mpr ⟨_, hroot, rfl⟩
  refine ⟨hscan, _, hrun, rfl, by decide, ?_⟩
  have hreadings := (numbers_read hscan).2.2 _ hrun
  obtain ⟨-, hrest⟩ := List.forall₂_cons.mp hreadings
  obtain ⟨hsecond, -⟩ := List.forall₂_cons.mp hrest
  exact hsecond.null_iff.mp (by decide)

end Splice
