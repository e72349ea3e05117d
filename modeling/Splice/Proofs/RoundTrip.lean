import Splice.Proofs.Parsing
import Splice.Proofs.Scanning
import Splice.Proofs.Text.Utf8

/-!
# Round trip through source text

An expression can be written as a source (`Expr.source`). Scanning that source gives the tokens of a
tree that is the expression up to tokens (`isScanned_of_isWritable`), so running the source gives
the value and the script of the expression (`run_source`).
-/

namespace Splice

namespace Expr

/-! ## Source texts -/

mutual

/-- The source text of an expression. -/
def source : Expr → List Char
  | string _ s => '"' :: (s.toList ++ ['"'])
  | number _ x => x.text
  | boolean _ b => if b then "true".toList else "false".toList
  | list _ items => '[' :: ([' '].intercalate (sourceAll items) ++ [']'])
  | merge _ operands => "(++".toList ++ ((sourceAll operands).flatMap (' ' :: ·) ++ [')'])

def sourceAll : List Expr → List (List Char)
  | [] => []
  | e :: es => source e :: sourceAll es

end

theorem sourceAll_eq_map (es : List Expr) : sourceAll es = es.map source := by
  induction es with
  | nil => rfl
  | cons e es ih => rw [sourceAll, ih, List.map_cons]

mutual

/-- Whether an expression can be written as source: no string holds a quote or a line feed, and all
numbers are finite and have no sign. -/
def isWritable : Expr → Bool
  | string _ s => s.toList.all fun c => c != '"' && c != '\n'
  | number _ (.finite negative _) => !negative
  | number _ _ => false
  | boolean _ _ => true
  | list _ items => isWritableAll items
  | merge _ operands => isWritableAll operands

def isWritableAll : List Expr → Bool
  | [] => true
  | e :: es => isWritable e && isWritableAll es

end

theorem isWritableAll_eq_true {es : List Expr} :
    isWritableAll es = true ↔ ∀ e ∈ es, e.isWritable = true := by
  induction es with
  | nil => simp [isWritableAll]
  | cons e es ih => rw [isWritableAll, Bool.and_eq_true, ih, List.forall_mem_cons]

/-! ## Scanning a source text -/

/-- A scan that reads the source of an expression between tokens adds the tokens of a tree, which is
the expression up to tokens. -/
def IsScanned (limit : Nat) (e : Expr) : Prop :=
  ∀ {s : Scan} {xs : List Located}, s.mode = .ground → xs.map Located.char = e.source →
    ∃ ts e', IsTreeOf limit ts e' ∧ e'.forget = e.forget ∧ (s.run xs).Settles (s.add ts)

variable {limit : Nat} {s s' : Scan} {xs : List Located} {t : Token}

theorem exists_trees_run {es : List Expr} (hs : s.Settles s') (hscan : ∀ e ∈ es, IsScanned limit e)
    (hxs : xs.map Located.char = (es.map source).flatMap (' ' :: ·)) :
    ∃ ts es', AreTreesOf limit ts es' ∧ es'.map forget = es.map forget ∧
      (s.run xs).Settles (s'.add ts) := by
  induction es generalizing s s' xs with
  | nil =>
    obtain rfl : xs = [] := List.map_eq_nil_iff.mp hxs
    exact ⟨[], [], .nil, rfl, hs⟩
  | cons e es ih =>
    obtain ⟨hscane, hscanes⟩ := List.forall_mem_cons.mp hscan
    obtain ⟨space, rest, rfl, hspace, hrest⟩ := List.map_eq_cons_iff.mp hxs
    obtain ⟨own, others, rfl, hown, hothers⟩ := List.map_eq_append_iff.mp hrest
    obtain ⟨ts, e', he', hforget, hsettles⟩ := hscane hs.1 hown
    obtain ⟨us, es', hes', hforgets, hend⟩ := ih hsettles hscanes hothers
    refine ⟨ts ++ us, e' :: es', (AreTreesOf.singleton he').append hes', ?_, ?_⟩
    · rw [List.map_cons, List.map_cons, hforget, hforgets]
    · rwa [Scan.run_cons, hs.step_space hspace, Scan.run_append, ← Scan.add_add]

theorem exists_items_run {items : List Expr} (hs : s.mode = .ground)
    (hscan : ∀ e ∈ items, IsScanned limit e)
    (hxs : xs.map Located.char = [' '].intercalate (items.map source)) :
    ∃ ts es', AreTreesOf limit ts es' ∧ es'.map forget = items.map forget ∧
      (s.run xs).Settles (s.add ts) := by
  cases items with
  | nil =>
    obtain rfl : xs = [] := List.map_eq_nil_iff.mp hxs
    exact ⟨[], [], .nil, rfl, Scan.settles_self hs⟩
  | cons e es =>
    obtain ⟨hscane, hscanes⟩ := List.forall_mem_cons.mp hscan
    rw [List.map_cons, intercalate_cons_eq_flatMap] at hxs
    obtain ⟨own, others, rfl, hown, hothers⟩ := List.map_eq_append_iff.mp hxs
    obtain ⟨ts, e', he', hforget, hsettles⟩ := hscane hs hown
    obtain ⟨us, es', hes', hforgets, hend⟩ := exists_trees_run hsettles hscanes hothers
    refine ⟨ts ++ us, e' :: es', (AreTreesOf.singleton he').append hes', ?_, ?_⟩
    · rw [List.map_cons, List.map_cons, hforget, hforgets]
    · rwa [Scan.run_append, ← Scan.add_add]

theorem isScanned_string {v : String} (hw : (string t v).isWritable = true) :
    IsScanned limit (string t v) := by
  intro s xs hs hxs
  have htext : ∀ c ∈ v.toList, c ≠ '"' ∧ c ≠ '\n' := by
    simpa [isWritable] using hw
  obtain ⟨u, hkind, hraw, hrun⟩ := Scan.run_string hs htext hxs
  refine ⟨[u], _, .of_string hkind, ?_, ?_⟩
  · rw [forget, forget, hraw, String.ofList_toList]
  · rw [hrun]
    exact Scan.settles_self hs

theorem eq_finite_of_isWritable {x : Binary64} (h : (number t x).isWritable = true) :
    ∃ rank, x = .finite false rank := by
  cases x with
  | finite negative rank =>
    cases negative with
    | false => exact ⟨rank, rfl⟩
    | true => exact absurd h Bool.false_ne_true
  | infinite => exact absurd h Bool.false_ne_true
  | nan => exact absurd h Bool.false_ne_true

theorem isScanned_number {x : Binary64} (hw : (number t x).isWritable = true) :
    IsScanned limit (number t x) := by
  intro s xs hs hxs
  obtain ⟨rank, rfl⟩ := eq_finite_of_isWritable hw
  have hread := Binary64.read?_text (.finite false rank)
  obtain ⟨d, htext, -⟩ := Binary64.exists_decimal rank
  obtain ⟨c, cs, hcons, hc⟩ := d.exists_cons
  have hsource : Binary64.text (.finite false rank) = c :: cs := htext.trans hcons
  have hchars : ∀ c' ∈ c :: cs, Scan.isNumeric c' = true ∧ (c' != '_') = true := by
    intro c' hc'
    rw [← hcons] at hc'
    rcases d.isDigit_or_eq_of_mem hc' with h | rfl
    · refine ⟨by simp [Scan.isNumeric, h], bne_iff_ne.mpr ?_⟩
      rintro rfl
      exact absurd h (by decide)
    · decide
  obtain ⟨u, hkind, hraw, hsettles⟩ := Scan.run_number hs hc
    (fun c' hc' => (hchars c' (List.mem_cons_of_mem _ hc')).1) (hxs.trans hsource)
  have hvalue : Parse.number? u.raw = some (.finite false rank) := by
    rw [Parse.number?, hraw, String.toList_ofList,
      List.filter_eq_self.mpr fun c' hc' => (hchars c' hc').2, ← hsource, hread]
  exact ⟨[u], _, .of_number hkind (Parse.number?_eq_some_iff.mp hvalue), rfl, hsettles⟩

theorem exists_source_boolean (t : Token) (b : Bool) :
    ∃ c cs, (boolean t b).source = c :: cs ∧ Text.isLetter c = true ∧
      (∀ c' ∈ cs, Text.isWord c' = true) ∧ Kind.ofWord (String.ofList (c :: cs)) = .boolean ∧
      (String.ofList (c :: cs) == "true") = b := by
  cases b with
  | true => exact ⟨'t', ['r', 'u', 'e'], rfl, rfl, List.all_eq_true.mp rfl, rfl, rfl⟩
  | false => exact ⟨'f', ['a', 'l', 's', 'e'], rfl, rfl, List.all_eq_true.mp rfl, rfl, rfl⟩

theorem isScanned_boolean {b : Bool} : IsScanned limit (boolean t b) := by
  intro s xs hs hxs
  obtain ⟨c, cs, hsource, hc, hcs, hboolean, hvalue⟩ := exists_source_boolean t b
  obtain ⟨u, hkind, hraw, hsettles⟩ := Scan.run_word hs hc hcs (hxs.trans hsource)
  rw [hraw, hboolean] at hkind
  refine ⟨[u], _, .of_boolean hkind, ?_, hsettles⟩
  rw [forget, forget, hraw, hvalue]

theorem isScanned_list {items : List Expr} (h : ∀ e ∈ items, IsScanned limit e) :
    IsScanned (limit + 1) (list t items) := by
  intro s xs hs hxs
  rw [source, sourceAll_eq_map] at hxs
  obtain ⟨x, rest, rfl, hx, hrest⟩ := List.map_eq_cons_iff.mp hxs
  obtain ⟨inner, last, rfl, hinner, hlast⟩ := List.map_eq_append_iff.mp hrest
  obtain ⟨y, rfl, hy⟩ := List.map_eq_singleton_iff.mp hlast
  -- the opening bracket, the items, and the closing bracket, which also ends the last item
  have hx' : Kind.ofChar? x.char = some .openBracket := by rw [hx]; rfl
  have hy' : Kind.ofChar? y.char = some .closeBracket := by rw [hy]; rfl
  obtain ⟨opening, hopening, hopen⟩ := Scan.begin_punctuation hs hx'
  obtain ⟨ts, es, hes, hforget, hsettles⟩ := exists_items_run (s := s.add [opening]) hs h hinner
  obtain ⟨closing, hclosing, hclose⟩ := hsettles.step_punctuation (by rw [hy]; rfl) hy'
  refine ⟨_, _, .of_list hopening hes hclosing, ?_, ?_⟩
  · rw [forget, forget, forgetAll_eq_map, forgetAll_eq_map, hforget]
  · rw [Scan.run_cons, Scan.step_ground hs, hopen, Scan.run_append, Scan.run_cons, Scan.run_nil,
      hclose, Scan.add_add, Scan.add_add]
    exact Scan.settles_self hs

theorem isScanned_merge {operands : List Expr} (h : ∀ e ∈ operands, IsScanned limit e) :
    IsScanned (limit + 1) (merge t operands) := by
  intro s xs hs hxs
  rw [source, sourceAll_eq_map] at hxs
  have htext : xs.map Located.char =
      '(' :: '+' :: '+' :: ((operands.map source).flatMap (' ' :: ·) ++ [')']) := hxs
  obtain ⟨x, rest, rfl, hx, hrest⟩ := List.map_eq_cons_iff.mp htext
  obtain ⟨plus, rest', rfl, hplus, hrest'⟩ := List.map_eq_cons_iff.mp hrest
  obtain ⟨plus', rest'', rfl, hplus', hrest⟩ := List.map_eq_cons_iff.mp hrest'
  obtain ⟨inner, last, rfl, hinner, hlast⟩ := List.map_eq_append_iff.mp hrest
  obtain ⟨y, rfl, hy⟩ := List.map_eq_singleton_iff.mp hlast
  -- the parenthesis, the operator, the operands, and the closing parenthesis
  have hx' : Kind.ofChar? x.char = some .openParen := by rw [hx]; rfl
  have hy' : Kind.ofChar? y.char = some .closeParen := by rw [hy]; rfl
  obtain ⟨paren, hparen, hopen⟩ := Scan.begin_punctuation hs hx'
  obtain ⟨operator, hoperator, hmerge⟩ := Scan.step_plus_plus (s := s.add [paren]) hs hplus hplus'
  obtain ⟨ts, es, hes, hforget, hsettles⟩ :=
    exists_trees_run (Scan.settles_self (s := (s.add [paren]).add [operator]) hs) h hinner
  obtain ⟨closing, hclosing, hclose⟩ := hsettles.step_punctuation (by rw [hy]; rfl) hy'
  refine ⟨_, _, .of_merge hparen hoperator hes hclosing, ?_, ?_⟩
  · rw [forget, forget, forgetAll_eq_map, forgetAll_eq_map, hforget]
  · rw [Scan.run_cons, Scan.step_ground hs, hopen, Scan.run_cons, Scan.run_cons, hmerge,
      Scan.run_append, Scan.run_cons, Scan.run_nil, hclose, Scan.add_add, Scan.add_add,
      Scan.add_add]
    exact Scan.settles_self hs

/-- **The source of an expression is scanned as a tree of it.** -/
theorem isScanned_of_isWritable {e : Expr} (hw : e.isWritable = true) (hd : e.depth ≤ limit) :
    IsScanned limit e := by
  induction e generalizing limit with
  | string t v => exact isScanned_string hw
  | number t x => exact isScanned_number hw
  | boolean t b => exact isScanned_boolean
  | list t items ih =>
    obtain ⟨limit, rfl⟩ : ∃ n, limit = n + 1 := Nat.exists_eq_add_one.mpr (Nat.zero_lt_of_lt hd)
    rw [isWritable, isWritableAll_eq_true] at hw
    apply isScanned_list
    intro e he
    exact ih e he (hw e he) (depthAll_le.mp (Nat.le_of_succ_le_succ hd) e he)
  | merge t operands ih =>
    obtain ⟨limit, rfl⟩ : ∃ n, limit = n + 1 := Nat.exists_eq_add_one.mpr (Nat.zero_lt_of_lt hd)
    rw [isWritable, isWritableAll_eq_true] at hw
    apply isScanned_merge
    intro e he
    exact ih e he (hw e he) (depthAll_le.mp (Nat.le_of_succ_le_succ hd) e he)

end Expr

/-! ## Running a source text -/

/-- A scan that has settled ends in a pass without problems. -/
theorem Pass.ofChars_of_settles {xs : List Located} {ts : List Token} (stop : Location)
    (h : (Scan.fresh.run xs).Settles (Scan.fresh.add ts)) :
    Pass.ofChars xs stop = ⟨ts ++ [.atEnd stop.offset stop.line], [], stop⟩ := by
  have hfinish : (Scan.fresh.run xs).finish stop = Scan.fresh.add ts := h.step_newline rfl
  unfold Pass.ofChars
  rw [hfinish]
  show Pass.mk ((ts.reverse ++ []).reverse ++ _) [] stop = _
  rw [List.append_nil, List.reverse_reverse]

theorem rootRun_source {e : Expr} (hw : e.isWritable = true) (hd : e.depth ≤ maxNesting) :
    ∃ tokens e', e'.forget = e.forget ∧
      rootRun (.ofText e.source) = ⟨[.scanned tokens false, .parsed false], .ok (some e')⟩ := by
  obtain ⟨ts, e', htree, hforget, hsettles⟩ := Expr.isScanned_of_isWritable hw hd (s := .fresh) rfl
    ((Source.ofText e.source).map_char_located.trans (Source.text_ofText e.source))
  let stop := (Source.ofText e.source).stop
  let tokens := ts ++ [Token.atEnd stop.offset stop.line]
  have hpass : (Reader.ofSource (.ofText e.source)).pass = ⟨tokens, [], stop⟩ :=
    (Reader.pass_ofSource _).trans (Pass.ofChars_of_settles stop hsettles)
  have hparse : parse tokens (Text.utf8Length (Source.ofText e.source).text) = .ok (some e') := by
    rw [parse_eq_ok_some_iff, beforeEnd_append_atEnd fun t ht => htree.phrase.kind_ne_eof ht]
    exact htree
  refine ⟨tokens.length, e', hforget, ?_⟩
  rw [rootRun, scanRun_of_pass hpass, Run.andThen]
  dsimp only
  rw [parseRun, hparse]
  rfl

/-- **Round trip.** Running the source text of an expression that can be written and is nested at
most 256 deep reports nothing, reads the expression back up to tokens, and gives its value and its
script. -/
theorem run_source {e : Expr} (hw : e.isWritable = true) (hd : e.depth ≤ 256) :
    (∃ e', (rootRun (.ofOctets (Text.encode e.source))).outcome = .ok (some e') ∧
        e'.forget = e.forget) ∧
      (rootRun (.ofOctets (Text.encode e.source))).diagnostics = [] ∧
      (run .value (Text.encode e.source)).outcome = .ok (.value e.eval) ∧
      (run .value (Text.encode e.source)).diagnostics = [] ∧
      (run .script (Text.encode e.source)).outcome = .ok (.script e.script) ∧
      (run .script (Text.encode e.source)).diagnostics = [] := by
  obtain ⟨tokens, e', hforget, hroot⟩ := rootRun_source hw hd
  have heval : e'.eval = e.eval := by rw [← Expr.eval_forget, hforget, Expr.eval_forget]
  have hscript : e'.script = e.script := by
    rw [← Expr.script_forget, hforget, Expr.script_forget]
  unfold run
  rw [Source.ofOctets_encode, runSource_value, runSource_script, hroot, ← heval, ← hscript]
  refine ⟨⟨e', rfl, hforget⟩, rfl, rfl, ?_, rfl, ?_⟩
  · exact diagnostics_evalRun (some e')
  · exact diagnostics_scriptRun (some e')

def Expr.bracketInString : Expr :=
  .list (.atEnd 0 0) [.string (.atEnd 0 0) "];;",
    .merge (.atEnd 0 0) [.boolean (.atEnd 0 0) true, .number (.atEnd 0 0) (.zero false)]]

/-- Brackets and comments mean nothing inside a string. -/
theorem run_source_bracketInString :
    Expr.bracketInString.isWritable = true ∧ Expr.bracketInString.depth ≤ 256 ∧
      (run .value (Text.encode Expr.bracketInString.source)).outcome =
        .ok (.value (.array [.string "];;", .array [.boolean true, .number (.zero false)]])) := by
  have hwritable : Expr.bracketInString.isWritable = true := rfl
  have hdepth : Expr.bracketInString.depth ≤ 256 := by
    show 2 ≤ 256
    decide
  exact ⟨hwritable, hdepth, (run_source hwritable hdepth).2.2.1⟩

end Splice
