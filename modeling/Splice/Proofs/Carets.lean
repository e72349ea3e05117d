import Splice.Proofs.Excerpts
import Splice.Proofs.Misfits
import Splice.Proofs.Streams

/-!
# Carets of misfits

A parse fails at a template at the latest, so a misfit that has a text is spelled outside of
templates. It stands at its line and column as it is spelled (`exists_line_of_spelled`): a string
with its quotes, any other token with its text. So the text of the problem is there, and the carets
are under it, if and only if the misfit is no string (`text_prefix_misfit_iff`).
-/

namespace Splice

open Text Scan

variable {ts before after : List Token} {t : Token} {xs : List Located}

/-! ## Tokens that no template is before -/

/-- The tokens before the first template. -/
def beforeTemplate (ts : List Token) : List Token := ts.takeWhile (·.kind != .template)

theorem beforeTemplate_cons (h : t.kind ≠ .template) (ts : List Token) :
    beforeTemplate (t :: ts) = t :: beforeTemplate ts :=
  List.takeWhile_cons_of_pos (p := fun u : Token => u.kind != .template) (bne_iff_ne.mpr h)

theorem mem_beforeTemplate (h : ∀ u ∈ before, u.kind ≠ .template) (ht : t.kind ≠ .template)
    (after : List Token) : t ∈ beforeTemplate (before ++ t :: after) := by
  induction before with
  | nil =>
    rw [List.nil_append, beforeTemplate_cons ht]
    exact List.mem_cons_self
  | cons u before ih =>
    obtain ⟨hu, hbefore⟩ := List.forall_mem_cons.mp h
    rw [List.cons_append, beforeTemplate_cons hu]
    exact List.mem_cons_of_mem u (ih hbefore)

/-- Up to the first template, every token is spelled between tokens. -/
theorem Lexed.spells (h : Lexed xs ts) :
    ∀ t ∈ beforeTemplate ts, Spells t.spelling t.kind t.raw.toList := by
  have hcons {text raw : List Char} {kind : Kind} {place : Location} {ts : List Token}
      (h : Spells text kind raw)
      (hts : ∀ t ∈ beforeTemplate ts, Spells t.spelling t.kind t.raw.toList) :
      ∀ t ∈ beforeTemplate (.of kind raw place :: ts),
        Spells t.spelling t.kind t.raw.toList := by
    obtain ⟨htemplate, hspelling⟩ := h.spelling place
    have htemplate : (Token.of kind raw place).kind ≠ .template := htemplate
    rw [beforeTemplate_cons htemplate]
    refine List.forall_mem_cons.mpr ⟨?_, hts⟩
    rwa [hspelling, Token.of, String.toList_ofList]
  induction h with
  | nil => exact List.forall_mem_nil _
  | blank _ _ ih | comment _ _ _ _ _ ih => exact ih
  | mark hx _ ih => exact hcons (.mark hx) ih
  | plus _ _ _ ih => exact hcons .plus ih
  | merge _ _ _ ih => exact hcons .merge ih
  | string _ hbody _ _ ih => exact hcons (.string (List.forall_mem_map.mpr hbody)) ih
  | word hx hbody _ _ ih => exact hcons (.word hx (List.forall_mem_map.mpr hbody)) ih
  | number hx hbody _ _ ih => exact hcons (.number hx (List.forall_mem_map.mpr hbody)) ih
  | template => exact List.forall_mem_nil _

theorem Spells.exists_concat {text raw : List Char} {kind : Kind} (h : Spells text kind raw) :
    ∃ front c, text = front ++ [c] ∧ c ≠ '\r' := by
  have hall {p : Char → Bool} (hp : p '\r' = false) {cs : List Char} (hne : cs ≠ [])
      (hcs : ∀ c ∈ cs, p c = true) : ∃ front c, cs = front ++ [c] ∧ c ≠ '\r' := by
    refine ⟨cs.dropLast, cs.getLast hne, (List.dropLast_append_getLast hne).symm, fun h => ?_⟩
    have hlast := hcs _ (List.getLast_mem hne)
    rw [h, hp] at hlast
    exact Bool.noConfusion hlast
  cases h with
  | @mark c _ hc => exact ⟨[], c, rfl, by rintro rfl; cases hc⟩
  | plus => exact ⟨[], '+', rfl, by decide⟩
  | merge => exact ⟨['+'], '+', rfl, by decide⟩
  | string => exact ⟨'"' :: raw, '"', rfl, by decide⟩
  | @word c cs hc hcs =>
    exact hall (p := isWord) (by decide) (List.cons_ne_nil c cs)
      (List.forall_mem_cons.mpr ⟨isWord_of_isLetter hc, hcs⟩)
  | @number c cs hc hcs =>
    exact hall (p := isNumeric) (by decide) (List.cons_ne_nil c cs)
      (List.forall_mem_cons.mpr ⟨isNumeric_of_isDigit hc, hcs⟩)

theorem Spells.raw_prefix_iff {text raw : List Char} {kind : Kind} (h : Spells text kind raw)
    (hraw : raw ≠ []) (rest : List Char) : raw <+: text ++ rest ↔ kind ≠ .string := by
  cases h with
  | string htext =>
    refine iff_of_false (fun hprefix => ?_) (not_not_intro rfl)
    obtain ⟨c, cs, rfl⟩ := List.exists_cons_of_ne_nil hraw
    obtain ⟨hquote, -⟩ := List.cons_prefix_cons.mp hprefix
    exact (htext c List.mem_cons_self).1 hquote
  | mark hc => exact iff_of_true (List.prefix_append _ _) (Kind.ne_of_ofChar? hc).1
  | word => exact iff_of_true (List.prefix_append _ _) (Kind.ofWord_ne _).1
  | plus | merge | number => exact iff_of_true (List.prefix_append _ _) (by decide)

/-! ## The line of a spelling -/

/-- A token that no template is before stands in the text as it is spelled. -/
theorem exists_spelling {octets : List UInt8} (hwell : isWellFormed octets = true)
    (h : Lexed (Source.ofOctets octets).terminated ts)
    (hts : ts ++ [.atEnd octets.length (octets.count 10)] = before ++ t :: after)
    (hbefore : ∀ u ∈ before, u.kind ≠ .template) (hraw : t.raw ≠ "") :
    Spells t.spelling t.kind t.raw.toList ∧ ∃ earlier later,
      characters octets = earlier ++ (t.spelling ++ later) ∧ t.offset = utf8Length earlier ∧
        t.line = earlier.count '\n' := by
  have htiled := tiled_of_lexed h hwell
  rw [hts] at htiled
  obtain ⟨first, rest, hfirst, hrest⟩ := htiled.exists_rest
  rw [insideAfter_eq_self hbefore] at hrest
  obtain ⟨skipped, own, later, rfl, hoffset, hspelled, -⟩ := hrest.exists_spelled
  rw [Nat.zero_add, ← utf8Length_append] at hoffset
  -- a template has no text, and neither has the end of the input
  have htemplate : t.kind ≠ .template := by
    cases hspelled with
    | exact hempty _ => exact fun hk => hraw (hempty hk)
    | literal hinside => cases hinside
  obtain rfl : own = t.spelling := by
    rw [hspelled.eq_spellingIn (by rw [beq_false_of_ne htemplate]; rfl), Token.spellingIn,
      if_neg Bool.false_ne_true, if_neg htemplate]
  have hspells : Spells t.spelling t.kind t.raw.toList := by
    obtain ⟨rest, rfl⟩ : ∃ rest, ts = before ++ t :: rest := by
      rcases List.eq_nil_or_concat after with rfl | ⟨rest, last, rfl⟩
      · obtain ⟨-, hlast⟩ := List.append_inj' hts rfl
        rw [← List.head_eq_of_cons_eq hlast] at hraw
        exact absurd rfl hraw
      · rw [List.concat_eq_append, ← List.cons_append, ← List.append_assoc] at hts
        exact ⟨rest, (List.append_inj' hts rfl).1⟩
    exact h.spells t (mem_beforeTemplate hbefore htemplate rest)
  refine ⟨hspells, first ++ skipped, later, by rw [hfirst, List.append_assoc], hoffset, ?_⟩
  obtain ⟨own, others, hoctets, hlength, hline, -⟩ :=
    exists_octets_of_lexed h t (hts ▸ List.mem_append_right _ List.mem_cons_self)
  have hown : own = encode (first ++ skipped) := by
    have hencode := encode_characters hwell
    rw [hfirst, ← List.append_assoc, encode_append, hoctets] at hencode
    refine (List.append_inj_left hencode ?_).symm
    rw [length_encode, ← hoffset, hlength]
  rw [hline, hown, ← count_newline_decode, characters_encode]

/-- A spelling in a text is on one line, at its column, also when the line is shown. -/
theorem exists_line_of_spelled {earlier later spelling raw : List Char} {kind : Kind}
    (h : Spells spelling kind raw) : ∃ line shown,
      (lines (earlier ++ (spelling ++ later)))[earlier.count '\n']? = some line ∧
      spelling <+: line.drop (lastLine earlier).length ∧
      (shownLine (earlier ++ (spelling ++ later)) (earlier.count '\n')).drop
        (lastLine earlier).length = spelling ++ shown := by
  have hne : ∀ c ∈ spelling, (c != '\n') = true := by
    intro c hc
    exact bne_iff_ne.mpr fun hline => h.newline_not_mem (hline ▸ hc)
  obtain ⟨front, c, hconcat, hc⟩ := h.exists_concat
  have hline := getElem?_lines earlier (spelling ++ later)
  rw [List.takeWhile_append_of_pos hne] at hline
  generalize later.takeWhile (· != '\n') = rest at hline
  refine ⟨_, rest.rdropWhile (· == '\r'), hline, ?_, ?_⟩
  · rw [List.drop_left]
    exact List.prefix_append _ _
  · have hstays : (c == '\r') = false := beq_false_of_ne hc
    have hdrop := rdropWhile_append_cons (p := (· == '\r')) hstays (lastLine earlier ++ front) rest
    rw [shownLine_eq_rdropWhile hline, hconcat]
    simp only [List.append_assoc, List.singleton_append] at hdrop ⊢
    rw [hdrop, List.drop_left]

/-! ## Misfits -/

/-- A misfit that has a text stands in the text of the source as it is spelled. -/
theorem exists_spelling_of_misfit {octets : List UInt8} {m : Misfit}
    (hwell : isWellFormed octets = true) (hscan : (scanRun (.ofOctets octets)).outcome = .ok ts)
    (hparse : parse ts (utf8Length (characters octets)) = .error m) (hraw : m.token.raw ≠ "") :
    Spells m.token.spelling m.token.kind m.token.raw.toList ∧ ∃ earlier later,
      characters octets = earlier ++ (m.token.spelling ++ later) ∧
        m.token.offset = utf8Length earlier ∧ m.token.line = earlier.count '\n' := by
  obtain ⟨us, hlexed, hts⟩ := outcome_scanRun_eq_ok_iff.mp hscan
  rw [Source.stop_ofOctets] at hts
  obtain ⟨before, after, hsplit, hrejects⟩ := exists_rejects_of_parse hparse
  have hsplit : ts = before ++ m.token :: after := by
    refine hsplit.resolve_right ?_
    rintro ⟨hne, -⟩
    refine hne (.atEnd octets.length (octets.count 10)) ?_ rfl
    rw [hts]
    exact List.mem_append_right _ List.mem_cons_self
  exact exists_spelling hwell hlexed (hts.symm.trans hsplit) hrejects.isViable.kind_ne_template hraw

/-- **Carets of misfits.** At the line and column of the problem that a parse of well-formed octets
reports about a token with a text, the token stands as it is spelled. So the line goes on with the
text of the problem there, and the carets are under this text, if and only if the token is no
string. -/
theorem text_prefix_misfit_iff {octets : List UInt8} {ts : List Token} {m : Misfit}
    (hwell : isWellFormed octets = true) (hscan : (scanRun (.ofOctets octets)).outcome = .ok ts)
    (hparse : parse ts (utf8Length (characters octets)) = .error m) (hraw : m.token.raw ≠ "") :
    ∃ d line, (rootRun (.ofOctets octets)).diagnostics = [d] ∧ d.problem.text = m.token.raw ∧
      (lines (characters octets))[d.problem.line]? = some line ∧
      m.token.spelling <+: line.drop d.problem.column ∧
      (d.problem.text.toList <+: line.drop d.problem.column ↔ m.token.kind ≠ .string) ∧
      (underlined d.excerpt = d.problem.text.toList ↔ m.token.kind ≠ .string) := by
  obtain ⟨hspells, earlier, later, htext, hoffset, hline⟩ :=
    exists_spelling_of_misfit hwell hscan hparse hraw
  obtain ⟨line, shown, hlines, hprefix, hshown⟩ := exists_line_of_spelled hspells
  have hcolumn : columnAt (characters octets) m.token.offset = (lastLine earlier).length := by
    rw [hoffset]
    exact columnAt_eq ⟨_, htext.symm⟩
  have hempty : m.token.raw.toList ≠ [] := fun hnil => hraw (String.toList_inj.mp hnil)
  have hwidth : max (max 1 m.token.raw.length) 1 = m.token.raw.toList.length := by
    have hpos := List.length_pos_iff.mpr hempty
    rw [String.length_toList] at hpos ⊢
    omega
  have hproblem : m.problem (characters octets) =
      ⟨m.fault, earlier.count '\n', (lastLine earlier).length, m.token.raw⟩ := by
    rw [Misfit.problem, hcolumn, hline, Token.shown, if_neg hraw]
  refine ⟨⟨m.problem (characters octets), characters octets⟩, line,
    (rootRun_of_misfit hscan hparse).2, ?_⟩
  rw [hproblem, htext]
  refine ⟨rfl, hlines, hprefix, ?_, ?_⟩
  · obtain ⟨rest, hrest⟩ := hprefix
    rw [← hrest]
    exact hspells.raw_prefix_iff hempty rest
  · rw [Diagnostic.excerpt, underlined_excerpt, hshown, Problem.width, hwidth, eq_comm,
      ← List.prefix_iff_eq_take]
    exact hspells.raw_prefix_iff hempty shown

/-- A list over two lines, with a name after a string on the second. -/
def nameText : List Char := ['[', '1', '\n', '"', 'é', '"', ' ', 'x', ']']

def nameMisfit : Misfit := ⟨.misplacedToken, ⟨.name, "x", 8, 1⟩⟩

/-- The carets are under the name. -/
theorem text_prefix_misfit_name :
    isWellFormed (encode nameText) = true ∧
      (scanRun (.ofOctets (encode nameText))).outcome = .ok [⟨.openBracket, "[", 0, 0⟩,
        ⟨.number, "1", 1, 0⟩, ⟨.string, "é", 3, 1⟩, nameMisfit.token,
        ⟨.closeBracket, "]", 9, 1⟩, .atEnd 10 1] ∧
      ∃ d line, (rootRun (.ofOctets (encode nameText))).diagnostics = [d] ∧
        (lines (characters (encode nameText)))[d.problem.line]? = some line ∧
        ['x'] <+: line.drop d.problem.column ∧ underlined d.excerpt = ['x'] := by
  have hwell : isWellFormed (encode nameText) = true := by decide
  have hscan : (scanRun (.ofOctets (encode nameText))).outcome = .ok [⟨.openBracket, "[", 0, 0⟩,
      ⟨.number, "1", 1, 0⟩, ⟨.string, "é", 3, 1⟩, nameMisfit.token,
      ⟨.closeBracket, "]", 9, 1⟩, .atEnd 10 1] := rfl
  obtain ⟨d, line, hd, htext, hline, -, hprefix, hcarets⟩ :=
    text_prefix_misfit_iff hwell hscan (m := nameMisfit) rfl (by decide)
  have hkind : nameMisfit.token.kind ≠ .string := by decide
  rw [htext] at hprefix hcarets
  exact ⟨hwell, hscan, d, line, hd, hline, hprefix.mpr hkind, hcarets.mpr hkind⟩

/-- Two strings, of which the second is one too many. -/
def stringsText : List Char := ['"', 'a', '"', ' ', '"', 'b', '"']

/-- At the column of a string is its quote: the caret is there, and not under the text. -/
theorem text_not_prefix_string :
    isWellFormed (encode stringsText) = true ∧
      (scanRun (.ofOctets (encode stringsText))).outcome =
        .ok [⟨.string, "a", 0, 0⟩, ⟨.string, "b", 4, 0⟩, .atEnd 7 0] ∧
      (rootRun (.ofOctets (encode stringsText))).diagnostics =
        [⟨⟨.misplacedToken, 0, 4, "b"⟩, stringsText⟩] ∧
      (lines stringsText)[0]? = some stringsText ∧ ¬['b'] <+: stringsText.drop 4 ∧
      underlined (Diagnostic.mk ⟨.misplacedToken, 0, 4, "b"⟩ stringsText).excerpt = ['"'] :=
  ⟨by decide, rfl, rfl, rfl, by decide, rfl⟩

end Splice
