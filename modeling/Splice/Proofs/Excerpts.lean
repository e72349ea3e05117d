import Mathlib.Data.List.DropRight
import Splice.Proofs.Malformed
import Splice.Proofs.Passes

/-!
# Carets of an excerpt

What the caret line of an excerpt stands under (`underlined`) is read off the excerpt itself: its
lines are cut at the line feeds, and the columns count from after the tab. An excerpt has the
carets under the columns it was made for, of the line without the carriage returns at its end
(`underlined_excerpt`). So the carets of a problem are under its text, up to those carriage returns
(`Problem.Points.take_drop_rdropWhile`); only a string that is open at the end of its line has any.
-/

namespace Splice

open Text Scan

/-- What follows the first tab of a line. -/
def afterTab (line : List Char) : List Char := (line.dropWhile (· != '\t')).tail

/-- The characters of a line that have a caret below them. -/
def overCarets (line below : List Char) : List Char :=
  ((line.zip below).filter (·.2 == '^')).map Prod.fst

/-- The characters of the shown line that the carets of an excerpt are under: the caret line is
above the empty line at the end, and the shown line above the caret line. -/
def underlined (excerpt : List Char) : List Char :=
  match (lines excerpt).reverse with
  | _ :: _ :: carets :: shown :: _ => overCarets (afterTab shown) (afterTab carets)
  | _ => []

/-! ## Lines of an excerpt -/

theorem newline_not_mem_of_mem_text_lines {text line : List Char} (h : line ∈ lines text) :
    '\n' ∉ line := by
  unfold lines at h
  induction text generalizing line with
  | nil =>
    rw [List.splitOn_nil, List.mem_singleton] at h
    simp [h]
  | cons c text ih =>
    obtain ⟨first, others, hsplit⟩ := List.exists_cons_of_ne_nil (List.splitOn_ne_nil '\n' text)
    rw [List.splitOn_cons_eq_if_modifyHead, hsplit] at h
    rw [hsplit] at ih
    split at h
    case isTrue =>
      rcases List.mem_cons.mp h with rfl | h
      · exact List.not_mem_nil
      · exact ih h
    case isFalse hc =>
      rcases List.mem_cons.mp h with rfl | h
      · have hne : '\n' ≠ c := fun hline => hc (beq_iff_eq.mpr hline.symm)
        exact List.not_mem_cons_of_ne_of_not_mem hne (ih List.mem_cons_self)
      · exact ih (List.mem_cons_of_mem _ h)

/-- A shown line is a line of the text without the carriage returns at its end. -/
theorem shownLine_eq_rdropWhile {text line : List Char} {index : Nat}
    (h : (lines text)[index]? = some line) :
    shownLine text index = line.rdropWhile (· == '\r') := by
  rw [shownLine, h]
  rfl

theorem newline_not_mem_shownLine (text : List Char) (index : Nat) :
    '\n' ∉ shownLine text index := by
  cases h : (lines text)[index]? with
  | none => simp [shownLine, h]
  | some line =>
    rw [shownLine_eq_rdropWhile h]
    intro hmem
    exact newline_not_mem_of_mem_text_lines (List.mem_of_getElem? h)
      ((List.rdropWhile_prefix _ line).subset hmem)

theorem isDigit_of_mem_lineNumber {n : Nat} {c : Char} (h : c ∈ lineNumber n) :
    c.isDigit = true := by
  rcases List.mem_append.mp h with h | h
  · rw [List.eq_of_mem_replicate h]
    rfl
  · exact Nat.isDigit_of_mem_toDigits (by decide) (by decide) h

/-- The shown line of an excerpt, with its number. -/
def numberedLine (text : List Char) (index : Nat) : List Char :=
  lineNumber (index + 1) ++ [' ', '|'] ++ '\t' :: shownLine text index

theorem newline_not_mem_numberedLine (text : List Char) (index : Nat) :
    '\n' ∉ numberedLine text index := by
  have hnumber : '\n' ∉ lineNumber (index + 1) := by
    intro h
    exact absurd (isDigit_of_mem_lineNumber h) (by decide)
  simp [numberedLine, hnumber, newline_not_mem_shownLine]

theorem afterTab_numberedLine (text : List Char) (index : Nat) :
    afterTab (numberedLine text index) = shownLine text index := by
  have hne : ∀ c ∈ lineNumber (index + 1) ++ [' ', '|'], (c != '\t') = true := by
    refine List.forall_mem_append.mpr ⟨?_, by simp⟩
    intro c hc
    apply bne_iff_ne.mpr
    rintro rfl
    exact absurd (isDigit_of_mem_lineNumber hc) (by decide)
  rw [afterTab, numberedLine, List.dropWhile_append_of_pos hne]
  rfl

/-- The carets of an excerpt, with the spaces before them. -/
def caretMarks (column width : Nat) : List Char :=
  List.replicate column ' ' ++ List.replicate (max width 1) '^'

theorem newline_not_mem_caretMarks (column width : Nat) :
    '\n' ∉ '\t' :: caretMarks column width := by
  simp [caretMarks, List.mem_replicate]

theorem exists_lines_excerpt (text : List Char) (index column width : Nat) :
    ∃ front, lines (excerpt text index column width) =
      front ++ [numberedLine text index, '\t' :: caretMarks column width, [], []] := by
  obtain ⟨front, hfront⟩ : ∃ front, excerpt text index column width = front ++ '\n' ::
      (numberedLine text index ++ '\n' :: ('\t' :: caretMarks column width ++ ['\n', '\n'])) := by
    cases index with
    | zero =>
      refine ⟨[], ?_⟩
      simp [excerpt, excerptLine, caretLine, caretMarks, numberedLine]
    | succ before =>
      refine ⟨'\n' :: numberedLine text before, ?_⟩
      simp [excerpt, excerptLine, caretLine, caretMarks, numberedLine]
  refine ⟨lines front, ?_⟩
  rw [hfront]
  unfold lines
  rw [List.splitOn_append_cons_self,
    List.splitOn_append_cons_self_of_not_mem (newline_not_mem_numberedLine text index),
    List.splitOn_append_cons_self_of_not_mem (newline_not_mem_caretMarks column width)]
  rfl

/-! ## What is underlined -/

theorem overCarets_replicate_space (line below : List Char) (column : Nat) :
    overCarets line (List.replicate column ' ' ++ below) = overCarets (line.drop column) below := by
  induction column generalizing line with
  | zero => rfl
  | succ column ih =>
    cases line with
    | nil => simp [overCarets]
    | cons c line => exact ih line

theorem overCarets_replicate_caret (line : List Char) (width : Nat) :
    overCarets line (List.replicate width '^') = line.take width := by
  induction width generalizing line with
  | zero => simp [overCarets]
  | succ width ih =>
    cases line with
    | nil => rfl
    | cons c line => exact congrArg (c :: ·) (ih line)

/-- An excerpt has carets under the columns it was made for, as far as the shown line goes. -/
theorem underlined_excerpt (text : List Char) (index column width : Nat) :
    underlined (excerpt text index column width) =
      ((shownLine text index).drop column).take (max width 1) := by
  obtain ⟨front, hlines⟩ := exists_lines_excerpt text index column width
  have hreverse : (lines (excerpt text index column width)).reverse = [] :: [] ::
      ('\t' :: caretMarks column width) :: numberedLine text index :: front.reverse := by
    rw [hlines]
    simp
  rw [underlined, hreverse]
  show overCarets (afterTab (numberedLine text index)) (caretMarks column width) = _
  rw [afterTab_numberedLine, caretMarks, overCarets_replicate_space, overCarets_replicate_caret]

/-! ## Problems -/

theorem rdropWhile_append_cons {α : Type} {p : α → Bool} {a : α} (ha : p a = false)
    (before after : List α) :
    (before ++ a :: after).rdropWhile p = before ++ a :: after.rdropWhile p := by
  induction after using List.reverseRecOn with
  | nil => simp [ha]
  | append_singleton after b ih =>
    rw [← List.cons_append, ← List.append_assoc, List.rdropWhile_concat, List.rdropWhile_concat]
    split
    case isTrue => exact ih
    case isFalse => simp

/-- A line without the carriage returns at its end has the text of a problem without those at the
end of it, where the problem is. -/
theorem Problem.Points.take_drop_rdropWhile {line : List Char} {p : Problem} (h : p.Points line)
    (htext : p.text ≠ "") (hreturn : p.fault = .unknownCharacter → p.text ≠ "\r") :
    ((line.rdropWhile (· == '\r')).drop p.column).take (max p.width 1) =
      p.text.toList.rdropWhile (· == '\r') := by
  cases h with
  | unknown before c rest =>
    have hc : c ≠ '\r' := by
      rintro rfl
      exact hreturn rfl rfl
    have hstays : (c == '\r') = false := beq_false_of_ne hc
    rw [@rdropWhile_append_cons _ (· == '\r') c hstays]
    simp [Problem.width, List.rdropWhile_singleton, hc]
  | openString before body =>
    have hlength : (body.rdropWhile (· == '\r')).length ≤ max (max 1 body.length) 1 :=
      (List.rdropWhile_prefix _ body).length_le.trans (by omega)
    rw [rdropWhile_append_cons rfl, List.append_cons, List.drop_left' (by simp),
      Problem.width, String.length_ofList, List.take_of_length_le hlength, String.toList_ofList]
  | openTemplate => exact absurd rfl htext

/-- A carriage return begins no token, and is not reported. -/
theorem text_ne_return_of_mem_reports {mode : Mode} {x : Located} {p : Problem}
    (h : p ∈ mode.reports x) (hfault : p.fault = .unknownCharacter) : p.text ≠ "\r" := by
  obtain ⟨-, rfl | ⟨start, rfl⟩⟩ := unknown_of_mem_reports h hfault
  · intro htext
    have hx : x.char = '\r' :=
      (List.cons.inj (String.ofList_injective (htext : _ = String.ofList ['\r']))).1
    have hstrays : x.strays = [] := by
      rw [Located.strays, hx]
      rfl
    have hbreaks : x.breaks = [] := by
      rw [Located.breaks, hx]
      rfl
    cases mode <;> simp [Mode.reports, hstrays, hbreaks, hx, Located.unknown] at h
  · exact show String.ofList [';'] ≠ "\r" by decide

/-- Nor do passes of a reader report one. -/
theorem Reader.text_ne_return_of_mem_found {octets : List UInt8} {n : Nat} {p : Problem}
    (h : p ∈ (ofSource (.ofOctets octets)).found n) (hfault : p.fault = .unknownCharacter) :
    p.text ≠ "\r" := by
  induction n with
  | zero => exact absurd h List.not_mem_nil
  | succ n ih =>
    rcases List.mem_append.mp h with h | h
    · exact ih h
    · rw [pass, Pass.problems_ofChars, List.mem_reverse] at h
      obtain ⟨before, x, after, -, hp⟩ := (mem_problems_run.mp h).resolve_left List.not_mem_nil
      exact text_ne_return_of_mem_reports hp hfault

theorem rdropWhile_eq_self_iff_getLast? (text : List Char) :
    text.rdropWhile (· == '\r') = text ↔ text.getLast? ≠ some '\r' := by
  rw [List.rdropWhile_eq_self_iff]
  cases text using List.reverseRecOn with
  | nil => simp
  | append_singleton text c => simp

/-- **Carets of the problems.** In the excerpt of a problem that has a text, and that some passes of
a reader have found, the carets are under the text without the carriage returns at its end. So they
are under all of the text if and only if it does not end in a carriage return. -/
theorem underlined_excerpt_of_passes (octets : List UInt8) (n : Nat) :
    ∀ p ∈ (Reader.ofSource (.ofOctets octets)).found n, p.text ≠ "" →
      underlined (Diagnostic.mk p (Source.ofOctets octets).text).excerpt =
          p.text.toList.rdropWhile (· == '\r') ∧
        (underlined (Diagnostic.mk p (Source.ofOctets octets).text).excerpt = p.text.toList ↔
          p.text.toList.getLast? ≠ some '\r') := by
  intro p hp htext
  obtain ⟨-, read, rest, hterminated, hreports, -⟩ := Reader.isPast_after octets n
  obtain ⟨line, hline, hpoints⟩ := hreports.exists_points hterminated p (List.mem_reverse.mpr hp)
  have hcarets : underlined (Diagnostic.mk p (Source.ofOctets octets).text).excerpt =
      p.text.toList.rdropWhile (· == '\r') := by
    rw [Diagnostic.excerpt, underlined_excerpt, shownLine_eq_rdropWhile hline]
    exact hpoints.take_drop_rdropWhile htext (Reader.text_ne_return_of_mem_found hp)
  exact ⟨hcarets, by rw [hcarets, rdropWhile_eq_self_iff_getLast?]⟩

/-- An open string below another line, which a carriage return ends. -/
def returnOctets : List UInt8 := encode ['a', '\r', '\n', ' ', '"', 'b', 'c', '\r', '\n']

/-- The carets are under the string up to the carriage return. -/
theorem underlined_excerpt_return :
    ⟨.openString, 1, 2, "bc\r"⟩ ∈ (Reader.ofSource (.ofOctets returnOctets)).found 1 ∧
      underlined (Diagnostic.mk ⟨.openString, 1, 2, "bc\r"⟩
        (Source.ofOctets returnOctets).text).excerpt = ['b', 'c'] := by
  have hfound : ⟨.openString, 1, 2, "bc\r"⟩ ∈
      (Reader.ofSource (.ofOctets returnOctets)).found 1 := List.mem_cons_self
  have htext : ("bc\r" : String) ≠ "" := by decide
  exact ⟨hfound, (underlined_excerpt_of_passes returnOctets 1 _ hfound htext).1⟩

/-- So they are not under all of it. -/
theorem underlined_excerpt_ne_text :
    ¬∀ octets n, ∀ p ∈ (Reader.ofSource (.ofOctets octets)).found n, p.text ≠ "" →
      underlined (Diagnostic.mk p (Source.ofOctets octets).text).excerpt = p.text.toList := by
  intro h
  have hcarets := h (encode ['"', 'a', 'b', '\r', '\n']) 1 ⟨.openString, 0, 1, "ab\r"⟩
    List.mem_cons_self (by decide)
  exact absurd hcarets (by decide)

end Splice
