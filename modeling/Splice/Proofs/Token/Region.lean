import Splice.Token.Scan

/-!
# Regions of a text

Which characters of a text are outside of strings, templates and comments, as the delimiters before
them say, without a reading of tokens (`Region`). A text between delimiters leads from code back to
code, and nothing in it is outside (`IsSealed.delimited`).
-/

namespace Splice

/-- Where a text has come to: outside of strings, templates and comments, or inside of one. -/
inductive Region where
  | code
  /-- After a semicolon, which a second one makes a comment. -/
  | semicolon
  | comment
  | string
  | template
deriving DecidableEq

namespace Region

def step : Region → Char → Region
  | comment, c => if c = '\n' then code else comment
  | string, c => if c = '"' then code else string
  | template, c => if c = '\'' then code else template
  | semicolon, ';' => comment
  | _, '"' => string
  | _, '\'' => template
  | _, ';' => semicolon
  | _, _ => code

def read (r : Region) (text : List Char) : Region := text.foldl step r

def isOutside : Region → Bool
  | code | semicolon => true
  | comment | string | template => false

theorem read_append (r : Region) (text text' : List Char) :
    r.read (text ++ text') = (r.read text).read text' := List.foldl_append

theorem read_eq_self {r : Region} {text : List Char} (h : ∀ c ∈ text, r.step c = r) :
    r.read text = r := by
  induction text with
  | nil => rfl
  | cons c cs ih =>
    obtain ⟨hc, hcs⟩ := List.forall_mem_cons.mp h
    rw [read, List.foldl_cons, hc]
    exact ih hcs

theorem step_code {c : Char} (h : c ∉ ['"', '\'', ';']) : code.step c = code := by
  simp only [List.mem_cons, List.not_mem_nil, or_false, not_or] at h
  unfold step
  split
  all_goals first | rfl | contradiction

end Region

/-! ## Texts that no run begins in -/

theorem not_mem_of_class {p : Char → Bool} {c : Char} {cs : List Char} (hc : p c = true)
    (hcs : cs.all (!p ·) = true) : c ∉ cs := by
  intro hmem
  have hother := List.all_eq_true.mp hcs c hmem
  rw [hc] at hother
  exact Bool.noConfusion hother

theorem prefix_of_concat_eq {α : Type} {xs before after : List α} {last : α}
    (h : xs ++ [last] = before ++ after) (hne : after ≠ []) : before <+: xs := by
  have hdrop := congrArg List.dropLast h
  rw [List.dropLast_concat, List.dropLast_append_of_ne_nil hne] at hdrop
  exact ⟨_, hdrop.symm⟩

/-- A text that leads from code to code, and has no run of pluses that begins in code but at the
beginning of the text. -/
structure IsSealed (own : List Char) : Prop where
  closed : Region.code.read own = .code
  inner : ∀ before after, own = before ++ '+' :: after → before ≠ [] →
    (Region.code.read before).isOutside = true → before.getLast? = some '+'

namespace IsSealed

theorem singleton {c : Char} (h : c ∉ ['"', '\'', ';']) : IsSealed [c] where
  closed := Region.step_code h
  inner before after heq hne := by
    cases before with
    | nil => exact absurd rfl hne
    | cons d before => simp at heq

theorem merge : IsSealed ['+', '+'] where
  closed := rfl
  inner before after heq hne := by
    obtain ⟨c, before, rfl⟩ := List.exists_cons_of_ne_nil hne
    obtain ⟨rfl, hrest⟩ := List.cons.inj heq
    cases before with
    | nil => exact fun _ => rfl
    | cons d before => simp at hrest

/-- A text of characters of a class, which neither begin anything else nor are pluses. -/
theorem of_class {p : Char → Bool} {own : List Char} (hown : ∀ c ∈ own, p c = true)
    (hother : ['+', '"', '\'', ';'].all (!p ·) = true) : IsSealed own := by
  have hne {c : Char} (hc : c ∈ own) : c ∉ ['+', '"', '\'', ';'] :=
    not_mem_of_class (hown c hc) hother
  constructor
  case closed =>
    refine Region.read_eq_self fun c hc => Region.step_code fun hmem => ?_
    exact hne hc (List.mem_cons_of_mem _ hmem)
  case inner =>
    intro before after heq
    have hplus : '+' ∈ own := heq ▸ List.mem_append_right _ List.mem_cons_self
    exact absurd List.mem_cons_self (hne hplus)

theorem delimited {opening body : List Char} {close : Char} {r : Region}
    (hopening : Region.code.read opening = r) (houtside : r.isOutside = false)
    (hplus : '+' ∉ opening) (hbody : ∀ c ∈ body, r.step c = r) (hclose : r.step close = .code) :
    IsSealed (opening ++ (body ++ [close])) where
  closed := by
    rw [Region.read_append, hopening, Region.read_append, Region.read_eq_self hbody]
    exact hclose
  inner before after heq _ hbefore := by
    rcases List.append_eq_append_iff.mp heq with ⟨between, rfl, hrest⟩ | ⟨between, hfirst, hrest⟩
    · -- up to a plus after the opening, nothing has closed the region
      have hfront : between <+: body := prefix_of_concat_eq hrest (List.cons_ne_nil _ _)
      rw [Region.read_append, hopening,
        Region.read_eq_self fun c hc => hbody c (hfront.subset hc), houtside] at hbefore
      exact Bool.noConfusion hbefore
    · cases between with
      | nil =>
        rw [List.append_nil] at hfirst
        rw [← hfirst, hopening, houtside] at hbefore
        exact Bool.noConfusion hbefore
      | cons c between =>
        obtain ⟨rfl, -⟩ := List.cons.inj hrest
        exact absurd (hfirst ▸ List.mem_append_right _ List.mem_cons_self) hplus

end IsSealed

end Splice
