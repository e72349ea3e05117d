import Splice.Command
import Splice.Proofs.OneLine

/-!
# Token lists read back

A reader of token lists (`Token.readAll?`): a strict reader of JSON, and over it a reader of objects
that finds the members of a token by their names, in any order. Three facts make it read what is
written of any tokens (`tokenList_reads_back`): what is written is strict JSON, whatever is in the
texts of the tokens; a natural number reads back from its digits; and no two kinds share a label,
though words and operators are labels beside the names of literals.
-/

namespace Splice

/-! ## The reader -/

namespace Json

def field? (name : String) : Json → Option Json
  | object members => members.lookup name
  | _ => none

def text? : Json → Option String
  | string s => some s
  | _ => none

/-- The natural number that a tree is: a numeral of nothing but digits. -/
def natural? : Json → Option Nat
  | number literal =>
    if literal ≠ [] ∧ literal.all Char.isDigit = true then some (Numeral.valueOf literal) else none
  | _ => none

def items? : Json → Option (List Json)
  | array items => some items
  | _ => none

theorem natural?_toDigits (n : Nat) : natural? (.number (Nat.toDigits 10 n)) = some n := by
  have hdigits : (Nat.toDigits 10 n).all Char.isDigit = true :=
    List.all_eq_true.mpr fun c hc => isDigit_toDigits hc
  rw [natural?, if_pos ⟨Nat.toDigits_ne_nil, hdigits⟩, Numeral.valueOf_toDigits]

end Json

namespace Token

/-- The token that an object describes. -/
def ofJson? (j : Json) : Option Token := do
  let kind ← Kind.ofLabel? (← (← j.field? "kind").text?)
  let raw ← (← j.field? "raw").text?
  let offset ← (← j.field? "position").natural?
  let line ← (← j.field? "line").natural?
  return ⟨kind, raw, offset, line⟩

/-- The tokens that a whole text describes. -/
def readAll? (text : String) : Option (List Token) := do
  (← (← Json.read? text.toList).items?).mapM ofJson?

theorem ofJson?_toJson (t : Token) : ofJson? t.toJson = some t := by
  have hkind : t.toJson.field? "kind" = some (.string t.kind.label) := rfl
  have hraw : t.toJson.field? "raw" = some (.string t.raw) := rfl
  have hoffset : t.toJson.field? "position" = some (.number (Nat.toDigits 10 t.offset)) := rfl
  have hline : t.toJson.field? "line" = some (.number (Nat.toDigits 10 t.line)) := rfl
  simp only [ofJson?, hkind, hraw, hoffset, hline, Option.bind_eq_bind, Option.bind_some,
    Json.text?, Kind.ofLabel?_label, Json.natural?_toDigits, Option.pure_def]

theorem mapM_ofJson?_toJson (ts : List Token) : (ts.map toJson).mapM ofJson? = some ts := by
  induction ts with
  | nil => rfl
  | cons t ts ih => simp [ofJson?_toJson, ih]

end Token

/-! ## What is written -/

theorem Json.Layout.isSound_layoutOf (o : Command.Options) : (Command.layoutOf o).IsSound := by
  unfold Command.layoutOf
  split
  case isTrue => exact isSound_indented
  case isFalse => exact isSound_compact

theorem read?_tokenList {l : Json.Layout} (hl : l.IsSound) (ts : List Token) :
    Json.read? (tokenList l ts).toList = some (.array (ts.map Token.toJson)) := by
  refine Json.read?_render hl Front.isSound_standard (.array ?_)
  exact List.forall_mem_map.mpr fun t _ => t.isStrict_toJson

theorem Token.readAll?_tokenList {l : Json.Layout} (hl : l.IsSound) (ts : List Token) :
    readAll? (tokenList l ts) = some ts := by
  simp only [readAll?, read?_tokenList hl, Option.bind_eq_bind, Option.bind_some, Json.items?,
    mapM_ofJson?_toJson]

/-- **Token lists read back.** The text of a token list, on one line or indented, is strict JSON: an
array of one object for each token, in order, that describes the token. So the tokens are read back
from the text, and texts are the same only if the tokens are. -/
theorem tokenList_reads_back (o : Command.Options) (ts others : List Token) :
    Json.read? (tokenList (Command.layoutOf o) ts).toList =
        some (.array (ts.map Token.toJson)) ∧
      (∀ t : Token, Token.ofJson? t.toJson = some t) ∧
      Token.readAll? (tokenList (Command.layoutOf o) ts) = some ts ∧
      (tokenList (Command.layoutOf o) ts = tokenList (Command.layoutOf o) others ↔
        ts = others) := by
  have hl := Json.Layout.isSound_layoutOf o
  refine ⟨read?_tokenList hl ts, Token.ofJson?_toJson, Token.readAll?_tokenList hl ts, ?_, ?_⟩
  · intro h
    apply Option.some.inj
    rw [← Token.readAll?_tokenList hl ts, h, Token.readAll?_tokenList hl others]
  · exact congrArg _

end Splice
