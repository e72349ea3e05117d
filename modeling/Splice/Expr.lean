import Splice.Token
import Splice.Value

/-!
# Expressions

The trees of programs and their values. Each node keeps the token it was read from; a merge keeps
its operator, not its parenthesis.
-/

namespace Splice

inductive Expr where
  | string (token : Token) (value : String)
  | number (token : Token) (value : Binary64)
  | boolean (token : Token) (value : Bool)
  | list (token : Token) (items : List Expr)
  | merge (token : Token) (operands : List Expr)

namespace Expr

def token : Expr → Token
  | string t _ | number t _ | boolean t _ | list t _ | merge t _ => t

mutual

def eval : Expr → Value
  | string _ s => .string s
  | number _ x => .number x
  | boolean _ b => .boolean b
  | list _ items => .array (evalAll items)
  | merge _ operands => .merge (evalAll operands)

def evalAll : List Expr → List Value
  | [] => []
  | e :: es => eval e :: evalAll es

end

@[simp] theorem evalAll_eq_map (es : List Expr) : evalAll es = es.map eval := by
  induction es with
  | nil => rfl
  | cons e es ih => rw [evalAll, ih, List.map_cons]

/-- The value of a program: null if it holds no expression. -/
def evalRoot : Option Expr → Value
  | none => .null
  | some e => e.eval

mutual

/-- The operators of the merges without operands, from left to right. -/
def emptyMerges : Expr → List Token
  | list _ items => emptyMergesAll items
  | merge t [] => [t]
  | merge _ (e :: es) => emptyMerges e ++ emptyMergesAll es
  | _ => []

def emptyMergesAll : List Expr → List Token
  | [] => []
  | e :: es => emptyMerges e ++ emptyMergesAll es

end

end Expr

end Splice
