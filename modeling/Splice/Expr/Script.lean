import Splice.Expr

/-!
# Scripts

An expression as a JavaScript expression. Literals are written as literals and a merge as a call of
`concat` on an empty list. A merge without operands is left out: alone it writes nothing, and as an
operand `null` stands for it.
-/

namespace Splice.Expr

def numberLiteral : Binary64 → List Char
  | .infinite negative => if negative then "-Infinity".toList else "Infinity".toList
  | x => x.text

/-- The text after an operand, given the text before it: `null` stands for an operand that wrote
nothing. -/
def filled (before after : String) : String :=
  if after.utf8ByteSize = before.utf8ByteSize then after ++ "null" else after

mutual

/-- A text and the script of an expression after it. -/
def write (out : String) : Expr → String
  | string _ s => out ++ String.ofList (Json.quote .standard s.toList)
  | number _ x => out ++ String.ofList (numberLiteral x)
  | boolean _ b => out ++ if b then "true" else "false"
  | list _ items => writeOperands (out ++ "[") "" items ++ "]"
  | merge _ operands =>
    if operands.isEmpty then out else writeOperands (out ++ "[].concat(") "" operands ++ ")"

/-- A text and operands after it: a separator before the first, and commas between them. -/
def writeOperands (out separator : String) : List Expr → String
  | [] => out
  | e :: es => writeOperands (filled (out ++ separator) (write (out ++ separator) e)) "," es

end

def script (e : Expr) : String := e.write ""

/-- The script of a program: empty if it holds no expression. -/
def scriptRoot : Option Expr → String
  | none => ""
  | some e => e.script

end Splice.Expr
