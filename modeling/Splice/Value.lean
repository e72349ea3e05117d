import Splice.Binary64.Shortest
import Splice.Json

/-!
# Values

What a program evaluates to, and how values are merged and shown.
-/

namespace Splice

inductive Value where
  | null
  | boolean (b : Bool)
  | number (x : Binary64)
  | string (s : String)
  | array (items : List Value)

namespace Value

/-! ## Merging -/

def isString : Value → Bool
  | string _ => true
  | _ => false

/-- The characters of a string; no other value has any. -/
def characters : Value → List Char
  | string s => s.toList
  | _ => []

/-- What a value puts into a merged list: an array its elements, any other value itself. -/
def elements : Value → List Value
  | array items => items
  | v => [v]

/-- The merge of operands: nothing merges to null, strings are joined, and all else is spliced into
one list, one level deep. -/
def merge (operands : List Value) : Value :=
  if operands.isEmpty then null
  else if operands.all isString then string (String.ofList (operands.flatMap characters))
  else array (operands.flatMap elements)

/-! ## Equality -/

mutual

/-- Equality of values; numbers are compared as numbers. -/
def valEq : Value → Value → Bool
  | null, null => true
  | boolean a, boolean b => a == b
  | number a, number b => a.numEq b
  | string a, string b => a == b
  | array xs, array ys => allEq xs ys
  | _, _ => false

def allEq : List Value → List Value → Bool
  | [], [] => true
  | x :: xs, y :: ys => valEq x y && allEq xs ys
  | _, _ => false

end

/-! ## JSON -/

mutual

/-- The JSON tree of a value. JSON has no spelling for a number that is not finite; null stands for
it. -/
def toJson : Value → Json
  | null => .null
  | boolean b => .boolean b
  | number x => if x.isFinite then .number x.text else .null
  | string s => .string s
  | array items => .array (toJsonAll items)

def toJsonAll : List Value → List Json
  | [] => []
  | v :: vs => toJson v :: toJsonAll vs

end

def compact (v : Value) : String := v.toJson.render .compact .printable

def pretty (v : Value) : String := v.toJson.render .indented .printable

end Value

end Splice
