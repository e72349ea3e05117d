/-!
# Tokens

The words of the language. A kind has one label, which token lists and messages show; no two kinds
share a label (`Kind.ofLabel?_label`).
-/

namespace Splice

inductive Kind where
  /-- A character that begins no token. -/
  | unknown
  | number
  | string
  /-- The boundary of a template: one before its parts and one after them. -/
  | template
  | boolean
  | name
  | plus
  | minus
  | slash
  | star
  | percent
  /-- The operator that joins strings and splices lists. -/
  | merge
  | colon
  | dot
  | openParen
  | closeParen
  | openBrace
  | closeBrace
  | openBracket
  | closeBracket
  | underscore
  | letWord
  | funWord
  | ifWord
  | forWord
  | matchWord
  | returnWord
  | andWord
  | orWord
  | notWord
  /-- The end of the input. -/
  | eof
deriving DecidableEq

namespace Kind

def keywords : List Kind :=
  [letWord, funWord, ifWord, forWord, matchWord, returnWord, andWord, orWord, notWord]

def all : List Kind :=
  [unknown, number, string, template, boolean, name, plus, minus, slash, star, percent, merge,
    colon, dot, openParen, closeParen, openBrace, closeBrace, openBracket, closeBracket,
    underscore] ++ keywords ++ [eof]

def label : Kind → String
  | unknown => "UNKNOWN"
  | number => "FLOAT"
  | string => "STRING"
  | template => "TEMPLATE_STRING"
  | boolean => "BOOL"
  | name => "IDENT"
  | plus => "+"
  | minus => "-"
  | slash => "/"
  | star => "*"
  | percent => "%"
  | merge => "++"
  | colon => ":"
  | dot => "."
  | openParen => "("
  | closeParen => ")"
  | openBrace => "\x7b"
  | closeBrace => "\x7d"
  | openBracket => "["
  | closeBracket => "]"
  | underscore => "_"
  | letWord => "let"
  | funWord => "fun"
  | ifWord => "if"
  | forWord => "for"
  | matchWord => "match"
  | returnWord => "return"
  | andWord => "and"
  | orWord => "or"
  | notWord => "not"
  | eof => "EOF"

def ofLabel? (s : String) : Option Kind := all.find? (·.label == s)

/-- The reserved word with a given spelling. -/
def keyword? (s : String) : Option Kind := keywords.find? (·.label == s)

theorem ofLabel?_label (k : Kind) : ofLabel? k.label = some k := by cases k <;> decide

/-- The kind of a word: a boolean, a reserved word, or a name. -/
def ofWord (s : String) : Kind :=
  if s = "true" ∨ s = "false" then boolean else (keyword? s).getD name

/-- The kind of a character that is a token by itself. -/
def ofChar? : Char → Option Kind
  | '-' => some minus
  | '/' => some slash
  | '*' => some star
  | '%' => some percent
  | '(' => some openParen
  | ')' => some closeParen
  | '{' => some openBrace
  | '}' => some closeBrace
  | '[' => some openBracket
  | ']' => some closeBracket
  | ':' => some colon
  | '.' => some dot
  | '_' => some underscore
  | _ => none

end Kind

/-- A token: its kind, its text (of a string, without the quotes), the octets before it, and the
line it is on, from zero. -/
structure Token where
  kind : Kind
  raw : String
  offset : Nat
  line : Nat
deriving DecidableEq

namespace Token

/-- The end of the input at an offset and line. -/
def atEnd (offset line : Nat) : Token := ⟨.eof, "", offset, line⟩

/-- How messages refer to a token: by its text, or by its kind if it has none. -/
def shown (t : Token) : String := if t.raw = "" then t.kind.label else t.raw

end Token

end Splice
