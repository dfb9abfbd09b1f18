import Abacus.Source.Position

/-!
# Abacus.Token.Basic

The tokens of the language.  A `Token` keeps its kind, the exact text it was
read from and the place of its first character.  Alternative spellings of an
operator share one `Operator`, so `≤` and `<=` differ only in the text kept.
-/

namespace Abacus

/-! ## Words and symbols -/

/-- The reserved words. -/
inductive Keyword where
  | functionKw | ifKw | elseKw | forKw | whileKw | returnKw
  | andKw | orKw | notKw | inKw | trueKw | falseKw | toKw
deriving DecidableEq, Repr

namespace Keyword

/-- The spelling of a reserved word. -/
def word : Keyword → String
  | functionKw => "function"
  | ifKw => "if"
  | elseKw => "else"
  | forKw => "for"
  | whileKw => "while"
  | returnKw => "return"
  | andKw => "and"
  | orKw => "or"
  | notKw => "not"
  | inKw => "in"
  | trueKw => "true"
  | falseKw => "false"
  | toKw => "to"

/-- Every reserved word. -/
def all : List Keyword :=
  [functionKw, ifKw, elseKw, forKw, whileKw, returnKw,
    andKw, orKw, notKw, inKw, trueKw, falseKw, toKw]

/-- The reserved word that `w` spells, if any. -/
def ofWord? (w : String) : Option Keyword := all.find? fun k => k.word = w

/-- The spelling of a reserved word spells it. -/
@[simp] theorem ofWord?_word (k : Keyword) : ofWord? k.word = some k := by
  cases k <;> decide

end Keyword

/-- The operator symbols, the equals sign of an assignment included. -/
inductive Operator where
  | plus | minus | star | slash | caret | percent
  | assign | equal | notEqual | less | lessEqual | greater | greaterEqual
  | sum | product | integral
deriving DecidableEq, Repr

namespace Operator

/-- The canonical spelling of an operator. -/
def symbol : Operator → String
  | plus => "+"
  | minus => "-"
  | star => "*"
  | slash => "/"
  | caret => "^"
  | percent => "%"
  | assign => "="
  | equal => "=="
  | notEqual => "!="
  | less => "<"
  | lessEqual => "<="
  | greater => ">"
  | greaterEqual => ">="
  | sum => "∑"
  | product => "∏"
  | integral => "∫"

end Operator

/-! ## Tokens -/

/-- The kinds of token.  A string token carries its contents with the escapes
resolved; the value of a number token is read off its text. -/
inductive Kind where
  | number
  | string (contents : String)
  | identifier
  | keyword (word : Keyword)
  | operator (symbol : Operator)
  | comma | colon | semicolon
  | leftParen | rightParen | leftBrace | rightBrace
  | newline
  | endOfInput
deriving DecidableEq, Repr, Inhabited

/-- The upper-case tag of a kind in token listings. -/
def Kind.tag : Kind → String
  | number => "NUMBER"
  | string _ => "STRING"
  | identifier => "IDENTIFIER"
  | keyword _ => "KEYWORD"
  | operator _ => "OPERATOR"
  | comma => "COMMA"
  | colon => "COLON"
  | semicolon => "SEMICOLON"
  | leftParen => "LEFT_PAREN"
  | rightParen => "RIGHT_PAREN"
  | leftBrace => "LEFT_BRACE"
  | rightBrace => "RIGHT_BRACE"
  | newline => "NEWLINE"
  | endOfInput => "EOF"

/-- A token: its kind, the text it was read from and where that text starts. -/
structure Token where
  kind : Kind
  lexeme : String
  pos : Position
deriving DecidableEq, Repr, Inhabited

namespace Token

/-- The token that closes every token sequence. -/
def finish (p : Position) : Token := ⟨.endOfInput, "", p⟩

/-- How a message names the token it met. -/
def describe (t : Token) : String :=
  match t.kind with
  | .endOfInput => "end of input"
  | .string _ => "string " ++ t.lexeme
  | _ => "'" ++ t.lexeme ++ "'"

end Token

end Abacus
