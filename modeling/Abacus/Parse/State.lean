import Abacus.Tree.Basic

/-!
# Abacus.Parse.State

What a parser works on.  A `Parser` reads tokens from the front of the
`Cursor` and counts the constructs it is inside of; a failure keeps the cursor
where it stood.  The primitive steps here look at one token, take one token, or
charge one level of nesting; all grammar rules are built from them.
-/

namespace Abacus

/-! ## Grammar faults -/

/-- The constructs that count against the nesting limit. -/
inductive Construct where
  | blocks | expressions | operators | unaryOperators | elseIfBranches
deriving DecidableEq, Repr

/-- The plural name of a construct. -/
def Construct.name : Construct → String
  | blocks => "blocks"
  | expressions => "expressions"
  | operators => "operators"
  | unaryOperators => "unary operators"
  | elseIfBranches => "else-if branches"

/-- The greatest number of constructs that may be open at once. -/
def nestingLimit : Nat := 256

/-- The greatest number of arguments of a call and of parameters of a function. -/
def listLimit : Nat := 255

/-- What a grammar rule wanted where it failed. -/
inductive Expected where
  | functionName | openParameters | parameterName | closeParameters
  | loopVariable | inWord | assignSign | openBlock | closeBlock
  | expression | numericLiteral | closeGroup | closeArguments
  | openBounds | boundVariable | boundAssign | toWord | closeBounds
  | fewerArguments | fewerParameters
  | shallower (what : Construct)
  | terminator
deriving DecidableEq, Repr

namespace Expected

/-- How a message names what was wanted. -/
def text : Expected → String
  | functionName => "function name"
  | openParameters => "'(' after function name"
  | parameterName => "parameter name"
  | closeParameters => "')' after parameters"
  | loopVariable => "loop variable after 'for'"
  | inWord => "'in' after loop variable"
  | assignSign => "'='"
  | openBlock => "'\x7b' to open block"
  | closeBlock => "'\x7d' to close block"
  | expression => "expression"
  | numericLiteral => "numeric literal"
  | closeGroup => "')' after expression"
  | closeArguments => "')' after arguments"
  | openBounds => "'(' after aggregate symbol"
  | boundVariable => "bound variable name"
  | boundAssign => "'=' after bound variable"
  | toWord => "'to' between bounds"
  | closeBounds => "')' after bounds"
  | fewerArguments => "at most " ++ toString listLimit ++ " arguments"
  | fewerParameters => "at most " ++ toString listLimit ++ " parameters"
  | shallower what => "at most " ++ toString nestingLimit ++ " nested " ++ what.name
  | terminator => "token sequence ending in end of input"

/-- Whether the rule failed only because a limit was reached. -/
def isLimit : Expected → Bool
  | fewerArguments | fewerParameters | shallower _ => true
  | _ => false

end Expected

/-- A violation of the grammar: what was wanted, what was found, and where. -/
structure GrammarError where
  expected : Expected
  found : String
  pos : Position
deriving DecidableEq, Repr

namespace GrammarError

/-- What a grammar fault says, its place apart. -/
def text (e : GrammarError) : String :=
  "Expected " ++ e.expected.text ++ ", found " ++ e.found

/-- The fault of wanting something else where the token `t` stands. -/
def atToken (expected : Expected) (t : Token) : GrammarError := ⟨expected, t.describe, t.pos⟩

end GrammarError

/-! ## Parsers -/

/-- The tokens still to be read and the number of open constructs. -/
structure Cursor where
  rest : List Token
  nesting : Nat
deriving Repr

/-- Why a parser stops: a fault in the tokens, or no fuel left. -/
inductive ParseStop where
  | fault (e : GrammarError)
  | exhausted
deriving DecidableEq, Repr

/-- Readers of tokens.  A failing reader leaves the cursor where it stood. -/
abbrev Parser (α : Type) := EStateM ParseStop Cursor α

namespace Cursor

/-- The token to be read next; past the last one, an end of input. -/
def current (c : Cursor) : Token := c.rest.headD (Token.finish .first)

/-- Whether the next token is the end of input. -/
def atEnd (c : Cursor) : Bool := c.current.kind = .endOfInput

/-- Whether the next token has the given kind; the end of input has none. -/
def sees (c : Cursor) (kind : Kind) : Bool := !c.atEnd && c.current.kind = kind

/-- The cursor after the next token; it does not pass the end of input. -/
def forward (c : Cursor) : Cursor := if c.atEnd then c else { c with rest := c.rest.tail }

/-- Moving forward takes a token unless the end of input is reached. -/
theorem length_forward_lt {c : Cursor} (h : c.atEnd = false) :
    c.forward.rest.length < c.rest.length := by
  have hne : c.rest ≠ [] := by
    intro hnil
    simp [atEnd, current, hnil, Token.finish] at h
  have hpos := List.length_pos_iff.mpr hne
  simp only [forward, h, Bool.false_eq_true, if_false, List.length_tail]
  omega

end Cursor

namespace Parse

/-- Give up for want of fuel. -/
def exhausted {α : Type} : Parser α := throw .exhausted

/-- The token to be read next. -/
def peek : Parser Token := do return (← get).current

/-- Whether the end of input is reached. -/
def atEnd : Parser Bool := do return (← get).atEnd

/-- Whether the next token has the given kind. -/
def sees (kind : Kind) : Parser Bool := do return (← get).sees kind

/-- Take the next token. -/
def advance : Parser Token := do
  let t ← peek
  modify Cursor.forward
  return t

/-- Fail at the next token. -/
def fail {α : Type} (expected : Expected) : Parser α := do
  throw (.fault (.atToken expected (← peek)))

/-- Take the next token if it has the given kind. -/
def accept (kind : Kind) : Parser Bool := do
  if ← sees kind then
    discard advance
    return true
  else return false

/-- Take the next token, which must have the given kind. -/
def expect (kind : Kind) (expected : Expected) : Parser Token := do
  if ← sees kind then advance else fail expected

/-- Charge one level of nesting. -/
def enter (what : Construct) : Parser Unit := do
  if (← get).nesting < nestingLimit then
    modify fun c => { c with nesting := c.nesting + 1 }
  else fail (.shallower what)

/-- Give one level of nesting back. -/
def leave : Parser Unit := modify fun c => { c with nesting := c.nesting - 1 }

/-- Read a construct inside one more level of nesting.  The level is given back
only if the construct can be read. -/
def nested {α : Type} (what : Construct) (p : Parser α) : Parser α := do
  enter what
  let a ← p
  leave
  return a

/-- Take every semicolon at the front, at most `n` of them. -/
def skipSeparators : Nat → Parser Unit
  | 0 => exhausted
  | n + 1 => do
    if ← accept .semicolon then skipSeparators n

/-- Read items separated by commas, one at least and `n` at most. -/
def separated {α : Type} (tooMany : Expected) (item : Parser α) : Nat → Parser (List α)
  | 0 => fail tooMany
  | n + 1 => do
    let a ← item
    if ← accept .comma then
      let rest ← separated tooMany item n
      return a :: rest
    else return [a]

end Parse

end Abacus
