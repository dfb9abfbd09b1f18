import Abacus.Parse.Expression
import Abacus.Token.Scan

/-!
# Abacus.Parse.Program

The rules for statements, and whole programs.

```
program    → statement* EOF
statement  → ( function | if | while | for | return | assignment | expression ) ";"?
function   → "function" IDENT "(" parameters? ")" block
if         → "if" expression block ( "else" ( if | block ) )?
while      → "while" expression block
for        → "for" IDENT "in" expression block
return     → "return" expression?
assignment → IDENT "=" expression
block      → "{" statement* "}"
```

Semicolons may also stand before, between and after statements.  The first
fault ends the reading.
-/

namespace Abacus

namespace Parse

/-! ## Blocks -/

/-- Read statements up to a closing brace or the end of input. -/
def statements (fuel : Nat) (statement : Parser Stmt) : Nat → Parser (List Stmt)
  | 0 => exhausted
  | n + 1 => do
    skipSeparators fuel
    if (← sees .rightBrace) || (← atEnd) then return []
    else
      let s ← statement
      let rest ← statements fuel statement n
      return s :: rest

/-- Read a braced block. -/
def block (fuel : Nat) (statement : Parser Stmt) : Parser (List Stmt) := do
  discard (expect .leftBrace .openBlock)
  nested .blocks do
    let body ← statements fuel statement fuel
    discard (expect .rightBrace .closeBlock)
    return body

/-! ## Statements -/

/-- Read a function definition after its keyword. -/
def definition (block : Parser (List Stmt)) (pos : Position) : Parser Stmt := do
  let name ← expect .identifier .functionName
  discard (expect .leftParen .openParameters)
  let params ←
    if ← sees .rightParen then pure []
    else separated .fewerParameters (expect .identifier .parameterName) listLimit
  discard (expect .rightParen .closeParameters)
  let body ← block
  return .function name.lexeme (params.map Token.lexeme) body pos

/-- Read a conditional after its keyword.  A conditional after `else` is the
only statement of the other branch. -/
def conditional (expr : Parser Expr) (block : Parser (List Stmt)) :
    Nat → Position → Parser Stmt
  | 0, _ => exhausted
  | n + 1, pos => do
    let condition ← expr
    let body ← block
    if ← accept (.keyword .elseKw) then
      let t ← peek
      if ← accept (.keyword .ifKw) then
        let chained ← nested .elseIfBranches (conditional expr block n t.pos)
        return .ifElse condition body [chained] pos
      else
        let other ← block
        return .ifElse condition body other pos
    else return .ifThen condition body pos

/-- Read a loop over items after its keyword. -/
def iteration (expr : Parser Expr) (block : Parser (List Stmt)) (pos : Position) :
    Parser Stmt := do
  let var ← expect .identifier .loopVariable
  discard (expect (.keyword .inKw) .inWord)
  let items ← expr
  let body ← block
  return .forLoop var.lexeme items body pos

/-- Read what a `return` gives back, after its keyword. -/
def giveBack (expr : Parser Expr) (pos : Position) : Parser Stmt := do
  if (← sees .rightBrace) || (← sees .semicolon) || (← atEnd) then return .giveBack none pos
  else
    let value ← expr
    return .giveBack (some value) pos

/-- Whether the token after the next one is an equals sign. -/
def assignFollows : Parser Bool := do
  return (← get).rest.tail.head?.any fun t => t.kind = .operator .assign

/-- Read an assignment. -/
def assignment (expr : Parser Expr) : Parser Stmt := do
  let name ← advance
  discard (expect (.operator .assign) .assignSign)
  let value ← expr
  return .assign name.lexeme value name.pos

/-- Read a bare expression. -/
def bare (expr : Parser Expr) : Parser Stmt := do return .expression (← expr)

/-- Read a statement up to its semicolon. -/
def statementBody (fuel : Nat) (expr : Parser Expr) (block : Parser (List Stmt)) :
    Parser Stmt := do
  let t ← peek
  match t.kind with
  | .keyword .functionKw =>
    discard advance
    definition block t.pos
  | .keyword .ifKw =>
    discard advance
    conditional expr block fuel t.pos
  | .keyword .whileKw =>
    discard advance
    let condition ← expr
    let body ← block
    return .whileLoop condition body t.pos
  | .keyword .forKw =>
    discard advance
    iteration expr block t.pos
  | .keyword .returnKw =>
    discard advance
    giveBack expr t.pos
  | .identifier => if ← assignFollows then assignment expr else bare expr
  | _ => bare expr

/-- Read a statement and the semicolon that may follow it. -/
def statement (fuel : Nat) (expr : Parser Expr) : Nat → Parser Stmt
  | 0 => exhausted
  | n + 1 => do
    let s ← statementBody fuel expr (block fuel (statement fuel expr n))
    discard (accept .semicolon)
    return s

/-! ## Programs -/

/-- Read statements up to the end of input. -/
def program (fuel : Nat) (statement : Parser Stmt) : Nat → Parser (List Stmt)
  | 0 => exhausted
  | n + 1 => do
    skipSeparators fuel
    if ← atEnd then return []
    else
      let s ← statement
      let rest ← program fuel statement n
      return s :: rest

/-- Read a whole program, with the given fuel for every rule that calls itself. -/
def wholeProgram (fuel : Nat) : Parser (List Stmt) :=
  program fuel (statement fuel (expression fuel (unary fuel)) fuel) fuel

/-- Whether a token sequence ends in an end of input. -/
def terminated (tokens : List Token) : Bool := tokens.getLast?.any fun t => t.kind = .endOfInput

/-- The fault of a token sequence that does not end in an end of input. -/
def unterminated (tokens : List Token) : GrammarError :=
  ⟨.terminator, "unterminated token sequence", (tokens.getLast?.map Token.pos).getD .first⟩

/-- The outcome of reading a whole token sequence, with the cursor at the end. -/
def run (tokens : List Token) : EStateM.Result ParseStop Cursor (List Stmt) :=
  wholeProgram (tokens.length + 1) ⟨tokens, 0⟩

end Parse

/-- Read a token sequence as a program.  Fuel for every token is enough, so the
answer without fuel is never given. -/
def parseTokens (tokens : List Token) : Except GrammarError (List Stmt) :=
  if Parse.terminated tokens then
    match Parse.run tokens with
    | .ok program _ => .ok program
    | .error (.fault e) _ => .error e
    | .error .exhausted c => .error (.atToken .expression c.current)
  else .error (Parse.unterminated tokens)

/-- A fault of a source text, found before anything is run. -/
inductive SourceError where
  | lexical (e : LexicalError)
  | grammar (e : GrammarError)
deriving DecidableEq, Repr

/-- Read a source text as a program. -/
def parseSource (source : String) : Except SourceError (List Stmt) :=
  match tokenize source with
  | .error e => .error (.lexical e)
  | .ok tokens =>
    match parseTokens tokens with
    | .error e => .error (.grammar e)
    | .ok program => .ok program

end Abacus
