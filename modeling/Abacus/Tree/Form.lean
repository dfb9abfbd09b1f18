import Abacus.Number.Style
import Abacus.Text.Quoted
import Abacus.Tree.Basic

/-!
# Abacus.Tree.Form

The prefix form of trees: every compound node is a parenthesised list that
starts with its operator or keyword, and every block is a braced list.  Strings
are quoted, so a form never spans lines.
-/

namespace Abacus

/-- Texts joined by single spaces. -/
def joined (texts : List String) : String := String.intercalate " " texts

mutual
/-- The prefix form of an expression. -/
def Expr.form : Expr → String
  | .number n => Number.display n
  | .string s => Text.quoted s
  | .boolean b => if b then "true" else "false"
  | .variable name _ => name
  | .binary op left right _ => "(" ++ op.symbol ++ " " ++ left.form ++ " " ++ right.form ++ ")"
  | .unary op operand _ => "(" ++ op.symbol ++ " " ++ operand.form ++ ")"
  | .call name args _ => "(call " ++ joined (name :: Expr.forms args) ++ ")"
  | .aggregate kind var start stop body _ =>
    "(" ++ kind.symbol ++ " " ++ var ++ " " ++ start.form ++ " " ++ stop.form ++ " " ++
      body.form ++ ")"

/-- The prefix forms of expressions. -/
def Expr.forms : List Expr → List String
  | [] => []
  | e :: es => e.form :: Expr.forms es
end

/-- Forms between braces. -/
def braced (forms : List String) : String := "\x7b" ++ joined forms ++ "\x7d"

mutual
/-- The prefix form of a statement. -/
def Stmt.form : Stmt → String
  | .expression e => e.form
  | .assign name value _ => "(= " ++ name ++ " " ++ value.form ++ ")"
  | .ifThen condition body _ => "(if " ++ condition.form ++ " " ++ braced (Stmt.forms body) ++ ")"
  | .ifElse condition body other _ =>
    "(if " ++ condition.form ++ " " ++ braced (Stmt.forms body) ++ " " ++
      braced (Stmt.forms other) ++ ")"
  | .whileLoop condition body _ =>
    "(while " ++ condition.form ++ " " ++ braced (Stmt.forms body) ++ ")"
  | .forLoop var items body _ =>
    "(for " ++ var ++ " " ++ items.form ++ " " ++ braced (Stmt.forms body) ++ ")"
  | .function name params body _ =>
    "(function " ++ name ++ " (" ++ joined params ++ ") " ++ braced (Stmt.forms body) ++ ")"
  | .giveBack (some value) _ => "(return " ++ value.form ++ ")"
  | .giveBack none _ => "(return)"

/-- The prefix forms of statements. -/
def Stmt.forms : List Stmt → List String
  | [] => []
  | s :: rest => s.form :: Stmt.forms rest
end

end Abacus
