import Mathlib.Data.Nat.Basic
import Abacus.Tree.Basic

/-!
# Abacus.Proofs.Tree.Equality

Equality of trees is decidable.  Numbers are compared as doubles, bit by bit, so a
number that is none is equal to itself, and zeros with different signs are not equal.
What a source is read as can then be checked by evaluation.
-/

namespace Abacus

/-! ## Expressions -/

namespace Expr

mutual
/-- Whether two expressions are equal, places included. -/
def beq : Expr → Expr → Bool
  | .number x, .number y => x = y
  | .string s, .string t => s = t
  | .boolean b, .boolean c => b = c
  | .variable name pos, .variable name' pos' => name = name' && pos = pos'
  | .binary op left right pos, .binary op' left' right' pos' =>
    op = op' && beq left left' && beq right right' && pos = pos'
  | .unary op operand pos, .unary op' operand' pos' =>
    op = op' && beq operand operand' && pos = pos'
  | .call name args pos, .call name' args' pos' =>
    name = name' && beqAll args args' && pos = pos'
  | .aggregate kind var start stop body pos, .aggregate kind' var' start' stop' body' pos' =>
    kind = kind' && var = var' && beq start start' && beq stop stop' && beq body body' &&
      pos = pos'
  | _, _ => false

/-- Whether two lists of expressions are equal. -/
def beqAll : List Expr → List Expr → Bool
  | [], [] => true
  | e :: es, e' :: es' => beq e e' && beqAll es es'
  | _, _ => false
end

mutual
/-- The comparison of expressions decides equality: by induction on the first of them. -/
theorem beq_iff : ∀ e e' : Expr, beq e e' = true ↔ e = e'
  | .number _, e' | .string _, e' | .boolean _, e' | .variable _ _, e' => by
      cases e' <;> simp [beq]
  | .binary _ left right _, e' => by
      cases e' <;> simp [beq, beq_iff left, beq_iff right, and_assoc]
  | .unary _ operand _, e' => by cases e' <;> simp [beq, beq_iff operand, and_assoc]
  | .call _ args _, e' => by cases e' <;> simp [beq, beqAll_iff args, and_assoc]
  | .aggregate _ _ start stop body _, e' => by
      cases e' <;> simp [beq, beq_iff start, beq_iff stop, beq_iff body, and_assoc]

/-- The comparison of lists of expressions decides equality. -/
theorem beqAll_iff : ∀ es es' : List Expr, beqAll es es' = true ↔ es = es'
  | [], es' => by cases es' <;> simp [beqAll]
  | e :: rest, es' => by cases es' <;> simp [beqAll, beq_iff e, beqAll_iff rest]
end

instance : DecidableEq Expr := fun e e' => decidable_of_iff (beq e e' = true) (beq_iff e e')

end Expr

/-! ## Statements -/

namespace Stmt

mutual
/-- Whether two statements are equal, places included. -/
def beq : Stmt → Stmt → Bool
  | .expression e, .expression e' => e = e'
  | .assign name value pos, .assign name' value' pos' =>
    name = name' && value = value' && pos = pos'
  | .ifThen condition body pos, .ifThen condition' body' pos' =>
    condition = condition' && beqAll body body' && pos = pos'
  | .ifElse condition body other pos, .ifElse condition' body' other' pos' =>
    condition = condition' && beqAll body body' && beqAll other other' && pos = pos'
  | .whileLoop condition body pos, .whileLoop condition' body' pos' =>
    condition = condition' && beqAll body body' && pos = pos'
  | .forLoop var items body pos, .forLoop var' items' body' pos' =>
    var = var' && items = items' && beqAll body body' && pos = pos'
  | .function name params body pos, .function name' params' body' pos' =>
    name = name' && params = params' && beqAll body body' && pos = pos'
  | .giveBack value pos, .giveBack value' pos' => value = value' && pos = pos'
  | _, _ => false

/-- Whether two lists of statements are equal. -/
def beqAll : List Stmt → List Stmt → Bool
  | [], [] => true
  | s :: rest, s' :: rest' => beq s s' && beqAll rest rest'
  | _, _ => false
end

mutual
/-- The comparison of statements decides equality: by induction on the first of them. -/
theorem beq_iff : ∀ s s' : Stmt, beq s s' = true ↔ s = s'
  | .expression _, s' | .assign _ _ _, s' | .giveBack _ _, s' => by
      cases s' <;> simp [beq, and_assoc]
  | .ifThen _ body _, s' | .whileLoop _ body _, s' | .forLoop _ _ body _, s'
  | .function _ _ body _, s' => by
      cases s' <;> simp [beq, beqAll_iff body, and_assoc]
  | .ifElse _ body other _, s' => by
      cases s' <;> simp [beq, beqAll_iff body, beqAll_iff other, and_assoc]

/-- The comparison of lists of statements decides equality. -/
theorem beqAll_iff : ∀ stmts stmts' : List Stmt, beqAll stmts stmts' = true ↔ stmts = stmts'
  | [], stmts' => by cases stmts' <;> simp [beqAll]
  | s :: rest, stmts' => by cases stmts' <;> simp [beqAll, beq_iff s, beqAll_iff rest]
end

instance : DecidableEq Stmt := fun s s' => decidable_of_iff (beq s s' = true) (beq_iff s s')

end Stmt

end Abacus
