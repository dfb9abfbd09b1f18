import Abacus.Eval.Step

/-!
# Abacus.Eval.Evaluate

Evaluation of expressions and execution of statements.  Both take fuel for the
length of the run: every step hands one unit less to the parts of its node, and
a run without fuel stops as exhausted.  The equations below are the only ones
that a proof about runs has to unfold.
-/

namespace Abacus

mutual
/-- Evaluate an expression in a scope. -/
def evaluate (host : Host) : Nat → Expr → FrameId → Run Value
  | 0, _, _ => Run.exhausted
  | fuel + 1, e, scope =>
    Recursion.evalStep host ⟨evaluate host fuel, execute host fuel⟩ e scope

/-- Execute a statement in a scope. -/
def execute (host : Host) : Nat → Stmt → FrameId → Run Flow
  | 0, _, _ => Run.exhausted
  | fuel + 1, s, scope =>
    Recursion.execStep host ⟨evaluate host fuel, execute host fuel⟩ s scope
end

/-- Evaluation and execution with the given fuel. -/
def Recursion.ofFuel (host : Host) (fuel : Nat) : Recursion :=
  ⟨evaluate host fuel, execute host fuel⟩

/-- Execute statements in a scope up to the first that gives a value back. -/
def executeBlock (host : Host) (fuel : Nat) (stmts : List Stmt) (scope : FrameId) : Run Flow :=
  (Recursion.ofFuel host fuel).execAll scope stmts

@[simp] theorem evaluate_zero (host : Host) (e : Expr) (scope : FrameId) :
    evaluate host 0 e scope = Run.exhausted := rfl

@[simp] theorem execute_zero (host : Host) (s : Stmt) (scope : FrameId) :
    execute host 0 s scope = Run.exhausted := rfl

/-- An evaluation is a step over evaluations with less fuel. -/
theorem evaluate_succ (host : Host) (fuel : Nat) (e : Expr) (scope : FrameId) :
    evaluate host (fuel + 1) e scope =
      Recursion.evalStep host (.ofFuel host fuel) e scope := rfl

/-- An execution is a step over executions with less fuel. -/
theorem execute_succ (host : Host) (fuel : Nat) (s : Stmt) (scope : FrameId) :
    execute host (fuel + 1) s scope =
      Recursion.execStep host (.ofFuel host fuel) s scope := rfl

end Abacus
