import Abacus.Tree.Basic

/-!
# Abacus.Proofs.Tree.Returns

Where programs give values back.  A statement gives a value back in the open if
it does so outside the functions that it defines; this is read off the text
alone.
-/

namespace Abacus

namespace Stmt

/-- The blocks of a statement, the body of a function apart. -/
def blocks : Stmt → List (List Stmt)
  | expression _ | assign _ _ _ | function _ _ _ _ | giveBack _ _ => []
  | ifThen _ body _ | whileLoop _ body _ | forLoop _ _ body _ => [body]
  | ifElse _ body other _ => [body, other]

mutual
/-- Whether a statement gives a value back outside the functions it defines. -/
def givesBack : Stmt → Bool
  | expression _ | assign _ _ _ | function _ _ _ _ => false
  | ifThen _ body _ | whileLoop _ body _ | forLoop _ _ body _ => givesBackIn body
  | ifElse _ body other _ => givesBackIn body || givesBackIn other
  | giveBack _ _ => true

/-- Whether one of the statements of a block does. -/
def givesBackIn : List Stmt → Bool
  | [] => false
  | s :: rest => givesBack s || givesBackIn rest
end

theorem givesBackIn_eq_any (stmts : List Stmt) : givesBackIn stmts = stmts.any givesBack := by
  induction stmts with
  | nil => rfl
  | cons s rest ih => rw [givesBackIn, List.any_cons, ih]

theorem givesBackIn_eq_false_iff {stmts : List Stmt} :
    givesBackIn stmts = false ↔ ∀ s ∈ stmts, s.givesBack = false := by
  rw [givesBackIn_eq_any, List.any_eq_false]
  simp only [Bool.not_eq_true]

/-- A statement that gives nothing back has no block that does. -/
theorem givesBack_of_mem_blocks {s : Stmt} (h : s.givesBack = false) {b : List Stmt}
    (hb : b ∈ s.blocks) : ∀ t ∈ b, t.givesBack = false := by
  rw [← givesBackIn_eq_false_iff]
  cases s with
  | ifElse c body other pos =>
      simp only [givesBack, Bool.or_eq_false_iff] at h
      simp only [blocks, List.mem_cons, List.not_mem_nil, or_false] at hb
      obtain rfl | rfl := hb
      · exact h.1
      · exact h.2
  | _ => simp_all [blocks, givesBack]

end Stmt

end Abacus
