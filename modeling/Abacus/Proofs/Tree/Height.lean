import Abacus.Tree.Basic

/-!
# Abacus.Proofs.Tree.Height

How deep trees are.  A leaf has height one.  `Expr.spine` counts the aggregates
at the top of an expression that are each the body of the one before, and
`Expr.run` is the longest such chain anywhere in it.  For statements, `depth`
counts statements inside of one another and `expressions` lists the expressions
that they hold; the height of the whole tree is at most the depth and the height
of the highest expression together (`height_le_depth_add`).
-/

namespace Abacus

/-! ## Expressions -/

mutual
/-- The number of nodes on the longest way down. -/
def Expr.height : Expr → Nat
  | .number _ | .string _ | .boolean _ | .variable _ _ => 1
  | .binary _ left right _ => max left.height right.height + 1
  | .unary _ operand _ => operand.height + 1
  | .call _ args _ => Expr.heightAll args + 1
  | .aggregate _ _ start stop body _ => max (max start.height stop.height) body.height + 1

/-- The height of the highest expression. -/
def Expr.heightAll : List Expr → Nat
  | [] => 0
  | e :: es => max e.height (Expr.heightAll es)
end

/-- The number of aggregates from the top on, each the body of the one before. -/
def Expr.spine : Expr → Nat
  | .aggregate _ _ _ _ body _ => body.spine + 1
  | _ => 0

mutual
/-- The length of the longest chain of aggregates, each the body of the one
before. -/
def Expr.run : Expr → Nat
  | .number _ | .string _ | .boolean _ | .variable _ _ => 0
  | .binary _ left right _ => max left.run right.run
  | .unary _ operand _ => operand.run
  | .call _ args _ => Expr.runAll args
  | .aggregate _ _ start stop body _ => max (max start.run stop.run) (max (body.spine + 1) body.run)

/-- The length of the longest chain in any of the expressions. -/
def Expr.runAll : List Expr → Nat
  | [] => 0
  | e :: es => max e.run (Expr.runAll es)
end

namespace Expr

/-- The chain that an expression starts with is one of its chains. -/
theorem spine_le_run (e : Expr) : e.spine ≤ e.run := by
  cases e <;> simp only [spine, run] <;> omega

/-- Each aggregate of a chain is one node. -/
theorem spine_lt_height (e : Expr) : e.spine < e.height := by
  match e with
  | .number _ | .string _ | .boolean _ | .variable _ _ | .binary _ _ _ _ | .unary _ _ _
  | .call _ _ _ =>
      simp only [spine, height]
      omega
  | .aggregate _ _ start stop body _ =>
      have hbody := spine_lt_height body
      simp only [spine, height]
      omega

mutual
/-- A chain of aggregates is no longer than the tree is high. -/
theorem run_le_height (e : Expr) : e.run ≤ e.height := by
  match e with
  | .number _ | .string _ | .boolean _ | .variable _ _ =>
      simp only [run]
      omega
  | .binary _ left right _ =>
      have hleft := run_le_height left
      have hright := run_le_height right
      simp only [run, height]
      omega
  | .unary _ operand _ =>
      have hoperand := run_le_height operand
      simp only [run, height]
      omega
  | .call _ args _ =>
      have hargs := runAll_le_heightAll args
      simp only [run, height]
      omega
  | .aggregate _ _ start stop body _ =>
      have hstart := run_le_height start
      have hstop := run_le_height stop
      have hbody := run_le_height body
      have hspine := spine_lt_height body
      simp only [run, height]
      omega

/-- A chain is no longer than the tree is high. -/
theorem runAll_le_heightAll (es : List Expr) : runAll es ≤ heightAll es := by
  match es with
  | [] => exact Nat.zero_le _
  | e :: es =>
      have he := run_le_height e
      have hes := runAll_le_heightAll es
      simp only [runAll, heightAll]
      omega
end

/-- Expressions are as low as each of them is. -/
theorem heightAll_le_iff {es : List Expr} {n : Nat} :
    heightAll es ≤ n ↔ ∀ e ∈ es, e.height ≤ n := by
  induction es with
  | nil => simp [heightAll]
  | cons e es ih => simp only [heightAll, Nat.max_le, ih, List.forall_mem_cons]

/-- The longest chain in two lists is in one of them. -/
theorem runAll_append (es fs : List Expr) : runAll (es ++ fs) = max (runAll es) (runAll fs) := by
  induction es with
  | nil => simp [runAll]
  | cons e es ih => simp only [List.cons_append, runAll, ih, Nat.max_assoc]

theorem run_le_runAll {es : List Expr} {e : Expr} (he : e ∈ es) : e.run ≤ runAll es := by
  induction es with
  | nil => contradiction
  | cons e' es ih =>
      simp only [runAll]
      obtain rfl | he := List.mem_cons.mp he
      · omega
      · have hes := ih he
        omega

end Expr

/-! ## Statements -/

mutual
/-- The number of statements inside of one another. -/
def Stmt.depth : Stmt → Nat
  | .expression _ | .assign _ _ _ | .giveBack _ _ => 1
  | .ifThen _ body _ | .whileLoop _ body _ | .forLoop _ _ body _ | .function _ _ body _ =>
    Stmt.depthAll body + 1
  | .ifElse _ body other _ => max (Stmt.depthAll body) (Stmt.depthAll other) + 1

/-- The depth of the deepest statement. -/
def Stmt.depthAll : List Stmt → Nat
  | [] => 0
  | s :: rest => max s.depth (Stmt.depthAll rest)
end

mutual
/-- The expressions that a statement and the statements inside of it hold. -/
def Stmt.expressions : Stmt → List Expr
  | .expression e | .assign _ e _ | .giveBack (some e) _ => [e]
  | .giveBack none _ => []
  | .ifThen condition body _ | .whileLoop condition body _ =>
    condition :: Stmt.expressionsAll body
  | .ifElse condition body other _ =>
    condition :: (Stmt.expressionsAll body ++ Stmt.expressionsAll other)
  | .forLoop _ items body _ => items :: Stmt.expressionsAll body
  | .function _ _ body _ => Stmt.expressionsAll body

/-- The expressions that statements hold. -/
def Stmt.expressionsAll : List Stmt → List Expr
  | [] => []
  | s :: rest => s.expressions ++ Stmt.expressionsAll rest
end

mutual
/-- The number of nodes on the longest way down, through expressions as well. -/
def Stmt.height : Stmt → Nat
  | .expression e | .assign _ e _ | .giveBack (some e) _ => e.height + 1
  | .giveBack none _ => 1
  | .ifThen condition body _ | .whileLoop condition body _ =>
    max condition.height (Stmt.heightAll body) + 1
  | .ifElse condition body other _ =>
    max condition.height (max (Stmt.heightAll body) (Stmt.heightAll other)) + 1
  | .forLoop _ items body _ => max items.height (Stmt.heightAll body) + 1
  | .function _ _ body _ => Stmt.heightAll body + 1

/-- The height of the highest statement. -/
def Stmt.heightAll : List Stmt → Nat
  | [] => 0
  | s :: rest => max s.height (Stmt.heightAll rest)
end

namespace Stmt

mutual
/-- **A tree is no higher than its statements are deep and its expressions high.** -/
theorem height_le_depth_add {n : Nat} (s : Stmt) (h : ∀ e ∈ s.expressions, e.height ≤ n) :
    s.height ≤ s.depth + n := by
  match s with
  | .expression e | .assign _ e _ | .giveBack (some e) _ =>
      have he := h e (by simp [expressions])
      simp only [height, depth]
      omega
  | .giveBack none _ =>
      simp only [height, depth]
      omega
  | .ifThen condition body _ | .whileLoop condition body _ | .forLoop _ condition body _ =>
      simp only [expressions, List.forall_mem_cons] at h
      have hbody := heightAll_le_depthAll_add body h.2
      simp only [height, depth]
      omega
  | .ifElse condition body other _ =>
      simp only [expressions, List.forall_mem_cons, List.forall_mem_append] at h
      have hbody := heightAll_le_depthAll_add body h.2.1
      have hother := heightAll_le_depthAll_add other h.2.2
      simp only [height, depth]
      omega
  | .function _ _ body _ =>
      simp only [expressions] at h
      have hbody := heightAll_le_depthAll_add body h
      simp only [height, depth]
      omega

/-- Statements are no higher than their blocks nest, and an expression inside. -/
theorem heightAll_le_depthAll_add {n : Nat} (stmts : List Stmt)
    (h : ∀ e ∈ expressionsAll stmts, e.height ≤ n) : heightAll stmts ≤ depthAll stmts + n := by
  match stmts with
  | [] => exact Nat.zero_le _
  | s :: rest =>
      simp only [expressionsAll, List.forall_mem_append] at h
      have hs := height_le_depth_add s h.1
      have hrest := heightAll_le_depthAll_add rest h.2
      simp only [heightAll, depthAll]
      omega
end

mutual
/-- A tree is at least as high as the expressions in it. -/
theorem expression_height_le (s : Stmt) : ∀ e ∈ s.expressions, e.height ≤ s.height := by
  match s with
  | .expression e | .assign _ e _ | .giveBack (some e) _ =>
      simp [expressions, height]
  | .giveBack none _ => simp [expressions]
  | .ifThen condition body _ | .whileLoop condition body _ | .forLoop _ condition body _ =>
      have hbody := expression_height_le_heightAll body
      simp only [expressions, height, List.forall_mem_cons]
      refine ⟨by omega, fun e he => ?_⟩
      have he' := hbody e he
      omega
  | .ifElse condition body other _ =>
      have hbody := expression_height_le_heightAll body
      have hother := expression_height_le_heightAll other
      simp only [expressions, height, List.forall_mem_cons, List.forall_mem_append]
      refine ⟨by omega, fun e he => ?_, fun e he => ?_⟩
      · have he' := hbody e he
        omega
      · have he' := hother e he
        omega
  | .function _ _ body _ =>
      have hbody := expression_height_le_heightAll body
      simp only [expressions, height]
      intro e he
      have he' := hbody e he
      omega

/-- An expression is no higher than the statement it stands in. -/
theorem expression_height_le_heightAll (stmts : List Stmt) :
    ∀ e ∈ expressionsAll stmts, e.height ≤ heightAll stmts := by
  match stmts with
  | [] => simp [expressionsAll]
  | s :: rest =>
      have hs := expression_height_le s
      have hrest := expression_height_le_heightAll rest
      simp only [expressionsAll, heightAll, List.forall_mem_append]
      refine ⟨fun e he => ?_, fun e he => ?_⟩
      · have he' := hs e he
        omega
      · have he' := hrest e he
        omega
end

/-- The longest chain of aggregates in statements. -/
def runAll (stmts : List Stmt) : Nat := Expr.runAll (expressionsAll stmts)

theorem runAll_le_heightAll (stmts : List Stmt) : runAll stmts ≤ heightAll stmts :=
  Nat.le_trans (Expr.runAll_le_heightAll _)
    (Expr.heightAll_le_iff.mpr (expression_height_le_heightAll stmts))

end Stmt

end Abacus
