import Abacus.Proofs.Parse.Sound
import Abacus.Proofs.Parse.Tower
import Abacus.Proofs.Tree.Layers

/-!
# Abacus.Proofs.Parse.Nesting

What the nesting limit does to trees.  Parentheses, arguments, bounds, operators
and blocks each take one of the levels that are left, so a rule that succeeds
gives a tree whose height is bounded by a function of the levels left at its
cursor (`bounded_*`).  The body of an aggregate takes no level: the bound grows
with the longest chain of aggregates that are each the body of the one before.

The levels of an operator are given back once its chain is read, and each of the
six levels of binary operators can spend all that is left, so the bound is
quadratic in the levels (`ceiling`).
-/

namespace Abacus

namespace Parse

open Grammar

/-! ## The bound -/

/-- How high a unary expression may be, its own chain of aggregates apart, when
`left` levels are left and no chain of aggregates is longer than `run`. -/
def ceiling (run : Nat) : Nat → Nat
  | 0 => 1
  | left + 1 => ceiling run left + run + 6 * left + 1

theorem ceiling_pos (run left : Nat) : 0 < ceiling run left := by
  cases left <;> simp [ceiling]

/-- The bound grows with the longest chain of aggregates. -/
theorem ceiling_mono_run {r r' : Nat} (hr : r ≤ r') (left : Nat) :
    ceiling r left ≤ ceiling r' left := by
  induction left with
  | zero => exact Nat.le_refl 1
  | succ left ih =>
      simp only [ceiling]
      omega

/-- The bound grows with the levels that are left, too. -/
theorem ceiling_mono {r r' b b' : Nat} (hr : r ≤ r') (hb : b ≤ b') :
    ceiling r b ≤ ceiling r' b' := by
  induction hb with
  | refl => exact ceiling_mono_run hr b
  | step _ ih =>
      simp only [ceiling]
      omega

/-- The recursion solved: the bound is quadratic in the levels left. -/
theorem ceiling_add (run left : Nat) :
    ceiling run left + 3 * left = 1 + left * (run + 1) + 3 * (left * left) := by
  induction left with
  | zero => simp [ceiling]
  | succ left ih =>
      simp only [ceiling, Nat.add_mul, Nat.mul_add] at ih ⊢
      omega

/-- The bound when all levels are left. -/
theorem ceiling_nestingLimit (run : Nat) : ceiling run nestingLimit = 196097 + 256 * run := by
  have h := ceiling_add run nestingLimit
  unfold nestingLimit at h ⊢
  omega

/-- How high a chain of operands may be that uses `levels` levels of operators. -/
def chainCeiling (levels run left : Nat) : Nat := run + ceiling run left + levels * left

/-- The bound for a chain of operands grows as that for an operand does. -/
theorem chainCeiling_mono {levels r r' b b' : Nat} (hr : r ≤ r') (hb : b ≤ b') :
    chainCeiling levels r b ≤ chainCeiling levels r' b' := by
  have hceiling := ceiling_mono hr hb
  have hmul := Nat.mul_le_mul_left levels hb
  unfold chainCeiling
  omega

/-- Each level of operators may spend what is left once more. -/
theorem chainCeiling_succ (levels run left : Nat) :
    chainCeiling (levels + 1) run left = chainCeiling levels run left + left := by
  unfold chainCeiling
  rw [Nat.succ_mul]
  omega

/-- All six levels, inside a construct that takes a level. -/
theorem chainCeiling_six (run left : Nat) :
    chainCeiling 6 run left + 1 = ceiling run (left + 1) := by
  simp only [chainCeiling, ceiling]
  omega

end Parse

/-! ## Levels left -/

/-- The number of constructs that may still be opened. -/
def Cursor.left (c : Cursor) : Nat := nestingLimit - c.nesting

namespace Cursor

@[simp] theorem left_forward (c : Cursor) : c.forward.left = c.left := by
  rw [left, left, nesting_forward]

/-- The levels left depend on the nesting only. -/
theorem left_of_nesting_eq {c c' : Cursor} (h : c'.nesting = c.nesting) : c'.left = c.left := by
  rw [left, left, h]

/-- Opening a construct takes one of the levels left. -/
theorem left_nested {c : Cursor} (h : c.nesting < nestingLimit) :
    c.left = ({ c with nesting := c.nesting + 1 } : Cursor).left + 1 := by
  unfold left
  show nestingLimit - c.nesting = nestingLimit - (c.nesting + 1) + 1
  omega

theorem left_le (c : Cursor) : c.left ≤ nestingLimit := Nat.sub_le _ _

end Cursor

namespace Parse

open Grammar

/-! ## Operators -/

/-- Every operator of a chain adds one node and takes one level. -/
theorem bounded_operators {level : Level} {levels : Nat} {operand : Parser Expr}
    (hoperand : ∀ c, Reads c operand fun e _ => e.height ≤ chainCeiling levels e.run c.left)
    (n : Nat) (left : Expr) (c : Cursor) :
    Reads c (operators level operand n left) fun e _ => left.run ≤ e.run ∧
      e.height ≤ max left.height (chainCeiling levels e.run c.left) + c.left := by
  induction n generalizing left c with
  | zero => exact Reads.exhausted
  | succ n ih =>
      refine Reads.peek_bind ?_
      cases hop : level.operator? c.current.kind with
      | none => exact Reads.pure ⟨Nat.le_refl _, by omega⟩
      | some op =>
          have hconnects := operator?_eq_some_iff.mp hop
          have hc := Cursor.atEnd_of_current_kind rfl hconnects.ne_endOfInput
          refine Reads.discard_bind (Reads.advance_bind hc (Reads.nested fun hlimit => ?_))
          have hleft := Cursor.left_nested hlimit
          rw [Cursor.left_forward] at hleft
          refine (hoperand _).bind fun right ts c' _ hnesting hright => ?_
          have hleft' := Cursor.left_of_nesting_eq hnesting
          refine (ih (.binary op left right c.current.pos) c').mono fun e us he => ?_
          obtain ⟨hrun, hheight⟩ := he
          simp only [Expr.run, Expr.height] at hrun hheight
          have hright' : right.height ≤ chainCeiling levels e.run c.left :=
            Nat.le_trans hright (chainCeiling_mono (by omega) (by omega))
          have hmono : chainCeiling levels e.run c'.left ≤ chainCeiling levels e.run c.left :=
            chainCeiling_mono (Nat.le_refl _) (by omega)
          exact ⟨by omega, by omega⟩

/-- All levels of operators, by induction on their list: within an operand the levels
its operator took are not left. -/
theorem bounded_climb {fuel : Nat} {operand : Parser Expr}
    (hoperand : ∀ c, Reads c operand fun e _ => e.height ≤ e.spine + ceiling e.run c.left)
    (levels : List Level) (c : Cursor) :
    Reads c (climb fuel operand levels) fun e _ =>
      e.height ≤ chainCeiling levels.length e.run c.left := by
  induction levels generalizing c with
  | nil =>
      refine (hoperand c).mono fun e _ he => ?_
      have hspine := e.spine_le_run
      simp only [chainCeiling, List.length_nil]
      omega
  | cons level tighter ih =>
      refine (ih c).bind fun left ts c' _ hnesting hleft => ?_
      refine (bounded_operators ih fuel left c').mono fun e us he => ?_
      obtain ⟨hrun, hheight⟩ := he
      rw [Cursor.left_of_nesting_eq hnesting] at hheight
      have hmono : chainCeiling tighter.length left.run c.left ≤
          chainCeiling tighter.length e.run c.left := chainCeiling_mono hrun (Nat.le_refl _)
      rw [List.length_cons, chainCeiling_succ]
      omega

/-- A whole expression takes one level. -/
theorem bounded_expression {fuel : Nat} {operand : Parser Expr}
    (hoperand : ∀ c, Reads c operand fun e _ => e.height ≤ e.spine + ceiling e.run c.left)
    (c : Cursor) :
    Reads c (expression fuel operand) fun e _ => e.height < ceiling e.run c.left := by
  refine Reads.nested fun hlimit => ?_
  refine (bounded_climb hoperand Level.all _).mono fun e ts he => ?_
  rw [Cursor.left_nested hlimit, ← chainCeiling_six]
  exact Nat.lt_succ_of_le he

/-! ## Unary expressions -/

/-- Arguments are expressions, each with what is left at the cursor. -/
theorem bounded_arguments {expr : Parser Expr} {left : Nat}
    (hexpr : ∀ c : Cursor, c.left = left → Reads c expr fun e _ => e.height < ceiling e.run left)
    (c : Cursor) (hc : c.left = left) :
    Reads c (arguments expr) fun args _ =>
      Expr.heightAll args < ceiling (Expr.runAll args) left := by
  refine Reads.sees_bind (Reads.ite (fun _ => ?_) fun _ => ?_)
  · exact Reads.discard_bind (Reads.expect_bind fun _ => Reads.pure (ceiling_pos _ _))
  · have hargs : Reads c (separated .fewerArguments expr listLimit) fun args _ =>
        Expr.heightAll args < ceiling (Expr.runAll args) left ∧ args.length ≤ listLimit := by
      refine Reads.separated
        (S := fun args _ => Expr.heightAll args < ceiling (Expr.runAll args) left)
        (fun c' hc' => hexpr c' (by rw [← hc, Cursor.left_of_nesting_eq hc'])) ?_ ?_ listLimit c rfl
      · intro e _ he
        simpa only [Expr.heightAll, Expr.runAll, Nat.max_zero] using he
      · intro e _ _ es _ he _ hes
        have hfirst := ceiling_mono_run (Nat.le_max_left e.run (Expr.runAll es)) left
        have hothers := ceiling_mono_run (Nat.le_max_right e.run (Expr.runAll es)) left
        simp only [Expr.heightAll, Expr.runAll]
        omega
    refine hargs.bind fun args _ _ _ _ hbound => ?_
    exact Reads.discard_bind (Reads.expect_bind fun _ => Reads.pure hbound.1)

/-- The body of an aggregate takes no level, and adds one to the chain. -/
theorem height_aggregate_le {kind : Aggregate} {var : String} {start stop body : Expr}
    {pos : Position} {left : Nat} (hstart : start.height < ceiling start.run left)
    (hstop : stop.height < ceiling stop.run left)
    (hbody : body.height ≤ body.spine + ceiling body.run left) :
    (Expr.aggregate kind var start stop body pos).height ≤
      (Expr.aggregate kind var start stop body pos).spine +
        ceiling (Expr.aggregate kind var start stop body pos).run left := by
  simp only [Expr.height, Expr.spine, Expr.run]
  generalize hrun : max (max start.run stop.run) (max (body.spine + 1) body.run) = run
  have h₁ : ceiling start.run left ≤ ceiling run left := ceiling_mono_run (by omega) left
  have h₂ : ceiling stop.run left ≤ ceiling run left := ceiling_mono_run (by omega) left
  have h₃ : ceiling body.run left ≤ ceiling run left := ceiling_mono_run (by omega) left
  omega

section

variable {expr unary : Parser Expr}
variable (hexpr : ∀ c, Reads c expr fun e _ => e.height < ceiling e.run c.left)
variable (hunary : ∀ c, Reads c unary fun e _ => e.height ≤ e.spine + ceiling e.run c.left)

include hexpr hunary in
/-- An aggregate: its bounds spend a level, its body adds one to the chain. -/
theorem bounded_aggregate {kind : Aggregate} {c : Cursor} (hc : c.atEnd = false) :
    Reads c (aggregate expr unary kind) fun e _ => e.height ≤ e.spine + ceiling e.run c.left := by
  refine Reads.advance_bind hc ?_
  refine Reads.discard_bind (Reads.expect_bind fun _ => Reads.expect_bind fun _ => ?_)
  refine Reads.discard_bind (Reads.expect_bind fun _ => ?_)
  refine (hexpr _).bind fun start _ c₁ _ hc₁ hstart => ?_
  refine Reads.discard_bind (Reads.expect_bind fun _ => ?_)
  refine (hexpr _).bind fun stop _ c₂ _ hc₂ hstop => ?_
  refine Reads.discard_bind (Reads.expect_bind fun _ => ?_)
  refine (hunary _).bind fun body _ c₃ _ _ hbody => ?_
  simp only [Cursor.left_forward, Cursor.left_of_nesting_eq hc₂, Cursor.left_of_nesting_eq hc₁]
    at hstart hstop hbody
  refine Reads.ite (fun _ => ?_) fun _ => Reads.pure (height_aggregate_le hstart hstop hbody)
  refine (reads_differential _ c₃).bind fun _ _ _ _ _ _ => Reads.pure ?_
  exact height_aggregate_le hstart hstop hbody

include hexpr hunary in
/-- A primary expression: its parentheses and arguments spend a level each. -/
theorem bounded_primary (c : Cursor) :
    Reads c (primary expr unary) fun e _ => e.height ≤ e.spine + ceiling e.run c.left := by
  refine Reads.peek_bind ?_
  have hc : ∀ kind, c.current.kind = kind → kind ≠ .endOfInput → c.atEnd = false :=
    fun _ => Cursor.atEnd_of_current_kind
  have hleaf : ∀ e : Expr, e.height = 1 → e.height ≤ e.spine + ceiling e.run c.left := by
    intro e he
    have hpos := ceiling_pos e.run c.left
    omega
  split
  · next ht =>
      refine Reads.discard_bind (Reads.advance_bind (hc _ ht (by simp)) ?_)
      split
      · exact Reads.pure (hleaf _ rfl)
      · exact Reads.throw _
  · next s ht =>
      exact Reads.discard_bind (Reads.advance_bind (hc _ ht (by simp)) (Reads.pure (hleaf _ rfl)))
  · next ht =>
      exact Reads.discard_bind (Reads.advance_bind (hc _ ht (by simp)) (Reads.pure (hleaf _ rfl)))
  · next ht =>
      exact Reads.discard_bind (Reads.advance_bind (hc _ ht (by simp)) (Reads.pure (hleaf _ rfl)))
  · next ht =>
      refine Reads.discard_bind (Reads.advance_bind (hc _ ht (by simp)) ?_)
      refine Reads.accept_bind (fun _ => ?_) (Reads.pure (hleaf _ rfl))
      have hargs : Reads c.forward.forward (arguments expr) fun args _ =>
          Expr.heightAll args < ceiling (Expr.runAll args) c.left :=
        bounded_arguments (fun c' hc' => hc' ▸ hexpr c') _ (by simp only [Cursor.left_forward])
      refine hargs.bind fun args _ _ _ _ hbound => Reads.pure ?_
      simp only [Expr.height, Expr.spine, Expr.run]
      omega
  · next hl =>
      refine Reads.discard_bind (Reads.advance_bind (hc _ hl (by simp)) ?_)
      refine (hexpr _).bind fun e _ _ _ _ he => ?_
      refine Reads.discard_bind (Reads.expect_bind fun _ => Reads.pure ?_)
      rw [Cursor.left_forward] at he
      omega
  · next o ho =>
      split
      · exact bounded_aggregate hexpr hunary (hc _ ho (by simp))
      · exact Reads.fail _
  · exact Reads.fail _

end

/-- A unary expression, by induction on the fuel. -/
theorem bounded_unary (n : Nat) (c : Cursor) :
    Reads c (unary n) fun e _ => e.height ≤ e.spine + ceiling e.run c.left := by
  induction n generalizing c with
  | zero => exact Reads.exhausted
  | succ n ih =>
      refine Reads.peek_bind ?_
      split
      · next op hop =>
          have hprecedes := unaryOp?_eq_some_iff.mp hop
          have hc := Cursor.atEnd_of_current_kind rfl hprecedes.ne_endOfInput
          refine Reads.discard_bind (Reads.advance_bind hc ?_)
          have hoperand : Reads c.forward (nested .unaryOperators (unary n)) fun e _ =>
              e.height < ceiling e.run c.left := by
            refine Reads.nested fun hlimit => (ih _).mono fun e _ he => ?_
            have hleft := Cursor.left_nested hlimit
            have hspine := e.spine_le_run
            rw [Cursor.left_forward] at hleft
            rw [hleft, ceiling]
            omega
          refine hoperand.bind fun e _ _ _ _ he => Reads.pure ?_
          simp only [Expr.height, Expr.spine, Expr.run]
          omega
      · exact bounded_primary (bounded_expression ih) ih c

/-! ## Statements -/

/- Blocks take their levels before the expressions in them do, so the height of an expression
is bounded by what all levels allow (`Low`) and only the depth of statements by the levels
left. -/

/-- An expression is no higher than the limit allows one to be. -/
def Low (e : Expr) : Prop := e.height < ceiling e.run nestingLimit

/-- Blocks nest less than `depth` deep, and the expressions are low. -/
structure Fits (depth : Nat) (s : Stmt) : Prop where
  layers_lt : s.layers < depth
  low : ∀ e ∈ s.expressions, Low e

/-- Every one of the statements fits. -/
structure AllFit (depth : Nat) (stmts : List Stmt) : Prop where
  layers_lt : Stmt.layersAll stmts < depth
  low : ∀ e ∈ Stmt.expressionsAll stmts, Low e

/-- Statements nest at most `depth` deep. -/
theorem AllFit.depth_le {depth : Nat} {stmts : List Stmt} (h : AllFit depth stmts) :
    Stmt.depthAll stmts ≤ depth :=
  Nat.le_trans (Stmt.depthAll_le_layersAll stmts) h.layers_lt

/-- Without statements one level is enough. -/
theorem allFit_nil {depth : Nat} (h : 0 < depth) : AllFit depth [] :=
  ⟨h, by simp [Stmt.expressionsAll]⟩

/-- Statements fit if the first and the rest do. -/
theorem AllFit.cons {depth : Nat} {s : Stmt} {rest : List Stmt} (hs : Fits depth s)
    (hrest : AllFit depth rest) : AllFit depth (s :: rest) := by
  refine ⟨Nat.max_lt.mpr ⟨hs.layers_lt, hrest.layers_lt⟩, ?_⟩
  simp only [Stmt.expressionsAll, List.forall_mem_append]
  exact ⟨hs.low, hrest.low⟩

/-- Statements up to a stop fit if each of them does. -/
theorem bounded_sequence {stop : Cursor → Bool} {fuel : Nat} {statement : Parser Stmt}
    (hstatement : ∀ c, Reads c statement fun s _ => Fits (c.left + 1) s) (n : Nat) (c : Cursor) :
    Reads c (statementsUntil stop fuel statement n) fun stmts _ => AllFit (c.left + 1) stmts := by
  refine Reads.statementsUntil (D := fun s _ => Fits (c.left + 1) s) (fun c' hc' => ?_)
    (allFit_nil (Nat.succ_pos _)) (fun _ _ _ _ h => h) (fun _ _ _ _ hs hrest => hrest.cons hs)
    n c rfl
  rw [← Cursor.left_of_nesting_eq hc']
  exact hstatement c'

/-- A block takes one level. -/
theorem bounded_block {fuel : Nat} {statement : Parser Stmt}
    (hstatement : ∀ c, Reads c statement fun s _ => Fits (c.left + 1) s) (c : Cursor) :
    Reads c (block fuel statement) fun body _ => AllFit c.left body := by
  refine Reads.discard_bind (Reads.expect_bind fun _ => Reads.nested fun hlimit => ?_)
  have hleft := Cursor.left_nested hlimit
  rw [Cursor.left_forward] at hleft
  rw [statements_eq, hleft]
  refine (bounded_sequence hstatement fuel _).bind fun body _ _ _ _ hbody => ?_
  exact Reads.discard_bind (Reads.expect_bind fun _ => Reads.pure hbody)

section

variable {expr : Parser Expr} {blocks : Parser (List Stmt)}
variable (hexpr : ∀ c, Reads c expr fun e _ => Low e)
variable (hblock : ∀ c, Reads c blocks fun body _ => AllFit c.left body)

include hblock in
/-- A function definition: its body is a block. -/
theorem bounded_definition (pos : Position) (c : Cursor) :
    Reads c (definition blocks pos) fun s _ => Fits (c.left + 1) s := by
  have hbody : ∀ (c' : Cursor) (name : String) (params : List String), c'.nesting = c.nesting →
      Reads c' (blocks >>= fun body => pure (Stmt.function name params body pos)) fun s _ =>
        Fits (c.left + 1) s := by
    intro c' name params hc'
    refine (hblock c').bind fun body _ _ _ _ hfits => Reads.pure ?_
    rw [Cursor.left_of_nesting_eq hc'] at hfits
    exact ⟨Nat.succ_lt_succ hfits.layers_lt, hfits.low⟩
  refine Reads.expect_bind fun _ => Reads.discard_bind (Reads.expect_bind fun _ => ?_)
  refine Reads.sees_bind (Reads.ite (fun _ => ?_) fun _ => ?_)
  · refine Reads.discard_bind (Reads.expect_bind fun _ => ?_)
    exact hbody _ _ [] (by simp only [Cursor.nesting_forward])
  · refine (reads_parameters listLimit _).bind fun params _ c₁ _ hc₁ _ => ?_
    refine Reads.discard_bind (Reads.expect_bind fun _ => ?_)
    exact hbody _ _ _ (by simp only [Cursor.nesting_forward, hc₁])

include hexpr hblock in
/-- An `else if` takes one level, as the block that it replaces. -/
theorem bounded_conditional (n : Nat) (pos : Position) (c : Cursor) :
    Reads c (conditional expr blocks n pos) fun s _ => Fits (c.left + 1) s := by
  induction n generalizing pos c with
  | zero => exact Reads.exhausted
  | succ n ih =>
      refine (hexpr c).bind fun condition _ c₁ _ hc₁ hcondition => ?_
      refine (hblock c₁).bind fun body _ c₂ _ hc₂ hbody => ?_
      rw [Cursor.left_of_nesting_eq hc₁] at hbody
      have hleft : c₂.left = c.left := by
        rw [Cursor.left_of_nesting_eq hc₂, Cursor.left_of_nesting_eq hc₁]
      have helse : ∀ other, AllFit c.left other →
          Fits (c.left + 1) (.ifElse condition body other pos) := by
        intro other hother
        refine ⟨Nat.succ_lt_succ (Nat.max_lt.mpr ⟨hbody.layers_lt, hother.layers_lt⟩), ?_⟩
        simp only [Stmt.expressions, List.forall_mem_cons, List.forall_mem_append]
        exact ⟨hcondition, hbody.low, hother.low⟩
      refine Reads.accept_bind (fun _ => Reads.peek_bind (Reads.accept_bind (fun _ => ?_) ?_)) ?_
      · have hchained : Reads c₂.forward.forward
            (nested .elseIfBranches (conditional expr blocks n c₂.forward.current.pos))
            fun s _ => Fits c.left s := by
          refine Reads.nested fun hlimit => ?_
          have hnested := Cursor.left_nested hlimit
          simp only [Cursor.left_forward, hleft] at hnested
          rw [hnested]
          exact ih _ _
        refine hchained.bind fun chained _ _ _ _ hfits => Reads.pure ?_
        exact helse [chained] ((allFit_nil (Nat.zero_lt_of_lt hbody.layers_lt)).cons hfits)
      · refine (hblock _).bind fun other _ _ _ _ hother => Reads.pure (helse other ?_)
        simpa only [Cursor.left_forward, hleft] using hother
      · refine Reads.pure ⟨Nat.succ_lt_succ hbody.layers_lt, ?_⟩
        simp only [Stmt.expressions, List.forall_mem_cons]
        exact ⟨hcondition, hbody.low⟩

/-- A statement without blocks fits whatever is left. -/
theorem fits_of_layers_eq_zero {s : Stmt} {left : Nat} (hlayers : s.layers = 0)
    (h : ∀ e ∈ s.expressions, Low e) : Fits (left + 1) s := ⟨by omega, h⟩

include hexpr in
/-- A statement with one expression and no block. -/
theorem bounded_single {f : Expr → Stmt} (hlayers : ∀ e, (f e).layers = 0)
    (hexpressions : ∀ e, (f e).expressions = [e]) (left : Nat) (c : Cursor) :
    Reads c (expr >>= fun e => pure (f e)) fun s _ => Fits (left + 1) s := by
  refine (hexpr c).bind fun e _ _ _ _ he => Reads.pure (fits_of_layers_eq_zero (hlayers e) ?_)
  rw [hexpressions, List.forall_mem_singleton]
  exact he

include hexpr hblock in
/-- A statement with one expression and one block. -/
theorem bounded_loop {f : Expr → List Stmt → Stmt}
    (hlayers : ∀ e body, (f e body).layers = Stmt.layersAll body + 1)
    (hexpressions : ∀ e body, (f e body).expressions = e :: Stmt.expressionsAll body)
    (c : Cursor) :
    Reads c (expr >>= fun e => blocks >>= fun body => pure (f e body)) fun s _ =>
      Fits (c.left + 1) s := by
  refine (hexpr c).bind fun e _ c₁ _ hc₁ he => ?_
  refine (hblock c₁).bind fun body _ _ _ _ hbody => Reads.pure ?_
  rw [Cursor.left_of_nesting_eq hc₁] at hbody
  refine ⟨?_, ?_⟩
  · rw [hlayers]
    exact Nat.succ_lt_succ hbody.layers_lt
  · rw [hexpressions, List.forall_mem_cons]
    exact ⟨he, hbody.low⟩

include hexpr hblock in
/-- The body of a statement, keyword by keyword. -/
theorem bounded_statementBody (fuel : Nat) (c : Cursor) :
    Reads c (statementBody fuel expr blocks) fun s _ => Fits (c.left + 1) s := by
  have hc : ∀ kind, c.current.kind = kind → kind ≠ .endOfInput → c.atEnd = false :=
    fun _ => Cursor.atEnd_of_current_kind
  refine Reads.peek_bind ?_
  split
  · next ht =>
      refine Reads.discard_bind (Reads.advance_bind (hc _ ht (by simp)) ?_)
      simpa only [Cursor.left_forward] using bounded_definition hblock _ c.forward
  · next ht =>
      refine Reads.discard_bind (Reads.advance_bind (hc _ ht (by simp)) ?_)
      simpa only [Cursor.left_forward] using bounded_conditional hexpr hblock fuel _ c.forward
  · next ht =>
      refine Reads.discard_bind (Reads.advance_bind (hc _ ht (by simp)) ?_)
      rw [← Cursor.left_forward]
      exact bounded_loop (f := fun e body => .whileLoop e body _) hexpr hblock (fun _ _ => rfl)
        (fun _ _ => rfl) c.forward
  · next ht =>
      refine Reads.discard_bind (Reads.advance_bind (hc _ ht (by simp)) ?_)
      refine Reads.expect_bind fun _ => Reads.discard_bind (Reads.expect_bind fun _ => ?_)
      rw [← Cursor.left_forward c, ← Cursor.left_forward c.forward,
        ← Cursor.left_forward c.forward.forward]
      exact bounded_loop (f := fun e body => .forLoop _ e body _) hexpr hblock (fun _ _ => rfl)
        (fun _ _ => rfl) _
  · next ht =>
      refine Reads.discard_bind (Reads.advance_bind (hc _ ht (by simp)) ?_)
      refine Reads.sees_bind (Reads.sees_bind (Reads.atEnd_bind ?_))
      refine Reads.ite (fun _ => Reads.pure ?_) fun _ => ?_
      · exact fits_of_layers_eq_zero rfl (by simp [Stmt.expressions])
      · exact bounded_single (f := fun e => .giveBack (some e) _) hexpr (fun _ => rfl)
          (fun _ => rfl) _ _
  · next hname =>
      refine Reads.assignFollows_bind fun b => Reads.ite (fun _ => ?_) fun _ => ?_
      · refine Reads.advance_bind (hc _ hname (by simp)) ?_
        refine Reads.discard_bind (Reads.expect_bind fun _ => ?_)
        exact bounded_single (f := fun e => .assign _ e _) hexpr (fun _ => rfl) (fun _ => rfl) _ _
      · exact bounded_single hexpr (fun _ => rfl) (fun _ => rfl) _ c
  · exact bounded_single hexpr (fun _ => rfl) (fun _ => rfl) _ c

end

/-- A statement, by induction on how deep it may nest. -/
theorem bounded_statement {fuel : Nat} {expr : Parser Expr}
    (hexpr : ∀ c, Reads c expr fun e _ => Low e) (n : Nat) (c : Cursor) :
    Reads c (statement fuel expr n) fun s _ => Fits (c.left + 1) s := by
  induction n generalizing c with
  | zero => exact Reads.exhausted
  | succ n ih =>
      refine (bounded_statementBody hexpr (bounded_block ih) fuel c).bind fun s _ _ _ _ hs => ?_
      exact Reads.discard_bind (Reads.accept_bind (fun _ => Reads.pure hs) (Reads.pure hs))

/-! ## Programs -/

/-- The statements of a program. -/
theorem bounded_wholeProgram (fuel : Nat) (c : Cursor) :
    Reads c (wholeProgram fuel) fun stmts _ => AllFit (c.left + 1) stmts := by
  have hexpr : ∀ c, Reads c (expression fuel (unary fuel)) fun e _ => Low e := by
    intro c
    refine (bounded_expression (bounded_unary fuel) c).mono fun e _ he => ?_
    exact Nat.lt_of_lt_of_le he (ceiling_mono (Nat.le_refl _) c.left_le)
  rw [wholeProgram, program_eq]
  exact bounded_sequence (bounded_statement hexpr fuel) fuel c

/-- The height of a program whose statements fit the limit. -/
theorem AllFit.heightAll_le {program : List Stmt} (h : AllFit (nestingLimit + 1) program) :
    Stmt.heightAll program ≤ 196353 + 256 * Stmt.runAll program := by
  have hlow : ∀ e ∈ Stmt.expressionsAll program,
      e.height ≤ 196096 + 256 * Stmt.runAll program := by
    intro e he
    have hrun : e.run ≤ Stmt.runAll program := Expr.run_le_runAll he
    have hheight : e.height < ceiling e.run nestingLimit := h.low e he
    rw [ceiling_nestingLimit] at hheight
    omega
  have hheight := Stmt.heightAll_le_depthAll_add program hlow
  have hdepth : Stmt.depthAll program ≤ 257 := h.depth_le
  omega

end Parse

/-- A parsed program fits in all levels of nesting and the one around them. -/
theorem allFit_of_parseSource {source : String} {program : List Stmt}
    (h : parseSource source = .ok program) : Parse.AllFit (nestingLimit + 1) program := by
  unfold parseSource at h
  split at h
  · contradiction
  · split at h
    · contradiction
    · next hparse =>
        cases h
        obtain ⟨c, hrun⟩ := Parse.run_of_parseTokens_eq_ok hparse
        obtain ⟨_, _, _, _, hfits⟩ := Parse.bounded_wholeProgram _ _ program c hrun
        exact hfits

/-- Blocks nest at most as deep as the limit allows. -/
theorem layers_of_parseSource {source : String} {program : List Stmt}
    (h : parseSource source = .ok program) : Stmt.layersAll program ≤ nestingLimit :=
  Nat.le_of_lt_succ (allFit_of_parseSource h).layers_lt

/-- **What the nesting limit guarantees.**  In every accepted program statements
nest at most 257 deep, and the trees are at most `196353 + 256 * r` high if no
chain of aggregates, each the body of the one before, is longer than `r`. -/
theorem height_of_parseSource {source : String} {program : List Stmt}
    (h : parseSource source = .ok program) :
    Stmt.depthAll program ≤ 257 ∧ Stmt.heightAll program ≤ 196353 + 256 * Stmt.runAll program := by
  have hfits := allFit_of_parseSource h
  exact ⟨hfits.depth_le, hfits.heightAll_le⟩

/-- **When heights are bounded.**  The trees of accepted programs from some source
texts have a common bound on their height if and only if their chains of
aggregates, each the body of the one before, have a common bound on their
length. -/
theorem parseSource_heights_bounded_iff (sources : String → Prop) :
    (∃ bound, ∀ source program, sources source → parseSource source = .ok program →
      Stmt.heightAll program ≤ bound) ↔
    ∃ length, ∀ source program, sources source → parseSource source = .ok program →
      Stmt.runAll program ≤ length := by
  constructor
  · rintro ⟨bound, hbound⟩
    refine ⟨bound, fun source program hsource h => ?_⟩
    exact Nat.le_trans (Stmt.runAll_le_heightAll program) (hbound source program hsource h)
  · rintro ⟨length, hlength⟩
    refine ⟨196353 + 256 * length, fun source program hsource h => ?_⟩
    have hrun := hlength source program hsource h
    have hheight := (height_of_parseSource h).2
    omega

/-- The source with two sums, one the body of the other, has trees of bounded
height. -/
theorem parseSource_heights_bounded_two_sums :
    (∃ program, parseSource "∑(i = a to b) ∑(j = i to c) j" = .ok program ∧
      Stmt.runAll program = 2) ∧
    ∃ bound, ∀ source program, source = "∑(i = a to b) ∑(j = i to c) j" →
      parseSource source = .ok program → Stmt.heightAll program ≤ bound := by
  have h : parseSource "∑(i = a to b) ∑(j = i to c) j" =
      .ok [.expression (.aggregate .sum "i" (.variable "a" ⟨1, 7⟩) (.variable "b" ⟨1, 12⟩)
        (.aggregate .sum "j" (.variable "i" ⟨1, 21⟩) (.variable "c" ⟨1, 26⟩)
          (.variable "j" ⟨1, 29⟩) ⟨1, 15⟩) ⟨1, 1⟩)] := by decide +kernel
  refine ⟨⟨_, h, by decide⟩, (parseSource_heights_bounded_iff _).mpr ⟨2, ?_⟩⟩
  intro source program hsource hprogram
  rw [hsource, h] at hprogram
  cases hprogram
  decide

/-- Without a bound on the chains there is none on the heights. -/
theorem parseSource_heights_unbounded :
    ¬ ∃ bound, ∀ source program, parseSource source = .ok program →
      Stmt.heightAll program ≤ bound := by
  rintro ⟨bound, hbound⟩
  obtain ⟨source, e, h, hspine⟩ := exists_parseSource_spine bound
  have hheight := hbound source _ h
  have hlt := e.spine_lt_height
  simp only [Stmt.heightAll, Stmt.height] at hheight
  omega

end Abacus
