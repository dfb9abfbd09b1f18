import Abacus.Proofs.Tree.Height
import Abacus.Proofs.Tree.Returns

/-!
# Abacus.Proofs.Tree.Layers

How far trees nest what makes a scope.  `Stmt.layers` counts blocks inside of one
another, the bodies of functions included, and `Expr.folds` aggregates inside of
one another; `Stmt.defines` says whether a function is defined.  A `Shape` holds
the three for a list of statements.
-/

namespace Abacus

/-! ## Blocks -/

mutual
/-- The number of blocks inside of one another. -/
def Stmt.layers : Stmt → Nat
  | .expression _ | .assign _ _ _ | .giveBack _ _ => 0
  | .ifThen _ body _ | .whileLoop _ body _ | .forLoop _ _ body _ | .function _ _ body _ =>
    Stmt.layersAll body + 1
  | .ifElse _ body other _ => max (Stmt.layersAll body) (Stmt.layersAll other) + 1

/-- The largest number of blocks inside of one another. -/
def Stmt.layersAll : List Stmt → Nat
  | [] => 0
  | s :: rest => max s.layers (Stmt.layersAll rest)
end

mutual
/-- Whether a statement defines a function, or one inside of it does. -/
def Stmt.defines : Stmt → Bool
  | .expression _ | .assign _ _ _ | .giveBack _ _ => false
  | .ifThen _ body _ | .whileLoop _ body _ | .forLoop _ _ body _ => Stmt.definesIn body
  | .ifElse _ body other _ => Stmt.definesIn body || Stmt.definesIn other
  | .function _ _ _ _ => true

/-- Whether one of the statements does. -/
def Stmt.definesIn : List Stmt → Bool
  | [] => false
  | s :: rest => s.defines || Stmt.definesIn rest
end

namespace Stmt

mutual
/-- Statements are inside of one another only through blocks. -/
theorem depth_le_layers (s : Stmt) : s.depth ≤ s.layers + 1 := by
  match s with
  | .expression _ | .assign _ _ _ | .giveBack _ _ =>
      simp only [depth, layers]
      omega
  | .ifThen _ body _ | .whileLoop _ body _ | .forLoop _ _ body _ | .function _ _ body _ =>
      have hbody := depthAll_le_layersAll body
      simp only [depth, layers]
      omega
  | .ifElse _ body other _ =>
      have hbody := depthAll_le_layersAll body
      have hother := depthAll_le_layersAll other
      simp only [depth, layers]
      omega

/-- Nesting counts one more for the statements themselves. -/
theorem depthAll_le_layersAll (stmts : List Stmt) : depthAll stmts ≤ layersAll stmts + 1 := by
  match stmts with
  | [] => exact Nat.zero_le _
  | s :: rest =>
      have hs := depth_le_layers s
      have hrest := depthAll_le_layersAll rest
      simp only [depthAll, layersAll]
      omega
end

end Stmt

/-! ## Aggregates -/

mutual
/-- The number of aggregates inside of one another. -/
def Expr.folds : Expr → Nat
  | .number _ | .string _ | .boolean _ | .variable _ _ => 0
  | .binary _ left right _ => max left.folds right.folds
  | .unary _ operand _ => operand.folds
  | .call _ args _ => Expr.foldsAll args
  | .aggregate _ _ start stop body _ => max (max start.folds stop.folds) body.folds + 1

/-- The largest number of aggregates inside of one another. -/
def Expr.foldsAll : List Expr → Nat
  | [] => 0
  | e :: es => max e.folds (Expr.foldsAll es)
end

/-- The folds of two lists together are the greater of both. -/
theorem Expr.foldsAll_append (es es' : List Expr) :
    foldsAll (es ++ es') = max (foldsAll es) (foldsAll es') := by
  induction es with
  | nil => simp [foldsAll]
  | cons e es ih => simp only [List.cons_append, foldsAll, ih, Nat.max_assoc]

theorem Expr.folds_le_foldsAll {es : List Expr} {e : Expr} (he : e ∈ es) :
    e.folds ≤ foldsAll es := by
  induction es with
  | nil => contradiction
  | cons e' es ih =>
      obtain rfl | he := List.mem_cons.mp he
      · exact Nat.le_max_left _ _
      · exact Nat.le_trans (ih he) (Nat.le_max_right _ _)

/-- The largest number of aggregates inside of one another in one expression. -/
def Stmt.foldsAll (stmts : List Stmt) : Nat := Expr.foldsAll (expressionsAll stmts)

/-! ## Shapes -/

/-- How far statements nest blocks and aggregates, and whether they define
functions. -/
structure Shape where
  blocks : Nat
  folds : Nat
  functions : Bool
deriving DecidableEq, Repr

namespace Shape

/-- The shape of statements. -/
def of (stmts : List Stmt) : Shape :=
  ⟨Stmt.layersAll stmts, Stmt.foldsAll stmts, Stmt.definesIn stmts⟩

/-- The shape of a statement with a block of the given shape. -/
def around (S : Shape) : Shape := { S with blocks := S.blocks + 1 }

/-- The first shape nests no further than the second. -/
structure Le (S T : Shape) : Prop where
  blocks : S.blocks ≤ T.blocks
  folds : S.folds ≤ T.folds
  functions : S.functions = true → T.functions = true

instance : LE Shape := ⟨Le⟩

theorem mk_le {b b' f f' : Nat} {d d' : Bool} (hb : b ≤ b') (hf : f ≤ f')
    (hd : d = true → d' = true) : (⟨b, f, d⟩ : Shape) ≤ ⟨b', f', d'⟩ := ⟨hb, hf, hd⟩

theorem le_refl (S : Shape) : S ≤ S := ⟨Nat.le_refl _, Nat.le_refl _, id⟩

theorem le_trans {S T U : Shape} (h : S ≤ T) (h' : T ≤ U) : S ≤ U :=
  ⟨Nat.le_trans h.blocks h'.blocks, Nat.le_trans h.folds h'.folds,
    fun hS => h'.functions (h.functions hS)⟩

/-- The shape of no statements is the least. -/
theorem of_nil_le (T : Shape) : of [] ≤ T :=
  ⟨Nat.zero_le _, Nat.zero_le _, fun h => by contradiction⟩

/-- A shape bounds statements if it bounds the first and the rest. -/
theorem of_cons_le_iff {s : Stmt} {rest : List Stmt} {T : Shape} :
    of (s :: rest) ≤ T ↔ of [s] ≤ T ∧ of rest ≤ T := by
  have hfolds : ∀ stmts, (of (s :: stmts)).folds =
      max (Expr.foldsAll s.expressions) (of stmts).folds := fun stmts =>
    Expr.foldsAll_append s.expressions (Stmt.expressionsAll stmts)
  have hfunctions : ∀ stmts, (of (s :: stmts)).functions = true ↔
      s.defines = true ∨ (of stmts).functions = true := fun stmts => Bool.or_eq_true_iff
  constructor
  · rintro ⟨hb, hf, hd⟩
    rw [hfolds] at hf
    rw [hfunctions] at hd
    have hb : max s.layers (of rest).blocks ≤ T.blocks := hb
    refine ⟨⟨?_, ?_, fun h => ?_⟩, ⟨by omega, by omega, fun h => hd (.inr h)⟩⟩
    · show max s.layers 0 ≤ T.blocks
      omega
    · rw [hfolds]
      show max (Expr.foldsAll s.expressions) 0 ≤ T.folds
      omega
    · obtain hs | hnil := (hfunctions []).mp h
      · exact hd (.inl hs)
      · contradiction
  · rintro ⟨⟨hb, hf, hd⟩, ⟨hb', hf', hd'⟩⟩
    rw [hfolds] at hf
    rw [hfunctions] at hd
    have hb : max s.layers 0 ≤ T.blocks := hb
    refine ⟨?_, ?_, fun h => ?_⟩
    · show max s.layers (of rest).blocks ≤ T.blocks
      omega
    · rw [hfolds]
      omega
    · exact ((hfunctions rest).mp h).elim (fun hs => hd (.inl hs)) hd'

/-- Statements nest no further than a shape exactly if none of them does. -/
theorem of_le_iff {stmts : List Stmt} {T : Shape} : of stmts ≤ T ↔ ∀ s ∈ stmts, of [s] ≤ T := by
  induction stmts with
  | nil => simp [of_nil_le]
  | cons s rest ih => rw [of_cons_le_iff, ih, List.forall_mem_cons]

/-- Some of the statements nest no further than all of them. -/
theorem of_le_of_subset {some all : List Stmt} (h : some ⊆ all) : of some ≤ of all :=
  of_le_iff.mpr fun s hs => of_le_iff.mp (le_refl (of all)) s (h hs)

/-! ## Parts of a statement -/

/-- The shape of one statement. -/
theorem of_singleton (s : Stmt) : of [s] = ⟨s.layers, Expr.foldsAll s.expressions, s.defines⟩ := by
  simp [of, Stmt.layersAll, Stmt.foldsAll, Stmt.expressionsAll, Stmt.definesIn]

/-- An expression of a statement nests no further than the statement. -/
theorem folds_le_of_mem {s : Stmt} {e : Expr} (he : e ∈ s.expressions) :
    e.folds ≤ (of [s]).folds := by
  rw [of_singleton]
  exact Expr.folds_le_foldsAll he

/-- A block of a statement is around no more than the statement. -/
theorem around_le_of_mem_blocks {s : Stmt} {b : List Stmt} (hb : b ∈ s.blocks) :
    (of b).around ≤ of [s] := by
  rw [of_singleton]
  cases s with
  | expression | assign | function | giveBack => simp [Stmt.blocks] at hb
  | ifThen | whileLoop | forLoop =>
      obtain rfl := List.mem_singleton.mp hb
      exact ⟨Nat.le_refl _, Nat.le_max_right _ _, id⟩
  | ifElse c body other pos =>
      have hfolds : Expr.foldsAll (Stmt.ifElse c body other pos).expressions =
          max c.folds (max (Stmt.foldsAll body) (Stmt.foldsAll other)) := by
        simp only [Stmt.expressions, Expr.foldsAll, Expr.foldsAll_append, Stmt.foldsAll]
      rw [hfolds]
      simp only [Stmt.blocks, List.mem_cons, List.not_mem_nil, or_false] at hb
      simp only [around, of, Stmt.layers, Stmt.defines]
      obtain rfl | rfl := hb
      · exact mk_le (by omega) (by omega) fun h => Bool.or_eq_true_iff.mpr (.inl h)
      · exact mk_le (by omega) (by omega) fun h => Bool.or_eq_true_iff.mpr (.inr h)

/-- The body of a function is around no more than its definition. -/
theorem around_le_of_function (name : String) (params : List String) (body : List Stmt)
    (pos : Position) : (of body).around ≤ of [.function name params body pos] := by
  rw [of_singleton]
  exact ⟨Nat.le_refl _, Nat.le_refl _, fun _ => rfl⟩

end Shape

end Abacus
