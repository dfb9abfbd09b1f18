import Abacus.Tree.Basic

/-!
# Abacus.Proofs.Tree.Relocate

Trees with other places.  `relocate f` moves every place of a tree by `f` and
keeps the rest; `unplaced` puts every place at the start, so two trees are equal
up to their places if and only if they are equal once unplaced.
-/

namespace Abacus

/-! ## Expressions -/

mutual
/-- The expression with every place moved by `f`. -/
def Expr.relocate (f : Position → Position) : Expr → Expr
  | .number n => .number n
  | .string s => .string s
  | .boolean b => .boolean b
  | .variable name pos => .variable name (f pos)
  | .binary op left right pos => .binary op (left.relocate f) (right.relocate f) (f pos)
  | .unary op operand pos => .unary op (operand.relocate f) (f pos)
  | .call name args pos => .call name (Expr.relocateAll f args) (f pos)
  | .aggregate kind var start stop body pos =>
    .aggregate kind var (start.relocate f) (stop.relocate f) (body.relocate f) (f pos)

/-- The expressions with every place moved by `f`. -/
def Expr.relocateAll (f : Position → Position) : List Expr → List Expr
  | [] => []
  | e :: es => e.relocate f :: Expr.relocateAll f es
end

namespace Expr

/-- Relocating a list relocates its members. -/
theorem relocateAll_eq_map (f : Position → Position) (es : List Expr) :
    relocateAll f es = es.map (relocate f) := by
  induction es with
  | nil => rfl
  | cons e es ih => rw [relocateAll, ih, List.map_cons]

/-- Relocating a call relocates its arguments. -/
@[simp] theorem relocate_call (f : Position → Position) (name : String) (args : List Expr)
    (pos : Position) :
    (Expr.call name args pos).relocate f = .call name (args.map (relocate f)) (f pos) := by
  rw [relocate, relocateAll_eq_map]

mutual
/-- Moving every place nowhere. -/
theorem relocate_id (e : Expr) : e.relocate id = e := by
  cases e with
  | number n => rfl
  | string s => rfl
  | boolean b => rfl
  | «variable» name pos => rfl
  | binary op left right pos => rw [relocate, relocate_id left, relocate_id right, id]
  | unary op operand pos => rw [relocate, relocate_id operand, id]
  | call name args pos => rw [relocate, relocateAll_id args, id]
  | aggregate kind var start stop body pos =>
      rw [relocate, relocate_id start, relocate_id stop, relocate_id body, id]

/-- Nothing is moved by the identity. -/
theorem relocateAll_id (es : List Expr) : relocateAll id es = es := by
  cases es with
  | nil => rfl
  | cons e es => rw [relocateAll, relocate_id e, relocateAll_id es]
end

mutual
/-- Moving every place by `f` and then by `g`. -/
theorem relocate_relocate (f g : Position → Position) (e : Expr) :
    (e.relocate f).relocate g = e.relocate (g ∘ f) := by
  cases e with
  | number n => rfl
  | string s => rfl
  | boolean b => rfl
  | «variable» name pos => rfl
  | binary op left right pos =>
      simp only [relocate, relocate_relocate f g left, relocate_relocate f g right, Function.comp]
  | unary op operand pos =>
      simp only [relocate, relocate_relocate f g operand, Function.comp]
  | call name args pos =>
      simp only [relocate, relocateAll_relocateAll f g args, Function.comp]
  | aggregate kind var start stop body pos =>
      simp only [relocate, relocate_relocate f g start, relocate_relocate f g stop,
        relocate_relocate f g body, Function.comp]

/-- Moving twice is moving once. -/
theorem relocateAll_relocateAll (f g : Position → Position) (es : List Expr) :
    relocateAll g (relocateAll f es) = relocateAll (g ∘ f) es := by
  cases es with
  | nil => rfl
  | cons e es =>
      rw [relocateAll, relocateAll, relocateAll, relocate_relocate f g e,
        relocateAll_relocateAll f g es]
end

/-- The expression with every place at the start. -/
def unplaced (e : Expr) : Expr := e.relocate fun _ => .first

/-- Unplacing forgets the place of a node and those of its parts. -/
@[simp] theorem unplaced_variable (name : String) (pos : Position) :
    (Expr.variable name pos).unplaced = .variable name .first := rfl

@[simp] theorem unplaced_binary (op : BinaryOp) (left right : Expr) (pos : Position) :
    (Expr.binary op left right pos).unplaced = .binary op left.unplaced right.unplaced .first := rfl

@[simp] theorem unplaced_unary (op : UnaryOp) (e : Expr) (pos : Position) :
    (Expr.unary op e pos).unplaced = .unary op e.unplaced .first := rfl

@[simp] theorem unplaced_call (name : String) (args : List Expr) (pos : Position) :
    (Expr.call name args pos).unplaced = .call name (args.map unplaced) .first :=
  relocate_call _ name args pos

@[simp] theorem unplaced_aggregate (kind : Aggregate) (var : String) (start stop body : Expr)
    (pos : Position) :
    (Expr.aggregate kind var start stop body pos).unplaced =
      .aggregate kind var start.unplaced stop.unplaced body.unplaced .first := rfl

end Expr

/-! ## Statements -/

mutual
/-- The statement with every place moved by `f`. -/
def Stmt.relocate (f : Position → Position) : Stmt → Stmt
  | .expression e => .expression (e.relocate f)
  | .assign name value pos => .assign name (value.relocate f) (f pos)
  | .ifThen condition body pos => .ifThen (condition.relocate f) (Stmt.relocateAll f body) (f pos)
  | .ifElse condition body other pos =>
    .ifElse (condition.relocate f) (Stmt.relocateAll f body) (Stmt.relocateAll f other) (f pos)
  | .whileLoop condition body pos =>
    .whileLoop (condition.relocate f) (Stmt.relocateAll f body) (f pos)
  | .forLoop var items body pos => .forLoop var (items.relocate f) (Stmt.relocateAll f body) (f pos)
  | .function name params body pos => .function name params (Stmt.relocateAll f body) (f pos)
  | .giveBack value pos => .giveBack (value.map (Expr.relocate f)) (f pos)

/-- The statements with every place moved by `f`. -/
def Stmt.relocateAll (f : Position → Position) : List Stmt → List Stmt
  | [] => []
  | s :: rest => s.relocate f :: Stmt.relocateAll f rest
end

namespace Stmt

/-- Relocating a list relocates its members. -/
theorem relocateAll_eq_map (f : Position → Position) (stmts : List Stmt) :
    relocateAll f stmts = stmts.map (relocate f) := by
  induction stmts with
  | nil => rfl
  | cons s rest ih => rw [relocateAll, ih, List.map_cons]

section relocate

variable (f : Position → Position) (condition : Expr) (body other : List Stmt) (pos : Position)

/-- The recursion through blocks is a map over their statements. -/
@[simp] theorem relocate_ifThen : (Stmt.ifThen condition body pos).relocate f =
    .ifThen (condition.relocate f) (body.map (relocate f)) (f pos) := by
  rw [relocate, relocateAll_eq_map]

@[simp] theorem relocate_ifElse : (Stmt.ifElse condition body other pos).relocate f =
    .ifElse (condition.relocate f) (body.map (relocate f)) (other.map (relocate f)) (f pos) := by
  rw [relocate, relocateAll_eq_map, relocateAll_eq_map]

@[simp] theorem relocate_whileLoop : (Stmt.whileLoop condition body pos).relocate f =
    .whileLoop (condition.relocate f) (body.map (relocate f)) (f pos) := by
  rw [relocate, relocateAll_eq_map]

@[simp] theorem relocate_forLoop (var : String) : (Stmt.forLoop var condition body pos).relocate f =
    .forLoop var (condition.relocate f) (body.map (relocate f)) (f pos) := by
  rw [relocate, relocateAll_eq_map]

@[simp] theorem relocate_function (name : String) (params : List String) :
    (Stmt.function name params body pos).relocate f =
      .function name params (body.map (relocate f)) (f pos) := by
  rw [relocate, relocateAll_eq_map]

end relocate

mutual
/-- Moving every place nowhere. -/
theorem relocate_id (s : Stmt) : s.relocate id = s := by
  cases s with
  | expression e => rw [relocate, e.relocate_id]
  | assign name value pos => rw [relocate, value.relocate_id, id]
  | ifThen condition body pos => rw [relocate, condition.relocate_id, relocateAll_id body, id]
  | ifElse condition body other pos =>
      rw [relocate, condition.relocate_id, relocateAll_id body, relocateAll_id other, id]
  | whileLoop condition body pos =>
      rw [relocate, condition.relocate_id, relocateAll_id body, id]
  | forLoop var items body pos => rw [relocate, items.relocate_id, relocateAll_id body, id]
  | function name params body pos => rw [relocate, relocateAll_id body, id]
  | giveBack value pos => cases value <;> simp [relocate, Expr.relocate_id]

/-- Nothing is moved by the identity. -/
theorem relocateAll_id (stmts : List Stmt) : relocateAll id stmts = stmts := by
  cases stmts with
  | nil => rfl
  | cons s rest => rw [relocateAll, relocate_id s, relocateAll_id rest]
end

/-- A block is not moved by the identity. -/
@[simp] theorem map_relocate_id (stmts : List Stmt) : stmts.map (relocate id) = stmts := by
  rw [← relocateAll_eq_map, relocateAll_id]

mutual
/-- Moving every place by `f` and then by `g`. -/
theorem relocate_relocate (f g : Position → Position) (s : Stmt) :
    (s.relocate f).relocate g = s.relocate (g ∘ f) := by
  cases s with
  | expression e => rw [relocate, relocate, relocate, e.relocate_relocate]
  | assign name value pos =>
      simp only [relocate, value.relocate_relocate, Function.comp]
  | ifThen condition body pos =>
      simp only [relocate, condition.relocate_relocate, relocateAll_relocateAll f g body,
        Function.comp]
  | ifElse condition body other pos =>
      simp only [relocate, condition.relocate_relocate, relocateAll_relocateAll f g body,
        relocateAll_relocateAll f g other, Function.comp]
  | whileLoop condition body pos =>
      simp only [relocate, condition.relocate_relocate, relocateAll_relocateAll f g body,
        Function.comp]
  | forLoop var items body pos =>
      simp only [relocate, items.relocate_relocate, relocateAll_relocateAll f g body,
        Function.comp]
  | function name params body pos =>
      simp only [relocate, relocateAll_relocateAll f g body, Function.comp]
  | giveBack value pos => cases value <;> simp [relocate, Expr.relocate_relocate]

/-- Moving twice is moving once. -/
theorem relocateAll_relocateAll (f g : Position → Position) (stmts : List Stmt) :
    relocateAll g (relocateAll f stmts) = relocateAll (g ∘ f) stmts := by
  cases stmts with
  | nil => rfl
  | cons s rest =>
      rw [relocateAll, relocateAll, relocateAll, relocate_relocate f g s,
        relocateAll_relocateAll f g rest]
end

/-- The statement with every place at the start. -/
def unplaced (s : Stmt) : Stmt := s.relocate fun _ => .first

/-- The same statement elsewhere is the same up to places. -/
theorem unplaced_relocate (f : Position → Position) (s : Stmt) :
    (s.relocate f).unplaced = s.unplaced := relocate_relocate f _ s

/-- A block elsewhere is the same up to places. -/
theorem map_unplaced_relocate (f : Position → Position) (stmts : List Stmt) :
    (stmts.map (relocate f)).map unplaced = stmts.map unplaced := by
  rw [List.map_map]
  exact List.map_congr_left fun s _ => s.unplaced_relocate f

/-- Unplacing a statement unplaces its expressions and its blocks. -/
@[simp] theorem unplaced_expression (e : Expr) :
    (Stmt.expression e).unplaced = .expression e.unplaced := rfl

@[simp] theorem unplaced_assign (name : String) (value : Expr) (pos : Position) :
    (Stmt.assign name value pos).unplaced = .assign name value.unplaced .first := rfl

@[simp] theorem unplaced_ifThen (condition : Expr) (body : List Stmt) (pos : Position) :
    (Stmt.ifThen condition body pos).unplaced =
      .ifThen condition.unplaced (body.map unplaced) .first := relocate_ifThen _ _ _ _

@[simp] theorem unplaced_ifElse (condition : Expr) (body other : List Stmt) (pos : Position) :
    (Stmt.ifElse condition body other pos).unplaced =
      .ifElse condition.unplaced (body.map unplaced) (other.map unplaced) .first :=
  relocate_ifElse _ _ _ _ _

@[simp] theorem unplaced_whileLoop (condition : Expr) (body : List Stmt) (pos : Position) :
    (Stmt.whileLoop condition body pos).unplaced =
      .whileLoop condition.unplaced (body.map unplaced) .first := relocate_whileLoop _ _ _ _

@[simp] theorem unplaced_forLoop (var : String) (items : Expr) (body : List Stmt) (pos : Position) :
    (Stmt.forLoop var items body pos).unplaced =
      .forLoop var items.unplaced (body.map unplaced) .first := relocate_forLoop _ _ _ _ _

@[simp] theorem unplaced_function (name : String) (params : List String) (body : List Stmt)
    (pos : Position) :
    (Stmt.function name params body pos).unplaced =
      .function name params (body.map unplaced) .first := relocate_function _ _ _ _ _

/-- A return without a value has no place but its own. -/
@[simp] theorem unplaced_giveBack (value : Option Expr) (pos : Position) :
    (Stmt.giveBack value pos).unplaced = .giveBack (value.map Expr.unplaced) .first := by
  cases value <;> rfl

end Stmt

end Abacus
