import Abacus.Eval.Evaluate
import Abacus.Proofs.Stateful
import Abacus.Proofs.Tree.Returns
import Abacus.Proofs.Value.Alike

/-!
# Abacus.Proofs.Eval.Lockstep

Two runs side by side.  A `Pairing` says when two machines, scopes, values and
nodes stand for each other, relative to a *world*: what is known at that point
of the two runs.  Worlds grow as the runs go on, and what stands for each other
keeps doing so.  `Pairing.Follows` says that from machines that stand for each
other two runs give results that do, in a later world; a run may be excused from
the comparison by the way it stops.

A law of a single run is the case where both machines are the same.
-/

namespace Abacus

/-! ## Nodes -/

/-- Two expressions of one form, whose parts are related by `sub` and whose
places by `place`, for what stands there. -/
inductive Expr.Congruent (place : Site → Position → Position → Prop) (sub : Expr → Expr → Prop) :
    Expr → Expr → Prop
  | number (n : Float) : Congruent place sub (.number n) (.number n)
  | string (s : String) : Congruent place sub (.string s) (.string s)
  | boolean (b : Bool) : Congruent place sub (.boolean b) (.boolean b)
  | variable (name : String) {p p' : Position} (hp : place (.name name) p p') :
      Congruent place sub (.variable name p) (.variable name p')
  | binary (op : BinaryOp) {l l' r r' : Expr} {p p' : Position} (hl : sub l l') (hr : sub r r')
      (hp : place (.operation op) p p') :
      Congruent place sub (.binary op l r p) (.binary op l' r' p')
  | unary (op : UnaryOp) {e e' : Expr} {p p' : Position} (h : sub e e')
      (hp : place (.sign op) p p') : Congruent place sub (.unary op e p) (.unary op e' p')
  | call (name : String) {es es' : List Expr} {p p' : Position} (h : List.Forall₂ sub es es')
      (hp : place (.name name) p p') : Congruent place sub (.call name es p) (.call name es' p')
  | aggregate (kind : Aggregate) (var : String) {a a' z z' b b' : Expr} {p p' : Position}
      (ha : sub a a') (hz : sub z z') (hb : sub b b') (hp : place (.fold kind) p p') :
      Congruent place sub (.aggregate kind var a z b p) (.aggregate kind var a' z' b' p')

/-- An expression is congruent to itself if its parts are related to
themselves. -/
theorem Expr.Congruent.refl {place : Site → Position → Position → Prop}
    (hplace : ∀ site p, place site p p) {sub : Expr → Expr → Prop} (hsub : ∀ e, sub e e)
    (e : Expr) : e.Congruent place sub e := by
  cases e with
  | number n => exact .number n
  | string s => exact .string s
  | boolean b => exact .boolean b
  | «variable» name p => exact .variable name (hplace _ p)
  | binary op l r p => exact .binary op (hsub l) (hsub r) (hplace _ p)
  | unary op e p => exact .unary op (hsub e) (hplace _ p)
  | call name es p => exact .call name (List.forall₂_same.mpr fun e _ => hsub e) (hplace _ p)
  | aggregate kind var a z b p => exact .aggregate kind var (hsub a) (hsub z) (hsub b) (hplace _ p)

/-- Two statements of one form, whose expressions are related by `sub`, whose
blocks by `block`, and the bodies of whose functions by `code`. -/
inductive Stmt.Congruent (place : Site → Position → Position → Prop) (sub : Expr → Expr → Prop)
    (block code : List Stmt → List Stmt → Prop) : Stmt → Stmt → Prop
  | expression {e e' : Expr} (h : sub e e') :
      Congruent place sub block code (.expression e) (.expression e')
  | assign (name : String) {e e' : Expr} {p p' : Position} (h : sub e e') :
      Congruent place sub block code (.assign name e p) (.assign name e' p')
  | ifThen {c c' : Expr} {b b' : List Stmt} {p p' : Position} (hc : sub c c') (hb : block b b')
      (hp : place (.keyword .ifKw) p p') :
      Congruent place sub block code (.ifThen c b p) (.ifThen c' b' p')
  | ifElse {c c' : Expr} {b b' o o' : List Stmt} {p p' : Position} (hc : sub c c')
      (hb : block b b') (ho : block o o') (hp : place (.keyword .ifKw) p p') :
      Congruent place sub block code (.ifElse c b o p) (.ifElse c' b' o' p')
  | whileLoop {c c' : Expr} {b b' : List Stmt} {p p' : Position} (hc : sub c c')
      (hb : block b b') (hp : place (.keyword .whileKw) p p') :
      Congruent place sub block code (.whileLoop c b p) (.whileLoop c' b' p')
  | forLoop (var : String) {e e' : Expr} {b b' : List Stmt} {p p' : Position} (h : sub e e')
      (hb : block b b') (hp : place (.keyword .forKw) p p') :
      Congruent place sub block code (.forLoop var e b p) (.forLoop var e' b' p')
  | function (name : String) (params : List String) {b b' : List Stmt} {p p' : Position}
      (hb : code b b') :
      Congruent place sub block code (.function name params b p) (.function name params b' p')
  | giveBack {e e' : Option Expr} {p p' : Position} (h : Option.Rel sub e e')
      (hp : place (.keyword .returnKw) p p') :
      Congruent place sub block code (.giveBack e p) (.giveBack e' p')

/-- A statement is congruent to itself if its parts are related to themselves. -/
theorem Stmt.Congruent.refl {place : Site → Position → Position → Prop}
    (hplace : ∀ site p, place site p p) {sub : Expr → Expr → Prop} (hsub : ∀ e, sub e e)
    {block code : List Stmt → List Stmt → Prop} (hcode : ∀ b, code b b) {s : Stmt}
    (hblock : ∀ b ∈ s.blocks, block b b) :
    s.Congruent place sub block code s := by
  cases s with
  | expression e => exact .expression (hsub e)
  | assign name e p => exact .assign name (hsub e)
  | ifThen c b p => exact .ifThen (hsub c) (hblock b (by simp [blocks])) (hplace _ p)
  | ifElse c b o p =>
      have hb := hblock b (by simp [blocks])
      have ho := hblock o (by simp [blocks])
      exact .ifElse (hsub c) hb ho (hplace _ p)
  | whileLoop c b p => exact .whileLoop (hsub c) (hblock b (by simp [blocks])) (hplace _ p)
  | forLoop var e b p => exact .forLoop var (hsub e) (hblock b (by simp [blocks])) (hplace _ p)
  | function name params b p => exact .function name params (hcode b)
  | giveBack e p =>
      refine .giveBack ?_ (hplace _ p)
      cases e with
      | none => exact .none
      | some e => exact .some (hsub e)

/-! ## Pairings -/

/-- When two runs stand for each other. -/
structure Pairing where
  /-- What is known at a point of the two runs. -/
  World : Type
  /-- The second world may come after the first. -/
  later : World → World → Prop
  /-- The world inside a block. -/
  inBlock : World → World
  /-- The world inside a call. -/
  inCall : World → World
  machine : World → Machine → Machine → Prop
  scope : World → FrameId → FrameId → Prop
  identity : World → Nat → Nat → Prop
  /-- Bodies of closures that stand for each other. -/
  code : List Stmt → List Stmt → Prop
  /-- Places where the same stands. -/
  place : Site → Position → Position → Prop
  expr : World → Expr → Expr → Prop
  stmt : World → Stmt → Stmt → Prop
  /-- Whether a statement may give a value back. -/
  mayReturn : World → Prop
  stop : Stop → Stop → Prop
  /-- Stops of the first run after which nothing is said of the second. -/
  excusedLeft : Stop → Prop
  /-- Stops of the second run after which nothing is said of the first. -/
  excusedRight : Stop → Prop
  later_refl : ∀ w, later w w
  later_trans : ∀ {w₁ w₂ w₃}, later w₁ w₂ → later w₂ w₃ → later w₁ w₃
  scope_mono : ∀ {w w' a b}, later w w' → scope w a b → scope w' a b
  identity_mono : ∀ {w w' i j}, later w w' → identity w i j → identity w' i j
  expr_mono : ∀ {w w' e e'}, later w w' → expr w e e' → expr w' e e'
  stmt_mono : ∀ {w w' s s'}, later w w' → stmt w s s' → stmt w' s s'
  mayReturn_mono : ∀ {w w'}, later w w' → mayReturn w → mayReturn w'

namespace Pairing

variable (C : Pairing) {α β γ δ : Type}

/-- The likeness of closures in a world. -/
def likeness (w : C.World) : Likeness := ⟨C.scope w, C.identity w, C.code⟩

/-- Two values that stand for each other. -/
def value (w : C.World) : Value → Value → Prop := Value.Alike (C.likeness w)

/-- Two ways to end a statement that stand for each other. -/
inductive flow (w : C.World) : Flow → Flow → Prop
  | normal : flow w .normal .normal
  | returned {v v' : Value} (hr : C.mayReturn w) (h : C.value w v v') :
      flow w (.returned v) (.returned v')

variable {C}

/-- In a later world more closures stand for each other. -/
theorem likeness_mono {w w' : C.World} (hw : C.later w w') :
    (C.likeness w).Le (C.likeness w') :=
  ⟨fun _ _ => C.scope_mono hw, fun _ _ => C.identity_mono hw, fun _ _ h => h⟩

/-- Values that stand for each other do so in later worlds. -/
theorem value_mono {w w' : C.World} {v v' : Value} (hw : C.later w w') (h : C.value w v v') :
    C.value w' v v' := Value.Alike.mono (likeness_mono hw) h

/-- Lists of values that stand for each other do so in later worlds. -/
theorem values_mono {w w' : C.World} {vs vs' : List Value} (hw : C.later w w')
    (h : List.Forall₂ (C.value w) vs vs') : List.Forall₂ (C.value w') vs vs' :=
  h.imp fun _ _ => value_mono hw

/-- Expressions that stand for each other do so in later worlds. -/
theorem exprs_mono {w w' : C.World} {es es' : List Expr} (hw : C.later w w')
    (h : List.Forall₂ (C.expr w) es es') : List.Forall₂ (C.expr w') es es' :=
  h.imp fun _ _ => C.expr_mono hw

/-- Statements that stand for each other do so in later worlds. -/
theorem stmts_mono {w w' : C.World} {ss ss' : List Stmt} (hw : C.later w w')
    (h : List.Forall₂ (C.stmt w) ss ss') : List.Forall₂ (C.stmt w') ss ss' :=
  h.imp fun _ _ => C.stmt_mono hw

/-! ## Results -/

variable (C)

/-- Two results that stand for each other in a world after `w`, or one of which
is excused. -/
inductive Agrees (w : C.World) (A : C.World → α → β → Prop) :
    EStateM.Result Stop Machine α → EStateM.Result Stop Machine β → Prop
  | ok {w' : C.World} {a : α} {b : β} {m m' : Machine} (hw : C.later w w')
      (hm : C.machine w' m m') (h : A w' a b) : Agrees w A (.ok a m) (.ok b m')
  | error {w' : C.World} {e e' : Stop} {m m' : Machine} (hw : C.later w w')
      (hm : C.machine w' m m') (he : C.stop e e') : Agrees w A (.error e m) (.error e' m')
  | left {e : Stop} {m : Machine} {r : EStateM.Result Stop Machine β} (he : C.excusedLeft e) :
      Agrees w A (.error e m) r
  | right {e : Stop} {m : Machine} {r : EStateM.Result Stop Machine α} (he : C.excusedRight e) :
      Agrees w A r (.error e m)

/-- From machines that stand for each other the two runs give results that do. -/
def Follows (w : C.World) (A : C.World → α → β → Prop) (x : Run α) (y : Run β) : Prop :=
  ∀ m m', C.machine w m m' → C.Agrees w A (x m) (y m')

/-- The relation that says nothing. -/
def any (_ : C.World) (_ : α) (_ : β) : Prop := True

variable {C} {w w' : C.World} {A : C.World → α → β → Prop} {B : C.World → γ → δ → Prop}

/-- Results that agree do so for a weaker relation. -/
theorem Agrees.mono {A' : C.World → α → β → Prop} {r : EStateM.Result Stop Machine α}
    {s : EStateM.Result Stop Machine β} (h : C.Agrees w A r s)
    (hA : ∀ w' a b, C.later w w' → A w' a b → A' w' a b) : C.Agrees w A' r s := by
  cases h with
  | ok hw hm h => exact .ok hw hm (hA _ _ _ hw h)
  | error hw hm he => exact .error hw hm he
  | left he => exact .left he
  | right he => exact .right he

/-- What agrees from a later world on agrees from an earlier one. -/
theorem Agrees.earlier {r : EStateM.Result Stop Machine α} {s : EStateM.Result Stop Machine β}
    (hw : C.later w w') (h : C.Agrees w' A r s) : C.Agrees w A r s := by
  cases h with
  | ok hw' hm h => exact .ok (C.later_trans hw hw') hm h
  | error hw' hm he => exact .error (C.later_trans hw hw') hm he
  | left he => exact .left he
  | right he => exact .right he

/-! ## Runs -/

namespace Follows

/-- Runs that follow each other do so for a weaker relation. -/
theorem mono {A' : C.World → α → β → Prop} {x : Run α} {y : Run β} (h : C.Follows w A x y)
    (hA : ∀ w' a b, C.later w w' → A w' a b → A' w' a b) : C.Follows w A' x y :=
  fun m m' hm => (h m m' hm).mono hA

/-- Values that stand for each other are given at once. -/
theorem pure {a : α} {b : β} (h : A w a b) : C.Follows w A (Pure.pure a) (Pure.pure b) :=
  fun _ _ hm => .ok (C.later_refl w) hm h

/-- Errors that stand for each other are reported at once. -/
theorem fail {e e' : Error} (h : C.stop (.failed e) (.failed e')) :
    C.Follows w A (Run.fail e) (Run.fail e') := fun _ _ hm => .error (C.later_refl w) hm h

/-- One run after another follows if both do, the second from every later
world. -/
theorem bind {x : Run α} {y : Run β} {f : α → Run γ} {g : β → Run δ} (hx : C.Follows w A x y)
    (hf : ∀ w' a b, C.later w w' → A w' a b → C.Follows w' B (f a) (g b)) :
    C.Follows w B (x >>= f) (y >>= g) := by
  intro m m' hm
  have h := hx m m' hm
  cases hr : x m with
  | ok a m₁ =>
      cases hs : y m' with
      | ok b m₁' =>
          rw [hr, hs] at h
          rw [Stateful.bind_of_ok f hr, Stateful.bind_of_ok g hs]
          cases h with
          | ok hw hm₁ hab => exact (hf _ _ _ hw hab m₁ m₁' hm₁).earlier hw
      | error e m₁' =>
          rw [hr, hs] at h
          rw [Stateful.bind_of_error g hs]
          cases h with
          | right he => exact .right he
  | error e m₁ =>
      rw [hr] at h
      rw [Stateful.bind_of_error f hr]
      cases hs : y m' with
      | ok b m₁' =>
          rw [hs] at h
          cases h with
          | left he => exact .left he
      | error e' m₁' =>
          rw [hs] at h
          rw [Stateful.bind_of_error g hs]
          cases h with
          | error hw hm₁ he => exact .error hw hm₁ he
          | left he => exact .left he
          | right he => exact .right he

/-- A value that is thrown away makes no difference. -/
theorem discard {x : Run α} {y : Run β} (hx : C.Follows w A x y) :
    C.Follows w C.any (Functor.discard x) (Functor.discard y) := by
  rw [Stateful.discard_eq, Stateful.discard_eq]
  exact hx.bind fun w' _ _ _ _ => pure trivial

/-- Runs that look at the machine do so at machines that stand for each other. -/
theorem get_bind {f : Machine → Run α} {g : Machine → Run β}
    (h : ∀ m m', C.machine w m m' → C.Follows w A (f m) (g m')) :
    C.Follows w A (get >>= f) (get >>= g) := fun m m' hm => h m m' hm m m' hm

/-- A choice whose condition both runs share. -/
theorem ite {c : Prop} [Decidable c] {x x' : Run α} {y y' : Run β} (h : C.Follows w A x y)
    (h' : C.Follows w A x' y') : C.Follows w A (if c then x else x') (if c then y else y') := by
  split
  · exact h
  · exact h'

end Follows

/-- What is done to both machines around two runs may be left out, if it turns
the world inside back into one outside. -/
theorem Agrees.around {inner : C.World} {A' : C.World → α → β → Prop}
    {before after : Machine → Machine} {x : Run α} {y : Run β} {m m' : Machine}
    (h : C.Agrees inner A' (x (before m)) (y (before m')))
    (hafter : ∀ w₁ m₁ m₁', C.later inner w₁ → C.machine w₁ m₁ m₁' →
      ∃ w₂, C.later w w₂ ∧ C.machine w₂ (after m₁) (after m₁') ∧ ∀ a b, A' w₁ a b → A w₂ a b) :
    C.Agrees w A (Run.around before after x m) (Run.around before after y m') := by
  unfold Run.around
  generalize x (before m) = r, y (before m') = r' at h ⊢
  cases h with
  | ok hw hm hab =>
      obtain ⟨w₂, hw₂, hm₂, hA⟩ := hafter _ _ _ hw hm
      exact .ok hw₂ hm₂ (hA _ _ hab)
  | error hw hm he =>
      obtain ⟨w₂, hw₂, hm₂, _⟩ := hafter _ _ _ hw hm
      exact .error hw₂ hm₂ he
  | left he => exact .left he
  | right he =>
      cases r with
      | ok a m₁ => exact .right he
      | error e m₁ => exact .right he

end Pairing

/-! ## Nesting -/

namespace Machine

/-- Open a block. -/
def enterBlock (m : Machine) : Machine := { m with depth := m.depth + 1 }

/-- Close a block. -/
def leaveBlock (m : Machine) : Machine := { m with depth := m.depth - 1 }

/-- Open a call. -/
def enterCall (m : Machine) : Machine := { m with depth := m.depth + 1, calls := m.calls + 1 }

/-- Close a call. -/
def leaveCall (m : Machine) : Machine := { m with depth := m.depth - 1, calls := m.calls - 1 }

end Machine

namespace Run

variable {α : Type} {limit : Nat} {m : Machine}

/-- Below the limit a level of depth is counted around the run. -/
theorem deeper_of_lt (h : m.depth < limit) (pos : Position) (x : Run α) :
    deeper limit pos x m = around Machine.enterBlock Machine.leaveBlock x m := by
  unfold deeper
  rw [Stateful.bind_of_ok _ (show (get : Run Machine) m = .ok m m from rfl), if_pos h]
  rfl

/-- At the limit the run does not start. -/
theorem deeper_of_le (h : limit ≤ m.depth) (pos : Position) (x : Run α) :
    deeper limit pos x m = .error (.failed (.runtime (.recursionLimit limit) pos)) m := by
  unfold deeper
  rw [Stateful.bind_of_ok _ (show (get : Run Machine) m = .ok m m from rfl),
    if_neg (Nat.not_lt.mpr h)]
  rfl

/-- A run is asked only what it does with the machine that it is given. -/
theorem around_congr {before after : Machine → Machine} {x y : Run α}
    (h : x (before m) = y (before m)) : around before after x m = around before after y m := by
  rw [around, around, h]

/-- Two changes of the machine around a run are one. -/
theorem around_around (before after before' after' : Machine → Machine) (x : Run α) :
    around before after (around before' after' x) m =
      around (fun m => before' (before m)) (fun m => after (after' m)) x m := by
  unfold around
  cases x (before' (before m)) <;> rfl

/-- A call below the limit counts itself and a level of depth at once. -/
theorem insideCall_deeper_of_lt (h : m.depth < limit) (pos : Position) (x : Run α) :
    insideCall (deeper limit pos x) m = around Machine.enterCall Machine.leaveCall x m := by
  unfold insideCall
  rw [around_congr (deeper_of_lt (m := { m with calls := m.calls + 1 }) h pos x), around_around]
  rfl

/-- At the limit a call does not start, and does not count itself. -/
theorem insideCall_deeper_of_le (h : limit ≤ m.depth) (pos : Position) (x : Run α) :
    insideCall (deeper limit pos x) m =
      .error (.failed (.runtime (.recursionLimit limit) pos)) m := by
  unfold insideCall
  rw [around, deeper_of_le (m := { m with calls := m.calls + 1 }) h]
  rfl

end Run

end Abacus
