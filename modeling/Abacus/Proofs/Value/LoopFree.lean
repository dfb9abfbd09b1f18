import Abacus.Eval.Machine
import Abacus.Proofs.Value.Alike

/-!
# Abacus.Proofs.Value.LoopFree

Programs and values without while loops.  A statement is loop-free if no while
loop occurs in it, the bodies of the functions it defines included; a value, if
no function in it has a loop; a heap, if no value bound in it has one.

Loop-free values are those that are like themselves for a `Likeness` that only
takes loop-free code (`loopFree_iff`), so what is known of alike values says that
operators and builtins make no loops.
-/

namespace Abacus

/-! ## Statements -/

namespace Stmt

mutual
/-- Whether a statement has no while loop anywhere inside. -/
def loopFree : Stmt → Bool
  | expression _ | assign _ _ _ | giveBack _ _ => true
  | whileLoop _ _ _ => false
  | ifThen _ body _ | forLoop _ _ body _ | function _ _ body _ => loopFreeIn body
  | ifElse _ body other _ => loopFreeIn body && loopFreeIn other

/-- Whether no statement of a block has one. -/
def loopFreeIn : List Stmt → Bool
  | [] => true
  | s :: rest => loopFree s && loopFreeIn rest
end

end Stmt

/-! ## Values -/

namespace Value

mutual
/-- Whether no function in a value has a while loop. -/
def loopFree : Value → Bool
  | list items => loopFreeIn items
  | function f => Stmt.loopFreeIn f.body
  | number _ | string _ | boolean _ | builtin _ | none => true

/-- Whether no function in any of the values has one. -/
def loopFreeIn : List Value → Bool
  | [] => true
  | v :: vs => loopFree v && loopFreeIn vs
end

end Value

/-- Closures stand for themselves, if their bodies have no while loop. -/
def Likeness.loopFree : Likeness := ⟨Eq, Eq, fun b b' => b = b' ∧ Stmt.loopFreeIn b = true⟩

/-- Frames stand for themselves, so they are told apart as they are. -/
theorem Likeness.faithful_loopFree : Likeness.loopFree.Faithful := by
  rintro i j i' j' rfl rfl
  exact Iff.rfl

namespace Value

mutual
/-- A loop-free value is like itself: by induction on the value. -/
theorem alike_of_loopFree : ∀ v : Value, v.loopFree = true → v.Alike .loopFree v
  | .number n, _ => .number n
  | .string s, _ => .string s
  | .boolean b, _ => .boolean b
  | .list vs, h => .list (alike_of_loopFreeIn vs h)
  | .function _, h => .function ⟨rfl, rfl, ⟨rfl, h⟩, rfl, rfl⟩
  | .builtin b, _ => .builtin b
  | .none, _ => .none

theorem alike_of_loopFreeIn : ∀ vs : List Value, loopFreeIn vs = true →
    List.Forall₂ (Alike .loopFree) vs vs
  | [], _ => .nil
  | v :: vs, h => by
      rw [loopFreeIn, Bool.and_eq_true] at h
      exact .cons (alike_of_loopFree v h.1) (alike_of_loopFreeIn vs h.2)
end

/-- What is like something for loop-free code has none of its own in it. -/
theorem Alike.loopFree {v w : Value} (h : v.Alike .loopFree w) : v.loopFree = true := by
  refine h.forms (P := fun v _ => v.loopFree = true) (fun _ => rfl) (fun _ => rfl) (fun _ => rfl)
    ?_ (fun f g hfg => hfg.body.2) (fun _ => rfl) rfl
  intro vs ws hvs
  show loopFreeIn vs = true
  induction hvs with
  | nil => rfl
  | cons hv _ ih => rw [loopFreeIn, hv, ih, Bool.and_self]

/-- Loop-free values are those like themselves. -/
theorem loopFree_iff {v : Value} : v.loopFree = true ↔ v.Alike .loopFree v :=
  ⟨alike_of_loopFree v, Alike.loopFree⟩

/-- All of the values in a list are loop-free if the list is like itself. -/
theorem forall_loopFree_iff {vs : List Value} :
    (∀ v ∈ vs, v.loopFree = true) ↔ List.Forall₂ (Alike .loopFree) vs vs := by
  rw [List.forall₂_same]
  simp only [loopFree_iff]

/-! ## Operators and builtins -/

variable {v w u : Value}

/-- Operators make no loops: alike operands give alike results. -/
theorem loopFree_of_apply {op : BinaryOp} (hv : v.loopFree = true) (hw : w.loopFree = true)
    (h : op.apply v w = .ok u) : u.loopFree = true := by
  have hop := alike_apply Likeness.faithful_loopFree op (loopFree_iff.mp hv) (loopFree_iff.mp hw)
  rw [h] at hop
  cases hop with
  | ok hu => exact hu.loopFree

theorem loopFree_of_unary {op : UnaryOp} (hv : v.loopFree = true) (h : op.apply v = .ok u) :
    u.loopFree = true := by
  have hop := alike_unary op (loopFree_iff.mp hv)
  rw [h] at hop
  cases hop with
  | ok hu => exact hu.loopFree

/-- The items of a loop-free list, or of another iterable value, are loop-free. -/
theorem loopFree_of_items {vs : List Value} (hv : v.loopFree = true) (h : v.items = .ok vs) :
    ∀ u ∈ vs, u.loopFree = true := by
  have hitems := alike_items (loopFree_iff.mp hv)
  rw [h] at hitems
  cases hitems with
  | ok hvs => exact forall_loopFree_iff.mpr hvs

end Value

/-! ## Hosts -/

/-- A host that brings no while loops in: its registry holds none, and its own
builtins make none of arguments that have none. -/
structure Host.LoopFree (host : Host) : Prop where
  registry : ∀ name v, Bindings.lookup name host.registry = some v → v.loopFree = true
  foreign : ∀ name args v, (∀ a ∈ args, Value.loopFree a = true) →
    (host.foreign name args).answer = .ok v → v.loopFree = true

/-- No builtin of such a host makes a loop of values that have none. -/
theorem Host.LoopFree.reply {host : Host} (hhost : host.LoopFree) {b : Builtin}
    {args : List Value} (hargs : ∀ a ∈ args, a.loopFree = true) {v : Value}
    (h : (b.reply host.foreign args).answer = .ok v) : v.loopFree = true := by
  have hforeign : ∀ name, Reply.Alike .loopFree (host.foreign name args)
      (host.foreign name args) := by
    intro name
    refine ⟨rfl, ?_⟩
    cases hanswer : (host.foreign name args).answer with
    | ok u => exact .ok (Value.loopFree_iff.mp (hhost.foreign name args u hargs hanswer))
    | error e => exact .error trivial
  have hreply := Builtin.alike_reply hforeign b (Value.forall_loopFree_iff.mp hargs)
  have hanswer := hreply.answer
  rw [h] at hanswer
  cases hanswer with
  | ok hv => exact hv.loopFree

/-! ## Heaps -/

/-- No function that is bound in a scope has a while loop. -/
def Heap.LoopFree (h : Heap) : Prop :=
  ∀ id name v, (h.frame id).find? name = some v → v.loopFree = true

namespace Heap.LoopFree

variable {h : Heap} (hh : h.LoopFree)

include hh

/-- A new frame keeps a heap loop-free if its bindings are. -/
theorem add {f : Frame} (hf : ∀ name v, f.find? name = some v → v.loopFree = true) :
    (h.add f).LoopFree := by
  intro id name v hv
  rw [Heap.frame_add] at hv
  split at hv
  · exact hf name v hv
  · exact hh id name v hv

theorem newChild (parent : FrameId) : (h.newChild parent).LoopFree :=
  hh.add fun _ _ hv => by contradiction

/-- A binding of a loop-free value keeps a heap loop-free. -/
theorem define {v : Value} (hv : v.loopFree = true) (id : FrameId) (name : String) :
    (h.define id name v).LoopFree := by
  by_cases hid : id < h.nextId
  · intro other name' u hu
    rw [Heap.frame_define h id other name v hid] at hu
    split at hu
    · rw [Frame.find?_define] at hu
      split at hu
      · cases hu
        exact hv
      · exact hh other name' u hu
    · exact hh other name' u hu
  · rw [Heap.define_of_le name v (Nat.not_lt.mp hid)]
    exact hh

/-- What a scope of a loop-free heap binds is loop-free. -/
theorem get? {scope : FrameId} {name : String} {v : Value} (hv : h.get? scope name = some v) :
    v.loopFree = true := by
  obtain ⟨id, _, hid⟩ := List.exists_of_findSome?_eq_some hv
  exact hh id name v hid

/-- What a name reads as is loop-free, be it bound or registered. -/
theorem readName {host : Host} (hhost : host.LoopFree) {scope : FrameId} {name : String}
    {v : Value} (hv : Abacus.readName host h scope name = .ok v) : v.loopFree = true := by
  unfold Abacus.readName at hv
  cases hget : h.get? scope name with
  | some u =>
      rw [hget] at hv
      cases hv
      exact hh.get? hget
  | none =>
      rw [hget, Option.none_or] at hv
      cases hentry : Bindings.lookup name host.registry with
      | none =>
          rw [hentry] at hv
          contradiction
      | some u =>
          rw [hentry] at hv
          cases hv
          exact hhost.registry name _ hentry

/-- A function that can be called by its name has no while loop. -/
theorem calledName {host : Host} {scope : FrameId} {name : String} {f : Closure}
    (hf : Abacus.calledName host h scope name = .ok (.closure f)) :
    Stmt.loopFreeIn f.body = true := by
  unfold Abacus.calledName at hf
  split at hf
  · next callee hcallee =>
    cases hf
    obtain ⟨v, hget, hv⟩ := Option.bind_eq_some_iff.mp hcallee
    have hfree := hh.get? hget
    cases v with
    | function g =>
        cases hv
        exact hfree
    | _ => cases hv
  · -- what the registry has to call are builtins
    split at hf
    · cases hf
    · split at hf <;> cases hf

end Heap.LoopFree

end Abacus
