import Abacus.Proofs.Tree.Layers
import Abacus.Proofs.Value.Closures

/-!
# Abacus.Proofs.Eval.Forest

Scopes form a forest.  In a `Heap.Forest` the scope around a scope was made
before it, the closures that are bound anywhere are over scopes that exist, and
no scope is further than a given height from its root; so a search along the
enclosing links ends within that many steps (`Forest.seek_eq`).

The height is bounded by the shape of the programs that were run.  `Heap.Within`
is the invariant: besides the height of every scope it bounds, for every closure
that is bound, the height of the scope it is over and the blocks in its body
together.  It is kept by making scopes, binding names and closing functions.
-/

namespace Abacus

/-! ## Heights -/

/-- A scope may get other bindings, but not other surroundings. -/
def Effect.rooted : Effect := fun _ f g => g.outer = f.outer

instance (id : FrameId) : IsPreorder Frame (Effect.rooted id) where
  refl _ := rfl
  trans _ _ _ hfg hgh := hgh.trans hfg

namespace Heap

variable {h h' : Heap} {id : FrameId}

/-- The number of scopes on the way from a scope to its root, both included. -/
def height (h : Heap) (id : FrameId) : Nat := (h.chain id).length

theorem height_pos (h : Heap) (id : FrameId) : 0 < h.height id := Nat.succ_pos _

/-- A heap that grows keeps the chains of the scopes it had. -/
theorem chain_of_grows (hg : h.Grows .rooted h') (hid : id < h.nextId) :
    h'.chain id = h.chain id := by
  rw [chain, chain, show (h'.frame id).outer = _ from hg.frame id hid]

/-- A heap that grows keeps the heights of the scopes it had. -/
theorem height_of_grows (hg : h.Grows .rooted h') (hid : id < h.nextId) :
    h'.height id = h.height id := by
  rw [height, height, chain_of_grows hg hid]

/-- A new scope leaves the links of the others. -/
theorem grows_newChild (h : Heap) (parent : FrameId) : h.Grows .rooted (h.newChild parent) := by
  refine ⟨?_, fun id hid => ?_⟩
  · rw [nextId_newChild]
    exact Nat.le_succ _
  · rw [frame_newChild_of_lt parent hid]
    exact refl_of (Effect.rooted id) _

theorem frame_newChild_self (h : Heap) (parent : FrameId) :
    (h.newChild parent).frame h.nextId = ⟨[], h.chain parent⟩ := by
  rw [newChild, frame_add, if_pos rfl, chain]

/-- A new scope is one higher than its parent. -/
theorem height_newChild (h : Heap) (parent : FrameId) :
    (h.newChild parent).height h.nextId = h.height parent + 1 := by
  rw [height, chain, frame_newChild_self, List.length_cons, height]

/-! ## Searches -/

/-- Look a name up along the enclosing links, with a number of steps to spend: the
outer `none` says that they did not suffice. -/
def seek (h : Heap) : Nat → FrameId → String → Option (Option Value)
  | 0, _, _ => none
  | steps + 1, id, name =>
    match (h.frame id).find? name with
    | some v => some (some v)
    | none =>
      match (h.frame id).outer with
      | [] => some none
      | parent :: _ => h.seek steps parent name

/-- The scope around a scope was made before it. -/
def Linked (h : Heap) : Prop :=
  ∀ id < h.nextId, (h.frame id).outer = [] ∨ ∃ parent < id, (h.frame id).outer = h.chain parent

/-- In as many steps as a scope is high every name is looked up. -/
theorem Linked.seek_eq (hh : h.Linked) {steps : Nat} (hid : id < h.nextId)
    (hle : h.height id ≤ steps) (name : String) : h.seek steps id name = some (h.get? id name) := by
  induction steps generalizing id with
  | zero => exact absurd hle (Nat.not_le.mpr (h.height_pos id))
  | succ steps ih =>
      rw [seek, get?, chain, List.findSome?_cons]
      cases hown : (h.frame id).find? name with
      | some v => rfl
      | none =>
          obtain houter | ⟨parent, hlt, houter⟩ := hh id hid
          · rw [houter]
            rfl
          · have hheight : h.height id = h.height parent + 1 := by
              rw [height, chain, houter, List.length_cons, height]
            rw [houter]
            exact ih (Nat.lt_trans hlt hid) (by omega)

/-! ## Forests -/

/-- Scopes form a forest that is no higher than the given height. -/
structure Forest (h : Heap) (height : Nat) : Prop where
  /-- The scope around a scope was made before it. -/
  linked : h.Linked
  /-- A closure that is bound, in a list or not, is over a scope that exists. -/
  captured : ∀ id < h.nextId, ∀ b ∈ (h.frame id).bindings, ∀ f ∈ b.2.closures, f.scope < h.nextId
  height_le : ∀ id < h.nextId, h.height id ≤ height
  /-- A name is looked up in as many steps. -/
  seek_eq : ∀ id < h.nextId, ∀ name, h.seek height id name = some (h.get? id name)

end Heap

/-! ## The invariant -/

/-- The closure fits what is allowed: functions may be defined, the scope it is
over exists, and the blocks of its body can be opened on top of it. -/
structure Shape.Admits (X : Shape) (h : Heap) (f : Closure) : Prop where
  functions : X.functions = true
  scope_lt : f.scope < h.nextId
  blocks_le : h.height f.scope + Stmt.layersAll f.body ≤ X.blocks
  folds_le : Stmt.foldsAll f.body ≤ X.folds

/-- The closures in the value fit what is allowed. -/
def Shape.Knows (X : Shape) (h : Heap) (v : Value) : Prop := ∀ f ∈ v.closures, X.Admits h f

/-- The scopes are linked, and they and the closures bound in them keep to what is
allowed. -/
structure Heap.Within (X : Shape) (h : Heap) : Prop where
  linked : h.Linked
  height_le : ∀ id < h.nextId, h.height id ≤ 1 + X.blocks + X.folds
  known : ∀ id, ∀ b ∈ (h.frame id).bindings, X.Knows h b.2

variable {X : Shape} {h h' : Heap}

/-- What a closure is over stays as it is when the heap grows. -/
theorem Shape.Admits.grows {f : Closure} (hf : X.Admits h f) (hg : h.Grows .rooted h') :
    X.Admits h' f :=
  ⟨hf.functions, Nat.lt_of_lt_of_le hf.scope_lt hg.nextId_le,
    Heap.height_of_grows hg hf.scope_lt ▸ hf.blocks_le, hf.folds_le⟩

/-- Values that are known stay known when the heap grows. -/
theorem Shape.Knows.grows {v : Value} (hv : X.Knows h v) (hg : h.Grows .rooted h') : X.Knows h' v :=
  fun f hf => (hv f hf).grows hg

/-- A value without closures is always known. -/
theorem Shape.knows_of_eq_nil {v : Value} (hv : v.closures = []) : X.Knows h v := by
  intro f hf
  rw [hv] at hf
  contradiction

/-- A value in which nothing can be called is known. -/
theorem Shape.knows_of_plain {ε : Type} {r : Except ε Value} (hr : Value.Plain r) {v : Value}
    (hv : r = .ok v) : X.Knows h v := knows_of_eq_nil (hr.closures_eq_nil hv)

/-- After a binding there are the bindings that were there and the new one. -/
theorem Bindings.mem_put {name : String} {v : Value} {bs : Bindings} {b : String × Value}
    (hb : b ∈ Bindings.put name v bs) : b ∈ bs ∨ b.2 = v := by
  induction bs with
  | nil =>
      obtain rfl := List.mem_singleton.mp hb
      exact .inr rfl
  | cons c bs ih =>
      rw [put] at hb
      split at hb
      · obtain rfl | hb := List.mem_cons.mp hb
        · exact .inr rfl
        · exact .inl (List.mem_cons_of_mem c hb)
      · obtain rfl | hb := List.mem_cons.mp hb
        · exact .inl List.mem_cons_self
        · exact (ih hb).imp_left (List.mem_cons_of_mem c)

/-- What a name is bound to is among the bindings. -/
theorem Bindings.mem_of_lookup {name : String} {v : Value} {bs : Bindings}
    (hv : Bindings.lookup name bs = some v) : ∃ b ∈ bs, b.2 = v := by
  induction bs with
  | nil => contradiction
  | cons c bs ih =>
      rw [lookup] at hv
      split at hv
      · exact ⟨c, List.mem_cons_self, Option.some.inj hv⟩
      · obtain ⟨b, hb, hbv⟩ := ih hv
        exact ⟨b, List.mem_cons_of_mem c hb, hbv⟩

namespace Heap.Within

variable (hh : h.Within X)

include hh

/-- What a heap that keeps to a shape says of its scopes. -/
theorem forest : h.Forest (1 + X.blocks + X.folds) where
  linked := hh.linked
  captured id _ b hb f hf := (hh.known id b hb f hf).scope_lt
  height_le := hh.height_le
  seek_eq id hid := hh.linked.seek_eq hid (hh.height_le id hid)

/-- The links of scopes that were there are kept as scopes get other bindings. -/
theorem linked_of_grows (hg : h.Grows .rooted h') {id : FrameId} (hid : id < h.nextId) :
    (h'.frame id).outer = [] ∨ ∃ parent < id, (h'.frame id).outer = h'.chain parent := by
  rw [show (h'.frame id).outer = _ from hg.frame id hid]
  obtain houter | ⟨parent, hlt, houter⟩ := hh.linked id hid
  · exact .inl houter
  · exact .inr ⟨parent, hlt, houter.trans (chain_of_grows hg (Nat.lt_trans hlt hid)).symm⟩

/-- A new scope keeps the invariant if there is room for one more level. -/
theorem newChild {parent : FrameId} (hparent : parent < h.nextId)
    (hheight : h.height parent + 1 ≤ 1 + X.blocks + X.folds) : (h.newChild parent).Within X := by
  have hg := grows_newChild h parent
  refine ⟨fun id hid => ?_, fun id hid => ?_, fun id b hb => ?_⟩
  · rw [nextId_newChild] at hid
    obtain hlt | rfl := Nat.lt_succ_iff_lt_or_eq.mp hid
    · exact hh.linked_of_grows hg hlt
    · refine .inr ⟨parent, hparent, ?_⟩
      rw [frame_newChild_self, chain_of_grows hg hparent]
  · rw [nextId_newChild] at hid
    obtain hlt | rfl := Nat.lt_succ_iff_lt_or_eq.mp hid
    · rw [height_of_grows hg hlt]
      exact hh.height_le id hlt
    · rw [height_newChild]
      exact hheight
  · rw [Heap.newChild, frame_add] at hb
    split at hb
    · contradiction
    · exact (hh.known id b hb).grows hg

/-- A binding keeps it if the value is known. -/
theorem define {v : Value} (hv : X.Knows h v) (scope : FrameId) (name : String) :
    (h.define scope name v).Within X := by
  by_cases hlt : scope < h.nextId
  · have hg : h.Grows .rooted (h.define scope name v) := .define fun _ => rfl
    refine ⟨fun id hid => ?_, fun id hid => ?_, fun id b hb => ?_⟩
    · rw [nextId_define] at hid
      exact hh.linked_of_grows hg hid
    · rw [nextId_define] at hid
      rw [height_of_grows hg hid]
      exact hh.height_le id hid
    · rw [frame_define h scope id name v hlt] at hb
      split at hb
      · obtain hold | hnew := Bindings.mem_put hb
        · exact (hh.known id b hold).grows hg
        · rw [hnew]
          exact hv.grows hg
      · exact (hh.known id b hb).grows hg
  · rw [define_of_le name v (Nat.not_lt.mp hlt)]
    exact hh

/-! ## Names -/

/-- What a name is bound to is known. -/
theorem get? {scope : FrameId} {name : String} {v : Value} (hv : h.get? scope name = some v) :
    X.Knows h v := by
  obtain ⟨id, _, hid⟩ := List.exists_of_findSome?_eq_some hv
  obtain ⟨b, hb, rfl⟩ := Bindings.mem_of_lookup hid
  exact hh.known id b hb

/-- What a name reads as is known, if the host has no closures of its own. -/
theorem readName {host : Host} (hhost : host.Closureless) {scope : FrameId} {name : String}
    {v : Value} (hv : Abacus.readName host h scope name = .ok v) : X.Knows h v := by
  unfold Abacus.readName at hv
  split at hv
  · next u hu =>
    cases hv
    obtain hget | ⟨_, hentry⟩ := Option.or_eq_some_iff.mp hu
    · exact hh.get? hget
    · exact Shape.knows_of_eq_nil (hhost.registry name _ hentry)
  · contradiction

/-- A closure that can be called by its name fits what is allowed. -/
theorem calledName {host : Host} {scope : FrameId} {name : String} {f : Closure}
    (hf : Abacus.calledName host h scope name = .ok (.closure f)) : X.Admits h f := by
  unfold Abacus.calledName at hf
  split at hf
  · next callee hcallee =>
    cases hf
    obtain ⟨v, hget, hv⟩ := Option.bind_eq_some_iff.mp hcallee
    have hknows := hh.get? hget
    cases v with
    | function g =>
        cases hv
        exact hknows f List.mem_cons_self
    | _ => cases hv
  · -- what the registry has to call are builtins
    split at hf
    · cases hf
    · split at hf <;> cases hf

end Heap.Within

end Abacus
