import Abacus.Session
import Abacus.Proofs.Scope.Ascending

/-!
# Abacus.Proofs.Scope.Replay

Scopes and the operations that made them.  A `ScopeOp` makes a scope or binds a name in
one; what a list of operations says of scopes is read off the list alone: around which
scope each was made (`parents`), hence its chain of parents (`Lineage`), and the values
that a name was bound to in a scope (`writes`), the last of which counts.

`Heap.Records` says that a heap holds just that.  It is kept by every operation on scopes
that exist (`Records.apply`), so it holds of what a whole list of them makes
(`records_replay`), and reading and listing names come out as the list says
(`scopes_follow_operations`).
-/

namespace Abacus

/-! ## Operations -/

/-- Something done to scopes. -/
inductive ScopeOp where
  /-- Make a scope without surroundings. -/
  | root
  /-- Make a scope inside another. -/
  | child (parent : FrameId)
  /-- Bind a name in a scope. -/
  | define (scope : FrameId) (name : String) (v : Value)

namespace ScopeOp

/-- Do it. -/
def apply (h : Heap) : ScopeOp → Heap
  | root => h.newRoot
  | child parent => h.newChild parent
  | define scope name v => h.define scope name v

/-- Where so many scopes were made, the operation is on one of them. -/
def Allowed (made : Nat) : ScopeOp → Prop
  | root => True
  | child parent => parent < made
  | define scope _ _ => scope < made

instance (made : Nat) : DecidablePred (Allowed made)
  | root => inferInstanceAs (Decidable True)
  | child parent => inferInstanceAs (Decidable (parent < made))
  | define scope _ _ => inferInstanceAs (Decidable (scope < made))

/-- What is around the scope that the operation makes, if it makes one. -/
def made? : ScopeOp → Option (Option FrameId)
  | root => some none
  | child parent => some (some parent)
  | define _ _ _ => none

/-- The value that the operation binds the name to in the scope, if it does so. -/
def written? (scope : FrameId) (name : String) : ScopeOp → Option Value
  | define s n v => if s = scope ∧ n = name then some v else none
  | _ => none

end ScopeOp

/-- The scopes after the operations, starting from none. -/
def Heap.replay (ops : List ScopeOp) : Heap := ops.foldl ScopeOp.apply .empty

/-! ## What a list of operations says -/

/-- What is around each scope, in the order in which they are made. -/
def parents (ops : List ScopeOp) : List (Option FrameId) := ops.filterMap ScopeOp.made?

/-- The values that a name is bound to in a scope, in order. -/
def writes (ops : List ScopeOp) (scope : FrameId) (name : String) : List Value :=
  ops.filterMap (ScopeOp.written? scope name)

/-- Where so many scopes were made, every operation is on scopes made before it. -/
def Performable : Nat → List ScopeOp → Prop
  | _, [] => True
  | made, op :: ops => op.Allowed made ∧ Performable (made + (parents [op]).length) ops

instance : ∀ made ops, Decidable (Performable made ops)
  | _, [] => inferInstanceAs (Decidable True)
  | made, op :: ops =>
    have := instDecidablePerformable (made + (parents [op]).length) ops
    inferInstanceAs (Decidable (op.Allowed made ∧ Performable _ ops))

/-- The scope, its parent, the parent of that, and so on to the root. -/
inductive Lineage (ops : List ScopeOp) : FrameId → List FrameId → Prop
  | root {scope : FrameId} (h : (parents ops)[scope]? = some none) : Lineage ops scope [scope]
  | child {scope parent : FrameId} {chain : List FrameId}
      (h : (parents ops)[scope]? = some (some parent)) (hparent : Lineage ops parent chain) :
      Lineage ops scope (scope :: chain)

/-- The scope is the first of the chain in which the name was ever bound. -/
def Nearest (ops : List ScopeOp) (chain : List FrameId) (name : String) (scope : FrameId) : Prop :=
  ∃ nearer farther, chain = nearer ++ scope :: farther ∧
    (∀ i ∈ nearer, writes ops i name = []) ∧ writes ops scope name ≠ []

theorem parents_append (ops more : List ScopeOp) :
    parents (ops ++ more) = parents ops ++ parents more := List.filterMap_append

/-- Later operations write after earlier ones. -/
theorem writes_append (ops more : List ScopeOp) (scope : FrameId) (name : String) :
    writes (ops ++ more) scope name = writes ops scope name ++ writes more scope name :=
  List.filterMap_append

/-- Later operations may refer to the scopes that earlier ones made. -/
theorem performable_append {made : Nat} {ops more : List ScopeOp} :
    Performable made (ops ++ more) ↔
      Performable made ops ∧ Performable (made + (parents ops).length) more := by
  induction ops generalizing made with
  | nil => simp [Performable, parents]
  | cons op ops ih =>
      have hlength : (parents (op :: ops)).length =
          (parents [op]).length + (parents ops).length := by
        rw [← List.length_append, ← parents_append]
        rfl
      rw [List.cons_append, Performable, Performable, ih, hlength, and_assoc, Nat.add_assoc]

namespace Lineage

variable {ops : List ScopeOp} {scope : FrameId} {chain chain' : List FrameId}

/-- Later operations keep the parents of the scopes that there are. -/
theorem append (h : Lineage ops scope chain) (more : List ScopeOp) :
    Lineage (ops ++ more) scope chain := by
  have hold : ∀ {s : FrameId} {p : Option FrameId}, (parents ops)[s]? = some p →
      (parents (ops ++ more))[s]? = some p := by
    intro s p hs
    rw [parents_append]
    exact List.getElem?_append_left (List.getElem?_eq_some_iff.mp hs).1 |>.trans hs
  induction h with
  | root h => exact .root (hold h)
  | child h _ ih => exact .child (hold h) ih

/-- A lineage depends on how scopes were made only. -/
theorem of_parents_eq {ops' : List ScopeOp} (h : Lineage ops scope chain)
    (heq : parents ops' = parents ops) : Lineage ops' scope chain := by
  induction h with
  | root h => exact .root (heq ▸ h)
  | child h _ ih => exact .child (heq ▸ h) ih

/-- Only a scope that was made has a lineage. -/
theorem lt_length (h : Lineage ops scope chain) : scope < (parents ops).length := by
  cases h with
  | root h => exact (List.getElem?_eq_some_iff.mp h).1
  | child h _ => exact (List.getElem?_eq_some_iff.mp h).1

/-- A scope has one lineage only. -/
theorem unique (h : Lineage ops scope chain) (h' : Lineage ops scope chain') : chain = chain' := by
  induction h generalizing chain' with
  | root h =>
      cases h' with
      | root => rfl
      | child h' _ => simp [h] at h'
  | child h _ ih =>
      cases h' with
      | root h' => simp [h] at h'
      | child h' hparent =>
          obtain rfl := Option.some.inj (Option.some.inj (h.symm.trans h'))
          rw [ih hparent]

end Lineage

/-! ## Heaps with their operations -/

/-- The heap holds what the operations say. -/
structure Heap.Records (h : Heap) (ops : List ScopeOp) : Prop where
  nextId_eq : h.nextId = (parents ops).length
  lineage : ∀ id < h.nextId, Lineage ops id (h.chain id)
  find?_eq : ∀ id name, (h.frame id).find? name = (writes ops id name).getLast?
  distinct : ∀ id, (h.frame id).bindings.Distinct

namespace Heap

variable {h : Heap} {ops : List ScopeOp} {op : ScopeOp}

/-- No frame is left behind where no scope was made. -/
theorem frame_of_le {id : FrameId} (hid : h.nextId ≤ id) : h.frame id = .empty := by
  rw [frame, Array.getD_eq_getD_getElem?, Array.getElem?_eq_none hid, Option.getD_none]

/-- A scope that is added binds no name, as none did before. -/
theorem bindings_frame_add (h : Heap) (outer : List FrameId) (id : FrameId) :
    ((h.add ⟨[], outer⟩).frame id).bindings = (h.frame id).bindings := by
  rw [frame_add]
  split
  · next heq => rw [frame_of_le (Nat.le_of_eq heq.symm), Frame.empty]
  · rfl

namespace Records

/-- The empty heap records no operations. -/
theorem empty : Heap.empty.Records [] := by
  have hframe : ∀ id, Heap.empty.frame id = .empty := fun id => frame_of_le (Nat.zero_le id)
  refine ⟨rfl, fun id hid => absurd hid (Nat.not_lt_zero id), fun id name => ?_, fun id => ?_⟩
  · rw [hframe]
    rfl
  · rw [hframe]
    exact Bindings.distinct_nil

/-- Adding a scope inside of what is around it. -/
theorem add {outer : List FrameId} (hr : h.Records ops) {parent? : Option FrameId}
    (hop : op.made? = some parent?) (hwritten : ∀ id name, op.written? id name = none)
    (hlineage : Lineage (ops ++ [op]) h.nextId (h.nextId :: outer)) :
    (h.add ⟨[], outer⟩).Records (ops ++ [op]) := by
  have hbindings := bindings_frame_add h outer
  refine ⟨?_, fun id hid => ?_, fun id name => ?_, fun id => ?_⟩
  · rw [nextId_add, hr.nextId_eq, parents_append, List.length_append]
    simp [parents, hop]
  · rw [nextId_add] at hid
    rw [chain, frame_add]
    split
    · next heq =>
      rw [heq]
      exact hlineage
    · next hne =>
      have hlt : id < h.nextId := Nat.lt_of_le_of_ne (Nat.le_of_lt_succ hid) hne
      exact (hr.lineage id hlt).append [op]
  · rw [writes_append, show writes [op] id name = [] by simp [writes, hwritten], List.append_nil,
      ← hr.find?_eq, Frame.find?, hbindings, Frame.find?]
  · rw [hbindings]
    exact hr.distinct id

/-- Every operation on scopes that exist is recorded. -/
theorem apply (hr : h.Records ops) (hop : op.Allowed h.nextId) :
    (op.apply h).Records (ops ++ [op]) := by
  have hnew : ∀ parent?, op.made? = some parent? →
      (parents (ops ++ [op]))[h.nextId]? = some parent? := by
    intro parent? hmade
    rw [parents_append, hr.nextId_eq, List.getElem?_append_right (Nat.le_refl _), Nat.sub_self]
    simp [parents, hmade]
  cases op with
  | root => exact hr.add rfl (fun _ _ => rfl) (.root (hnew none rfl))
  | child parent =>
      refine hr.add rfl (fun _ _ => rfl) (.child (hnew (some parent) rfl) ?_)
      exact (hr.lineage parent hop).append _
  | define scope name v =>
      have hframe := fun id => frame_define h scope id name v hop
      refine ⟨?_, fun id hid => ?_, fun id other => ?_, fun id => ?_⟩
      · show (h.define scope name v).nextId = _
        rw [nextId_define, hr.nextId_eq, parents_append]
        simp [parents, ScopeOp.made?]
      · rw [ScopeOp.apply, nextId_define] at hid
        have hchain : (h.define scope name v).chain id = h.chain id := by
          rw [chain, chain, hframe]
          split <;> rfl
        show Lineage _ id ((h.define scope name v).chain id)
        rw [hchain]
        exact (hr.lineage id hid).append _
      · show ((h.define scope name v).frame id).find? other = _
        rw [hframe, writes_append, apply_ite (Frame.find? · other), Frame.find?_define,
          hr.find?_eq]
        by_cases hid : scope = id <;> by_cases hname : name = other <;>
          simp [writes, ScopeOp.written?, hid, hname]
      · show ((h.define scope name v).frame id).bindings.Distinct
        rw [hframe]
        split
        · exact (hr.distinct id).put name v
        · exact hr.distinct id

/-- So are operations one after the other. -/
theorem foldl {more : List ScopeOp} (hr : h.Records ops) (hmore : Performable h.nextId more) :
    (more.foldl ScopeOp.apply h).Records (ops ++ more) := by
  induction more generalizing h ops with
  | nil =>
      rw [List.append_nil]
      exact hr
  | cons op more ih =>
      obtain ⟨hop, hmore⟩ := hmore
      have hnext := hr.apply hop
      rw [List.append_cons, List.foldl_cons]
      refine ih hnext ?_
      rwa [hnext.nextId_eq, parents_append, List.length_append, ← hr.nextId_eq]

end Records

/-- What operations on scopes made before make of none is recorded. -/
theorem records_replay (hops : Performable 0 ops) : (replay ops).Records ops :=
  Records.empty.foldl hops

/-! ## Reading -/

namespace Records

section reading

variable (hr : h.Records ops) {scope : FrameId} {chain : List FrameId}
  (hchain : Lineage ops scope chain) (name : String)

include hr hchain

/-- A name reads as its last binding in the nearest scope of the chain that has one. -/
theorem get?_eq :
    h.get? scope name = chain.findSome? fun i => (writes ops i name).getLast? := by
  have hid : scope < h.nextId := hr.nextId_eq ▸ hchain.lt_length
  rw [get?, (hr.lineage scope hid).unique hchain]
  simp only [hr.find?_eq]

/-- A name reads as the last value it was bound to in the nearest scope of the chain
that binds it. -/
theorem get?_eq_some_iff {v : Value} :
    h.get? scope name = some v ↔
      ∃ t, Nearest ops chain name t ∧ (writes ops t name).getLast? = some v := by
  rw [hr.get?_eq hchain, List.findSome?_eq_some_iff]
  simp only [List.getLast?_eq_none_iff]
  constructor
  · rintro ⟨nearer, t, farther, heq, hv, hnearer⟩
    have hne : writes ops t name ≠ [] := fun hnil => by simp [hnil] at hv
    exact ⟨t, ⟨nearer, farther, heq, hnearer, hne⟩, hv⟩
  · rintro ⟨t, ⟨nearer, farther, heq, hnearer, _⟩, hv⟩
    exact ⟨nearer, t, farther, heq, hv, hnearer⟩

/-- A name does not read if no scope of the chain binds it. -/
theorem get?_eq_none_iff : h.get? scope name = none ↔ ∀ t ∈ chain, writes ops t name = [] := by
  rw [hr.get?_eq hchain, List.findSome?_eq_none_iff]
  simp only [List.getLast?_eq_none_iff]

end reading

/-- A scope binds a name itself exactly if the name was ever bound in it. -/
theorem hasOwn_iff (hr : h.Records ops) (scope : FrameId) (name : String) :
    h.hasOwn scope name = true ↔ writes ops scope name ≠ [] := by
  rw [hasOwn, hr.find?_eq, List.getLast?_isSome]

/-- A scope lists the last binding of each name. -/
theorem mem_snapshot_iff (hr : h.Records ops) (scope : FrameId) (name : String) (v : Value) :
    (name, v) ∈ h.snapshot scope ↔ (writes ops scope name).getLast? = some v := by
  rw [snapshot, Frame.snapshot, Bindings.mem_sorted, (hr.distinct scope).mem_iff, ← Frame.find?,
    hr.find?_eq]

/-- A listing is in the order of names, each of them once. -/
theorem pairwise_snapshot (hr : h.Records ops) (scope : FrameId) :
    (h.snapshot scope).Pairwise fun a b => a.1 < b.1 := (hr.distinct scope).pairwise_sorted

end Records

end Heap

/-! ## One binding -/

/- What one binding changes is found by leaving it out: the scopes are the same, and so are
the values of all other names.  It is seen exactly from the scopes whose chain reaches it
before any other scope that has the name. -/

section binding

variable {past future : List ScopeOp} {scope : FrameId} {name : String} {v : Value}

/-- Leaving out a binding makes the same scopes. -/
theorem parents_remove_define :
    parents (past ++ future) = parents (past ++ .define scope name v :: future) := by
  rw [parents_append, parents_append]
  rfl

/-- A binding makes no scope, so what follows may follow without it. -/
theorem performable_remove_define {made : Nat}
    (h : Performable made (past ++ .define scope name v :: future)) :
    Performable made (past ++ future) := by
  obtain ⟨hpast, _, hfuture⟩ := performable_append.mp h
  exact performable_append.mpr ⟨hpast, hfuture⟩

/-- Leaving out a binding leaves out no value of another name or scope. -/
theorem writes_remove_define {s : FrameId} {other : String} (hne : ¬ (s = scope ∧ other = name)) :
    writes (past ++ future) s other = writes (past ++ .define scope name v :: future) s other := by
  have hwritten : ScopeOp.written? s other (.define scope name v) = none :=
    if_neg fun h => hne ⟨h.1.symm, h.2.symm⟩
  simp [writes, hwritten]

theorem writes_define_ne_nil : writes (past ++ .define scope name v :: future) scope name ≠ [] := by
  simp [writes, ScopeOp.written?]

/-- The last binding of a name in a scope is the one after which there is no other. -/
theorem getLast?_writes_define (hfuture : writes future scope name = []) :
    (writes (past ++ .define scope name v :: future) scope name).getLast? = some v := by
  have hone : writes [.define scope name v] scope name = [v] := by simp [writes, ScopeOp.written?]
  rw [List.append_cons, writes_append, hfuture, List.append_nil, writes_append, hone,
    List.getLast?_concat]

/-- Two searches that differ at one element only find the same if something is found
before that element. -/
theorem findSome?_eq_of_hidden {α β : Type} {f g : α → Option β} {l : List α} {a : α}
    (hagree : ∀ b, b ≠ a → f b = g b)
    (hhidden : ∀ before after, l = before ++ a :: after → ∃ b ∈ before, f b ≠ none) :
    l.findSome? f = l.findSome? g := by
  induction l with
  | nil => rfl
  | cons b l ih =>
      have hne : b ≠ a := by
        rintro rfl
        obtain ⟨_, hmem, _⟩ := hhidden [] l rfl
        contradiction
      rw [List.findSome?_cons, List.findSome?_cons, hagree b hne]
      cases hb : g b with
      | some v => rfl
      | none =>
          refine ih fun before after heq => ?_
          obtain ⟨c, hmem, hc⟩ := hhidden (b :: before) after (heq ▸ rfl)
          obtain rfl | hmem := List.mem_cons.mp hmem
          · exact absurd ((hagree c hne).trans hb) hc
          · exact ⟨c, hmem, hc⟩

/-- The binding is not seen from where its scope is not the nearest with the name. -/
theorem findSome?_writes_remove_define {chain : List FrameId}
    (hnot : ¬ Nearest (past ++ .define scope name v :: future) chain name scope) :
    (chain.findSome? fun i =>
        (writes (past ++ .define scope name v :: future) i name).getLast?) =
      chain.findSome? fun i => (writes (past ++ future) i name).getLast? := by
  refine findSome?_eq_of_hidden (a := scope) (fun i hi => ?_) fun nearer farther heq => ?_
  · rw [← writes_remove_define fun h => hi h.1]
  · refine Classical.byContradiction fun hall => hnot ⟨nearer, farther, heq, ?_, ?_⟩
    · simpa only [not_exists, not_and, Classical.not_not, ne_eq, List.getLast?_eq_none_iff]
        using hall
    · exact writes_define_ne_nil

end binding

/-- **Scopes are what was done to them.**  After any operations, each on scopes that were
made before it, every scope has a chain of parents.  In a scope a name has the value of its
last binding in the nearest scope of the chain in which it was ever bound, and is absent
exactly if it was bound in none of them.  The scope itself has exactly the names that were
bound in it, and lists the last binding of each in ascending order of names; so does a
session for its outermost scope.

Hence a binding that is not overwritten is seen, by scopes made before it and after it, from
exactly those whose nearest scope with the name is that of the binding: there the name has
its value, while from elsewhere, and for other names, all is as if it had not been made. -/
theorem scopes_follow_operations {ops : List ScopeOp} (hops : Performable 0 ops) :
    let h := Heap.replay ops
    (∀ scope < (parents ops).length, ∃ chain, Lineage ops scope chain) ∧
    (∀ scope chain, Lineage ops scope chain →
      (∀ name v, h.get? scope name = some v ↔
        ∃ t, Nearest ops chain name t ∧ (writes ops t name).getLast? = some v) ∧
      (∀ name, h.get? scope name = none ↔ ∀ t ∈ chain, writes ops t name = []) ∧
      (∀ name, h.hasOwn scope name = true ↔ writes ops scope name ≠ []) ∧
      (∀ name v, (name, v) ∈ h.snapshot scope ↔ (writes ops scope name).getLast? = some v) ∧
      (h.snapshot scope).Pairwise fun a b => a.1 < b.1) ∧
    (∀ m : Machine, m.heap = h → ∀ name v,
      (name, v) ∈ m.globalBindings ↔ (writes ops globals name).getLast? = some v) ∧
    ∀ past scope name v future, ops = past ++ .define scope name v :: future →
      writes future scope name = [] → ∀ s chain, Lineage ops s chain →
        (Nearest ops chain name scope → h.get? s name = some v) ∧
        ∀ other, ¬ (other = name ∧ Nearest ops chain name scope) →
          h.get? s other = (Heap.replay (past ++ future)).get? s other := by
  intro h
  have hr : h.Records ops := Heap.records_replay hops
  refine ⟨fun scope hscope => ⟨_, hr.lineage scope (hr.nextId_eq ▸ hscope)⟩,
    fun scope chain hchain => ⟨fun name v => hr.get?_eq_some_iff hchain name,
      fun name => hr.get?_eq_none_iff hchain name, hr.hasOwn_iff scope,
      hr.mem_snapshot_iff scope, hr.pairwise_snapshot scope⟩, ?_, ?_⟩
  · intro m hm name v
    rw [Machine.globalBindings, hm]
    exact hr.mem_snapshot_iff globals name v
  · rintro past scope name v future rfl hfuture s chain hchain
    have hr' := Heap.records_replay (performable_remove_define hops)
    have hchain' := hchain.of_parents_eq parents_remove_define
    refine ⟨fun hnearest => ?_, fun other hother => ?_⟩
    · exact (hr.get?_eq_some_iff hchain name).mpr
        ⟨scope, hnearest, getLast?_writes_define hfuture⟩
    · rw [hr.get?_eq hchain, hr'.get?_eq hchain']
      by_cases hname : other = name
      · subst hname
        exact findSome?_writes_remove_define fun hnearest => hother ⟨rfl, hnearest⟩
      · have hsame : ∀ i, writes (past ++ future) i other =
            writes (past ++ .define scope name v :: future) i other :=
          fun i => writes_remove_define fun hi => hname hi.2
        simp only [hsame]

/-- A name is bound again in the root, after there are scopes inside it.  The scope two
levels down sees the new value; the one that binds the name itself does not, nor does the
one made inside that later. -/
theorem scopes_follow_operations_shadowed :
    let past : List ScopeOp :=
      [.root, .child 0, .child 0, .child 1, .define 0 "x" (.string "a"),
        .define 2 "x" (.string "b")]
    let ops := past ++ .define 0 "x" (.string "c") :: [.child 2]
    let h := Heap.replay ops
    Performable 0 ops ∧ Lineage ops 3 [3, 1, 0] ∧ Lineage ops 4 [4, 2, 0] ∧
      h.get? 3 "x" = some (.string "c") ∧ h.get? 4 "x" = some (.string "b") ∧
      h.get? 3 "y" = none ∧ h.hasOwn 3 "x" ≠ true ∧ ("x", .string "c") ∈ h.snapshot 0 := by
  intro past ops h
  have hops : Performable 0 ops := by decide
  have hinner : Lineage ops 3 [3, 1, 0] := .child rfl (.child rfl (.root rfl))
  have hlater : Lineage ops 4 [4, 2, 0] := .child rfl (.child rfl (.root rfl))
  obtain ⟨_, hscopes, _, hbinding⟩ := scopes_follow_operations hops
  obtain ⟨_, habsent, hown, _, _⟩ := hscopes 3 _ hinner
  obtain ⟨hvalue, _, _, _, _⟩ := hscopes 4 _ hlater
  obtain ⟨_, _, _, hlisted, _⟩ := hscopes 0 [0] (.root rfl)
  obtain ⟨hseen, _⟩ := hbinding past 0 "x" (.string "c") [.child 2] rfl rfl 3 _ hinner
  have hempty : ∀ t ∈ [3, 1], writes ops t "x" = [] :=
    List.forall_mem_cons.mpr ⟨rfl, List.forall_mem_singleton.mpr rfl⟩
  have hnothing : ∀ t ∈ [3, 1, 0], writes ops t "y" = [] :=
    List.forall_mem_cons.mpr ⟨rfl, List.forall_mem_cons.mpr ⟨rfl,
      List.forall_mem_singleton.mpr rfl⟩⟩
  have hnearer : Nearest ops [4, 2, 0] "x" 2 :=
    ⟨[4], [0], rfl, List.forall_mem_singleton.mpr rfl, List.cons_ne_nil _ _⟩
  refine ⟨hops, hinner, hlater, hseen ⟨[3, 1], [], rfl, hempty, List.cons_ne_nil _ _⟩,
    (hvalue "x" _).mpr ⟨2, hnearer, rfl⟩, (habsent "y").mpr hnothing,
    fun h => (hown "x").mp h rfl, (hlisted "x" _).mpr rfl⟩

end Abacus
