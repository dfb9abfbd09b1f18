import Abacus.Proofs.Eval.Renaming
import Abacus.Proofs.Eval.Scopes
import Abacus.Proofs.Session.Step

/-!
# Abacus.Proofs.Eval.Coherence

Nothing dangles.  A heap is `Coherent` if the scopes and closures that its
frames mention are scopes and closures of the heap.  This is the case exactly if
it is the same as some heap up to a renaming, so it is kept by every run on a
blind host; every `Reachable` machine has a coherent heap.
-/

namespace Abacus

/-- What is related to something is related to itself. -/
theorem forall₂_self {α β : Type} {R : α → β → Prop} {T : α → α → Prop} {xs : List α}
    {ys : List β} (h : List.Forall₂ R xs ys) (hT : ∀ x y, R x y → T x x) :
    List.Forall₂ T xs xs := by
  induction h with
  | nil => exact .nil
  | cons hxy _ ih => exact .cons (hT _ _ hxy) ih

/-- What is like something is like itself, up to what stands for something. -/
theorem Value.Alike.self {L L' : Likeness} {v u : Value} (h : v.Alike L u)
    (hscope : ∀ a b, L.scope a b → L'.scope a a)
    (hidentity : ∀ i j, L.identity i j → L'.identity i i)
    (hcode : ∀ b b', L.code b b' → L'.code b b) : v.Alike L' v := by
  refine h.forms .number .string .boolean ?_ ?_ .builtin .none
  · intro vs us hvs
    exact .list (forall₂_self hvs fun _ _ hv => hv)
  · intro f g hfg
    exact .function ⟨rfl, rfl, hcode _ _ hfg.body, hscope _ _ hfg.scope,
      hidentity _ _ hfg.identity⟩

/-! ## Coherent heaps -/

namespace Heap

/-- The renaming that keeps the scopes and closures of a heap. -/
def identity (h : Heap) : Renaming := ⟨.upTo h.nextId, .upTo h.closures⟩

/-- The closures in a value are closures of the heap, over scopes of it. -/
def Knows (h : Heap) (v : Value) : Prop := v.Alike h.identity.likeness v

/-- The scopes and closures that the frames of a heap mention are its own. -/
def Coherent (h : Heap) : Prop :=
  ∀ id < h.nextId, h.identity.Frames (h.frame id) (h.frame id)

/-- A scope that exists is matched with itself. -/
theorem mem_identity {h : Heap} {id : FrameId} (hid : id < h.nextId) : id ∈ h.identity.scopes id :=
  Matching.mem_upTo.mpr ⟨rfl, hid⟩

/-- A coherent heap is the same as every heap that it grows to. -/
theorem Coherent.heaps {h h' : Heap} (hh : h.Coherent) (hscopes : h.Grows .none h')
    (hclosures : h.closures ≤ h'.closures) : h.identity.Heaps h h' := by
  constructor
  · intro a b hab
    obtain ⟨rfl, hlt⟩ := Matching.mem_upTo.mp hab
    exact ⟨hlt, Nat.lt_of_lt_of_le hlt hscopes.nextId_le⟩
  · intro i j hij
    obtain ⟨rfl, hlt⟩ := Matching.mem_upTo.mp hij
    exact ⟨hlt, Nat.lt_of_lt_of_le hlt hclosures⟩
  · exact fun a ha => ⟨a, mem_identity ha⟩
  · intro a b hab
    obtain ⟨rfl, hlt⟩ := Matching.mem_upTo.mp hab
    have hkept : h'.frame a = h.frame a := hscopes.frame a hlt
    rw [hkept]
    exact hh a hlt

/-- A coherent heap is the same as itself under the identity. -/
theorem Coherent.heaps_self {h : Heap} (hh : h.Coherent) : h.identity.Heaps h h :=
  hh.heaps (.refl h) (Nat.le_refl _)

end Heap

namespace Renaming.Heaps

variable {w : Renaming} {h h' : Heap} (hh : w.Heaps h h')

include hh

/-- What is matched with anything exists. -/
theorem mem_identity {a b : FrameId} (hab : b ∈ w.scopes a) : a ∈ h.identity.scopes a :=
  Heap.mem_identity (hh.scopes_below a b hab).1

/-- A value that stands for another is over scopes that exist. -/
theorem knows {v v' : Value} (hv : v.Alike w.likeness v') : h.Knows v := by
  refine hv.self (fun _ _ => hh.mem_identity) (fun i j hij => ?_) (fun _ _ _ => rfl)
  exact Matching.mem_upTo.mpr ⟨rfl, (hh.closures_below i j hij).1⟩

/-- A heap that is the same as another is coherent. -/
theorem coherent : h.Coherent := by
  intro id hid
  obtain ⟨b, hb⟩ := hh.total id hid
  have hframe := hh.frame id b hb
  constructor
  · exact forall₂_self hframe.bindings fun _ _ hbind => ⟨rfl, hh.knows hbind.2⟩
  · exact forall₂_self hframe.outer fun _ _ hab => hh.mem_identity hab

/-- Closures that a renaming keeps are closures of the heap. -/
theorem closures_le {n : Nat} (hw : Matching.upTo n ≤ w.closures) : n ≤ h.closures := by
  by_contra hlt
  have hmem : h.closures ∈ Matching.upTo n h.closures :=
    Matching.mem_upTo.mpr ⟨rfl, Nat.lt_of_not_le hlt⟩
  have hbelow := hh.closures_below _ _ (hw _ _ hmem)
  exact Nat.lt_irrefl _ hbelow.1

end Renaming.Heaps

/-! ## Runs -/

/-- A run that respects renamings keeps heaps coherent, and it makes closures
only. -/
theorem Renaming.coherent_final {α : Type} {x : Run α} {A : Renaming → α → α → Prop} {m : Machine}
    (hm : m.heap.Coherent) (hx : (Renaming.pairing False).Follows m.heap.identity A x x) :
    (x.final m).heap.Coherent ∧ m.heap.closures ≤ (x.final m).heap.closures := by
  have h := hx m m ⟨hm.heaps_self, rfl, rfl, fun _ => rfl⟩
  unfold Run.final
  generalize x m = r at h
  cases h with
  | ok hw hm' _ => exact ⟨hm'.heap.coherent, hm'.heap.closures_le hw.2⟩
  | error hw hm' _ => exact ⟨hm'.heap.coherent, hm'.heap.closures_le hw.2⟩
  | left he => exact he.1.elim
  | right he => exact he.1.elim

/-- Runs on a blind host respect renamings. -/
theorem Renaming.paired_ofFuel {host : Host} (hhost : host.Blind) (free : Prop) (fuel : Nat) :
    (Renaming.pairing free).Paired (.ofFuel host fuel) (.ofFuel host fuel) :=
  (Renaming.lawful hhost free).paired_ofFuel rfl fuel

/-! ## Blind hosts -/

/-- A registry stays alike to itself as builtins are registered. -/
theorem Registry.alike_register (L : Likeness) (bs : List Builtin) (r : Registry)
    (hr : ∀ name, Option.Rel (Value.Alike L) (Bindings.lookup name r) (Bindings.lookup name r))
    (name : String) :
    Option.Rel (Value.Alike L) (Bindings.lookup name (bs.foldl register r))
      (Bindings.lookup name (bs.foldl register r)) := by
  induction bs generalizing r with
  | nil => exact hr name
  | cons b bs ih =>
      refine ih (r.register b) fun other => ?_
      rw [register, Bindings.lookup_put]
      split
      · exact .some (.builtin b)
      · exact hr other

/-- The standard library is blind to how closures are kept. -/
theorem Host.blind_of_standard {host : Host} (hregistry : host.registry = .standard)
    (hforeign : host.foreign = noForeign) : host.Blind := by
  constructor
  · intro L name
    rw [hregistry]
    refine Registry.alike_register L _ _ (fun other => ?_) name
    simp only [Registry.constant, Bindings.lookup_put]
    split
    · exact .some (.number _)
    · split
      · exact .some (.number _)
      · split
        · exact .some (.number _)
        · exact .none
  · intro L name args args' _ _
    rw [hforeign]
    exact alike_silent (.ok .none)

/-! ## Reachable machines -/

/-- The machines that a host and its programs can bring about: from a fresh one
on, nodes are run in scopes that exist, to any point; scopes and closures are
made, and names bound to values that are known.  Output and counters may be
any. -/
inductive Reachable (host : Host) : Machine → Prop
  | fresh (sink : Sink) : Reachable host (.fresh sink)
  | evaluate {m : Machine} (hm : Reachable host m) (fuel : Nat) (e : Expr) {scope : FrameId}
      (hs : scope < m.heap.nextId) : Reachable host ((evaluate host fuel e scope).final m)
  | execute {m : Machine} (hm : Reachable host m) (fuel : Nat) (s : Stmt) {scope : FrameId}
      (hs : scope < m.heap.nextId) : Reachable host ((execute host fuel s scope).final m)
  | newRoot {m : Machine} (hm : Reachable host m) :
      Reachable host { m with heap := m.heap.newRoot }
  | newChild {m : Machine} (hm : Reachable host m) {parent : FrameId}
      (hparent : parent < m.heap.nextId) : Reachable host { m with heap := m.heap.newChild parent }
  | define {m : Machine} (hm : Reachable host m) {scope : FrameId} (hs : scope < m.heap.nextId)
      (name : String) {v : Value} (hv : m.heap.Knows v) :
      Reachable host { m with heap := m.heap.define scope name v }
  | close {m : Machine} (hm : Reachable host m) (name : String) (params : List String)
      (body : List Stmt) {scope : FrameId} (hs : scope < m.heap.nextId) :
      Reachable host { m with heap := (m.heap.close name params body scope).2 }
  | resume {m : Machine} (hm : Reachable host m) (sink : Sink) (depth calls : Nat) :
      Reachable host ⟨m.heap, sink, depth, calls⟩

namespace Reachable

variable {host : Host} {m : Machine}

/-- Reachable machines are coherent. -/
theorem coherent (hhost : host.Blind) (hm : Reachable host m) : m.heap.Coherent := by
  induction hm with
  | fresh sink =>
      intro id hid
      obtain rfl : id = 0 := Nat.lt_one_iff.mp hid
      exact .empty _
  | evaluate _ fuel e hs ih =>
      have hself := Renaming.paired_ofFuel hhost False fuel
      exact (Renaming.coherent_final ih (hself.eval rfl (Heap.mem_identity hs))).1
  | execute _ fuel s hs ih =>
      have hself := Renaming.paired_ofFuel hhost False fuel
      exact (Renaming.coherent_final ih (hself.exec rfl (Heap.mem_identity hs))).1
  | newRoot _ ih =>
      obtain ⟨w, _, _, hheap⟩ := ih.heaps_self.add (.empty _)
      exact hheap.coherent
  | newChild _ hparent ih =>
      obtain ⟨w, _, _, hheap⟩ := ih.heaps_self.newChild (Heap.mem_identity hparent)
      exact hheap.coherent
  | define _ hs name hv ih =>
      exact (ih.heaps_self.define (Heap.mem_identity hs) name hv).coherent
  | close _ _ _ _ _ ih =>
      obtain ⟨w, _, _, hheap⟩ := ih.heaps_self.close
      exact hheap.coherent
  | resume _ _ _ _ ih => exact ih

/-- The global scope exists in every reachable machine. -/
theorem globals_lt (hm : Reachable host m) : globals < m.heap.nextId := by
  induction hm with
  | fresh sink => exact Nat.zero_lt_one
  | @evaluate m _ fuel e scope _ ih =>
      exact Nat.lt_of_lt_of_le ih (evaluate_scopes host fuel e scope m).nextId_le
  | @execute m _ fuel s scope _ ih =>
      exact Nat.lt_of_lt_of_le ih (execute_scopes host fuel s scope m).nextId_le
  | newRoot _ ih => exact Nat.lt_of_lt_of_le ih (Nat.le_of_lt (by simp [Heap.newRoot]))
  | newChild _ _ ih => exact Nat.lt_of_lt_of_le ih (by simp)
  | define _ _ _ _ ih => exact Nat.lt_of_lt_of_eq ih (Heap.nextId_define ..).symm
  | close _ _ _ _ _ ih => exact ih
  | resume _ _ _ _ ih => exact ih

/-! ## Sessions -/

/-- The law that reachable machines stay so. -/
def law (host : Host) : Machine → Machine → Prop := fun m m' => Reachable host m → Reachable host m'

instance : IsPreorder Machine (law host) where
  refl _ := id
  trans _ _ _ h h' hm := h' (h hm)

/-- The statements of a program keep a machine coherent. -/
theorem obeys_runProgram (fuel : Nat) (program : List Stmt) :
    (runProgram host fuel program).Obeys (law host) := by
  induction program with
  | nil => exact .pure ()
  | cons s rest ih =>
      have hs : (Abacus.execute host fuel s globals).Obeys (law host) := fun _ hm =>
        .execute hm fuel s hm.globals_lt
      exact hs.discard.bind fun _ => ih

/-- A step of a session keeps a machine coherent. -/
theorem obeys_step (fuel : Nat) (step : SessionStep) :
    (step.run host fuel).Obeys (law host) := by
  cases step with
  | program stmts => exact (obeys_runProgram fuel stmts).bind fun _ => .pure none
  | source text =>
      have hread : (readSource text).Obeys (law host) := by
        cases hparse : parseSource text with
        | ok program => exact readSource_of_ok hparse ▸ .pure program
        | error e => exact readSource_of_error hparse ▸ .fail (.source e)
      refine hread.bind fun program => (obeys_runProgram fuel _).bind fun _ => ?_
      cases (splitLast program).2 with
      | none => exact .pure none
      | some e =>
          have he : (Abacus.evaluate host fuel e globals).Obeys (law host) := fun _ hm =>
            .evaluate hm fuel e hm.globals_lt
          exact he.bind fun v => .pure (some v)

end Reachable

/-- The machines between the steps of a session are reachable. -/
theorem Session.reachable {host : Host} {m : Machine} (hm : Session host m) :
    Reachable host m := by
  induction hm with
  | fresh sink => exact .fresh sink
  | step _ step fuel _ ih => exact Reachable.obeys_step fuel step _ ih

end Abacus
