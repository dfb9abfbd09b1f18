import Abacus.Proofs.Session.Repeat

/-!
# Abacus.Proofs.Session.Passes

The same run, several times over.  A loop over items and a fold over integers make
passes: they bind a variable to one value after the other, and each time run the
same code.  What a pass leaves behind is the binding of the variable, which the
next pass replaces, and scopes and closures that no earlier scope mentions.  So a
pass after others ends as it does alone (`Passes.endsSame`), with the same output.
-/

namespace Abacus

variable {α β ι : Type} {m m' : Machine} {scope : FrameId} {A : Likeness → α → α → Prop}

/-! ## The same ends -/

/-- Two results with values that stand for each other, where what was there before
stands for itself, or with the same error. -/
inductive SameResult (A : Likeness → α → β → Prop) (w : Renaming) :
    EStateM.Result Stop Machine α → EStateM.Result Stop Machine β → Prop
  | ok {w' : Renaming} {a : α} {b : β} {m m' : Machine} (hw : w ≤ w') (h : A w'.likeness a b) :
      SameResult A w (.ok a m) (.ok b m')
  | error (e : Stop) (m m' : Machine) : SameResult A w (.error e m) (.error e m')

namespace SameResult

variable {A : Likeness → α → β → Prop} {w w' : Renaming} {r : EStateM.Result Stop Machine α}
  {r' : EStateM.Result Stop Machine β}

/-- The same result in a world is one in an earlier world. -/
theorem earlier (hw : w' ≤ w) (h : SameResult A w r r') : SameResult A w' r r' := by
  cases h with
  | ok hw' h => exact .ok (le_trans hw hw') h
  | error e m m' => exact .error e m m'

/-- Runs with the same result are both finished or neither. -/
theorem finished_iff (h : SameResult A w r r') : Finished r ↔ Finished r' := by
  cases h with
  | ok _ _ => exact ⟨fun _ => finished_ok _ _, fun _ => finished_ok _ _⟩
  | error e m m' => cases e <;> simp [Finished]

/-- The result does not lie in the sink. -/
theorem withSink (h : SameResult A w r r') (sink : Sink) :
    SameResult A w r (Result.withSink r' sink) := by
  cases h with
  | ok hw h => exact .ok hw h
  | error e m m' => exact .error e m _

end SameResult

/-- The run from the machine to the result appended the bytes to the output. -/
def Appends (m : Machine) (r : EStateM.Result Stop Machine α) (w : ByteArray) : Prop :=
  (Result.machine r).sink = .endless (m.sink.written ++ w)

/-- Two runs from two machines end in the same way: the one ends exactly if the
other does, and then they have the same result and append the same bytes. -/
structure EndsSame (A : Likeness → α → β → Prop) (x : Nat → Run α) (m : Machine) (y : Nat → Run β)
    (m' : Machine) : Prop where
  ends : (∃ r, Ends x m r) ↔ ∃ r', Ends y m' r'
  result : ∀ r r', Ends x m r → Ends y m' r' → SameResult A m.heap.identity r r'
  output : ∀ r r', Ends x m r → Ends y m' r' → ∃ w, Appends m r w ∧ Appends m' r' w

/-! ## Repeatable runs -/

/-- A machine where nothing dangles and whose sink takes everything. -/
structure Machine.Ample (m : Machine) : Prop where
  coherent : m.heap.Coherent
  sink : m.sink = .endless m.sink.written

/-- A run in a scope that changes no scope that is there, and sees neither what
the machine has grown by nor where it writes. -/
structure Repeatable (scope : FrameId) (A : Likeness → α → α → Prop) (x : Nat → Run α) :
    Prop where
  steady : Steady x
  follows : ∀ {w : Renaming}, scope ∈ w.scopes scope → ∀ fuel,
    (Renaming.pairing False).Follows w (fun w => A w.likeness) (x fuel) (x fuel)
  scopes : ∀ fuel, (x fuel).Obeys Effect.none.law
  counters : ∀ fuel m, ((x fuel).final m).counters = m.counters
  prints : ∀ fuel m, ∃ o, (x fuel).Prints m o

/-- On a sink that takes everything a run appends its bytes. -/
theorem Run.Prints.result_eq {x : Run α} {o : Output α} (h : x.Prints m o)
    (hsink : m.sink = .endless m.sink.written) :
    x m = Result.withSink o.result (.endless (m.sink.written ++ o.bytes)) := by
  rw [← h.endless, ← hsink, Machine.withSink_self]

namespace Repeatable

variable {x : Nat → Run α} (hx : Repeatable scope A x)

include hx

/-- An ample machine stays so when a run changes no scope that exists. -/
theorem ample_final (hm : m.Ample) (hs : scope < m.heap.nextId) (fuel : Nat) :
    ((x fuel).final m).Ample ∧ m.Grows ((x fuel).final m) := by
  obtain ⟨hcoherent, hgrows⟩ := grows_final (hx.scopes fuel) (hx.counters fuel m) hm.coherent
    (hx.follows (Heap.mem_identity hs) fuel)
  obtain ⟨o, ho⟩ := hx.prints fuel m
  have hsink : ((x fuel).final m).sink = .endless (m.sink.written ++ o.bytes) := by
    rw [Run.final_eq_machine, ho.result_eq hm.sink, Result.machine_withSink, Machine.withSink_sink]
  refine ⟨⟨hcoherent, ?_⟩, hgrows⟩
  rw [hsink]
  rfl

theorem ample_of_ends (hm : m.Ample) (hs : scope < m.heap.nextId) {a : α}
    (h : Ends x m (.ok a m')) : m'.Ample ∧ m.Grows m' := by
  obtain ⟨fuel, hrun, _⟩ := h
  have hfinal := hx.ample_final hm hs fuel
  rwa [Run.final_of_ok hrun] at hfinal

/-- From a machine that has grown the run has the same result and appends the same. -/
theorem same_of_grows (hm : m.Ample) (hs : scope < m.heap.nextId) (hg : m.Grows m')
    (hsink : m'.sink = .endless m'.sink.written) (fuel : Nat) :
    SameResult A m.heap.identity (x fuel m) (x fuel m') ∧
      ∃ w, Appends m (x fuel m) w ∧ Appends m' (x fuel m') w := by
  obtain ⟨o, ho⟩ := hx.prints fuel m
  obtain ⟨o', ho'⟩ := hx.prints fuel m'
  have hfirst := ho.result_eq hm.sink
  have hsecond := ho'.result_eq hsink
  -- the second run with the output put back agrees with the first
  have hback : x fuel (m'.withSink m.sink) =
      Result.withSink o'.result (.endless (m.sink.written ++ o'.bytes)) := by
    rw [← ho'.endless, ← hm.sink]
  have hmachines : Renaming.Machines False m.heap.identity m (m'.withSink m.sink) :=
    ⟨hm.coherent.heaps hg.scopes hg.closures, (congrArg Counters.depth hg.counters).symm,
      (congrArg Counters.calls hg.counters).symm, fun _ => rfl⟩
  have hagree := hx.follows (Heap.mem_identity hs) fuel _ _ hmachines
  have hsame : SameResult A m.heap.identity (x fuel m) (x fuel (m'.withSink m.sink)) ∧
      (Result.machine (x fuel m)).sink = (Result.machine (x fuel (m'.withSink m.sink))).sink := by
    generalize x fuel m = r, x fuel (m'.withSink m.sink) = r' at hagree
    cases hagree with
    | ok hw hm h => exact ⟨.ok hw h, hm.sink id⟩
    | error hw hm he =>
        obtain rfl : _ = _ := he
        exact ⟨.error _ _ _, hm.sink id⟩
    | left he => exact he.1.elim
    | right he => exact he.1.elim
  have hbytes : o.bytes = o'.bytes := by
    have hsinks := hsame.2
    rw [hfirst, hback, Result.machine_withSink, Result.machine_withSink] at hsinks
    exact (ByteArray.append_right_inj _).mp (congrArg Sink.written hsinks)
  refine ⟨?_, o.bytes, ?_, ?_⟩
  · rw [hsecond, ← Result.withSink_withSink o'.result, ← hback]
    exact hsame.1.withSink _
  · rw [Appends, hfirst, Result.machine_withSink, Machine.withSink_sink]
  · rw [Appends, hsecond, Result.machine_withSink, Machine.withSink_sink, hbytes]

/-- A run from a machine and from a later one that has grown ends in the same way. -/
theorem endsSame (hm : m.Ample) (hs : scope < m.heap.nextId) (hg : m.Grows m')
    (hsink : m'.sink = .endless m'.sink.written) : EndsSame A x m x m' := by
  have hsame := hx.same_of_grows hm hs hg hsink
  -- both runs have their results with the larger of the two amounts of fuel
  have hmeet : ∀ r r', Ends x m r → Ends x m' r' → ∃ fuel, x fuel m = r ∧ x fuel m' = r' := by
    rintro r r' ⟨fuel, rfl, hr⟩ ⟨fuel', rfl, hr'⟩
    exact ⟨max fuel fuel', hx.steady.of_le (Nat.le_max_left fuel fuel') hr,
      hx.steady.of_le (Nat.le_max_right fuel fuel') hr'⟩
  refine ⟨⟨?_, ?_⟩, fun r r' h h' => ?_, fun r r' h h' => ?_⟩
  · rintro ⟨_, fuel, rfl, hr⟩
    exact ⟨_, fuel, rfl, (hsame fuel).1.finished_iff.mp hr⟩
  · rintro ⟨_, fuel, rfl, hr⟩
    exact ⟨_, fuel, rfl, (hsame fuel).1.finished_iff.mpr hr⟩
  · obtain ⟨fuel, rfl, rfl⟩ := hmeet r r' h h'
    exact (hsame fuel).1
  · obtain ⟨fuel, rfl, rfl⟩ := hmeet r r' h h'
    exact (hsame fuel).2

end Repeatable

variable {host : Host}

/-- An evaluation in a scope is repeatable. -/
theorem repeatable_evaluate (hhost : host.Blind) (e : Expr) (scope : FrameId) :
    Repeatable scope Value.Alike fun fuel => evaluate host fuel e scope where
  steady := steady_evaluate host e scope
  follows hscope fuel := (Renaming.paired_ofFuel hhost False fuel).eval rfl hscope
  scopes fuel := evaluate_scopes host fuel e scope
  counters fuel := counters_evaluate host fuel e scope
  prints fuel := exists_prints_evaluate host fuel e scope

/-- What an evaluation gives is known to the machine that it leaves. -/
theorem Repeatable.knows {x : Nat → Run Value} {scope : FrameId}
    (hx : Repeatable scope Value.Alike x) (hm : m.heap.Coherent) (hs : scope < m.heap.nextId)
    {v : Value} (h : Ends x m (.ok v m')) : m'.heap.Knows v := by
  obtain ⟨fuel, hrun, _⟩ := h
  have hagree := hx.follows (Heap.mem_identity hs) fuel m m ⟨hm.heaps_self, rfl, rfl, fun _ => rfl⟩
  rw [hrun] at hagree
  cases hagree with
  | ok _ hm' hv => exact hm'.heap.knows hv

/-! ## Scopes and bindings -/

/-- The machine with a fresh scope inside another. -/
def Machine.newChild (m : Machine) (parent : FrameId) : Machine :=
  { m with heap := m.heap.newChild parent }

/-- The machine with a name bound in a scope. -/
def Machine.define (m : Machine) (scope : FrameId) (name : String) (v : Value) : Machine :=
  { m with heap := m.heap.define scope name v }

/-- A binding makes no scope. -/
theorem Heap.identity_define (h : Heap) (scope : FrameId) (name : String) (v : Value) :
    (h.define scope name v).identity = h.identity := by
  rw [identity, nextId_define]
  rfl

/-- Of two bindings of one name in a scope the last stands. -/
theorem Heap.define_define (h : Heap) (scope : FrameId) (name : String) (v w : Value) :
    (h.define scope name v).define scope name w = h.define scope name w := by
  have hframes : (h.frames.modify scope fun f => f.define name v).modify scope
      (fun f => f.define name w) = h.frames.modify scope fun f => f.define name w := by
    apply Array.ext_getElem?
    intro i
    simp only [Array.getElem?_modify]
    split
    · rw [Option.map_map]
      congr 1
      funext f
      exact f.define_define name v w
    · rfl
  rw [define, define, hframes]
  rfl

/-- A heap with more scopes and closures keeps more of them. -/
theorem Heap.identity_le {h h' : Heap} (hscopes : h.nextId ≤ h'.nextId)
    (hclosures : h.closures ≤ h'.closures) : h.identity ≤ h'.identity := by
  constructor
  · intro a b hab
    obtain ⟨rfl, hlt⟩ := Matching.mem_upTo.mp hab
    exact Matching.mem_upTo.mpr ⟨rfl, Nat.lt_of_lt_of_le hlt hscopes⟩
  · intro i j hij
    obtain ⟨rfl, hlt⟩ := Matching.mem_upTo.mp hij
    exact Matching.mem_upTo.mpr ⟨rfl, Nat.lt_of_lt_of_le hlt hclosures⟩

/-- A value that a heap knows is known when the heap has grown. -/
theorem Heap.Knows.mono {h h' : Heap} {v : Value} (hv : h.Knows v) (hscopes : h.nextId ≤ h'.nextId)
    (hclosures : h.closures ≤ h'.closures) : h'.Knows v :=
  Value.Alike.mono (Renaming.likeness_le (Heap.identity_le hscopes hclosures)) hv

namespace Machine

/-- A machine stays ample when a known value is bound. -/
theorem Ample.define (hm : m.Ample) (hs : scope < m.heap.nextId) (name : String) {v : Value}
    (hv : m.heap.Knows v) : (m.define scope name v).Ample :=
  ⟨(hm.coherent.heaps_self.define (Heap.mem_identity hs) name hv).coherent, hm.sink⟩

/-- A machine stays ample when a scope is made. -/
theorem Ample.newChild (hm : m.Ample) (hs : scope < m.heap.nextId) : (m.newChild scope).Ample := by
  obtain ⟨_, _, _, hheaps⟩ := hm.coherent.heaps_self.newChild (Heap.mem_identity hs)
  exact ⟨hheaps.coherent, hm.sink⟩

/-- Binding a name in both machines leaves the second one grown. -/
theorem Grows.define (hg : m.Grows m') (scope : FrameId) (name : String) (v : Value) :
    (m.define scope name v).Grows (m'.define scope name v) := by
  refine ⟨⟨?_, fun id hid => ?_⟩, hg.closures, hg.counters⟩
  · simpa [Machine.define] using hg.scopes.nextId_le
  · have hid : id < m.heap.nextId := by simpa [Machine.define] using hid
    show (m'.heap.define scope name v).frame id = (m.heap.define scope name v).frame id
    have hframe : m'.heap.frame id = m.heap.frame id := hg.scopes.frame id hid
    by_cases hne : scope = id
    · subst hne
      rw [Heap.frame_define _ scope scope name v hid,
        Heap.frame_define _ scope scope name v (hg.lt hid), hframe]
    · rw [Heap.frame_define_of_ne name v hne, Heap.frame_define_of_ne name v hne, hframe]

end Machine

/-- Bind a name in a scope, and then run. -/
def Run.binding (scope : FrameId) (name : String) (v : Value) (x : Nat → Run α) (fuel : Nat) :
    Run α := do
  Run.define scope name v
  x fuel

/-- More fuel keeps the outcome of a run with a name bound first. -/
theorem Run.steady_binding {x : Nat → Run α} (hx : Steady x) (scope : FrameId) (name : String)
    (v : Value) : Steady (Run.binding scope name v x) := (Steady.const _).bind fun _ => hx

/-- To bind a name and then run is to run from the machine with the name bound. -/
theorem Run.ends_binding_iff {x : Nat → Run α} {name : String} {v : Value}
    {r : EStateM.Result Stop Machine α} :
    Ends (Run.binding scope name v x) m r ↔ Ends x (m.define scope name v) r := Iff.rfl

/-! ## Passes -/

/-- Passes over items, one after the other, with the values that they give. -/
inductive Passes (pass : ι → Nat → Run α) : Machine → List ι → List α → Machine → Prop
  | nil (m : Machine) : Passes pass m [] [] m
  | cons {m m₁ m₂ : Machine} {i : ι} {is : List ι} {a : α} {as : List α}
      (h : Ends (pass i) m (.ok a m₁)) (rest : Passes pass m₁ is as m₂) :
      Passes pass m (i :: is) (a :: as) m₂

namespace Passes

variable {x : Nat → Run α} {name : String} {value : ι → Value} {is : List ι} {as : List α}

/-- What passes leave behind is the binding of the variable, and what no scope
mentions. -/
theorem ample (hx : Repeatable scope A x) (hm : m.Ample) (hs : scope < m.heap.nextId)
    (hknown : ∀ i ∈ is, m.heap.Knows (value i))
    (h : Passes (fun i => Run.binding scope name (value i) x) m is as m') :
    m'.Ample ∧ ∀ v, (m.define scope name v).Grows (m'.define scope name v) := by
  induction h with
  | nil m => exact ⟨hm, fun v => .refl _⟩
  | @cons m m₁ m₂ i is a as h _ ih =>
      obtain ⟨hi, his⟩ := List.forall_mem_cons.mp hknown
      have hs₀ : scope < (m.define scope name (value i)).heap.nextId := by
        simpa [Machine.define] using hs
      obtain ⟨hample, hgrows⟩ :=
        hx.ample_of_ends (hm.define hs name hi) hs₀ (Run.ends_binding_iff.mp h)
      have hscopes : m.heap.nextId ≤ m₁.heap.nextId := by
        simpa [Machine.define] using hgrows.scopes.nextId_le
      obtain ⟨hlast, hrest⟩ := ih hample (Nat.lt_of_lt_of_le hs hscopes)
        fun j hj => (his j hj).mono hscopes hgrows.closures
      refine ⟨hlast, fun v => ?_⟩
      -- the binding that this pass starts with is replaced by the next
      have hfirst := hgrows.define scope name v
      rw [Machine.define, Machine.define, Heap.define_define] at hfirst
      exact hfirst.trans (hrest v)

/-- **A pass after others ends as it does alone.** -/
theorem endsSame (hx : Repeatable scope A x) (hm : m.Ample) (hs : scope < m.heap.nextId)
    (hknown : ∀ i ∈ is, m.heap.Knows (value i)) {i : ι} (hi : m.heap.Knows (value i))
    (h : Passes (fun i => Run.binding scope name (value i) x) m is as m') :
    EndsSame A (Run.binding scope name (value i) x) m (Run.binding scope name (value i) x) m' := by
  obtain ⟨hample, hgrows⟩ := h.ample hx hm hs hknown
  have hs₀ : scope < (m.define scope name (value i)).heap.nextId := by
    simpa [Machine.define] using hs
  have hsame := hx.endsSame (hm.define hs name hi) hs₀ (hgrows (value i)) hample.sink
  refine ⟨hsame.ends, fun r r' h h' => ?_, hsame.output⟩
  rw [← Heap.identity_define m.heap scope name (value i)]
  exact hsame.result r r' h h'

/-- After passes the variable has the value of the last, and no other binding is
changed. -/
theorem frame_eq (hx : Repeatable scope A x) (hs : scope < m.heap.nextId)
    (h : Passes (fun i => Run.binding scope name (value i) x) m is as m') :
    m'.heap.frame scope =
        (is.getLast?.elim (m.heap.frame scope) fun i =>
          (m.heap.frame scope).define name (value i)) ∧
      ∀ id < m.heap.nextId, id ≠ scope → m'.heap.frame id = m.heap.frame id := by
  induction h with
  | nil m => exact ⟨rfl, fun _ _ _ => rfl⟩
  | @cons m m₁ m₂ i is a as h _ ih =>
      obtain ⟨fuel, hpass, _⟩ := Run.ends_binding_iff.mp h
      have hgrows : (m.heap.define scope name (value i)).Grows .none m₁.heap :=
        (hx.scopes fuel).of_ok hpass
      have hscopes : m.heap.nextId ≤ m₁.heap.nextId := by simpa using hgrows.nextId_le
      obtain ⟨hown, hothers⟩ := ih (Nat.lt_of_lt_of_le hs hscopes)
      have hbound : m₁.heap.frame scope = (m.heap.frame scope).define name (value i) := by
        have hkept : m₁.heap.frame scope = _ := hgrows.frame scope (by simpa using hs)
        rw [hkept, Heap.frame_define _ _ _ _ _ hs, if_pos rfl]
      refine ⟨?_, fun id hid hne => ?_⟩
      · cases hlast : is.getLast? with
        | none => simp [hown, hbound, List.getLast?_cons, hlast]
        | some j => simp [hown, hbound, List.getLast?_cons, hlast, Frame.define_define]
      · have hkept : m₁.heap.frame id = _ := hgrows.frame id (by simpa using hid)
        rw [hothers id (Nat.lt_of_lt_of_le hid hscopes) hne, hkept,
          Heap.frame_define_of_ne name _ hne.symm]

end Passes

end Abacus
