import Abacus.Proofs.Eval.Forest
import Abacus.Proofs.Eval.Output
import Abacus.Proofs.Parse.Placed

/-!
# Abacus.Proofs.Eval.Vocabulary

What a program cannot name it cannot reach.  A `Vocabulary` says which names code
may use and which builtins values may hold.  Code gets at builtins only through its
names; from there they go from hand to hand, through variables, lists, arguments and
what is given back, but no step makes one.  So the invariant is one on values: the
builtins in them are in the vocabulary, and so is the code of their closures
(`Vocabulary.Knows`).

`Vocabulary.Agree` compares the runs on two hosts that are the same as far as the
vocabulary goes: both do the same and keep to the invariant, and they write nothing
if no builtin of the vocabulary does.
-/

namespace Abacus

/-- Which names code may use, and which builtins values may hold. -/
structure Vocabulary where
  names : String → Prop
  builtins : Builtin → Prop
  /-- The builtins write nothing. -/
  quiet : Prop

namespace Vocabulary

variable (V : Vocabulary)

/-- At a name of the code stands one of the vocabulary. -/
def marks : Site → Position → Prop
  | .name name, _ => V.names name
  | _, _ => True

/-- What may be called: builtins of the vocabulary, and closures over its code. -/
def Allows : Callee → Prop
  | .closure f => ∀ s ∈ f.body, s.Placed V.marks
  | .builtin b => V.builtins b

/-- All that could be called in a value is allowed. -/
def Knows (v : Value) : Prop := ∀ c ∈ v.callees, V.Allows c

end Vocabulary

/-- All that is bound is known. -/
def Heap.Over (V : Vocabulary) (h : Heap) : Prop := ∀ id, ∀ b ∈ (h.frame id).bindings, V.Knows b.2

variable {V : Vocabulary}

/-! ## Values and names -/

namespace Vocabulary

/-- A value in which nothing can be called is known. -/
theorem knows_of_eq_nil {v : Value} (h : v.callees = []) : V.Knows v := by
  intro c hc
  rw [h] at hc
  contradiction

theorem knows_of_plain {ε : Type} {r : Except ε Value} (hr : Value.Plain r) {v : Value}
    (hv : r = .ok v) : V.Knows v := knows_of_eq_nil (hr v hv)

/-- A list is known if its items are. -/
theorem knows_list {vs : List Value} : V.Knows (.list vs) ↔ ∀ v ∈ vs, V.Knows v := by
  constructor
  · exact fun h v hv c hc => h c (Value.mem_calleesAll.mpr ⟨v, hv, hc⟩)
  · intro h c hc
    obtain ⟨v, hv, hcv⟩ := Value.mem_calleesAll.mp hc
    exact h v hv c hcv

/-- A loop visits what is known if it goes through what is known. -/
theorem Knows.items {v : Value} (hv : V.Knows v) {vs : List Value} (h : v.items = .ok vs) :
    ∀ u ∈ vs, V.Knows u :=
  knows_list.mp fun c hc => hv c (Value.mem_callees_of_items h hc)

/-- What is known and can be called is allowed. -/
theorem Knows.callee? {v : Value} (hv : V.Knows v) {c : Callee} (h : v.callee? = some c) :
    V.Allows c := by
  cases v with
  | function f | builtin b =>
      cases h
      exact hv _ List.mem_cons_self
  | _ => cases h

end Vocabulary

namespace Heap.Over

variable {h : Heap} (hh : h.Over V)

include hh

/-- What is bound in a heap of known values is known. -/
theorem get? {scope : FrameId} {name : String} {v : Value} (hv : h.get? scope name = some v) :
    V.Knows v := by
  obtain ⟨id, _, hid⟩ := List.exists_of_findSome?_eq_some hv
  obtain ⟨b, hb, rfl⟩ := Bindings.mem_of_lookup hid
  exact hh id b hb

/-- A new frame binds nothing. -/
theorem newChild (parent : FrameId) : (h.newChild parent).Over V := by
  intro id b hb
  rw [Heap.newChild, frame_add] at hb
  split at hb
  · contradiction
  · exact hh id b hb

/-- A binding of a known value keeps the heap to the vocabulary. -/
theorem define {v : Value} (hv : V.Knows v) (scope : FrameId) (name : String) :
    (h.define scope name v).Over V := by
  by_cases hlt : scope < h.nextId
  · intro id b hb
    rw [frame_define h scope id name v hlt] at hb
    split at hb
    · obtain hold | hnew := Bindings.mem_put hb
      · exact hh id b hold
      · exact hnew ▸ hv
    · exact hh id b hb
  · rw [define_of_le name v (Nat.not_lt.mp hlt)]
    exact hh

end Heap.Over

/-! ## Hosts -/

/-- Two hosts that are the same as far as the vocabulary goes: its names stand for
the same and its builtins do the same, and they lead to nothing that is not of the
vocabulary. -/
structure Vocabulary.Shared (V : Vocabulary) (host host' : Host) : Prop where
  maxDepth : host'.maxDepth = host.maxDepth
  entry : ∀ name, V.names name →
    Bindings.lookup name host'.registry = Bindings.lookup name host.registry
  entry_knows : ∀ name v, V.names name → Bindings.lookup name host.registry = some v → V.Knows v
  reply : ∀ b args, V.builtins b → b.reply host'.foreign args = b.reply host.foreign args
  answer_knows : ∀ b args v, V.builtins b → (∀ u ∈ args, V.Knows u) →
    (b.reply host.foreign args).answer = .ok v → V.Knows v
  text : V.quiet → ∀ b args, V.builtins b → (b.reply host.foreign args).text = ""

namespace Vocabulary.Shared

variable {host host' : Host} (hV : V.Shared host host') {h : Heap} {scope : FrameId}
  {name : String}

include hV

/-- Hosts share a vocabulary, or do not, from either side. -/
theorem symm : V.Shared host' host where
  maxDepth := hV.maxDepth.symm
  entry name hname := (hV.entry name hname).symm
  entry_knows name v hname hv := hV.entry_knows name v hname (hV.entry name hname ▸ hv)
  reply b args hb := (hV.reply b args hb).symm
  answer_knows b args v hb hargs hv := hV.answer_knows b args v hb hargs (hV.reply b args hb ▸ hv)
  text hq b args hb := hV.reply b args hb ▸ hV.text hq b args hb

/-- A name of the vocabulary reads the same on both hosts. -/
theorem readName_eq (hname : V.names name) :
    readName host' h scope name = readName host h scope name := by
  rw [readName, readName, hV.entry name hname]

/-- A name of the vocabulary reads as a known value. -/
theorem readName_knows (hname : V.names name) (hh : h.Over V) {v : Value}
    (hv : readName host h scope name = .ok v) : V.Knows v := by
  unfold readName at hv
  split at hv
  · next u hu =>
    cases hv
    obtain hget | ⟨_, hentry⟩ := Option.or_eq_some_iff.mp hu
    · exact hh.get? hget
    · exact hV.entry_knows name _ hname hentry
  · contradiction

/-- A name of the vocabulary is called the same on both hosts. -/
theorem calledName_eq (hname : V.names name) :
    calledName host' h scope name = calledName host h scope name := by
  rw [calledName, calledName, hV.readName_eq hname, Registry.builtin?, Registry.builtin?,
    hV.entry name hname]

/-- The binding that is called is known if it can be called, and otherwise the entry
of the registry is. -/
theorem calledName_allows (hname : V.names name) (hh : h.Over V) {c : Callee}
    (hc : calledName host h scope name = .ok c) : V.Allows c := by
  unfold calledName at hc
  split at hc
  · next callee hcallee =>
    cases hc
    obtain ⟨v, hget, hv⟩ := Option.bind_eq_some_iff.mp hcallee
    exact (hh.get? hget).callee? hv
  · split at hc
    · next b hb =>
      cases hc
      unfold Registry.builtin? at hb
      split at hb
      · next b' hentry =>
        cases hb
        exact (hV.entry_knows name _ hname hentry).callee? rfl
      · contradiction
    · split at hc <;> cases hc

end Vocabulary.Shared

/-! ## Runs -/

/-- What a run leaves behind. -/
structure Vocabulary.After (V : Vocabulary) (m m' : Machine) : Prop where
  heap : m'.heap.Over V
  sink : V.quiet → m'.sink = m.sink

/-- From the machine both runs do the same, keep to the vocabulary, and give a value
with `A` if they give any. -/
structure Vocabulary.AgreeAt {α : Type} (V : Vocabulary) (m : Machine) (A : α → Prop)
    (x y : Run α) : Prop where
  eq : y m = x m
  after : V.After m (x.final m)
  value : ∀ a m', x m = .ok a m' → A a

/-- The runs agree from every machine that keeps to the vocabulary. -/
def Vocabulary.Agree {α : Type} (V : Vocabulary) (A : α → Prop) (x y : Run α) : Prop :=
  ∀ m, m.heap.Over V → V.AgreeAt m A x y

namespace Vocabulary

variable {α β : Type} {A : α → Prop} {B : β → Prop} {x y : Run α} {f g : α → Run β}
  {m m₁ m₂ : Machine}

theorem After.refl (h : m.heap.Over V) : V.After m m := ⟨h, fun _ => rfl⟩

/-- One run after another. -/
theorem After.trans (h : V.After m m₁) (h' : V.After m₁ m₂) : V.After m m₂ :=
  ⟨h'.heap, fun hq => (h'.sink hq).trans (h.sink hq)⟩

/-- A run that gives a known value agrees with itself. -/
theorem AgreeAt.of_ok {a : α} (hx : x m = .ok a m₁) (hafter : V.After m m₁) (ha : A a) :
    V.AgreeAt m A x x := by
  refine ⟨rfl, ?_, fun b m' hr => ?_⟩
  · rw [Run.final_of_ok hx]
    exact hafter
  · rw [hx] at hr
    cases hr
    exact ha

/-- A run that stops agrees with itself, whatever stops it. -/
theorem AgreeAt.of_error {e : Stop} (hx : x m = .error e m₁) (hafter : V.After m m₁) :
    V.AgreeAt m A x x := by
  refine ⟨rfl, ?_, fun b m' hr => ?_⟩
  · rw [Run.final_of_error hx]
    exact hafter
  · rw [hx] at hr
    contradiction

namespace Agree

/-- What follows a run may rely on its value. -/
theorem bind (hx : V.Agree A x y) (hf : ∀ a, A a → V.Agree B (f a) (g a)) :
    V.Agree B (x >>= f) (y >>= g) := by
  intro m hm
  obtain ⟨heq, hafter, hvalue⟩ := hx m hm
  cases hr : x m with
  | ok a m₁ =>
      rw [Run.final_of_ok hr] at hafter
      obtain ⟨heq', hafter', hvalue'⟩ := hf a (hvalue a m₁ hr) m₁ hafter.heap
      have hrun : (x >>= f) m = f a m₁ := Stateful.bind_of_ok f hr
      refine ⟨?_, ?_, ?_⟩
      · rw [hrun, Stateful.bind_of_ok g (heq.trans hr)]
        exact heq'
      · rw [Run.final, hrun]
        exact hafter.trans hafter'
      · rw [hrun]
        exact hvalue'
  | error e m₁ =>
      have hrun : (x >>= f) m = .error e m₁ := Stateful.bind_of_error f hr
      refine ⟨?_, ?_, ?_⟩
      · rw [hrun, Stateful.bind_of_error g (heq.trans hr)]
      · rw [Run.final_of_error hrun, ← Run.final_of_error hr]
        exact hafter
      · rw [hrun]
        intro b m' hr'
        contradiction

theorem pure {a : α} (ha : A a) : V.Agree A (Pure.pure a) (Pure.pure a) :=
  fun _ hm => .of_ok rfl (.refl hm) ha

theorem fail (e : Error) : V.Agree A (Run.fail e) (Run.fail e) :=
  fun _ hm => .of_error rfl (.refl hm)

theorem exhausted : V.Agree A Run.exhausted Run.exhausted := fun _ hm => .of_error rfl (.refl hm)

/-- A result is passed on, or its fault is reported, at a position. -/
theorem ofResult {r : Except RuntimeFault α} (hA : ∀ a, r = .ok a → A a) (pos : Position) :
    V.Agree A (Run.ofResult pos r) (Run.ofResult pos r) := by
  cases r with
  | ok a => exact pure (hA a rfl)
  | error fault => exact fail _

theorem discard (hx : V.Agree A x y) :
    V.Agree (fun _ => True) (Functor.discard x) (Functor.discard y) := by
  rw [Stateful.discard_eq, Stateful.discard_eq]
  exact hx.bind fun _ _ => pure trivial

/-- A run that looks at the machine may do so on both hosts. -/
theorem get_bind {f g : Machine → Run α} (h : ∀ m, m.heap.Over V → V.Agree A (f m) (g m)) :
    V.Agree A (get >>= f) (get >>= g) := fun m hm =>
  ⟨(h m hm m hm).eq, (h m hm m hm).after, (h m hm m hm).value⟩

/-- A choice whose condition both hosts share. -/
theorem ite {c : Prop} [Decidable c] {x' y' : Run α} (h : V.Agree A x y) (h' : V.Agree A x' y') :
    V.Agree A (if c then x else x') (if c then y else y') := by
  split
  · exact h
  · exact h'

/-- The counters may be changed around a run. -/
theorem around {before after : Machine → Machine}
    (hbefore : ∀ m, (before m).heap = m.heap ∧ (before m).sink = m.sink)
    (hafter : ∀ m, (after m).heap = m.heap ∧ (after m).sink = m.sink) (hx : V.Agree A x y) :
    V.Agree A (Run.around before after x) (Run.around before after y) := by
  intro m hm
  obtain ⟨heq, hx, hvalue⟩ := hx (before m) ((hbefore m).1 ▸ hm)
  have hfinal : ∀ m₁, V.After (before m) m₁ → V.After m (after m₁) := fun m₁ h =>
    ⟨(hafter m₁).1 ▸ h.heap, fun hq => ((hafter m₁).2.trans (h.sink hq)).trans (hbefore m).2⟩
  have hleft : V.AgreeAt m A (Run.around before after x) (Run.around before after x) := by
    cases hr : x (before m) with
    | ok a m₁ =>
        rw [Run.final_of_ok hr] at hx
        exact .of_ok (by rw [Run.around, hr]) (hfinal m₁ hx) (hvalue a m₁ hr)
    | error e m₁ =>
        rw [Run.final_of_error hr] at hx
        exact .of_error (by rw [Run.around, hr]) (hfinal m₁ hx)
  exact ⟨Run.around_congr heq, hleft.after, hleft.value⟩

/-- A level of depth. -/
theorem deeper (limit : Nat) (pos : Position) (hx : V.Agree A x y) :
    V.Agree A (Run.deeper limit pos x) (Run.deeper limit pos y) :=
  .get_bind fun _ _ => .ite (hx.around (fun _ => ⟨rfl, rfl⟩) fun _ => ⟨rfl, rfl⟩) (.fail _)

theorem insideCall (hx : V.Agree A x y) : V.Agree A (Run.insideCall x) (Run.insideCall y) :=
  hx.around (fun _ => ⟨rfl, rfl⟩) fun _ => ⟨rfl, rfl⟩

/-! ## Primitive runs -/

/-- Creating a frame keeps to the vocabulary. -/
theorem newChild (parent : FrameId) :
    V.Agree (fun _ => True) (Run.newChild parent) (Run.newChild parent) :=
  fun _ hm => .of_ok rfl ⟨hm.newChild parent, fun _ => rfl⟩ trivial

/-- Binding a known value keeps to the vocabulary. -/
theorem define {v : Value} (hv : V.Knows v) (scope : FrameId) (name : String) :
    V.Agree (fun _ => True) (Run.define scope name v) (Run.define scope name v) :=
  fun _ hm => .of_ok rfl ⟨hm.define hv scope name, fun _ => rfl⟩ trivial

/-- Binding several known values keeps to the vocabulary. -/
theorem defineAll (scope : FrameId) (names : List String) {values : List Value}
    (hvalues : ∀ v ∈ values, V.Knows v) :
    V.Agree (fun _ => True) (Run.defineAll scope (names.zip values))
      (Run.defineAll scope (names.zip values)) := by
  induction names generalizing values with
  | nil => exact pure trivial
  | cons name names ih =>
      cases values with
      | nil => exact pure trivial
      | cons v values =>
          rw [List.forall_mem_cons] at hvalues
          exact (define hvalues.1 scope name).bind fun _ _ => ih hvalues.2

/-- Closing over code of the vocabulary keeps to it. -/
theorem close {body : List Stmt} (hbody : ∀ s ∈ body, s.Placed V.marks) (name : String)
    (params : List String) (scope : FrameId) :
    V.Agree (fun f => V.Knows (.function f)) (Run.close name params body scope)
      (Run.close name params body scope) :=
  fun _ hm => .of_ok rfl ⟨hm, fun _ => rfl⟩ (List.forall_mem_singleton.mpr hbody)

/-- Writing keeps to it; a quiet vocabulary writes the empty text only. -/
theorem write {text : String} (htext : V.quiet → text = "") :
    V.Agree (fun _ => True) (Run.write text) (Run.write text) := by
  intro m hm
  cases hw : m.sink.write text.toUTF8 with
  | mk sink failure =>
      have hafter : V.After m { m with sink := sink } := by
        refine ⟨hm, fun hq => ?_⟩
        rw [htext hq] at hw
        exact congrArg Prod.fst (hw.symm.trans m.sink.write_empty)
      cases failure with
      | none => exact .of_ok (by rw [Run.write, hw]) hafter trivial
      | some e => exact .of_error (by rw [Run.write, hw]) hafter

theorem flush : V.Agree (fun _ => True) Run.flush Run.flush := by
  intro m hm
  cases hf : m.sink.flushError? with
  | none => exact .of_ok (by rw [Run.flush, hf]) (.refl hm) trivial
  | some e => exact .of_error (by rw [Run.flush, hf]) (.refl hm)

/-- The reply of a builtin, its text first and then its answer. -/
theorem settle (name : String) (pos : Position) {reply : Reply} (htext : V.quiet → reply.text = "")
    (h : ∀ v, reply.answer = .ok v → V.Knows v) :
    V.Agree V.Knows (Recursion.settle name pos reply) (Recursion.settle name pos reply) := by
  rw [Pairing.settle_eq]
  refine (write htext).bind fun _ _ => ?_
  cases hanswer : reply.answer with
  | ok v => exact flush.bind fun _ _ => pure (h v hanswer)
  | error fault => exact fail _

/-- The terms of an aggregate from a given index on, by induction on their number. -/
theorem foldFrom {combine : Float → Float → Float} {term term' : Float → Run Float}
    (h : ∀ x, V.Agree (fun _ => True) (term x) (term' x)) (count : Nat) (i : Int) (total : Float) :
    V.Agree (fun _ => True) (Recursion.foldFrom combine term count i total)
      (Recursion.foldFrom combine term' count i total) := by
  induction count generalizing i total with
  | zero => exact pure trivial
  | succ count ih => exact (h _).bind fun x _ => ih (i + 1) (combine total x)

/-- An aggregate over its interval. -/
theorem total {term term' : Float → Run Float}
    (h : ∀ x, V.Agree (fun _ => True) (term x) (term' x)) (kind : Aggregate) (start stop : Float) :
    V.Agree (fun _ => True) (Recursion.total kind term start stop)
      (Recursion.total kind term' start stop) := by
  cases kind with
  | sum => exact foldFrom h _ _ _
  | product => exact foldFrom h _ _ _
  | integral => exact foldFrom (fun x => h _) _ _ _

end Agree

end Vocabulary

end Abacus
