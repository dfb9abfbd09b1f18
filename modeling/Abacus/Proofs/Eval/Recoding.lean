import Abacus.Proofs.Eval.Parametric

/-!
# Abacus.Proofs.Eval.Recoding

Runs of programs whose code corresponds.  A `Recoding` says which bodies, nodes and
places stand for each other, and which stops; scopes and identity numbers are the
same on both sides.  Machines stand for each other if their scopes bind the same names
to values that are alike up to the bodies of closures, and all else is equal.  What a
recoding has to respect is said of single nodes (`Recoding.Respects`); the primitive
runs respect every recoding.

A law of a single run is the case where equal code stands for itself.
-/

namespace Abacus

/-! ## Alike machines -/

/-- Frames with the same names, alike values and equal surroundings. -/
structure Frame.Alike (L : Likeness) (f f' : Frame) : Prop where
  bindings : Bindings.Alike L f.bindings f'.bindings
  outer : f.outer = f'.outer

/-- Heaps with as many scopes and closures, whose frames are alike. -/
structure Heap.Alike (L : Likeness) (h h' : Heap) : Prop where
  nextId : h.nextId = h'.nextId
  closures : h.closures = h'.closures
  frame : ∀ id, (h.frame id).Alike L (h'.frame id)

/-- Machines with alike heaps, equal output and equal counters. -/
structure Machine.Alike (L : Likeness) (m m' : Machine) : Prop where
  heap : m.heap.Alike L m'.heap
  sink : m.sink = m'.sink
  depth : m.depth = m'.depth
  calls : m.calls = m'.calls

/-- A machine is like itself for every likeness in which things stand for themselves. -/
theorem Machine.alike_self {L : Likeness} (hL : Likeness.same.Le L) (m : Machine) :
    m.Alike L m := by
  refine ⟨⟨rfl, rfl, fun id => ⟨?_, rfl⟩⟩, rfl, rfl, rfl⟩
  refine List.forall₂_same.mpr fun b _ => ⟨rfl, ?_⟩
  exact (Value.Alike.refl b.2).mono hL

namespace Heap.Alike

variable {L : Likeness} {h h' : Heap} (hh : h.Alike L h')

include hh

/-- A name is bound on both sides or on neither, to alike values. -/
theorem get? (scope : FrameId) (name : String) :
    Option.Rel (Value.Alike L) (h.get? scope name) (h'.get? scope name) := by
  unfold Heap.get? Heap.chain
  rw [(hh.frame scope).outer]
  refine rel_findSome? (R := Eq) (List.forall₂_same.mpr fun _ _ => rfl) ?_
  rintro id _ rfl
  exact (hh.frame id).bindings.lookup name

/-- Alike heaps make the same new scope. -/
theorem newChild (parent : FrameId) : (h.newChild parent).Alike L (h'.newChild parent) := by
  refine ⟨?_, hh.closures, fun id => ?_⟩
  · rw [Heap.nextId_newChild, Heap.nextId_newChild, hh.nextId]
  · rw [Heap.newChild, Heap.newChild, Heap.frame_add, Heap.frame_add, hh.nextId,
      (hh.frame parent).outer]
    split
    · exact ⟨.nil, rfl⟩
    · exact hh.frame id

/-- Binding alike values keeps heaps alike. -/
theorem define {v v' : Value} (hv : v.Alike L v') (id : FrameId) (name : String) :
    (h.define id name v).Alike L (h'.define id name v') := by
  refine ⟨?_, hh.closures, fun other => ?_⟩
  · rw [Heap.nextId_define, Heap.nextId_define, hh.nextId]
  · have hother := hh.frame other
    by_cases hid : id < h.nextId
    · rw [Heap.frame_define h id other name v hid,
        Heap.frame_define h' id other name v' (hh.nextId ▸ hid)]
      split
      · exact ⟨hother.bindings.put name hv, hother.outer⟩
      · exact hother
    · rw [Heap.define_of_le name v (Nat.not_lt.mp hid),
        Heap.define_of_le name v' (hh.nextId ▸ Nat.not_lt.mp hid)]
      exact hother

end Heap.Alike

/-! ## Recodings -/

/-- Which code stands for which. -/
structure Recoding where
  /-- Bodies of closures. -/
  code : List Stmt → List Stmt → Prop
  place : Site → Position → Position → Prop
  expr : Expr → Expr → Prop
  stmt : Stmt → Stmt → Prop
  stop : Stop → Stop → Prop

namespace Recoding

variable (R : Recoding)

/-- The likeness of closures whose bodies stand for each other. -/
def likeness : Likeness := ⟨Eq, Eq, R.code⟩

/-- Closures keep their identities, so these are told apart as they are. -/
theorem faithful_likeness : R.likeness.Faithful := by
  rintro i j i' j' rfl rfl
  exact Iff.rfl

/-- The pairing of machines that are alike up to the bodies of closures. -/
def pairing : Pairing where
  World := Unit
  later _ _ := True
  inBlock := id
  inCall := id
  machine _ := Machine.Alike R.likeness
  scope _ := Eq
  identity _ := Eq
  code := R.code
  place := R.place
  expr _ := R.expr
  stmt _ := R.stmt
  mayReturn _ := True
  stop := R.stop
  excusedLeft _ := False
  excusedRight _ := False
  later_refl _ := trivial
  later_trans _ _ := trivial
  scope_mono _ h := h
  identity_mono _ h := h
  expr_mono _ h := h
  stmt_mono _ h := h
  mayReturn_mono _ h := h

variable {R} {w : R.pairing.World} {α β : Type} {m m' : Machine}

/-- Values that stand for each other agree on alike machines. -/
theorem agrees_ok {A : R.pairing.World → α → β → Prop} {a : α} {b : β}
    (hm : m.Alike R.likeness m') (h : A () a b) : R.pairing.Agrees w A (.ok a m) (.ok b m') :=
  .ok trivial (show R.pairing.machine () m m' from hm) h

/-- Stops that stand for each other agree on alike machines. -/
theorem agrees_error {A : R.pairing.World → α → β → Prop} {e e' : Stop}
    (hm : m.Alike R.likeness m') (h : R.stop e e') :
    R.pairing.Agrees w A (.error e m) (.error e' m') :=
  .error trivial (show R.pairing.machine () m m' from hm) h

/-- A run that stands for itself stops as its recoding allows. -/
theorem stop_of_follows {x : Run α} {A : R.pairing.World → α → α → Prop} {m' : Machine} {e : Stop}
    (h : R.pairing.Follows () A x x) (hm : m.Alike R.likeness m) (hr : x m = .error e m') :
    R.stop e e := by
  have hagrees := h m m hm
  rw [hr] at hagrees
  cases hagrees with
  | error _ _ he => exact he
  | left he => exact he.elim
  | right he => exact he.elim

/-! ## Primitive runs -/

/-- Creating a frame respects every recoding. -/
theorem follows_newChild (parent : FrameId) :
    R.pairing.Follows w R.pairing.scope (Run.newChild parent) (Run.newChild parent) := by
  intro m m' hm
  exact agrees_ok ⟨hm.heap.newChild parent, hm.sink, hm.depth, hm.calls⟩ hm.heap.nextId

/-- A binding of alike values respects every recoding. -/
theorem follows_define {v v' : Value} (hv : v.Alike R.likeness v') (scope : FrameId)
    (name : String) :
    R.pairing.Follows w R.pairing.any (Run.define scope name v) (Run.define scope name v') := by
  intro m m' hm
  exact agrees_ok ⟨hm.heap.define hv scope name, hm.sink, hm.depth, hm.calls⟩ trivial

/-- Closing over bodies that stand for each other respects every recoding. -/
theorem follows_close {b b' : List Stmt} (hb : R.code b b') (name : String)
    (params : List String) (scope : FrameId) :
    R.pairing.Follows w (fun w => (R.pairing.likeness w).Closures)
      (Run.close name params b scope) (Run.close name params b' scope) := by
  intro m m' hm
  have hclosures : m.heap.closures + 1 = m'.heap.closures + 1 := by rw [hm.heap.closures]
  have hheap : ({ m.heap with closures := m.heap.closures + 1 } : Heap).Alike R.likeness
      { m'.heap with closures := m'.heap.closures + 1 } :=
    ⟨hm.heap.nextId, hclosures, hm.heap.frame⟩
  exact agrees_ok ⟨hheap, hm.sink, hm.depth, hm.calls⟩
    ⟨rfl, rfl, hb, rfl, hm.heap.closures⟩

/-- Writing respects a recoding in which failures of the output stand for themselves. -/
theorem follows_write (hio : ∀ e, R.stop (.failed (.io e)) (.failed (.io e))) (text : String) :
    R.pairing.Follows w R.pairing.any (Run.write text) (Run.write text) := by
  intro m m' hm
  unfold Run.write
  rw [hm.sink]
  obtain ⟨sink, failure⟩ := m'.sink.write text.toUTF8
  have hm' : ({ m with sink := sink } : Machine).Alike R.likeness { m' with sink := sink } :=
    ⟨hm.heap, rfl, hm.depth, hm.calls⟩
  cases failure with
  | none => exact agrees_ok hm' trivial
  | some e => exact agrees_error hm' (hio e)

/-- Flushing respects a recoding in which failures of the output stand for themselves. -/
theorem follows_flush (hio : ∀ e, R.stop (.failed (.io e)) (.failed (.io e))) :
    R.pairing.Follows w R.pairing.any Run.flush Run.flush := by
  intro m m' hm
  unfold Run.flush
  rw [hm.sink]
  cases m'.sink.flushError? with
  | none => exact agrees_ok hm trivial
  | some e => exact agrees_error hm (hio e)

theorem counted : R.pairing.Counted where
  depth hm := hm.depth
  recount f g hm := ⟨hm.heap, hm.sink, congrArg f hm.depth, congrArg g hm.calls⟩

/-! ## Laws -/

/-- What the code of a host and of single nodes has to respect. -/
structure Respects (R : Recoding) (host : Host) : Prop where
  expr_congruent : ∀ {e e'}, R.expr e e' → e.Congruent R.place R.expr e'
  stmt_congruent : ∀ {s s'}, R.stmt s s' →
    s.Congruent R.place R.expr (List.Forall₂ R.stmt) R.code s'
  stmts_of_code : ∀ {b b'}, R.code b b' → List.Forall₂ R.stmt b b'
  registry : ∀ name, Option.Rel (Value.Alike R.likeness)
    (Bindings.lookup name host.registry) (Bindings.lookup name host.registry)
  foreign : ∀ {args args'} name, List.Forall₂ (Value.Alike R.likeness) args args' →
    Reply.Alike R.likeness (host.foreign name args) (host.foreign name args')
  limit : ∀ {site p p'} n, R.place site p p' →
    R.stop (.failed (.runtime (.recursionLimit n) p)) (.failed (.runtime (.recursionLimit n) p'))
  stray : ∀ {v v' p p'}, R.stmt (.giveBack v p) (.giveBack v' p') →
    R.stop (.failed (.runtime .returnOutsideFunction p))
      (.failed (.runtime .returnOutsideFunction p'))
  fault : ∀ {site f p p'}, MetAt site f → R.place site p p' →
    R.stop (.failed (.runtime f p)) (.failed (.runtime f p'))
  io : ∀ e, R.stop (.failed (.io e)) (.failed (.io e))

variable {host : Host}

/-- The primitive runs respect every recoding. -/
theorem Respects.lawful (hR : R.Respects host) : R.pairing.Lawful host host where
  faithful _ := R.faithful_likeness
  later_inBlock hw := hw
  scope_inBlock hs := hs
  scope_inCall hs := hs
  expr_congruent h := hR.expr_congruent h
  stmt_congruent h := hR.stmt_congruent h
  code_inCall h := hR.stmts_of_code h
  get? := by
    rintro w m m' s _ hm rfl name
    exact hm.heap.get? s name
  registry _ name := hR.registry name
  foreign name hargs := hR.foreign name hargs
  newChild := by
    rintro w s _ rfl
    exact follows_newChild s
  define := by
    rintro w s _ v v' name rfl hv
    exact follows_define hv s name
  close := by
    rintro w s _ b b' name params rfl hb
    exact follows_close hb name params s
  write _ text := follows_write hR.io text
  flush _ := follows_flush hR.io
  deeper hp hx := counted.follows_deeper (hR.limit _ hp) hx
  insideCall hp hx := counted.follows_insideCall (hR.limit _ hp) hx
  returns := by
    intro w m m' v v' p p' hgive hm
    by_cases hcalls : m.calls = 0
    · exact .inl ⟨hcalls, hm.calls ▸ hcalls, hR.stray hgive⟩
    · exact .inr ⟨hcalls, hm.calls ▸ hcalls, trivial⟩
  fault hf hp := hR.fault hf hp
  io := hR.io

/-- Runs with the same fuel respect a recoding. -/
theorem Respects.paired_ofFuel (hR : R.Respects host) (hstop : R.stop .exhausted .exhausted)
    (fuel : Nat) : R.pairing.Paired (.ofFuel host fuel) (.ofFuel host fuel) :=
  hR.lawful.paired_ofFuel hstop fuel

end Recoding

end Abacus
