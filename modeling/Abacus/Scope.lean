import Abacus.Bindings

/-!
# Abacus.Scope

Shared scopes.  A `Heap` holds numbered frames; a frame has its own bindings and
the chain of the frames around it, the nearest first.  Reading a name walks
outward along the chain, writing a name always changes the frame itself.  A
frame is never removed, so closures may keep the number of any scope.
-/

namespace Abacus

/-! ## Frames -/

/-- One scope: its own bindings, and the scopes around it from the inside out. -/
structure Frame where
  bindings : Bindings
  outer : List FrameId

namespace Frame

/-- A frame without bindings and without surroundings. -/
def empty : Frame := ⟨[], []⟩

/-- The own binding of a name. -/
def find? (f : Frame) (name : String) : Option Value := Bindings.lookup name f.bindings

/-- Bind a name in a frame. -/
def define (f : Frame) (name : String) (v : Value) : Frame :=
  { f with bindings := Bindings.put name v f.bindings }

/-- The own bindings of a frame in ascending order of names. -/
def snapshot (f : Frame) : Bindings := Bindings.sorted f.bindings

/-- A name reads as what it was last bound to. -/
theorem find?_define (f : Frame) (name other : String) (v : Value) :
    (f.define name v).find? other = if name = other then some v else f.find? other :=
  Bindings.lookup_put name other v f.bindings

/-- Of two bindings of one name the last stands. -/
theorem define_define (f : Frame) (name : String) (v w : Value) :
    (f.define name v).define name w = f.define name w := by
  simp [define, Bindings.put_put]

end Frame

/-! ## Heaps -/

/-- The scopes of a session, and how many closures it has made. -/
structure Heap where
  frames : Array Frame
  closures : Nat

namespace Heap

/-- A heap without scopes. -/
def empty : Heap := ⟨#[], 0⟩

/-- The frame of a scope. -/
def frame (h : Heap) (id : FrameId) : Frame := h.frames.getD id .empty

/-- The number that the next scope will get. -/
def nextId (h : Heap) : FrameId := h.frames.size

/-- Add a frame. -/
def add (h : Heap) (f : Frame) : Heap := { h with frames := h.frames.push f }

/-- Make a scope without surroundings; its number is `nextId`. -/
def newRoot (h : Heap) : Heap := h.add .empty

/-- Make a scope inside another; its number is `nextId`. -/
def newChild (h : Heap) (parent : FrameId) : Heap :=
  h.add ⟨[], parent :: (h.frame parent).outer⟩

/-- Bind a name in a scope. -/
def define (h : Heap) (id : FrameId) (name : String) (v : Value) : Heap :=
  { h with frames := h.frames.modify id fun f => f.define name v }

@[simp] theorem nextId_add (h : Heap) (f : Frame) : (h.add f).nextId = h.nextId + 1 :=
  Array.size_push f

@[simp] theorem nextId_newChild (h : Heap) (parent : FrameId) :
    (h.newChild parent).nextId = h.nextId + 1 := nextId_add h _

@[simp] theorem nextId_define (h : Heap) (id : FrameId) (name : String) (v : Value) :
    (h.define id name v).nextId = h.nextId := Array.size_modify

/-- The frame of a scope after one was added. -/
theorem frame_add (h : Heap) (f : Frame) (id : FrameId) :
    (h.add f).frame id = if id = h.nextId then f else h.frame id := by
  unfold add frame nextId
  rw [Array.getD_eq_getD_getElem?, Array.getD_eq_getD_getElem?, Array.getElem?_push]
  split <;> simp_all

/-- Binding a name changes one frame only. -/
theorem frame_define (h : Heap) (id other : FrameId) (name : String) (v : Value)
    (hid : id < h.nextId) :
    (h.define id name v).frame other =
      if id = other then (h.frame other).define name v else h.frame other := by
  unfold define frame nextId at *
  rw [Array.getD_eq_getD_getElem?, Array.getD_eq_getD_getElem?, Array.getElem?_modify]
  split <;> simp_all

/-- A scope that does not exist cannot be written to. -/
theorem define_of_le {h : Heap} {id : FrameId} (name : String) (v : Value)
    (hid : h.nextId ≤ id) : h.define id name v = h := by
  unfold define nextId at *
  have hframes : h.frames.modify id (fun f => f.define name v) = h.frames := by
    apply Array.ext_getElem?
    intro i
    rw [Array.getElem?_modify]
    split
    · next hi =>
      subst hi
      simp [Array.getElem?_eq_none hid]
    · rfl
  rw [hframes]

/-- A scope and the scopes around it, from the inside out. -/
def chain (h : Heap) (id : FrameId) : List FrameId := id :: (h.frame id).outer

/-- The value of a name as seen from a scope: its nearest binding. -/
def get? (h : Heap) (id : FrameId) (name : String) : Option Value :=
  (h.chain id).findSome? fun i => (h.frame i).find? name

/-- Whether a scope itself binds a name. -/
def hasOwn (h : Heap) (id : FrameId) (name : String) : Bool := ((h.frame id).find? name).isSome

/-- The own bindings of a scope in ascending order of names. -/
def snapshot (h : Heap) (id : FrameId) : Bindings := (h.frame id).snapshot

/-- Make a closure over a scope. -/
def close (h : Heap) (name : String) (params : List String) (body : List Stmt)
    (scope : FrameId) : Closure × Heap :=
  (⟨name, params, body, scope, h.closures⟩, { h with closures := h.closures + 1 })

end Heap

end Abacus
