import Abacus.Proofs.Eval.Parametric
import Mathlib.Data.PEquiv

/-!
# Abacus.Proofs.Eval.Renaming

The numbers of scopes and closures do not matter.  A `Renaming` matches scopes
and closures of one machine with those of another, one to one; what a run makes
anew is matched as it is made.  From machines that are the same up to a renaming
a run gives results that are the same up to a larger one (`Renaming.lawful`), so
scopes and closures that are not matched are out of its reach.

The output of the two machines may be left free; then a run is excused if it
stops because the output fails.
-/

namespace Abacus

/-! ## Matchings -/

/-- Numbers matched one to one with others. -/
abbrev Matching := Nat ≃. Nat

namespace Matching

variable {f : Matching} {n n' : Nat}

/-- The matched numbers are below the bounds. -/
def Below (f : Matching) (n n' : Nat) : Prop := ∀ a b, b ∈ f a → a < n ∧ b < n'

/-- Match one more pair, the bounds themselves. -/
def add (f : Matching) (n n' : Nat) (h : f.Below n n') : Matching where
  toFun a := if a = n then some n' else f a
  invFun b := if b = n' then some n else f.symm b
  inv a b := by
    by_cases ha : a = n <;> by_cases hb : b = n'
    · simp [ha, hb]
    · have hnot : ¬ f n = some b := fun hmem => Nat.lt_irrefl n (h n b hmem).1
      simp [ha, hb, f.eq_some_iff, hnot, Ne.symm hb]
    · have hnot : ¬ f a = some n' := fun hmem => Nat.lt_irrefl n' (h a n' hmem).2
      simp [ha, hb, hnot, Ne.symm ha]
    · simp [ha, hb, f.eq_some_iff]

/-- One more pair is matched, and no other. -/
theorem mem_add (h : f.Below n n') {a b : Nat} :
    b ∈ f.add n n' h a ↔ a = n ∧ b = n' ∨ b ∈ f a := by
  show (if a = n then some n' else f a) = some b ↔ _
  by_cases ha : a = n
  · have hnot : ¬ b ∈ f a := fun hmem => Nat.ne_of_lt (h a b hmem).1 ha
    simp only [ha, if_true, true_and, Option.some.injEq] at hnot ⊢
    simp only [hnot, or_false, eq_comm]
  · simp only [ha, if_false, false_and, false_or, Option.mem_def]

theorem mem_add_self (h : f.Below n n') : n' ∈ f.add n n' h n := (mem_add h).mpr (.inl ⟨rfl, rfl⟩)

/-- What was matched stays matched. -/
theorem le_add (h : f.Below n n') : f ≤ f.add n n' h := fun _ _ hmem => (mem_add h).mpr (.inr hmem)

/-- The pair that is added lies below the next bounds. -/
theorem below_add (h : f.Below n n') : (f.add n n' h).Below (n + 1) (n' + 1) := by
  intro a b hmem
  obtain ⟨rfl, rfl⟩ | hold := (mem_add h).mp hmem
  · exact ⟨Nat.lt_succ_self a, Nat.lt_succ_self b⟩
  · have hlt := h a b hold
    exact ⟨Nat.lt_succ_of_lt hlt.1, Nat.lt_succ_of_lt hlt.2⟩

/-- Matched numbers are told apart on one side exactly if they are on the
other. -/
theorem eq_iff_eq {a b a' b' : Nat} (h : b ∈ f a) (h' : b' ∈ f a') : a = a' ↔ b = b' := by
  constructor
  · rintro rfl
    exact Option.mem_unique h h'
  · rintro rfl
    exact f.inj h h'

/-- Match every number below a bound with itself. -/
def upTo (n : Nat) : Matching := PEquiv.ofSet {a | a < n}

/-- Up to a bound everything is matched with itself. -/
theorem mem_upTo {a b : Nat} : b ∈ upTo n a ↔ a = b ∧ a < n := by
  rw [upTo, PEquiv.mem_ofSet_iff]
  constructor
  · rintro ⟨rfl, hlt⟩
    exact ⟨rfl, hlt⟩
  · rintro ⟨rfl, hlt⟩
    exact ⟨rfl, hlt⟩

end Matching

/-! ## Renamings -/

/-- Scopes and closures of one machine matched with those of another. -/
structure Renaming where
  scopes : Matching
  closures : Matching

/-- What stands for each other in values. -/
def Renaming.likeness (w : Renaming) : Likeness :=
  ⟨fun a b => b ∈ w.scopes a, fun i j => j ∈ w.closures i, Eq⟩

instance : Preorder Renaming where
  le w w' := w.scopes ≤ w'.scopes ∧ w.closures ≤ w'.closures
  le_refl w := ⟨le_refl w.scopes, le_refl w.closures⟩
  le_trans _ _ _ h h' := ⟨le_trans h.1 h'.1, le_trans h.2 h'.2⟩

namespace Renaming

variable {w w' : Renaming}

/-- A larger renaming relates more closures. -/
theorem likeness_le (hw : w ≤ w') : w.likeness.Le w'.likeness :=
  ⟨fun a b => hw.1 a b, fun i j => hw.2 i j, fun _ _ h => h⟩

/-- A matching is one to one, so identities are told apart alike. -/
theorem faithful (w : Renaming) : w.likeness.Faithful := fun _ _ _ _ => Matching.eq_iff_eq

/-- Bindings of the same names to values that stand for each other. -/
abbrev Bound (w : Renaming) : Bindings → Bindings → Prop := Bindings.Alike w.likeness

/-- Frames with the same names around matched scopes. -/
structure Frames (w : Renaming) (f f' : Frame) : Prop where
  bindings : w.Bound f.bindings f'.bindings
  outer : List.Forall₂ (fun a b => b ∈ w.scopes a) f.outer f'.outer

/-- Heaps that are the same up to a renaming of all scopes of the first and of
some of the second. -/
structure Heaps (w : Renaming) (h h' : Heap) : Prop where
  scopes_below : w.scopes.Below h.nextId h'.nextId
  closures_below : w.closures.Below h.closures h'.closures
  total : ∀ a < h.nextId, ∃ b, b ∈ w.scopes a
  frame : ∀ a b, b ∈ w.scopes a → w.Frames (h.frame a) (h'.frame b)

/-! ## Bindings -/

/-- Bindings that stand for each other keep doing so under a larger renaming. -/
theorem Bound.mono {bs bs' : Bindings} (hw : w ≤ w') (h : w.Bound bs bs') : w'.Bound bs bs' :=
  h.imp fun _ _ hb => ⟨hb.1, hb.2.mono (likeness_le hw)⟩

theorem Frames.empty (w : Renaming) : w.Frames .empty .empty := ⟨.nil, .nil⟩

/-- Frames that stand for each other keep doing so under a larger renaming. -/
theorem Frames.mono {f f' : Frame} (hw : w ≤ w') (h : w.Frames f f') : w'.Frames f f' :=
  ⟨h.bindings.mono hw, h.outer.imp fun a b => hw.1 a b⟩

/-! ## Heaps -/

namespace Heaps

variable {h h' : Heap} (hh : w.Heaps h h') {a b : FrameId}

include hh

/-- Matched scopes have matched chains. -/
theorem chain (hab : b ∈ w.scopes a) :
    List.Forall₂ (fun a b => b ∈ w.scopes a) (h.chain a) (h'.chain b) :=
  .cons hab (hh.frame a b hab).outer

/-- A name is bound in both of two matched scopes or in neither, to values that stand
for each other. -/
theorem get? (hab : b ∈ w.scopes a) (name : String) :
    Option.Rel (Value.Alike w.likeness) (h.get? a name) (h'.get? b name) :=
  rel_findSome? (hh.chain hab) fun i j hij => (hh.frame i j hij).bindings.lookup name

/-- Binding values that stand for each other in matched scopes keeps the renaming. -/
theorem define (hab : b ∈ w.scopes a) (name : String) {v v' : Value}
    (hv : v.Alike w.likeness v') : w.Heaps (h.define a name v) (h'.define b name v') := by
  have hlt := hh.scopes_below a b hab
  constructor
  · rw [Heap.nextId_define, Heap.nextId_define]
    exact hh.scopes_below
  · exact hh.closures_below
  · rw [Heap.nextId_define]
    exact hh.total
  · intro c d hcd
    have hframe := hh.frame c d hcd
    rw [Heap.frame_define h a c name v hlt.1, Heap.frame_define h' b d name v' hlt.2]
    by_cases hac : a = c
    · rw [if_pos hac, if_pos ((Matching.eq_iff_eq hab hcd).mp hac)]
      exact ⟨hframe.bindings.put name hv, hframe.outer⟩
    · rw [if_neg hac, if_neg (mt (Matching.eq_iff_eq hab hcd).mpr hac)]
      exact hframe

/-- Frames that are added on both sides are matched. -/
theorem add {f f' : Frame} (hf : w.Frames f f') :
    ∃ w', w ≤ w' ∧ h'.nextId ∈ w'.scopes h.nextId ∧ w'.Heaps (h.add f) (h'.add f') := by
  have hbelow := hh.scopes_below
  have hself := Matching.mem_add_self hbelow
  have hw : w ≤ { w with scopes := w.scopes.add _ _ hbelow } :=
    ⟨Matching.le_add hbelow, le_refl _⟩
  refine ⟨_, hw, hself, ?_, hh.closures_below, ?_, ?_⟩
  · rw [Heap.nextId_add, Heap.nextId_add]
    exact Matching.below_add hbelow
  · intro c hc
    rw [Heap.nextId_add] at hc
    obtain hlt | rfl := Nat.lt_succ_iff_lt_or_eq.mp hc
    · obtain ⟨d, hd⟩ := hh.total c hlt
      exact ⟨d, hw.1 c d hd⟩
    · exact ⟨_, hself⟩
  · intro c d hcd
    rw [Heap.frame_add, Heap.frame_add]
    obtain ⟨rfl, rfl⟩ | hold := (Matching.mem_add hbelow).mp hcd
    · rw [if_pos rfl, if_pos rfl]
      exact hf.mono hw
    · have hlt := hbelow c d hold
      rw [if_neg (Nat.ne_of_lt hlt.1), if_neg (Nat.ne_of_lt hlt.2)]
      exact (hh.frame c d hold).mono hw

/-- New scopes around matched ones are matched as they are made. -/
theorem newChild (hab : b ∈ w.scopes a) :
    ∃ w', w ≤ w' ∧ h'.nextId ∈ w'.scopes h.nextId ∧ w'.Heaps (h.newChild a) (h'.newChild b) :=
  hh.add ⟨.nil, hh.chain hab⟩

/-- New closures are matched as they are made. -/
theorem close :
    ∃ w', w ≤ w' ∧ h'.closures ∈ w'.closures h.closures ∧
      w'.Heaps { h with closures := h.closures + 1 } { h' with closures := h'.closures + 1 } := by
  have hbelow := hh.closures_below
  have hw : w ≤ { w with closures := w.closures.add _ _ hbelow } :=
    ⟨le_refl _, Matching.le_add hbelow⟩
  refine ⟨_, hw, Matching.mem_add_self hbelow, hh.scopes_below, Matching.below_add hbelow,
    hh.total, ?_⟩
  exact fun c d hcd => (hh.frame c d hcd).mono hw

end Heaps

end Renaming

/-! ## The pairing -/

/-- The failures of the output. -/
def Stop.IsOutput : Stop → Prop
  | .failed (.io _) => True
  | _ => False

namespace Renaming

/-- Machines that are the same up to a renaming, and up to their output if that
is free. -/
structure Machines (free : Prop) (w : Renaming) (m m' : Machine) : Prop where
  heap : w.Heaps m.heap m'.heap
  depth : m.depth = m'.depth
  calls : m.calls = m'.calls
  sink : ¬ free → m.sink = m'.sink

/-- The pairing of machines that are the same up to a renaming. -/
def pairing (free : Prop) : Pairing where
  World := Renaming
  later := (· ≤ ·)
  inBlock := id
  inCall := id
  machine := Machines free
  scope w a b := b ∈ w.scopes a
  identity w i j := j ∈ w.closures i
  code := Eq
  place _ := Eq
  expr _ := Eq
  stmt _ := Eq
  mayReturn _ := True
  stop := Eq
  excusedLeft e := free ∧ e.IsOutput
  excusedRight e := free ∧ e.IsOutput
  later_refl := le_refl
  later_trans := le_trans
  scope_mono hw h := hw.1 _ _ h
  identity_mono hw h := hw.2 _ _ h
  expr_mono _ h := h
  stmt_mono _ h := h
  mayReturn_mono _ h := h

variable {free : Prop} {w : Renaming} {host : Host} {α : Type}

/-! ## Primitive runs -/

/-- Creating a frame enlarges the renaming. -/
theorem follows_newChild {a b : FrameId} (hab : b ∈ w.scopes a) :
    (pairing free).Follows w (pairing free).scope (Run.newChild a) (Run.newChild b) := by
  intro m m' hm
  obtain ⟨w', hw, hfresh, hheap⟩ := hm.heap.newChild hab
  exact .ok hw ⟨hheap, hm.depth, hm.calls, hm.sink⟩ hfresh

/-- A binding keeps it. -/
theorem follows_define {a b : FrameId} {v v' : Value} (name : String) (hab : b ∈ w.scopes a)
    (hv : v.Alike w.likeness v') :
    (pairing free).Follows w (pairing free).any (Run.define a name v) (Run.define b name v') := by
  intro m m' hm
  exact .ok (le_refl w) ⟨hm.heap.define hab name hv, hm.depth, hm.calls, hm.sink⟩ trivial

/-- A closure enlarges it. -/
theorem follows_close {a b : FrameId} (name : String) (params : List String) (body : List Stmt)
    (hab : b ∈ w.scopes a) :
    (pairing free).Follows w (fun w => ((pairing free).likeness w).Closures)
      (Run.close name params body a) (Run.close name params body b) := by
  intro m m' hm
  obtain ⟨w', hw, hfresh, hheap⟩ := hm.heap.close
  exact .ok hw ⟨hheap, hm.depth, hm.calls, hm.sink⟩ ⟨rfl, rfl, rfl, hw.1 a b hab, hfresh⟩

/-- Output fails on both sides, or it is free and the failure excused. -/
theorem follows_write (text : String) :
    (pairing free).Follows w (pairing free).any (Run.write text) (Run.write text) := by
  intro m m' hm
  unfold Run.write
  by_cases hfree : free
  · obtain ⟨sink, failure⟩ := m.sink.write text.toUTF8
    obtain ⟨sink', failure'⟩ := m'.sink.write text.toUTF8
    cases failure with
    | some e => exact .left ⟨hfree, trivial⟩
    | none =>
        cases failure' with
        | some e => exact .right ⟨hfree, trivial⟩
        | none =>
            exact .ok (le_refl w) ⟨hm.heap, hm.depth, hm.calls, fun h => absurd hfree h⟩ trivial
  · rw [hm.sink hfree]
    obtain ⟨sink, failure⟩ := m'.sink.write text.toUTF8
    have hm' : ∀ sink, Machines free w { m with sink := sink } { m' with sink := sink } :=
      fun _ => ⟨hm.heap, hm.depth, hm.calls, fun _ => rfl⟩
    cases failure with
    | some e => exact .error (le_refl w) (hm' sink) rfl
    | none => exact .ok (le_refl w) (hm' sink) trivial

/-- Flushing keeps it; if the outputs are free it may fail on one side. -/
theorem follows_flush :
    (pairing free).Follows w (pairing free).any Run.flush Run.flush := by
  intro m m' hm
  unfold Run.flush
  by_cases hfree : free
  · cases m.sink.flushError? with
    | some e => exact .left ⟨hfree, trivial⟩
    | none =>
        cases m'.sink.flushError? with
        | some e => exact .right ⟨hfree, trivial⟩
        | none => exact .ok (le_refl w) hm trivial
  · rw [hm.sink hfree]
    cases m'.sink.flushError? with
    | some e => exact .error (le_refl w) hm rfl
    | none => exact .ok (le_refl w) hm trivial

/-- The counters are the same on both machines. -/
theorem counted : (pairing free).Counted where
  depth hm := hm.depth
  recount f g hm := ⟨hm.heap, congrArg f hm.depth, congrArg g hm.calls, hm.sink⟩

end Renaming

/-- A host that does not see how closures are kept: its registry holds none, and
its own builtins give alike replies on alike arguments. -/
structure Host.Blind (host : Host) : Prop where
  registry : ∀ (L : Likeness) name,
    Option.Rel (Value.Alike L) (Bindings.lookup name host.registry)
      (Bindings.lookup name host.registry)
  foreign : ∀ (L : Likeness) name args args', L.Faithful →
    List.Forall₂ (Value.Alike L) args args' →
    Reply.Alike L (host.foreign name args) (host.foreign name args')

/-- The primitive runs of a blind host respect renamings. -/
theorem Renaming.lawful {host : Host} (hhost : host.Blind) (free : Prop) :
    (Renaming.pairing free).Lawful host host where
  faithful := Renaming.faithful
  later_inBlock hw := hw
  scope_inBlock hs := hs
  scope_inCall hs := hs
  expr_congruent := by
    rintro w e _ rfl
    exact .refl (fun _ _ => rfl) (fun _ => rfl) e
  stmt_congruent := by
    rintro w s _ rfl
    exact .refl (fun _ _ => rfl) (fun _ => rfl) (fun _ => rfl) fun b _ =>
      List.forall₂_same.mpr fun _ _ => rfl
  code_inCall := by
    rintro w b _ rfl
    exact List.forall₂_same.mpr fun _ _ => rfl
  get? hm hs name := hm.heap.get? hs name
  registry w name := hhost.registry w.likeness name
  foreign name hargs := hhost.foreign _ name _ _ (Renaming.faithful _) hargs
  newChild := follows_newChild
  define := follows_define
  close := by
    rintro w s s' b _ name params hs rfl
    exact follows_close name params b hs
  write _ := follows_write
  flush _ := follows_flush
  deeper := by
    rintro w site p _ x x' rfl hx
    exact counted.follows_deeper rfl hx
  insideCall := by
    rintro w site p _ x x' rfl hx
    exact counted.follows_insideCall rfl hx
  returns := by
    rintro w m m' v v' p p' hgive hm
    cases hgive
    by_cases hcalls : m.calls = 0
    · exact .inl ⟨hcalls, hm.calls ▸ hcalls, rfl⟩
    · exact .inr ⟨hcalls, hm.calls ▸ hcalls, trivial⟩
  fault := by
    rintro site f p _ _ rfl
    rfl
  io _ := rfl

end Abacus
