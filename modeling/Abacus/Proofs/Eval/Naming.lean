import Abacus.Proofs.Value.Closures

/-!
# Abacus.Proofs.Eval.Naming

Reading a name and calling it.  Both find the nearest binding of the name
(`Heap.get?_eq_some_iff`), and look in the registry where there is none.  They part only
where the nearest binding cannot be called: reading gives it nevertheless, calling goes on
to the registry, past any function that an outer scope has under the name
(`call_agrees_with_read`).
-/

namespace Abacus

open Stateful

/-! ## Bindings -/

/-- The scopes of a chain up to the first that binds the name leave it unbound, and that
one binds it to the value. -/
def Heap.Nearest (h : Heap) (chain : List FrameId) (name : String) (v : Value) : Prop :=
  ∃ inner id outer, chain = inner ++ id :: outer ∧
    (∀ i ∈ inner, (h.frame i).find? name = none) ∧ (h.frame id).find? name = some v

/-- A name has the value of its nearest binding. -/
theorem Heap.get?_eq_some_iff {h : Heap} {id : FrameId} {name : String} {v : Value} :
    h.get? id name = some v ↔ h.Nearest (h.chain id) name v := by
  rw [get?, List.findSome?_eq_some_iff]
  constructor
  · rintro ⟨inner, i, outer, hchain, hv, hinner⟩
    exact ⟨inner, i, outer, hchain, hinner, hv⟩
  · rintro ⟨inner, i, outer, hchain, hinner, hv⟩
    exact ⟨inner, i, outer, hchain, hv, hinner⟩

/-- A registry of builtins and constants: no name stands for a function of a program. -/
def Registry.Functionless (r : Registry) : Prop :=
  ∀ name f, Bindings.lookup name r ≠ some (.function f)

/-- The standard library has no functions of a program. -/
theorem Registry.functionless_standard : Functionless .standard := by
  intro name f h
  have hnone := (@Host.closureless_of_standard .standard rfl rfl).registry _ _ h
  simp [Value.closures] at hnone

/-- What the registry has under a name can be called if it is a builtin. -/
theorem Registry.Functionless.builtin?_eq {r : Registry} (h : r.Functionless) {name : String}
    {v : Value} (hv : Bindings.lookup name r = some v) :
    (r.builtin? name).map Callee.builtin = v.callee? := by
  rw [builtin?, hv]
  cases v with
  | function f => exact absurd hv (h name f)
  | _ => rfl

/-! ## Resolution -/

variable {host : Host} {heap : Heap} {scope : FrameId} {name : String}

/-- A name is read as what it is bound to, or else as what the registry has. -/
theorem readName_eq_ok_iff {v : Value} :
    readName host heap scope name = .ok v ↔
      (heap.get? scope name).or (Bindings.lookup name host.registry) = some v := by
  unfold readName
  cases (heap.get? scope name).or (Bindings.lookup name host.registry) <;> simp

/-- A name that is not read is undefined. -/
theorem readName_cases (host : Host) (heap : Heap) (scope : FrameId) (name : String) :
    readName host heap scope name = .error (.undefinedName name) ∨
      ∃ v, readName host heap scope name = .ok v := by
  unfold readName
  cases (heap.get? scope name).or (Bindings.lookup name host.registry) with
  | none => exact .inl rfl
  | some v => exact .inr ⟨v, rfl⟩

/-- An undefined name has no binding, and the registry does not have it. -/
theorem unbound_of_readName {f : RuntimeFault} (h : readName host heap scope name = .error f) :
    heap.get? scope name = none ∧ Bindings.lookup name host.registry = none := by
  unfold readName at h
  split at h
  · contradiction
  · next hread => exact Option.or_eq_none_iff.mp hread

/-- What can neither be called as bound nor as a builtin fails as reading does, or because
of the type of what is read. -/
theorem calledName_of_none (hbound : (heap.get? scope name).bind Value.callee? = none)
    (hbuiltin : host.registry.builtin? name = none) :
    calledName host heap scope name =
      (readName host heap scope name).bind fun v => .error (.type (.notCallable name v.type)) := by
  rw [calledName, hbound, hbuiltin]
  dsimp only
  cases readName host heap scope name <;> rfl

/-- Calling fails for want of a name exactly if reading does. -/
theorem calledName_undefined_iff :
    calledName host heap scope name = .error (.undefinedName name) ↔
      readName host heap scope name = .error (.undefinedName name) := by
  constructor
  · intro h
    unfold calledName at h
    split at h
    · contradiction
    split at h
    · contradiction
    split at h
    · cases h
    · next f hf =>
      cases h
      exact hf
  · intro h
    obtain ⟨hbound, hregistered⟩ := unbound_of_readName h
    rw [calledName_of_none (by rw [hbound]; rfl) (by rw [Registry.builtin?, hregistered]), h]
    rfl

/-- A callable that is read is what a call invokes. -/
theorem calledName_of_callee (hregistry : host.registry.Functionless) {v : Value} {c : Callee}
    (hread : readName host heap scope name = .ok v) (hc : v.callee? = some c) :
    calledName host heap scope name = .ok c := by
  obtain hbound | ⟨hbound, hregistered⟩ := Option.or_eq_some_iff.mp (readName_eq_ok_iff.mp hread)
  · rw [calledName, hbound, Option.bind_some, hc]
  · have hbuiltin := hregistry.builtin?_eq hregistered
    rw [hc] at hbuiltin
    obtain ⟨b, hb, rfl⟩ := Option.map_eq_some_iff.mp hbuiltin
    rw [calledName, hbound, Option.bind_none]
    dsimp only
    rw [hb]

/-- What is read and cannot be called leaves the call to the registry. -/
theorem calledName_of_not_callee {v : Value} (hread : readName host heap scope name = .ok v)
    (hv : v.callee? = none) :
    calledName host heap scope name =
      match host.registry.builtin? name with
      | some b => .ok (.builtin b)
      | none => .error (.type (.notCallable name v.type)) := by
  have hbound : (heap.get? scope name).bind Value.callee? = none := by
    obtain hbound | ⟨hbound, _⟩ := Option.or_eq_some_iff.mp (readName_eq_ok_iff.mp hread)
    · rw [hbound, Option.bind_some, hv]
    · rw [hbound, Option.bind_none]
  cases hbuiltin : host.registry.builtin? name with
  | some b =>
      rw [calledName, hbound, hbuiltin]
  | none =>
      rw [calledName_of_none hbound hbuiltin, hread]
      rfl

/-! ## Evaluation -/

/-- Invoke what a call has found. -/
def Recursion.invoke (host : Host) (self : Recursion) :
    Callee → List Expr → Position → FrameId → Run Value
  | .closure f => self.callClosure host f
  | .builtin b => self.callBuiltin host b

variable {fuel : Nat} {args : List Expr} {pos : Position} {m : Machine}

/-- Evaluating a variable gives what its name is read as. -/
theorem evaluate_variable_eq_ok_iff {v : Value} :
    evaluate host (fuel + 1) (.variable name pos) scope m = .ok v m ↔
      readName host m.heap scope name = .ok v := by
  change Run.ofResult pos (readName host m.heap scope name) m = .ok v m ↔ _
  constructor <;> intro h
  · cases hread : readName host m.heap scope name with
    | error f =>
        rw [hread] at h
        contradiction
    | ok w =>
        rw [hread] at h
        cases h
        rfl
  · rw [h]
    rfl

/-- Evaluating a variable stops where its name cannot be read. -/
theorem evaluate_variable_eq_fault_iff {f : RuntimeFault} :
    evaluate host (fuel + 1) (.variable name pos) scope m = Run.fault f pos m ↔
      readName host m.heap scope name = .error f := by
  change Run.ofResult pos (readName host m.heap scope name) m = _ ↔ _
  constructor <;> intro h
  · cases hread : readName host m.heap scope name with
    | ok v =>
        rw [hread] at h
        contradiction
    | error g =>
        rw [hread] at h
        cases h
        rfl
  · rw [h]
    rfl

/-- Evaluating a call invokes what is found under its name. -/
theorem evaluate_call_of_ok {c : Callee} (h : calledName host m.heap scope name = .ok c) :
    evaluate host (fuel + 1) (.call name args pos) scope m =
      (Recursion.ofFuel host fuel).invoke host c args pos scope m := by
  have hfound : Run.ofResult pos (calledName host m.heap scope name) m = .ok c m := by
    rw [h]
    rfl
  have hget : (get : Run Machine) m = .ok m m := rfl
  rw [evaluate_succ, Recursion.evalStep, Recursion.call, bind_of_ok _ hget, bind_of_ok _ hfound]
  cases c <;> rfl

/-- Evaluating a call stops where nothing can be called under its name. -/
theorem evaluate_call_of_error {f : RuntimeFault}
    (h : calledName host m.heap scope name = .error f) :
    evaluate host (fuel + 1) (.call name args pos) scope m = Run.fault f pos m := by
  have hfound : Run.ofResult pos (calledName host m.heap scope name) m =
      .error (.failed (.runtime f pos)) m := by
    rw [h]
    rfl
  have hget : (get : Run Machine) m = .ok m m := rfl
  rw [evaluate_succ, Recursion.evalStep, Recursion.call, bind_of_ok _ hget, bind_of_error _ hfound]
  rfl

/-- **Calling a name agrees with reading it.**  Evaluated in any scope of any machine, a
name is undefined or it has a value: that of its nearest binding, or else what the registry
has under it.  A call finds the name undefined exactly if reading does.  If a function or a
builtin is read, the call invokes just that.  If anything else is read, the call invokes the
builtin that the registry has under the name; if it has none, the call fails with a type
fault that names the type of what was read.  So it never invokes a function of an outer
scope. -/
theorem call_agrees_with_read (host : Host) (hregistry : host.registry.Functionless) (fuel : Nat)
    (name : String) (args : List Expr) (pos : Position) (scope : FrameId) (m : Machine) :
    let read := evaluate host (fuel + 1) (.variable name pos) scope m
    let call := evaluate host (fuel + 1) (.call name args pos) scope m
    let invoke := fun c => (Recursion.ofFuel host fuel).invoke host c args pos scope m
    let fault := fun f => (Run.fault f pos m : EStateM.Result Stop Machine Value)
    (read = fault (.undefinedName name) ∨ ∃ v, read = .ok v m) ∧
    (∀ v, m.heap.Nearest (m.heap.chain scope) name v → read = .ok v m) ∧
    (∀ v, m.heap.get? scope name = none → Bindings.lookup name host.registry = some v →
      read = .ok v m) ∧
    (calledName host m.heap scope name = .error (.undefinedName name) ↔
      read = fault (.undefinedName name)) ∧
    (read = fault (.undefinedName name) → call = fault (.undefinedName name)) ∧
    (∀ v c, read = .ok v m → v.callee? = some c → call = invoke c) ∧
    (∀ v, read = .ok v m → v.callee? = none →
      (∀ b, host.registry.builtin? name = some b → call = invoke (.builtin b)) ∧
      (host.registry.builtin? name = none → call = fault (.type (.notCallable name v.type))) ∧
      ∀ f, calledName host m.heap scope name ≠ .ok (.closure f)) := by
  intro read call invoke fault
  refine ⟨?_, fun v hv => ?_, fun v hv hregistered => ?_, ?_, fun h => ?_, fun v c hv hc => ?_,
    fun v hv hnone => ?_⟩
  · exact (readName_cases host m.heap scope name).imp evaluate_variable_eq_fault_iff.mpr
      fun ⟨v, hread⟩ => ⟨v, evaluate_variable_eq_ok_iff.mpr hread⟩
  · have hbound := Heap.get?_eq_some_iff.mpr hv
    exact evaluate_variable_eq_ok_iff.mpr
      (readName_eq_ok_iff.mpr (Option.or_eq_some_iff.mpr (.inl hbound)))
  · exact evaluate_variable_eq_ok_iff.mpr
      (readName_eq_ok_iff.mpr (Option.or_eq_some_iff.mpr (.inr ⟨hv, hregistered⟩)))
  · exact calledName_undefined_iff.trans evaluate_variable_eq_fault_iff.symm
  · exact evaluate_call_of_error
      (calledName_undefined_iff.mpr (evaluate_variable_eq_fault_iff.mp h))
  · exact evaluate_call_of_ok
      (calledName_of_callee hregistry (evaluate_variable_eq_ok_iff.mp hv) hc)
  · have hcalled := calledName_of_not_callee (evaluate_variable_eq_ok_iff.mp hv) hnone
    refine ⟨fun b hb => ?_, fun hb => ?_, fun f hf => ?_⟩
    · rw [hb] at hcalled
      exact evaluate_call_of_ok hcalled
    · rw [hb] at hcalled
      exact evaluate_call_of_error hcalled
    · rw [hf] at hcalled
      split at hcalled <;> cases hcalled

/-- In the inner scope a number is bound to `sin`, in the outer one a function: the name
reads as the number, and a call invokes the sine of the library. -/
theorem call_agrees_with_read_shadowed :
    let f : Closure := ⟨"sin", ["x"], [], 0, 0⟩
    let heap := ((Heap.empty.newRoot.newChild 0).define 0 "sin" (.function f)).define 1 "sin"
      (.number 1)
    let m : Machine := ⟨heap, .unlimited, 0, 0⟩
    let read := evaluate .standard 1 (.variable "sin" .first) 1 m
    let call := evaluate .standard 1 (.call "sin" [] .first) 1 m
    Host.standard.registry.Functionless ∧ heap.get? 0 "sin" = some (.function f) ∧
      read = .ok (.number 1) m ∧
      call = (Recursion.ofFuel .standard 0).invoke .standard (.builtin (.elementary .sin)) []
        .first 1 m := by
  intro f heap m read call
  obtain ⟨_, hnearest, _, _, _, _, hother⟩ :=
    call_agrees_with_read .standard Registry.functionless_standard 0 "sin" [] .first 1 m
  have hread : read = .ok (.number 1) m := hnearest _ ⟨[], 1, [0], rfl, by simp, rfl⟩
  exact ⟨Registry.functionless_standard, rfl, hread, (hother _ hread rfl).1 _ rfl⟩

end Abacus
