import Abacus.Proofs.Eval.Coherence

/-!
# Abacus.Proofs.Value.Closures

The closures and builtins in values, which are what a program can call.  Operators
make none, loops visit those of the list that they go through, and the standard
builtins give none back.  A host is `Closureless` if it brings in no closures of its
own; then every closure that a builtin gives back was in one of its arguments.
-/

namespace Abacus

namespace Value

mutual
/-- The closures in a value, those in lists included. -/
def closures : Value → List Closure
  | function f => [f]
  | list items => closuresAll items
  | number _ | string _ | boolean _ | builtin _ | none => []

/-- The closures in values. -/
def closuresAll : List Value → List Closure
  | [] => []
  | v :: vs => closures v ++ closuresAll vs
end

mutual
/-- The closures and builtins in a value, those in lists included. -/
def callees : Value → List Callee
  | function f => [.closure f]
  | builtin b => [.builtin b]
  | list items => calleesAll items
  | number _ | string _ | boolean _ | none => []

/-- The closures and builtins in values. -/
def calleesAll : List Value → List Callee
  | [] => []
  | v :: vs => callees v ++ calleesAll vs
end

/-- What can be called in a list can be called in one of its items. -/
theorem mem_calleesAll {c : Callee} {vs : List Value} :
    c ∈ calleesAll vs ↔ ∃ v ∈ vs, c ∈ v.callees := by
  induction vs with
  | nil => simp [calleesAll]
  | cons v vs ih => simp only [calleesAll, List.mem_append, ih, List.exists_mem_cons_iff]

mutual
/-- The closures are the callees that are closures. -/
theorem mem_closures_iff {f : Closure} : ∀ {v : Value}, f ∈ v.closures ↔ .closure f ∈ v.callees
  | .function g => by simp [closures, callees]
  | .list items => mem_closuresAll_iff
  | .builtin b => by simp [closures, callees]
  | .number _ | .string _ | .boolean _ | .none => by simp [closures, callees]

/-- The closures in values are the callees that are closures. -/
theorem mem_closuresAll_iff {f : Closure} :
    ∀ {vs : List Value}, f ∈ closuresAll vs ↔ .closure f ∈ calleesAll vs
  | [] => by simp [closuresAll, calleesAll]
  | v :: vs => by
      rw [closuresAll, calleesAll, List.mem_append, List.mem_append, mem_closures_iff,
        mem_closuresAll_iff]
end

/-- What is like something for a likeness of nothing holds no closures. -/
theorem Alike.closures_eq_nil {v w : Value}
    (h : v.Alike ⟨fun _ _ => False, fun _ _ => False, fun _ _ => False⟩ w) : v.closures = [] := by
  refine h.forms (P := fun v _ => v.closures = []) (fun _ => rfl) (fun _ => rfl) (fun _ => rfl)
    ?_ (fun f g hfg => hfg.body.elim) (fun _ => rfl) rfl
  intro vs ws hvs
  show closuresAll vs = []
  induction hvs with
  | nil => rfl
  | cons hv _ ih => rw [closuresAll, hv, ih, List.nil_append]

/-! ## Plain results -/

/-- The value of a result, if it has one, holds nothing that could be called. -/
def Plain {ε : Type} (r : Except ε Value) : Prop := ∀ v, r = .ok v → v.callees = []

namespace Plain

variable {ε α : Type}

/-- In particular it holds no closures. -/
theorem closures_eq_nil {r : Except ε Value} (h : Plain r) {v : Value} (hv : r = .ok v) :
    v.closures = [] := by
  refine List.eq_nil_iff_forall_not_mem.mpr fun f hf => ?_
  rw [mem_closures_iff, h v hv] at hf
  contradiction

/-- A value without callees is plain. -/
theorem ok {v : Value} (h : v.callees = []) : Plain (.ok v : Except ε Value) := by
  rintro _ ⟨⟩
  exact h

/-- A fault is plain. -/
theorem error (e : ε) : Plain (.error e : Except ε Value) := by
  intro v h
  contradiction

/-- It depends on the last computation only. -/
theorem bind {x : Except ε α} {f : α → Except ε Value} (h : ∀ a, Plain (f a)) :
    Plain (x >>= f) := by
  cases x with
  | ok a => exact h a
  | error e => exact error e

/-- A plain value may be wrapped up. -/
theorem map {f : α → Value} (hf : ∀ a, (f a).callees = []) (x : Except ε α) : Plain (x.map f) := by
  cases x with
  | ok a => exact ok (hf a)
  | error e => exact error e

/-- A choice of two plain results. -/
theorem ite {c : Prop} [Decidable c] {x y : Except ε Value} (hx : Plain x) (hy : Plain y) :
    Plain (if c then x else y) := by
  split
  · exact hx
  · exact hy

end Plain

/-! ## Operators -/

theorem plain_sum (v w : Value) : Plain (BinaryOp.sum v w) := by
  unfold BinaryOp.sum
  split
  · exact .ok rfl
  · exact .ok rfl
  · exact .error _

theorem plain_numeric (op : BinaryOp) (v w : Value) : Plain (op.numeric v w) := by
  unfold BinaryOp.numeric
  split
  · exact .ok rfl
  · exact .error _

theorem plain_quotient (op : BinaryOp) (v w : Value) : Plain (op.quotient v w) := by
  unfold BinaryOp.quotient
  split
  · exact .ite (.error _) (.ok rfl)
  · exact .error _

theorem plain_ordering (op : BinaryOp) (v w : Value) : Plain (op.ordering v w) := by
  unfold BinaryOp.ordering
  split
  · exact .ok rfl
  · exact .ok rfl
  · exact .error _

/-- Operators on two values make nothing that could be called. -/
theorem plain_apply (op : BinaryOp) (v w : Value) : Plain (op.apply v w) := by
  cases op with
  | add => exact plain_sum v w
  | subtract | multiply | power => exact plain_numeric _ v w
  | divide | modulo => exact plain_quotient _ v w
  | equal | notEqual => exact .map (fun _ => rfl) _
  | less | lessEqual | greater | greaterEqual => exact plain_ordering _ v w
  | and | or => exact .bind fun _ => .bind fun _ => .ok rfl

/-- Operators on one value make nothing that could be called. -/
theorem plain_unary (op : UnaryOp) (v : Value) : Plain (op.apply v) := by
  cases op with
  | negate | plus | not => exact .map (fun _ => rfl) _

/-- A loop visits only callees of what it goes through. -/
theorem mem_callees_of_items {v : Value} {vs : List Value} (h : v.items = .ok vs) {c : Callee}
    (hc : c ∈ calleesAll vs) : c ∈ v.callees := by
  cases v with
  | list items =>
      cases h
      exact hc
  | string s =>
      cases h
      obtain ⟨u, hu, hcu⟩ := mem_calleesAll.mp hc
      obtain ⟨c, _, rfl⟩ := List.mem_map.mp hu
      contradiction
  | _ => cases h

/-- So it visits only closures of it. -/
theorem mem_closures_of_items {v : Value} {vs : List Value} (h : v.items = .ok vs) {f : Closure}
    (hf : f ∈ closuresAll vs) : f ∈ v.closures :=
  mem_closures_iff.mpr (mem_callees_of_items h (mem_closuresAll_iff.mp hf))

end Value

/-! ## Builtins -/

namespace Builtin

open Value

theorem plain_lengthOf (args : List Value) : Plain (lengthOf args) := by
  refine .bind fun v => ?_
  split
  · exact .ok rfl
  · exact .ok rfl
  · exact .error _

/-- Numbers in a progression cannot be called. -/
theorem callees_progression (start step : Float) (count : Nat) :
    (Value.list (progression start step count)).callees = [] := by
  show calleesAll (progression start step count) = []
  rw [List.eq_nil_iff_forall_not_mem]
  intro c hc
  obtain ⟨v, hv, hcv⟩ := mem_calleesAll.mp hc
  obtain ⟨i, _, rfl⟩ := List.mem_map.mp hv
  contradiction

theorem plain_rangeOf (args : List Value) : Plain (rangeOf args) := by
  unfold rangeOf
  extract_lets fromStart
  have hstart : ∀ start, Plain (fromStart start) := by
    intro start
    refine .bind fun stop => ?_
    extract_lets byStep
    have hstep : ∀ step, Plain (byStep step) := fun step =>
      .ite (.error _) (.ite (.error _) (.ite (.error _) (.ok (callees_progression _ _ _))))
    exact .ite (.bind hstep) (hstep 1)
  exact .ite (hstart 0) (.bind hstart)

theorem plain_logarithm (args : List Value) : Plain (logarithm args) := by
  refine .bind fun x => .ite (.error _) (.ite (.ok rfl) ?_)
  exact .bind fun base => .ite (.error _) (.ok rfl)

theorem plain_numberOf (args : List Value) : Plain (numberOf args) := by
  refine .bind fun v => ?_
  split
  · exact .ok rfl
  · split
    · exact .ok rfl
    · exact .error _
  · exact .error _

/-- The builtins that are not the host's own give nothing back that could be called. -/
theorem plain_reply (foreign : String → List Value → Reply) (b : Builtin) (args : List Value)
    (hb : ∀ name arity, b ≠ .foreign name arity) : Plain (b.reply foreign args).answer := by
  cases b with
  | elementary f => exact .map (fun _ => rfl) _
  | sqrt | asin | acos => exact .bind fun _ => .ite (.error _) (.ok rfl)
  | log => exact plain_logarithm args
  | pow => exact .bind fun _ => .bind fun _ => .ok rfl
  | min | max => exact .bind fun _ => .bind fun _ => .ok rfl
  | print => exact .ok rfl
  | len => exact plain_lengthOf args
  | range => exact plain_rangeOf args
  | str => exact .bind fun _ => .ok rfl
  | num => exact plain_numberOf args
  | foreign name arity => exact absurd rfl (hb name arity)

end Builtin

/-! ## Hosts -/

/-- A host that brings in no closures of its own: the entries of its registry are
builtins and plain constants, or lists of such, and its own builtins give back at most
the closures of their arguments. -/
structure Host.Closureless (host : Host) : Prop where
  registry : ∀ name v, Bindings.lookup name host.registry = some v → v.closures = []
  foreign : ∀ name args v, (host.foreign name args).answer = .ok v →
    ∀ f ∈ v.closures, f ∈ Value.closuresAll args

namespace Host

/-- The closures that a builtin gives back were in its arguments. -/
theorem Closureless.reply {host : Host} (hhost : host.Closureless) {b : Builtin}
    {args : List Value} {v : Value} (h : (b.reply host.foreign args).answer = .ok v) :
    ∀ f ∈ v.closures, f ∈ Value.closuresAll args := by
  cases b with
  | foreign name arity => exact hhost.foreign name args v h
  | _ =>
      have hclosures := Value.Plain.closures_eq_nil (Builtin.plain_reply _ _ _ (by simp)) h
      rw [hclosures]
      simp

/-- The standard library brings in no closures. -/
theorem closureless_of_standard {host : Host} (hregistry : host.registry = .standard)
    (hforeign : host.foreign = noForeign) : host.Closureless := by
  constructor
  · intro name v h
    have halike := (blind_of_standard hregistry hforeign).registry
      ⟨fun _ _ => False, fun _ _ => False, fun _ _ => False⟩ name
    rw [h] at halike
    cases halike with
    | some hv => exact hv.closures_eq_nil
  · intro name args v h
    rw [hforeign] at h
    cases h
    exact fun f hf => absurd hf List.not_mem_nil

end Host

end Abacus
