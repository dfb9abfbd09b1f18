import Abacus.Proofs.Eval.Visit
import Abacus.Proofs.Session.Step

/-!
# Abacus.Proofs.Eval.Counters

What runs do with the counters of nested blocks and calls.  Every run leaves
them as it found them, whatever its outcome, and a value is given back only
inside a call.  Both are read off the mirror of a run with itself.
-/

namespace Abacus

namespace Mirror

/-- The mirror of a run with itself. -/
def plain : Mirror := ⟨fun _ => True, fun _ => False, False⟩

/-- The mirror of a run with itself that must not stop for a stray return. -/
def lexical : Mirror := ⟨fun _ => True, fun _ => False, True⟩

/-- The mirror of a run with itself in which the counters keep to the limit. -/
def bounded (host : Host) : Mirror :=
  ⟨fun c => c.calls ≤ c.depth ∧ c.depth ≤ host.maxDepth, fun _ => False, False⟩

/-- Nothing is asked of the counters, and nothing excused. -/
theorem suits_plain (host : Host) : plain.Suits host host :=
  suits_self host (fun _ _ _ => trivial) fun _ _ _ => trivial

/-- Without an excuse, what is asked is that no return is stray. -/
theorem suits_lexical (host : Host) : lexical.Suits host host :=
  suits_self host (fun _ _ _ => trivial) fun _ _ _ => trivial

/-- Blocks and calls are counted within the limit, as `deeper` looks at it. -/
theorem suits_bounded (host : Host) : (bounded host).Suits host host := by
  apply suits_self
  · rintro c ⟨hcalls, hdepth⟩ hlt
    exact ⟨Nat.le_succ_of_le hcalls, hlt⟩
  · rintro c ⟨hcalls, hdepth⟩ hlt
    exact ⟨Nat.succ_le_succ hcalls, hlt⟩

variable {α : Type} {x : Run α} {A : Counters → α → α → Prop}

/-- A run that follows itself keeps the counters. -/
theorem counters_final (h : ∀ c, plain.pairing.Follows c A x x) (hA : ∀ c a b, A c a b → a = b)
    (m : Machine) : (x.final m).counters = m.counters := by
  obtain ⟨_, _, _, he⟩ | ⟨_, hcounters, _⟩ := lockstep (h m.counters) trivial hA
  · exact he.elim
  · exact hcounters

/-- A run that follows itself gives a value that is related to itself by the
counters it started with. -/
theorem related_ok (h : ∀ c, plain.pairing.Follows c A x x) (hA : ∀ c a b, A c a b → a = b)
    {m m' : Machine} {a : α} (hr : x m = .ok a m') : A m.counters a a := by
  obtain ⟨_, _, _, he⟩ | ⟨_, _, hok, _⟩ := lockstep (h m.counters) trivial hA
  · exact he.elim
  · exact hok a m' hr

end Mirror

open Mirror

variable (host : Host) (fuel : Nat)

/-! ## Counters -/

/-- Evaluation leaves the counters as it found them, whatever its outcome. -/
theorem counters_evaluate (e : Expr) (scope : FrameId) (m : Machine) :
    ((evaluate host fuel e scope).final m).counters = m.counters :=
  counters_final (fun _ => ((suits_plain host).paired_ofFuel fuel).eval rfl rfl)
    (fun _ _ _ => eq_of_value) m

theorem follows_execute (s : Stmt) (scope : FrameId) (c : Counters) :
    plain.pairing.Follows c plain.pairing.flow (execute host fuel s scope)
      (execute host fuel s scope) :=
  ((suits_plain host).paired_ofFuel fuel).exec (stmt_refl id c s) rfl

/-- Execution leaves the counters as it found them. -/
theorem counters_execute (s : Stmt) (scope : FrameId) (m : Machine) :
    ((execute host fuel s scope).final m).counters = m.counters :=
  counters_final (follows_execute host fuel s scope) (fun _ _ _ => eq_of_flow) m

theorem follows_executeBlock (stmts : List Stmt) (scope : FrameId) (c : Counters) :
    plain.pairing.Follows c plain.pairing.flow (executeBlock host fuel stmts scope)
      (executeBlock host fuel stmts scope) :=
  ((suits_plain host).paired_ofFuel fuel).execAll rfl (stmts_refl id c stmts)

/-- The statements of a block leave the counters as they found them. -/
theorem counters_executeBlock (stmts : List Stmt) (scope : FrameId) (m : Machine) :
    ((executeBlock host fuel stmts scope).final m).counters = m.counters :=
  counters_final (follows_executeBlock host fuel stmts scope) (fun _ _ _ => eq_of_flow) m

/-- A body, one level deeper, leaves the counters as it found them. -/
theorem counters_deeper (stmts : List Stmt) (scope : FrameId) (pos : Position) (m : Machine) :
    ((Run.deeper host.maxDepth pos (executeBlock host fuel stmts scope)).final m).counters =
      m.counters :=
  counters_final
    (fun _ => (suits_plain host).follows_deeper pos (follows_executeBlock host fuel stmts scope _))
    (fun _ _ _ => eq_of_flow) m

theorem follows_block (pos : Position) (stmts : List Stmt) (scope : FrameId) (c : Counters) :
    plain.pairing.Follows c plain.pairing.flow
      ((Recursion.ofFuel host fuel).block host pos stmts scope)
      ((Recursion.ofFuel host fuel).block host pos stmts scope) :=
  -- the pairing does not tell sites apart, so any block serves
  have hpos : plain.pairing.place (.keyword .ifKw) pos pos := rfl
  ((suits_plain host).paired_ofFuel fuel).block (suits_plain host).lawful hpos rfl
    (stmts_refl id c.inBlock stmts)

/-- A block leaves the counters as it found them. -/
theorem counters_block (pos : Position) (stmts : List Stmt) (scope : FrameId) (m : Machine) :
    (((Recursion.ofFuel host fuel).block host pos stmts scope).final m).counters = m.counters :=
  counters_final (follows_block host fuel pos stmts scope) (fun _ _ _ => eq_of_flow) m

/-! ## Returns -/

/-- Where a value is given back a call is open. -/
theorem calls_ne_zero_of_flow {m : Machine} {v : Value}
    (h : plain.pairing.flow m.counters (.returned v) (.returned v)) : m.calls ≠ 0 := by
  cases h with
  | returned hr _ => exact hr

/-- A statement gives a value back only inside a call. -/
theorem calls_ne_zero_of_execute {s : Stmt} {scope : FrameId} {m m' : Machine} {v : Value}
    (h : execute host fuel s scope m = .ok (.returned v) m') : m.calls ≠ 0 :=
  calls_ne_zero_of_flow
    (related_ok (follows_execute host fuel s scope) (fun _ _ _ => eq_of_flow) h)

/-- A block gives a value back only inside a call. -/
theorem calls_ne_zero_of_executeBlock {stmts : List Stmt} {scope : FrameId} {m m' : Machine}
    {v : Value} (h : executeBlock host fuel stmts scope m = .ok (.returned v) m') : m.calls ≠ 0 :=
  calls_ne_zero_of_flow
    (related_ok (follows_executeBlock host fuel stmts scope) (fun _ _ _ => eq_of_flow) h)

end Abacus
