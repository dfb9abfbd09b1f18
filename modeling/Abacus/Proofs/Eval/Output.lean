import Abacus.Proofs.Eval.Compose

/-!
# Abacus.Proofs.Eval.Output

What a run writes does not depend on where it writes.  `Run.Prints` says that on
every sink that can be flushed a run writes the same bytes and has the same
result, as far as the sink takes them; where it takes no more, the run stops with
the failure of the sink, which holds what it took.  Every run prints so
(`exists_prints_evaluate`, `exists_prints_perform`).

The second half is about what the runs come by.  `Abreast` compares a run on a
sink with a limit to the run on a sink without one, each watched: up to the limit
an alarm is raised in both or in none, beyond it the first run is over.  So both
come by the same nodes until the limit is passed (`everywhere_limited_iff`).
-/

namespace Abacus

variable {α β : Type}

/-! ## Sinks -/

namespace Sink

/-- A sink that holds some bytes and takes everything. -/
def endless (held : ByteArray) : Sink := ⟨held, none, true⟩

/-- A sink that holds some bytes and takes so many in all. -/
def limited (held : ByteArray) (limit : Nat) : Sink := ⟨held, some limit, true⟩

/-- A sink without a limit that can be flushed takes everything. -/
theorem eq_endless {s : Sink} (hcapacity : s.capacity = none) (hflush : s.flushable = true) :
    s = endless s.written := by
  rw [endless, ← hcapacity, ← hflush]

/-- No bytes are always taken. -/
theorem write_empty (s : Sink) : s.write .empty = (s, none) := by
  unfold write
  split
  · rw [ByteArray.append_empty]
  · simp [ByteArray.append_empty]

@[simp] theorem flushable_write (s : Sink) (u : ByteArray) :
    (s.write u).1.flushable = s.flushable := by
  unfold write
  split
  · rfl
  · dsimp only
    split <;> rfl

/-- To write bytes after others is to write them together. -/
theorem write_append (s : Sink) (u v : ByteArray) :
    s.write (u ++ v) =
      match s.write u with
      | (s', none) => s'.write v
      | (s', some e) => (s', some e) := by
  obtain ⟨held, capacity, flushable⟩ := s
  cases capacity with
  | none => simp [write, ByteArray.append_assoc]
  | some capacity =>
      simp only [write, ByteArray.size_append]
      by_cases hu : u.size ≤ capacity - held.size
      · have hroom : capacity - (held.size + u.size) = capacity - held.size - u.size := by omega
        simp only [hu, if_true, ByteArray.size_append, hroom]
        by_cases hv : v.size ≤ capacity - held.size - u.size
        · have hboth : u.size + v.size ≤ capacity - held.size := by omega
          simp only [hv, hboth, if_true, ByteArray.append_assoc]
        · have hboth : ¬ u.size + v.size ≤ capacity - held.size := by omega
          have hfirst : u.extract 0 (capacity - held.size) = u := by
            rw [← Nat.max_eq_left hu, ByteArray.extract_zero_max_size]
          simp only [hv, hboth, if_false, ByteArray.append_assoc, ByteArray.extract_append, hfirst,
            Nat.zero_sub]
      · have hboth : ¬ u.size + v.size ≤ capacity - held.size := by omega
        have hrest : v.extract 0 (capacity - held.size - u.size) = .empty := by
          rw [show capacity - held.size - u.size = 0 by omega, ByteArray.extract_same]
        simp only [hu, hboth, if_false, ByteArray.extract_append, Nat.zero_sub, hrest,
          ByteArray.append_empty]

/-- A sink without a limit takes everything. -/
@[simp] theorem write_endless (held u : ByteArray) :
    (endless held).write u = (endless (held ++ u), none) := rfl

/-- A sink takes all bytes for which there is room. -/
theorem write_limited_of_le {held u : ByteArray} {limit : Nat} (h : (held ++ u).size ≤ limit) :
    (limited held limit).write u = (limited (held ++ u) limit, none) := by
  rw [ByteArray.size_append] at h
  have hroom : u.size ≤ limit - held.size := by omega
  simp [write, limited, hroom]

/-- A sink takes as many bytes as fit and fails, if there is no room for all. -/
theorem write_limited_of_lt {held u : ByteArray} {limit : Nat} (h : limit < (held ++ u).size)
    (hheld : held.size ≤ limit) :
    (limited held limit).write u =
      (limited (held ++ u.extract 0 (limit - held.size)) limit, some .sinkFull) := by
  rw [ByteArray.size_append] at h
  have hroom : ¬ u.size ≤ limit - held.size := by omega
  simp [write, limited, hroom]

end Sink

/-! ## Printing -/

/- The output of a run is what it writes when everything is taken.  The section is layered:

* **outputs on sinks** (`Output.On`) -- the whole of it, or as much as fits and then a
  failure;
* **parts** (`Run.Prints`) -- the primitive runs, and one run after another, where the outputs
  are put one after the other;
* **every run** (`exists_prints_perform`) -- by `Run.composable_prints`, as evaluation is
  composed of such parts. -/

/-- The bytes that a run writes, and its result if they are all taken. -/
structure Output (α : Type) where
  bytes : ByteArray
  result : EStateM.Result Stop Machine α

/-- What comes of an output on a sink: the bytes are written, and the result is
that of the output, or the failure of the sink. -/
inductive Output.On (o : Output α) (sink : Sink) : EStateM.Result Stop Machine α → Prop
  | whole {sink' : Sink} (h : sink.write o.bytes = (sink', none)) :
      o.On sink (Result.withSink o.result sink')
  | cut {sink' : Sink} {e : IoError} {m : Machine} (h : sink.write o.bytes = (sink', some e))
      (hm : m.sink = sink') : o.On sink (.error (.failed (.io e)) m)

namespace Output.On

variable {o : Output α} {sink sink' : Sink} {r : EStateM.Result Stop Machine α}

/-- If the sink takes the bytes, the result is that of the output. -/
theorem eq_of_taken (h : o.On sink r) (hw : sink.write o.bytes = (sink', none)) :
    r = Result.withSink o.result sink' := by
  cases h with
  | whole hw' =>
      rw [hw'] at hw
      cases hw
      rfl
  | cut hw' _ =>
      rw [hw'] at hw
      cases hw

/-- If it does not, the run has stopped with its failure. -/
theorem eq_of_refused {e : IoError} (h : o.On sink r)
    (hw : sink.write o.bytes = (sink', some e)) :
    ∃ m, r = .error (.failed (.io e)) m ∧ m.sink = sink' := by
  cases h with
  | whole hw' =>
      rw [hw'] at hw
      cases hw
  | @cut sink₁ e₁ m hw' hm =>
      rw [hw'] at hw
      cases hw
      exact ⟨m, rfl, hm⟩

end Output.On

/-- From the machine, with any sink that can be flushed, the run has the output. -/
def Run.Prints (x : Run α) (m : Machine) (o : Output α) : Prop :=
  ∀ sink : Sink, sink.flushable = true → o.On sink (x (m.withSink sink))

namespace Run.Prints

variable {x : Run α} {f : α → Run β} {m m' : Machine} {o : Output α} {u : ByteArray}

/-- On a sink that takes everything the bytes are appended. -/
theorem endless (h : x.Prints m o) (held : ByteArray) :
    x (m.withSink (.endless held)) = Result.withSink o.result (.endless (held ++ o.bytes)) :=
  (h _ rfl).eq_of_taken (Sink.write_endless held o.bytes)

/-- On a sink with room for the bytes the run is as on one that takes
everything. -/
theorem limited_of_le (h : x.Prints m o) {held : ByteArray} {limit : Nat}
    (hle : (held ++ o.bytes).size ≤ limit) :
    x (m.withSink (.limited held limit)) =
      Result.withSink o.result (.limited (held ++ o.bytes) limit) :=
  (h _ rfl).eq_of_taken (Sink.write_limited_of_le hle)

/-- On a sink without room for the bytes the run stops, and the sink holds as many
as it takes. -/
theorem limited_of_lt (h : x.Prints m o) {held : ByteArray} {limit : Nat}
    (hheld : held.size ≤ limit) (hlt : limit < (held ++ o.bytes).size) :
    ∃ m', x (m.withSink (.limited held limit)) = .error (.failed (.io .sinkFull)) m' ∧
      m'.sink = .limited (held ++ o.bytes.extract 0 (limit - held.size)) limit :=
  (h _ rfl).eq_of_refused (Sink.write_limited_of_lt hlt hheld)

/-- After a value the second run prints on. -/
theorem bind_ok {a : α} {o : Output β} (hx : x.Prints m ⟨u, .ok a m'⟩) (hf : (f a).Prints m' o) :
    (x >>= f).Prints m ⟨u ++ o.bytes, o.result⟩ := by
  intro sink hflush
  have hon := hx sink hflush
  generalize hr : x (m.withSink sink) = r at hon
  cases hon with
  | @whole sink₁ hw =>
      rw [Stateful.bind_of_ok f hr]
      have hflush₁ : sink₁.flushable = true := by
        rw [← hflush, ← Sink.flushable_write sink u, hw]
      have hon₁ := hf sink₁ hflush₁
      generalize f a (m'.withSink sink₁) = r₁ at hon₁ ⊢
      cases hon₁ with
      | whole hw₁ => exact .whole (by simp only [Sink.write_append, hw, hw₁])
      | cut hw₁ hm₁ => exact .cut (by simp only [Sink.write_append, hw, hw₁]) hm₁
  | cut hw hm₁ =>
      rw [Stateful.bind_of_error f hr]
      exact .cut (by simp only [Sink.write_append, hw]) hm₁

/-- After a stop there is no more to print. -/
theorem bind_error {e : Stop} (hx : x.Prints m ⟨u, .error e m'⟩) :
    (x >>= f).Prints m ⟨u, .error e m'⟩ := by
  intro sink hflush
  have hon := hx sink hflush
  generalize hr : x (m.withSink sink) = r at hon
  cases hon with
  | whole hw =>
      rw [Stateful.bind_of_error f hr]
      exact .whole hw
  | cut hw hm₁ =>
      rw [Stateful.bind_of_error f hr]
      exact .cut hw hm₁

/-- A silent run prints nothing. -/
theorem silent (hx : x.Silent) (m : Machine) : x.Prints m ⟨.empty, x m⟩ := by
  intro sink _
  rw [hx m sink]
  exact .whole sink.write_empty

/-- Writing prints the bytes of the text. -/
theorem write (text : String) (m : Machine) :
    (Run.write text).Prints m ⟨text.toUTF8, .ok () m⟩ := by
  intro sink _
  unfold Run.write
  simp only [Machine.withSink_sink]
  cases hw : sink.write text.toUTF8 with
  | mk sink' failure =>
      cases failure with
      | none => exact .whole hw
      | some e => exact .cut hw rfl

/-- Flushing prints nothing. -/
theorem flush (m : Machine) : Run.flush.Prints m ⟨.empty, .ok () m⟩ := by
  intro sink hflush
  have hok : Run.flush (m.withSink sink) = .ok () (m.withSink sink) := by
    simp [Run.flush, Sink.flushError?, hflush]
  rw [hok]
  exact .whole sink.write_empty

/-- A run that looks at the machine, but not at its sink, prints what it goes on with. -/
theorem look {f : Machine → Run α} (hf : ∀ m sink, f (m.withSink sink) = f m)
    (h : (f m).Prints m o) : (get >>= f).Prints m o := by
  intro sink hflush
  show o.On sink (f (m.withSink sink) (m.withSink sink))
  rw [hf]
  exact h sink hflush

/-- The counters may be changed around a run that prints. -/
theorem around {before after : Machine → Machine}
    (hbefore : ∀ m sink, before (m.withSink sink) = (before m).withSink sink)
    (hafter : ∀ m sink, after (m.withSink sink) = (after m).withSink sink)
    (h : x.Prints (before m) o) :
    ∃ o', (Run.around before after x).Prints m o' := by
  refine ⟨⟨o.bytes, Run.around id after (fun _ => o.result) m⟩, fun sink hflush => ?_⟩
  have hon := h sink hflush
  unfold Run.around
  rw [hbefore]
  generalize x ((before m).withSink sink) = r at hon ⊢
  cases hon with
  | @whole sink' hw =>
      obtain ⟨bytes, result⟩ := o
      cases result with
      | ok a m₁ =>
          simp only [Result.withSink, hafter]
          exact .whole hw
      | error e m₁ =>
          simp only [Result.withSink, hafter]
          exact .whole hw
  | @cut sink' e m₁ hw hm₁ =>
      have hsink : (after m₁).sink = m₁.sink := by
        have hself := hafter m₁ m₁.sink
        rw [Machine.withSink_self] at hself
        rw [hself, Machine.withSink_sink]
      exact .cut hw (hsink.trans hm₁)

end Run.Prints

/-- To print is a composable property of a run. -/
theorem Run.composable_prints :
    Run.Composable fun {α} (x : Unit → Run α) => ∀ m, ∃ o, (x ()).Prints m o where
  silent hx m := ⟨_, .silent hx m⟩
  write text m := ⟨_, .write text m⟩
  flush m := ⟨_, .flush m⟩
  bind := by
    intro α β x f hx hf m
    obtain ⟨⟨u, result⟩, hprints⟩ := hx m
    cases result with
    | ok a m' =>
        obtain ⟨o, ho⟩ := hf a m'
        exact ⟨_, hprints.bind_ok ho⟩
    | error e m' => exact ⟨_, hprints.bind_error⟩
  look := by
    intro α f hf h m
    obtain ⟨o, ho⟩ := h m m
    exact ⟨o, ho.look fun m sink => hf m sink ()⟩
  around := by
    intro α x before after hbefore hafter hx m
    obtain ⟨o, ho⟩ := hx (before m)
    exact ho.around hbefore hafter

/-- **Evaluation prints**: it has the same result on every sink, as far as its
bytes are taken. -/
theorem exists_prints_evaluate (host : Host) (fuel : Nat) (e : Expr) (scope : FrameId)
    (m : Machine) : ∃ o, (evaluate host fuel e scope).Prints m o :=
  (Run.composable_prints.common_ofFuel host fuel).eval e scope m

/-- **Steps of a session print**: they have the same result on every sink, as far
as their bytes are taken. -/
theorem exists_prints_perform (host : Host) (fuel : Nat) (step : SessionStep) (m : Machine) :
    ∃ o, ((Recursion.ofFuel host fuel).perform step).Prints m o :=
  (Run.composable_prints.common_ofFuel host fuel).perform Run.composable_prints step m

/-! ## Side by side -/

/- Raising an alarm at a node is how a run is asked whether it comes by that node.  `Quiet`
and `Raises` are the two ways a watched run may go, and both are kept by what comes after.  To
be abreast is then shown to be composable, like printing, but with a second case: a run that
is beyond the limit is over on the limited sink, so there only the other run is looked at. -/

/-- Who watches a run: nobody, or one who raises an alarm, on a sink with a limit
or on one without. -/
inductive Watcher where
  | nobody
  | limited (alarm : Stop)
  | endless (alarm : Stop)

/-- No alarm is raised: the watched run is as the plain one. -/
def Run.Quiet (x : Run α) (y : Stop → Run α) (m : Machine) : Prop := ∀ alarm, y alarm m = x m

/-- Every alarm is raised. -/
def Run.Raises (y : Stop → Run α) (m : Machine) : Prop := ∀ alarm, ∃ m', y alarm m = .error alarm m'

namespace Run

variable {x : Run α} {y : Stop → Run α} {f : α → Run β} {g : Stop → α → Run β} {m m' : Machine}

/-- A quiet run goes on quietly. -/
theorem Quiet.bind_ok {a : α} (hxy : Quiet x y m) (hx : x m = .ok a m')
    (hfg : Quiet (f a) (fun alarm => g alarm a) m') :
    Quiet (x >>= f) (fun alarm => y alarm >>= g alarm) m := by
  intro alarm
  show (y alarm >>= g alarm) m = (x >>= f) m
  rw [Stateful.bind_of_ok f hx, Stateful.bind_of_ok (g alarm) ((hxy alarm).trans hx)]
  exact hfg alarm

/-- A quiet run that stops is over. -/
theorem Quiet.bind_error {e : Stop} (hxy : Quiet x y m) (hx : x m = .error e m') :
    Quiet (x >>= f) (fun alarm => y alarm >>= g alarm) m := by
  intro alarm
  show (y alarm >>= g alarm) m = (x >>= f) m
  rw [Stateful.bind_of_error f hx, Stateful.bind_of_error (g alarm) ((hxy alarm).trans hx)]

/-- An alarm is not followed by anything. -/
theorem Raises.bind (hy : Raises y m) : Raises (fun alarm => y alarm >>= g alarm) m := by
  intro alarm
  obtain ⟨m', hm'⟩ := hy alarm
  exact ⟨m', Stateful.bind_of_error _ hm'⟩

/-- After a quiet run an alarm may still be raised. -/
theorem Quiet.raises_bind {a : α} (hxy : Quiet x y m) (hx : x m = .ok a m')
    (hg : Raises (fun alarm => g alarm a) m') : Raises (fun alarm => y alarm >>= g alarm) m := by
  intro alarm
  obtain ⟨m₁, hm₁⟩ := hg alarm
  exact ⟨m₁, (Stateful.bind_of_ok _ ((hxy alarm).trans hx)).trans hm₁⟩

/-- Not every alarm can be raised where none is. -/
theorem Raises.not_quiet (hy : Raises y m) : ¬ Quiet x y m := by
  intro hxy
  obtain ⟨m₁, h₁⟩ := hy .exhausted
  obtain ⟨m₂, h₂⟩ := hy (.failed (.io .sinkFull))
  rw [hxy] at h₁ h₂
  rw [h₁] at h₂
  cases h₂

end Run

/-- A run and the watched runs keep abreast: up to the limit the watcher of the
run on the limited sink raises an alarm exactly if the watcher of the other run
does; beyond the limit there is nothing more to raise an alarm at. -/
structure Abreast (limit : Nat) (x : Watcher → Run α) (m : Machine) : Prop where
  prints : ∃ o, (x .nobody).Prints m o
  within : ∀ held : ByteArray, held.size ≤ limit →
    (Run.Quiet (x .nobody) (fun alarm => x (.limited alarm)) (m.withSink (.limited held limit)) ∧
      Run.Quiet (x .nobody) (fun alarm => x (.endless alarm)) (m.withSink (.endless held))) ∨
    (Run.Raises (fun alarm => x (.limited alarm)) (m.withSink (.limited held limit)) ∧
      Run.Raises (fun alarm => x (.endless alarm)) (m.withSink (.endless held)))
  beyond : ∀ held : ByteArray, limit < held.size →
    Run.Quiet (x .nobody) (fun alarm => x (.endless alarm)) (m.withSink (.endless held))

namespace Abreast

variable {limit : Nat} {m : Machine}

/-- A run that nobody watches keeps abreast of itself. -/
theorem plain {x : Run α} {o : Output α} (h : x.Prints m o) : Abreast limit (fun _ => x) m :=
  ⟨⟨o, h⟩, fun _ _ => .inl ⟨fun _ => rfl, fun _ => rfl⟩, fun _ _ _ => rfl⟩

/-- One run after another: the second one starts within the limit or beyond it, as the
first one ended. -/
theorem bind {x : Watcher → Run α} {f : Watcher → α → Run β} (hx : Abreast limit x m)
    (hf : ∀ a m', Abreast limit (fun i => f i a) m') : Abreast limit (fun i => x i >>= f i) m := by
  obtain ⟨⟨u, result⟩, hprints⟩ := hx.prints
  cases result with
  | error e m₁ =>
      refine ⟨⟨_, hprints.bind_error⟩, fun held hheld => ?_, fun held hheld => ?_⟩
      · obtain ⟨hlimited, hendless⟩ | ⟨hlimited, hendless⟩ := hx.within held hheld
        · refine .inl ⟨?_, hendless.bind_error (hprints.endless held)⟩
          obtain hlt | hle := Nat.lt_or_ge limit (held ++ u).size
          · obtain ⟨m₂, hm₂, _⟩ := hprints.limited_of_lt hheld hlt
            exact hlimited.bind_error hm₂
          · exact hlimited.bind_error (hprints.limited_of_le hle)
        · exact .inr ⟨hlimited.bind, hendless.bind⟩
      · exact (hx.beyond held hheld).bind_error (hprints.endless held)
  | ok a m₁ =>
      obtain ⟨o, ho⟩ := (hf a m₁).prints
      refine ⟨⟨_, hprints.bind_ok ho⟩, fun held hheld => ?_, fun held hheld => ?_⟩
      · obtain ⟨hlimited, hendless⟩ | ⟨hlimited, hendless⟩ := hx.within held hheld
        · obtain hlt | hle := Nat.lt_or_ge limit (held ++ u).size
          · -- the first run is cut, so the limited run is over and the other beyond the limit
            obtain ⟨m₂, hm₂, _⟩ := hprints.limited_of_lt hheld hlt
            have hbeyond := (hf a m₁).beyond (held ++ u) hlt
            exact .inl ⟨hlimited.bind_error hm₂, hendless.bind_ok (hprints.endless held) hbeyond⟩
          · have hfirst := hprints.limited_of_le hle
            have hother := hprints.endless held
            obtain ⟨hquiet, hquiet'⟩ | ⟨hraises, hraises'⟩ := (hf a m₁).within (held ++ u) hle
            · exact .inl ⟨hlimited.bind_ok hfirst hquiet, hendless.bind_ok hother hquiet'⟩
            · exact .inr ⟨hlimited.raises_bind hfirst hraises, hendless.raises_bind hother hraises'⟩
        · exact .inr ⟨hlimited.bind, hendless.bind⟩
      · have hlt : limit < (held ++ u).size := by
          rw [ByteArray.size_append]
          omega
        exact (hx.beyond held hheld).bind_ok (hprints.endless held) ((hf a m₁).beyond _ hlt)

/-- A run that looks at the machine, but not at its sink. -/
theorem look {f : Watcher → Machine → Run α} (hf : ∀ m sink i, f i (m.withSink sink) = f i m)
    (h : Abreast limit (fun i => f i m) m) : Abreast limit (fun i => get >>= f i) m := by
  obtain ⟨o, ho⟩ := h.prints
  have hget : ∀ i sink, (get >>= f i : Run α) (m.withSink sink) = f i m (m.withSink sink) := by
    intro i sink
    show f i (m.withSink sink) (m.withSink sink) = _
    rw [hf]
  refine ⟨⟨o, ho.look fun m sink => hf m sink .nobody⟩, ?_, ?_⟩
  · simp only [Run.Quiet, Run.Raises, hget]
    exact h.within
  · simp only [Run.Quiet, hget]
    exact h.beyond

/-- The counters may be changed around runs that are abreast. -/
theorem around {x : Watcher → Run α} {before after : Machine → Machine}
    (hbefore : ∀ m sink, before (m.withSink sink) = (before m).withSink sink)
    (hafter : ∀ m sink, after (m.withSink sink) = (after m).withSink sink)
    (h : Abreast limit x (before m)) :
    Abreast limit (fun i => Run.around before after (x i)) m := by
  obtain ⟨o, ho⟩ := h.prints
  have hquiet : ∀ {y : Stop → Run α} {sink},
      Run.Quiet (x .nobody) y ((before m).withSink sink) →
      Run.Quiet (Run.around before after (x .nobody))
        (fun alarm => Run.around before after (y alarm)) (m.withSink sink) := by
    intro y sink hxy alarm
    exact Run.around_congr (hbefore m sink ▸ hxy alarm)
  have hraises : ∀ {y : Stop → Run α} {sink}, Run.Raises y ((before m).withSink sink) →
      Run.Raises (fun alarm => Run.around before after (y alarm)) (m.withSink sink) := by
    intro y sink hy alarm
    obtain ⟨m₁, hm₁⟩ := hy alarm
    refine ⟨after m₁, ?_⟩
    show Run.around before after (y alarm) (m.withSink sink) = _
    rw [Run.around, hbefore, hm₁]
  refine ⟨ho.around hbefore hafter, fun held hheld => ?_, fun held hheld => ?_⟩
  · obtain ⟨hlimited, hendless⟩ | ⟨hlimited, hendless⟩ := h.within held hheld
    · exact .inl ⟨hquiet hlimited, hquiet hendless⟩
    · exact .inr ⟨hraises hlimited, hraises hendless⟩
  · exact hquiet (h.beyond held hheld)

end Abreast

/-- To keep abreast is a composable property of watched runs. -/
theorem Run.composable_abreast (limit : Nat) :
    Run.Composable fun {α} (x : Watcher → Run α) => ∀ m, Abreast limit x m where
  silent hx m := .plain (.silent hx m)
  write text m := .plain (.write text m)
  flush m := .plain (.flush m)
  bind hx hf m := (hx m).bind hf
  look hf h m := (h m m).look hf
  around hbefore hafter hx _ := (hx _).around hbefore hafter

/-! ## What is come by -/

/-- The condition as seen from a sink without a limit: as long as the limit is not
passed it must hold of the machine with the limited sink. -/
def UpTo (limit : Nat) (ok : Visit → Machine → Prop) : Visit → Machine → Prop := fun v m =>
  m.sink.written.size ≤ limit → ok v (m.withSink (.limited m.sink.written limit))

section

variable {limit : Nat} {ok : Visit → Machine → Prop} (dec : ∀ v, DecidablePred (ok v))
  (dec' : ∀ v, DecidablePred (UpTo limit ok v))

/-- What each watcher does before a node. -/
def Watcher.looks : Watcher → Visit → Run Unit
  | .nobody, _ => pure ()
  | .limited alarm, v => Run.check (ok v) alarm
  | .endless alarm, v => Run.check (UpTo limit ok v) alarm

/-- The watchers themselves: both look at the same node of the same machine, the sink
aside. -/
theorem abreast_looks (v : Visit) (m : Machine) :
    Abreast limit (fun i => Watcher.looks dec dec' i v) m := by
  have hquiet : ∀ {p : Machine → Prop} [DecidablePred p] {m}, p m →
      Run.Quiet (pure ()) (Run.check p) m := fun h _ => if_pos h
  have hraises : ∀ {p : Machine → Prop} [DecidablePred p] {m}, ¬ p m →
      Run.Raises (Run.check p) m := fun h _ => ⟨_, if_neg h⟩
  refine ⟨⟨_, .silent (fun _ _ => rfl) m⟩, fun held hheld => ?_, fun held hheld => ?_⟩
  · by_cases hok : ok v (m.withSink (.limited held limit))
    · exact .inl ⟨hquiet hok, hquiet fun _ => hok⟩
    · exact .inr ⟨hraises hok, hraises fun h => hok (h hheld)⟩
  · exact hquiet fun hle => absurd hle (Nat.not_le.mpr hheld)

end

/-- **The same nodes up to the limit**: a step of a session on a sink with a limit
comes by the nodes, on the machines, that the step on a sink without a limit
comes by until it passes the limit. -/
theorem everywhere_limited_iff (host : Host) (step : SessionStep) (ok : Visit → Machine → Prop)
    (m : Machine) {held : ByteArray} {limit : Nat} (hheld : held.size ≤ limit) :
    Everywhere host ok (·.perform step) (m.withSink (.limited held limit)) ↔
      Everywhere host (UpTo limit ok) (·.perform step) (m.withSink (.endless held)) := by
  have habreast : ∀ (dec : ∀ v, DecidablePred (ok v))
      (dec' : ∀ v, DecidablePred (UpTo limit ok v)) fuel, Abreast limit (fun i =>
        (Recursion.heralded host (Watcher.looks dec dec' i) fuel).perform step) m := by
    intro dec dec' fuel
    have hP := Run.composable_abreast limit
    exact (hP.common_heralded host (abreast_looks dec dec') fuel).perform hP step m
  have hnobody : ∀ (dec : ∀ v, DecidablePred (ok v))
      (dec' : ∀ v, DecidablePred (UpTo limit ok v)) fuel,
      Recursion.heralded host (Watcher.looks dec dec' .nobody) fuel = .ofFuel host fuel :=
    fun _ _ fuel => Recursion.heralded_pure host fuel
  constructor
  · intro h dec' fuel alarm
    have dec : ∀ v, DecidablePred (ok v) := fun v => Classical.decPred _
    obtain ⟨_, hendless⟩ | ⟨hlimited, _⟩ := (habreast dec dec' fuel).within held hheld
    · exact (hendless alarm).trans (by rw [hnobody])
    · exact absurd (h dec fuel) hlimited.not_quiet
  · intro h dec fuel alarm
    have dec' : ∀ v, DecidablePred (UpTo limit ok v) := fun v => Classical.decPred _
    obtain ⟨hlimited, _⟩ | ⟨_, hendless⟩ := (habreast dec dec' fuel).within held hheld
    · exact (hlimited alarm).trans (by rw [hnobody])
    · exact absurd (h dec' fuel) hendless.not_quiet

end Abacus
