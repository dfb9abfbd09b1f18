import Abacus.Proofs.Session.Passes

/-!
# Abacus.Proofs.Session.Items

Loops over items.  A loop makes a pass for every item, in order, up to the first
that does not end normally (`ItemLoop.ends_passes_iff`).  No pass sees the others:
each ends as the body does alone, in the scope before the loop with the variable
bound to its item (`items_independent`).
-/

namespace Abacus

/-- Two ways to end a statement, with values that stand for each other. -/
inductive Flow.Alike (L : Likeness) : Flow → Flow → Prop
  | normal : Flow.Alike L .normal .normal
  | returned {v v' : Value} (h : v.Alike L v') : Flow.Alike L (.returned v) (.returned v')

variable {host : Host} {m m' : Machine}

/-! ## Blocks -/

/-- A block in a scope is repeatable. -/
theorem repeatable_block (hhost : host.Blind) (pos : Position) (stmts : List Stmt)
    (scope : FrameId) :
    Repeatable scope Flow.Alike fun fuel =>
      (Recursion.ofFuel host fuel).block host pos stmts scope where
  steady := steady_block host pos stmts scope
  follows hscope fuel := by
    have hself := Renaming.paired_ofFuel hhost False fuel
    have hpos : (Renaming.pairing False).place (.keyword .forKw) pos pos := rfl
    have hstmts : List.Forall₂ Eq stmts stmts := List.forall₂_same.mpr fun _ _ => rfl
    refine (hself.block (Renaming.lawful hhost False) hpos hscope hstmts).mono ?_
    intro w f f' _ hf
    cases hf with
    | normal => exact .normal
    | returned _ hv => exact .returned hv
  scopes fuel := (Recursion.keepsScopes_ofFuel host fuel).block host pos stmts scope
  counters fuel := counters_block host fuel pos stmts scope
  prints fuel :=
    (Run.composable_prints.common_ofFuel host fuel).block Run.composable_prints host scope pos stmts

/-! ## Loops -/

/-- A loop over items, in a scope. -/
structure ItemLoop where
  var : String
  items : Expr
  body : List Stmt
  pos : Position
  scope : FrameId

namespace ItemLoop

variable (host) (l : ItemLoop)

/-- Execute the loop. -/
def run (fuel : Nat) : Run Flow := execute host fuel (.forLoop l.var l.items l.body l.pos) l.scope

/-- Evaluate what the loop is over. -/
def source (fuel : Nat) : Run Value := evaluate host fuel l.items l.scope

/-- Execute the body in a fresh scope. -/
def once (fuel : Nat) : Run Flow :=
  (Recursion.ofFuel host fuel).block host l.pos l.body l.scope

/-- Bind the variable to an item and execute the body. -/
def pass (item : Value) : Nat → Run Flow := Run.binding l.scope l.var item (l.once host)

/-- Make a pass for every item up to the first that does not end normally. -/
def passes (items : List Value) (fuel : Nat) : Run Flow :=
  (Recursion.ofFuel host fuel).each host l.var l.body l.pos l.scope items

/-- Passes over items that all end normally. -/
def Normally (m : Machine) (items : List Value) (m' : Machine) : Prop :=
  Passes (l.pass host) m items (items.map fun _ => Flow.normal) m'

variable {host} {l}

theorem steady_pass (item : Value) : Steady (l.pass host item) :=
  Run.steady_binding (steady_block host l.pos l.body l.scope) l.scope l.var item

theorem passes_cons (item : Value) (items : List Value) (fuel : Nat) :
    l.passes host (item :: items) fuel = (do
      match ← l.pass host item fuel with
      | .normal => l.passes host items fuel
      | .returned v => return .returned v) := by
  show _ = (Run.define l.scope l.var item >>= fun _ => _) >>= _
  rw [bind_assoc]
  rfl

theorem steady_passes (items : List Value) : Steady (l.passes host items) := by
  induction items with
  | nil => exact .const _
  | cons item items ih =>
      simp only [funext (passes_cons item items)]
      refine (steady_pass item).bind fun flow => ?_
      cases flow with
      | normal => exact ih
      | returned v => exact .const _

/-- The passes end with the first that does not end normally, or with the rest. -/
theorem ends_passes_cons_iff {item : Value} {items : List Value}
    {r : EStateM.Result Stop Machine Flow} :
    Ends (l.passes host (item :: items)) m r ↔
      (∃ m', Ends (l.pass host item) m (.ok .normal m') ∧ Ends (l.passes host items) m' r) ∨
      Ends (l.pass host item) m r ∧ ∀ m', r ≠ .ok .normal m' := by
  have hrest : ∀ flow : Flow, Steady fun fuel => match flow with
      | .normal => l.passes host items fuel
      | .returned v => return .returned v := by
    intro flow
    cases flow with
    | normal => exact steady_passes items
    | returned v => exact .const _
  have hreturned : ∀ {v : Value} {m' : Machine} {r : EStateM.Result Stop Machine Flow},
      Ends (fun _ => (return .returned v : Run Flow)) m' r → r = .ok (.returned v) m' := by
    rintro v m' r ⟨_, rfl, _⟩
    rfl
  rw [funext (passes_cons item items), (steady_pass item).ends_bind_iff hrest]
  constructor
  · rintro (⟨flow, m', hpass, hr⟩ | ⟨e, m', hpass, rfl⟩)
    · cases flow with
      | normal => exact .inl ⟨m', hpass, hr⟩
      | returned v =>
          obtain rfl := hreturned hr
          exact .inr ⟨hpass, by simp⟩
    · exact .inr ⟨hpass, by simp⟩
  · rintro (⟨m', hpass, hr⟩ | ⟨hpass, hstop⟩)
    · exact .inl ⟨.normal, m', hpass, hr⟩
    · cases r with
      | error e m' => exact .inr ⟨e, m', hpass, rfl⟩
      | ok flow m' =>
          cases flow with
          | normal => exact absurd rfl (hstop m')
          | returned v => exact .inl ⟨.returned v, m', hpass, 0, rfl, finished_ok _ m'⟩

/-- The passes end normally if each does, and otherwise with the first that does
not. -/
theorem ends_passes_iff {items : List Value} {r : EStateM.Result Stop Machine Flow} :
    Ends (l.passes host items) m r ↔
      (∃ m', l.Normally host m items m' ∧ r = .ok .normal m') ∨
      ∃ before item after m', items = before ++ item :: after ∧ l.Normally host m before m' ∧
        Ends (l.pass host item) m' r ∧ ∀ m'', r ≠ .ok .normal m'' := by
  induction items generalizing m with
  | nil =>
      constructor
      · rintro ⟨_, rfl, _⟩
        exact .inl ⟨m, .nil m, rfl⟩
      · rintro (⟨m', hpasses, rfl⟩ | ⟨before, item, after, _, hsplit, _⟩)
        · cases hpasses
          exact ⟨0, rfl, finished_ok _ m⟩
        · cases before <;> cases hsplit
  | cons item items ih =>
      rw [ends_passes_cons_iff]
      constructor
      · rintro (⟨m₁, hpass, hrest⟩ | hstop)
        · obtain ⟨m', hpasses, rfl⟩ | ⟨before, other, after, m', rfl, hpasses, hstop⟩ := ih.mp hrest
          · exact .inl ⟨m', .cons hpass hpasses, rfl⟩
          · exact .inr ⟨item :: before, other, after, m', rfl, .cons hpass hpasses, hstop⟩
        · exact .inr ⟨[], item, items, m, rfl, .nil m, hstop⟩
      · rintro (⟨m', hpasses, rfl⟩ | ⟨before, other, after, m', hsplit, hpasses, hstop⟩)
        · cases hpasses with
          | cons hpass hpasses => exact .inl ⟨_, hpass, ih.mpr (.inl ⟨m', hpasses, rfl⟩)⟩
        · cases before with
          | nil =>
              cases hpasses
              cases hsplit
              exact .inr hstop
          | cons head before =>
              cases hsplit
              cases hpasses with
              | cons hpass hpasses =>
                  have hrest := ih.mpr (.inr ⟨before, other, after, m', rfl, hpasses, hstop⟩)
                  exact .inl ⟨_, hpass, hrest⟩

/-- A loop over a value with items makes the passes over them. -/
theorem ends_run_iff {v : Value} {items : List Value} {m₁ : Machine}
    (hsource : Ends (l.source host) m (.ok v m₁)) (hitems : v.items = .ok items)
    {r : EStateM.Result Stop Machine Flow} :
    Ends (l.run host) m r ↔ Ends (l.passes host items) m₁ r := by
  have hrun : Steady (l.run host) := steady_execute host _ l.scope
  have hrest : ∀ u : Value, Steady fun fuel =>
      Run.ofResult l.pos u.items >>= fun vs => l.passes host vs fuel := fun u =>
    (Steady.const _).bind steady_passes
  calc
    Ends (l.run host) m r
    _ ↔ Ends (fun fuel => l.source host fuel >>= fun u =>
          Run.ofResult l.pos u.items >>= fun vs => l.passes host vs fuel) m r :=
        hrun.ends_succ_iff.symm
    _ ↔ Ends (fun fuel => Run.ofResult l.pos v.items >>= fun vs => l.passes host vs fuel) m₁ r :=
        (steady_evaluate host l.items l.scope).ends_bind_of_ok hrest hsource
    _ ↔ Ends (l.passes host items) m₁ r := by
        rw [hitems]
        rfl

end ItemLoop

/-! ## The law -/

/-- The items of a value are known where the value is. -/
theorem Heap.Knows.items {h : Heap} {v : Value} {items : List Value} (hv : h.Knows v)
    (hitems : v.items = .ok items) : ∀ item ∈ items, h.Knows item := by
  have hagreed := alike_items hv
  rw [hitems] at hagreed
  cases hagreed with
  | ok hitems => exact fun item hitem => List.forall₂_same.mp hitems item hitem

/-- **The items of a loop are independent.**  On a host with the standard library,
let a loop in a scope of a reachable machine whose sink takes everything be over a
list or the characters of a string.  It makes a pass for each item in order.  Each
ends as the body does alone, on the machine before the passes with the variable
bound to the item: it gives the same value back, where the scopes and functions
that were there before stand for themselves, or stops with the same error at the
same place, or ends normally, and it writes the same.  The first pass that does
not end normally ends the loop.  Evaluating the items changes no binding; after a
loop that ends normally the variable is bound to the last item in the scope of the
loop, if there are items, and no other binding that was there before the passes is
changed. -/
theorem items_independent (limit : Nat) {m : Machine}
    (hm : Reachable (Host.standard.withLimit limit) m) (hcapacity : m.sink.capacity = none)
    (hflush : m.sink.flushable = true) (l : ItemLoop) (hs : l.scope < m.heap.nextId) {v : Value}
    {m₁ : Machine} (hsource : Ends (l.source (Host.standard.withLimit limit)) m (.ok v m₁))
    {items : List Value}
    (hitems : v = .list items ∨
      ∃ s, v = .string s ∧ items = s.toList.map fun c => .string c.toString) :
    let host := Host.standard.withLimit limit
    (∀ before item after m₂, items = before ++ item :: after → l.Normally host m₁ before m₂ →
      EndsSame Flow.Alike (l.pass host item) m₁ (l.pass host item) m₂) ∧
    (∀ r, Ends (l.run host) m r ↔
      (∃ m', l.Normally host m₁ items m' ∧ r = .ok .normal m') ∨
      ∃ before item after m₂, items = before ++ item :: after ∧ l.Normally host m₁ before m₂ ∧
        Ends (l.pass host item) m₂ r ∧ ∀ m', r ≠ .ok .normal m') ∧
    (∀ id < m.heap.nextId, m₁.heap.frame id = m.heap.frame id) ∧
    ∀ m', Ends (l.run host) m (.ok .normal m') →
      m'.heap.frame l.scope =
        items.getLast?.elim (m₁.heap.frame l.scope) ((m₁.heap.frame l.scope).define l.var) ∧
      ∀ id < m₁.heap.nextId, id ≠ l.scope → m'.heap.frame id = m₁.heap.frame id := by
  intro host
  have hhost : host.Blind := Host.blind_of_standard rfl rfl
  have hample : m.Ample := ⟨hm.coherent hhost, Sink.eq_endless hcapacity hflush⟩
  have hevaluate := repeatable_evaluate hhost l.items l.scope
  have hblock := repeatable_block hhost l.pos l.body l.scope
  have hvitems : v.items = .ok items := by
    obtain rfl | ⟨s, rfl, rfl⟩ := hitems <;> rfl
  -- the machine before the passes
  have hknown : ∀ item ∈ items, m₁.heap.Knows item :=
    (hevaluate.knows hample.coherent hs hsource).items hvitems
  obtain ⟨hample₁, hgrows⟩ := hevaluate.ample_of_ends hample hs hsource
  have hs₁ := hgrows.lt hs
  have hrun := fun r => (ItemLoop.ends_run_iff hsource hvitems).trans
    (ItemLoop.ends_passes_iff (r := r))
  refine ⟨?_, hrun, hgrows.scopes.frame, fun m' hnormal => ?_⟩
  · rintro before item after m₂ rfl hpasses
    have hbefore : ∀ i ∈ before, m₁.heap.Knows i := fun i hi =>
      hknown i (List.mem_append_left _ hi)
    have hitem : m₁.heap.Knows item := hknown item (by simp)
    exact Passes.endsSame hblock hample₁ hs₁ hbefore hitem hpasses
  · obtain ⟨_, hpasses, heq⟩ | ⟨_, _, _, _, _, _, _, hstop⟩ := (hrun _).mp hnormal
    · cases heq
      exact Passes.frame_eq hblock hs₁ hpasses
    · exact absurd rfl (hstop m')

/-- A loop that prints the letters of a string, over a variable that was bound before: the
second pass is as if there had been no first one. -/
theorem items_independent_letters :
    let p : Position := ⟨1, 1⟩
    let host := Host.standard.withLimit 10
    let m := (Machine.fresh .unlimited).define globals "c" (.boolean true)
    let l : ItemLoop :=
      ⟨"c", .string "ab", [.expression (.call "print" [.variable "c" p] p)], p, globals⟩
    Reachable host m ∧ m.sink.capacity = none ∧ m.sink.flushable = true ∧
      l.scope < m.heap.nextId ∧ Ends (l.source host) m (.ok (.string "ab") m) ∧
      (∃ m₂, l.Normally host m [.string "a"] m₂ ∧ m₂.sink.written = "a\n".toUTF8 ∧
        EndsSame Flow.Alike (l.pass host (.string "b")) m (l.pass host (.string "b")) m₂) ∧
      ∃ m', Ends (l.run host) m (.ok .normal m') ∧ m'.sink.written = "a\nb\n".toUTF8 ∧
        m'.heap.frame globals = (m.heap.frame globals).define "c" (.string "b") := by
  intro p host m l
  have hfresh : Reachable host (.fresh .unlimited) := .fresh .unlimited
  have hm : Reachable host m := hfresh.define hfresh.globals_lt "c" (.boolean true)
  have hsource : Ends (l.source host) m (.ok (.string "ab") m) := ⟨1, rfl, finished_ok _ _⟩
  have hitems : [.string "a", .string "b"] = "ab".toList.map fun c => Value.string c.toString := by
    have hletters : "ab".toList = ['a', 'b'] := by decide
    rw [hletters]
    rfl
  obtain ⟨hsame, hrun, _, hframes⟩ := items_independent 10 hm rfl rfl l hm.globals_lt hsource
    (.inr ⟨"ab", rfl, hitems⟩)
  obtain ⟨m₂, m', hfirst, hsecond, hwritten, hprinted⟩ : ∃ m₂ m',
      l.pass host (.string "a") 3 m = .ok .normal m₂ ∧
      l.pass host (.string "b") 3 m₂ = .ok .normal m' ∧
      m₂.sink.written = "a\n".toUTF8 ∧ m'.sink.written = "a\nb\n".toUTF8 :=
    ⟨_, _, rfl, rfl, rfl, rfl⟩
  have hone : l.Normally host m [.string "a"] m₂ :=
    .cons ⟨3, hfirst, finished_ok _ m₂⟩ (.nil m₂)
  have hboth : l.Normally host m [.string "a", .string "b"] m' :=
    .cons ⟨3, hfirst, finished_ok _ m₂⟩ (.cons ⟨3, hsecond, finished_ok _ m'⟩ (.nil m'))
  have hends : Ends (l.run host) m (.ok .normal m') := (hrun _).mpr (.inl ⟨m', hboth, rfl⟩)
  exact ⟨hm, rfl, rfl, hm.globals_lt, hsource,
    ⟨m₂, hone, hwritten, hsame [.string "a"] (.string "b") [] m₂ rfl hone⟩,
    m', hends, hprinted, (hframes m' hends).1⟩

end Abacus
