import Abacus.Proofs.Eval.Confined
import Abacus.Proofs.Parse.Source
import Abacus.Proofs.Session.Cut

/-!
# Abacus.Proofs.Session.Unmentioned

Builtins that no source mentions are irrelevant.  The identifiers of the sources of a
session are a vocabulary: the programs that are read name nothing else, so hosts that
give these names the same entries run the session alike, whatever they have under
other names (`unmentioned_builtins_irrelevant`).  With the standard library the
vocabulary without `print` has no builtin that writes.
-/

namespace Abacus

/-! ## Programs -/

/-- The identifiers among the tokens of a source, if it has tokens. -/
def identifiers (text : String) : List String :=
  match tokenize text with
  | .ok tokens => (tokens.filter fun t => t.kind = .identifier).map Token.lexeme
  | .error _ => []

/-- The name is an identifier of one of the sources. -/
def Mentioned (texts : List String) (name : String) : Prop :=
  name ∈ texts.flatMap identifiers

/-- An identifier of a text is one of its names. -/
theorem mem_identifiers {text : String} {tokens : List Token}
    (htokens : tokenize text = .ok tokens) {t : Token} (ht : t ∈ tokens)
    (hkind : t.kind = .identifier) : t.lexeme ∈ identifiers text := by
  rw [identifiers, htokens]
  exact List.mem_map_of_mem (List.mem_filter.mpr ⟨ht, decide_eq_true hkind⟩)

namespace Vocabulary

/-- The names that the sources mention are in the vocabulary. -/
def Covers (V : Vocabulary) (texts : List String) : Prop :=
  ∀ name, Mentioned texts name → V.names name

variable {V : Vocabulary} {text : String}

/-- A vocabulary covers the texts of two lists if it covers both. -/
theorem covers_append {texts texts' : List String} :
    V.Covers (texts ++ texts') ↔ V.Covers texts ∧ V.Covers texts' := by
  simp only [Covers, Mentioned, List.flatMap_append, List.mem_append, or_imp, forall_and]

theorem covers_cons {texts : List String} :
    V.Covers (text :: texts) ↔ V.Covers [text] ∧ V.Covers texts :=
  @covers_append V [text] texts

/-- A program names nothing that its source does not mention. -/
theorem placed_of_parseSource (htext : V.Covers [text]) {program : List Stmt}
    (h : parseSource text = .ok program) :
    ∀ s ∈ program, s.Placed V.marks := by
  obtain ⟨body, eoi, hof, hforms⟩ := forms_of_parseSource h
  have hplaced := hforms.placed (List.subset_append_left body [eoi])
  refine fun s hs => (hplaced s hs).mono ?_
  rintro site p ⟨t, ht, -, hmarks⟩
  cases hmarks with
  | name hkind =>
      refine htext _ ?_
      rw [Mentioned, List.flatMap_singleton]
      exact mem_identifiers hof.tokenize_eq ht hkind
  | _ => trivial

end Vocabulary

namespace Recursion.Agree

variable {V : Vocabulary} {self self' : Recursion} (hself : Agree V self self')

include hself

/-- The statements of a program over the vocabulary, by induction on their list. -/
theorem runProgram {program : List Stmt} (hprogram : ∀ s ∈ program, s.Placed V.marks) :
    V.Agree (fun _ => True) (self.runProgram program) (self'.runProgram program) := by
  induction program with
  | nil => exact .pure trivial
  | cons s rest ih =>
      rw [List.forall_mem_cons] at hprogram
      exact (hself.exec globals hprogram.1).discard.bind fun _ _ => ih hprogram.2

/-- A program and its last expression. -/
theorem runWhole {program : List Stmt} (hprogram : ∀ s ∈ program, s.Placed V.marks) :
    V.Agree (fun _ => True) (self.runWhole program) (self'.runWhole program) := by
  have hinit := hself.runProgram fun s hs => hprogram s (mem_of_mem_splitLast hs)
  refine hinit.bind fun _ _ => ?_
  cases hlast : (splitLast program).2 with
  | none => exact .pure trivial
  | some e =>
      have hmem : Stmt.expression e ∈ program := by
        rw [← splitLast_append program, hlast]
        exact List.mem_append_right _ List.mem_cons_self
      cases hprogram _ hmem with
      | expression he => exact (hself.eval globals he).bind fun _ _ => .pure trivial

end Recursion.Agree

/-- A text that a vocabulary covers is run alike on hosts that share it. -/
theorem Vocabulary.Shared.agree_runSource {V : Vocabulary} {host host' : Host}
    (hV : V.Shared host host') {text : String} (htext : V.Covers [text]) (fuel : Nat) :
    V.Agree (fun _ => True) (runSource host fuel text) (runSource host' fuel text) := by
  rw [runSource_eq, runSource_eq]
  cases hparse : parseSource text with
  | error e =>
      rw [readSource_of_error hparse]
      have hfail : V.Agree (fun _ : List Stmt => False) (Run.fail (.source e))
          (Run.fail (.source e)) := .fail _
      exact hfail.bind fun _ h => h.elim
  | ok program =>
      rw [readSource_of_ok hparse, pure_bind, pure_bind]
      exact (hV.agree_ofFuel fuel).runWhole (placed_of_parseSource htext hparse)

/-! ## Sessions -/

/-- The sources, run one after the other, end with these results and leave the last
machine behind.  A source that fails does not end the session. -/
inductive Outcomes (host : Host) : Machine → List String →
    List (EStateM.Result Stop Machine (Option Value)) → Machine → Prop
  | nil (m : Machine) : Outcomes host m [] [] m
  | cons {m m' : Machine} {text : String} {texts : List String}
      {r : EStateM.Result Stop Machine (Option Value)}
      {rs : List (EStateM.Result Stop Machine (Option Value))}
      (h : Ends (fun fuel => runSource host fuel text) m r)
      (hrest : Outcomes host (Result.machine r) texts rs m') :
      Outcomes host m (text :: texts) (r :: rs) m'

/-- In a fresh session nothing is bound. -/
theorem Machine.over_fresh (V : Vocabulary) (sink : Sink) : (Machine.fresh sink).heap.Over V := by
  intro id b hb
  rw [fresh, Heap.newRoot, Heap.frame_add] at hb
  split at hb <;> contradiction

namespace Vocabulary.Shared

variable {V : Vocabulary} {host host' : Host} (hV : V.Shared host host') {m m' : Machine}
  {texts : List String} {rs : List (EStateM.Result Stop Machine (Option Value))}

include hV

/-- A session that has the outcomes on one host has them on the other, and keeps to
the vocabulary. -/
theorem outcomes (hm : m.heap.Over V) (htexts : V.Covers texts) (h : Outcomes host m texts rs m') :
    Outcomes host' m texts rs m' ∧ V.After m m' := by
  induction h with
  | nil m => exact ⟨.nil m, .refl hm⟩
  | cons hends _ ih =>
      obtain ⟨htext, hrest⟩ := covers_cons.mp htexts
      obtain ⟨fuel, rfl, hfinished⟩ := hends
      have hagree := hV.agree_runSource htext fuel _ hm
      obtain ⟨hsame, hafter⟩ := ih hagree.after.heap hrest
      exact ⟨.cons ⟨fuel, hagree.eq, hfinished⟩ hsame, hagree.after.trans hafter⟩

/-- The outcomes of a session are the same on both hosts. -/
theorem outcomes_iff (hm : m.heap.Over V) (htexts : V.Covers texts) :
    Outcomes host m texts rs m' ↔ Outcomes host' m texts rs m' :=
  ⟨fun h => (hV.outcomes hm htexts h).1, fun h => (hV.symm.outcomes hm htexts h).1⟩

/-- After some of the sources of a fresh session the next one agrees. -/
theorem agree_next {before after : List String} {text : String} {sink : Sink}
    (htexts : V.Covers texts) (hsplit : texts = before ++ text :: after)
    (h : Outcomes host (.fresh sink) before rs m) (fuel : Nat) :
    V.After (.fresh sink) m ∧
      V.AgreeAt m (fun _ => True) (runSource host fuel text)
        (runSource host' fuel text) := by
  rw [hsplit, covers_append, covers_cons] at htexts
  have hafter := (hV.outcomes (Machine.over_fresh V sink) htexts.1 h).2
  exact ⟨hafter, hV.agree_runSource htexts.2.1 fuel m hafter.heap⟩

end Vocabulary.Shared

/-! ## Hosts -/

/-- A builtin that two hosts have, if those are their own that they share. -/
def Callee.Among (own : String → Prop) : Callee → Prop
  | .closure _ => False
  | .builtin (.foreign name _) => own name
  | .builtin _ => True

/-- Two hosts that differ only under other names than these.  Under these names they
have the same entries; what could be called in them are builtins that both hosts
have, and so it is with what these give back, as far as it was not in their
arguments. -/
structure Host.SameUnder (names own : String → Prop) (host host' : Host) : Prop where
  maxDepth : host'.maxDepth = host.maxDepth
  entry : ∀ name, names name →
    Bindings.lookup name host'.registry = Bindings.lookup name host.registry
  entry_among : ∀ name v, names name → Bindings.lookup name host.registry = some v →
    ∀ c ∈ v.callees, c.Among own
  /-- Of the hosts' own builtins those that they share do the same. -/
  foreign : ∀ name, own name → host'.foreign name = host.foreign name
  answer_among : ∀ name args v, own name → (host.foreign name args).answer = .ok v →
    ∀ c ∈ v.callees, c ∈ Value.calleesAll args ∨ c.Among own

namespace Host

variable {names own : String → Prop} {host host' : Host}

/-- The vocabulary of the names and of the builtins that both hosts have. -/
def vocabulary (names own : String → Prop) : Vocabulary where
  names := names
  builtins b := Callee.Among own (.builtin b)
  quiet := False

theorem allows_of_among {c : Callee} (hc : c.Among own) : (vocabulary names own).Allows c := by
  cases c with
  | closure f => exact hc.elim
  | builtin b => exact hc

/-- Hosts that are the same under the names share the vocabulary of the names. -/
theorem SameUnder.shared (h : SameUnder names own host host') :
    (vocabulary names own).Shared host host' where
  maxDepth := h.maxDepth
  entry := h.entry
  entry_knows name v hname hv c hc := allows_of_among (h.entry_among name v hname hv c hc)
  reply b args hb := by
    cases b with
    | foreign name arity => exact congrFun (h.foreign name hb) args
    | _ => rfl
  answer_knows b args v hb hargs hv := by
    cases b with
    | foreign name arity =>
        intro c hc
        obtain harg | hown := h.answer_among name args v hb hv c hc
        · obtain ⟨u, hu, hcu⟩ := Value.mem_calleesAll.mp harg
          exact hargs u hu c hcu
        · exact allows_of_among hown
    | _ => exact Vocabulary.knows_of_plain (Builtin.plain_reply _ _ _ (by simp)) hv
  text := False.elim

/-- A host that brings in no closures of its own, with another registry. -/
theorem sameUnder_of_closureless (hhost : host.Closureless) {registry : Registry}
    (h : ∀ name, names name →
      Bindings.lookup name registry = Bindings.lookup name host.registry) :
    SameUnder names (fun _ => True) host { host with registry := registry } where
  maxDepth := rfl
  entry := h
  entry_among name v _ hv c hc := by
    cases c with
    | closure f =>
        have hclosure := Value.mem_closures_iff.mpr hc
        rw [hhost.registry name v hv] at hclosure
        contradiction
    | builtin b => cases b <;> trivial
  foreign _ _ := rfl
  answer_among name args v _ hv c hc := by
    cases c with
    | closure f =>
        have hclosure := hhost.foreign name args v hv f (Value.mem_closures_iff.mpr hc)
        exact .inl (Value.mem_closuresAll_iff.mp hclosure)
    | builtin b => exact .inr (by cases b <;> trivial)

end Host

/-! ## Printing -/

/-- Registering builtins brings in no other callees than these, each under its name. -/
theorem Registry.callees_register (bs : List Builtin) (r : Registry)
    (hr : ∀ name v, Bindings.lookup name r = some v →
      ∀ c ∈ v.callees, ∃ b : Builtin, c = .builtin b ∧ b.name = name)
    {name : String} {v : Value} (hv : Bindings.lookup name (bs.foldl register r) = some v) :
    ∀ c ∈ v.callees, ∃ b : Builtin, c = .builtin b ∧ b.name = name := by
  induction bs generalizing r with
  | nil => exact hr name v hv
  | cons b bs ih =>
      refine ih (r.register b) (fun other u hu => ?_) hv
      rw [register, Bindings.lookup_put] at hu
      split at hu
      · next heq =>
        cases hu
        intro c hc
        exact ⟨b, List.mem_singleton.mp hc, heq⟩
      · exact hr other u hu

/-- What can be called in the standard registry are builtins under their names. -/
theorem Registry.callees_standard {name : String} {v : Value}
    (hv : Bindings.lookup name standard = some v) :
    ∀ c ∈ v.callees, ∃ b : Builtin, c = .builtin b ∧ b.name = name := by
  refine callees_register _ _ (fun other u hu => ?_) hv
  simp only [constant, Bindings.lookup_put] at hu
  split at hu
  · cases hu
    simp [Value.callees]
  · split at hu
    · cases hu
      simp [Value.callees]
    · split at hu
      · cases hu
        simp [Value.callees]
      · cases hu

/-- All names but that of `print`, and all builtins but `print`. -/
def Vocabulary.unprinting : Vocabulary where
  names := (· ≠ "print")
  builtins := (· ≠ .print)
  quiet := True

/-- The standard library writes nothing if `print` is not named. -/
theorem Host.shared_unprinting (limit : Nat) :
    Vocabulary.unprinting.Shared (standard.withLimit limit) (standard.withLimit limit) where
  maxDepth := rfl
  entry _ _ := rfl
  entry_knows name v hname hv c hc := by
    obtain ⟨b, rfl, hb⟩ := Registry.callees_standard hv c hc
    rintro rfl
    exact hname hb.symm
  reply _ _ _ := rfl
  answer_knows b args v hb hargs hv := by
    cases b with
    | foreign name arity =>
        cases hv
        exact Vocabulary.knows_of_eq_nil rfl
    | _ => exact Vocabulary.knows_of_plain (Builtin.plain_reply _ _ _ (by simp)) hv
  text _ b args hb := by
    cases b with
    | print => exact absurd rfl hb
    | _ => rfl

/-- **Unmentioned builtins are irrelevant.**  Two hosts that have the same entries
under every identifier of the sources of a session, and whatever entries under other
names, run the session from a fresh machine alike: every source ends on one as on the
other, with the same value or error, output and variables, and does the same for
every amount of fuel.  With the standard library sources that do not mention `print`
write nothing.

The entries that matter are builtins and plain constants, not closures, and builtins of
the hosts' own that can be reached from them do the same on both (`Host.SameUnder`).  A
host that makes no closures is so with every registry that has the same entries under
these names (`Host.sameUnder_of_closureless`). -/
theorem unmentioned_builtins_irrelevant (texts : List String) (sink : Sink) :
    (∀ (own : String → Prop) (host host' : Host),
      Host.SameUnder (Mentioned texts) own host host' →
      (∀ rs m, Outcomes host (.fresh sink) texts rs m ↔ Outcomes host' (.fresh sink) texts rs m) ∧
      ∀ before text after, texts = before ++ text :: after →
        ∀ rs m, Outcomes host (.fresh sink) before rs m →
          ∀ fuel, runSource host' fuel text m = runSource host fuel text m) ∧
    (¬ Mentioned texts "print" → ∀ limit before text after, texts = before ++ text :: after →
      ∀ rs m, Outcomes (Host.standard.withLimit limit) (.fresh sink) before rs m →
        ∀ fuel, ((runSource (Host.standard.withLimit limit) fuel text).final m).sink = sink) := by
  constructor
  · intro own host host' h
    have hV := h.shared
    have hcovers : (Host.vocabulary (Mentioned texts) own).Covers texts := fun _ => id
    refine ⟨fun rs m => hV.outcomes_iff (Machine.over_fresh _ sink) hcovers, ?_⟩
    intro before text after hsplit rs m hbefore fuel
    exact (hV.agree_next hcovers hsplit hbefore fuel).2.eq
  · intro hprint limit before text after hsplit rs m hbefore fuel
    have hV := Host.shared_unprinting limit
    have hcovers : Vocabulary.unprinting.Covers texts := fun name hname heq => hprint (heq ▸ hname)
    obtain ⟨hafter, hnext⟩ := hV.agree_next hcovers hsplit hbefore fuel
    exact (hafter.trans hnext.after).sink trivial

/-- A builtin that is kept in a variable and called under its name: a registry with
nothing but `len` does as well as the standard library. -/
theorem unmentioned_builtins_irrelevant_len :
    let host := Host.standard
    let host' : Host := { host with registry := [("len", .builtin .len)] }
    let texts := ["f=len", "f(\"ab\")"]
    host.SameUnder (Mentioned texts) (fun _ => True) host' ∧ ¬ Mentioned texts "print" ∧
      ∃ m₁ m, Outcomes host' (.fresh .unlimited) texts
          [.ok none m₁, .ok (some (.number (Float.ofNat 2))) m] m ∧
        Outcomes host (.fresh .unlimited) texts
          [.ok none m₁, .ok (some (.number (Float.ofNat 2))) m] m ∧
        ∀ fuel, ((runSource host fuel "f(\"ab\")").final m₁).sink = .unlimited := by
  intro host host' texts
  have hnames : texts.flatMap identifiers = ["f", "len", "f"] := by decide +kernel
  have hentries : ∀ name ∈ ["f", "len", "f"],
      Bindings.lookup name host'.registry = Bindings.lookup name host.registry := by
    simp only [List.forall_mem_cons]
    exact ⟨rfl, rfl, rfl, fun _ h => absurd h List.not_mem_nil⟩
  have hsame : host.SameUnder (Mentioned texts) (fun _ => True) host' :=
    Host.sameUnder_of_closureless (Host.closureless_of_standard rfl rfl) fun name hname =>
      hentries name (hnames ▸ hname)
  have hprint : ¬ Mentioned texts "print" := by
    rw [Mentioned, hnames]
    decide
  have hfirst : parseSource "f=len" = .ok [.assign "f" (.variable "len" ⟨1, 3⟩) ⟨1, 1⟩] :=
    by decide +kernel
  have hsecond : parseSource "f(\"ab\")" =
      .ok [.expression (.call "f" [.string "ab"] ⟨1, 1⟩)] := by decide +kernel
  obtain ⟨m₁, m, hone, hother⟩ : ∃ m₁ m,
      runSource host' 3 "f=len" (.fresh .unlimited) = .ok none m₁ ∧
        runSource host' 3 "f(\"ab\")" m₁ = .ok (some (.number (Float.ofNat 2))) m := by
    simp only [runSource_of_ok hfirst, runSource_of_ok hsecond]
    exact ⟨_, _, rfl, rfl⟩
  have houtcomes : Outcomes host' (.fresh .unlimited) texts
      [.ok none m₁, .ok (some (.number (Float.ofNat 2))) m] m :=
    .cons ⟨3, hone, finished_ok _ _⟩ (.cons ⟨3, hother, finished_ok _ _⟩ (.nil m))
  obtain ⟨hhosts, hquiet⟩ := unmentioned_builtins_irrelevant texts .unlimited
  obtain ⟨hiff, hnext⟩ := hhosts _ host host' hsame
  have hfirst' : Outcomes host (.fresh .unlimited) ["f=len"] [.ok none m₁] m₁ := by
    have hrun := hnext [] "f=len" ["f(\"ab\")"] rfl [] _ (.nil _) 3
    exact .cons ⟨3, hrun.symm.trans hone, finished_ok _ _⟩ (.nil m₁)
  exact ⟨hsame, hprint, m₁, m, houtcomes, (hiff _ m).mpr houtcomes,
    hquiet hprint _ ["f=len"] _ [] rfl _ _ hfirst'⟩

end Abacus
