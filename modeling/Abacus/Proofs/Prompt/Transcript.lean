import Abacus.Proofs.Prompt.Lines
import Abacus.Proofs.Session.Cut
import Abacus.Proofs.Session.Unmentioned

/-!
# Abacus.Proofs.Prompt.Transcript

What a whole interactive session does.  Its lines fall into parts: blank lines, and
submissions, which are collected until their braces balance; then the session is left,
or the input ends, perhaps with lines that still wait (`Partition`).  The session runs
the submissions as the same sources run one after the other, and writes the signs that
ask for lines, what the programs print and the answers, in this order
(`session_runs_lines`).

The proof takes a session apart at its parts.  On a sink that takes everything a part
appends its text to what was written, whatever that is, so the submissions are run on
machines that differ from those of the plain runs in nothing but what the sink holds.
-/

namespace Abacus

namespace Prompt

/-! ## The parts of an input -/

/-- What a line says, the blanks around it apart. -/
def word (line : String) : String := .ofList (Text.trim line.toList)

/-- A line that ends the session if nothing waits. -/
def Leaves (line : String) : Prop := word line = "exit" ∨ word line = "quit"

instance (line : String) : Decidable (Leaves line) := inferInstanceAs (Decidable (_ ∨ _))

/-- Lines that are collected one after the other: the first is not blank and does not
end the session, and after each but the last a brace is open. -/
structure Collected (lines : List String) : Prop where
  begins : ∀ line, lines.head? = some line → word line ≠ "" ∧ ¬ Leaves line
  opens : ∀ before after, lines = before ++ after → before ≠ [] → after ≠ [] →
    0 < openBraces (String.join before)

/-- A part of an input: a blank line with nothing before it that waits, or the lines
of a submission. -/
inductive Part where
  | blank (line : String)
  | submission (lines : List String)

namespace Part

/-- The lines of a part. -/
def lines : Part → List String
  | blank line => [line]
  | submission lines => lines

/-- The source that a part submits. -/
def source? : Part → Option String
  | blank _ => none
  | submission lines => some (String.join lines)

/-- The lines are what the part says.  Those of a submission are closed by the last. -/
inductive Valid : Part → Prop
  | blank {line : String} (h : word line = "") : Valid (blank line)
  | submission {lines : List String} (hne : lines ≠ []) (h : Collected lines)
      (hclosed : openBraces (String.join lines) ≤ 0) : Valid (submission lines)

end Part

/-- How an input comes to its end: a line ends the session, and those after it are not
read; or there are no more lines, but perhaps some that still wait. -/
inductive Close where
  | left (line : String) (unread : List String)
  | ended (tail : List String)

namespace Close

/-- The lines from the close of the session on. -/
def lines : Close → List String
  | left line unread => line :: unread
  | ended tail => tail

/-- The lines are what the close says. -/
inductive Valid : Close → Prop
  | left {line : String} (unread : List String) (h : Leaves line) : Valid (left line unread)
  | ended {tail : List String} (h : Collected tail)
      (hopen : tail ≠ [] → 0 < openBraces (String.join tail)) : Valid (ended tail)

end Close

/-- Lines as parts and a close, in order. -/
structure Partition (lines : List String) (parts : List Part) (close : Close) : Prop where
  lines_eq : lines = parts.flatMap Part.lines ++ close.lines
  parts : ∀ part ∈ parts, part.Valid
  close : close.Valid

/-- The sources that are submitted, in order. -/
def sources (parts : List Part) : List String := parts.filterMap Part.source?

/-! ## The text of a session -/

/-- The signs that ask for so many lines, the first of them with nothing that waits. -/
def signs : Nat → String
  | 0 => ""
  | n + 1 => ">>> " ++ String.join (List.replicate n "... ")

/-- What answers a submission: its value, unless it has none, or its error. -/
def answer : EStateM.Result Stop Machine (Option Value) → String
  | .ok v _ =>
    match echo? v with
    | some text => text ++ "\n"
    | none => ""
  | .error (.failed e) _ => "Error: " ++ e.message ++ "\n"
  | .error .exhausted _ => ""

/-- The bytes that some parts of a session write, from a machine on, if the submissions
have these results: for each line that is read a sign, and for a submission also what
its program writes and its answer. -/
inductive Writes : Machine → List Part → List (EStateM.Result Stop Machine (Option Value)) →
    ByteArray → Prop
  | nil (m : Machine) : Writes m [] [] .empty
  | blank {m : Machine} {line : String} {parts : List Part}
      {rs : List (EStateM.Result Stop Machine (Option Value))} {bytes : ByteArray}
      (hrest : Writes m parts rs bytes) :
      Writes m (.blank line :: parts) rs ((signs 1).toUTF8 ++ bytes)
  | submission {m : Machine} {lines : List String} {parts : List Part}
      {r : EStateM.Result Stop Machine (Option Value)}
      {rs : List (EStateM.Result Stop Machine (Option Value))} {printed bytes : ByteArray}
      (hprinted : (Result.machine r).sink = .endless (m.sink.written ++ printed))
      (hrest : Writes (Result.machine r) parts rs bytes) :
      Writes m (.submission lines :: parts) (r :: rs)
        ((signs lines.length).toUTF8 ++ printed ++ (answer r).toUTF8 ++ bytes)

/-- What is written at the close: a sign for each line that is read, and at the end of
the input a sign for the line that is missing and a line break. -/
def Close.text : Close → String
  | .left _ _ => signs 1
  | .ended tail => signs (tail.length + 1) ++ "\n"

/-! ## Every input has parts -/

namespace Collected

variable {lines : List String} {line : String}

theorem nil : Collected [] where
  begins _ h := by cases h
  opens before after h hne := by
    obtain ⟨rfl, -⟩ := List.append_eq_nil_iff.mp h.symm
    exact absurd rfl hne

/-- A line that begins a submission. -/
theorem singleton (hblank : word line ≠ "") (hleaves : ¬ Leaves line) : Collected [line] where
  begins _ h := by
    cases h
    exact ⟨hblank, hleaves⟩
  opens before after h hne hafter := by
    obtain ⟨rfl, -⟩ | ⟨-, rfl⟩ := List.append_eq_singleton_iff.mp h.symm
    · exact absurd rfl hne
    · exact absurd rfl hafter

/-- Lines are collected before those that are collected after them. -/
theorem of_append {more : List String} (h : Collected (lines ++ more)) : Collected lines where
  begins first hfirst := h.begins first (by rw [List.head?_append, hfirst, Option.some_or])
  opens before after heq hbefore hafter := by
    refine h.opens before (after ++ more) ?_ hbefore (by simp [hafter])
    rw [heq, List.append_assoc]

theorem join_ne_empty (h : Collected lines) (hne : lines ≠ []) : String.join lines ≠ "" := by
  obtain ⟨first, rest, rfl⟩ := List.exists_cons_of_ne_nil hne
  intro hjoin
  rw [String.join_cons, String.append_eq_empty_iff] at hjoin
  exact (h.begins first rfl).1 (by rw [hjoin.1]; rfl)

/-- A line is collected after others that leave a brace open. -/
theorem snoc (h : Collected lines) (hne : lines ≠ []) (hopen : 0 < openBraces (String.join lines))
    (line : String) : Collected (lines ++ [line]) where
  begins first hfirst := by
    rw [List.head?_append_of_ne_nil _ hne] at hfirst
    exact h.begins first hfirst
  opens before after heq hbefore hafter := by
    obtain ⟨init, last, rfl⟩ := List.eq_nil_or_concat after |>.resolve_left hafter
    rw [List.concat_eq_append, ← List.append_assoc] at heq
    obtain ⟨rfl, -⟩ := List.append_inj' heq rfl
    by_cases hinit : init = []
    · rwa [hinit, List.append_nil] at hopen
    · exact h.opens before init rfl hbefore hinit

end Collected

theorem Partition.cons {lines : List String} {part : Part} {parts : List Part} {close : Close}
    (hpart : part.Valid) (h : Partition lines parts close) :
    Partition (part.lines ++ lines) (part :: parts) close where
  lines_eq := by rw [h.lines_eq, List.flatMap_cons, List.append_assoc]
  parts := List.forall_mem_cons.mpr ⟨hpart, h.parts⟩
  close := h.close

/-- Lines that follow collected ones with a brace open fall into parts, and so do lines
that follow none. -/
theorem exists_partition_append (pending lines : List String) (h : Collected pending)
    (hopen : pending ≠ [] → 0 < openBraces (String.join pending)) :
    ∃ parts close, Partition (pending ++ lines) parts close := by
  induction lines generalizing pending with
  | nil => exact ⟨[], .ended pending, by simp [Close.lines], by simp, .ended h hopen⟩
  | cons line lines ih =>
      have hrest : ∃ parts close, Partition lines parts close := ih [] .nil (by simp)
      have hcollected (hline : Collected (pending ++ [line])) :
          ∃ parts close, Partition (pending ++ line :: lines) parts close := by
        rw [List.append_cons]
        by_cases hwait : 0 < openBraces (String.join (pending ++ [line]))
        · exact ih _ hline fun _ => hwait
        · obtain ⟨parts, close, hpartition⟩ := hrest
          have hpart := Part.Valid.submission (by simp) hline (Int.not_lt.mp hwait)
          exact ⟨_, close, hpartition.cons hpart⟩
      by_cases hpending : pending = []
      · subst hpending
        by_cases hblank : word line = ""
        · obtain ⟨parts, close, hpartition⟩ := hrest
          exact ⟨_, close, hpartition.cons (.blank hblank)⟩
        · by_cases hleaves : Leaves line
          · exact ⟨[], .left line lines, rfl, by simp, .left lines hleaves⟩
          · exact hcollected (.singleton hblank hleaves)
      · exact hcollected (h.snoc hpending (hopen hpending) line)

/-- Lines fall into parts. -/
theorem exists_partition (lines : List String) :
    ∃ parts close, Partition lines parts close :=
  exists_partition_append [] lines .nil (by simp)

/-! ## What the prompt does with a line -/

theorem action_of_blank {line : String} (h : word line = "") : action "" line = .skip := by
  rw [action, if_pos ⟨rfl, h⟩]

theorem action_of_leaves {line : String} (h : Leaves line) : action "" line = .leave := by
  have hblank : word line ≠ "" := by
    obtain h | h := h <;> simp [h]
  rw [action, if_neg (fun hskip => hblank hskip.2), if_pos ⟨rfl, h⟩]

/-- A line that is collected waits with those before it or is run with them. -/
theorem action_of_collected {lines : List String} {line : String}
    (h : Collected (lines ++ [line])) :
    action (String.join lines) line =
      if 0 < openBraces (String.join (lines ++ [line])) then
        .wait (String.join (lines ++ [line]))
      else .run (String.join (lines ++ [line])) := by
  have hjoin : String.join (lines ++ [line]) = String.join lines ++ line := by
    rw [String.join_append, String.join_cons, String.join_nil, String.append_empty]
  have hbegins (hempty : String.join lines = "") : word line ≠ "" ∧ ¬ Leaves line := by
    by_cases hne : lines = []
    · subst hne
      exact h.begins line rfl
    · exact absurd hempty (h.of_append.join_ne_empty hne)
  rw [action, if_neg (fun hskip => (hbegins hskip.1).1 hskip.2),
    if_neg (fun hleave => (hbegins hleave.1).2 hleave.2), hjoin]

/-! ## Sessions on a sink that takes everything -/

theorem toUTF8_append (s t : String) : (s ++ t).toUTF8 = s.toUTF8 ++ t.toUTF8 :=
  String.toByteArray_append

/-- The next sign asks for a line after those that are collected. -/
theorem signs_succ {lines : List String} (h : Collected lines) :
    signs (lines.length + 1) = signs lines.length ++ sign (String.join lines) := by
  cases lines with
  | nil => rfl
  | cons first rest =>
      rw [sign, if_neg (h.join_ne_empty (List.cons_ne_nil _ _)), List.length_cons, signs, signs,
        List.replicate_succ', String.join_append, String.append_assoc]
      rfl

variable {host : Host} {fuel : Nat} {m : Machine} {held : ByteArray} {lines rest : List String}

/-- A line that is read is asked for and then taken. -/
theorem converse_cons (pending line : String) :
    converse host fuel pending ((line :: rest).map .ok) (m.withSink (.endless held)) =
      (take host fuel pending line >>= fun
        | none => pure ()
        | some pending => converse host fuel pending (rest.map .ok))
      (m.withSink (.endless (held ++ (sign pending).toUTF8))) := rfl

/-- Lines that wait are asked for one by one. -/
theorem converse_collected (h : Collected lines)
    (hopen : lines ≠ [] → 0 < openBraces (String.join lines)) :
    converse host fuel "" ((lines ++ rest).map .ok) (m.withSink (.endless held)) =
      converse host fuel (String.join lines) (rest.map .ok)
        (m.withSink (.endless (held ++ (signs lines.length).toUTF8))) := by
  induction lines using List.reverseRecOn generalizing rest with
  | nil => simp [signs]
  | append_singleton lines line ih =>
      have hwait := hopen (by simp)
      rw [List.append_assoc, ih h.of_append fun hne => h.opens _ _ rfl hne (by simp),
        List.singleton_append, converse_cons, take, action_of_collected h, if_pos hwait,
        List.length_append, List.length_singleton, signs_succ h.of_append, toUTF8_append,
        ByteArray.append_assoc]
      rfl

/-- A blank line is left out. -/
theorem converse_blank {line : String} (h : word line = "") :
    converse host fuel "" ((line :: rest).map .ok) (m.withSink (.endless held)) =
      converse host fuel "" (rest.map .ok) (m.withSink (.endless (held ++ (signs 1).toUTF8))) := by
  rw [converse_cons, take, action_of_blank h]
  rfl

/-- The lines of a submission are asked for, and then it is run. -/
theorem converse_submission (hne : lines ≠ []) (h : Collected lines)
    (hclosed : openBraces (String.join lines) ≤ 0) :
    converse host fuel "" ((lines ++ rest).map .ok) (m.withSink (.endless held)) =
      (submit host fuel (String.join lines) >>= fun _ => converse host fuel "" (rest.map .ok))
        (m.withSink (.endless (held ++ (signs lines.length).toUTF8))) := by
  obtain ⟨before, line, rfl⟩ := (List.eq_nil_or_concat lines).resolve_left hne
  rw [List.concat_eq_append] at h hclosed ⊢
  rw [List.append_assoc,
    converse_collected h.of_append fun hne => h.opens _ _ rfl hne (by simp),
    List.singleton_append, converse_cons, take, action_of_collected h,
    if_neg (Int.not_lt.mpr hclosed), List.length_append, List.length_singleton,
    signs_succ h.of_append, toUTF8_append, ByteArray.append_assoc]
  simp only [bind_assoc, pure_bind]

/-- The close of a session runs nothing. -/
theorem converse_close {close : Close} (h : close.Valid) :
    converse host fuel "" (close.lines.map .ok) (m.withSink (.endless held)) =
      .ok () (m.withSink (.endless (held ++ close.text.toUTF8))) := by
  cases h with
  | left unread h =>
      rw [Close.lines, converse_cons, take, action_of_leaves h]
      rfl
  | @ended tail h hopen =>
      have htail := @converse_collected host fuel m held tail [] h hopen
      rw [List.append_nil] at htail
      rw [Close.lines, htail, Close.text, signs_succ h, toUTF8_append, toUTF8_append,
        ← ByteArray.append_assoc, ← ByteArray.append_assoc]
      rfl

/-! ## Submissions -/

/-- What a program prints does not depend on what was written before. -/
theorem exists_printed (host : Host) (fuel : Nat) (source : String)
    (hm : m.sink = .endless m.sink.written) :
    ∃ printed, (Result.machine (runSource host fuel source m)).sink =
        .endless (m.sink.written ++ printed) ∧
      ∀ held, runSource host fuel source (m.withSink (.endless held)) =
        Result.withSink (runSource host fuel source m) (.endless (held ++ printed)) := by
  obtain ⟨o, ho⟩ := exists_prints_perform host fuel (.source source) m
  rw [← SessionStep.run_eq_perform] at ho
  have hplain : runSource host fuel source m =
      Result.withSink o.result (.endless (m.sink.written ++ o.bytes)) := by
    have hrun := ho.endless m.sink.written
    rwa [← hm, Machine.withSink_self] at hrun
  refine ⟨o.bytes, ?_, fun held => ?_⟩
  · rw [hplain, Result.machine_withSink, Machine.withSink_sink]
  · rw [hplain, Result.withSink_withSink]
    exact ho.endless held

/-- A submission answers what its run comes to. -/
theorem submit_of_finished {source : String} {m₁ : Machine} {held' : ByteArray}
    {r : EStateM.Result Stop Machine (Option Value)} (hr : Finished r)
    (h : runSource host fuel source m₁ = Result.withSink r (.endless held')) :
    submit host fuel source m₁ =
      .ok () ((Result.machine r).withSink (.endless (held' ++ (answer r).toUTF8))) := by
  unfold submit runSubmission
  cases r with
  | ok v m' =>
      rw [Stateful.bind_of_ok _ h]
      cases hecho : echo? v with
      | none => simp [answer, hecho, Result.machine]; rfl
      | some text => simp [answer, hecho, Result.machine]; rfl
  | error e m' =>
      rw [Stateful.bind_of_error _ h]
      cases e with
      | exhausted => exact absurd rfl (hr m')
      | failed e => rfl

theorem finished_of_submit {source : String} (h : Finished (submit host fuel source m)) :
    Finished (runSource host fuel source m) := by
  intro m' hr
  refine h m' ?_
  unfold submit runSubmission
  rw [Stateful.bind_of_error _ hr]

/-- A finished submission appends what its program prints and its answer. -/
theorem ends_submit_iff {source : String} (hm : m.sink = .endless m.sink.written)
    {r : EStateM.Result Stop Machine Unit} :
    Ends (fun fuel => submit host fuel source) (m.withSink (.endless held)) r ↔
      ∃ r₁ printed, Ends (fun fuel => runSource host fuel source) m r₁ ∧
        (Result.machine r₁).sink = .endless (m.sink.written ++ printed) ∧
        r = .ok () ((Result.machine r₁).withSink
          (.endless (held ++ printed ++ (answer r₁).toUTF8))) := by
  constructor
  · rintro ⟨fuel, rfl, hfinished⟩
    obtain ⟨printed, hsink, hrun⟩ := exists_printed host fuel source hm
    have hplain : Finished (runSource host fuel source m) := by
      have hsession := finished_of_submit hfinished
      rw [hrun] at hsession
      exact Result.finished_of_withSink hsession
    exact ⟨_, printed, ⟨fuel, rfl, hplain⟩, hsink, submit_of_finished hplain (hrun held)⟩
  · rintro ⟨_, printed, ⟨fuel, rfl, hfinished⟩, hsink, rfl⟩
    obtain ⟨printed', hsink', hrun⟩ := exists_printed host fuel source hm
    obtain rfl : printed' = printed := by
      rw [hsink', Sink.endless, Sink.endless] at hsink
      injection hsink with hwritten
      exact (ByteArray.append_right_inj _).mp hwritten
    exact ⟨fuel, submit_of_finished hfinished (hrun held), finished_ok _ _⟩

theorem steady_submit (host : Host) (source : String) :
    Steady fun fuel => submit host fuel source := by
  intro fuel m hfinished
  have hrun := finished_of_submit hfinished
  have hmore : runSource host (fuel + 1) source m = runSource host fuel source m :=
    steady_step host (.source source) fuel m hrun
  have hsubmission : runSubmission host (fuel + 1) source m = runSubmission host fuel source m :=
    Stateful.bind_of_eq _ hmore
  show submit host (fuel + 1) source m = submit host fuel source m
  rw [submit, submit, hsubmission]

theorem steady_converse (host : Host) (pending : String) (lines : List Line) :
    Steady fun fuel => converse host fuel pending lines := by
  induction lines generalizing pending with
  | nil => exact .const _
  | cons line lines ih =>
      simp only [converse]
      refine .bind (.const _) fun _ => ?_
      cases line with
      | error e => exact .const _
      | ok text =>
          refine .bind ?_ fun next => ?_
          · unfold take
            cases action pending text with
            | run source => exact (steady_submit host source).bind fun _ => .const _
            | _ => exact .const _
          · cases next with
            | none => exact .const _
            | some pending => exact ih pending

/-- After a submission the session goes on, whatever became of it. -/
theorem ends_submit_bind_iff {source : String} {k : Nat → Run Unit} (hk : Steady k)
    (hm : m.sink = .endless m.sink.written) {r : EStateM.Result Stop Machine Unit} :
    Ends (fun fuel => submit host fuel source >>= fun _ => k fuel) (m.withSink (.endless held)) r ↔
      ∃ r₁ printed, Ends (fun fuel => runSource host fuel source) m r₁ ∧
        (Result.machine r₁).sink = .endless (m.sink.written ++ printed) ∧
        Ends k ((Result.machine r₁).withSink
          (.endless (held ++ printed ++ (answer r₁).toUTF8))) r := by
  rw [(steady_submit host source).ends_bind_iff fun _ => hk]
  constructor
  · rintro (⟨_, m', hsubmit, hrest⟩ | ⟨e, m', hsubmit, -⟩)
    · obtain ⟨r₁, printed, hrun, hsink, heq⟩ := (ends_submit_iff hm).mp hsubmit
      cases heq
      exact ⟨r₁, printed, hrun, hsink, hrest⟩
    · obtain ⟨r₁, printed, -, -, heq⟩ := (ends_submit_iff hm).mp hsubmit
      cases heq
  · rintro ⟨r₁, printed, hrun, hsink, hrest⟩
    exact .inl ⟨(), _, (ends_submit_iff hm).mpr ⟨r₁, printed, hrun, hsink, rfl⟩, hrest⟩

/-! ## Whole sessions -/

theorem Partition.tail {part : Part} {parts : List Part} {close : Close}
    (h : Partition lines (part :: parts) close) :
    ∃ rest, lines = part.lines ++ rest ∧ part.Valid ∧ Partition rest parts close := by
  obtain ⟨hpart, hparts⟩ := List.forall_mem_cons.mp h.parts
  refine ⟨_, ?_, hpart, rfl, hparts, h.close⟩
  rw [h.lines_eq, List.flatMap_cons, List.append_assoc]

theorem ends_congr {α : Type} {x y : Nat → Run α} {m m' : Machine}
    (h : ∀ fuel, x fuel m = y fuel m') {r : EStateM.Result Stop Machine α} :
    Ends x m r ↔ Ends y m' r :=
  exists_congr fun fuel => by rw [h]

/-- What a session comes to whose lines are in parts. -/
theorem ends_converse_iff {parts : List Part} {close : Close}
    (h : Partition lines parts close) (hm : m.sink = .endless m.sink.written)
    {r : EStateM.Result Stop Machine Unit} :
    Ends (fun fuel => converse host fuel "" (lines.map .ok)) (m.withSink (.endless held)) r ↔
      ∃ rs m' bytes, Outcomes host m (sources parts) rs m' ∧ Writes m parts rs bytes ∧
        r = .ok () (m'.withSink (.endless (held ++ bytes ++ close.text.toUTF8))) := by
  induction parts generalizing lines m held with
  | nil =>
      obtain rfl : lines = close.lines := h.lines_eq
      rw [ends_congr fun fuel => @converse_close host fuel m held close h.close]
      constructor
      · rintro ⟨_, rfl, -⟩
        exact ⟨[], m, .empty, .nil m, .nil m, by rw [ByteArray.append_empty]⟩
      · rintro ⟨rs, m', bytes, houtcomes, hwrites, rfl⟩
        cases houtcomes
        cases hwrites
        exact ⟨0, by rw [ByteArray.append_empty], finished_ok _ _⟩
  | cons part parts ih =>
      obtain ⟨rest, rfl, hpart, hrest⟩ := h.tail
      cases hpart with
      | @blank line hblank =>
          rw [Part.lines, List.singleton_append, ends_congr fun fuel => converse_blank hblank,
            ih hrest hm]
          constructor
          · rintro ⟨rs, m', bytes, houtcomes, hwrites, rfl⟩
            exact ⟨rs, m', _, houtcomes, .blank hwrites, by simp only [ByteArray.append_assoc]⟩
          · rintro ⟨rs, m', bytes, houtcomes, hwrites, rfl⟩
            cases hwrites with
            | blank hwrites =>
                exact ⟨rs, m', _, houtcomes, hwrites, by simp only [ByteArray.append_assoc]⟩
      | @submission lines hne hcollected hclosed =>
          rw [Part.lines, ends_congr fun fuel => converse_submission hne hcollected hclosed,
            ends_submit_bind_iff (steady_converse host "" (rest.map .ok)) hm]
          constructor
          · rintro ⟨r₁, printed, hrun, hsink, hends⟩
            have hm₁ : (Result.machine r₁).sink = .endless (Result.machine r₁).sink.written := by
              rw [hsink]
              rfl
            obtain ⟨rs, m', bytes, houtcomes, hwrites, rfl⟩ := (ih hrest hm₁).mp hends
            refine ⟨r₁ :: rs, m', _, .cons hrun houtcomes, .submission hsink hwrites, ?_⟩
            simp only [ByteArray.append_assoc]
          · rintro ⟨_, m', _, houtcomes, hwrites, rfl⟩
            cases houtcomes with
            | @cons _ _ _ _ r₁ rs hrun houtcomes =>
                cases hwrites with
                | @submission _ _ _ _ _ printed bytes hsink hwrites =>
                    have hm₁ : (Result.machine r₁).sink =
                        .endless (Result.machine r₁).sink.written := by
                      rw [hsink]
                      rfl
                    refine ⟨r₁, printed, hrun, hsink, (ih hrest hm₁).mpr ?_⟩
                    refine ⟨rs, m', bytes, houtcomes, hwrites, ?_⟩
                    simp only [ByteArray.append_assoc]

end Prompt

/-- **A session runs every line once.**  The lines of an input that is a text are the
text, cut after each line break.  They fall into parts, in order: blank lines,
submissions that are collected until no brace is open, and a close, which may leave
lines unread or waiting.  However they do, a session on a sink that takes everything
ends exactly if the submissions, run as sources one after the other, each end, in a
value or in an error; it leaves the machine that they leave, and has written the
greeting, for each part what it writes, and what is written at the close. -/
theorem session_runs_lines (host : Host) (text : String) {m : Machine}
    (hcapacity : m.sink.capacity = none) (hflush : m.sink.flushable = true) :
    let lines := Prompt.textLines text
    (Prompt.lines text.toUTF8 = lines.map .ok ∧ String.join lines = text ∧
      (∀ line ∈ lines, line ≠ "" ∧ '\n' ∉ line.toList.dropLast) ∧
      ∀ line ∈ lines.dropLast, line.toList.getLast? = some '\n') ∧
    (∃ parts close, Prompt.Partition lines parts close) ∧
    ∀ parts close, Prompt.Partition lines parts close →
      ∀ r, Ends (fun fuel => Prompt.session host fuel text.toUTF8) m r ↔
        ∃ rs m' bytes, Outcomes host m (Prompt.sources parts) rs m' ∧
          Prompt.Writes m parts rs bytes ∧
          r = .ok () (m'.withSink (.endless (m.sink.written ++ Prompt.banner.toUTF8 ++ bytes ++
            close.text.toUTF8))) := by
  intro lines
  refine ⟨⟨Prompt.lines_toUTF8 text, Prompt.join_textLines text, ?_, ?_⟩,
    Prompt.exists_partition lines, fun parts close h r => ?_⟩
  · intro line hline
    obtain ⟨cs, hcs, rfl⟩ := List.mem_map.mp hline
    obtain ⟨hne, hbreak⟩ := Prompt.newline_of_mem_cutText hcs
    rw [String.toList_ofList]
    exact ⟨fun hempty => hne (String.ofList_eq_empty_iff.mp hempty), hbreak⟩
  · intro line hline
    have hmap : lines.dropLast = (Prompt.cutText text.toList).dropLast.map String.ofList :=
      List.map_dropLast.symm
    rw [hmap] at hline
    obtain ⟨cs, hcs, rfl⟩ := List.mem_map.mp hline
    rw [String.toList_ofList]
    exact Prompt.getLast?_of_mem_dropLast_cutText hcs
  · have hm : m.sink = .endless m.sink.written := Sink.eq_endless hcapacity hflush
    have hgreet : ∀ fuel, Prompt.session host fuel text.toUTF8 m =
        Prompt.converse host fuel "" (lines.map .ok)
          (m.withSink (.endless (m.sink.written ++ Prompt.banner.toUTF8))) := by
      intro fuel
      have hself : m = m.withSink (.endless m.sink.written) := by rw [← hm, Machine.withSink_self]
      rw [Prompt.session, Prompt.lines_toUTF8]
      nth_rewrite 1 [hself]
      rfl
    rw [Prompt.ends_congr hgreet]
    exact Prompt.ends_converse_iff h hm

/-- A session with a blank line, a submission of two lines with a brace in a comment, a
brace that was not opened, a brace in a string, and a line that is not read. -/
theorem session_runs_lines_quit :
    let host := Host.standard.withLimit 10
    let m : Machine := .fresh .unlimited
    let text := "\nif true \x7b # \x7d\nprint(\"b\") \x7d\n\x7d\n\"\x7b\"\n quit\nx"
    (m.sink.capacity = none ∧ m.sink.flushable = true) ∧
    ∃ m', Ends (fun fuel => Prompt.session host fuel text.toUTF8) m (.ok () m') ∧
      m'.sink.written = (Prompt.banner ++ ">>> " ++ ">>> ... b\n" ++
        ">>> Error: [line 1, column 1] Expected expression, found '\x7d'\n" ++
        ">>> \x7b\n" ++ ">>> ").toUTF8 := by
  intro host m text
  let block := ["if true \x7b # \x7d\n", "print(\"b\") \x7d\n"]
  let parts : List Prompt.Part :=
    [.blank "\n", .submission block, .submission ["\x7d\n"], .submission ["\"\x7b\"\n"]]
  let close : Prompt.Close := .left " quit\n" ["x"]
  have hblock : Prompt.Collected block :=
    (Prompt.Collected.singleton (by decide) (by decide)).snoc (by simp) (by decide) _
  have hpartition : Prompt.Partition (Prompt.textLines text) parts close := by
    refine ⟨by decide, ?_, .left ["x"] (.inr (by decide))⟩
    simp only [parts, List.forall_mem_cons]
    exact ⟨.blank (by decide), .submission (by simp) hblock (by decide),
      .submission (by simp) (.singleton (by decide) (by decide)) (by decide),
      .submission (by simp) (.singleton (by decide) (by decide)) (by decide), by simp⟩
  have hfirst : parseSource (String.join block) =
      .ok [.ifThen (.boolean true) [.expression (.call "print" [.string "b"] ⟨2, 1⟩)] ⟨1, 1⟩] := by
    decide +kernel
  have hsecond : parseSource (String.join ["\x7d\n"]) =
      .error (.grammar ⟨.expression, "'\x7d'", ⟨1, 1⟩⟩) := by decide +kernel
  have hthird : parseSource (String.join ["\"\x7b\"\n"]) = .ok [.expression (.string "\x7b")] := by
    decide +kernel
  obtain ⟨m₁, hrun₁, hsink₁⟩ : ∃ m₁, runSource host 4 (String.join block) m = .ok none m₁ ∧
      m₁.sink = .endless (m.sink.written ++ "b\n".toUTF8) := by
    rw [runSource_of_ok hfirst]
    exact ⟨_, rfl, rfl⟩
  let fault : Error := .source (.grammar ⟨.expression, "'\x7d'", ⟨1, 1⟩⟩)
  have hrun₂ : runSource host 4 (String.join ["\x7d\n"]) m₁ = .error (.failed fault) m₁ := by
    rw [runSource_eq, readSource_of_error hsecond]
    rfl
  have hrun₃ : runSource host 4 (String.join ["\"\x7b\"\n"]) m₁ =
      .ok (some (.string "\x7b")) m₁ := by
    rw [runSource_of_ok hthird]
    rfl
  let rs : List (EStateM.Result Stop Machine (Option Value)) :=
    [.ok none m₁, .error (.failed fault) m₁, .ok (some (.string "\x7b")) m₁]
  have houtcomes : Outcomes host m (Prompt.sources parts) rs m₁ :=
    .cons ⟨4, hrun₁, finished_ok _ _⟩ (.cons ⟨4, hrun₂, finished_failed _ _⟩
      (.cons ⟨4, hrun₃, finished_ok _ _⟩ (.nil m₁)))
  have hquiet : m₁.sink = .endless (m₁.sink.written ++ .empty) := by
    rw [hsink₁, ByteArray.append_empty]
    rfl
  have hwrites : Prompt.Writes m parts rs _ :=
    .blank (.submission hsink₁ (.submission hquiet (.submission hquiet (.nil m₁))))
  obtain ⟨-, -, hsession⟩ := session_runs_lines host text (show m.sink.capacity = none from rfl) rfl
  have hends := (hsession parts close hpartition _).mpr ⟨_, m₁, _, houtcomes, hwrites, rfl⟩
  exact ⟨⟨rfl, rfl⟩, _, hends, rfl⟩

end Abacus
