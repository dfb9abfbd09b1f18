import Abacus.Command
import Abacus.Proofs.Parse.Literal
import Abacus.Proofs.Parse.Source
import Abacus.Proofs.Tree.Readable

/-!
# Abacus.Proofs.Parse.Printed

Printed programs.  A derivation from the tokens of a source gives a tree whose names are
identifiers and whose numbers have no sign (`Derives.spelled`, `Forms.spelled`): a minus
in a source is an operation.  So the prefix forms of the statements of sources can be read
in one way only, and a listing of them has one line for each (`printed_form_unambiguous`).
-/

namespace Abacus

open Grammar

namespace Grammar

/-! ## Words of derived trees -/

/-- The texts of the tokens are those of their kinds. -/
def Lexed (tokens : List Token) : Prop := ∀ t ∈ tokens, Scan.Matches t.kind t.lexeme.toList

variable {tokens ts : List Token}

theorem Lexed.isName (h : Lexed tokens) {t : Token} (ht : t ∈ tokens)
    (hkind : t.kind = .identifier) : IsName t.lexeme := by
  have hmatches := h t ht
  rwa [hkind] at hmatches

/-- The text of a number token has no sign. -/
theorem Lexed.isUnsigned (h : Lexed tokens) {t : Token} (ht : t ∈ tokens)
    (hkind : t.kind = .number) {n : Float} (hn : Number.read? t.lexeme = some n) :
    Number.IsUnsigned n := by
  have hmatches := h t ht
  rw [hkind] at hmatches
  exact Number.isUnsigned_of_read? (Scan.takeSign_of_isDecimal hmatches.isDecimal) hn

/-- The tree of a phrase is spelled as in a source.  What is folded onto an operand is so
if the operand is. -/
def Phrase.Spelled : Phrase → Prop
  | chain _ e | unary e | primary e => e.Spelled Number.IsUnsigned
  | folds _ _ left e => left.Spelled Number.IsUnsigned → e.Spelled Number.IsUnsigned
  | arguments es => ∀ e ∈ es, e.Spelled Number.IsUnsigned

/-- The words of a derived phrase are texts of tokens. -/
theorem Derives.spelled (htokens : Lexed tokens) {phrase : Phrase} (h : Derives phrase ts)
    (hts : ts ⊆ tokens) : phrase.Spelled := by
  induction h with
  | operand _ ih => exact ih hts
  | level _ _ ihleft ihfolds =>
      obtain ⟨hleft, hfolds⟩ := List.append_subset.mp hts
      exact ihfolds hfolds (ihleft hleft)
  | done => exact id
  | fold _ _ _ ihright ihfolds =>
      intro hleft
      obtain ⟨hright, hfolds⟩ := List.append_subset.mp (List.cons_subset.mp hts).2
      exact ihfolds hfolds (.binary hleft (ihright hright))
  | operator _ _ ih => exact .unary (ih (List.cons_subset.mp hts).2)
  | plain _ ih => exact ih hts
  | number ht hn => exact .number (htokens.isUnsigned (hts List.mem_cons_self) ht hn)
  | string _ => exact .string _
  | true _ => exact .boolean _
  | false _ => exact .boolean _
  | name ht => exact .variable (htokens.isName (hts List.mem_cons_self) ht)
  | emptyCall ht _ _ => exact .call (htokens.isName (hts List.mem_cons_self) ht) (by simp)
  | call ht _ _ _ _ ih =>
      obtain ⟨hname, hts⟩ := List.cons_subset.mp hts
      obtain ⟨hargs, _⟩ := List.append_subset.mp (List.cons_subset.mp hts).2
      exact .call (htokens.isName hname ht) (ih hargs)
  | group _ _ _ ih => exact ih (List.append_subset.mp (List.cons_subset.mp hts).2).1
  | aggregate _ _ hvar _ _ _ _ _ _ _ ihstart ihstop ihbody =>
      simp only [List.cons_subset, List.append_subset] at hts
      obtain ⟨_, _, hname, _, hstart, _, hstop, _, hbody, _⟩ := hts
      exact .aggregate (htokens.isName hname hvar) (ihstart hstart) (ihstop hstop) (ihbody hbody)
  | lastArgument _ ih => exact List.forall_mem_singleton.mpr (ih hts)
  | argument _ _ _ ih ihrest =>
      obtain ⟨hfirst, hrest⟩ := List.append_subset.mp hts
      exact List.forall_mem_cons.mpr ⟨ih hfirst, ihrest (List.cons_subset.mp hrest).2⟩

theorem Derives.spelled_expression (htokens : Lexed tokens) {e : Expr}
    (h : Derives (.expression e) ts) (hts : ts ⊆ tokens) : e.Spelled Number.IsUnsigned :=
  h.spelled htokens hts

/-- The parameters of a function are identifiers. -/
theorem Parameters.isName (htokens : Lexed tokens) {params : List String}
    (h : Parameters params ts) (hts : ts ⊆ tokens) : ∀ x ∈ params, IsName x := by
  induction h with
  | last ht => exact List.forall_mem_singleton.mpr (htokens.isName (hts List.mem_cons_self) ht)
  | next ht _ _ ih =>
      simp only [List.cons_subset] at hts
      exact List.forall_mem_cons.mpr ⟨htokens.isName hts.1 ht, ih hts.2.2⟩

/-- The statements of a sentence are spelled as in a source. -/
def Sentence.Spelled : Sentence → Prop
  | statement s | conditional s | bare s => s.Spelled Number.IsUnsigned
  | block body | sequence body => ∀ s ∈ body, s.Spelled Number.IsUnsigned

/-- The words of a derived sentence are texts of tokens. -/
theorem Forms.spelled (htokens : Lexed tokens) {sentence : Sentence} (h : Forms sentence ts)
    (hts : ts ⊆ tokens) : sentence.Spelled := by
  induction h with
  | unended _ ih => exact ih hts
  | ended _ _ ih => exact ih (List.append_subset.mp hts).1
  | thunk _ hname _ _ _ ih =>
      simp only [List.cons_subset] at hts
      exact .function (htokens.isName hts.2.1 hname) (by simp) (ih hts.2.2.2.2)
  | function _ hname _ hparams _ _ _ ih =>
      simp only [List.cons_subset, List.append_subset] at hts
      obtain ⟨_, ht, _, hps, _, hbs⟩ := hts
      exact .function (htokens.isName ht hname) (hparams.isName htokens hps) (ih hbs)
  | choice _ ih => exact ih hts
  | whileLoop _ hcondition _ ih =>
      simp only [List.cons_subset, List.append_subset] at hts
      exact .whileLoop (hcondition.spelled_expression htokens hts.2.1) (ih hts.2.2)
  | forLoop _ hvar _ hitems _ ih =>
      simp only [List.cons_subset, List.append_subset] at hts
      obtain ⟨_, ht, _, his, hbs⟩ := hts
      exact .forLoop (htokens.isName ht hvar) (hitems.spelled_expression htokens his) (ih hbs)
  | giveNothing _ => exact .giveBack (by simp)
  | giveBack _ h =>
      have hvalue := h.spelled_expression htokens (List.cons_subset.mp hts).2
      exact .giveBack (by simpa using hvalue)
  | assign hname _ h =>
      simp only [List.cons_subset] at hts
      exact .assign (htokens.isName hts.1 hname) (h.spelled_expression htokens hts.2.2)
  | expression h => exact .expression (h.spelled_expression htokens hts)
  | ifThen _ hcondition _ ih =>
      simp only [List.cons_subset, List.append_subset] at hts
      exact .ifThen (hcondition.spelled_expression htokens hts.2.1) (ih hts.2.2)
  | ifElse _ hcondition _ _ _ ihbody ihother =>
      simp only [List.cons_subset, List.append_subset] at hts
      obtain ⟨_, hcs, hbs, _, hos⟩ := hts
      exact .ifElse (hcondition.spelled_expression htokens hcs) (ihbody hbs) (ihother hos)
  | elseIf _ hcondition _ _ _ ihbody ihother =>
      simp only [List.cons_subset, List.append_subset] at hts
      obtain ⟨_, hcs, hbs, _, hos⟩ := hts
      exact .ifElse (hcondition.spelled_expression htokens hcs) (ihbody hbs)
        (List.forall_mem_singleton.mpr (ihother hos))
  | block _ _ _ ih => exact ih (List.append_subset.mp (List.cons_subset.mp hts).2).1
  | nothing => simp [Sentence.Spelled]
  | separator _ _ ih => exact ih (List.cons_subset.mp hts).2
  | next _ _ ih ihrest =>
      obtain ⟨hfirst, hrest⟩ := List.append_subset.mp hts
      exact List.forall_mem_cons.mpr ⟨ih hfirst, ihrest hrest⟩

end Grammar

/-! ## Sources -/

/-- The statements of a source are spelled as in a source. -/
theorem spelled_of_parseSource {source : String} {program : List Stmt}
    (h : parseSource source = .ok program) : ∀ s ∈ program, s.Spelled Number.IsUnsigned := by
  obtain ⟨body, eoi, hof, hforms⟩ := forms_of_parseSource h
  obtain ⟨init, p, heq, hinit⟩ := tokenize_eq_append_finish hof.tokenize_eq
  obtain ⟨rfl, _⟩ := List.append_inj' heq rfl
  have htokens : Lexed body := fun t ht => Scan.spells_iff_matches.mp (hinit t ht).1
  exact hforms.spelled htokens (List.Subset.refl body)

/-- The listing of a program: every form, and a line break after it. -/
theorem toList_listing (program : List Stmt) :
    (String.join (program.map fun s => s.form ++ "\n")).toList =
      ['\n'].intercalate (program.map (fun s => s.form.toList) ++ [[]]) := by
  rw [String.toList_join]
  induction program with
  | nil => rfl
  | cons s rest ih =>
      obtain ⟨l, ls, hls⟩ : ∃ l ls, rest.map (fun s => s.form.toList) ++ [[]] = l :: ls :=
        List.exists_cons_of_ne_nil (by simp)
      rw [List.map_cons, List.map_cons, List.flatMap_cons, ih, List.cons_append, hls,
        List.intercalate_cons_cons]
      simp

/-- The lines of a listing are the forms. -/
theorem splitOn_listing {program : List Stmt} (h : ∀ s ∈ program, '\n' ∉ s.form.toList) :
    (String.join (program.map fun s => s.form ++ "\n")).toList.splitOn '\n' =
      program.map (fun s => s.form.toList) ++ [[]] := by
  rw [toList_listing]
  refine List.splitOn_intercalate '\n' (List.forall_mem_append.mpr ⟨?_, by simp⟩) (by simp)
  exact List.forall_mem_map.mpr h

theorem Command.report?_parse {host : Host} {fuel : Nat} {source : String} {program : List Stmt}
    (h : parseSource source = .ok program) :
    Command.report? host fuel source .parse =
      some ⟨(String.join (program.map fun s => s.form ++ "\n")).toUTF8, "", 0⟩ := by
  have hrun : listForms source (.fresh .unlimited) =
      Run.write (String.join (program.map fun s => s.form ++ "\n")) (.fresh .unlimited) := by
    rw [listForms, readSource, h]
    rfl
  rw [report?, perform, hrun, Run.write, Sink.write_of_capacity_eq_none rfl]
  exact congrArg (fun bytes => some (Report.mk bytes "" 0)) ByteArray.empty_append

/-- **The prefix form is unambiguous.**  Statements of sources whose numbers are finite
are the same up to places if they have the same form.  A form is on one line, so the
listing of a source has exactly one line for each of its statements, its form. -/
theorem printed_form_unambiguous {source source' : String} {program program' : List Stmt}
    (h : parseSource source = .ok program) (h' : parseSource source' = .ok program') :
    (∀ s ∈ program, ∀ s' ∈ program', (∀ n ∈ s.numbers, n.isFinite = true) →
      (∀ n ∈ s'.numbers, n.isFinite = true) → s.form = s'.form → s.unplaced = s'.unplaced) ∧
    (∀ s ∈ program, '\n' ∉ s.form.toList) ∧
    ∀ host fuel, ∃ listing : String,
      Command.report? host fuel source .parse = some ⟨listing.toUTF8, "", 0⟩ ∧
      listing.toList.splitOn '\n' = program.map (fun s => s.form.toList) ++ [[]] := by
  have hspelled := spelled_of_parseSource h
  have hspelled' := spelled_of_parseSource h'
  have hlines : ∀ s ∈ program, '\n' ∉ s.form.toList :=
    fun s hs => (hspelled s hs).newline_notMem_form
  refine ⟨fun s hs s' hs' hfinite hfinite' hform => ?_, hlines, fun host fuel =>
    ⟨_, Command.report?_parse h, splitOn_listing hlines⟩⟩
  have hnumerals : s.Spelled Number.IsNumeral :=
    (hspelled s hs).mono fun n hn hunsigned => ⟨hunsigned, hfinite n hn⟩
  have hnumerals' : s'.Spelled Number.IsNumeral :=
    (hspelled' s' hs').mono fun n hn hunsigned => ⟨hunsigned, hfinite' n hn⟩
  exact hnumerals.form_inj hnumerals' hform

/-- Two layouts of a statement with a string that looks like a form. -/
theorem printed_form_unambiguous_layouts :
    let form := "(= x (* (- 2.5) (call f \"(- x)\")))"
    ∃ s s' : Stmt, parseSource "x = -2.5 * f(\"(- x)\")" = .ok [s] ∧
      parseSource "# twice\nx=(-2.50)*f (\"(- x)\")" = .ok [s'] ∧ s.form = form ∧ s'.form = form ∧
      s.unplaced = s'.unplaced ∧ '\n' ∉ s.form.toList ∧
      ∀ host fuel, ∃ listing : String,
        Command.report? host fuel "x = -2.5 * f(\"(- x)\")" .parse = some ⟨listing.toUTF8, "", 0⟩ ∧
        listing.toList.splitOn '\n' = [form.toList, []] := by
  intro form
  have hread {source : String}
      (h : (parseSource source).toOption.map (fun program =>
        (program.map Stmt.form, program.all fun s => s.numbers.all Float.isFinite)) =
          some ([form], true)) :
      ∃ s, parseSource source = .ok [s] ∧ s.form = form ∧ ∀ n ∈ s.numbers, n.isFinite = true := by
    obtain ⟨program, hprogram, hpair⟩ := Option.map_eq_some_iff.mp h
    obtain ⟨hforms, hfinite⟩ := Prod.mk.inj hpair
    obtain ⟨s, rfl, hform⟩ := List.map_eq_singleton_iff.mp hforms
    refine ⟨s, ?_, hform, by simpa using hfinite⟩
    cases hresult : parseSource source <;> rw [hresult] at hprogram <;> cases hprogram
    rfl
  obtain ⟨s, hparse, hform, hfinite⟩ := @hread "x = -2.5 * f(\"(- x)\")" (by decide +kernel)
  obtain ⟨s', hparse', hform', hfinite'⟩ :=
    @hread "# twice\nx=(-2.50)*f (\"(- x)\")" (by decide +kernel)
  obtain ⟨hinj, hline, hlisting⟩ := printed_form_unambiguous hparse hparse'
  refine ⟨s, s', hparse, hparse', hform, hform', ?_, hline s List.mem_cons_self,
    fun host fuel => ?_⟩
  · exact hinj s List.mem_cons_self s' List.mem_cons_self hfinite hfinite' (hform.trans hform'.symm)
  · obtain ⟨listing, hreport, hlines⟩ := hlisting host fuel
    exact ⟨listing, hreport, by rw [hlines, List.map_singleton, hform]; rfl⟩

end Abacus
