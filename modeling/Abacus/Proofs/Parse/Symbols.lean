import Abacus.Proofs.Parse.Nesting
import Abacus.Proofs.Parse.Source

/-!
# Abacus.Proofs.Parse.Symbols

Symbols and aggregates.  No tree has a longer chain of aggregates than its yield has
symbols of aggregates (`Derives.runs_le`, `Forms.runAll_le`), and a scan has no more of
these symbols than the text has characters that are such (`symbolCount_le_signCount`).
So the height that the nesting limit leaves to an expression grows with the number of
symbols in the source (`height_le_of_parseSource`), and without a symbol it is a
constant (`bounded_without_symbols`).
-/

namespace Abacus

/-! ## Counting symbols -/

/-- The aggregate whose symbol a token of this kind is, if any. -/
def Kind.aggregate? : Kind → Option Aggregate
  | .operator o => Aggregate.ofOperator? o
  | _ => none

/-- Whether the token is the symbol of an aggregate. -/
def Token.isSymbol (t : Token) : Bool := t.kind.aggregate?.isSome

/-- The number of symbols of aggregates among the tokens. -/
def symbolCount (tokens : List Token) : Nat := tokens.countP Token.isSymbol

@[simp] theorem symbolCount_nil : symbolCount [] = 0 := rfl

@[simp] theorem symbolCount_append (ts us : List Token) :
    symbolCount (ts ++ us) = symbolCount ts + symbolCount us := List.countP_append

@[simp] theorem symbolCount_cons (t : Token) (ts : List Token) :
    symbolCount (t :: ts) = symbolCount ts + if t.isSymbol then 1 else 0 := List.countP_cons

/-- The characters that are the symbol of an aggregate. -/
def isSign : Char → Bool
  | '∑' | '∏' | '∫' => true
  | _ => false

/-- The number of characters of a source that are the symbol of an aggregate, also
those in strings and comments. -/
def signCount (source : String) : Nat := source.toList.countP isSign

/-! ## Symbols are signs -/

namespace Scan

variable {before rest : List Char} {items : List Item} {slices : List Slice}

/-- Whether an element of a scan is the symbol of an aggregate. -/
def Item.isSymbol : Item → Bool
  | .ok t => t.isSymbol
  | .error _ => false

theorem aggregate?_wordKind (text : String) : (wordKind text).aggregate? = none := by
  unfold wordKind
  split <;> rfl

theorem aggregate?_withEquals {c : Char} {o : Operator} (h : withEquals? c = some o) :
    (Kind.operator o).aggregate? = none := by
  unfold withEquals? at h
  split at h <;> cases h <;> rfl

/-- Only the sign of an aggregate is read as its symbol. -/
theorem isSign_of_single {c : Char} {kind : Kind} (h : single? c = some kind)
    (hkind : kind.aggregate?.isSome) : isSign c := by
  unfold single? at h
  split at h <;> cases h <;> first | rfl | contradiction

/-- The text of a symbol has a sign. -/
theorem Spells.signs_pos {kind : Kind} {text : List Char} (h : Spells kind text)
    (hkind : kind.aggregate?.isSome) : 0 < text.countP isSign := by
  cases h with
  | string | whole | fraction | point => contradiction
  | word => rw [aggregate?_wordKind] at hkind; contradiction
  | pair h => rw [aggregate?_withEquals h] at hkind; contradiction
  | single h => simp [isSign_of_single h hkind]

/-- A piece that is read as a symbol has a sign. -/
theorem isSymbol_le_signs {c : Char} {cs : List Char} {p : Position} {item : Item}
    (h : (front c cs).item? p = some item) :
    (if item.isSymbol then 1 else 0) ≤ (front c cs).text.countP isSign := by
  split
  · next hsymbol =>
      cases item with
      | error e => contradiction
      | ok t => exact (spells_of_front (item?_eq_ok h).1).signs_pos hsymbol
  · exact Nat.zero_le _

/-- A scan has no more symbols than the text has signs. -/
theorem Scanned.symbols_le (h : Scanned before rest items slices) :
    items.countP Item.isSymbol ≤ rest.countP isSign := by
  induction h with
  | finish before => exact Nat.le_refl 0
  | @blank before cs c items slices _ _ ih =>
      rw [← front_text_append_rest c cs, List.countP_append]
      omega
  | @item before cs c item items slices hitem _ ih =>
      have hfront := isSymbol_le_signs hitem
      rw [← front_text_append_rest c cs, List.countP_append, List.countP_cons]
      omega

end Scan

/-- The tokens of a source have no more symbols than the source has signs. -/
theorem symbolCount_le_signCount {source : String} {tokens : List Token}
    (h : tokenize source = .ok tokens) : symbolCount tokens ≤ signCount source := by
  obtain ⟨slices, hscanned⟩ := Scan.exists_scanned source
  refine Nat.le_trans ?_ hscanned.symbols_le
  rw [tokenize_eq_ok_iff] at h
  calc symbolCount tokens
      = (tokens.map .ok : List Scan.Item).countP Scan.Item.isSymbol := by
        rw [List.countP_map]
        rfl
    _ = ((scan source).filter fun item => !Scan.Item.isNewline item).countP
          Scan.Item.isSymbol := by rw [h]
    _ ≤ (scan source).countP Scan.Item.isSymbol := List.filter_sublist.countP_le

namespace Grammar

/-! ## Chains of aggregates -/

theorem Denotes.isSymbol {t : Token} {kind : Aggregate} (h : Denotes t.kind kind) :
    t.isSymbol = true := by
  generalize hk : t.kind = k at h
  cases h <;> rw [Token.isSymbol, hk] <;> rfl

/-- The chains of aggregates in a phrase are at most `n` long, those of the first
operand of folds apart. -/
def Phrase.RunsLe (n : Nat) : Phrase → Prop
  | .chain _ e | .unary e | .primary e => e.run ≤ n
  | .folds _ _ left e => e.run ≤ max left.run n
  | .arguments es => Expr.runAll es ≤ n

/-- No chain of aggregates is longer than there are symbols in the yield. -/
theorem Derives.runs_le {phrase : Phrase} {ts : List Token} (h : Derives phrase ts) :
    phrase.RunsLe (symbolCount ts) := by
  induction h with
  | operand _ ih | plain _ ih => exact ih
  | level _ _ ihleft ihfolds =>
      simp only [Phrase.RunsLe, symbolCount_append] at *
      omega
  | done => exact Nat.le_max_left _ _
  | fold _ _ _ ihright ihfolds =>
      simp only [Phrase.RunsLe, Expr.run, symbolCount_cons, symbolCount_append] at *
      omega
  | operator _ _ ih =>
      simp only [Phrase.RunsLe, Expr.run, symbolCount_cons] at *
      omega
  | number | string | true | false | name | emptyCall => exact Nat.zero_le _
  | call _ _ _ _ _ ih =>
      simp only [Phrase.RunsLe, Expr.run, symbolCount_cons, symbolCount_append] at *
      omega
  | group _ _ _ ih =>
      simp only [Phrase.RunsLe, symbolCount_cons, symbolCount_append] at *
      omega
  | @aggregate symbol l var eq word r kind start stop body ss us bs ds hsymbol _ _ _ _ _ _ _ _ _
      ihstart ihstop ihbody =>
      have hspine := body.spine_le_run
      simp only [Phrase.RunsLe, Expr.run, symbolCount_cons, symbolCount_append, hsymbol.isSymbol,
        if_true] at *
      omega
  | lastArgument _ ih => simpa only [Phrase.RunsLe, Expr.runAll, Nat.max_zero] using ih
  | argument _ _ _ ih ihrest =>
      simp only [Phrase.RunsLe, Expr.runAll, symbolCount_cons, symbolCount_append] at *
      omega

/-- The expressions of a sentence. -/
def Sentence.expressions : Sentence → List Expr
  | .statement s | .conditional s | .bare s => s.expressions
  | .block body | .sequence body => Stmt.expressionsAll body

/-- No chain of aggregates in a sentence is longer than there are symbols in its
yield. -/
theorem Forms.runAll_le {sentence : Sentence} {ts : List Token} (h : Forms sentence ts) :
    Expr.runAll sentence.expressions ≤ symbolCount ts := by
  induction h with
  | unended _ ih | choice _ ih => exact ih
  | ended _ _ ih | block _ _ _ ih | separator _ _ ih =>
      simp only [Sentence.expressions, symbolCount_cons, symbolCount_append] at *
      omega
  | thunk _ _ _ _ _ ih | function _ _ _ _ _ _ _ ih =>
      simp only [Sentence.expressions, Stmt.expressions, symbolCount_cons, symbolCount_append] at *
      omega
  | giveNothing | nothing => exact Nat.zero_le _
  | giveBack _ h | assign _ _ h | expression h =>
      have he := h.runs_le
      simp only [Sentence.expressions, Stmt.expressions, Expr.runAll, Phrase.RunsLe,
        symbolCount_cons] at *
      omega
  | whileLoop _ h _ ih | forLoop _ _ _ h _ ih | ifThen _ h _ ih =>
      have he := h.runs_le
      simp only [Sentence.expressions, Stmt.expressions, Expr.runAll, Phrase.RunsLe,
        symbolCount_cons, symbolCount_append] at *
      omega
  | ifElse _ h _ _ _ ih ih' | elseIf _ h _ _ _ ih ih' =>
      have he := h.runs_le
      simp only [Sentence.expressions, Stmt.expressions, Stmt.expressionsAll, Expr.runAll,
        Expr.runAll_append, Phrase.RunsLe, symbolCount_cons, symbolCount_append] at *
      omega
  | next _ _ ih ihrest =>
      simp only [Sentence.expressions, Stmt.expressionsAll, Expr.runAll_append,
        symbolCount_append] at *
      omega

end Grammar

open Grammar

/-! ## Heights -/

/-- The chains of aggregates of an accepted program are at most as long as the
source has symbols. -/
theorem runAll_le_symbolCount {source : String} {tokens : List Token} {program : List Stmt}
    (htokens : tokenize source = .ok tokens) (h : parseSource source = .ok program) :
    Stmt.runAll program ≤ symbolCount tokens := by
  obtain ⟨body, eoi, hof, hforms⟩ := forms_of_parseSource h
  obtain rfl : tokens = body ++ [eoi] := Except.ok.inj (htokens.symm.trans hof.tokenize_eq)
  rw [symbolCount_append]
  exact Nat.le_trans hforms.runAll_le (Nat.le_add_right _ _)

/-- Every symbol in a source adds at most 256 to the height that an expression of it
can have. -/
theorem height_le_of_parseSource {source : String} {tokens : List Token} {program : List Stmt}
    (htokens : tokenize source = .ok tokens) (h : parseSource source = .ok program) :
    ∀ e ∈ Stmt.expressionsAll program, e.height ≤ 196096 + 256 * symbolCount tokens := by
  intro e he
  have hrun : e.run ≤ symbolCount tokens :=
    Nat.le_trans (Expr.run_le_runAll he) (runAll_le_symbolCount htokens h)
  have hlow : e.height < Parse.ceiling e.run nestingLimit := (allFit_of_parseSource h).low e he
  rw [Parse.ceiling_nestingLimit] at hlow
  omega

/-- Without a symbol among its characters, or at least among its tokens, where those in
strings and comments do not count, a source has trees of bounded height. -/
theorem bounded_without_symbols {source : String} {program : List Stmt}
    (hsource : signCount source = 0 ∨
      ∃ tokens, tokenize source = .ok tokens ∧ symbolCount tokens = 0)
    (h : parseSource source = .ok program) :
    Stmt.depthAll program ≤ 257 ∧ ∀ e ∈ Stmt.expressionsAll program, e.height ≤ 196096 := by
  obtain ⟨tokens, htokens, _⟩ := parseSource_eq_ok h
  have hfree : symbolCount tokens = 0 := by
    obtain hsigns | ⟨tokens', htokens', hfree⟩ := hsource
    · exact Nat.le_zero.mp (hsigns ▸ symbolCount_le_signCount htokens)
    · rwa [Except.ok.inj (htokens.symm.trans htokens')]
  refine ⟨(allFit_of_parseSource h).depth_le, fun e he => ?_⟩
  simpa only [hfree, Nat.mul_zero, Nat.add_zero] using height_le_of_parseSource htokens h e he

end Abacus
