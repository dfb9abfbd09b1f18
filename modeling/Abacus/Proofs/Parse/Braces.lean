import Abacus.Proofs.Parse.Grammar
import Abacus.Proofs.Token.Balance
import Mathlib.Algebra.BigOperators.Group.List.Basic

/-!
# Abacus.Proofs.Parse.Braces

The balance of braces of tokens.  There are no braces in expressions, and statements
close the braces that they open, so what a derivation yields is balanced.
-/

namespace Abacus

/-- A token of a kind that is no brace. -/
theorem Token.weight_eq_zero {t : Token} {kind : Kind} (h : t.kind = kind)
    (hleft : kind ≠ .leftBrace) (hright : kind ≠ .rightBrace) : t.weight = 0 := by
  unfold Token.weight Kind.weight
  split
  · next ht => exact absurd (h.symm.trans ht) hleft
  · next ht => exact absurd (h.symm.trans ht) hright
  · rfl

/-- Tokens of one kind that is no brace are balanced. -/
theorem balance_eq_zero {ts : List Token} {kind : Kind} (h : ∀ t ∈ ts, t.kind = kind)
    (hleft : kind ≠ .leftBrace) (hright : kind ≠ .rightBrace) : balance ts = 0 := by
  refine List.sum_eq_zero fun w hw => ?_
  obtain ⟨t, ht, rfl⟩ := List.mem_map.mp hw
  exact Token.weight_eq_zero (h t ht) hleft hright

namespace Grammar

/-- An operator is no brace. -/
theorem Connects.weight_eq {level : Level} {t : Token} {op : BinaryOp}
    (h : Connects level t.kind op) : t.weight = 0 := by
  generalize hkind : t.kind = kind at h
  cases h <;> exact Token.weight_eq_zero hkind (by simp) (by simp)

/-- A sign is no brace. -/
theorem Precedes.weight_eq {t : Token} {op : UnaryOp} (h : Precedes t.kind op) : t.weight = 0 := by
  generalize hkind : t.kind = kind at h
  cases h <;> exact Token.weight_eq_zero hkind (by simp) (by simp)

/-- The symbol of an aggregate is no brace. -/
theorem Denotes.weight_eq {t : Token} {a : Aggregate} (h : Denotes t.kind a) : t.weight = 0 := by
  generalize hkind : t.kind = kind at h
  cases h <;> exact Token.weight_eq_zero hkind (by simp) (by simp)

/-- A differential has no braces. -/
theorem Differential.balance_eq {kind : Aggregate} {var : String} {ts : List Token}
    (h : Differential kind var ts) : balance ts = 0 := by
  cases h with
  | absent => rfl
  | present t _ ht _ => simp [Token.weight, Kind.weight, ht]

/-- Parameters have no braces. -/
theorem Parameters.balance_eq {names : List String} {ts : List Token} (h : Parameters names ts) :
    balance ts = 0 := by
  induction h with
  | last ht => simp [Token.weight, Kind.weight, ht]
  | next ht hc _ ih => simp [Token.weight, Kind.weight, ht, hc, ih]

/-- There are no braces in expressions. -/
theorem Derives.balance_eq {phrase : Phrase} {ts : List Token} (h : Derives phrase ts) :
    balance ts = 0 := by
  induction h with
  | operand _ ih => exact ih
  | level _ _ ih ih' => simp [ih, ih']
  | done => rfl
  | fold hop _ _ ih ih' => simp [hop.weight_eq, ih, ih']
  | operator hop _ ih => simp [hop.weight_eq, ih]
  | plain _ ih => exact ih
  | number ht => simp [Token.weight, Kind.weight, ht]
  | string ht => simp [Token.weight, Kind.weight, ht]
  | true ht => simp [Token.weight, Kind.weight, ht]
  | false ht => simp [Token.weight, Kind.weight, ht]
  | name ht => simp [Token.weight, Kind.weight, ht]
  | emptyCall ht hl hr => simp [Token.weight, Kind.weight, ht, hl, hr]
  | call ht hl _ _ hr ih => simp [Token.weight, Kind.weight, ht, hl, hr, ih]
  | group hl _ hr ih => simp [Token.weight, Kind.weight, hl, hr, ih]
  | aggregate hsymbol hl hvar heq _ hto _ hr _ hd ih ih' ih'' =>
      rw [balance_cons, hsymbol.weight_eq]
      simp [hd.balance_eq, ih, ih', ih'', Token.weight, Kind.weight, hl, hvar, heq, hto, hr]
  | lastArgument _ ih => exact ih
  | argument _ hc _ ih ih' => simp [Token.weight, Kind.weight, hc, ih, ih']

/-- Statements close the braces that they open. -/
theorem Forms.balance_eq {sentence : Sentence} {ts : List Token} (h : Forms sentence ts) :
    balance ts = 0 := by
  induction h with
  | unended _ ih => exact ih
  | ended _ ht ih => simp [Token.weight, Kind.weight, ht, ih]
  | thunk hf hname hl hr _ ih => simp [Token.weight, Kind.weight, hf, hname, hl, hr, ih]
  | function hf hname hl hparams _ hr _ ih =>
      simp [Token.weight, Kind.weight, hf, hname, hl, hr, hparams.balance_eq, ih]
  | choice _ ih => exact ih
  | whileLoop hw hcondition _ ih => simp [Token.weight, Kind.weight, hw, hcondition.balance_eq, ih]
  | forLoop hf hvar hi hitems _ ih =>
      simp [Token.weight, Kind.weight, hf, hvar, hi, hitems.balance_eq, ih]
  | giveNothing hr => simp [Token.weight, Kind.weight, hr]
  | giveBack hr h => simp [Token.weight, Kind.weight, hr, h.balance_eq]
  | assign hname heq h => simp [Token.weight, Kind.weight, hname, heq, h.balance_eq]
  | expression h => exact h.balance_eq
  | ifThen hi hcondition _ ih => simp [Token.weight, Kind.weight, hi, hcondition.balance_eq, ih]
  | ifElse hi hcondition _ he _ ih ih' =>
      simp [Token.weight, Kind.weight, hi, he, hcondition.balance_eq, ih, ih']
  | elseIf hi hcondition _ he _ ih ih' =>
      simp [Token.weight, Kind.weight, hi, he, hcondition.balance_eq, ih, ih']
  | block hl _ hr ih => simp [Token.weight, Kind.weight, hl, hr, ih]
  | nothing => rfl
  | separator ht _ ih => simp [Token.weight, Kind.weight, ht, ih]
  | next _ _ ih ih' => simp [ih, ih']

end Grammar

end Abacus
