import Abacus.Proofs.Number.Display
import Abacus.Proofs.Token.Pattern
import Abacus.Proofs.Tree.Form
import Abacus.Proofs.Tree.Relocate

/-!
# Abacus.Proofs.Tree.Readable

The prefix form determines the tree.  If the names of a tree are identifiers and its
numbers have no sign, its outline is legible (`Stmt.Spelled.legible`), so the form
determines the outline.  Nodes that differ do so in the word at the front of their group
or in the number of its items; so the outline determines the tree up to places, if its
numbers are finite (`Stmt.Spelled.form_inj`).
-/

namespace Abacus

open Outline (atom node)

/-! ## Names and numbers -/

/- The words of a form that are not operators or keywords.  Those of names, of numbers and of
truth values are made of plain characters, none of which delimits a word, and no two kinds of
words have one in common: a number begins with a digit and a name does not, and the words of
the truth values are reserved. -/

/-- The text is that of an identifier. -/
def IsName (name : String) : Prop := Scan.Matches .identifier name.toList

namespace Outline

/-- The characters of names and numbers. -/
def isPlain (c : Char) : Bool := c.isAlphanum || c == '_' || c == '.' || c == 'π'

theorem isPlain_of_isAlphanum {c : Char} (h : c.isAlphanum) : isPlain c = true := by
  simp [isPlain, h]

/-- An atom is legible if its text is not empty and has no delimiter in it. -/
theorem legible_atom {s : String} (hne : s.toList ≠ [])
    (h : (s.toList.all fun c => !delimiters.contains c) = true) : Legible (atom s) :=
  .word hne fun c hc => by simpa using List.all_eq_true.mp h c hc

/-- A text of letters, digits, underscores and points makes a legible atom. -/
theorem legible_atom_of_plain {s : String} (hne : s.toList ≠ []) (h : s.toList.all isPlain = true) :
    Legible (atom s) := by
  have hdelimiters : (delimiters.all fun d => !isPlain d) = true := by decide
  refine .word hne fun c hc hmem => ?_
  have hplain := List.all_eq_true.mp hdelimiters c hmem
  rw [List.all_eq_true.mp h c hc] at hplain
  contradiction

/-- An outline with a head word is legible if the word and its items are. -/
theorem legible_node {head : String} {items : List Outline} (hhead : Legible (atom head))
    (h : ∀ o ∈ items, Legible o) : Legible (node head items) :=
  .group (List.forall_mem_cons.mpr ⟨hhead, h⟩)

end Outline

namespace IsName

variable {name : String}

/-- A name does not begin with a digit. -/
theorem exists_cons (h : IsName name) :
    ∃ c cs, name.toList = c :: cs ∧ c.isDigit = false ∧ name.toList.all Outline.isPlain = true := by
  unfold IsName at h
  generalize name.toList = text at h ⊢
  cases h with
  | name hword hfree =>
      obtain ⟨hc, hcs⟩ := hword
      refine ⟨_, _, rfl, ?_, ?_⟩
      · rw [← Scan.isDigit_eq]
        exact Scan.isDigit_of_isWordStart (Scan.isWordStart_iff.mpr hc)
      · rw [List.all_cons, Bool.and_eq_true, List.all_eq_true]
        refine ⟨?_, fun d hd => ?_⟩
        · obtain hc | rfl := hc
          · exact Outline.isPlain_of_isAlphanum (by simp [Char.isAlphanum, hc])
          · decide
        · obtain hd | rfl := hcs d hd
          · exact Outline.isPlain_of_isAlphanum hd
          · decide
  | pi => exact ⟨_, _, rfl, by decide, by decide⟩
  | symbol h => simp [Scan.symbols] at h

/-- The words of the truth values are not names. -/
theorem ne_boolean (h : IsName name) (b : Bool) : name ≠ if b then "true" else "false" := by
  rintro rfl
  unfold IsName at h
  generalize htext : (if b then "true" else "false").toList = text at h
  cases h with
  | name hword hfree =>
      cases b
      · exact hfree .falseKw htext.symm
      · exact hfree .trueKw htext.symm
  | pi => cases b <;> contradiction
  | symbol h => simp [Scan.symbols] at h

/-- Names have no delimiter in them. -/
theorem legible (h : IsName name) : Outline.Legible (atom name) := by
  obtain ⟨c, cs, heq, _, hplain⟩ := h.exists_cons
  exact Outline.legible_atom_of_plain (heq ▸ List.cons_ne_nil c cs) hplain

end IsName

namespace Number

variable {n : Float}

/-- The text of a number has digits and points, or is the word for infinity or for no
number. -/
theorem IsUnsigned.legible (h : IsUnsigned n) : Outline.Legible (atom (display n)) := by
  obtain hinf | hnan | ⟨w, hw⟩ := display_cases h
  · rw [hinf]
    exact Outline.legible_atom_of_plain (List.cons_ne_nil _ _) (by decide)
  · rw [hnan]
    exact Outline.legible_atom_of_plain (List.cons_ne_nil _ _) (by decide)
  · obtain ⟨d, ds, heq, _⟩ := hw.exists_cons
    refine Outline.legible_atom_of_plain (heq ▸ List.cons_ne_nil d ds) ?_
    refine List.all_eq_true.mpr fun c hc => ?_
    obtain hdigit | rfl := hw.matches_number.isDecimal.digit_or_point c hc
    · exact Outline.isPlain_of_isAlphanum (by simp [Char.isAlphanum, hdigit])
    · decide

/-- The text of a finite number with a clear sign bit begins with a digit. -/
theorem IsUnsigned.exists_digit (h : IsUnsigned n) (hfinite : n.isFinite = true) :
    ∃ d ds, (display n).toList = d :: ds ∧ d.isDigit := by
  obtain ⟨m, q, hparts⟩ := h.exists_finite hfinite
  obtain ⟨w, hw, _⟩ := exists_writes_display hparts
  exact hw.exists_cons

end Number

/-! ## Spelled trees -/

/- What must be asked of a tree for its form to be readable.  `Spelled` is indexed by what is
asked of its numbers: that they have no sign is enough for the form to be legible, and that
they are finite, too, for it to determine the tree.  `Spelled.mono` goes from one to the
other by the list of the numbers in the tree. -/

mutual
/-- The numbers in an expression. -/
def Expr.numbers : Expr → List Float
  | .number n => [n]
  | .string _ => []
  | .boolean _ => []
  | .variable _ _ => []
  | .binary _ left right _ => left.numbers ++ right.numbers
  | .unary _ operand _ => operand.numbers
  | .call _ args _ => Expr.numbersAll args
  | .aggregate _ _ start stop body _ => start.numbers ++ (stop.numbers ++ body.numbers)

/-- The numbers in expressions. -/
def Expr.numbersAll : List Expr → List Float
  | [] => []
  | e :: es => e.numbers ++ Expr.numbersAll es
end

mutual
/-- The numbers in a statement. -/
def Stmt.numbers : Stmt → List Float
  | .expression e => e.numbers
  | .assign _ value _ => value.numbers
  | .ifThen condition body _ => condition.numbers ++ Stmt.numbersAll body
  | .ifElse condition body other _ =>
    condition.numbers ++ (Stmt.numbersAll body ++ Stmt.numbersAll other)
  | .whileLoop condition body _ => condition.numbers ++ Stmt.numbersAll body
  | .forLoop _ items body _ => items.numbers ++ Stmt.numbersAll body
  | .function _ _ body _ => Stmt.numbersAll body
  | .giveBack (some value) _ => value.numbers
  | .giveBack none _ => []

/-- The numbers in statements. -/
def Stmt.numbersAll : List Stmt → List Float
  | [] => []
  | s :: rest => s.numbers ++ Stmt.numbersAll rest
end

/-- The numbers of a list of expressions are those of its members. -/
theorem Expr.mem_numbersAll {es : List Expr} {n : Float} :
    n ∈ Expr.numbersAll es ↔ ∃ e ∈ es, n ∈ e.numbers := by
  induction es with
  | nil => simp [numbersAll]
  | cons e es ih => simp [numbersAll, ih]

/-- The numbers of a list of statements are those of its members. -/
theorem Stmt.mem_numbersAll {stmts : List Stmt} {n : Float} :
    n ∈ Stmt.numbersAll stmts ↔ ∃ s ∈ stmts, n ∈ s.numbers := by
  induction stmts with
  | nil => simp [numbersAll]
  | cons s rest ih => simp [numbersAll, ih]

/-- The words of a tree are written as in a source: its names are identifiers, and its
numbers satisfy `numeral`. -/
inductive Expr.Spelled (numeral : Float → Prop) : Expr → Prop
  | number {n : Float} (hn : numeral n) : Spelled numeral (.number n)
  | string (s : String) : Spelled numeral (.string s)
  | boolean (b : Bool) : Spelled numeral (.boolean b)
  | variable {name : String} {p : Position} (hname : IsName name) :
      Spelled numeral (.variable name p)
  | binary {op : BinaryOp} {l r : Expr} {p : Position} (hl : Spelled numeral l)
      (hr : Spelled numeral r) : Spelled numeral (.binary op l r p)
  | unary {op : UnaryOp} {e : Expr} {p : Position} (h : Spelled numeral e) :
      Spelled numeral (.unary op e p)
  | call {name : String} {args : List Expr} {p : Position} (hname : IsName name)
      (h : ∀ a ∈ args, Spelled numeral a) : Spelled numeral (.call name args p)
  | aggregate {kind : Aggregate} {var : String} {a z b : Expr} {p : Position} (hvar : IsName var)
      (ha : Spelled numeral a) (hz : Spelled numeral z) (hb : Spelled numeral b) :
      Spelled numeral (.aggregate kind var a z b p)

@[inherit_doc Expr.Spelled]
inductive Stmt.Spelled (numeral : Float → Prop) : Stmt → Prop
  | expression {e : Expr} (h : e.Spelled numeral) : Spelled numeral (.expression e)
  | assign {name : String} {e : Expr} {p : Position} (hname : IsName name)
      (h : e.Spelled numeral) : Spelled numeral (.assign name e p)
  | ifThen {c : Expr} {b : List Stmt} {p : Position} (hc : c.Spelled numeral)
      (hb : ∀ s ∈ b, Spelled numeral s) : Spelled numeral (.ifThen c b p)
  | ifElse {c : Expr} {b o : List Stmt} {p : Position} (hc : c.Spelled numeral)
      (hb : ∀ s ∈ b, Spelled numeral s) (ho : ∀ s ∈ o, Spelled numeral s) :
      Spelled numeral (.ifElse c b o p)
  | whileLoop {c : Expr} {b : List Stmt} {p : Position} (hc : c.Spelled numeral)
      (hb : ∀ s ∈ b, Spelled numeral s) : Spelled numeral (.whileLoop c b p)
  | forLoop {var : String} {e : Expr} {b : List Stmt} {p : Position} (hvar : IsName var)
      (h : e.Spelled numeral) (hb : ∀ s ∈ b, Spelled numeral s) :
      Spelled numeral (.forLoop var e b p)
  | function {name : String} {params : List String} {b : List Stmt} {p : Position}
      (hname : IsName name) (hparams : ∀ x ∈ params, IsName x)
      (hb : ∀ s ∈ b, Spelled numeral s) : Spelled numeral (.function name params b p)
  | giveBack {e : Option Expr} {p : Position} (h : ∀ a ∈ e, a.Spelled numeral) :
      Spelled numeral (.giveBack e p)

section mono

variable {numeral numeral' : Float → Prop}

/-- What holds of the numbers that are in an expression. -/
theorem Expr.Spelled.mono {e : Expr} (he : e.Spelled numeral)
    (h : ∀ n ∈ e.numbers, numeral n → numeral' n) : e.Spelled numeral' := by
  induction he with
  | number hn => exact .number (h _ List.mem_cons_self hn)
  | string s => exact .string s
  | boolean b => exact .boolean b
  | «variable» hname => exact .variable hname
  | binary _ _ ihl ihr =>
      rw [numbers, List.forall_mem_append] at h
      exact .binary (ihl h.1) (ihr h.2)
  | unary _ ih => exact .unary (ih h)
  | call hname _ ih =>
      exact .call hname fun a ha => ih a ha fun n hn => h n (Expr.mem_numbersAll.mpr ⟨a, ha, hn⟩)
  | aggregate hvar _ _ _ iha ihz ihb =>
      rw [numbers, List.forall_mem_append, List.forall_mem_append] at h
      exact .aggregate hvar (iha h.1) (ihz h.2.1) (ihb h.2.2)

/-- What holds of the numbers that are in a statement. -/
theorem Stmt.Spelled.mono {s : Stmt} (hs : s.Spelled numeral)
    (h : ∀ n ∈ s.numbers, numeral n → numeral' n) : s.Spelled numeral' := by
  have hblock : ∀ b : List Stmt, (∀ n ∈ Stmt.numbersAll b, numeral n → numeral' n) →
      ∀ s ∈ b, ∀ n ∈ s.numbers, numeral n → numeral' n :=
    fun b hb s hs n hn => hb n (Stmt.mem_numbersAll.mpr ⟨s, hs, hn⟩)
  induction hs with
  | expression he => exact .expression (he.mono h)
  | assign hname he => exact .assign hname (he.mono h)
  | ifThen hc _ ih =>
      rw [numbers, List.forall_mem_append] at h
      exact .ifThen (hc.mono h.1) fun s hs => ih s hs (hblock _ h.2 s hs)
  | ifElse hc _ _ ihb iho =>
      rw [numbers, List.forall_mem_append, List.forall_mem_append] at h
      exact .ifElse (hc.mono h.1) (fun s hs => ihb s hs (hblock _ h.2.1 s hs))
        fun s hs => iho s hs (hblock _ h.2.2 s hs)
  | whileLoop hc _ ih =>
      rw [numbers, List.forall_mem_append] at h
      exact .whileLoop (hc.mono h.1) fun s hs => ih s hs (hblock _ h.2 s hs)
  | forLoop hvar he _ ih =>
      rw [numbers, List.forall_mem_append] at h
      exact .forLoop hvar (he.mono h.1) fun s hs => ih s hs (hblock _ h.2 s hs)
  | function hname hparams _ ih =>
      exact .function hname hparams fun s hs => ih s hs (hblock _ h s hs)
  | @giveBack e p he =>
      cases e with
      | none => exact .giveBack (by simp)
      | some value =>
          have hvalue : value.Spelled numeral' := (he value rfl).mono h
          exact .giveBack (by simpa using hvalue)

end mono

/-! ## Legible outlines -/

/- One case a constructor.  The word at the front of a node is an operator or a keyword, of
which there are finitely many, and its items are legible by induction; a block is a group
without a word. -/

namespace Outline

/-- The operators at the front of nodes. -/
def operators : List String :=
  ["+", "-", "*", "/", "^", "%", "==", "!=", "<", "<=", ">", ">=", "and", "or", "not", "∑", "∏",
    "∫"]

/-- The other words at the front of nodes. -/
def keywords : List String := ["call", "=", "if", "while", "for", "function", "return"]

/-- The words that head an outline are legible. -/
theorem legible_head {w : String} (hw : w ∈ operators ++ keywords) : Legible (atom w) := by
  have hall : ((operators ++ keywords).all fun w => !w.toList.isEmpty &&
      w.toList.all fun c => !delimiters.contains c) = true := by decide
  obtain ⟨hne, hword⟩ := (Bool.and_eq_true _ _).mp (List.all_eq_true.mp hall w hw)
  exact legible_atom (by simpa using hne) hword

theorem legible_operator {w : String} (hw : w ∈ operators) : Legible (atom w) :=
  legible_head (List.mem_append_left _ hw)

theorem legible_keyword {w : String} (hw : w ∈ keywords) : Legible (atom w) :=
  legible_head (List.mem_append_right _ hw)

/-- No operator is a keyword. -/
theorem operator_ne_keyword {w w' : String} (hw : w ∈ operators) (hw' : w' ∈ keywords) :
    w ≠ w' := by
  have hall : (operators.all fun w => !keywords.contains w) = true := by decide
  rintro rfl
  simpa [hw'] using List.all_eq_true.mp hall w hw

end Outline

/-- The symbol of an operator is among the words that head an outline. -/
theorem BinaryOp.symbol_mem (op : BinaryOp) : op.symbol ∈ Outline.operators := by
  cases op <;> decide

theorem UnaryOp.symbol_mem (op : UnaryOp) : op.symbol ∈ Outline.operators := by
  cases op <;> decide

theorem Aggregate.symbol_mem (kind : Aggregate) : kind.symbol ∈ Outline.operators := by
  cases kind <;> decide

/-- A spelled expression has a legible outline if its numbers have clear sign bits: by
induction on the expression, head by head. -/
theorem Expr.Spelled.legible {e : Expr} (h : e.Spelled Number.IsUnsigned) : e.outline.Legible := by
  induction h with
  | number hn => exact hn.legible
  | string s => exact .quoted _
  | boolean b => cases b <;> exact Outline.legible_atom (by decide) (by decide)
  | «variable» hname => exact hname.legible
  | @binary op _ _ _ _ _ ihl ihr =>
      exact Outline.legible_node (Outline.legible_operator op.symbol_mem) (by simp [ihl, ihr])
  | @unary op _ _ _ ih =>
      exact Outline.legible_node (Outline.legible_operator op.symbol_mem) (by simp [ih])
  | call hname _ ih =>
      refine Outline.legible_node (Outline.legible_keyword (by decide)) ?_
      rw [Expr.outlines_eq_map, List.forall_mem_cons, List.forall_mem_map]
      exact ⟨hname.legible, ih⟩
  | @aggregate kind _ _ _ _ _ hvar _ _ _ iha ihz ihb =>
      exact Outline.legible_node (Outline.legible_operator kind.symbol_mem)
        (by simp [hvar.legible, iha, ihz, ihb])

/-- A block is legible if its statements are. -/
theorem Outline.legible_block {body : List Stmt} (h : ∀ s ∈ body, s.outline.Legible) :
    Legible (.group .curly (Stmt.outlines body)) := by
  rw [Stmt.outlines_eq_map]
  exact .group (List.forall_mem_map.mpr h)

/-- A spelled statement has a legible outline if its numbers have clear sign bits. -/
theorem Stmt.Spelled.legible {s : Stmt} (h : s.Spelled Number.IsUnsigned) : s.outline.Legible := by
  induction h with
  | expression he => exact he.legible
  | assign hname he =>
      exact Outline.legible_node (Outline.legible_keyword (by decide))
        (by simp [hname.legible, he.legible])
  | ifThen hc _ ih =>
      exact Outline.legible_node (Outline.legible_keyword (by decide))
        (by simp [hc.legible, Outline.legible_block ih])
  | ifElse hc _ _ ihb iho =>
      exact Outline.legible_node (Outline.legible_keyword (by decide))
        (by simp [hc.legible, Outline.legible_block ihb, Outline.legible_block iho])
  | whileLoop hc _ ih =>
      exact Outline.legible_node (Outline.legible_keyword (by decide))
        (by simp [hc.legible, Outline.legible_block ih])
  | forLoop hvar he _ ih =>
      exact Outline.legible_node (Outline.legible_keyword (by decide))
        (by simp [hvar.legible, he.legible, Outline.legible_block ih])
  | function hname hparams _ ih =>
      have hlist : Outline.Legible (.group .round (List.map atom _)) :=
        .group (List.forall_mem_map.mpr fun x hx => (hparams x hx).legible)
      exact Outline.legible_node (Outline.legible_keyword (by decide))
        (by simp [hname.legible, hlist, Outline.legible_block ih])
  | @giveBack e p he =>
      cases e with
      | none => exact Outline.legible_node (Outline.legible_keyword (by decide)) (by simp)
      | some value =>
          exact Outline.legible_node (Outline.legible_keyword (by decide))
            (by simp [(he value rfl).legible])

/-! ## Outlines determine trees -/

/- The section is layered:

* **words** -- numbers, names, truth values and operators are told apart by their texts;
* **expressions** (`Expr.Spelled.outline_inj`) -- leaves by their words, nodes by the word at
  the front and then by induction;
* **statements** (`Stmt.Spelled.outline_inj`) -- by their keyword, which no expression has,
  and then by their parts; a conditional with an else has one item more than one without. -/

/-- A number that is shown as a decimal text. -/
def Number.IsNumeral (n : Float) : Prop := Number.IsUnsigned n ∧ n.isFinite = true

namespace Number.IsNumeral

variable {n n' : Float}

/-- Numerals that print alike are equal. -/
theorem display_inj (h : IsNumeral n) (h' : IsNumeral n') (heq : display n = display n') : n = n' :=
  Number.display_inj h.1 h.2 h'.1 h'.2 heq

/-- A decimal text is no name. -/
theorem ne_name (h : IsNumeral n) {name : String} (hname : IsName name) : display n ≠ name := by
  rintro rfl
  obtain ⟨d, ds, hd, hdigit⟩ := h.1.exists_digit h.2
  obtain ⟨c, cs, hc, hnot, _⟩ := hname.exists_cons
  obtain ⟨rfl, _⟩ := List.cons.inj (hd.symm.trans hc)
  exact Bool.noConfusion (hdigit.symm.trans hnot)

/-- A decimal text is not the word of a truth value. -/
theorem ne_boolean (h : IsNumeral n) (b : Bool) : display n ≠ if b then "true" else "false" := by
  intro heq
  obtain ⟨d, ds, hd, hdigit⟩ := h.1.exists_digit h.2
  rw [heq] at hd
  cases b
  · obtain ⟨rfl, _⟩ := List.cons.inj hd
    contradiction
  · obtain ⟨rfl, _⟩ := List.cons.inj hd
    contradiction

end Number.IsNumeral

/-- Lists whose members are told apart by what they have the same list of. -/
theorem map_eq_map_of_map_eq_map {α β γ : Type} {f : α → β} {g : α → γ} {xs ys : List α}
    (h : ∀ x ∈ xs, ∀ y ∈ ys, f x = f y → g x = g y) (heq : xs.map f = ys.map f) :
    xs.map g = ys.map g := by
  induction xs generalizing ys with
  | nil =>
      obtain rfl := List.map_eq_nil_iff.mp heq.symm
      rfl
  | cons x xs ih =>
      obtain ⟨y, ys, rfl, hxy, htail⟩ := List.map_eq_cons_iff.mp heq.symm
      rw [List.map_cons, List.map_cons, h x List.mem_cons_self y List.mem_cons_self hxy.symm,
        ih (fun x hx y hy => h x (List.mem_cons_of_mem _ hx) y (List.mem_cons_of_mem _ hy))
          htail.symm]

/-- Binary operators are told apart by their symbols. -/
theorem BinaryOp.symbol_inj {op op' : BinaryOp} (h : op.symbol = op'.symbol) : op = op' := by
  cases op <;> cases op' <;> first | rfl | exact absurd h (by decide)

theorem UnaryOp.symbol_inj {op op' : UnaryOp} (h : op.symbol = op'.symbol) : op = op' := by
  cases op <;> cases op' <;> first | rfl | exact absurd h (by decide)

theorem Aggregate.symbol_inj {kind kind' : Aggregate} (h : kind.symbol = kind'.symbol) :
    kind = kind' := by
  cases kind <;> cases kind' <;> first | rfl | exact absurd h (by decide)

/-- The outlines of expressions determine them up to places. -/
theorem Expr.Spelled.outline_inj {e e' : Expr} (h : e.Spelled Number.IsNumeral)
    (h' : e'.Spelled Number.IsNumeral) (heq : e.outline = e'.outline) :
    e.unplaced = e'.unplaced := by
  have hcall : "call" ∈ Outline.keywords := by decide
  induction h generalizing e' with
  | number hn =>
      cases h' with
      | number hn' => rw [hn.display_inj hn' (Outline.atom_inj.mp heq)]
      | boolean b => exact absurd (Outline.atom_inj.mp heq) (hn.ne_boolean b)
      | «variable» hname => exact absurd (Outline.atom_inj.mp heq) (hn.ne_name hname)
      | _ => simp [outline] at heq
  | string s =>
      cases h' with
      | string s' =>
          obtain rfl := String.toList_inj.mp (Outline.quoted.inj heq)
          rfl
      | _ => simp [outline] at heq
  | boolean b =>
      cases h' with
      | number hn' => exact absurd (Outline.atom_inj.mp heq).symm (hn'.ne_boolean b)
      | boolean b' => cases b <;> cases b' <;> first | rfl | simp [outline] at heq
      | «variable» hname => exact absurd (Outline.atom_inj.mp heq).symm (hname.ne_boolean b)
      | _ => simp [outline] at heq
  | «variable» hname =>
      cases h' with
      | number hn' => exact absurd (Outline.atom_inj.mp heq).symm (hn'.ne_name hname)
      | boolean b => exact absurd (Outline.atom_inj.mp heq) (hname.ne_boolean b)
      | «variable» hname' =>
          obtain rfl := Outline.atom_inj.mp heq
          rfl
      | _ => simp [outline] at heq
  | @binary op _ _ _ _ _ ihl ihr =>
      cases h' with
      | binary hl' hr' =>
          simp only [outline, Outline.node_inj, List.cons.injEq, and_true] at heq
          obtain ⟨hop, hl, hr⟩ := heq
          rw [unplaced_binary, unplaced_binary, BinaryOp.symbol_inj hop, ihl hl' hl, ihr hr' hr]
      | call =>
          exact absurd (Outline.node_inj.mp heq).1 (Outline.operator_ne_keyword op.symbol_mem hcall)
      | _ => simp [outline] at heq
  | @unary op _ _ _ ih =>
      cases h' with
      | unary hoperand =>
          simp only [outline, Outline.node_inj, List.cons.injEq, and_true] at heq
          rw [unplaced_unary, unplaced_unary, UnaryOp.symbol_inj heq.1, ih hoperand heq.2]
      | call =>
          exact absurd (Outline.node_inj.mp heq).1 (Outline.operator_ne_keyword op.symbol_mem hcall)
      | _ => simp [outline] at heq
  | call hname _ ih =>
      cases h' with
      | @binary op =>
          exact absurd (Outline.node_inj.mp heq).1.symm
            (Outline.operator_ne_keyword op.symbol_mem hcall)
      | @unary op =>
          exact absurd (Outline.node_inj.mp heq).1.symm
            (Outline.operator_ne_keyword op.symbol_mem hcall)
      | call hname' hargs' =>
          simp only [outline, Outline.node_inj, List.cons.injEq, Outline.atom_inj, true_and,
            outlines_eq_map] at heq
          obtain ⟨rfl, hargs⟩ := heq
          rw [unplaced_call, unplaced_call, map_eq_map_of_map_eq_map
            (fun a ha a' ha' => ih a ha (hargs' a' ha')) hargs]
      | @aggregate kind =>
          exact absurd (Outline.node_inj.mp heq).1.symm
            (Outline.operator_ne_keyword kind.symbol_mem hcall)
      | _ => simp [outline] at heq
  | @aggregate kind _ _ _ _ _ hvar _ _ _ iha ihz ihb =>
      cases h' with
      | call =>
          exact absurd (Outline.node_inj.mp heq).1
            (Outline.operator_ne_keyword kind.symbol_mem hcall)
      | aggregate hvar' ha' hz' hb' =>
          simp only [outline, Outline.node_inj, List.cons.injEq, Outline.atom_inj, and_true] at heq
          obtain ⟨hkind, rfl, ha, hz, hb⟩ := heq
          rw [unplaced_aggregate, unplaced_aggregate, Aggregate.symbol_inj hkind, iha ha' ha,
            ihz hz' hz, ihb hb' hb]
      | _ => simp [outline] at heq

/-- No expression has the outline of another statement. -/
theorem Expr.outline_ne_node {w : String} (hw : w ∈ Outline.keywords) (hcall : w ≠ "call")
    (e : Expr) (items : List Outline) : e.outline ≠ node w items := by
  cases e with
  | binary op | unary op | aggregate op =>
      intro heq
      exact Outline.operator_ne_keyword op.symbol_mem hw (Outline.node_inj.mp heq).1
  | call => exact fun heq => hcall (Outline.node_inj.mp heq).1.symm
  | _ => simp [outline]

/-- The word at the front of the outline of a statement that is no expression. -/
def Stmt.keyword : Stmt → Option String
  | .expression _ => none
  | .assign _ _ _ => some "="
  | .ifThen _ _ _ => some "if"
  | .ifElse _ _ _ _ => some "if"
  | .whileLoop _ _ _ => some "while"
  | .forLoop _ _ _ _ => some "for"
  | .function _ _ _ _ => some "function"
  | .giveBack _ _ => some "return"

namespace Stmt

/-- The outline of a statement that begins with a keyword is headed by that keyword. -/
theorem outline_of_keyword {s : Stmt} {w : String} (h : s.keyword = some w) :
    ∃ items, s.outline = node w items := by
  cases s with
  | expression e => contradiction
  | giveBack value =>
      obtain rfl := Option.some.inj h
      cases value <;> exact ⟨_, rfl⟩
  | _ =>
      obtain rfl := Option.some.inj h
      exact ⟨_, rfl⟩

/-- A statement with a keyword does not have the outline of an expression. -/
theorem outline_ne_of_keyword {s : Stmt} {w : String} (h : s.keyword = some w) (e : Expr) :
    s.outline ≠ e.outline := by
  obtain ⟨items, hs⟩ := outline_of_keyword h
  have hw : w ∈ Outline.keywords ∧ w ≠ "call" := by
    cases s <;> first | contradiction | (obtain rfl := Option.some.inj h; decide)
  rw [hs]
  exact (e.outline_ne_node hw.1 hw.2 items).symm

/-- Statements with the same outline begin with the same keyword. -/
theorem keyword_eq_of_outline_eq {s s' : Stmt} (heq : s.outline = s'.outline) :
    s.keyword = s'.keyword := by
  have hnone {s : Stmt} (h : s.keyword = none) : ∃ e, s = .expression e := by
    cases s <;> first | exact ⟨_, rfl⟩ | contradiction
  cases hs : s.keyword with
  | none =>
      obtain ⟨e, rfl⟩ := hnone hs
      cases hs' : s'.keyword with
      | none => rfl
      | some w' => exact absurd heq.symm (outline_ne_of_keyword hs' e)
  | some w =>
      obtain ⟨items, hitems⟩ := outline_of_keyword hs
      cases hs' : s'.keyword with
      | none =>
          obtain ⟨e, rfl⟩ := hnone hs'
          exact absurd heq (outline_ne_of_keyword hs e)
      | some w' =>
          obtain ⟨items', hitems'⟩ := outline_of_keyword hs'
          rw [hitems, hitems', Outline.node_inj] at heq
          rw [heq.1]

end Stmt

/-- Blocks are told apart by the outlines of their statements. -/
theorem Stmt.map_unplaced_of_outlines {body body' : List Stmt}
    (h : ∀ s ∈ body, ∀ s' : Stmt, s'.Spelled Number.IsNumeral → s.outline = s'.outline →
      s.unplaced = s'.unplaced)
    (h' : ∀ s ∈ body', s.Spelled Number.IsNumeral)
    (heq : Outline.group .curly (Stmt.outlines body) = .group .curly (Stmt.outlines body')) :
    body.map Stmt.unplaced = body'.map Stmt.unplaced := by
  have houtlines := (Outline.group.inj heq).2
  rw [outlines_eq_map, outlines_eq_map] at houtlines
  exact map_eq_map_of_map_eq_map (fun s hs s' hs' => h s hs s' (h' s' hs')) houtlines

/-- The outlines of statements determine them up to places. -/
theorem Stmt.Spelled.outline_inj {s s' : Stmt} (h : s.Spelled Number.IsNumeral)
    (h' : s'.Spelled Number.IsNumeral) (heq : s.outline = s'.outline) :
    s.unplaced = s'.unplaced := by
  induction h generalizing s' with
  | expression he =>
      cases h' with
      | expression he' => rw [unplaced_expression, unplaced_expression, he.outline_inj he' heq]
      | _ => exact absurd (keyword_eq_of_outline_eq heq) (by simp [keyword])
  | assign hname he =>
      cases h' with
      | assign hname' he' =>
          simp only [outline, Outline.node_inj, List.cons.injEq, Outline.atom_inj, and_true,
            true_and] at heq
          obtain ⟨rfl, hvalue⟩ := heq
          rw [unplaced_assign, unplaced_assign, he.outline_inj he' hvalue]
      | _ => exact absurd (keyword_eq_of_outline_eq heq) (by simp [keyword])
  | ifThen hc _ ih =>
      cases h' with
      | ifThen hc' hb' =>
          simp only [outline, Outline.node_inj, List.cons.injEq, and_true, true_and] at heq
          rw [unplaced_ifThen, unplaced_ifThen, hc.outline_inj hc' heq.1,
            map_unplaced_of_outlines (fun s hs s' => ih s hs) hb' heq.2]
      | ifElse => simp [outline] at heq
      | _ => exact absurd (keyword_eq_of_outline_eq heq) (by simp [keyword])
  | ifElse hc _ _ ihb iho =>
      cases h' with
      | ifThen => simp [outline] at heq
      | ifElse hc' hb' ho' =>
          simp only [outline, Outline.node_inj, List.cons.injEq, and_true, true_and] at heq
          rw [unplaced_ifElse, unplaced_ifElse, hc.outline_inj hc' heq.1,
            map_unplaced_of_outlines (fun s hs s' => ihb s hs) hb' heq.2.1,
            map_unplaced_of_outlines (fun s hs s' => iho s hs) ho' heq.2.2]
      | _ => exact absurd (keyword_eq_of_outline_eq heq) (by simp [keyword])
  | whileLoop hc _ ih =>
      cases h' with
      | whileLoop hc' hb' =>
          simp only [outline, Outline.node_inj, List.cons.injEq, and_true, true_and] at heq
          rw [unplaced_whileLoop, unplaced_whileLoop, hc.outline_inj hc' heq.1,
            map_unplaced_of_outlines (fun s hs s' => ih s hs) hb' heq.2]
      | _ => exact absurd (keyword_eq_of_outline_eq heq) (by simp [keyword])
  | forLoop hvar he _ ih =>
      cases h' with
      | forLoop hvar' he' hb' =>
          simp only [outline, Outline.node_inj, List.cons.injEq, Outline.atom_inj, and_true,
            true_and] at heq
          obtain ⟨rfl, hitems, hbody⟩ := heq
          rw [unplaced_forLoop, unplaced_forLoop, he.outline_inj he' hitems,
            map_unplaced_of_outlines (fun s hs s' => ih s hs) hb' hbody]
      | _ => exact absurd (keyword_eq_of_outline_eq heq) (by simp [keyword])
  | function hname hparams _ ih =>
      cases h' with
      | function hname' hparams' hb' =>
          simp only [outline, Outline.node_inj, List.cons.injEq, Outline.atom_inj, and_true,
            true_and] at heq
          obtain ⟨rfl, hnames, hbody⟩ := heq
          obtain rfl := List.map_injective_iff.mpr (fun _ _ => Outline.atom_inj.mp)
            (Outline.group.inj hnames).2
          rw [unplaced_function, unplaced_function,
            map_unplaced_of_outlines (fun s hs s' => ih s hs) hb' hbody]
      | _ => exact absurd (keyword_eq_of_outline_eq heq) (by simp [keyword])
  | @giveBack value p he =>
      cases h' with
      | @giveBack value' p' he' =>
          cases value with
          | none => cases value' <;> first | rfl | simp [outline] at heq
          | some a =>
              cases value' with
              | none => simp [outline] at heq
              | some a' =>
                  simp only [outline, Outline.node_inj, List.cons.injEq, and_true, true_and] at heq
                  rw [unplaced_giveBack, unplaced_giveBack, Option.map_some, Option.map_some,
                    (he a rfl).outline_inj (he' a' rfl) heq]
      | _ => exact absurd (keyword_eq_of_outline_eq heq) (by simp [keyword])

/-- **The form of a statement determines it up to places.** -/
theorem Stmt.Spelled.form_inj {s s' : Stmt} (h : s.Spelled Number.IsNumeral)
    (h' : s'.Spelled Number.IsNumeral) (heq : s.form = s'.form) : s.unplaced = s'.unplaced := by
  have hlegible {s : Stmt} (hs : s.Spelled Number.IsNumeral) : s.outline.Legible :=
    (hs.mono fun n _ hn => hn.1).legible
  have htext : s.outline.text ++ [] = s'.outline.text ++ [] := by
    rw [← s.toList_form, ← s'.toList_form, heq]
  have hstops : Outline.Stops [] := fun c hc => by simp at hc
  exact h.outline_inj h' ((hlegible h).text_append_inj (hlegible h') hstops hstops htext).1

/-- The form of a statement is on one line. -/
theorem Stmt.Spelled.newline_notMem_form {s : Stmt} (h : s.Spelled Number.IsUnsigned) :
    '\n' ∉ s.form.toList := by
  rw [s.toList_form]
  exact h.legible.newline_notMem

end Abacus
