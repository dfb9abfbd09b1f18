import Abacus.Proofs.Parse.Grammar
import Abacus.Proofs.Value.Alike

/-!
# Abacus.Proofs.Parse.Placed

Where the nodes of a tree stand.  A token `Marks` a site if it is spelled as what the
site is: a name by that name, an operation by its operator, a loop by its keyword.  A
tree is `Placed` if every place that a run may report of it is that of a token which
marks the site, in the bodies of functions too.  A derivation places its tree at the
tokens of its yield (`Derives.placed`, `Forms.placed`).
-/

namespace Abacus

open Grammar

/-! ## Marks -/

/-- What a token is the mark of. -/
inductive Token.Marks (t : Token) : Site → Prop
  | name (h : t.kind = .identifier) : Marks t (.name t.lexeme)
  | operation {level : Level} {op : BinaryOp} (h : Connects level t.kind op) :
      Marks t (.operation op)
  | sign {op : UnaryOp} (h : Precedes t.kind op) : Marks t (.sign op)
  | fold {kind : Aggregate} (h : Denotes t.kind kind) : Marks t (.fold kind)
  | keyword {word : Keyword} (h : t.kind = .keyword word) : Marks t (.keyword word)

/-- One of the tokens at the place marks the site. -/
def MarkedIn (tokens : List Token) (site : Site) (p : Position) : Prop :=
  ∃ t ∈ tokens, t.pos = p ∧ t.Marks site

theorem Token.Marks.markedIn {tokens : List Token} {t : Token} {site : Site} (h : t.Marks site)
    (ht : t ∈ tokens) : MarkedIn tokens site t.pos := ⟨t, ht, rfl, h⟩

/-! ## Placed trees -/

/-- At every place of an expression stands what is there. -/
inductive Expr.Placed (stands : Site → Position → Prop) : Expr → Prop
  | number (n : Float) : Placed stands (.number n)
  | string (s : String) : Placed stands (.string s)
  | boolean (b : Bool) : Placed stands (.boolean b)
  | variable {name : String} {p : Position} (hp : stands (.name name) p) :
      Placed stands (.variable name p)
  | binary {op : BinaryOp} {l r : Expr} {p : Position} (hl : Placed stands l)
      (hr : Placed stands r) (hp : stands (.operation op) p) : Placed stands (.binary op l r p)
  | unary {op : UnaryOp} {e : Expr} {p : Position} (h : Placed stands e)
      (hp : stands (.sign op) p) : Placed stands (.unary op e p)
  | call {name : String} {args : List Expr} {p : Position} (h : ∀ a ∈ args, Placed stands a)
      (hp : stands (.name name) p) : Placed stands (.call name args p)
  | aggregate {kind : Aggregate} {var : String} {a z b : Expr} {p : Position}
      (ha : Placed stands a) (hz : Placed stands z) (hb : Placed stands b)
      (hp : stands (.fold kind) p) : Placed stands (.aggregate kind var a z b p)

/-- At every place of a statement that a run may report stands what is there.  An
assignment and a definition of a function are reported nowhere. -/
inductive Stmt.Placed (stands : Site → Position → Prop) : Stmt → Prop
  | expression {e : Expr} (h : e.Placed stands) : Placed stands (.expression e)
  | assign {name : String} {e : Expr} {p : Position} (h : e.Placed stands) :
      Placed stands (.assign name e p)
  | ifThen {c : Expr} {b : List Stmt} {p : Position} (hc : c.Placed stands)
      (hb : ∀ s ∈ b, Placed stands s) (hp : stands (.keyword .ifKw) p) :
      Placed stands (.ifThen c b p)
  | ifElse {c : Expr} {b o : List Stmt} {p : Position} (hc : c.Placed stands)
      (hb : ∀ s ∈ b, Placed stands s) (ho : ∀ s ∈ o, Placed stands s)
      (hp : stands (.keyword .ifKw) p) : Placed stands (.ifElse c b o p)
  | whileLoop {c : Expr} {b : List Stmt} {p : Position} (hc : c.Placed stands)
      (hb : ∀ s ∈ b, Placed stands s) (hp : stands (.keyword .whileKw) p) :
      Placed stands (.whileLoop c b p)
  | forLoop {var : String} {e : Expr} {b : List Stmt} {p : Position} (h : e.Placed stands)
      (hb : ∀ s ∈ b, Placed stands s) (hp : stands (.keyword .forKw) p) :
      Placed stands (.forLoop var e b p)
  | function {name : String} {params : List String} {b : List Stmt} {p : Position}
      (hb : ∀ s ∈ b, Placed stands s) : Placed stands (.function name params b p)
  | giveBack {e : Option Expr} {p : Position} (h : ∀ a ∈ e, a.Placed stands)
      (hp : stands (.keyword .returnKw) p) : Placed stands (.giveBack e p)

section mono

variable {stands stands' : Site → Position → Prop} (h : ∀ site p, stands site p → stands' site p)

include h

/-- An expression in places of one sort is in places of a wider sort. -/
theorem Expr.Placed.mono {e : Expr} (he : e.Placed stands) : e.Placed stands' := by
  induction he with
  | number n => exact .number n
  | string s => exact .string s
  | boolean b => exact .boolean b
  | «variable» hp => exact .variable (h _ _ hp)
  | binary _ _ hp ihl ihr => exact .binary ihl ihr (h _ _ hp)
  | unary _ hp ih => exact .unary ih (h _ _ hp)
  | call _ hp ih => exact .call ih (h _ _ hp)
  | aggregate _ _ _ hp iha ihz ihb => exact .aggregate iha ihz ihb (h _ _ hp)

/-- A statement in places of one sort is in places of a wider sort. -/
theorem Stmt.Placed.mono {s : Stmt} (hs : s.Placed stands) : s.Placed stands' := by
  induction hs with
  | expression he => exact .expression (he.mono h)
  | assign he => exact .assign (he.mono h)
  | ifThen hc _ hp ih => exact .ifThen (hc.mono h) ih (h _ _ hp)
  | ifElse hc _ _ hp ihb iho => exact .ifElse (hc.mono h) ihb iho (h _ _ hp)
  | whileLoop hc _ hp ih => exact .whileLoop (hc.mono h) ih (h _ _ hp)
  | forLoop he _ hp ih => exact .forLoop (he.mono h) ih (h _ _ hp)
  | function _ ih => exact .function ih
  | giveBack he hp => exact .giveBack (fun a ha => (he a ha).mono h) (h _ _ hp)

end mono

namespace Grammar

/-! ## Expressions -/

/-- The tree of a phrase is placed.  What is folded onto an operand is placed if the
operand is. -/
def Phrase.Placed (stands : Site → Position → Prop) : Phrase → Prop
  | chain _ e | unary e | primary e => e.Placed stands
  | folds _ _ left e => left.Placed stands → e.Placed stands
  | arguments es => ∀ e ∈ es, e.Placed stands

/-- The tree of a phrase is placed at the tokens that it was derived from. -/
theorem Derives.placed {tokens : List Token} {phrase : Phrase} {ts : List Token}
    (h : Derives phrase ts) (hts : ts ⊆ tokens) : phrase.Placed (MarkedIn tokens) := by
  induction h with
  | operand _ ih => exact ih hts
  | level _ _ ihleft ihfolds =>
      obtain ⟨hleft, hfolds⟩ := List.append_subset.mp hts
      exact ihfolds hfolds (ihleft hleft)
  | done => exact id
  | fold hop _ _ ihright ihfolds =>
      intro hleft
      obtain ⟨ht, hts⟩ := List.cons_subset.mp hts
      obtain ⟨hright, hfolds⟩ := List.append_subset.mp hts
      have hmarked := (Token.Marks.operation hop).markedIn ht
      exact ihfolds hfolds (.binary hleft (ihright hright) hmarked)
  | operator hop _ ih =>
      obtain ⟨ht, hts⟩ := List.cons_subset.mp hts
      exact .unary (ih hts) ((Token.Marks.sign hop).markedIn ht)
  | plain _ ih => exact ih hts
  | number _ _ => exact .number _
  | string _ => exact .string _
  | true _ => exact .boolean _
  | false _ => exact .boolean _
  | name ht => exact .variable ((Token.Marks.name ht).markedIn (hts List.mem_cons_self))
  | emptyCall ht _ _ =>
      exact .call (by simp) ((Token.Marks.name ht).markedIn (hts List.mem_cons_self))
  | call ht _ _ _ _ ih =>
      obtain ⟨hname, hts⟩ := List.cons_subset.mp hts
      obtain ⟨hargs, _⟩ := List.append_subset.mp (List.cons_subset.mp hts).2
      exact .call (ih hargs) ((Token.Marks.name ht).markedIn hname)
  | group _ _ _ ih => exact ih (List.append_subset.mp (List.cons_subset.mp hts).2).1
  | aggregate hsymbol _ _ _ _ _ _ _ _ _ ihstart ihstop ihbody =>
      simp only [List.cons_subset, List.append_subset] at hts
      obtain ⟨ht, _, _, _, hstart, _, hstop, _, hbody, _⟩ := hts
      exact .aggregate (ihstart hstart) (ihstop hstop) (ihbody hbody)
        ((Token.Marks.fold hsymbol).markedIn ht)
  | lastArgument _ ih => exact List.forall_mem_singleton.mpr (ih hts)
  | argument _ _ _ ih ihrest =>
      obtain ⟨hfirst, hrest⟩ := List.append_subset.mp hts
      exact List.forall_mem_cons.mpr ⟨ih hfirst, ihrest (List.cons_subset.mp hrest).2⟩

/-- An expression is in the places of the tokens that it derives. -/
theorem Derives.placed_expression {tokens ts : List Token} {e : Expr}
    (h : Derives (.expression e) ts) (hts : ts ⊆ tokens) : e.Placed (MarkedIn tokens) :=
  h.placed hts

/-! ## Statements -/

/-- The statements of a sentence are placed. -/
def Sentence.Placed (stands : Site → Position → Prop) : Sentence → Prop
  | statement s | conditional s | bare s => s.Placed stands
  | block body | sequence body => ∀ s ∈ body, s.Placed stands

/-- The statements of a sentence are placed at the tokens that it was derived from. -/
theorem Forms.placed {tokens : List Token} {sentence : Sentence} {ts : List Token}
    (h : Forms sentence ts) (hts : ts ⊆ tokens) : sentence.Placed (MarkedIn tokens) := by
  have marked : ∀ {t word}, t.kind = .keyword word → t ∈ tokens →
      MarkedIn tokens (.keyword word) t.pos :=
    fun hword ht => (Token.Marks.keyword hword).markedIn ht
  induction h with
  | unended _ ih => exact ih hts
  | ended _ _ ih => exact ih (List.append_subset.mp hts).1
  | thunk _ _ _ _ _ ih =>
      simp only [List.cons_subset] at hts
      exact .function (ih hts.2.2.2.2)
  | function _ _ _ _ _ _ _ ih =>
      simp only [List.cons_subset, List.append_subset] at hts
      exact .function (ih hts.2.2.2.2.2)
  | choice _ ih => exact ih hts
  | whileLoop hw hcondition _ ih =>
      simp only [List.cons_subset, List.append_subset] at hts
      obtain ⟨ht, hcs, hbs⟩ := hts
      exact .whileLoop (hcondition.placed_expression hcs) (ih hbs) (marked hw ht)
  | forLoop hf _ _ hitems _ ih =>
      simp only [List.cons_subset, List.append_subset] at hts
      obtain ⟨ht, _, _, his, hbs⟩ := hts
      exact .forLoop (hitems.placed_expression his) (ih hbs) (marked hf ht)
  | giveNothing hr => exact .giveBack (by simp) (marked hr (hts List.mem_cons_self))
  | giveBack hr h =>
      obtain ⟨ht, hts⟩ := List.cons_subset.mp hts
      exact .giveBack (by simpa using h.placed_expression hts) (marked hr ht)
  | assign _ _ h =>
      simp only [List.cons_subset] at hts
      exact .assign (h.placed_expression hts.2.2)
  | expression h => exact .expression (h.placed_expression hts)
  | ifThen hi hcondition _ ih =>
      simp only [List.cons_subset, List.append_subset] at hts
      obtain ⟨ht, hcs, hbs⟩ := hts
      exact .ifThen (hcondition.placed_expression hcs) (ih hbs) (marked hi ht)
  | ifElse hi hcondition _ _ _ ihbody ihother =>
      simp only [List.cons_subset, List.append_subset] at hts
      obtain ⟨ht, hcs, hbs, _, hos⟩ := hts
      exact .ifElse (hcondition.placed_expression hcs) (ihbody hbs) (ihother hos) (marked hi ht)
  | elseIf hi hcondition _ _ _ ihbody ihother =>
      simp only [List.cons_subset, List.append_subset] at hts
      obtain ⟨ht, hcs, hbs, _, hos⟩ := hts
      exact .ifElse (hcondition.placed_expression hcs) (ihbody hbs)
        (List.forall_mem_singleton.mpr (ihother hos)) (marked hi ht)
  | block _ _ _ ih => exact ih (List.append_subset.mp (List.cons_subset.mp hts).2).1
  | nothing => simp [Sentence.Placed]
  | separator _ _ ih => exact ih (List.cons_subset.mp hts).2
  | next _ _ ih ihrest =>
      obtain ⟨hfirst, hrest⟩ := List.append_subset.mp hts
      exact List.forall_mem_cons.mpr ⟨ih hfirst, ihrest hrest⟩

end Grammar

end Abacus
