import Abacus.Proofs.Parse.Grammar
import Abacus.Proofs.Tree.Relocate

/-!
# Abacus.Proofs.Parse.Rendering

Trees written out as tokens.  An expression stands at a place, the least rank
that the grammar allows there, and is put in parentheses if its own rank is
lower; parentheses may also stand wherever they are not needed.  A semicolon
follows every statement.

`Renders` and `Writes` do not fix the places of the tokens, the texts of symbols
and keywords, the number of redundant parentheses, the differentials and the
choice between `else if` and a block, so a tree has many renderings.  Every tree
whose lists are short enough and whose numbers can be written has one
(`exists_writes`), and every rendering of an expression is the yield of a
derivation of the same expression up to places (`derives_of_renders`).
-/

namespace Abacus

/-! ## Ranks -/

/-- How tightly the operators of a level bind. -/
def Level.rank : Level → Nat
  | disjunction => 0
  | conjunction => 1
  | comparison => 2
  | additive => 3
  | multiplicative => 4
  | power => 5

/-- The rank of unary expressions, and of all that is tighter. -/
def unaryRank : Nat := 6

/-! ## Trees that can be written -/

mutual
/-- Numbers have a text, and calls have at most `listLimit` arguments. -/
def Expr.Renderable : Expr → Prop
  | .number n => ∃ lexeme, Number.read? lexeme = some n
  | .string _ | .boolean _ | .variable _ _ => True
  | .binary _ left right _ => left.Renderable ∧ right.Renderable
  | .unary _ operand _ => operand.Renderable
  | .call _ args _ => args.length ≤ listLimit ∧ Expr.AllRenderable args
  | .aggregate _ _ start stop body _ => start.Renderable ∧ stop.Renderable ∧ body.Renderable

/-- Every one of the expressions can be written. -/
def Expr.AllRenderable : List Expr → Prop
  | [] => True
  | e :: es => e.Renderable ∧ Expr.AllRenderable es
end

mutual
/-- The expressions can be written, and functions have at most `listLimit`
parameters. -/
def Stmt.Renderable : Stmt → Prop
  | .expression e => e.Renderable
  | .assign _ value _ => value.Renderable
  | .ifThen condition body _ => condition.Renderable ∧ Stmt.AllRenderable body
  | .ifElse condition body other _ =>
    condition.Renderable ∧ Stmt.AllRenderable body ∧ Stmt.AllRenderable other
  | .whileLoop condition body _ => condition.Renderable ∧ Stmt.AllRenderable body
  | .forLoop _ items body _ => items.Renderable ∧ Stmt.AllRenderable body
  | .function _ params body _ => params.length ≤ listLimit ∧ Stmt.AllRenderable body
  | .giveBack (some value) _ => value.Renderable
  | .giveBack none _ => True

/-- Every one of the statements can be written. -/
def Stmt.AllRenderable : List Stmt → Prop
  | [] => True
  | s :: rest => s.Renderable ∧ Stmt.AllRenderable rest
end

namespace Grammar

/-! ## Renderings of expressions -/

/-- What is rendered: an expression where the grammar wants a rank of at least
`place`, or the arguments of a call, one at least. -/
inductive Rendered where
  | expression (place : Nat) (e : Expr)
  | arguments (es : List Expr)

/-- The tokens that an expression may be written as. -/
inductive Renders : Rendered → List Token → Prop where
  | group {place : Nat} {e : Expr} {l r : Token} {ts : List Token} (hl : l.kind = .leftParen)
      (h : Renders (.expression 0 e) ts) (hr : r.kind = .rightParen) :
      Renders (.expression place e) (l :: (ts ++ [r]))
  | binary {place : Nat} {op : BinaryOp} {left right : Expr} {pos : Position} {t : Token}
      {ls rs : List Token} (hplace : place ≤ (Level.ofOp op).rank)
      (hleft : Renders (.expression (Level.ofOp op).rank left) ls)
      (ht : Connects (Level.ofOp op) t.kind op)
      (hright : Renders (.expression ((Level.ofOp op).rank + 1) right) rs) :
      Renders (.expression place (.binary op left right pos)) (ls ++ t :: rs)
  | unary {place : Nat} {op : UnaryOp} {e : Expr} {pos : Position} {t : Token} {ts : List Token}
      (ht : Precedes t.kind op) (h : Renders (.expression unaryRank e) ts) :
      Renders (.expression place (.unary op e pos)) (t :: ts)
  | number {place : Nat} {n : Float} {t : Token} (ht : t.kind = .number)
      (hn : Number.read? t.lexeme = some n) : Renders (.expression place (.number n)) [t]
  | string {place : Nat} {s : String} {t : Token} (ht : t.kind = .string s) :
      Renders (.expression place (.string s)) [t]
  | true {place : Nat} {t : Token} (ht : t.kind = .keyword .trueKw) :
      Renders (.expression place (.boolean .true)) [t]
  | false {place : Nat} {t : Token} (ht : t.kind = .keyword .falseKw) :
      Renders (.expression place (.boolean .false)) [t]
  | name {place : Nat} {pos : Position} {t : Token} (ht : t.kind = .identifier) :
      Renders (.expression place (.variable t.lexeme pos)) [t]
  | emptyCall {place : Nat} {pos : Position} {t l r : Token} (ht : t.kind = .identifier)
      (hl : l.kind = .leftParen) (hr : r.kind = .rightParen) :
      Renders (.expression place (.call t.lexeme [] pos)) [t, l, r]
  | call {place : Nat} {args : List Expr} {pos : Position} {t l r : Token} {ts : List Token}
      (ht : t.kind = .identifier) (hl : l.kind = .leftParen) (hargs : Renders (.arguments args) ts)
      (hcount : args.length ≤ listLimit) (hr : r.kind = .rightParen) :
      Renders (.expression place (.call t.lexeme args pos)) (t :: l :: (ts ++ [r]))
  | aggregate {place : Nat} {kind : Aggregate} {start stop body : Expr} {pos : Position}
      {symbol l var eq word r : Token} {ss us bs ds : List Token}
      (hsymbol : Denotes symbol.kind kind) (hl : l.kind = .leftParen)
      (hvar : var.kind = .identifier) (heq : eq.kind = .operator .assign)
      (hstart : Renders (.expression 0 start) ss)
      (hto : word.kind = .keyword .toKw) (hstop : Renders (.expression 0 stop) us)
      (hr : r.kind = .rightParen) (hbody : Renders (.expression unaryRank body) bs)
      (hd : Differential kind var.lexeme ds) :
      Renders (.expression place (.aggregate kind var.lexeme start stop body pos))
        (symbol :: l :: var :: eq :: (ss ++ word :: (us ++ r :: (bs ++ ds))))
  | lastArgument {e : Expr} {ts : List Token} (h : Renders (.expression 0 e) ts) :
      Renders (.arguments [e]) ts
  | argument {e : Expr} {es : List Expr} {c : Token} {ts us : List Token}
      (h : Renders (.expression 0 e) ts) (hc : c.kind = .comma) (hes : Renders (.arguments es) us) :
      Renders (.arguments (e :: es)) (ts ++ c :: us)

/-! ## Renderings of statements -/

/-- The tokens that statements may be written as, with one semicolon after each. -/
inductive Writes : Sentence → List Token → Prop where
  | ended {s : Stmt} {ts : List Token} {t : Token} (h : Writes (.bare s) ts)
      (ht : t.kind = .semicolon) : Writes (.statement s) (ts ++ [t])
  | thunk {f name l r : Token} {body : List Stmt} {pos : Position} {bs : List Token}
      (hf : f.kind = .keyword .functionKw) (hname : name.kind = .identifier)
      (hl : l.kind = .leftParen) (hr : r.kind = .rightParen) (hbody : Writes (.block body) bs) :
      Writes (.bare (.function name.lexeme [] body pos)) (f :: name :: l :: r :: bs)
  | function {f name l r : Token} {params : List String} {body : List Stmt} {pos : Position}
      {ps bs : List Token} (hf : f.kind = .keyword .functionKw) (hname : name.kind = .identifier)
      (hl : l.kind = .leftParen) (hparams : Parameters params ps)
      (hcount : params.length ≤ listLimit) (hr : r.kind = .rightParen)
      (hbody : Writes (.block body) bs) :
      Writes (.bare (.function name.lexeme params body pos)) (f :: name :: l :: (ps ++ r :: bs))
  | choice {s : Stmt} {ts : List Token} (h : Writes (.conditional s) ts) : Writes (.bare s) ts
  | whileLoop {w : Token} {condition : Expr} {body : List Stmt} {pos : Position}
      {cs bs : List Token} (hw : w.kind = .keyword .whileKw)
      (hcondition : Renders (.expression 0 condition) cs) (hbody : Writes (.block body) bs) :
      Writes (.bare (.whileLoop condition body pos)) (w :: (cs ++ bs))
  | forLoop {f var i : Token} {items : Expr} {body : List Stmt} {pos : Position}
      {is bs : List Token} (hf : f.kind = .keyword .forKw) (hvar : var.kind = .identifier)
      (hi : i.kind = .keyword .inKw) (hitems : Renders (.expression 0 items) is)
      (hbody : Writes (.block body) bs) :
      Writes (.bare (.forLoop var.lexeme items body pos)) (f :: var :: i :: (is ++ bs))
  | giveNothing {r : Token} {pos : Position} (hr : r.kind = .keyword .returnKw) :
      Writes (.bare (.giveBack none pos)) [r]
  | giveBack {r : Token} {e : Expr} {pos : Position} {ts : List Token}
      (hr : r.kind = .keyword .returnKw) (h : Renders (.expression 0 e) ts) :
      Writes (.bare (.giveBack (some e) pos)) (r :: ts)
  | assign {name eq : Token} {e : Expr} {pos : Position} {ts : List Token}
      (hname : name.kind = .identifier) (heq : eq.kind = .operator .assign)
      (h : Renders (.expression 0 e) ts) :
      Writes (.bare (.assign name.lexeme e pos)) (name :: eq :: ts)
  | expression {e : Expr} {ts : List Token} (h : Renders (.expression 0 e) ts) :
      Writes (.bare (.expression e)) ts
  | ifThen {i : Token} {condition : Expr} {body : List Stmt} {pos : Position} {cs bs : List Token}
      (hi : i.kind = .keyword .ifKw) (hcondition : Renders (.expression 0 condition) cs)
      (hbody : Writes (.block body) bs) :
      Writes (.conditional (.ifThen condition body pos)) (i :: (cs ++ bs))
  | ifElse {i e : Token} {condition : Expr} {body other : List Stmt} {pos : Position}
      {cs bs os : List Token} (hi : i.kind = .keyword .ifKw)
      (hcondition : Renders (.expression 0 condition) cs) (hbody : Writes (.block body) bs)
      (he : e.kind = .keyword .elseKw) (hother : Writes (.block other) os) :
      Writes (.conditional (.ifElse condition body other pos)) (i :: (cs ++ (bs ++ e :: os)))
  | elseIf {i e : Token} {condition : Expr} {body : List Stmt} {chained : Stmt} {pos : Position}
      {cs bs os : List Token} (hi : i.kind = .keyword .ifKw)
      (hcondition : Renders (.expression 0 condition) cs) (hbody : Writes (.block body) bs)
      (he : e.kind = .keyword .elseKw) (hother : Writes (.conditional chained) os) :
      Writes (.conditional (.ifElse condition body [chained] pos)) (i :: (cs ++ (bs ++ e :: os)))
  | block {l r : Token} {body : List Stmt} {ts : List Token} (hl : l.kind = .leftBrace)
      (h : Writes (.sequence body) ts) (hr : r.kind = .rightBrace) :
      Writes (.block body) (l :: (ts ++ [r]))
  | nothing : Writes (.sequence []) []
  | next {s : Stmt} {rest : List Stmt} {ts us : List Token} (hs : Writes (.statement s) ts)
      (hrest : Writes (.sequence rest) us) : Writes (.sequence (s :: rest)) (ts ++ us)

/-! ## Derivations of renderings -/

/-- The levels from a rank on are the level of that rank and those after it. -/
theorem drop_rank (level : Level) :
    Level.all.drop level.rank = level :: Level.all.drop (level.rank + 1) := by
  cases level <;> rfl

/-- What may stand at a place may stand at every place that asks for less. -/
theorem Derives.loosen {p q : Nat} {e : Expr} {ts : List Token} (hle : p ≤ q)
    (h : Derives (.chain (Level.all.drop q) e) ts) : Derives (.chain (Level.all.drop p) e) ts := by
  induction hle with
  | refl => exact h
  | @step q _ ih =>
      apply ih
      by_cases hq : q < Level.all.length
      · rw [List.drop_eq_getElem_cons hq]
        exact h.widen
      · have hnil : Level.all.drop q = Level.all.drop (q + 1) := by
          rw [List.drop_eq_nil_of_le (by omega), List.drop_eq_nil_of_le (by omega)]
        rw [hnil]
        exact h

/-- One more operator at the end of a level. -/
theorem Derives.snoc {level : Level} {tighter : List Level} {left e right : Expr} {op : BinaryOp}
    {t : Token} {us rs : List Token} (h : Derives (.folds level tighter left e) us)
    (hop : Connects level t.kind op) (hright : Derives (.chain tighter right) rs) :
    Derives (.folds level tighter left (.binary op e right t.pos)) (us ++ t :: rs) := by
  generalize hphrase : Phrase.folds level tighter left e = phrase at h
  induction h generalizing left with
  | done =>
      cases hphrase
      have hfold := Derives.fold (e := .binary op e right t.pos) hop hright .done
      rwa [List.append_nil] at hfold
  | fold hop' hright' _ _ ih =>
      cases hphrase
      rw [List.cons_append, List.append_assoc]
      exact .fold hop' hright' (ih rfl)
  | _ => cases hphrase

/-- The left operand of an operator continues the operators before it. -/
theorem derives_binary {op : BinaryOp} {left right : Expr} {t : Token} {ls rs : List Token}
    (hleft : Derives (.chain (Level.all.drop (Level.ofOp op).rank) left) ls)
    (ht : Connects (Level.ofOp op) t.kind op)
    (hright : Derives (.chain (Level.all.drop ((Level.ofOp op).rank + 1)) right) rs) :
    Derives (.chain (Level.all.drop (Level.ofOp op).rank) (.binary op left right t.pos))
      (ls ++ t :: rs) := by
  rw [drop_rank] at hleft ⊢
  cases hleft with
  | level hfirst hfolds =>
      rw [List.append_assoc]
      exact .level hfirst (hfolds.snoc ht hright)

/-- What a rendering is to give: a derivation of the same tree up to places. -/
def Derivable : Rendered → List Token → Prop
  | .expression place e, ts =>
    ∃ e', e'.unplaced = e.unplaced ∧ Derives (.chain (Level.all.drop place) e') ts
  | .arguments es, ts =>
    ∃ es', es'.map Expr.unplaced = es.map Expr.unplaced ∧ Derives (.arguments es') ts

/-- What a primary expression derives stands at any place. -/
theorem derivable_primary {place : Nat} {e e' : Expr} {ts : List Token}
    (he : e'.unplaced = e.unplaced) (h : Derives (.primary e') ts) :
    Derivable (.expression place e) ts := ⟨e', he, (Derives.plain h).chain _⟩

/-- Every phrase that is written can be derived, up to places.  By induction on the
rendering. -/
theorem derivable_of_renders {rendered : Rendered} {ts : List Token} (h : Renders rendered ts) :
    Derivable rendered ts := by
  induction h with
  | group hl _ hr ih =>
      obtain ⟨e', he, h⟩ := ih
      exact derivable_primary he (.group hl h hr)
  | @binary place op left right pos t ls rs hplace _ ht _ ihleft ihright =>
      obtain ⟨left', hl, hleft⟩ := ihleft
      obtain ⟨right', hr, hright⟩ := ihright
      have hbinary := derives_binary hleft ht hright
      exact ⟨.binary op left' right' t.pos, by simp [hl, hr], hbinary.loosen hplace⟩
  | @unary place op e pos t ts ht _ ih =>
      obtain ⟨e', he, h⟩ := ih
      cases h with
      | operand h => exact ⟨.unary op e' t.pos, by simp [he], (Derives.operator ht h).chain _⟩
  | number ht hn => exact derivable_primary rfl (.number ht hn)
  | string ht => exact derivable_primary rfl (.string ht)
  | true ht => exact derivable_primary rfl (.true ht)
  | false ht => exact derivable_primary rfl (.false ht)
  | name ht => exact derivable_primary (by simp) (.name ht)
  | emptyCall ht hl hr => exact derivable_primary (by simp) (.emptyCall ht hl hr)
  | call ht hl _ hcount hr ih =>
      obtain ⟨args', hargs, h⟩ := ih
      have hlength : args'.length ≤ listLimit := by
        have hmap := congrArg List.length hargs
        rw [List.length_map, List.length_map] at hmap
        omega
      exact derivable_primary (by simp [hargs]) (.call ht hl h hlength hr)
  | aggregate hsymbol hl hvar heq _ hto _ hr _ hd ihstart ihstop ihbody =>
      obtain ⟨start', hs, hstart⟩ := ihstart
      obtain ⟨stop', hu, hstop⟩ := ihstop
      obtain ⟨body', hb, hbody⟩ := ihbody
      cases hbody with
      | operand hbody =>
          exact derivable_primary (by simp [hs, hu, hb])
            (.aggregate hsymbol hl hvar heq hstart hto hstop hr hbody hd)
  | lastArgument _ ih =>
      obtain ⟨e', he, h⟩ := ih
      exact ⟨[e'], by simp [he], .lastArgument h⟩
  | argument _ hc _ ih ihes =>
      obtain ⟨e', he, h⟩ := ih
      obtain ⟨es', hes, hrest⟩ := ihes
      exact ⟨e' :: es', by simp [he, hes], .argument h hc hrest⟩

/-- A rendering of a whole expression is the yield of a derivation of the same
expression up to places. -/
theorem derives_of_renders {e : Expr} {ts : List Token} (h : Renders (.expression 0 e) ts) :
    ∃ e', e'.unplaced = e.unplaced ∧ Derives (.expression e') ts := derivable_of_renders h

/-! ## Existence of renderings -/

/-- A token of the given kind at the start. -/
def symbolToken (kind : Kind) : Token := ⟨kind, "", .first⟩

theorem symbolToken_kind (kind : Kind) : (symbolToken kind).kind = kind := rfl

/-- An identifier at the start. -/
def nameToken (name : String) : Token := ⟨.identifier, name, .first⟩

theorem nameToken_kind (name : String) : (nameToken name).kind = .identifier := rfl

/-- Every binary operator has a token of its level. -/
theorem exists_connects (op : BinaryOp) : ∃ t : Token, Connects (Level.ofOp op) t.kind op := by
  cases op <;> exact ⟨symbolToken _, by constructor⟩

/-- Every sign has a token. -/
theorem exists_precedes (op : UnaryOp) : ∃ t : Token, Precedes t.kind op := by
  cases op <;> exact ⟨symbolToken _, by constructor⟩

/-- Every aggregate has a token. -/
theorem exists_denotes (a : Aggregate) : ∃ t : Token, Denotes t.kind a := by
  cases a <;> exact ⟨symbolToken _, by constructor⟩

/-- What can be written at the loosest place can be written everywhere. -/
theorem exists_renders_group {e : Expr} (place : Nat)
    (h : ∃ ts, Renders (.expression 0 e) ts) : ∃ ts, Renders (.expression place e) ts := by
  obtain ⟨ts, h⟩ := h
  exact ⟨_, .group (symbolToken_kind _) h (symbolToken_kind _)⟩

mutual
/-- An expression has a rendering at every place; where its rank is too low it is put in
parentheses. -/
theorem exists_renders (e : Expr) (he : e.Renderable) (place : Nat) :
    ∃ ts, Renders (.expression place e) ts := by
  match e with
  | .number n =>
      obtain ⟨lexeme, hn⟩ := he
      exact ⟨[⟨.number, lexeme, .first⟩], .number rfl hn⟩
  | .string s => exact ⟨_, .string (symbolToken_kind _)⟩
  | .boolean true => exact ⟨_, .true (symbolToken_kind _)⟩
  | .boolean false => exact ⟨_, .false (symbolToken_kind _)⟩
  | .variable name _ => exact ⟨_, .name (nameToken_kind name)⟩
  | .binary op left right _ =>
      obtain ⟨ls, hleft⟩ := exists_renders left he.1 (Level.ofOp op).rank
      obtain ⟨rs, hright⟩ := exists_renders right he.2 ((Level.ofOp op).rank + 1)
      obtain ⟨t, ht⟩ := exists_connects op
      exact exists_renders_group place ⟨_, .binary (Nat.zero_le _) hleft ht hright⟩
  | .unary op operand _ =>
      obtain ⟨ts, h⟩ := exists_renders operand he unaryRank
      obtain ⟨t, ht⟩ := exists_precedes op
      exact ⟨_, .unary ht h⟩
  | .call name [] _ =>
      exact ⟨_, .emptyCall (nameToken_kind name) (symbolToken_kind _) (symbolToken_kind _)⟩
  | .call name (arg :: args) _ =>
      obtain ⟨ts, h⟩ := exists_renders_arguments (arg :: args) he.2 (List.cons_ne_nil arg args)
      exact ⟨_, .call (nameToken_kind name) (symbolToken_kind _) h he.1 (symbolToken_kind _)⟩
  | .aggregate kind var start stop body _ =>
      obtain ⟨ss, hstart⟩ := exists_renders start he.1 0
      obtain ⟨us, hstop⟩ := exists_renders stop he.2.1 0
      obtain ⟨bs, hbody⟩ := exists_renders body he.2.2 unaryRank
      obtain ⟨symbol, hsymbol⟩ := exists_denotes kind
      exact ⟨_, .aggregate hsymbol (symbolToken_kind _) (nameToken_kind var) (symbolToken_kind _)
        hstart (symbolToken_kind _) hstop (symbolToken_kind _) hbody .absent⟩

/-- Arguments have a rendering, with commas between them. -/
theorem exists_renders_arguments (es : List Expr) (hes : Expr.AllRenderable es)
    (hne : es ≠ []) : ∃ ts, Renders (.arguments es) ts := by
  match es with
  | [] => exact absurd rfl hne
  | [e] =>
      obtain ⟨ts, h⟩ := exists_renders e hes.1 0
      exact ⟨ts, .lastArgument h⟩
  | e :: next :: es =>
      obtain ⟨ts, h⟩ := exists_renders e hes.1 0
      obtain ⟨us, hrest⟩ := exists_renders_arguments (next :: es) hes.2 (List.cons_ne_nil next es)
      exact ⟨_, .argument h (symbolToken_kind _) hrest⟩
end

/-- Parameters have one, too. -/
theorem exists_parameters (params : List String) (hne : params ≠ []) :
    ∃ ts, Parameters params ts := by
  induction params with
  | nil => exact absurd rfl hne
  | cons name names ih =>
      cases names with
      | nil => exact ⟨_, .last (nameToken_kind name)⟩
      | cons next names =>
          obtain ⟨ts, h⟩ := ih (List.cons_ne_nil next names)
          exact ⟨_, .next (nameToken_kind name) (symbolToken_kind _) h⟩

/-- A sequence that can be written can be written between braces. -/
theorem exists_writes_block {body : List Stmt} (h : ∃ ts, Writes (.sequence body) ts) :
    ∃ ts, Writes (.block body) ts := by
  obtain ⟨ts, h⟩ := h
  exact ⟨_, .block (symbolToken_kind _) h (symbolToken_kind _)⟩

mutual
/-- A statement has a rendering without its semicolon. -/
theorem exists_writes_bare (s : Stmt) (hs : s.Renderable) : ∃ ts, Writes (.bare s) ts := by
  match s with
  | .expression e =>
      obtain ⟨ts, h⟩ := exists_renders e hs 0
      exact ⟨ts, .expression h⟩
  | .assign name value _ =>
      obtain ⟨ts, h⟩ := exists_renders value hs 0
      exact ⟨_, .assign (nameToken_kind name) (symbolToken_kind _) h⟩
  | .ifThen condition body _ =>
      obtain ⟨cs, hcondition⟩ := exists_renders condition hs.1 0
      obtain ⟨bs, hbody⟩ := exists_writes_block (exists_writes body hs.2)
      exact ⟨_, .choice (.ifThen (symbolToken_kind _) hcondition hbody)⟩
  | .ifElse condition body other _ =>
      obtain ⟨cs, hcondition⟩ := exists_renders condition hs.1 0
      obtain ⟨bs, hbody⟩ := exists_writes_block (exists_writes body hs.2.1)
      obtain ⟨os, hother⟩ := exists_writes_block (exists_writes other hs.2.2)
      exact ⟨_, .choice (.ifElse (symbolToken_kind _) hcondition hbody (symbolToken_kind _) hother)⟩
  | .whileLoop condition body _ =>
      obtain ⟨cs, hcondition⟩ := exists_renders condition hs.1 0
      obtain ⟨bs, hbody⟩ := exists_writes_block (exists_writes body hs.2)
      exact ⟨_, .whileLoop (symbolToken_kind _) hcondition hbody⟩
  | .forLoop var items body _ =>
      obtain ⟨is, hitems⟩ := exists_renders items hs.1 0
      obtain ⟨bs, hbody⟩ := exists_writes_block (exists_writes body hs.2)
      exact ⟨_, .forLoop (symbolToken_kind _) (nameToken_kind var) (symbolToken_kind _) hitems
        hbody⟩
  | .function name [] body _ =>
      obtain ⟨bs, hbody⟩ := exists_writes_block (exists_writes body hs.2)
      exact ⟨_, .thunk (symbolToken_kind _) (nameToken_kind name) (symbolToken_kind _)
        (symbolToken_kind _) hbody⟩
  | .function name (param :: params) body _ =>
      obtain ⟨bs, hbody⟩ := exists_writes_block (exists_writes body hs.2)
      obtain ⟨ps, hparams⟩ := exists_parameters (param :: params) (List.cons_ne_nil param params)
      exact ⟨_, .function (symbolToken_kind _) (nameToken_kind name) (symbolToken_kind _) hparams
        hs.1 (symbolToken_kind _) hbody⟩
  | .giveBack none _ => exact ⟨_, .giveNothing (symbolToken_kind _)⟩
  | .giveBack (some value) _ =>
      obtain ⟨ts, h⟩ := exists_renders value hs 0
      exact ⟨_, .giveBack (symbolToken_kind _) h⟩

/-- **Every program that can be written has a rendering.** -/
theorem exists_writes (stmts : List Stmt) (h : Stmt.AllRenderable stmts) :
    ∃ ts, Writes (.sequence stmts) ts := by
  match stmts with
  | [] => exact ⟨[], .nothing⟩
  | s :: rest =>
      obtain ⟨ts, hs⟩ := exists_writes_bare s h.1
      obtain ⟨us, hrest⟩ := exists_writes rest h.2
      exact ⟨_, .next (.ended hs (symbolToken_kind _)) hrest⟩
end

end Grammar

end Abacus
