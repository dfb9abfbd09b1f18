import Abacus.Parse.Program

/-!
# Abacus.Proofs.Parse.Grammar

The grammar as derivations.  A phrase is a nonterminal together with the tree
that it stands for; `Derives phrase ts` says that the tokens `ts` are the yield
of a derivation of the phrase.  Names, literals and places of the tree are those
of the tokens, a parenthesised expression is the tree of its inside, and the
operands of one level of binary operators are folded to the left.  Calls have at
most `listLimit` arguments and functions as many parameters.

Nothing here mentions a cursor, the nesting or an order of reading: the
derivations are what the parser is compared with.
-/

namespace Abacus

namespace Grammar

/-! ## Operators -/

/-- The tokens that stand between the operands of a level, and the operations
they denote there. -/
inductive Connects : Level → Kind → BinaryOp → Prop where
  | or : Connects .disjunction (.keyword .orKw) .or
  | and : Connects .conjunction (.keyword .andKw) .and
  | equal : Connects .comparison (.operator .equal) .equal
  | notEqual : Connects .comparison (.operator .notEqual) .notEqual
  | less : Connects .comparison (.operator .less) .less
  | lessEqual : Connects .comparison (.operator .lessEqual) .lessEqual
  | greater : Connects .comparison (.operator .greater) .greater
  | greaterEqual : Connects .comparison (.operator .greaterEqual) .greaterEqual
  | add : Connects .additive (.operator .plus) .add
  | subtract : Connects .additive (.operator .minus) .subtract
  | multiply : Connects .multiplicative (.operator .star) .multiply
  | divide : Connects .multiplicative (.operator .slash) .divide
  | modulo : Connects .multiplicative (.operator .percent) .modulo
  | power : Connects .power (.operator .caret) .power

/-- The tokens that stand before an operand, and the operations they denote
there. -/
inductive Precedes : Kind → UnaryOp → Prop where
  | negate : Precedes (.operator .minus) .negate
  | plus : Precedes (.operator .plus) .plus
  | not : Precedes (.keyword .notKw) .not

/-- The symbols of the aggregates. -/
inductive Denotes : Kind → Aggregate → Prop where
  | sum : Denotes (.operator .sum) .sum
  | product : Denotes (.operator .product) .product
  | integral : Denotes (.operator .integral) .integral

theorem Connects.ne_endOfInput {level : Level} {kind : Kind} {op : BinaryOp}
    (h : Connects level kind op) : kind ≠ .endOfInput := by
  cases h <;> simp

theorem Precedes.ne_endOfInput {kind : Kind} {op : UnaryOp} (h : Precedes kind op) :
    kind ≠ .endOfInput := by
  cases h <;> simp

theorem Denotes.ne_endOfInput {kind : Kind} {a : Aggregate} (h : Denotes kind a) :
    kind ≠ .endOfInput := by
  cases h <;> simp

/-! ## Expressions -/

/-- The nonterminals of expressions, each with its tree. -/
inductive Phrase where
  /-- Operands between binary operators of the given levels, the loosest first;
  without a level, one unary expression. -/
  | chain (levels : List Level) (e : Expr)
  /-- The operators of one level with their right operands, after `left`. -/
  | folds (level : Level) (tighter : List Level) (left e : Expr)
  | unary (e : Expr)
  | primary (e : Expr)
  /-- One argument or more. -/
  | arguments (es : List Expr)

/-- A whole expression: all six levels, from `or` down to `^`. -/
abbrev Phrase.expression (e : Expr) : Phrase :=
  .chain [.disjunction, .conjunction, .comparison, .additive, .multiplicative, .power] e

/-- What may follow the body of an aggregate: after an integral, one identifier
spelled as `d` and the bound variable. -/
inductive Differential (kind : Aggregate) (var : String) : List Token → Prop where
  | absent : Differential kind var []
  | present (t : Token) (hkind : kind = .integral) (ht : t.kind = .identifier)
      (hlexeme : t.lexeme = "d" ++ var) : Differential kind var [t]

/-- The productions of expressions. -/
inductive Derives : Phrase → List Token → Prop where
  | operand {e : Expr} {ts : List Token} (h : Derives (.unary e) ts) : Derives (.chain [] e) ts
  | level {level : Level} {tighter : List Level} {left e : Expr} {ts us : List Token}
      (hleft : Derives (.chain tighter left) ts)
      (hfolds : Derives (.folds level tighter left e) us) :
      Derives (.chain (level :: tighter) e) (ts ++ us)
  | done {level : Level} {tighter : List Level} {e : Expr} : Derives (.folds level tighter e e) []
  | fold {level : Level} {tighter : List Level} {left right e : Expr} {op : BinaryOp} {t : Token}
      {ts us : List Token} (hop : Connects level t.kind op)
      (hright : Derives (.chain tighter right) ts)
      (hfolds : Derives (.folds level tighter (.binary op left right t.pos) e) us) :
      Derives (.folds level tighter left e) (t :: (ts ++ us))
  | operator {op : UnaryOp} {e : Expr} {t : Token} {ts : List Token}
      (hop : Precedes t.kind op) (h : Derives (.unary e) ts) :
      Derives (.unary (.unary op e t.pos)) (t :: ts)
  | plain {e : Expr} {ts : List Token} (h : Derives (.primary e) ts) : Derives (.unary e) ts
  | number {t : Token} {n : Float} (ht : t.kind = .number) (hn : Number.read? t.lexeme = some n) :
      Derives (.primary (.number n)) [t]
  | string {t : Token} {s : String} (ht : t.kind = .string s) : Derives (.primary (.string s)) [t]
  | true {t : Token} (ht : t.kind = .keyword .trueKw) : Derives (.primary (.boolean .true)) [t]
  | false {t : Token} (ht : t.kind = .keyword .falseKw) : Derives (.primary (.boolean .false)) [t]
  | name {t : Token} (ht : t.kind = .identifier) :
      Derives (.primary (.variable t.lexeme t.pos)) [t]
  | emptyCall {t l r : Token} (ht : t.kind = .identifier) (hl : l.kind = .leftParen)
      (hr : r.kind = .rightParen) : Derives (.primary (.call t.lexeme [] t.pos)) [t, l, r]
  | call {t l r : Token} {args : List Expr} {ts : List Token} (ht : t.kind = .identifier)
      (hl : l.kind = .leftParen) (hargs : Derives (.arguments args) ts)
      (hcount : args.length ≤ listLimit) (hr : r.kind = .rightParen) :
      Derives (.primary (.call t.lexeme args t.pos)) (t :: l :: (ts ++ [r]))
  | group {l r : Token} {e : Expr} {ts : List Token} (hl : l.kind = .leftParen)
      (h : Derives (.expression e) ts) (hr : r.kind = .rightParen) :
      Derives (.primary e) (l :: (ts ++ [r]))
  | aggregate {symbol l var eq word r : Token} {kind : Aggregate} {start stop body : Expr}
      {ss us bs ds : List Token} (hsymbol : Denotes symbol.kind kind) (hl : l.kind = .leftParen)
      (hvar : var.kind = .identifier) (heq : eq.kind = .operator .assign)
      (hstart : Derives (.expression start) ss) (hto : word.kind = .keyword .toKw)
      (hstop : Derives (.expression stop) us) (hr : r.kind = .rightParen)
      (hbody : Derives (.unary body) bs) (hd : Differential kind var.lexeme ds) :
      Derives (.primary (.aggregate kind var.lexeme start stop body symbol.pos))
        (symbol :: l :: var :: eq :: (ss ++ word :: (us ++ r :: (bs ++ ds))))
  | lastArgument {e : Expr} {ts : List Token} (h : Derives (.expression e) ts) :
      Derives (.arguments [e]) ts
  | argument {e : Expr} {es : List Expr} {c : Token} {ts us : List Token}
      (h : Derives (.expression e) ts) (hc : c.kind = .comma) (hes : Derives (.arguments es) us) :
      Derives (.arguments (e :: es)) (ts ++ c :: us)

/-- An operand of a level is an expression of it without operators. -/
theorem Derives.widen {level : Level} {tighter : List Level} {e : Expr} {ts : List Token}
    (h : Derives (.chain tighter e) ts) : Derives (.chain (level :: tighter) e) ts := by
  have hlevel : Derives (.chain (level :: tighter) e) (ts ++ []) := .level h .done
  rwa [List.append_nil] at hlevel

/-- A unary expression is an expression of all levels. -/
theorem Derives.chain {e : Expr} {ts : List Token} (levels : List Level)
    (h : Derives (.unary e) ts) : Derives (.chain levels e) ts := by
  induction levels with
  | nil => exact .operand h
  | cons level tighter ih => exact ih.widen

/-! ## Statements -/

/-- The parameters of a function: identifiers with commas between them. -/
inductive Parameters : List String → List Token → Prop where
  | last {t : Token} (ht : t.kind = .identifier) : Parameters [t.lexeme] [t]
  | next {t c : Token} {names : List String} {ts : List Token} (ht : t.kind = .identifier)
      (hc : c.kind = .comma) (h : Parameters names ts) :
      Parameters (t.lexeme :: names) (t :: c :: ts)

/-- The nonterminals of statements, each with its tree. -/
inductive Sentence where
  | statement (s : Stmt)
  /-- A conditional from its keyword on, without a semicolon after it. -/
  | conditional (s : Stmt)
  | block (body : List Stmt)
  /-- Statements with any number of semicolons before, between and after them. -/
  | sequence (stmts : List Stmt)
  /-- A statement without the semicolon that may follow it. -/
  | bare (s : Stmt)

/-- The productions of statements. -/
inductive Forms : Sentence → List Token → Prop where
  | unended {s : Stmt} {ts : List Token} (h : Forms (.bare s) ts) : Forms (.statement s) ts
  | ended {s : Stmt} {ts : List Token} {t : Token} (h : Forms (.bare s) ts)
      (ht : t.kind = .semicolon) : Forms (.statement s) (ts ++ [t])
  | thunk {f name l r : Token} {body : List Stmt} {bs : List Token}
      (hf : f.kind = .keyword .functionKw) (hname : name.kind = .identifier)
      (hl : l.kind = .leftParen) (hr : r.kind = .rightParen) (hbody : Forms (.block body) bs) :
      Forms (.bare (.function name.lexeme [] body f.pos)) (f :: name :: l :: r :: bs)
  | function {f name l r : Token} {params : List String} {body : List Stmt} {ps bs : List Token}
      (hf : f.kind = .keyword .functionKw) (hname : name.kind = .identifier)
      (hl : l.kind = .leftParen) (hparams : Parameters params ps)
      (hcount : params.length ≤ listLimit) (hr : r.kind = .rightParen)
      (hbody : Forms (.block body) bs) :
      Forms (.bare (.function name.lexeme params body f.pos))
        (f :: name :: l :: (ps ++ r :: bs))
  | choice {s : Stmt} {ts : List Token} (h : Forms (.conditional s) ts) : Forms (.bare s) ts
  | whileLoop {w : Token} {condition : Expr} {body : List Stmt} {cs bs : List Token}
      (hw : w.kind = .keyword .whileKw) (hcondition : Derives (.expression condition) cs)
      (hbody : Forms (.block body) bs) :
      Forms (.bare (.whileLoop condition body w.pos)) (w :: (cs ++ bs))
  | forLoop {f var i : Token} {items : Expr} {body : List Stmt} {is bs : List Token}
      (hf : f.kind = .keyword .forKw) (hvar : var.kind = .identifier)
      (hi : i.kind = .keyword .inKw) (hitems : Derives (.expression items) is)
      (hbody : Forms (.block body) bs) :
      Forms (.bare (.forLoop var.lexeme items body f.pos)) (f :: var :: i :: (is ++ bs))
  | giveNothing {r : Token} (hr : r.kind = .keyword .returnKw) :
      Forms (.bare (.giveBack none r.pos)) [r]
  | giveBack {r : Token} {e : Expr} {ts : List Token} (hr : r.kind = .keyword .returnKw)
      (h : Derives (.expression e) ts) : Forms (.bare (.giveBack (some e) r.pos)) (r :: ts)
  | assign {name eq : Token} {e : Expr} {ts : List Token} (hname : name.kind = .identifier)
      (heq : eq.kind = .operator .assign) (h : Derives (.expression e) ts) :
      Forms (.bare (.assign name.lexeme e name.pos)) (name :: eq :: ts)
  | expression {e : Expr} {ts : List Token} (h : Derives (.expression e) ts) :
      Forms (.bare (.expression e)) ts
  | ifThen {i : Token} {condition : Expr} {body : List Stmt} {cs bs : List Token}
      (hi : i.kind = .keyword .ifKw) (hcondition : Derives (.expression condition) cs)
      (hbody : Forms (.block body) bs) :
      Forms (.conditional (.ifThen condition body i.pos)) (i :: (cs ++ bs))
  | ifElse {i e : Token} {condition : Expr} {body other : List Stmt} {cs bs os : List Token}
      (hi : i.kind = .keyword .ifKw) (hcondition : Derives (.expression condition) cs)
      (hbody : Forms (.block body) bs) (he : e.kind = .keyword .elseKw)
      (hother : Forms (.block other) os) :
      Forms (.conditional (.ifElse condition body other i.pos)) (i :: (cs ++ (bs ++ e :: os)))
  | elseIf {i e : Token} {condition : Expr} {body : List Stmt} {chained : Stmt}
      {cs bs os : List Token} (hi : i.kind = .keyword .ifKw)
      (hcondition : Derives (.expression condition) cs) (hbody : Forms (.block body) bs)
      (he : e.kind = .keyword .elseKw) (hother : Forms (.conditional chained) os) :
      Forms (.conditional (.ifElse condition body [chained] i.pos))
        (i :: (cs ++ (bs ++ e :: os)))
  | block {l r : Token} {body : List Stmt} {ts : List Token} (hl : l.kind = .leftBrace)
      (h : Forms (.sequence body) ts) (hr : r.kind = .rightBrace) :
      Forms (.block body) (l :: (ts ++ [r]))
  | nothing : Forms (.sequence []) []
  | separator {t : Token} {stmts : List Stmt} {ts : List Token} (ht : t.kind = .semicolon)
      (h : Forms (.sequence stmts) ts) : Forms (.sequence stmts) (t :: ts)
  | next {s : Stmt} {rest : List Stmt} {ts us : List Token} (hs : Forms (.statement s) ts)
      (hrest : Forms (.sequence rest) us) : Forms (.sequence (s :: rest)) (ts ++ us)

/-! ## The tables of operators -/

/-- The parser's table of binary operators is that of the grammar. -/
theorem operator?_eq_some_iff {level : Level} {kind : Kind} {op : BinaryOp} :
    level.operator? kind = some op ↔ Connects level kind op := by
  constructor
  · intro h
    obtain ⟨hop, hlevel⟩ := Option.filter_eq_some_iff.mp h
    have hlevel : Level.ofOp op = level := by simpa using hlevel
    subst hlevel
    unfold Kind.binaryOp? BinaryOp.ofOperator? at hop
    split at hop
    · cases hop; exact .or
    · cases hop; exact .and
    · split at hop <;> cases hop <;> constructor
    · contradiction
  · intro h
    cases h <;> rfl

/-- The parser's table of unary operators is that of the grammar. -/
theorem unaryOp?_eq_some_iff {kind : Kind} {op : UnaryOp} :
    kind.unaryOp? = some op ↔ Precedes kind op := by
  constructor
  · intro h
    unfold Kind.unaryOp? at h
    split at h <;> cases h <;> constructor
  · intro h
    cases h <;> rfl

/-- The parser's table of aggregate symbols is that of the grammar. -/
theorem aggregate_ofOperator?_eq_some_iff {o : Operator} {kind : Aggregate} :
    Aggregate.ofOperator? o = some kind ↔ Denotes (.operator o) kind := by
  constructor
  · intro h
    unfold Aggregate.ofOperator? at h
    split at h <;> cases h <;> constructor
  · intro h
    cases h <;> rfl

end Grammar

end Abacus
