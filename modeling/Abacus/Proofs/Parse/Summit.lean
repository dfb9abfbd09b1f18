import Abacus.Proofs.Parse.Symbols
import Abacus.Proofs.Token.Pattern

/-!
# Abacus.Proofs.Parse.Summit

Trees as high as the nesting limit allows.  A summit spends every level that is left
and has no symbol of an aggregate: on each level of binary operators as many operators
as there are levels left, and around the whole a call, inside of which there is one
level less (`summit`).  The expression that it is read as has the greatest height that
any can have (`meets_summit`), so the bound on heights is attained
(`exists_height_eq`).  Functions inside of one another do the same for the depth of
statements (`exists_depth_eq`).  So what the limit guarantees without aggregates is known
exactly (`limits_without_symbols`).

Only the kinds of the tokens are written down.  Each kind has a text, and tokens that
have one are those of a source (`exists_tokenize_of_kinds`).
-/

namespace Abacus

/-! ## Sources with tokens of given kinds -/

/-- The kind is neither a line break nor the end of input, nor the symbol of an
aggregate. -/
def Kind.isPlain : Kind → Bool
  | .newline | .endOfInput => false
  | kind => kind.aggregate?.isNone

/-- A plain kind is the symbol of no aggregate. -/
theorem Kind.aggregate?_of_isPlain {kind : Kind} (h : kind.isPlain) : kind.aggregate? = none := by
  unfold isPlain at h
  split at h
  · contradiction
  · contradiction
  · exact Option.isNone_iff_eq_none.mp h

/-- A token of the kind that can be read back. -/
theorem Kind.exists_spelled {kind : Kind} (h : kind.isPlain) :
    ∃ t : Token, t.kind = kind ∧ Scan.Spells t.kind t.lexeme.toList ∧ t.kind ≠ .newline := by
  have hne : kind ≠ .endOfInput ∧ kind ≠ .newline := by
    constructor <;> rintro rfl <;> contradiction
  obtain ⟨text, htext⟩ := Scan.exists_spells hne.1
  refine ⟨⟨kind, String.ofList text, .first⟩, rfl, ?_, hne.2⟩
  rw [String.toList_ofList]
  exact htext

/-- Any plain kinds are those of the tokens of a source without a symbol. -/
theorem exists_tokenize_of_kinds {kinds : List Kind} (h : ∀ kind ∈ kinds, kind.isPlain) :
    ∃ source ts p, tokenize source = .ok (ts ++ [Token.finish p]) ∧ ts.map Token.kind = kinds ∧
      symbolCount (ts ++ [Token.finish p]) = 0 := by
  have hinit : ∃ init : List Token, init.map Token.kind = kinds ∧
      ∀ t ∈ init, Scan.Spells t.kind t.lexeme.toList ∧ t.kind ≠ .newline := by
    induction kinds with
    | nil => exact ⟨[], rfl, by simp⟩
    | cons kind kinds ih =>
        rw [List.forall_mem_cons] at h
        obtain ⟨init, rfl, hinit⟩ := ih h.2
        obtain ⟨t, rfl, ht⟩ := Kind.exists_spelled h.1
        exact ⟨t :: init, rfl, List.forall_mem_cons.mpr ⟨ht, hinit⟩⟩
  obtain ⟨init, rfl, hinit⟩ := hinit
  have htext : (spaced init).toList = (spaced init).toList ++ [] := (List.append_nil _).symm
  obtain ⟨ts, p, htokens, hsame⟩ := exists_tokenize_of_spaced hinit (.inl rfl) htext
  have hkinds : ts.map Token.kind = init.map Token.kind := by
    have hmaps := congrArg (List.map Token.kind) hsame
    rwa [List.map_map, List.map_map] at hmaps
  refine ⟨_, ts, p, htokens, hkinds, List.countP_eq_zero.mpr fun t ht => ?_⟩
  obtain ht | ht := List.mem_append.mp ht
  · have hplain := h t.kind (hkinds ▸ List.mem_map_of_mem ht)
    simp [Token.isSymbol, Kind.aggregate?_of_isPlain hplain]
  · obtain rfl := List.mem_singleton.mp ht
    simp [Token.isSymbol, Token.finish, Kind.aggregate?]

namespace Parse

open Grammar

/-! ## The kinds of a summit -/

/-- The kind of an operator of the level. -/
def sign : Level → Kind
  | .disjunction => .keyword .orKw
  | .conjunction => .keyword .andKw
  | .comparison => .operator .less
  | .additive => .operator .plus
  | .multiplicative => .operator .star
  | .power => .operator .caret

/-- Operators of the level, each with a string after it. -/
def steps (level : Level) : Nat → List Kind
  | 0 => []
  | n + 1 => sign level :: .string "" :: steps level n

/-- An operand, and after it `n` operators of each of the levels. -/
def slope (n : Nat) (operand : List Kind) : List Level → List Kind
  | [] => operand
  | level :: tighter => slope n operand tighter ++ steps level n

/-- A unary expression as high as one can be with `left` levels left. -/
def summit : Nat → List Kind
  | 0 => [.string ""]
  | left + 1 => .identifier :: .leftParen :: (slope left (summit left) Level.all ++ [.rightParen])

theorem isPlain_sign (level : Level) : (sign level).isPlain := by
  cases level <;> rfl

/-- The operators of a level, and their operands, are plain. -/
theorem isPlain_steps (level : Level) (n : Nat) : ∀ kind ∈ steps level n, kind.isPlain := by
  induction n with
  | zero => simp [steps]
  | succ n ih =>
      simp only [steps, List.forall_mem_cons]
      exact ⟨isPlain_sign level, rfl, ih⟩

/-- A slope is plain if its first operand is. -/
theorem isPlain_slope {n : Nat} {operand : List Kind} (h : ∀ kind ∈ operand, kind.isPlain)
    (levels : List Level) : ∀ kind ∈ slope n operand levels, kind.isPlain := by
  induction levels with
  | nil => exact h
  | cons level tighter ih => exact List.forall_mem_append.mpr ⟨ih, isPlain_steps level n⟩

/-- A summit is plain, by induction on the levels that are left. -/
theorem isPlain_summit (left : Nat) : ∀ kind ∈ summit left, kind.isPlain := by
  induction left with
  | zero => exact List.forall_mem_singleton.mpr rfl
  | succ left ih =>
      simp only [summit, List.forall_mem_cons, List.forall_mem_append]
      exact ⟨rfl, rfl, isPlain_slope ih Level.all, rfl, by simp⟩

/-! ## Reading a summit -/

/- By induction on the levels that are left.  The call of a summit leaves one level less
inside, each level of operators spends what is left once (`meets_slope`), and the heights add
up to the bound exactly. -/

/-- The sign of a level is an operator of that level. -/
theorem connects_sign (level : Level) : ∃ op, Connects level (sign level) op := by
  cases level <;> exact ⟨_, by constructor⟩

/-- A string is a unary expression. -/
theorem meets_string {budget n fuel : Nat} {t : Token} {s : String} {rest : List Token}
    (ht : t.kind = .string s) (hfuel : 0 < fuel) :
    Meets budget ⟨t :: rest, n⟩ (unary fuel) fun e c => e = .string s ∧ c = ⟨rest, n⟩ := by
  obtain ⟨fuel, rfl⟩ := Nat.exists_eq_add_one_of_ne_zero (show fuel ≠ 0 by omega)
  refine Meets.peek_bind ?_
  rw [current_kind, next_cons, ht]
  refine Meets.peek_bind ?_
  rw [current_kind, next_cons, ht]
  exact Meets.discard_bind (Meets.advance_bind (by simp [ht]) (Meets.pure ⟨rfl, rfl⟩))

theorem length_steps (level : Level) (n : Nat) : (steps level n).length = 2 * n := by
  induction n with
  | zero => rfl
  | succ n ih =>
      simp only [steps, List.length_cons, ih]
      omega

/-- After an operand comes an operator of the level or what follows the whole. -/
theorem closes_steps {level : Level} {tighter : List Level} (hlevel : level ∉ tighter) {n : Nat}
    {us rest : List Token} (hus : us.map Token.kind = steps level n)
    (hrest : Closes (level :: tighter) (next rest)) : Closes tighter (next (us ++ rest)) := by
  cases n with
  | zero =>
      obtain rfl := List.map_eq_nil_iff.mp hus
      exact hrest.tail
  | succ n =>
      obtain ⟨t, us, rfl, ht, _⟩ := List.map_eq_cons_iff.mp hus
      obtain ⟨op, hop⟩ := connects_sign level
      rw [List.cons_append, next_cons, ht]
      exact closes_of_connects hop hlevel

/-- The operators of a level make the chain before them as much higher as they are
many. -/
theorem meets_steps {level : Level} {tighter : List Level} (hlevel : level ∉ tighter)
    {fuel n m k : Nat} {us rest : List Token} {left : Expr}
    (hus : us.map Token.kind = steps level n) (hlimit : m + n ≤ nestingLimit)
    (hfuel : 0 < fuel) (hk : n < k) (hrest : Closes (level :: tighter) (next rest)) :
    Meets (nestingLimit - 1) ⟨us ++ rest, m⟩
      (operators level (climb fuel (unary fuel) tighter) k left) fun e c =>
        e.height = left.height + n ∧ c = ⟨rest, m⟩ := by
  induction n generalizing us m k left with
  | zero =>
      obtain rfl := List.map_eq_nil_iff.mp hus
      obtain ⟨k, rfl⟩ := Nat.exists_eq_add_one_of_ne_zero (show k ≠ 0 by omega)
      have hnone := hrest.operator?_eq_none level List.mem_cons_self
      refine Meets.peek_bind ?_
      rw [List.nil_append, current_kind, hnone]
      exact Meets.pure ⟨rfl, rfl⟩
  | succ n ih =>
      obtain ⟨k, rfl⟩ := Nat.exists_eq_add_one_of_ne_zero (show k ≠ 0 by omega)
      obtain ⟨t, us', rfl, ht, hus'⟩ := List.map_eq_cons_iff.mp hus
      obtain ⟨a, vs, rfl, ha, hvs⟩ := List.map_eq_cons_iff.mp hus'
      obtain ⟨op, hop⟩ := connects_sign level
      have hcloses : Closes tighter (next (vs ++ rest)) := closes_steps hlevel hvs hrest
      show Meets _ ⟨t :: a :: (vs ++ rest), m⟩ (peek >>= _) _
      refine Meets.peek_bind ?_
      rw [current_kind, next_cons, ht, operator?_eq_some_iff.mpr hop]
      refine Meets.discard_bind (Meets.advance_bind (by rw [ht]; exact hop.ne_endOfInput) ?_)
      refine Meets.nested (show m ≤ nestingLimit - 1 by omega) ?_
      refine (meets_climb hfuel hcloses (meets_string ha hfuel)).bind fun right c hright => ?_
      obtain ⟨rfl, rfl⟩ := hright
      refine (ih hvs (show m + 1 + n ≤ nestingLimit by omega) (by omega)).mono fun e c he => ?_
      obtain ⟨hheight, rfl⟩ := he
      have hpos := left.spine_lt_height
      simp only [Expr.height] at hheight
      exact ⟨by omega, rfl⟩

/-- No equals sign comes first among operators and operands. -/
theorem noAssign_steps {level : Level} {n : Nat} {us : List Token}
    (hus : us.map Token.kind = steps level n) : NoAssign us := by
  cases n with
  | zero =>
      obtain rfl := List.map_eq_nil_iff.mp hus
      exact fun _ h => h
  | succ n =>
      obtain ⟨t, us, rfl, ht, _⟩ := List.map_eq_cons_iff.mp hus
      refine noAssign_cons us ?_
      rw [ht]
      cases level <;> simp [sign]

/-- A slope starts as its first operand does. -/
theorem opens_slope {n : Nat} {operand : List Kind}
    (hoperand : ∀ ts : List Token, ts.map Token.kind = operand → Opens ts) (levels : List Level)
    {ts : List Token} (hts : ts.map Token.kind = slope n operand levels) : Opens ts := by
  induction levels generalizing ts with
  | nil => exact hoperand ts hts
  | cons level tighter ih =>
      obtain ⟨ts, us, rfl, hts, hus⟩ := List.map_eq_append_iff.mp hts
      exact (ih hts).append (noAssign_steps hus)

/-- A summit starts as an expression does. -/
theorem opens_summit {left : Nat} {ts : List Token} (hts : ts.map Token.kind = summit left) :
    Opens ts := by
  cases left with
  | zero =>
      obtain ⟨t, us, rfl, ht, _⟩ := List.map_eq_cons_iff.mp hts
      exact opens_symbol us ht rfl (by simp)
  | succ left =>
      obtain ⟨t, us, rfl, ht, hus⟩ := List.map_eq_cons_iff.mp hts
      obtain ⟨l, us, rfl, hl, _⟩ := List.map_eq_cons_iff.mp hus
      exact opens_cons (by rw [ht]; rfl) fun _ => noAssign_cons us (by simp [hl])

/-- On the way down from the loosest level to the operand, each level adds the levels
that are left. -/
theorem meets_slope {n h : Nat} {operand : List Kind}
    (hoperand : ∀ {ts rest : List Token} {fuel m : Nat}, ts.map Token.kind = operand →
      m + n ≤ nestingLimit → (ts ++ rest).length < fuel → Closes [] (next rest) →
      Meets (nestingLimit - 1) ⟨ts ++ rest, m⟩ (unary fuel) fun e c =>
        e.height = h ∧ c = ⟨rest, m⟩)
    {levels : List Level} (hlevels : levels.Nodup) {ts rest : List Token} {fuel m : Nat}
    (hts : ts.map Token.kind = slope n operand levels) (hlimit : m + n ≤ nestingLimit)
    (hfuel : (ts ++ rest).length < fuel) (hrest : Closes levels (next rest)) :
    Meets (nestingLimit - 1) ⟨ts ++ rest, m⟩ (climb fuel (unary fuel) levels) fun e c =>
      e.height = h + levels.length * n ∧ c = ⟨rest, m⟩ := by
  induction levels generalizing ts rest with
  | nil =>
      simp only [List.length_nil, Nat.zero_mul, Nat.add_zero]
      exact hoperand hts hlimit hfuel hrest
  | cons level tighter ih =>
      obtain ⟨hlevel, htighter⟩ := List.nodup_cons.mp hlevels
      obtain ⟨ts, us, rfl, hts, hus⟩ := List.map_eq_append_iff.mp hts
      rw [List.append_assoc] at hfuel ⊢
      have hlength : us.length = 2 * n := by rw [← List.length_map, hus, length_steps]
      have hk : n < fuel := by
        simp only [List.length_append] at hfuel
        omega
      have hcloses : Closes tighter (next (us ++ rest)) := closes_steps hlevel hus hrest
      refine (ih htighter hts hfuel hcloses).bind fun left c hleft => ?_
      obtain ⟨hheight, rfl⟩ := hleft
      refine (meets_steps hlevel hus hlimit (by omega) hk hrest).mono fun e c he => ?_
      rw [List.length_cons, Nat.succ_mul]
      exact ⟨by omega, he.2⟩

/-- One argument and the closing parenthesis. -/
theorem meets_argument {budget n : Nat} {expr : Parser Expr} {ts rest : List Token} {r : Token}
    {P : Expr → Prop} (hopens : opens (next (ts ++ r :: rest)) = true) (hr : r.kind = .rightParen)
    (h : Meets budget ⟨ts ++ r :: rest, n⟩ expr fun e c => P e ∧ c = ⟨r :: rest, n⟩) :
    Meets budget ⟨ts ++ r :: rest, n⟩ (arguments expr) fun args c =>
      (∃ e, args = [e] ∧ P e) ∧ c = ⟨rest, n⟩ := by
  have hsome : (⟨ts ++ r :: rest, n⟩ : Cursor).sees .rightParen = false :=
    Cursor.sees_of_ne (ne_rightParen_of_opens hopens)
  have hcomma : (⟨r :: rest, n⟩ : Cursor).sees .comma = false := sees_of_next hr (by simp)
  have hargs : Meets budget ⟨ts ++ r :: rest, n⟩ (separated .fewerArguments expr listLimit)
      fun args c => (∃ e, args = [e] ∧ P e) ∧ c = ⟨r :: rest, n⟩ := by
    refine h.bind fun e c he => ?_
    obtain ⟨he, rfl⟩ := he
    exact Meets.refuse_bind hcomma (Meets.pure ⟨⟨e, rfl, he⟩, rfl⟩)
  refine Meets.sees_bind (Meets.ite_neg (Bool.eq_false_iff.mp hsome) ?_)
  refine hargs.bind fun args c hc => ?_
  obtain ⟨hc, rfl⟩ := hc
  exact Meets.discard_bind (Meets.expect_bind hr (by simp) (Meets.pure ⟨hc, rfl⟩))

/-- A summit is as high as an expression can be that is no chain of operators. -/
theorem meets_summit {left : Nat} {ts rest : List Token} {fuel m : Nat}
    (hts : ts.map Token.kind = summit left) (hlimit : m + left ≤ nestingLimit)
    (hfuel : (ts ++ rest).length < fuel) (hrest : Closes [] (next rest)) :
    Meets (nestingLimit - 1) ⟨ts ++ rest, m⟩ (unary fuel) fun e c =>
      e.height = ceiling 0 left ∧ c = ⟨rest, m⟩ := by
  induction left generalizing ts rest fuel m with
  | zero =>
      obtain ⟨t, us, rfl, ht, hus⟩ := List.map_eq_cons_iff.mp hts
      obtain rfl := List.map_eq_nil_iff.mp hus
      refine (meets_string ht (by omega)).mono fun e c he => ?_
      rw [he.1]
      exact ⟨rfl, he.2⟩
  | succ left ih =>
      obtain ⟨t, us, rfl, ht, hus⟩ := List.map_eq_cons_iff.mp hts
      obtain ⟨l, us, rfl, hl, hus⟩ := List.map_eq_cons_iff.mp hus
      obtain ⟨vs, ws, rfl, hvs, hws⟩ := List.map_eq_append_iff.mp hus
      obtain ⟨r, ws, rfl, hr, hnil⟩ := List.map_eq_cons_iff.mp hws
      obtain rfl := List.map_eq_nil_iff.mp hnil
      obtain ⟨fuel, rfl⟩ := Nat.exists_eq_add_one_of_ne_zero (show fuel ≠ 0 by omega)
      simp only [List.cons_append, List.append_assoc, List.nil_append, List.length_cons] at hfuel ⊢
      have hopens : opens (next (vs ++ r :: rest)) = true :=
        (opens_slope (fun _ => opens_summit) Level.all hvs).opens_next _
      have hread : Meets (nestingLimit - 1) ⟨vs ++ r :: rest, m⟩ (expression fuel (unary fuel))
          fun e c => e.height = ceiling 0 left + 6 * left ∧ c = ⟨r :: rest, m⟩ := by
        have hcloses : Closes Level.all (next (r :: rest)) := closes_of_next hr rfl
        have hlength : (vs ++ r :: rest).length < fuel := by omega
        have hslope := meets_slope ih (by decide) hvs (show m + 1 + left ≤ nestingLimit by omega)
          hlength hcloses
        refine Meets.nested (show m ≤ nestingLimit - 1 by omega) (hslope.mono fun e c he => ?_)
        obtain ⟨hheight, rfl⟩ := he
        exact ⟨hheight, rfl⟩
      refine Meets.peek_bind ?_
      rw [current_kind, next_cons, ht]
      refine meets_call ht hl ((meets_argument hopens hr hread).mono fun args c hargs => ?_)
      obtain ⟨⟨e, rfl, he⟩, rfl⟩ := hargs
      refine ⟨?_, rfl⟩
      simp only [Expr.height, Expr.heightAll, ceiling]
      omega

/-- All levels of operators over a summit, as a whole expression at the end of input. -/
theorem meets_expression_summit {left : Nat} (hlimit : left < nestingLimit) {ts : List Token}
    {eoi : Token} {fuel : Nat} (hts : ts.map Token.kind = slope left (summit left) Level.all)
    (heoi : eoi.kind = .endOfInput) (hfuel : (ts ++ [eoi]).length < fuel) :
    Meets (nestingLimit - 1) ⟨ts ++ [eoi], 0⟩ (expression fuel (unary fuel)) fun e c =>
      e.height = chainCeiling 6 0 left ∧ c = ⟨[eoi], 0⟩ := by
  have hcloses : Closes Level.all (next [eoi]) := closes_of_next heoi rfl
  have hleft : 0 + 1 + left ≤ nestingLimit := by omega
  have hslope := meets_slope meets_summit (by decide) hts hleft hfuel hcloses
  refine Meets.nested (Nat.zero_le _) (hslope.mono fun e c he => ?_)
  obtain ⟨hheight, rfl⟩ := he
  refine ⟨?_, rfl⟩
  rw [hheight, chainCeiling, Nat.zero_add]
  rfl

/-! ## Reading a nest -/

/-- Functions inside of one another, and a `return` inside of the innermost. -/
def nest : Nat → List Kind
  | 0 => [.keyword .returnKw]
  | n + 1 => .keyword .functionKw :: .identifier :: .leftParen :: .rightParen :: .leftBrace ::
      (nest n ++ [.rightBrace])

theorem isPlain_nest (n : Nat) : ∀ kind ∈ nest n, kind.isPlain := by
  induction n with
  | zero => exact List.forall_mem_singleton.mpr rfl
  | succ n ih =>
      simp only [nest, List.forall_mem_cons, List.forall_mem_append]
      exact ⟨rfl, rfl, rfl, rfl, rfl, ih, rfl, by simp⟩

/-- Each function of a nest has six tokens. -/
theorem length_nest (n : Nat) : (nest n).length = 6 * n + 1 := by
  induction n with
  | zero => rfl
  | succ n ih =>
      simp only [nest, List.length_cons, List.length_append, List.length_nil, ih]
      omega

/-- A nest starts as a statement does. -/
theorem begins_nest {n : Nat} {ts : List Token} (hts : ts.map Token.kind = nest n)
    (rest : List Token) : begins (next (ts ++ rest)) = true := by
  cases n with
  | zero | succ =>
      obtain ⟨t, us, rfl, ht, _⟩ := List.map_eq_cons_iff.mp hts
      rw [List.cons_append, next_cons, ht]
      rfl

/-- What ends the statements of a block or a program is no semicolon. -/
theorem ne_semicolon_of_ends {rest : List Token}
    (h : next rest = .rightBrace ∨ next rest = .endOfInput) : next rest ≠ .semicolon := by
  obtain h | h := h <;> simp [h]

/-- A `return` of nothing, where a block or the input ends. -/
theorem meets_return {budget fuel n : Nat} {expr : Parser Expr} {blocks : Parser (List Stmt)}
    {t : Token} {rest : List Token} (ht : t.kind = .keyword .returnKw)
    (hrest : next rest = .rightBrace ∨ next rest = .endOfInput) :
    Meets budget ⟨t :: rest, n⟩ (statementBody fuel expr blocks) fun s c =>
      s = .giveBack none t.pos ∧ c = ⟨rest, n⟩ := by
  have hnone : ((⟨rest, n⟩ : Cursor).sees .rightBrace || (⟨rest, n⟩ : Cursor).sees .semicolon ||
      (⟨rest, n⟩ : Cursor).atEnd) = true := by
    obtain hrest | hrest := hrest <;> simp [Cursor.sees, Cursor.atEnd, current_kind, hrest]
  refine Meets.peek_bind ?_
  rw [current_kind, next_cons, ht]
  refine Meets.discard_bind (Meets.advance_bind (by simp [ht]) ?_)
  refine Meets.sees_bind (Meets.sees_bind (Meets.atEnd_bind (Meets.ite_pos hnone ?_)))
  exact Meets.pure ⟨rfl, rfl⟩

/-- One statement in braces. -/
theorem meets_block_single {budget fuel n : Nat} {p : Parser Stmt} {l r : Token}
    {ts rest : List Token} {P : Stmt → Prop} (hl : l.kind = .leftBrace) (hr : r.kind = .rightBrace)
    (hn : n ≤ budget) (hfuel : 1 < fuel) (hbegins : begins (next (ts ++ r :: rest)) = true)
    (h : Meets budget ⟨ts ++ r :: rest, n + 1⟩ p fun s c => P s ∧ c = ⟨r :: rest, n + 1⟩) :
    Meets budget ⟨l :: (ts ++ r :: rest), n⟩ (block fuel p) fun body c =>
      (∃ s, body = [s] ∧ P s) ∧ c = ⟨rest, n⟩ := by
  obtain ⟨k, rfl⟩ : ∃ j, fuel = j + 2 := ⟨fuel - 2, by omega⟩
  have hstop : ((⟨r :: rest, n + 1⟩ : Cursor).sees .rightBrace ||
      (⟨r :: rest, n + 1⟩ : Cursor).atEnd) = true := by
    rw [Cursor.sees_cons hr (by simp), Bool.true_or]
  have hbody : Meets budget ⟨ts ++ r :: rest, n + 1⟩ (statements (k + 2) p (k + 2)) fun body c =>
      (∃ s, body = [s] ∧ P s) ∧ c = ⟨r :: rest, n + 1⟩ := by
    rw [statements_eq]
    exact meets_single h (Nat.succ_pos _) hbegins (by simp [hr]) hstop not_stop_of_begins
  refine Meets.discard_bind (Meets.expect_bind hl (by simp) (Meets.nested hn ?_))
  refine hbody.bind fun body c hc => ?_
  obtain ⟨hc, rfl⟩ := hc
  exact Meets.discard_bind (Meets.expect_bind hr (by simp) (Meets.pure ⟨hc, rfl⟩))

/-- Each function of a nest takes one level and adds one to the depth. -/
theorem meets_nest {n fuel k m : Nat} {expr : Parser Expr} {ts rest : List Token}
    (hts : ts.map Token.kind = nest n) (hlimit : m + n ≤ nestingLimit) (hfuel : 1 < fuel)
    (hk : n < k) (hrest : next rest = .rightBrace ∨ next rest = .endOfInput) :
    Meets (nestingLimit - 1) ⟨ts ++ rest, m⟩ (statement fuel expr k) fun s c =>
      s.depth = n + 1 ∧ c = ⟨rest, m⟩ := by
  induction n generalizing ts rest k m with
  | zero =>
      obtain ⟨k, rfl⟩ := Nat.exists_eq_add_one_of_ne_zero (show k ≠ 0 by omega)
      obtain ⟨t, us, rfl, ht, hus⟩ := List.map_eq_cons_iff.mp hts
      obtain rfl := List.map_eq_nil_iff.mp hus
      refine meets_statement (ne_semicolon_of_ends hrest) ((meets_return ht hrest).mono ?_)
      rintro s c ⟨rfl, rfl⟩
      exact ⟨rfl, rfl⟩
  | succ n ih =>
      obtain ⟨k, rfl⟩ := Nat.exists_eq_add_one_of_ne_zero (show k ≠ 0 by omega)
      obtain ⟨f, us₁, rfl, hf, hus₁⟩ := List.map_eq_cons_iff.mp hts
      obtain ⟨name, us₂, rfl, hname, hus₂⟩ := List.map_eq_cons_iff.mp hus₁
      obtain ⟨l, us₃, rfl, hl, hus₃⟩ := List.map_eq_cons_iff.mp hus₂
      obtain ⟨r, us₄, rfl, hr, hus₄⟩ := List.map_eq_cons_iff.mp hus₃
      obtain ⟨b, us₅, rfl, hb, hus₅⟩ := List.map_eq_cons_iff.mp hus₄
      obtain ⟨body, vs, rfl, hbody, hvs⟩ := List.map_eq_append_iff.mp hus₅
      obtain ⟨b', ws, rfl, hb', hws⟩ := List.map_eq_cons_iff.mp hvs
      obtain rfl := List.map_eq_nil_iff.mp hws
      have hinner := ih hbody (show m + 1 + n ≤ nestingLimit by omega)
        (show n < k by omega) (show next (b' :: rest) = _ ∨ _ from .inl hb')
      have hblock := meets_block_single hb hb' (show m ≤ nestingLimit - 1 by omega) hfuel
        (begins_nest hbody _) hinner
      refine meets_statement (ne_semicolon_of_ends hrest) ?_
      simp only [List.cons_append, List.append_assoc, List.nil_append]
      refine meets_thunk hf hname hl hr (hblock.mono ?_)
      rintro _ c ⟨⟨s, rfl, hs⟩, rfl⟩
      refine ⟨?_, rfl⟩
      simp only [Stmt.depth, Stmt.depthAll, hs]
      omega

end Parse

/-- **Heights are attained.**  There is a source without a symbol that is read as an
expression as high as the limit allows. -/
theorem exists_height_eq :
    ∃ source tokens e, tokenize source = .ok tokens ∧ symbolCount tokens = 0 ∧
      parseSource source = .ok [.expression e] ∧ e.height = 196096 := by
  obtain ⟨source, ts, q, htokens, hts, hsymbols⟩ :=
    exists_tokenize_of_kinds (Parse.isPlain_slope (Parse.isPlain_summit 255) Level.all)
  have hfinish : (Token.finish q).kind = .endOfInput := rfl
  have hfuel := Nat.lt_succ_self (ts ++ [Token.finish q]).length
  have hopens := Parse.opens_slope (fun _ => Parse.opens_summit) Level.all hts
  have hmeets := Parse.meets_wholeProgram_expression hfinish hopens hfuel
    (Parse.meets_expression_summit (by decide) hts hfinish hfuel)
  obtain ⟨program, c, hok, e, rfl, he⟩ | ⟨hlimit, _⟩ := Parse.parseTokens_of_meets hfinish hmeets
  · refine ⟨source, _, e, htokens, hsymbols, by simp only [parseSource, htokens, hok], ?_⟩
    have hceiling := Parse.ceiling_nestingLimit 0
    have hsix : Parse.chainCeiling 6 0 255 + 1 = Parse.ceiling 0 nestingLimit :=
      Parse.chainCeiling_six 0 255
    omega
  · exact absurd hlimit (by decide)

/-- **Depths are attained.**  There is a source without a symbol in which statements
nest as deep as the limit allows. -/
theorem exists_depth_eq :
    ∃ source tokens program, tokenize source = .ok tokens ∧ symbolCount tokens = 0 ∧
      parseSource source = .ok program ∧ Stmt.depthAll program = 257 := by
  obtain ⟨source, ts, q, htokens, hts, hsymbols⟩ :=
    exists_tokenize_of_kinds (Parse.isPlain_nest nestingLimit)
  have hfinish : (Token.finish q).kind = .endOfInput := rfl
  have hlength : ts.length = 6 * nestingLimit + 1 := by
    rw [← List.length_map, hts, Parse.length_nest]
  have hfuel : nestingLimit < (ts ++ [Token.finish q]).length + 1 := by
    rw [List.length_append]
    omega
  have hone : 1 < (ts ++ [Token.finish q]).length + 1 := Nat.lt_of_le_of_lt (by decide) hfuel
  have hends : Parse.next [Token.finish q] = .rightBrace ∨
      Parse.next [Token.finish q] = .endOfInput := .inr hfinish
  have hmeets := Parse.meets_wholeProgram_single hfinish hone (Parse.begins_nest hts _)
    (Parse.meets_nest hts (Nat.le_of_eq (Nat.zero_add _)) hone hfuel hends)
  obtain ⟨program, c, hok, s, rfl, hs⟩ | ⟨hlimit, _⟩ := Parse.parseTokens_of_meets hfinish hmeets
  · refine ⟨source, _, [s], htokens, hsymbols, by simp only [parseSource, htokens, hok], ?_⟩
    simp only [Stmt.depthAll, hs]
    rfl
  · exact absurd hlimit (by decide)

/-- **What the nesting limit guarantees without aggregates.**  A source that has no
symbol of an aggregate among its characters, or at least none among its tokens, and that
is accepted has statements that nest at most 257 deep, and no expression of it is higher
than 196096.  Neither number can be lowered: both are attained. -/
theorem limits_without_symbols :
    (∀ source program, (signCount source = 0 ∨
        ∃ tokens, tokenize source = .ok tokens ∧ symbolCount tokens = 0) →
      parseSource source = .ok program →
      Stmt.depthAll program ≤ 257 ∧ ∀ e ∈ Stmt.expressionsAll program, e.height ≤ 196096) ∧
    (∃ source tokens program, tokenize source = .ok tokens ∧ symbolCount tokens = 0 ∧
      parseSource source = .ok program ∧ Stmt.depthAll program = 257) ∧
    ∃ source tokens e, tokenize source = .ok tokens ∧ symbolCount tokens = 0 ∧
      parseSource source = .ok [.expression e] ∧ e.height = 196096 := by
  refine ⟨fun source program hsource h => ?_, exists_depth_eq, exists_height_eq⟩
  exact bounded_without_symbols hsource h

/-- A source with symbols in a string and in a comment only. -/
theorem limits_without_symbols_quoted :
    let source := "x = \"∑\" # ∏"
    let program : List Stmt := [.assign "x" (.string "∑") ⟨1, 1⟩]
    signCount source = 2 ∧ parseSource source = .ok program ∧
      Stmt.depthAll program ≤ 257 ∧ ∀ e ∈ Stmt.expressionsAll program, e.height ≤ 196096 := by
  intro source program
  have htokens : tokenize source = .ok [⟨.identifier, "x", ⟨1, 1⟩⟩,
      ⟨.operator .assign, "=", ⟨1, 3⟩⟩, ⟨.string "∑", "\"∑\"", ⟨1, 5⟩⟩,
      .finish ⟨1, 12⟩] := by decide
  have hparse : parseSource source = .ok program := by decide +kernel
  exact ⟨by decide, hparse, limits_without_symbols.1 _ _ (.inr ⟨_, htokens, by decide⟩) hparse⟩

end Abacus
