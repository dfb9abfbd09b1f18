import Abacus.Eval.Operator
import Abacus.Eval.Resolve
import Mathlib.Data.List.Forall2
import Mathlib.Data.Option.Basic

/-!
# Abacus.Proofs.Value.Alike

Values that differ at most in how their closures are kept.  A `Likeness` says
which scopes, identity numbers and bodies stand for each other; two values are
`Alike` if they are the same up to that.  A program cannot tell alike values
apart: operators, conversions and builtins give alike results on alike operands
(`alike_apply`, `alike_reply`), and the same fault where they give none.
-/

namespace Abacus

/-! ## Likeness -/

/-- Which scopes, identity numbers and bodies of closures stand for each other. -/
structure Likeness where
  scope : FrameId → FrameId → Prop
  identity : Nat → Nat → Prop
  code : List Stmt → List Stmt → Prop

namespace Likeness

/-- Everything stands for itself only. -/
def same : Likeness := ⟨Eq, Eq, Eq⟩

/-- What stands for each other in the first does so in the second. -/
structure Le (L L' : Likeness) : Prop where
  scope : ∀ a b, L.scope a b → L'.scope a b
  identity : ∀ i j, L.identity i j → L'.identity i j
  code : ∀ b b', L.code b b' → L'.code b b'

/-- Closures are told apart on one side exactly if they are on the other. -/
def Faithful (L : Likeness) : Prop :=
  ∀ i j i' j', L.identity i j → L.identity i' j' → (i = i' ↔ j = j')

/-- Identity tells closures apart as it does. -/
theorem faithful_same : same.Faithful := by
  rintro i j i' j' rfl rfl
  exact Iff.rfl

/-- Two closures that stand for each other. -/
structure Closures (L : Likeness) (f g : Closure) : Prop where
  name : f.name = g.name
  params : f.params = g.params
  body : L.code f.body g.body
  scope : L.scope f.scope g.scope
  identity : L.identity f.identity g.identity

/-- A wider likeness relates more closures. -/
theorem Closures.mono {L L' : Likeness} (hL : L.Le L') {f g : Closure} (h : L.Closures f g) :
    L'.Closures f g :=
  ⟨h.name, h.params, hL.code _ _ h.body, hL.scope _ _ h.scope, hL.identity _ _ h.identity⟩

/-- Closures that stand for themselves only are equal. -/
theorem closures_same_iff {f g : Closure} : same.Closures f g ↔ f = g := by
  constructor
  · rintro ⟨hname, hparams, hbody, hscope, hidentity⟩
    cases f
    cases g
    simp_all [same]
  · rintro rfl
    exact ⟨rfl, rfl, rfl, rfl, rfl⟩

end Likeness

/-! ## Alike values -/

namespace Value

/-- Two values that are the same up to a likeness of their closures. -/
inductive Alike (L : Likeness) : Value → Value → Prop
  | number (n : Float) : Alike L (.number n) (.number n)
  | string (s : String) : Alike L (.string s) (.string s)
  | boolean (b : Bool) : Alike L (.boolean b) (.boolean b)
  | list {vs ws : List Value} (h : List.Forall₂ (Alike L) vs ws) : Alike L (.list vs) (.list ws)
  | function {f g : Closure} (h : L.Closures f g) : Alike L (.function f) (.function g)
  | builtin (b : Builtin) : Alike L (.builtin b) (.builtin b)
  | none : Alike L .none .none

namespace Alike

variable {L L' : Likeness} {v w : Value} {vs ws : List Value}

/-- What holds of alike values of every form holds of all, if for lists it
follows from what holds of their elements. -/
@[elab_as_elim]
theorem forms {P : Value → Value → Prop} {v w : Value} (h : Alike L v w)
    (number : ∀ n, P (.number n) (.number n)) (string : ∀ s, P (.string s) (.string s))
    (boolean : ∀ b, P (.boolean b) (.boolean b))
    (list : ∀ vs ws, List.Forall₂ P vs ws → P (.list vs) (.list ws))
    (function : ∀ f g, L.Closures f g → P (.function f) (.function g))
    (builtin : ∀ b, P (.builtin b) (.builtin b)) (none : P .none .none) : P v w :=
  @Alike.rec L (fun v w _ => P v w) (fun vs ws _ => List.Forall₂ P vs ws)
    number string boolean (fun _ => list _ _) (fun h => function _ _ h) builtin none
    .nil (fun _ _ => .cons) v w h

/-- A wider likeness relates more values. -/
theorem mono (hL : L.Le L') (h : Alike L v w) : Alike L' v w :=
  h.forms .number .string .boolean (fun _ _ => .list) (fun _ _ hfg => .function (hfg.mono hL))
    .builtin .none

/-- Values with the same closures are equal. -/
theorem eq (h : Alike .same v w) : v = w := by
  refine h.forms (fun _ => rfl) (fun _ => rfl) (fun _ => rfl) ?_ ?_ (fun _ => rfl) rfl
  · intro vs ws hvs
    rw [List.forall₂_eq_eq_eq] at hvs
    rw [hvs]
  · intro f g hfg
    rw [Likeness.closures_same_iff.mp hfg]

mutual
/-- A value is like itself. -/
theorem refl : ∀ v : Value, Alike .same v v
  | .number n => .number n
  | .string s => .string s
  | .boolean b => .boolean b
  | .list vs => .list (refl_all vs)
  | .function _ => .function (Likeness.closures_same_iff.mpr rfl)
  | .builtin b => .builtin b
  | .none => .none

theorem refl_all : ∀ vs : List Value, List.Forall₂ (Alike .same) vs vs
  | [] => .nil
  | v :: vs => .cons (refl v) (refl_all vs)
end

end Alike

/-- Up to no difference at all, to be alike is to be equal. -/
theorem alike_same_iff {v w : Value} : v.Alike .same w ↔ v = w := by
  constructor
  · exact Alike.eq
  · rintro rfl
    exact .refl v

theorem rel_alike_same (v? : Option Value) : Option.Rel (Alike .same) v? v? := by
  cases v? with
  | none => exact .none
  | some v => exact .some (.refl v)

namespace Alike

variable {L : Likeness} {v w : Value} {vs ws : List Value}

/-- Alike values have the same type. -/
theorem type_eq (h : Alike L v w) : v.type = w.type := by cases h <;> rfl

/-- Alike values print alike: a function prints its name only. -/
theorem display_eq (h : Alike L v w) : v.display = w.display := by
  refine h.forms (fun _ => rfl) (fun _ => rfl) (fun _ => rfl) ?_ ?_ (fun _ => rfl) rfl
  · intro vs ws hvs
    have hall : displays vs = displays ws := by
      induction hvs with
      | nil => rfl
      | cons hv _ ih => rw [displays, displays, hv, ih]
    rw [display, display, hall]
  · intro f g hfg
    rw [display, display, hfg.name]

theorem displays_eq (h : List.Forall₂ (Alike L) vs ws) : displays vs = displays ws := by
  induction h with
  | nil => rfl
  | cons hv _ ih => rw [displays, displays, hv.display_eq, ih]

/-- Equality does not tell alike values apart. -/
theorem same_eq (hL : L.Faithful) {v' w' : Value} (hv : Alike L v w) (hv' : Alike L v' w') :
    v.same v' = w.same w' := by
  suffices h : ∀ v' w', Alike L v' w' → v.same v' = w.same w' from h v' w' hv'
  refine hv.forms ?number ?string ?boolean ?list ?function ?builtin ?none
  case list =>
    intro vs ws ih v' w' h
    cases h with
    | list hvs' =>
        rename_i vs' ws'
        show allSame vs vs' = allSame ws ws'
        induction ih generalizing vs' ws' with
        | nil => cases hvs' <;> rfl
        | cons hhead _ ih =>
            cases hvs' with
            | nil => rfl
            | cons h hs => rw [allSame, allSame, hhead _ _ h, ih hs]
    | _ => rfl
  case function =>
    intro f g hfg v' w' h
    cases h with
    | function hfg' =>
        have hiff := hL _ _ _ _ hfg.identity hfg'.identity
        simp only [same, hiff]
    | _ => rfl
  all_goals
    intros
    rename_i h
    cases h <;> rfl

end Alike

end Value

/-! ## Results -/

/-- Two results that are both values, related by `A`, or both the same fault,
one of the sort `E`. -/
inductive Concur {ε α β : Type} (E : ε → Prop) (A : α → β → Prop) : Except ε α → Except ε β → Prop
  | ok {a : α} {b : β} (h : A a b) : Concur E A (.ok a) (.ok b)
  | error {e : ε} (h : E e) : Concur E A (.error e) (.error e)

namespace Concur

variable {ε α β γ δ : Type} {E : ε → Prop} {A : α → β → Prop} {B : γ → δ → Prop}

/-- Results that concur do so for a weaker relation. -/
theorem mono {A' : α → β → Prop} {x : Except ε α} {y : Except ε β} (h : Concur E A x y)
    (hA : ∀ a b, A a b → A' a b) : Concur E A' x y := by
  cases h with
  | ok hab => exact .ok (hA _ _ hab)
  | error he => exact .error he

/-- One computation after another. -/
theorem bind {x : Except ε α} {y : Except ε β} {f : α → Except ε γ} {g : β → Except ε δ}
    (h : Concur E A x y) (hf : ∀ a b, A a b → Concur E B (f a) (g b)) :
    Concur E B (x >>= f) (y >>= g) := by
  cases h with
  | ok hab => exact hf _ _ hab
  | error he => exact .error he

/-- A value that is only wrapped up. -/
theorem map {x : Except ε α} {y : Except ε β} {f : α → γ} {g : β → δ} (h : Concur E A x y)
    (hf : ∀ a b, A a b → B (f a) (g b)) : Concur E B (x.map f) (y.map g) := by
  cases h with
  | ok hab => exact .ok (hf _ _ hab)
  | error he => exact .error he

/-- A choice whose condition both sides share. -/
theorem ite {c : Prop} [Decidable c] {x x' : Except ε α} {y y' : Except ε β}
    (h : Concur E A x y) (h' : Concur E A x' y') :
    Concur E A (if c then x else x') (if c then y else y') := by
  split
  · exact h
  · exact h'

/-- A computation on the same data concurs with itself. -/
theorem refl (hE : ∀ e, E e) (x : Except ε α) : Concur E Eq x x := by
  cases x with
  | ok a => exact .ok rfl
  | error e => exact .error (hE e)

end Concur

/-- What stands at a place of a program where a fault may be met. -/
inductive Site where
  /-- A name that is read or called. -/
  | name (name : String)
  | operation (op : BinaryOp)
  | sign (op : UnaryOp)
  | fold (kind : Aggregate)
  | keyword (word : Keyword)

/-- The faults of names and values that may be met at a site.  Those that are about
the control of a run are apart. -/
inductive MetAt : Site → RuntimeFault → Prop
  | type (site : Site) (fault : TypeFault) : MetAt site (.type fault)
  | undefinedName (name : String) : MetAt (.name name) (.undefinedName name)
  | arity (name callee : String) (expected : Arity) (found : Nat) :
      MetAt (.name name) (.arity callee expected found)
  | domain (name builtin : String) (fault : DomainFault) :
      MetAt (.name name) (.domain builtin fault)
  | divisionByZero {op : BinaryOp} (hop : op = .divide ∨ op = .modulo) :
      MetAt (.operation op) .divisionByZero
  | notIterable (got : ValueType) : MetAt (.keyword .forKw) (.notIterable got)

/-- Two results of an operation on values at a site that concur. -/
abbrev Agreed {α β : Type} (site : Site) (A : α → β → Prop) :
    Except RuntimeFault α → Except RuntimeFault β → Prop := Concur (MetAt site) A

/-! ## Operators -/

section operators

variable {L : Likeness} {v w v' w' : Value} {site : Site}

theorem agreed_type {α β : Type} {A : α → β → Prop} (fault : TypeFault) :
    Agreed site A (.error (.type fault)) (.error (.type fault)) := .error (.type site fault)

/-- A value that has to be a truth value is the same one on both sides. -/
theorem alike_expectBoolean (role : Role) (h : v.Alike L w) :
    Agreed site Eq (v.expectBoolean role) (w.expectBoolean role) := by
  cases h with
  | boolean b => exact .ok rfl
  | _ => exact agreed_type _

/-- A value that has to be a number is the same one on both sides. -/
theorem alike_expectNumber (role : Role) (h : v.Alike L w) :
    Agreed site Eq (v.expectNumber role) (w.expectNumber role) := by
  cases h with
  | number n => exact .ok rfl
  | _ => exact agreed_type _

/-- A loop goes through alike items. -/
theorem alike_items (h : v.Alike L w) :
    Agreed (.keyword .forKw) (List.Forall₂ (Value.Alike L)) v.items w.items := by
  cases h with
  | list hvs => exact .ok hvs
  | string s =>
      refine .ok ?_
      rw [List.forall₂_map_left_iff, List.forall₂_map_right_iff, List.forall₂_same]
      exact fun c _ => .string c.toString
  | _ => exact .error (.notIterable _)

/-- Signs and negation. -/
theorem alike_unary (op : UnaryOp) (h : v.Alike L w) :
    Agreed (.sign op) (Value.Alike L) (op.apply v) (op.apply w) := by
  cases op with
  | negate => exact (alike_expectNumber _ h).map fun a b hab => hab ▸ .number _
  | plus => exact (alike_expectNumber _ h).map fun a b hab => hab ▸ .number _
  | not => exact (alike_expectBoolean _ h).map fun a b hab => hab ▸ .boolean _

/-- Sums of numbers and concatenations of strings. -/
theorem alike_sum (h : v.Alike L w) (h' : v'.Alike L w') :
    Agreed site (Value.Alike L) (BinaryOp.sum v v') (BinaryOp.sum w w') := by
  cases h <;> cases h'
  case number.number => exact .ok (.number _)
  case string.string => exact .ok (.string _)
  all_goals exact agreed_type _

/-- Differences, products and powers. -/
theorem alike_numeric (op : BinaryOp) (h : v.Alike L w) (h' : v'.Alike L w') :
    Agreed site (Value.Alike L) (op.numeric v v') (op.numeric w w') := by
  cases h <;> cases h'
  case number.number => exact .ok (.number _)
  all_goals exact agreed_type _

/-- Quotients and remainders, which fail at zero. -/
theorem alike_quotient {op : BinaryOp} (hop : op = .divide ∨ op = .modulo) (h : v.Alike L w)
    (h' : v'.Alike L w') :
    Agreed (.operation op) (Value.Alike L) (op.quotient v v') (op.quotient w w') := by
  cases h <;> cases h'
  case number.number => exact .ite (.error (.divisionByZero hop)) (.ok (.number _))
  all_goals exact agreed_type _

/-- Comparisons of numbers and of strings. -/
theorem alike_ordering (op : BinaryOp) (h : v.Alike L w) (h' : v'.Alike L w') :
    Agreed site (Value.Alike L) (op.ordering v v') (op.ordering w w') := by
  cases h <;> cases h'
  case number.number => exact .ok (.boolean _)
  case string.string => exact .ok (.boolean _)
  all_goals exact agreed_type _

/-- Equality; closures are told apart by their identity, faithfully. -/
theorem alike_equality (hL : L.Faithful) (h : v.Alike L w) (h' : v'.Alike L w') :
    Agreed site Eq (BinaryOp.equality v v') (BinaryOp.equality w w') := by
  unfold BinaryOp.equality
  rw [h.type_eq, h'.type_eq, Value.Alike.same_eq hL h h']
  exact .ite (.ok rfl) (agreed_type _)

/-- Conjunction and disjunction of values that are both known. -/
theorem alike_logical (op : BinaryOp) (h : v.Alike L w) (h' : v'.Alike L w') :
    Agreed site (Value.Alike L) (op.logical v v') (op.logical w w') := by
  refine (alike_expectBoolean _ h).bind ?_
  rintro x _ rfl
  refine (alike_expectBoolean _ h').bind ?_
  rintro y _ rfl
  exact .ok (.boolean _)

/-- Operators give alike results on alike operands, or the same fault. -/
theorem alike_apply (hL : L.Faithful) (op : BinaryOp) (h : v.Alike L w) (h' : v'.Alike L w') :
    Agreed (.operation op) (Value.Alike L) (op.apply v v') (op.apply w w') := by
  cases op with
  | add => exact alike_sum h h'
  | subtract | multiply | power => exact alike_numeric _ h h'
  | divide => exact alike_quotient (.inl rfl) h h'
  | modulo => exact alike_quotient (.inr rfl) h h'
  | less | lessEqual | greater | greaterEqual => exact alike_ordering _ h h'
  | and | or => exact alike_logical _ h h'
  | equal | notEqual => exact (alike_equality hL h h').map fun a b hab => hab ▸ .boolean _

end operators

/-! ## Builtins -/

/- Builtins look at the type of an argument and at its text or number, which alike values
share, and hand on the values that they are given.  One lemma for each body, then all of them
together. -/

section builtins

variable {L : Likeness} {args args' : List Value}

/-- Two answers of builtins that concur. -/
abbrev Answered {α β : Type} (A : α → β → Prop) :
    Except NativeFault α → Except NativeFault β → Prop := Concur (fun _ => True) A

/-- Two replies that write the same text and whose answers concur. -/
structure Reply.Alike (L : Likeness) (r r' : Reply) : Prop where
  text : r.text = r'.text
  answer : Answered (Value.Alike L) r.answer r'.answer

theorem Reply.Alike.refl (r : Reply) : Reply.Alike .same r r := by
  refine ⟨rfl, (Concur.refl (fun _ => trivial) r.answer).mono ?_⟩
  rintro v _ rfl
  exact .refl v

theorem alike_silent {a a' : Answer} (h : Answered (Value.Alike L) a a') :
    Reply.Alike L (.silent a) (.silent a') := ⟨rfl, h⟩

namespace Builtin

/-- A numeric argument is the same number on both sides. -/
theorem alike_numberAt (h : List.Forall₂ (Value.Alike L) args args') (index : Nat) :
    Answered Eq (numberAt args index) (numberAt args' index) := by
  unfold numberAt
  -- the message counts from the first argument, whatever is left of the list
  generalize index + 1 = position
  induction h generalizing index with
  | nil => exact .error trivial
  | cons hv _ ih =>
      cases index with
      | zero =>
          cases hv with
          | number n => exact .ok rfl
          | _ => exact .error trivial
      | succ index => exact ih index

theorem alike_firstOf (h : List.Forall₂ (Value.Alike L) args args') :
    Answered (Value.Alike L) (firstOf args) (firstOf args') := by
  cases h with
  | nil => exact .error trivial
  | cons hv _ => exact .ok hv

theorem alike_squareRoot (h : List.Forall₂ (Value.Alike L) args args') :
    Answered (Value.Alike L) (squareRoot args) (squareRoot args') := by
  refine (alike_numberAt h 0).bind ?_
  rintro x _ rfl
  exact .ite (.error trivial) (.ok (.number _))

/-- The inverse functions, which are not defined everywhere. -/
theorem alike_inverse (f : Float → Float) (h : List.Forall₂ (Value.Alike L) args args') :
    Answered (Value.Alike L) (inverse f args) (inverse f args') := by
  refine (alike_numberAt h 0).bind ?_
  rintro x _ rfl
  exact .ite (.error trivial) (.ok (.number _))

theorem alike_logarithm (h : List.Forall₂ (Value.Alike L) args args') :
    Answered (Value.Alike L) (logarithm args) (logarithm args') := by
  refine (alike_numberAt h 0).bind ?_
  rintro x _ rfl
  refine .ite (.error trivial) ?_
  rw [h.length_eq]
  refine .ite (.ok (.number _)) ?_
  refine (alike_numberAt h 1).bind ?_
  rintro base _ rfl
  exact .ite (.error trivial) (.ok (.number _))

theorem alike_powerOf (h : List.Forall₂ (Value.Alike L) args args') :
    Answered (Value.Alike L) (powerOf args) (powerOf args') := by
  refine (alike_numberAt h 0).bind ?_
  rintro x _ rfl
  refine (alike_numberAt h 1).bind ?_
  rintro y _ rfl
  exact .ok (.number _)

/-- The best of the arguments from an index on, by induction on them. -/
theorem alike_bestFrom (better : Float → Float → Float)
    (h : List.Forall₂ (Value.Alike L) args args') (index : Nat) (best : Float) :
    Answered Eq (bestFrom better index args best) (bestFrom better index args' best) := by
  induction h generalizing index best with
  | nil => exact .ok rfl
  | cons hv _ ih =>
      cases hv with
      | number n => exact ih (index + 1) (better best n)
      | _ => exact .error trivial

theorem alike_bestOf (better : Float → Float → Float)
    (h : List.Forall₂ (Value.Alike L) args args') :
    Answered (Value.Alike L) (bestOf better args) (bestOf better args') := by
  refine (alike_numberAt h 0).bind ?_
  rintro first _ rfl
  have htail : List.Forall₂ (Value.Alike L) args.tail args'.tail := by
    cases h with
    | nil => exact .nil
    | cons _ hs => exact hs
  refine (alike_bestFrom better htail 1 first).bind ?_
  rintro best _ rfl
  exact .ok (.number _)

theorem alike_lengthOf (h : List.Forall₂ (Value.Alike L) args args') :
    Answered (Value.Alike L) (lengthOf args) (lengthOf args') := by
  refine (alike_firstOf h).bind ?_
  intro v w hvw
  cases hvw with
  | string s => exact .ok (.number _)
  | list hvs =>
      simp only [hvs.length_eq]
      exact .ok (.number _)
  | _ => exact .error trivial

theorem alike_rangeOf (h : List.Forall₂ (Value.Alike L) args args') :
    Answered (Value.Alike L) (rangeOf args) (rangeOf args') := by
  unfold rangeOf
  rw [h.length_eq]
  extract_lets fromStart fromStart'
  have hstart : ∀ start, Answered (Value.Alike L) (fromStart start) (fromStart' start) := by
    intro start
    refine (alike_numberAt h _).bind ?_
    rintro stop _ rfl
    extract_lets byStep
    have hstep : ∀ step, Answered (Value.Alike L) (byStep step) (byStep step) := by
      intro step
      refine .ite (.error trivial) (.ite (.error trivial) (.ite (.error trivial) (.ok (.list ?_))))
      rw [progression, List.forall₂_map_left_iff, List.forall₂_map_right_iff, List.forall₂_same]
      exact fun i _ => .number _
    refine .ite ((alike_numberAt h 2).bind ?_) (hstep 1)
    rintro step _ rfl
    exact hstep step
  refine .ite (hstart 0) ((alike_numberAt h 0).bind ?_)
  rintro start _ rfl
  exact hstart start

theorem alike_textOf (h : List.Forall₂ (Value.Alike L) args args') :
    Answered (Value.Alike L) (textOf args) (textOf args') := by
  refine (alike_firstOf h).bind ?_
  intro v w hvw
  rw [hvw.display_eq]
  exact .ok (.string _)

theorem alike_numberOf (h : List.Forall₂ (Value.Alike L) args args') :
    Answered (Value.Alike L) (numberOf args) (numberOf args') := by
  refine (alike_firstOf h).bind ?_
  intro v w hvw
  cases hvw with
  | number n => exact .ok (.number n)
  | string s =>
      dsimp only
      cases Number.readTrimmed? s with
      | some n => exact .ok (.number n)
      | none => exact .error trivial
  | _ => exact .error trivial

/-- Builtins give alike replies on alike arguments, if those of the hosts do. -/
theorem alike_reply {host host' : String → List Value → Reply}
    (hhost : ∀ name, Reply.Alike L (host name args) (host' name args')) (b : Builtin)
    (h : List.Forall₂ (Value.Alike L) args args') :
    Reply.Alike L (b.reply host args) (b.reply host' args') := by
  cases b with
  | elementary f =>
      exact alike_silent ((alike_numberAt h 0).map fun x y hxy => hxy ▸ .number _)
  | sqrt => exact alike_silent (alike_squareRoot h)
  | asin => exact alike_silent (alike_inverse _ h)
  | acos => exact alike_silent (alike_inverse _ h)
  | log => exact alike_silent (alike_logarithm h)
  | pow => exact alike_silent (alike_powerOf h)
  | min => exact alike_silent (alike_bestOf _ h)
  | max => exact alike_silent (alike_bestOf _ h)
  | print =>
      refine ⟨?_, .ok .none⟩
      show line args = line args'
      rw [line, line, Value.Alike.displays_eq h]
  | len => exact alike_silent (alike_lengthOf h)
  | range => exact alike_silent (alike_rangeOf h)
  | str => exact alike_silent (alike_textOf h)
  | num => exact alike_silent (alike_numberOf h)
  | foreign name arity => exact hhost name

end Builtin

end builtins

/-! ## Bindings -/

/-- Bindings of the same names, in the same order, to alike values. -/
def Bindings.Alike (L : Likeness) : Bindings → Bindings → Prop :=
  List.Forall₂ fun b b' => b.1 = b'.1 ∧ b.2.Alike L b'.2

namespace Bindings.Alike

variable {L : Likeness} {bs bs' : Bindings}

/-- A name is bound on both sides or on neither, to alike values. -/
theorem lookup (h : Bindings.Alike L bs bs') (name : String) :
    Option.Rel (Value.Alike L) (Bindings.lookup name bs) (Bindings.lookup name bs') := by
  induction h with
  | nil => exact .none
  | @cons b b' bs bs' hb _ ih =>
      obtain ⟨n, v⟩ := b
      obtain ⟨n', v'⟩ := b'
      obtain ⟨rfl, hv⟩ := hb
      by_cases hn : n = name
      · simp only [Bindings.lookup, hn, if_true]
        exact .some hv
      · simp only [Bindings.lookup, hn, if_false]
        exact ih

/-- Binding alike values keeps bindings alike. -/
theorem put (h : Bindings.Alike L bs bs') (name : String) {v v' : Value} (hv : v.Alike L v') :
    Bindings.Alike L (Bindings.put name v bs) (Bindings.put name v' bs') := by
  induction h with
  | nil => exact .cons ⟨rfl, hv⟩ .nil
  | @cons b b' bs bs' hb hbs ih =>
      obtain ⟨n, u⟩ := b
      obtain ⟨n', u'⟩ := b'
      obtain ⟨rfl, hu⟩ := hb
      by_cases hn : n = name
      · simp only [Bindings.put, hn, if_true]
        exact .cons ⟨rfl, hv⟩ hbs
      · simp only [Bindings.put, hn, if_false]
        exact .cons ⟨rfl, hu⟩ ih

/-- The order of names does not depend on the values. -/
theorem sorted (h : Bindings.Alike L bs bs') : Bindings.Alike L bs.sorted bs'.sorted := by
  -- sort the pairs of bindings, by the common name of each
  obtain ⟨ps, hps, rfl, rfl⟩ : ∃ ps : List ((String × Value) × (String × Value)),
      (∀ p ∈ ps, p.1.1 = p.2.1 ∧ p.1.2.Alike L p.2.2) ∧ ps.map Prod.fst = bs ∧
        ps.map Prod.snd = bs' := by
    induction h with
    | nil => exact ⟨[], by simp, rfl, rfl⟩
    | @cons b b' _ _ hb _ ih =>
        obtain ⟨ps, hps, rfl, rfl⟩ := ih
        exact ⟨(b, b') :: ps, List.forall_mem_cons.mpr ⟨hb, hps⟩, rfl, rfl⟩
  have hfirst : (ps.mergeSort fun p q => !decide (q.1.1 < p.1.1)).map Prod.fst =
      Bindings.sorted (ps.map Prod.fst) := List.map_mergeSort fun _ _ _ _ => rfl
  have hsecond : (ps.mergeSort fun p q => !decide (q.1.1 < p.1.1)).map Prod.snd =
      Bindings.sorted (ps.map Prod.snd) := by
    refine List.map_mergeSort fun p hp q hq => ?_
    rw [(hps p hp).1, (hps q hq).1]
  rw [← hfirst, ← hsecond, Bindings.Alike, List.forall₂_map_left_iff, List.forall₂_map_right_iff,
    List.forall₂_same]
  exact fun p hp => hps p (List.mem_mergeSort.mp hp)

end Bindings.Alike

/-- Searches along related lists find related things, if they do at each place. -/
theorem rel_findSome? {α β γ δ : Type} {R : α → β → Prop} {A : γ → δ → Prop} {xs : List α}
    {ys : List β} {f : α → Option γ} {g : β → Option δ} (h : List.Forall₂ R xs ys)
    (hf : ∀ x y, R x y → Option.Rel A (f x) (g y)) :
    Option.Rel A (xs.findSome? f) (ys.findSome? g) := by
  induction h with
  | nil => exact .none
  | @cons x y xs ys hxy _ ih =>
      have hhead := hf x y hxy
      rw [List.findSome?_cons, List.findSome?_cons]
      generalize f x = first, g y = first' at hhead ⊢
      cases hhead with
      | none => exact ih
      | some hab => exact .some hab

end Abacus
