import Abacus.Value.Basic

/-!
# Abacus.Bindings

Names bound to values.  Binding a name again replaces its value; `lookup_put`
is the law of reading after writing.  `sorted` lists the bindings in ascending
order of names.
-/

namespace Abacus

/-- Names with their values, each name once. -/
abbrev Bindings := List (String × Value)

namespace Bindings

/-- The value of a name. -/
def lookup (name : String) : Bindings → Option Value
  | [] => none
  | (n, v) :: rest => if n = name then some v else lookup name rest

/-- Bind a name: an old binding is replaced in place, a new one goes last. -/
def put (name : String) (v : Value) : Bindings → Bindings
  | [] => [(name, v)]
  | (n, w) :: rest => if n = name then (n, v) :: rest else (n, w) :: put name v rest

/-- The bindings in ascending order of names. -/
def sorted (bs : Bindings) : Bindings := bs.mergeSort fun a b => !decide (b.1 < a.1)

/-- A name reads as what it was last bound to. -/
theorem lookup_put (name other : String) (v : Value) (bs : Bindings) :
    lookup other (put name v bs) = if name = other then some v else lookup other bs := by
  induction bs with
  | nil => simp [put, lookup]
  | cons b bs ih =>
    obtain ⟨n, w⟩ := b
    by_cases hn : n = name <;> by_cases ho : n = other <;> by_cases h : name = other <;>
      simp_all [put, lookup]

/-- Of two bindings of one name the last stands. -/
theorem put_put (name : String) (v w : Value) (bs : Bindings) :
    put name w (put name v bs) = put name w bs := by
  induction bs with
  | nil => simp [put]
  | cons b bs ih =>
    obtain ⟨n, u⟩ := b
    by_cases hn : n = name <;> simp [put, hn, ih]

end Bindings

end Abacus
