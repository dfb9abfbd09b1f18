import Abacus.Proofs.Token.Spelling
import Mathlib.Data.List.Induction

/-!
# Abacus.Proofs.Token.Scanned

What a scan is made of.  `Scanned before rest items slices` follows a scan piece
by piece: `before` is the text that was read, `rest` the text that is left,
`items` what the rest contributes, and `slices` where in the text each item was
read.  The place of a piece is not carried along, it is `Position.after before`:
counted off the text in front of it.  Every scan is of this form
(`exists_scanned`), so facts about scans are proved by induction on `Scanned` and
do not mention fuel.
-/

namespace Abacus

/-! ## Places in a text -/

/-- The place where a text ends: one line more than it has line breaks, and one
column more than it has characters after the last of them. -/
def Position.after (before : List Char) : Position :=
  ⟨1 + before.count '\n', 1 + (before.reverse.takeWhile (· ≠ '\n')).length⟩

/-- Reading a text from the first place on leads to the place where it ends. -/
theorem Position.first_advance (before : List Char) :
    Position.first.advance before = .after before := by
  induction before using List.reverseRecOn with
  | nil => rfl
  | append_singleton cs c ih =>
      rw [advance_append, ih, advance_cons, advance_nil, after, step]
      by_cases hc : c = '\n'
      · simp [hc, after, Nat.add_assoc]
      · simp [hc, after, Nat.add_comm]

theorem Position.after_advance (before text : List Char) :
    (Position.after before).advance text = .after (before ++ text) := by
  rw [← first_advance, ← first_advance, advance_append]

/-! ## Scans piece by piece -/

namespace Scan

/-- A part of a text: the offset of its first character and that after its last. -/
structure Slice where
  start : Nat
  stop : Nat
deriving DecidableEq, Repr

/-- The slice of a text that stands between what was read and the rest. -/
def Slice.between (before text : List Char) : Slice :=
  ⟨before.length, before.length + text.length⟩

/-- What a piece at the front of the rest contributes, and what follows. -/
inductive Scanned : List Char → List Char → List Item → List Slice → Prop
  | finish (before : List Char) :
      Scanned before [] [.ok (Token.finish (.after before))] [.between before []]
  | blank {before cs : List Char} {c : Char} {items : List Item} {slices : List Slice}
      (hshape : (front c cs).shape = .blank)
      (h : Scanned (before ++ (front c cs).text) (front c cs).rest items slices) :
      Scanned before (c :: cs) items slices
  | item {before cs : List Char} {c : Char} {item : Item} {items : List Item}
      {slices : List Slice} (hitem : (front c cs).item? (.after before) = some item)
      (h : Scanned (before ++ (front c cs).text) (front c cs).rest items slices) :
      Scanned before (c :: cs) (item :: items) (.between before (front c cs).text :: slices)

theorem shape_of_item?_eq_none {piece : Piece} {p : Position} (h : piece.item? p = none) :
    piece.shape = .blank := by
  unfold Piece.item? at h
  cases hshape : piece.shape <;> simp [hshape] at h ⊢

/-- A token of a scan is a piece of the text, with the place where it starts. -/
theorem item?_eq_ok {piece : Piece} {p : Position} {t : Token}
    (h : piece.item? p = some (.ok t)) :
    piece.shape = .token t.kind ∧ t.lexeme.toList = piece.text ∧ t.pos = p := by
  unfold Piece.item? at h
  cases hshape : piece.shape <;> simp [hshape] at h
  subst h
  simp

/-- With enough fuel a scan goes through the whole text. -/
theorem exists_scanned_itemsFrom {n : Nat} {before rest : List Char} (hn : rest.length ≤ n) :
    ∃ slices, Scanned before rest (itemsFrom n (.after before) rest) slices := by
  induction n generalizing before rest with
  | zero =>
      rw [List.length_eq_zero_iff.mp (Nat.le_zero.mp hn)]
      exact ⟨_, .finish before⟩
  | succ n ih =>
      cases rest with
      | nil => exact ⟨_, .finish before⟩
      | cons c cs =>
          have hlt := length_front_rest_lt c cs
          have hrest : (front c cs).rest.length ≤ n := by omega
          rw [itemsFrom, Position.after_advance]
          obtain ⟨slices, hnext⟩ :
            ∃ slices, Scanned (before ++ (front c cs).text) (front c cs).rest _ slices := ih hrest
          cases hitem : (front c cs).item? (.after before) with
          | none => exact ⟨slices, .blank (shape_of_item?_eq_none hitem) hnext⟩
          | some item => exact ⟨_, .item hitem hnext⟩

theorem exists_scanned (source : String) :
    ∃ slices, Scanned [] source.toList (scan source) slices :=
  exists_scanned_itemsFrom (Nat.le_refl _)

/-- A scan ends with the end of input, which it has nowhere else. -/
theorem Scanned.items_eq {before rest : List Char} {items : List Item} {slices : List Slice}
    (h : Scanned before rest items slices) :
    ∃ init, items = init ++ [.ok (Token.finish (.after (before ++ rest)))] ∧
      ∀ t, .ok t ∈ init → t.kind ≠ .endOfInput := by
  induction h with
  | finish before => exact ⟨[], by simp, by simp⟩
  | @blank before cs c items slices _ _ ih =>
      rw [List.append_assoc, front_text_append_rest] at ih
      exact ih
  | @item before cs c item items slices hitem _ ih =>
      rw [List.append_assoc, front_text_append_rest] at ih
      obtain ⟨init, rfl, hinit⟩ := ih
      refine ⟨item :: init, rfl, fun t ht => ?_⟩
      obtain rfl | ht := List.mem_cons.mp ht
      · exact (spells_of_front (item?_eq_ok hitem).1).ne_endOfInput
      · exact hinit t ht

end Scan

/-! ## Token sequences -/

theorem firstErrorOr_map_ok {ε α : Type} (as : List α) :
    firstErrorOr (as.map .ok : List (Except ε α)) = .ok as := by
  induction as with
  | nil => rfl
  | cons a as ih =>
      rw [List.map_cons, firstErrorOr, ih]
      rfl

theorem eq_map_ok_of_firstErrorOr {ε α : Type} {results : List (Except ε α)} {as : List α}
    (h : firstErrorOr results = .ok as) : results = as.map .ok := by
  fun_induction firstErrorOr results generalizing as with
  | case1 =>
      cases h
      rfl
  | case2 e rest => contradiction
  | case3 a rest ih =>
      cases hrest : firstErrorOr rest with
      | error e =>
          rw [hrest] at h
          contradiction
      | ok bs =>
          rw [hrest] at h
          cases h
          rw [List.map_cons, ← ih hrest]

/-- The tokens of a source are those of its scan, line breaks apart, if the scan
has no fault. -/
theorem tokenize_eq_ok_iff {source : String} {ts : List Token} :
    tokenize source = .ok ts ↔
      (scan source).filter (fun item => !Scan.Item.isNewline item) = ts.map .ok :=
  ⟨eq_map_ok_of_firstErrorOr, fun h => by rw [tokenize, h, firstErrorOr_map_ok]⟩

theorem mem_scan_of_tokenize {source : String} {tokens : List Token} {t : Token}
    (h : tokenize source = .ok tokens) (ht : t ∈ tokens) : .ok t ∈ scan source := by
  have hmem : .ok t ∈ tokens.map (Except.ok : Token → Scan.Item) := List.mem_map_of_mem ht
  rw [← tokenize_eq_ok_iff.mp h] at hmem
  exact (List.mem_filter.mp hmem).1

/-- A text that is scanned without faults and line breaks has the tokens scanned. -/
theorem tokenize_of_scan {source : String} {ts : List Token} (h : scan source = ts.map .ok)
    (hts : ∀ t ∈ ts, t.kind ≠ .newline) : tokenize source = .ok ts := by
  have hkeep : ∀ item ∈ ts.map Except.ok, (!Scan.Item.isNewline item) = true := by
    intro item hitem
    obtain ⟨t, ht, rfl⟩ := List.mem_map.mp hitem
    simp [Scan.Item.isNewline, hts t ht]
  rw [tokenize_eq_ok_iff, h, List.filter_eq_self.mpr hkeep]

end Abacus
