import Abacus.Proofs.Token.Scanned
import Mathlib.Data.List.Forall2

/-!
# Abacus.Proofs.Token.Extent

Where the items of a scan stand.  Each item has a slice of the text: the text of
a token is that of its slice, its place is that of the first character of the
slice, and the slices follow each other without overlap.  What lies between the
slices of a text without faults is blanks and comments (`Gap`).

A `Scanner` gives the items of a scan one at a time, for as often as it is asked;
`yields_of_scanned` says that it gives those of the scan and then none.
-/

namespace Abacus

namespace Scan

variable {before rest : List Char} {items : List Item} {slices : List Slice}

/-! ## Slices -/

/-- The text of a slice. -/
def Slice.text (s : Slice) (source : List Char) : List Char := source.extract s.start s.stop

/-- A token is the text of the slice, and its place is that where the slice
starts.  A fault only takes the slice up. -/
def Slice.Holds (source : List Char) : Item → Slice → Prop
  | .ok t, s => t.lexeme.toList = s.text source ∧ t.pos = .after (source.take s.start)
  | .error _, _ => True

theorem Slice.text_between (before text rest : List Char) :
    (Slice.between before text).text (before ++ (text ++ rest)) = text := by
  simp [Slice.text, Slice.between]

theorem Slice.holds_between {item : Item} {piece : Piece}
    (h : piece.item? (.after before) = some item) :
    Slice.Holds (before ++ (piece.text ++ rest)) item (.between before piece.text) := by
  cases item with
  | error e => trivial
  | ok t =>
      obtain ⟨_, hlexeme, hpos⟩ := item?_eq_ok h
      refine ⟨?_, ?_⟩
      · rw [Slice.text_between, hlexeme]
      · rw [hpos, Slice.between, List.take_left]

/-- No text has more items than characters, the end of input apart. -/
theorem Scanned.length_items_le (h : Scanned before rest items slices) :
    items.length ≤ rest.length + 1 := by
  induction h with
  | finish before => simp
  | @blank before cs c items slices _ _ ih =>
      have hlt := length_front_rest_lt c cs
      omega
  | @item before cs c item items slices _ _ ih =>
      have hlt := length_front_rest_lt c cs
      rw [List.length_cons]
      omega

/-- Each item of a scan is what its slice holds. -/
theorem Scanned.holds (h : Scanned before rest items slices) :
    List.Forall₂ (Slice.Holds (before ++ rest)) items slices := by
  induction h with
  | finish before =>
      refine .cons ⟨?_, ?_⟩ .nil
      · simp [Slice.text, Slice.between, Token.finish]
      · simp [Slice.between, Token.finish]
  | @blank before cs c items slices _ _ ih =>
      rw [List.append_assoc, front_text_append_rest] at ih
      exact ih
  | @item before cs c item items slices hitem _ ih =>
      rw [List.append_assoc] at ih
      rw [← front_text_append_rest c cs]
      exact .cons (Slice.holds_between hitem) ih

/-- The slices of a scan follow each other without overlap. -/
theorem Scanned.ordered (h : Scanned before rest items slices) {a : Slice}
    (ha : a.stop ≤ before.length) :
    List.IsChain (fun a b => a.stop ≤ b.start) (a :: slices) := by
  induction h generalizing a with
  | finish before => exact .cons_cons ha (.singleton _)
  | @blank before cs c items slices _ _ ih =>
      apply ih
      rw [List.length_append]
      omega
  | @item before cs c item items slices _ _ ih =>
      refine .cons_cons ha (ih ?_)
      rw [List.length_append]
      exact Nat.le_refl _

theorem Scanned.start_le_stop (h : Scanned before rest items slices) :
    ∀ s ∈ slices, s.start ≤ s.stop := by
  induction h with
  | finish before => simp [Slice.between]
  | blank _ _ ih => exact ih
  | item _ _ ih => simpa [Slice.between] using ih

/-- The last slice is the end of the text. -/
theorem Scanned.getLast?_slices (h : Scanned before rest items slices) :
    slices.getLast? = some ⟨(before ++ rest).length, (before ++ rest).length⟩ := by
  induction h with
  | finish before => simp [Slice.between]
  | @blank before cs c items slices _ _ ih =>
      rw [List.append_assoc, front_text_append_rest] at ih
      exact ih
  | @item before cs c item items slices _ _ ih =>
      rw [List.append_assoc, front_text_append_rest] at ih
      rw [List.getLast?_cons, ih]
      rfl

/-! ## Gaps -/

/-- A text between two tokens: spaces, tabs and carriage returns, and perhaps a
comment, which goes on until the line or the text ends. -/
inductive Gap : List Char → List Char → Prop
  | nil (rest : List Char) : Gap [] rest
  | blank {c : Char} {cs rest : List Char} (hc : c = ' ' ∨ c = '\t' ∨ c = '\r')
      (h : Gap cs rest) : Gap (c :: cs) rest
  | comment {cs rest : List Char} (hcs : '\n' ∉ cs)
      (hrest : rest = [] ∨ rest.head? = some '\n') : Gap ('#' :: cs) rest

/-- A comment ends where its line or the text does. -/
theorem comment_ends (cs : List Char) :
    cs.dropWhile isCommentChar = [] ∨ (cs.dropWhile isCommentChar).head? = some '\n' := by
  have hhead := List.head?_dropWhile_not isCommentChar cs
  cases hrest : cs.dropWhile isCommentChar with
  | nil => exact .inl rfl
  | cons c rest =>
      rw [hrest] at hhead
      exact .inr (by simpa [isCommentChar] using hhead)

/-- A gap goes on over a blank piece of the text after it. -/
theorem Gap.append {gap cs : List Char} {c : Char} (h : Gap gap (c :: cs))
    (hshape : (front c cs).shape = .blank) : Gap (gap ++ (front c cs).text) (front c cs).rest := by
  generalize hnext : c :: cs = next at h
  induction h with
  | nil rest =>
      obtain ⟨hc, hfront⟩ | ⟨rfl, hfront⟩ := front_eq_of_blank hshape
      · rw [hfront]
        exact .blank (by simpa [isBlank, or_assoc, or_comm] using hc) (.nil cs)
      · rw [hfront]
        refine .comment (fun hmem => ?_) ?_
        · simpa [isCommentChar] using mem_takeWhile hmem
        · exact comment_ends cs
  | blank hc _ ih => exact .blank hc (ih hnext)
  | comment hcs hrest =>
      -- a comment goes on until the line ends, and a line break is an item
      subst hnext
      simp only [List.head?_cons, Option.some.injEq, reduceCtorEq, false_or] at hrest
      subst hrest
      contradiction

theorem extract_before {k : Nat} (hk : k ≤ before.length) :
    (before ++ rest).extract k before.length = before.drop k := by
  rw [List.extract, List.drop_append_of_le_length hk, ← List.length_drop, List.take_left]

/-- Between the slices of a scan without faults there are gaps only. -/
theorem Scanned.gaps (h : Scanned before rest items slices) (hitems : ∀ e, .error e ∉ items)
    {a : Slice} (ha : a.stop ≤ before.length) (hgap : Gap (before.drop a.stop) rest) :
    List.IsChain (fun a b => Gap ((before ++ rest).extract a.stop b.start)
      ((before ++ rest).drop b.start)) (a :: slices) := by
  induction h generalizing a with
  | finish before =>
      refine .cons_cons ?_ (.singleton _)
      rw [Slice.between, extract_before ha, List.drop_left]
      exact hgap
  | @blank before cs c items slices hshape _ ih =>
      have hmore := hgap.append hshape
      rw [← List.drop_append_of_le_length ha] at hmore
      have hle : a.stop ≤ (before ++ (front c cs).text).length := by
        rw [List.length_append]
        omega
      have hchain := ih hitems hle hmore
      rw [List.append_assoc, front_text_append_rest] at hchain
      exact hchain
  | @item before cs c item items slices _ _ ih =>
      have hle : (Slice.between before (front c cs).text).stop ≤
          (before ++ (front c cs).text).length := by
        rw [List.length_append]
        exact Nat.le_refl _
      have hchain := ih (fun e he => hitems e (List.mem_cons_of_mem item he)) hle (by
        simp [Slice.between, Gap.nil])
      rw [List.append_assoc, front_text_append_rest] at hchain
      refine .cons_cons ?_ hchain
      rw [Slice.between, extract_before ha, List.drop_left]
      exact hgap

/-! ## One item at a time -/

/-- A scanner: the text that is left, its place, and whether the end of input was
given. -/
structure Scanner where
  rest : List Char
  pos : Position
  finished : Bool

namespace Scanner

/-- The scanner at the start of a text. -/
def start (source : String) : Scanner := ⟨source.toList, .first, false⟩

/-- The first item of a text that starts at `p`, and the scanner after it. -/
def seek (p : Position) : List Char → Item × Scanner
  | [] => (.ok (Token.finish p), ⟨[], p, true⟩)
  | c :: cs =>
    match (front c cs).item? p with
    | some item => (item, ⟨(front c cs).rest, p.advance (front c cs).text, false⟩)
    | none => seek (p.advance (front c cs).text) (front c cs).rest
termination_by cs => cs.length
decreasing_by exact length_front_rest_lt c cs

/-- Ask for the next item. -/
def next (s : Scanner) : Option Item × Scanner :=
  if s.finished then (none, s) else ((seek s.pos s.rest).1, (seek s.pos s.rest).2)

/-- The answer to the question for an item after `n` others. -/
def yields (s : Scanner) : Nat → Option Item
  | 0 => s.next.1
  | n + 1 => s.next.2.yields n

theorem yields_of_finished {s : Scanner} (h : s.finished = true) (n : Nat) : s.yields n = none := by
  have hnext : s.next = (none, s) := if_pos h
  induction n with
  | zero => rw [yields, hnext]
  | succ n ih => rw [yields, hnext, ih]

theorem yields_congr {s s' : Scanner} (h : s.next = s'.next) (n : Nat) :
    s.yields n = s'.yields n := by
  cases n with
  | zero => rw [yields, yields, h]
  | succ n => rw [yields, yields, h]

/-- A scanner gives the items of the scan in order, and then none. -/
theorem yields_of_scanned (h : Scanned before rest items slices) (n : Nat) :
    (⟨rest, .after before, false⟩ : Scanner).yields n = items[n]? := by
  induction h generalizing n with
  | finish before =>
      cases n with
      | zero => simp [yields, next, seek]
      | succ n =>
          rw [yields, yields_of_finished]
          · simp
          · simp [next, seek]
  | @blank before cs c items slices hshape _ ih =>
      rw [← ih n]
      apply yields_congr
      have hitem : (front c cs).item? (.after before) = none := by simp [Piece.item?, hshape]
      simp [next, seek, hitem, Position.after_advance]
  | @item before cs c item items slices hitem _ ih =>
      cases n with
      | zero => simp [yields, next, seek, hitem]
      | succ n =>
          rw [List.getElem?_cons_succ, ← ih n, yields]
          simp [next, seek, hitem, Position.after_advance]

end Scanner

/-! ## The law -/

/-- **Scans are exact.**  A scan has at most one item more than the text has
characters; it ends with the end of input, whose place is that where the text
ends and which it has nowhere else; asked for items one at a time, a scanner gives
these and then none.  Each token, also one after a fault, is the text of a slice
of the source and has the place where the slice starts, the slices being in order
and without overlap.  In a text without faults only blanks and comments stand
between one slice and the next, and before the first. -/
theorem scan_exact (source : String) :
    (scan source).length ≤ source.length + 1 ∧
    (∃ init, scan source = init ++ [.ok (Token.finish (.after source.toList))] ∧
      ∀ t, .ok t ∈ init → t.kind ≠ .endOfInput) ∧
    (∀ n, (Scanner.start source).yields n = (scan source)[n]?) ∧
    ∃ slices : List Slice,
      List.Forall₂ (Slice.Holds source.toList) (scan source) slices ∧
      (∀ s ∈ slices, s.start ≤ s.stop) ∧
      List.IsChain (fun a b => a.stop ≤ b.start) (⟨0, 0⟩ :: slices) ∧
      slices.getLast? = some ⟨source.length, source.length⟩ ∧
      ((∀ e, .error e ∉ scan source) →
        List.IsChain (fun a b => Gap (source.toList.extract a.stop b.start)
          (source.toList.drop b.start)) (⟨0, 0⟩ :: slices)) := by
  obtain ⟨slices, h⟩ := exists_scanned source
  have hlength : source.toList.length = source.length := String.length_toList
  refine ⟨?_, h.items_eq, Scanner.yields_of_scanned h, slices, h.holds, h.start_le_stop,
    h.ordered (Nat.zero_le _), ?_, fun hitems => h.gaps hitems (Nat.zero_le _) (.nil _)⟩
  · rw [← hlength]
    exact h.length_items_le
  · rw [← hlength]
    exact h.getLast?_slices

/-- A text with a string over two lines, a comment and a number after it: nothing
but blanks and the comment stands between its tokens. -/
theorem scan_exact_two_lines :
    let source := "≤ \"a\nb\"x # π\n.5"
    scan source = [.ok ⟨.operator .lessEqual, "≤", ⟨1, 1⟩⟩,
        .ok ⟨.string "a\nb", "\"a\nb\"", ⟨1, 3⟩⟩, .ok ⟨.identifier, "x", ⟨2, 3⟩⟩,
        .ok ⟨.newline, "\n", ⟨2, 8⟩⟩, .ok ⟨.number, ".5", ⟨3, 1⟩⟩,
        .ok (.finish ⟨3, 3⟩)] ∧
      (∀ e, .error e ∉ scan source) ∧
      ∃ slices : List Slice, List.Forall₂ (Slice.Holds source.toList) (scan source) slices ∧
        List.IsChain (fun a b => Gap (source.toList.extract a.stop b.start)
          (source.toList.drop b.start)) (⟨0, 0⟩ :: slices) := by
  intro source
  have hscan : scan source = [.ok ⟨.operator .lessEqual, "≤", ⟨1, 1⟩⟩,
      .ok ⟨.string "a\nb", "\"a\nb\"", ⟨1, 3⟩⟩, .ok ⟨.identifier, "x", ⟨2, 3⟩⟩,
      .ok ⟨.newline, "\n", ⟨2, 8⟩⟩, .ok ⟨.number, ".5", ⟨3, 1⟩⟩,
      .ok (.finish ⟨3, 3⟩)] := by
    decide
  have hclean : ∀ e, .error e ∉ scan source := by simp [hscan]
  obtain ⟨_, _, _, slices, hholds, _, _, _, hgaps⟩ := scan_exact source
  exact ⟨hscan, hclean, slices, hholds, hgaps hclean⟩

end Scan

end Abacus
