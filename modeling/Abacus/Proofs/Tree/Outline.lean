import Abacus.Proofs.Text.Quoted

/-!
# Abacus.Proofs.Tree.Outline

Texts of words and brackets.  An `Outline` is a word, a quoted text, or a group of
outlines between brackets, with single spaces between them.  If the words hold neither
brackets nor blanks nor quotes, the text of an outline determines it
(`Legible.text_append_inj`): a word ends at the next such character, a quoted text at its
quote, and a group at its bracket, so what follows an outline is determined too.
-/

namespace Abacus

/-- The brackets of a group. -/
inductive Bracket where
  | round | curly
deriving DecidableEq

namespace Bracket

/-- The bracket that begins a group. -/
def opening : Bracket → Char
  | round => '('
  | curly => '\x7b'

/-- The bracket that ends a group. -/
def closing : Bracket → Char
  | round => ')'
  | curly => '\x7d'

end Bracket

/-- A text of words and brackets. -/
inductive Outline where
  | word (cs : List Char)
  | quoted (cs : List Char)
  | group (bracket : Bracket) (items : List Outline)

namespace Outline

mutual
/-- The text of an outline. -/
def text : Outline → List Char
  | word cs => cs
  | quoted cs => Text.quotedChars cs
  | group bracket items => bracket.opening :: (spaced items ++ [bracket.closing])

/-- The texts of outlines with single spaces between them. -/
def spaced : List Outline → List Char
  | [] => []
  | o :: os => o.text ++ continued os

/-- The texts of outlines, each after a space. -/
def continued : List Outline → List Char
  | [] => []
  | o :: os => ' ' :: (o.text ++ continued os)
end

/-- The characters that no word holds. -/
def delimiters : List Char := [' ', '(', ')', '\x7b', '\x7d', '"', '\n']

/-- All words of the outline can be told from what stands around them. -/
inductive Legible : Outline → Prop
  | word {cs : List Char} (hne : cs ≠ []) (h : ∀ c ∈ cs, c ∉ delimiters) : Legible (word cs)
  | quoted (cs : List Char) : Legible (quoted cs)
  | group {bracket : Bracket} {items : List Outline} (h : ∀ o ∈ items, Legible o) :
      Legible (group bracket items)

/-- What may follow an outline: nothing, or a text that begins with a character that no
word holds. -/
def Stops (r : List Char) : Prop := ∀ c ∈ r.head?, c ∈ delimiters

/-- What closes a bracket stops a word. -/
theorem stops_continued (bracket : Bracket) (items : List Outline) (r : List Char) :
    Stops (continued items ++ bracket.closing :: r) := by
  intro c hc
  cases items with
  | nil =>
      obtain rfl : bracket.closing = c := by simpa [continued] using hc
      cases bracket <;> decide
  | cons o os =>
      obtain rfl : ' ' = c := by simpa [continued] using hc
      decide

/-- A word ends where a character follows that it cannot hold. -/
theorem word_append_inj {cs cs' r r' : List Char} (h : ∀ c ∈ cs, c ∉ delimiters)
    (h' : ∀ c ∈ cs', c ∉ delimiters) (hr : Stops r) (hr' : Stops r') (heq : cs ++ r = cs' ++ r') :
    cs = cs' ∧ r = r' := by
  have htake (ds s : List Char) (hds : ∀ c ∈ ds, c ∉ delimiters) (hs : Stops s) :
      (ds ++ s).takeWhile (fun c => c ∉ delimiters) = ds := by
    have hnil : s.takeWhile (fun c => c ∉ delimiters) = [] := by
      cases s with
      | nil => rfl
      | cons c s => rw [List.takeWhile_cons_of_neg (by simpa using hs c rfl)]
    rw [List.takeWhile_append_of_pos fun c hc => decide_eq_true (hds c hc), hnil, List.append_nil]
  have hcs := congrArg (List.takeWhile fun c => c ∉ delimiters) heq
  rw [htake cs r h hr, htake cs' r' h' hr'] at hcs
  subst hcs
  exact ⟨rfl, List.append_cancel_left heq⟩

namespace Legible

variable {o o' : Outline} {items items' : List Outline} {r r' : List Char}

/-- An outline begins neither with a space nor with a closing bracket. -/
theorem exists_cons (h : Legible o) :
    ∃ c cs, o.text = c :: cs ∧ c ≠ ' ' ∧ ∀ bracket : Bracket, bracket.closing ≠ c := by
  cases h with
  | @word cs hne h =>
      obtain ⟨c, cs, rfl⟩ := List.exists_cons_of_ne_nil hne
      have hc := h c List.mem_cons_self
      refine ⟨c, cs, rfl, ?_, fun bracket => ?_⟩
      · rintro rfl
        exact hc (by decide)
      · rintro rfl
        exact hc (by cases bracket <;> decide)
  | quoted cs =>
      exact ⟨'"', _, by rw [text, Text.quotedChars], by decide,
        fun bracket => by cases bracket <;> decide⟩
  | @group bracket items h =>
      refine ⟨bracket.opening, _, by rw [text], ?_, fun other => ?_⟩
      · cases bracket <;> decide
      · cases bracket <;> cases other <;> decide

/-- A word, a quoted text and a group begin differently. -/
theorem word_append_ne {cs : List Char} (h : Legible (.word cs)) {c : Char} (hc : c ∈ delimiters)
    (s : List Char) : cs ++ r ≠ c :: s := by
  cases h with
  | word hne h =>
      obtain ⟨d, ds, rfl⟩ := List.exists_cons_of_ne_nil hne
      intro heq
      obtain ⟨rfl, _⟩ := List.cons.inj heq
      exact h _ List.mem_cons_self hc

theorem opening_mem_delimiters (bracket : Bracket) : bracket.opening ∈ delimiters := by
  cases bracket <;> decide

theorem quote_ne_opening (bracket : Bracket) : '"' ≠ bracket.opening := by
  cases bracket <;> decide

/-- A bracket is known by how it opens. -/
theorem opening_inj {b b' : Bracket} (h : b.opening = b'.opening) : b = b' := by
  cases b <;> cases b' <;> first | rfl | contradiction

/-- What determines an outline and what follows it does so for the items of a group. -/
theorem continued_append_inj {bracket : Bracket}
    (hitems : ∀ o ∈ items, ∀ o' r r', Legible o' → Stops r → Stops r' →
      o.text ++ r = o'.text ++ r' → o = o' ∧ r = r')
    (h' : ∀ o ∈ items', Legible o)
    (heq : continued items ++ bracket.closing :: r = continued items' ++ bracket.closing :: r') :
    items = items' ∧ r = r' := by
  have hspace : bracket.closing ≠ ' ' := by cases bracket <;> decide
  induction items generalizing items' with
  | nil =>
      cases items' with
      | nil => exact ⟨rfl, (List.cons.inj heq).2⟩
      | cons o' os' => exact absurd (List.cons.inj heq).1 hspace
  | cons o os ih =>
      cases items' with
      | nil => exact absurd (List.cons.inj heq).1.symm hspace
      | cons o' os' =>
          rw [List.forall_mem_cons] at hitems h'
          simp only [continued, List.cons_append, List.append_assoc, List.cons.injEq,
            true_and] at heq
          obtain ⟨rfl, htail⟩ := hitems.1 o' _ _ h'.1 (stops_continued bracket os r)
            (stops_continued bracket os' r') heq
          obtain ⟨rfl, hr⟩ := ih hitems.2 h'.2 htail
          exact ⟨rfl, hr⟩

/-- A list of outlines up to a closing bracket is determined by its text, if each of
them is by what it takes of a text. -/
theorem spaced_append_inj {bracket : Bracket} (h : ∀ o ∈ items, Legible o)
    (hitems : ∀ o ∈ items, ∀ o' r r', Legible o' → Stops r → Stops r' →
      o.text ++ r = o'.text ++ r' → o = o' ∧ r = r')
    (h' : ∀ o ∈ items', Legible o)
    (heq : spaced items ++ bracket.closing :: r = spaced items' ++ bracket.closing :: r') :
    items = items' ∧ r = r' := by
  have hfirst : ∀ (o : Outline) (os : List Outline) (s s' : List Char), Legible o →
      bracket.closing :: s ≠ spaced (o :: os) ++ s' := by
    intro o os s s' ho heq
    obtain ⟨c, cs, htext, _, hclosing⟩ := ho.exists_cons
    rw [spaced, htext] at heq
    exact hclosing bracket (List.cons.inj heq).1
  cases items with
  | nil =>
      cases items' with
      | nil => exact ⟨rfl, (List.cons.inj heq).2⟩
      | cons o' os' => exact absurd heq (hfirst o' os' _ _ (h' o' List.mem_cons_self))
  | cons o os =>
      cases items' with
      | nil => exact absurd heq.symm (hfirst o os _ _ (h o List.mem_cons_self))
      | cons o' os' =>
          rw [List.forall_mem_cons] at hitems h'
          simp only [spaced, List.append_assoc] at heq
          obtain ⟨rfl, htail⟩ := hitems.1 o' _ _ h'.1 (stops_continued bracket os r)
            (stops_continued bracket os' r') heq
          obtain ⟨rfl, hr⟩ := continued_append_inj hitems.2 h'.2 htail
          exact ⟨rfl, hr⟩

/-- **Unique readability.**  The text of a legible outline determines the outline, and
what follows it. -/
theorem text_append_inj (h : Legible o) (h' : Legible o') (hr : Stops r) (hr' : Stops r')
    (heq : o.text ++ r = o'.text ++ r') : o = o' ∧ r = r' := by
  induction h generalizing o' r r' with
  | @word cs hne hcs =>
      have hword : Legible (.word cs) := .word hne hcs
      cases h' with
      | word hne' hcs' =>
          obtain ⟨rfl, hrest⟩ := word_append_inj hcs hcs' hr hr' heq
          exact ⟨rfl, hrest⟩
      | quoted => exact absurd heq (hword.word_append_ne (by decide) _)
      | group => exact absurd heq (hword.word_append_ne (opening_mem_delimiters _) _)
  | quoted cs =>
      cases h' with
      | word hne' hcs' =>
          exact absurd heq.symm ((Legible.word hne' hcs').word_append_ne (by decide) _)
      | quoted cs' =>
          obtain ⟨rfl, hrest⟩ := Text.quotedChars_append_inj heq
          exact ⟨rfl, hrest⟩
      | group => exact absurd (List.cons.inj heq).1 (quote_ne_opening _)
  | @group bracket items hitems ih =>
      cases h' with
      | word hne' hcs' =>
          exact absurd heq.symm
            ((Legible.word hne' hcs').word_append_ne (opening_mem_delimiters _) _)
      | quoted => exact absurd (List.cons.inj heq).1.symm (quote_ne_opening _)
      | @group bracket' items' hitems' =>
          simp only [text, List.cons_append, List.append_assoc, List.nil_append,
            List.cons.injEq] at heq
          obtain ⟨hbracket, heq⟩ := heq
          obtain rfl := opening_inj hbracket
          obtain ⟨rfl, hrest⟩ := spaced_append_inj hitems
            (fun o ho o' r r' ho' hr hr' heq => ih o ho ho' hr hr' heq) hitems' heq
          exact ⟨rfl, hrest⟩

/-- A legible outline is on one line. -/
theorem newline_notMem (h : Legible o) : '\n' ∉ o.text := by
  induction h with
  | word _ h => exact fun hmem => h _ hmem (by decide)
  | quoted cs => exact Text.newline_notMem_quotedChars cs
  | @group bracket items _ ih =>
      have hcontinued : ∀ os : List Outline, (∀ o ∈ os, '\n' ∉ o.text) → '\n' ∉ continued os := by
        intro os hos
        induction os with
        | nil => simp [continued]
        | cons o os ihos =>
            rw [List.forall_mem_cons] at hos
            simp [continued, hos.1, ihos hos.2]
      have hspaced : '\n' ∉ spaced items := by
        cases items with
        | nil => simp [spaced]
        | cons o os =>
            rw [List.forall_mem_cons] at ih
            simp [spaced, ih.1, hcontinued os ih.2]
      cases bracket <;> simp [text, hspaced, Bracket.opening, Bracket.closing]

end Legible

end Outline

end Abacus
