import Abacus.Text.Quoted
import Mathlib.Data.Nat.Init

/-!
# Abacus.Proofs.Text.Quoted

A quoted text determines what is quoted.  The escapes of the characters are a prefix
code: where two texts begin with an escape each and continue alike, the escapes are of
the same character (`escape_append_inj`).  No escape begins with a quote, so a quoted
text says where it ends (`quotedChars_append_inj`), and none holds a line break.
-/

namespace Abacus

namespace Text

/-! ## Hexadecimal digits -/

/-- The digits of a number in hexadecimal. -/
def hexDigits : List Char := "0123456789abcdef".toList

theorem digitChar_mem_hexDigits : ∀ d < 16, Nat.digitChar d ∈ hexDigits := by decide

theorem digitChar_inj : ∀ d < 16, ∀ e < 16, Nat.digitChar d = Nat.digitChar e → d = e := by
  decide

/-- Codes are made of hexadecimal digits. -/
theorem mem_hexDigits_of_mem_toDigits {n : Nat} {c : Char} (h : c ∈ Nat.toDigits 16 n) :
    c ∈ hexDigits := by
  induction n using Nat.strong_induction_on with
  | h n ih =>
      by_cases hn : n < 16
      · rw [Nat.toDigits_of_lt_base hn, List.mem_singleton] at h
        exact h ▸ digitChar_mem_hexDigits n hn
      · rw [Nat.toDigits_of_base_le (by decide) (Nat.not_lt.mp hn), List.mem_append,
          List.mem_singleton] at h
        obtain h | rfl := h
        · exact ih _ (Nat.div_lt_self (by omega) (by decide)) h
        · exact digitChar_mem_hexDigits _ (Nat.mod_lt _ (by decide))

/-- Two digits are not one. -/
theorem toDigits_append_ne_singleton (n : Nat) {c d : Char} : Nat.toDigits 16 n ++ [c] ≠ [d] := by
  intro h
  obtain ⟨hnil, _⟩ := List.append_inj' (h.trans (List.nil_append [d]).symm) rfl
  exact Nat.toDigits_ne_nil hnil

/-- A number is determined by its hexadecimal digits. -/
theorem toDigits_sixteen_inj {m n : Nat} (h : Nat.toDigits 16 m = Nat.toDigits 16 n) : m = n := by
  induction m using Nat.strong_induction_on generalizing n with
  | h m ih =>
      rw [@Nat.toDigits_eq_if 16 m (by decide), @Nat.toDigits_eq_if 16 n (by decide)] at h
      split at h <;> split at h
      · next hm hn => exact digitChar_inj m hm n hn (List.singleton_inj.mp h)
      · exact absurd h.symm (toDigits_append_ne_singleton _)
      · exact absurd h (toDigits_append_ne_singleton _)
      · next hm hn =>
        obtain ⟨hinit, hlast⟩ := List.append_inj' h rfl
        have hdiv := ih (m / 16) (Nat.div_lt_self (by omega) (by decide)) hinit
        have hmod := digitChar_inj _ (Nat.mod_lt m (by decide)) _ (Nat.mod_lt n (by decide))
          (List.singleton_inj.mp hlast)
        omega

/-- A character is determined by its code. -/
theorem hexCode_inj {c c' : Char} (h : hexCode c = hexCode c') : c = c' :=
  Char.ext (UInt32.toNat_inj.mp (toDigits_sixteen_inj h))

/-! ## Escapes -/

/-- The characters with a short escape, and what stands for them after the backslash. -/
def shortEscapes : List (Char × Char) :=
  [('\x00', '0'), ('\t', 't'), ('\r', 'r'), ('\n', 'n'), ('"', '"'), ('\\', '\\')]

/-- How a character is escaped: by a short escape, by its code point, or not at all. -/
inductive Escapes : Char → List Char → Prop
  | short {c e : Char} (h : (c, e) ∈ shortEscapes) : Escapes c ['\\', e]
  | code (c : Char) : Escapes c ('\\' :: 'u' :: '\x7b' :: (hexCode c ++ ['\x7d']))
  | plain {c : Char} (h : ∀ e, (c, e) ∉ shortEscapes) : Escapes c [c]

/-- A character is escaped in one of three ways, told apart by what comes first. -/
theorem escapes_escape (c : Char) : Escapes c (escape c) := by
  unfold escape
  split
  · exact .short (by decide)
  · exact .short (by decide)
  · exact .short (by decide)
  · exact .short (by decide)
  · exact .short (by decide)
  · exact .short (by decide)
  · split
    · exact .code _
    · refine .plain fun e he => ?_
      simp only [shortEscapes, List.mem_cons, Prod.mk.injEq, List.not_mem_nil, or_false] at he
      obtain ⟨rfl, _⟩ | ⟨rfl, _⟩ | ⟨rfl, _⟩ | ⟨rfl, _⟩ | ⟨rfl, _⟩ | ⟨rfl, _⟩ := he <;> contradiction

theorem snd_shortEscapes :
    ∀ p ∈ shortEscapes, p.2 ≠ 'u' ∧ p.2 ≠ '\n' ∧ ∀ p' ∈ shortEscapes, p.2 = p'.2 → p.1 = p'.1 := by
  decide

namespace Escapes

variable {c c' : Char} {u u' r r' : List Char}

/-- A character that is left as it is is none of those that need an escape. -/
theorem ne_backslash (h : ∀ e, (c, e) ∉ shortEscapes) : c ≠ '\\' ∧ c ≠ '"' ∧ c ≠ '\n' := by
  refine ⟨?_, ?_, ?_⟩ <;> rintro rfl
  · exact h '\\' (by decide)
  · exact h '"' (by decide)
  · exact h 'n' (by decide)

/-- An escape is not empty and does not begin with a quote. -/
theorem head_ne (h : Escapes c u) : ∃ d ds, u = d :: ds ∧ d ≠ '"' := by
  cases h with
  | short _ => exact ⟨_, _, rfl, by decide⟩
  | code => exact ⟨_, _, rfl, by decide⟩
  | plain h => exact ⟨_, _, rfl, (ne_backslash h).2.1⟩

/-- An escape is on one line. -/
theorem newline_notMem (h : Escapes c u) : '\n' ∉ u := by
  cases h with
  | short h =>
      have hne := (snd_shortEscapes _ h).2.1
      simp [hne.symm]
  | code =>
      intro hmem
      simp only [List.mem_cons, List.mem_append, List.not_mem_nil, or_false] at hmem
      obtain h | h | h | h | h := hmem
      · contradiction
      · contradiction
      · contradiction
      · exact absurd (mem_hexDigits_of_mem_toDigits h) (by decide)
      · contradiction
  | plain h => simp [(ne_backslash h).2.2.symm]

/-- The digits of a code point end at the brace. -/
theorem code_append_inj (h : hexCode c ++ '\x7d' :: r = hexCode c' ++ '\x7d' :: r') :
    hexCode c = hexCode c' ∧ r = r' := by
  have hbrace : ∀ c : Char, ∀ d ∈ hexCode c, (d != '\x7d') = true := by
    intro c d hd
    have hdigits : '\x7d' ∉ hexDigits := by decide
    exact bne_iff_ne.mpr (ne_of_mem_of_not_mem (mem_hexDigits_of_mem_toDigits hd) hdigits)
  have htake := congrArg (List.takeWhile (· != '\x7d')) h
  rw [List.takeWhile_append_of_pos (hbrace c), List.takeWhile_append_of_pos (hbrace c')] at htake
  have hcode : hexCode c = hexCode c' := by simpa using htake
  rw [hcode, List.append_cancel_left_eq] at h
  exact ⟨hcode, (List.cons.inj h).2⟩

/-- The escapes are a prefix code. -/
theorem append_inj (h : Escapes c u) (h' : Escapes c' u') (heq : u ++ r = u' ++ r') :
    c = c' ∧ r = r' := by
  cases h with
  | short h =>
      cases h' with
      | short h' =>
          simp only [List.cons_append, List.nil_append, List.cons.injEq, true_and] at heq
          exact ⟨(snd_shortEscapes _ h).2.2 _ h' heq.1, heq.2⟩
      | code =>
          simp only [List.cons_append, List.nil_append, List.cons.injEq, true_and] at heq
          exact absurd heq.1 (snd_shortEscapes _ h).1
      | plain h' =>
          simp only [List.cons_append, List.nil_append, List.cons.injEq] at heq
          exact absurd heq.1.symm (ne_backslash h').1
  | code =>
      cases h' with
      | short h' =>
          simp only [List.cons_append, List.nil_append, List.cons.injEq, true_and] at heq
          exact absurd heq.1.symm (snd_shortEscapes _ h').1
      | code =>
          simp only [List.cons_append, List.append_assoc, List.nil_append, List.cons.injEq,
            true_and] at heq
          obtain ⟨hcode, hrest⟩ := code_append_inj heq
          exact ⟨hexCode_inj hcode, hrest⟩
      | plain h' =>
          simp only [List.cons_append, List.nil_append, List.cons.injEq] at heq
          exact absurd heq.1.symm (ne_backslash h').1
  | plain h =>
      cases h' with
      | short h' =>
          simp only [List.cons_append, List.nil_append, List.cons.injEq] at heq
          exact absurd heq.1 (ne_backslash h).1
      | code =>
          simp only [List.cons_append, List.nil_append, List.cons.injEq] at heq
          exact absurd heq.1 (ne_backslash h).1
      | plain h' =>
          simp only [List.cons_append, List.nil_append, List.cons.injEq] at heq
          exact heq

end Escapes

/-! ## Quoted texts -/

/-- The characters of a quoted text. -/
def quotedChars (cs : List Char) : List Char := '"' :: (cs.flatMap escape ++ ['"'])

/-- The quoted text, character by character. -/
theorem toList_quoted (s : String) : (quoted s).toList = quotedChars s.toList := by
  rw [quoted, String.toList_ofList, quotedChars]

/-- What is escaped before a quote is determined by the text and what follows it. -/
theorem flatMap_escape_append_inj {cs cs' r r' : List Char}
    (h : cs.flatMap escape ++ '"' :: r = cs'.flatMap escape ++ '"' :: r') : cs = cs' ∧ r = r' := by
  have hend : ∀ (c : Char) (cs r r' : List Char),
      '"' :: r ≠ (c :: cs).flatMap escape ++ '"' :: r' := by
    intro c cs r r' h
    obtain ⟨d, ds, hescape, hd⟩ := (escapes_escape c).head_ne
    rw [List.flatMap_cons, hescape] at h
    exact hd (List.cons.inj h).1.symm
  induction cs generalizing cs' with
  | nil =>
      cases cs' with
      | nil => exact ⟨rfl, (List.cons.inj h).2⟩
      | cons c' cs' => exact absurd h (hend c' cs' r r')
  | cons c cs ih =>
      cases cs' with
      | nil => exact absurd h.symm (hend c cs r' r)
      | cons c' cs' =>
          rw [List.flatMap_cons, List.flatMap_cons, List.append_assoc, List.append_assoc] at h
          obtain ⟨rfl, htail⟩ := (escapes_escape c).append_inj (escapes_escape c') h
          obtain ⟨rfl, hrest⟩ := ih htail
          exact ⟨rfl, hrest⟩

/-- **A quoted text determines what is quoted**, also where more follows it. -/
theorem quotedChars_append_inj {cs cs' r r' : List Char}
    (h : quotedChars cs ++ r = quotedChars cs' ++ r') : cs = cs' ∧ r = r' := by
  simp only [quotedChars, List.cons_append, List.append_assoc, List.nil_append, List.cons.injEq,
    true_and] at h
  exact flatMap_escape_append_inj h

/-- A quoted text is on one line. -/
theorem newline_notMem_quotedChars (cs : List Char) : '\n' ∉ quotedChars cs := by
  intro h
  simp only [quotedChars, List.mem_cons, List.mem_append, List.mem_flatMap, List.not_mem_nil,
    or_false] at h
  obtain h | ⟨c, _, h⟩ | h := h
  · contradiction
  · exact (escapes_escape c).newline_notMem h
  · contradiction

end Text

end Abacus
