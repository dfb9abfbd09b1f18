import Abacus.Prompt

/-!
# Abacus.Proofs.Prompt.Lines

The lines of an input that is text.  The prompt cuts bytes after each line feed and
reads what it cuts as text.  In UTF-8 a line feed is one byte that occurs in no other
character, so to cut the bytes is to cut the text after each line break
(`lines_toUTF8`): every piece is valid text, and together they are the whole.
-/

namespace Abacus

namespace Prompt

/-! ## Bytes of a text -/

theorem toList_loop_eq (bytes : ByteArray) (i : Nat) (before : List UInt8) :
    ByteArray.toList.loop bytes i before = before.reverse ++ bytes.data.toList.drop i := by
  fun_induction ByteArray.toList.loop bytes i before with
  | case1 i before h ih =>
      have hi : i < bytes.data.toList.length := h
      rw [ih, List.drop_eq_getElem_cons hi]
      simp [ByteArray.get!, getElem!_pos bytes.data i h]
  | case2 i before h =>
      have hi : bytes.data.toList.length ≤ i := Nat.not_lt.mp h
      rw [List.drop_eq_nil_of_le hi, List.append_nil]

/-- The bytes of some characters, one after the other. -/
def encode (cs : List Char) : List UInt8 := cs.flatMap String.utf8EncodeChar

/-- The bytes of a text are those of its characters. -/
theorem toList_toUTF8 (text : String) : text.toUTF8.toList = encode text.toList := by
  have hbytes : text.toUTF8 = text.toList.utf8Encode := String.utf8Encode_toList.symm
  rw [hbytes, ByteArray.toList, toList_loop_eq, List.utf8Encode, List.toList_data_toByteArray]
  rfl

/-- The bytes of some characters are read as them. -/
theorem decodeLine_encode (cs : List Char) : decodeLine (encode cs) = .ok (.ofList cs) := by
  have hbytes : (encode cs).toByteArray = (String.ofList cs).toByteArray :=
    String.toByteArray_ofList.symm
  have hread : String.fromUTF8? (String.ofList cs).toByteArray = some (.ofList cs) := by
    rw [String.fromUTF8?, dif_pos (String.ofList cs).isValidUTF8]
    rfl
  rw [decodeLine, hbytes, hread]

theorem newline_ne_ofNat {n : Nat} (hlow : 128 ≤ n) (hhigh : n < 256) : 10 ≠ UInt8.ofNat n := by
  intro h
  have hn := congrArg UInt8.toNat h
  rw [UInt8.toNat_ofNat_of_lt' hhigh] at hn
  exact absurd (hn ▸ hlow) (by decide)

/-- A line feed is a byte of no character but the line break. -/
theorem eq_newline_of_mem_utf8EncodeChar {c : Char} (h : 10 ∈ String.utf8EncodeChar c) :
    c = '\n' := by
  have hcode : c.val.toNat = 10 := by
    by_cases hshort : c.val.toNat ≤ 127
    · rw [String.utf8EncodeChar, if_pos hshort, List.mem_singleton] at h
      have hn := congrArg UInt8.toNat h
      rw [UInt8.toNat_ofNat_of_lt' (Nat.lt_of_le_of_lt hshort (by decide))] at hn
      exact hn.symm
    · -- all bytes of a longer character are at least 128
      rw [String.utf8EncodeChar, if_neg hshort] at h
      split at h
      · simp only [List.mem_cons, List.not_mem_nil, or_false] at h
        obtain h | h := h <;> exact absurd h (newline_ne_ofNat (by omega) (by omega))
      · split at h
        · simp only [List.mem_cons, List.not_mem_nil, or_false] at h
          obtain h | h | h := h <;> exact absurd h (newline_ne_ofNat (by omega) (by omega))
        · simp only [List.mem_cons, List.not_mem_nil, or_false] at h
          obtain h | h | h | h := h <;> exact absurd h (newline_ne_ofNat (by omega) (by omega))
  exact Char.ext (UInt32.toNat_inj.mp hcode)

/-! ## Cutting a text -/

/-- Cut a text after each line break. -/
def cutText : List Char → List (List Char)
  | [] => []
  | c :: cs =>
    if c = '\n' then [c] :: cutText cs
    else
      match cutText cs with
      | [] => [[c]]
      | line :: lines => (c :: line) :: lines

/-- The lines of a text, each with its line break. -/
def textLines (text : String) : List String := (cutText text.toList).map String.ofList

theorem flatten_cutText (cs : List Char) : (cutText cs).flatten = cs := by
  fun_induction cutText cs with
  | case1 => rfl
  | case2 cs ih => rw [List.flatten_cons, ih, List.singleton_append]
  | case3 c cs _ hnil ih => rw [← ih, hnil]; rfl
  | case4 c cs _ line lines hcons ih => rw [← ih, hcons]; rfl

/-- A line is not empty, and a line break ends it. -/
theorem newline_of_mem_cutText {line : List Char} {cs : List Char} (h : line ∈ cutText cs) :
    line ≠ [] ∧ '\n' ∉ line.dropLast := by
  fun_induction cutText cs generalizing line with
  | case1 => contradiction
  | case2 cs ih =>
      obtain rfl | h := List.mem_cons.mp h
      · simp
      · exact ih h
  | case3 c cs _ hnil ih =>
      obtain rfl := List.mem_singleton.mp h
      simp
  | case4 c cs hc first lines hcons ih =>
      rw [hcons] at ih
      obtain rfl | h := List.mem_cons.mp h
      · obtain ⟨hfirst, hbreak⟩ := ih List.mem_cons_self
        rw [List.dropLast_cons_of_ne_nil hfirst, List.mem_cons]
        exact ⟨List.cons_ne_nil _ _, fun h => h.elim (fun heq => hc heq.symm) hbreak⟩
      · exact ih (List.mem_cons_of_mem _ h)

/-- Every line but the last ends with a line break. -/
theorem getLast?_of_mem_dropLast_cutText {line cs : List Char} (h : line ∈ (cutText cs).dropLast) :
    line.getLast? = some '\n' := by
  fun_induction cutText cs generalizing line with
  | case1 => contradiction
  | case2 cs ih =>
      cases hrest : cutText cs with
      | nil => simp [hrest] at h
      | cons first lines =>
          rw [hrest, List.dropLast_cons_cons, List.mem_cons] at h
          rw [hrest] at ih
          obtain rfl | h := h
          · rfl
          · exact ih h
  | case3 => contradiction
  | case4 c cs hc first lines hcons ih =>
      rw [hcons] at ih
      cases lines with
      | nil => contradiction
      | cons second lines =>
          rw [List.dropLast_cons_cons, List.mem_cons] at h
          obtain rfl | h := h
          · rw [List.getLast?_cons, ih List.mem_cons_self]
            rfl
          · exact ih (List.mem_cons_of_mem _ h)

/-- The lines of a text, one after the other, are the text. -/
theorem join_textLines (text : String) : String.join (textLines text) = text := by
  apply String.toList_inj.mp
  rw [textLines, String.toList_join, List.flatMap_map]
  simp only [String.toList_ofList, List.flatMap_id', flatten_cutText]

/-- Bytes without a line feed are put before the first line. -/
theorem cutLines_append {bytes : List UInt8} (h : 10 ∉ bytes) (hne : bytes ≠ [])
    (rest : List UInt8) :
    cutLines (bytes ++ rest) =
      match cutLines rest with
      | [] => [bytes]
      | line :: lines => (bytes ++ line) :: lines := by
  induction bytes with
  | nil => contradiction
  | cons b bytes ih =>
      obtain ⟨hb, hbytes⟩ := List.ne_and_not_mem_of_not_mem_cons h
      rw [List.cons_append, cutLines, if_neg hb.symm]
      cases bytes with
      | nil => rfl
      | cons b' bytes =>
          rw [ih hbytes (List.cons_ne_nil _ _)]
          cases cutLines rest <;> rfl

theorem encode_cons (c : Char) (cs : List Char) :
    encode (c :: cs) = String.utf8EncodeChar c ++ encode cs := List.flatMap_cons

/-- To cut the bytes of a text is to cut the text. -/
theorem cutLines_encode (cs : List Char) : cutLines (encode cs) = (cutText cs).map encode := by
  fun_induction cutText cs with
  | case1 => rfl
  | case2 cs ih =>
      rw [List.map_cons, ← ih]
      rfl
  | case3 c cs hc hnil ih =>
      have hbytes := mt eq_newline_of_mem_utf8EncodeChar hc
      rw [encode_cons, cutLines_append hbytes String.utf8EncodeChar_ne_nil, ih, hnil]
      simp [encode]
  | case4 c cs hc line lines hcons ih =>
      have hbytes := mt eq_newline_of_mem_utf8EncodeChar hc
      rw [encode_cons, cutLines_append hbytes String.utf8EncodeChar_ne_nil, ih, hcons]
      rfl

/-- **Lines of a text.**  The lines that the prompt reads from the bytes of a text are
the pieces of the text. -/
theorem lines_toUTF8 (text : String) : lines text.toUTF8 = (textLines text).map .ok := by
  rw [lines, toList_toUTF8, cutLines_encode, textLines, List.map_map, List.map_map]
  exact List.map_congr_left fun cs _ => decodeLine_encode cs

end Prompt

end Abacus
