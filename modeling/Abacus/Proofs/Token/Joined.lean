import Abacus.Proofs.Token.Longest
import Abacus.Proofs.Token.Spacing

/-!
# Abacus.Proofs.Token.Joined

Texts one after the other.  A line break ends every piece that is no fault, so what a
text without faults contributes to a scan stays the same when a line break and more text
follow it (`Lexes.append`).  The more text contributes what it does by itself, at places
further down (`Lexes.down`).  So the tokens of two texts that are joined by a semicolon on
a line of its own are those of the first, the semicolon, and those of the second moved
down (`tokenize_joinTexts`).
-/

namespace Abacus

/-- Two texts with a semicolon on a line of its own between them. -/
def joinTexts (first second : String) : String := first ++ "\n;\n" ++ second

/-! ## Places further down -/

/-- The place that many lines further down. -/
def Position.down (lines : Nat) (p : Position) : Position := ⟨p.line + lines, p.column⟩

/-- Further down a character moves the place as it does above. -/
theorem Position.step_down (lines : Nat) (p : Position) (c : Char) :
    (p.down lines).step c = (p.step c).down lines := by
  unfold step down
  split
  · simp [Nat.add_right_comm]
  · rfl

/-- Further down a text moves the place as it does above. -/
theorem Position.advance_down (lines : Nat) (p : Position) (cs : List Char) :
    (p.down lines).advance cs = (p.advance cs).down lines := by
  induction cs generalizing p with
  | nil => rfl
  | cons c cs ih => rw [advance_cons, advance_cons, step_down, ih]

/-- The fault at another place. -/
def LexicalError.relocate (f : Position → Position) : LexicalError → LexicalError
  | unexpectedChar c pos => unexpectedChar c (f pos)
  | unterminatedString pos => unterminatedString (f pos)
  | unknownEscape c pos => unknownEscape c (f pos)

namespace Scan

open Text (isDigit)

/-- The element of a scan at another place. -/
def Item.relocate (f : Position → Position) (item : Item) : Item :=
  (item.map (Token.relocate f)).mapError (LexicalError.relocate f)

variable {p : Position} {cs text rest : List Char} {c : Char} {item : Option Item}
  {items items' : List Item}

/-- A piece of a text is the same token or fault further down. -/
theorem item?_down (piece : Piece) (lines : Nat) (p : Position) :
    piece.item? (p.down lines) = (piece.item? p).map (Item.relocate (.down lines)) := by
  unfold Piece.item?
  cases piece.shape with
  | badEscape c =>
      rw [Position.advance_down]
      rfl
  | _ => rfl

/-- A text begins with the same item further down. -/
theorem Starts.down (h : Starts p text rest item) (lines : Nat) :
    Starts (p.down lines) text rest (item.map (Item.relocate (.down lines))) := by
  obtain ⟨c, cs, shape, _, hfront, rfl⟩ := h.exists_front
  have hstarts := starts_front (p.down lines) c cs
  rw [hfront, item?_down] at hstarts
  exact hstarts

/-- A text that starts further down has its items further down. -/
theorem Lexes.down (h : Lexes p cs items) (lines : Nat) :
    Lexes (p.down lines) cs (items.map (Item.relocate (.down lines))) := by
  induction h with
  | finish p => exact .finish (p.down lines)
  | @piece p text rest item items h _ ih =>
      rw [← Position.advance_down] at ih
      have hpiece := Lexes.piece (h.down lines) ih
      rw [Option.toList_map, ← List.map_append] at hpiece
      exact hpiece

/-! ## A line break after a text -/

/-- The piece with more text after it. -/
def Piece.followedBy (more : List Char) (piece : Piece) : Piece :=
  { piece with rest := piece.rest ++ more }

/-- What is taken by a test that a line break fails ends at the line break, or before. -/
theorem span_append_newline {p : Char → Bool} (hp : p '\n' = false) (cs more : List Char) :
    (cs ++ '\n' :: more).takeWhile p = cs.takeWhile p ∧
      (cs ++ '\n' :: more).dropWhile p = cs.dropWhile p ++ '\n' :: more := by
  induction cs with
  | nil => simp [hp]
  | cons c cs ih => cases hc : p c <;> simp [hc, ih]

/-- A blank stays a blank; a comment ends at the line break. -/
theorem front_append_of_blank (h : (front c cs).shape = .blank) (more : List Char) :
    front c (cs ++ '\n' :: more) = (front c cs).followedBy ('\n' :: more) := by
  obtain ⟨hc, hfront⟩ | ⟨rfl, hfront⟩ := front_eq_of_blank h
  · rw [hfront]
    simp [front, hc, Piece.followedBy]
  · obtain ⟨htake, hdrop⟩ := span_append_newline (p := isCommentChar) rfl cs more
    rw [hfront]
    simp [front, isBlank, htake, hdrop, Piece.followedBy]

/-- A string that is closed is the same with more text after it. -/
theorem stringBody_append {kind : Kind} (h : (stringBody cs).shape = .token kind)
    (more : List Char) : stringBody (cs ++ more) = (stringBody cs).followedBy more := by
  obtain ⟨s, rfl, hquotes⟩ := quotes_of_stringBody h
  have hread := stringBody_of_quotes hquotes ((stringBody cs).rest ++ more)
  rw [← List.append_assoc, stringBody_text_append_rest] at hread
  rw [hread, ← h]
  rfl

/-- A number is the same with a line break and more text after it. -/
theorem numberPiece_append (c : Char) (cs more : List Char) :
    numberPiece c (cs ++ '\n' :: more) = (numberPiece c cs).followedBy ('\n' :: more) := by
  obtain ⟨htake, hdrop⟩ := span_append_newline (p := isDigit) rfl cs more
  unfold numberPiece
  rw [htake, hdrop]
  cases cs.dropWhile isDigit with
  | nil => rfl
  | cons d ds =>
      by_cases hd : d = '.'
      · subst hd
        obtain ⟨htake', hdrop'⟩ := span_append_newline (p := isDigit) rfl ds more
        simp [htake', hdrop', Piece.followedBy]
      · simp [hd, Piece.followedBy]

/-- A number that begins with its point is the same with a line break and more text
after it. -/
theorem pointPiece_append {kind : Kind} (h : (pointPiece cs).shape = .token kind)
    (more : List Char) :
    pointPiece (cs ++ '\n' :: more) = (pointPiece cs).followedBy ('\n' :: more) := by
  obtain ⟨htake, hdrop⟩ := span_append_newline (p := isDigit) rfl cs more
  unfold pointPiece at h ⊢
  cases cs with
  | nil => contradiction
  | cons d ds =>
      by_cases hd : isDigit d
      · rw [List.cons_append] at htake hdrop
        simp [hd, htake, hdrop, Piece.followedBy]
      · simp [hd] at h

/-- A symbol is the same with a line break and more text after it: no symbol goes on
with a line break. -/
theorem symbolPiece_append (c : Char) (cs more : List Char) :
    symbolPiece c (cs ++ '\n' :: more) = (symbolPiece c cs).followedBy ('\n' :: more) := by
  unfold symbolPiece
  cases withEquals? c with
  | none => cases single? c <;> rfl
  | some o =>
      cases cs with
      | nil => cases single? c <;> rfl
      | cons d ds =>
          by_cases hd : d = '='
          · subst hd
            rfl
          · cases single? c <;> simp [hd, Piece.followedBy]

/-- A token ends at the line break, or before. -/
theorem front_append_of_token {kind : Kind} (h : (front c cs).shape = .token kind)
    (more : List Char) :
    front c (cs ++ '\n' :: more) = (front c cs).followedBy ('\n' :: more) := by
  revert h
  unfold front
  split
  · intro h
    contradiction
  split
  · intro h
    contradiction
  split
  · intro h
    rw [stringBody_append h]
    rfl
  split
  · intro _
    exact numberPiece_append c cs more
  split
  · intro h
    exact pointPiece_append h more
  split
  · intro _
    obtain ⟨htake, hdrop⟩ := span_append_newline (p := isWordChar) rfl cs more
    simp [wordPiece, htake, hdrop, Piece.followedBy]
  · intro _
    exact symbolPiece_append c cs more

/-- What stands at the front of a text, and is no fault, stands there also when a line
break and more text follow. -/
theorem Starts.append (h : Starts p text rest item) (hitem : ∀ e, item ≠ some (.error e))
    (more : List Char) : Starts p text (rest ++ '\n' :: more) item := by
  obtain ⟨c, cs, shape, _, hfront, rfl⟩ := h.exists_front
  have happend : front c (cs ++ '\n' :: more) = (front c cs).followedBy ('\n' :: more) := by
    cases hfound : (front c cs).item? p with
    | none => exact front_append_of_blank (shape_of_item?_eq_none hfound) more
    | some found =>
        cases found with
        | error e =>
            rw [hfront] at hfound
            exact absurd hfound (hitem e)
        | ok t => exact front_append_of_token (item?_eq_ok hfound).1 more
  have hstarts := starts_front p c (cs ++ '\n' :: more)
  rw [happend, hfront] at hstarts
  exact hstarts

theorem Lexes.ne_nil (h : Lexes p cs items) : items ≠ [] := by
  induction h with
  | finish p => simp
  | piece _ _ ih => simp [ih]

/-- The items of a text without faults are those that it has when a line break and more
text follow, and the items of these come after. -/
theorem Lexes.append {more : List Char} (h : Lexes p cs items) (hitems : ∀ e, .error e ∉ items)
    (hmore : Lexes (p.advance cs) ('\n' :: more) items') :
    Lexes p (cs ++ '\n' :: more) (items.dropLast ++ items') := by
  induction h with
  | finish p => exact hmore
  | @piece p text rest item items h hrest ih =>
      rw [Position.advance_append] at hmore
      have hitem : ∀ e, item ≠ some (.error e) := by
        rintro e rfl
        exact hitems e (by simp)
      have htail : ∀ e, .error e ∉ items := fun e he => hitems e (List.mem_append_right _ he)
      have hpiece := Lexes.piece (h.append hitem more) (ih htail hmore)
      rw [List.dropLast_append_of_ne_nil hrest.ne_nil, List.append_assoc, List.append_assoc]
      exact hpiece

/-! ## Two texts -/

/-- A character that spells a token, and starts no longer one, is the first item. -/
theorem Lexes.mark {kind : Kind} (hkind : single? c = some kind) (hequals : withEquals? c = none)
    (h : Lexes (p.step c) cs items) :
    Lexes p (c :: cs) (.ok ⟨kind, String.ofList [c], p⟩ :: items) := by
  have hfront : front c cs = ⟨.token kind, [c], cs⟩ := by
    simp [front_single hkind, symbolPiece, hequals, hkind]
  have hstarts := starts_front p c cs
  rw [hfront] at hstarts
  exact .piece hstarts h

end Scan

/-- The lines before the second of two texts: those of the first and that of the
semicolon. -/
def linesBefore (first : String) : Nat := first.toList.count '\n' + 2

/-- The semicolon between two texts. -/
def semicolonAfter (first : String) : Token :=
  ⟨.semicolon, ";", (Position.after first.toList).step '\n'⟩

/-- How far down the second of two texts stands. -/
theorem Position.first_down_linesBefore (first : String) :
    Position.first.down (linesBefore first) =
      (((Position.first.advance first.toList).step '\n').step ';').step '\n' := by
  rw [first_advance]
  simp [Position.first, down, after, linesBefore, step]
  omega

open Scan in
/-- A text without faults and another one after a semicolon have the items of the first
up to its end, and then those of the second further down. -/
theorem scan_joinTexts {first : String} (h : ∀ e, .error e ∉ scan first) (second : String) :
    ∃ line line' : Token, line.kind = .newline ∧ line'.kind = .newline ∧
      scan (joinTexts first second) = (scan first).dropLast ++
        .ok line :: .ok (semicolonAfter first) :: .ok line' ::
        (scan second).map (Item.relocate (.down (linesBefore first))) := by
  have hfirst := (lexes_iff first _).mpr rfl
  have hsecond := ((lexes_iff second _).mpr rfl).down (linesBefore first)
  rw [Position.first_down_linesBefore] at hsecond
  have hbreak := hsecond.mark (c := '\n') rfl rfl
  have hsemicolon := hbreak.mark (c := ';') rfl rfl
  have hjoined := hfirst.append h (hsemicolon.mark (c := '\n') rfl rfl)
  have htext : first.toList ++ '\n' :: ';' :: '\n' :: second.toList =
      (joinTexts first second).toList := by
    simp [joinTexts]
  rw [htext, lexes_iff, Position.first_advance] at hjoined
  exact ⟨_, _, rfl, rfl, hjoined.symm⟩

/-- Without an error among the first results, the first error is one of the others. -/
theorem firstErrorOr_map_ok_append {ε α : Type} (as : List α) (results : List (Except ε α)) :
    firstErrorOr (as.map .ok ++ results) = (firstErrorOr results).map (as ++ ·) := by
  induction as with
  | nil => cases hrest : firstErrorOr results <;> simp [hrest, Except.map]
  | cons a as ih =>
      rw [List.map_cons, List.cons_append, firstErrorOr, ih]
      cases firstErrorOr results <;> rfl

/-- Moving the items of a scan moves its tokens, or its error. -/
theorem firstErrorOr_relocate (f : Position → Position) (items : List Scan.Item) :
    firstErrorOr (items.map (Scan.Item.relocate f)) =
      ((firstErrorOr items).map (List.map (Token.relocate f))).mapError
        (LexicalError.relocate f) := by
  fun_induction firstErrorOr items with
  | case1 => rfl
  | case2 e rest => rfl
  | case3 t rest ih =>
      rw [List.map_cons]
      show (firstErrorOr (rest.map _)).map _ = _
      rw [ih]
      cases firstErrorOr rest <;> rfl

/-- Of a text with the given tokens, the scan has no fault and ends with the end of
input. -/
theorem scan_of_tokenize {source : String} {body : List Token} {eoi : Token}
    (h : tokenize source = .ok (body ++ [eoi])) :
    (∀ e, .error e ∉ scan source) ∧
      (scan source).dropLast.filter (fun item => !Scan.Item.isNewline item) = body.map .ok := by
  rw [tokenize_eq_ok_iff] at h
  refine ⟨fun e he => ?_, ?_⟩
  · have hmem : .error e ∈ (scan source).filter fun item => !Scan.Item.isNewline item :=
      List.mem_filter.mpr ⟨he, rfl⟩
    rw [h] at hmem
    simp at hmem
  · obtain ⟨slices, hscanned⟩ := Scan.exists_scanned source
    obtain ⟨init, hinit, _⟩ := hscanned.items_eq
    rw [hinit, List.filter_append, List.map_append] at h
    rw [hinit, List.dropLast_concat]
    exact (List.append_inj' h rfl).1

/-- A line break stays one elsewhere. -/
theorem isNewline_relocate (f : Position → Position) (item : Scan.Item) :
    Scan.Item.isNewline (Scan.Item.relocate f item) = Scan.Item.isNewline item := by
  cases item <;> rfl

/-- The tokens of two texts joined by a semicolon: those of the first up to the end of
input, the semicolon, and those of the second further down; or the fault of the second
further down. -/
theorem tokenize_joinTexts {first : String} {body : List Token} {eoi : Token}
    (h : tokenize first = .ok (body ++ [eoi])) (second : String) :
    tokenize (joinTexts first second) =
      ((tokenize second).map fun ts => body ++ semicolonAfter first ::
          ts.map (Token.relocate (.down (linesBefore first)))).mapError
        (LexicalError.relocate (.down (linesBefore first))) := by
  obtain ⟨hclean, hbody⟩ := scan_of_tokenize h
  obtain ⟨line, line', hline, hline', hscan⟩ := scan_joinTexts hclean second
  have hkept : ((scan second).map (Scan.Item.relocate (.down (linesBefore first)))).filter
      (fun item => !Scan.Item.isNewline item) =
      ((scan second).filter fun item => !Scan.Item.isNewline item).map
        (Scan.Item.relocate (.down (linesBefore first))) := by
    simp [List.filter_map, Function.comp_def, isNewline_relocate]
  have hmarks : (scan (joinTexts first second)).filter (fun item => !Scan.Item.isNewline item) =
      (body ++ [semicolonAfter first]).map .ok ++
        ((scan second).filter fun item => !Scan.Item.isNewline item).map
          (Scan.Item.relocate (.down (linesBefore first))) := by
    rw [hscan, List.filter_append, hbody, ← hkept]
    simp [Scan.Item.isNewline, hline, hline', semicolonAfter]
  rw [tokenize, hmarks, firstErrorOr_map_ok_append, firstErrorOr_relocate, ← tokenize]
  cases tokenize second <;> simp [Except.map, Except.mapError]

end Abacus
