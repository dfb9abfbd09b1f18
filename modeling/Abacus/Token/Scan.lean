import Abacus.Text.Ascii
import Abacus.Token.Basic

/-!
# Abacus.Token.Scan

Reading a text as tokens.  `front` recognises the piece of text that starts
with a given character: a blank, a token or a fault.  No piece is empty and
nothing is lost (`front_text_append_rest`), so `scan` goes through the text
piece by piece and ends with one end-of-input token.  A fault does not stop
`scan`; `tokenize` is the strict reading, which drops line breaks and fails
with the first fault.
-/

namespace Abacus

/-! ## Lexical faults -/

/-- A fault in the spelling of a source text, with its place. -/
inductive LexicalError where
  /-- A character that starts no token. -/
  | unexpectedChar (c : Char) (pos : Position)
  /-- A string whose closing quote is missing; the place is its opening quote. -/
  | unterminatedString (pos : Position)
  /-- An escape that stands for no character; the place is its backslash. -/
  | unknownEscape (c : Char) (pos : Position)
deriving DecidableEq, Repr

namespace LexicalError

/-- Where a lexical fault is reported. -/
def pos : LexicalError → Position
  | unexpectedChar _ p => p
  | unterminatedString p => p
  | unknownEscape _ p => p

/-- What a lexical fault says, its place apart. -/
def text : LexicalError → String
  | unexpectedChar c _ => "Unexpected character '" ++ c.toString ++ "'"
  | unterminatedString _ => "Unterminated string"
  | unknownEscape c _ => "Unknown escape sequence '\\" ++ c.toString ++ "'"

end LexicalError

namespace Scan

open Text (isDigit isLetter)

/-! ## Character classes -/

/-- A character that separates tokens on a line. -/
def isBlank (c : Char) : Bool := c = ' ' || c = '\r' || c = '\t'

/-- A character that may start a word. -/
def isWordStart (c : Char) : Bool := isLetter c || c = '_'

/-- A character that may continue a word. -/
def isWordChar (c : Char) : Bool := isWordStart c || isDigit c

/-- A character of a comment: anything but a line break. -/
def isCommentChar (c : Char) : Bool := c ≠ '\n'

/-! ## Pieces -/

/-- What a piece of text is. -/
inductive Shape where
  | blank
  | token (kind : Kind)
  | unexpected (c : Char)
  | unterminated
  | badEscape (c : Char)
deriving DecidableEq, Repr

/-- A recognised piece: what it is, its text and the text after it. -/
structure Piece where
  shape : Shape
  text : List Char
  rest : List Char
deriving DecidableEq, Repr

/-- Put a character in front of a piece's text. -/
def Piece.consText (c : Char) (p : Piece) : Piece := { p with text := c :: p.text }

/-! ## Strings -/

/-- The character that a backslash and `c` stand for. -/
def unescape? : Char → Option Char
  | 'n' => some '\n'
  | 't' => some '\t'
  | 'r' => some '\r'
  | '0' => some '\x00'
  | '"' => some '"'
  | '\\' => some '\\'
  | _ => none

/-- Put a character in front of the contents of a string piece. -/
def Piece.consContents (d : Char) (p : Piece) : Piece :=
  match p.shape with
  | .token (.string s) => { p with shape := .token (.string (String.singleton d ++ s)) }
  | _ => p

/-- The piece of a string after its opening quote. -/
def stringBody : List Char → Piece
  | [] => ⟨.unterminated, [], []⟩
  | '"' :: cs => ⟨.token (.string ""), ['"'], cs⟩
  | ['\\'] => ⟨.unterminated, ['\\'], []⟩
  | '\\' :: c :: cs =>
    match unescape? c with
    | some d => (((stringBody cs).consContents d).consText c).consText '\\'
    | none => ⟨.badEscape c, ['\\', c], cs⟩
  | c :: cs => ((stringBody cs).consContents c).consText c

/-! ## Numbers, words and symbols -/

/-- The piece of a number that starts with the digit `c`: digits, and perhaps a
point with more digits. -/
def numberPiece (c : Char) (cs : List Char) : Piece :=
  let whole := cs.takeWhile isDigit
  match cs.dropWhile isDigit with
  | '.' :: ds =>
    ⟨.token .number, c :: whole ++ '.' :: ds.takeWhile isDigit, ds.dropWhile isDigit⟩
  | rest => ⟨.token .number, c :: whole, rest⟩

/-- The piece that starts with a point: a number if a digit follows. -/
def pointPiece (cs : List Char) : Piece :=
  match cs with
  | d :: _ =>
    if isDigit d then ⟨.token .number, '.' :: cs.takeWhile isDigit, cs.dropWhile isDigit⟩
    else ⟨.unexpected '.', ['.'], cs⟩
  | [] => ⟨.unexpected '.', ['.'], []⟩

/-- The kind of a whole word: a reserved word or a name. -/
def wordKind (w : String) : Kind :=
  match Keyword.ofWord? w with
  | some k => .keyword k
  | none => .identifier

/-- The piece of a word that starts with `c`. -/
def wordPiece (c : Char) (cs : List Char) : Piece :=
  let text := c :: cs.takeWhile isWordChar
  ⟨.token (wordKind (String.ofList text)), text, cs.dropWhile isWordChar⟩

/-- The operator that `c` and a following equals sign spell. -/
def withEquals? : Char → Option Operator
  | '=' => some .equal
  | '!' => some .notEqual
  | '<' => some .lessEqual
  | '>' => some .greaterEqual
  | _ => none

/-- The token that `c` spells on its own. -/
def single? : Char → Option Kind
  | '(' => some .leftParen
  | ')' => some .rightParen
  | '\x7b' => some .leftBrace
  | '\x7d' => some .rightBrace
  | ',' => some .comma
  | ':' => some .colon
  | ';' => some .semicolon
  | '\n' => some .newline
  | 'π' => some .identifier
  | '+' => some (.operator .plus)
  | '-' => some (.operator .minus)
  | '*' => some (.operator .star)
  | '/' => some (.operator .slash)
  | '^' => some (.operator .caret)
  | '%' => some (.operator .percent)
  | '=' => some (.operator .assign)
  | '<' => some (.operator .less)
  | '>' => some (.operator .greater)
  | '≤' => some (.operator .lessEqual)
  | '≥' => some (.operator .greaterEqual)
  | '≠' => some (.operator .notEqual)
  | '∑' => some (.operator .sum)
  | '∏' => some (.operator .product)
  | '∫' => some (.operator .integral)
  | _ => none

/-- The piece that starts with the symbol `c`: the longer spelling wins. -/
def symbolPiece (c : Char) (cs : List Char) : Piece :=
  match withEquals? c, cs with
  | some o, '=' :: rest => ⟨.token (.operator o), [c, '='], rest⟩
  | _, _ =>
    match single? c with
    | some k => ⟨.token k, [c], cs⟩
    | none => ⟨.unexpected c, [c], cs⟩

/-! ## The front of a text -/

/-- The piece that starts with `c` when `cs` follows it. -/
def front (c : Char) (cs : List Char) : Piece :=
  if isBlank c then ⟨.blank, [c], cs⟩
  else if c = '#' then ⟨.blank, c :: cs.takeWhile isCommentChar, cs.dropWhile isCommentChar⟩
  else if c = '"' then (stringBody cs).consText c
  else if isDigit c then numberPiece c cs
  else if c = '.' then pointPiece cs
  else if isWordStart c then wordPiece c cs
  else symbolPiece c cs

@[simp] theorem consText_text (c : Char) (p : Piece) : (p.consText c).text = c :: p.text := rfl

@[simp] theorem consText_rest (c : Char) (p : Piece) : (p.consText c).rest = p.rest := rfl

@[simp] theorem consContents_text (d : Char) (p : Piece) : (p.consContents d).text = p.text := by
  unfold Piece.consContents; split <;> rfl

@[simp] theorem consContents_rest (d : Char) (p : Piece) : (p.consContents d).rest = p.rest := by
  unfold Piece.consContents; split <;> rfl

/-- Nothing of a string body is lost. -/
theorem stringBody_text_append_rest (cs : List Char) :
    (stringBody cs).text ++ (stringBody cs).rest = cs := by
  fun_induction stringBody cs <;> simp_all

/-- A number piece and the text after it make up the text it was read from. -/
theorem numberPiece_text_append_rest (c : Char) (cs : List Char) :
    (numberPiece c cs).text ++ (numberPiece c cs).rest = c :: cs := by
  have h := List.takeWhile_append_dropWhile (p := isDigit) (l := cs)
  unfold numberPiece
  split
  · next ds hd =>
    rw [hd] at h
    simp [List.takeWhile_append_dropWhile, h]
  · simp

/-- A piece and the text after it make up the text it was read from. -/
theorem front_text_append_rest (c : Char) (cs : List Char) :
    (front c cs).text ++ (front c cs).rest = c :: cs := by
  unfold front
  split
  · rfl
  split
  · simp [List.takeWhile_append_dropWhile]
  split
  · simp [stringBody_text_append_rest]
  split
  · exact numberPiece_text_append_rest c cs
  split
  · next h =>
    unfold pointPiece
    split
    · split <;> simp [List.takeWhile_append_dropWhile, h]
    · simp [h]
  split
  · simp [wordPiece, List.takeWhile_append_dropWhile]
  · unfold symbolPiece
    split
    · rfl
    · split <;> rfl

/-- No piece is empty. -/
theorem front_text_ne_nil (c : Char) (cs : List Char) : (front c cs).text ≠ [] := by
  unfold front
  repeat' split
  · simp
  · simp
  · simp
  · unfold numberPiece; split <;> simp
  · unfold pointPiece
    split
    · split <;> simp
    · simp
  · simp [wordPiece]
  · unfold symbolPiece
    split
    · simp
    · split <;> simp

/-- What follows a piece is shorter than the text it was read from. -/
theorem length_front_rest_lt (c : Char) (cs : List Char) :
    (front c cs).rest.length < (c :: cs).length := by
  have h := congrArg List.length (front_text_append_rest c cs)
  have hne := List.length_pos_iff.mpr (front_text_ne_nil c cs)
  rw [List.length_append] at h
  omega

/-! ## The whole text -/

/-- An element of a scan: a token or a fault. -/
abbrev Item := Except LexicalError Token

/-- What a piece that starts at `p` contributes to a scan. -/
def Piece.item? (p : Position) (piece : Piece) : Option Item :=
  match piece.shape with
  | .blank => none
  | .token k => some (.ok ⟨k, String.ofList piece.text, p⟩)
  | .unexpected c => some (.error (.unexpectedChar c p))
  | .unterminated => some (.error (.unterminatedString p))
  | .badEscape c => some (.error (.unknownEscape c (p.advance piece.text.dropLast.dropLast)))

/-- Scan a text that starts at `p`, reading at most `n` pieces. -/
def itemsFrom : Nat → Position → List Char → List Item
  | _, p, [] => [.ok (Token.finish p)]
  | 0, p, _ :: _ => [.ok (Token.finish p)]
  | n + 1, p, c :: cs =>
    let piece := front c cs
    match piece.item? p with
    | some item => item :: itemsFrom n (p.advance piece.text) piece.rest
    | none => itemsFrom n (p.advance piece.text) piece.rest

end Scan

/-- Scan a source text: tokens, line breaks and faults in order, then the end
of input.  No text has more pieces than characters, so all of it is read. -/
def scan (source : String) : List Scan.Item :=
  Scan.itemsFrom source.toList.length .first source.toList

/-- The values of a list of results, or its first error. -/
def firstErrorOr {ε α : Type} : List (Except ε α) → Except ε (List α)
  | [] => .ok []
  | .error e :: _ => .error e
  | .ok a :: rest => (firstErrorOr rest).map (a :: ·)

/-- Whether an element of a scan is a line break. -/
def Scan.Item.isNewline : Scan.Item → Bool
  | .ok t => t.kind = .newline
  | .error _ => false

/-- The tokens of a source text without line breaks, or its first fault. -/
def tokenize (source : String) : Except LexicalError (List Token) :=
  firstErrorOr ((scan source).filter fun item => !Scan.Item.isNewline item)

/-- The tokens of a source text with its line breaks, or its first fault. -/
def tokenizeLines (source : String) : Except LexicalError (List Token) :=
  firstErrorOr (scan source)

end Abacus
