import Jack.Token.Basic
import Jack.Text.Blank

/-!
From text to located tokens. The text is cut from the left into lexemes: comments and runs of
blanks, which carry no token, and the spellings of tokens. A lexeme knows the characters it
took and the characters left, and that together they are the text it was cut from, so a scan
can neither lose nor repeat a character.
-/

namespace Jack

/-- Why the text cannot be cut any further. -/
inductive LexicalFault
  | unterminatedComment
  | unterminatedString
  | unexpected (c : Char)
  | notAscii (c : Char)
  | tooLarge (digits : String)
deriving DecidableEq, Repr

/-- The largest integer constant of the language, and of the machine below it. -/
def maxInteger : Nat := 32767

def LexicalFault.message : LexicalFault → String
  | unterminatedComment => "unterminated block comment"
  | unterminatedString => "unterminated string constant"
  | unexpected c => s!"unexpected character '{c}'"
  | notAscii c => s!"character '{c}' in string constant is not ASCII"
  | tooLarge digits => s!"integer constant {digits} is larger than {maxInteger}"

structure LexicalError where
  line : Nat
  fault : LexicalFault
deriving DecidableEq, Repr

/-- One piece at the front of a text; it has no token if it is a comment or blank. -/
structure Lexeme (text : List Char) where
  taken : List Char
  token : Option Token
  rest : List Char
  taken_append_rest : taken ++ rest = text
  taken_ne_nil : taken ≠ []

namespace Lexeme

theorem rest_length_lt {text : List Char} (piece : Lexeme text) :
    piece.rest.length < text.length := by
  have whole := congrArg List.length piece.taken_append_rest
  have nonempty := List.length_pos_iff.mpr piece.taken_ne_nil
  simp only [List.length_append] at whole
  omega

/-- The first character and all that follow it for as long as they satisfy `p`. -/
def run (p : Char → Bool) (first : Char) (more : List Char)
    (token : List Char → Option Token) : Lexeme (first :: more) where
  taken := first :: more.takeWhile p
  token := token (first :: more.takeWhile p)
  rest := more.dropWhile p
  taken_append_rest := by simp
  taken_ne_nil := by simp

end Lexeme

def isWordStart (c : Char) : Bool := c.isAlpha || c == '_'

def isWordPart (c : Char) : Bool := c.isAlphanum || c == '_'

def isAscii (c : Char) : Bool := c.toNat < 128

def wordToken (word : List Char) : Token :=
  let word := String.ofList word
  match Keyword.ofText? word with
  | some keyword => .keyword keyword
  | none => .identifier word

/-- The number that decimal digits write; leading zeros are allowed. -/
def digitsValue (digits : List Char) : Nat :=
  digits.foldl (fun value digit => 10 * value + (digit.toNat - '0'.toNat)) 0

/-- The length of a comment's body, which ends where `*` and `/` first stand together. -/
def commentBody? : List Char → Option Nat
  | [] => none
  | '*' :: '/' :: _ => some 0
  | _ :: rest => (commentBody? rest).map (· + 1)

def isQuotable (c : Char) : Bool := c != '"' && c != '\n'

namespace Lexeme

/-- The first `n + 1` characters. -/
def first (n : Nat) (c : Char) (more : List Char) (token : Option Token) :
    Lexeme (c :: more) where
  taken := c :: more.take n
  token := token
  rest := more.drop n
  taken_append_rest := by simp
  taken_ne_nil := by simp

/-- What an opening `/` and the characters after it begin. -/
def slash : (more : List Char) → Except LexicalFault (Lexeme ('/' :: more))
  | '/' :: more => .ok (run (· != '\n') '/' ('/' :: more) fun _ => none)
  | '*' :: more =>
    match commentBody? more with
    | some length => .ok (first (length + 3) '/' ('*' :: more) none)
    | none => .error .unterminatedComment
  | more => .ok (first 0 '/' more (some (.symbol .slash)))

/-- A string constant, from one quote to the next on the same line. -/
def quoted (more : List Char) : Except LexicalFault (Lexeme ('"' :: more)) :=
  let body := more.takeWhile isQuotable
  match more.drop body.length with
  | '"' :: _ =>
    match body.find? (! isAscii ·) with
    | some c => .error (.notAscii c)
    | none => .ok (first (body.length + 1) '"' more (some (.string (String.ofList body))))
  | _ => .error .unterminatedString

def number (first : Char) (more : List Char) : Except LexicalFault (Lexeme (first :: more)) :=
  let digits := first :: more.takeWhile Char.isDigit
  if digitsValue digits ≤ maxInteger then
    .ok (run Char.isDigit first more fun digits =>
      some (.integer (UInt32.ofNat (digitsValue digits))))
  else
    .error (.tooLarge (String.ofList digits))

/-- The piece at the front of a nonempty text, chosen by its first character. -/
def next : (c : Char) → (more : List Char) → Except LexicalFault (Lexeme (c :: more))
  | '/', more => slash more
  | '"', more => quoted more
  | c, more =>
    match Symbol.ofChar? c with
    | some character => .ok (first 0 c more (some (.symbol character)))
    | none =>
      if isWordStart c then .ok (run isWordPart c more fun word => some (wordToken word))
      else if c.isDigit then number c more
      else if Text.isBlank c then .ok (run Text.isBlank c more fun _ => none)
      else .error (.unexpected c)

end Lexeme

namespace Located

/-- The tokens of a text whose first character stands on `line`. -/
def scan (line : Nat) (text : List Char) : Except LexicalError (List Located) :=
  match text with
  | [] => .ok []
  | c :: more =>
    match Lexeme.next c more with
    | .error fault => .error ⟨line, fault⟩
    | .ok piece => do
      let others ← scan (line + piece.taken.count '\n') piece.rest
      return (piece.token.map (Located.mk · line)).toList ++ others
termination_by text.length
decreasing_by exact piece.rest_length_lt

def ofText (text : String) : Except LexicalError (List Located) :=
  scan 1 text.toList

end Located

end Jack
