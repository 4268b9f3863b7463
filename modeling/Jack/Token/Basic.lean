/-!
The lexical vocabulary of Jack: reserved words, symbol characters, and the five kinds of
token. Spellings are written once, as `text` and `char`; reading a spelling back searches
the list of all words or symbols for it, so neither table can disagree with the other.
-/

namespace Jack

inductive Keyword
  | «class» | constructor | function | method | field | static | var | int | char | boolean
  | void | «true» | «false» | null | this | «let» | «do» | «if» | «else» | «while» | «return»
deriving DecidableEq, Repr

namespace Keyword

def text : Keyword → String
  | .class => "class"
  | .constructor => "constructor"
  | .function => "function"
  | .method => "method"
  | .field => "field"
  | .static => "static"
  | .var => "var"
  | .int => "int"
  | .char => "char"
  | .boolean => "boolean"
  | .void => "void"
  | .true => "true"
  | .false => "false"
  | .null => "null"
  | .this => "this"
  | .let => "let"
  | .do => "do"
  | .if => "if"
  | .else => "else"
  | .while => "while"
  | .return => "return"

def all : List Keyword :=
  [.class, .constructor, .function, .method, .field, .static, .var, .int, .char, .boolean,
    .void, .true, .false, .null, .this, .let, .do, .if, .else, .while, .return]

/-- The keyword a word spells; upper and lower case differ. -/
def ofText? (word : String) : Option Keyword :=
  all.find? (·.text == word)

theorem ofText?_text (k : Keyword) : ofText? k.text = some k := by
  cases k <;> decide

theorem text_injective {k k' : Keyword} (h : k.text = k'.text) : k = k' := by
  have := ofText?_text k
  rw [h, ofText?_text] at this
  exact (Option.some.inj this).symm

end Keyword

inductive Symbol
  | leftBrace | rightBrace | leftParen | rightParen | leftBracket | rightBracket
  | dot | comma | semicolon | plus | minus | asterisk | slash | ampersand | pipe
  | lessThan | greaterThan | equals | tilde
deriving DecidableEq, Repr

namespace Symbol

def char : Symbol → Char
  | leftBrace => '\x7b'
  | rightBrace => '\x7d'
  | leftParen => '('
  | rightParen => ')'
  | leftBracket => '['
  | rightBracket => ']'
  | dot => '.'
  | comma => ','
  | semicolon => ';'
  | plus => '+'
  | minus => '-'
  | asterisk => '*'
  | slash => '/'
  | ampersand => '&'
  | pipe => '|'
  | lessThan => '<'
  | greaterThan => '>'
  | equals => '='
  | tilde => '~'

def all : List Symbol :=
  [leftBrace, rightBrace, leftParen, rightParen, leftBracket, rightBracket, dot, comma,
    semicolon, plus, minus, asterisk, slash, ampersand, pipe, lessThan, greaterThan, equals,
    tilde]

def ofChar? (c : Char) : Option Symbol :=
  all.find? (·.char == c)

def text (s : Symbol) : String :=
  String.singleton s.char

theorem ofChar?_char (s : Symbol) : ofChar? s.char = some s := by
  cases s <;> decide

theorem char_of_ofChar? {c : Char} {s : Symbol} (h : ofChar? c = some s) : s.char = c := by
  simpa using List.find?_some h

theorem char_injective {s s' : Symbol} (h : s.char = s'.char) : s = s' := by
  have := ofChar?_char s
  rw [h, ofChar?_char] at this
  exact (Option.some.inj this).symm

end Symbol

inductive Token
  | keyword (word : Keyword)
  | symbol (character : Symbol)
  | integer (value : UInt32)
  | string (text : String)
  | identifier (name : String)
deriving DecidableEq, Repr

/-- How an error message names a token. A string stands between its quotes as it is. -/
def Token.description : Token → String
  | .keyword word => s!"keyword '{word.text}'"
  | .symbol character => s!"symbol '{character.text}'"
  | .integer value => s!"integer constant {value}"
  | .string text => s!"string constant \"{text}\""
  | .identifier name => s!"identifier '{name}'"

/-- A token and the line, counted from 1, on which it begins. -/
structure Located where
  token : Token
  line : Nat
deriving DecidableEq, Repr

end Jack
