import Lox.Number.Spelling

/-! # Tokens

The words of a program. A mark or a keyword has one spelling; an identifier, a string and a number
have many, so a token keeps the text it was read from. -/

namespace Lox

/-- Punctuation and operators. -/
inductive Mark where
  | leftParen | rightParen | leftBrace | rightBrace | comma | dot | minus | plus | semicolon
  | slash | star | bang | bangEqual | equal | equalEqual | greater | greaterEqual | less | lessEqual
deriving DecidableEq, Repr

namespace Mark

def all : List Mark :=
  [leftParen, rightParen, leftBrace, rightBrace, comma, dot, minus, plus, semicolon,
    slash, star, bang, bangEqual, equal, equalEqual, greater, greaterEqual, less, lessEqual]

def spelling : Mark → String
  | leftParen => "("
  | rightParen => ")"
  | leftBrace => "\x7b"
  | rightBrace => "\x7d"
  | comma => ","
  | dot => "."
  | minus => "-"
  | plus => "+"
  | semicolon => ";"
  | slash => "/"
  | star => "*"
  | bang => "!"
  | bangEqual => "!="
  | equal => "="
  | equalEqual => "=="
  | greater => ">"
  | greaterEqual => ">="
  | less => "<"
  | lessEqual => "<="

def name : Mark → String
  | leftParen => "LEFT_PAREN"
  | rightParen => "RIGHT_PAREN"
  | leftBrace => "LEFT_BRACE"
  | rightBrace => "RIGHT_BRACE"
  | comma => "COMMA"
  | dot => "DOT"
  | minus => "MINUS"
  | plus => "PLUS"
  | semicolon => "SEMICOLON"
  | slash => "SLASH"
  | star => "STAR"
  | bang => "BANG"
  | bangEqual => "BANG_EQUAL"
  | equal => "EQUAL"
  | equalEqual => "EQUAL_EQUAL"
  | greater => "GREATER"
  | greaterEqual => "GREATER_EQUAL"
  | less => "LESS"
  | lessEqual => "LESS_EQUAL"

/-- The mark that one character spells. -/
def ofChar? : Char → Option Mark
  | '(' => some leftParen
  | ')' => some rightParen
  | '\x7b' => some leftBrace
  | '\x7d' => some rightBrace
  | ',' => some comma
  | '.' => some dot
  | '-' => some minus
  | '+' => some plus
  | ';' => some semicolon
  | '/' => some slash
  | '*' => some star
  | '!' => some bang
  | '=' => some equal
  | '>' => some greater
  | '<' => some less
  | _ => none

/-- The mark that a mark becomes when an equals sign follows it directly. -/
def withEqual? : Mark → Option Mark
  | bang => some bangEqual
  | equal => some equalEqual
  | greater => some greaterEqual
  | less => some lessEqual
  | _ => none

end Mark

/-- The reserved words. -/
inductive Keyword where
  | and | «class» | «else» | false | «fun» | «for» | «if» | nil | or | print | «return»
  | super | this | true | var | «while»
deriving DecidableEq, Repr

namespace Keyword

def all : List Keyword :=
  [and, «class», «else», false, «fun», «for», «if», nil, or, print, «return»,
    super, this, true, var, «while»]

def spelling : Keyword → String
  | and => "and"
  | «class» => "class"
  | «else» => "else"
  | false => "false"
  | «fun» => "fun"
  | «for» => "for"
  | «if» => "if"
  | nil => "nil"
  | or => "or"
  | print => "print"
  | «return» => "return"
  | super => "super"
  | this => "this"
  | true => "true"
  | var => "var"
  | «while» => "while"

def name : Keyword → String
  | and => "AND"
  | «class» => "CLASS"
  | «else» => "ELSE"
  | false => "FALSE"
  | «fun» => "FUN"
  | «for» => "FOR"
  | «if» => "IF"
  | nil => "NIL"
  | or => "OR"
  | print => "PRINT"
  | «return» => "RETURN"
  | super => "SUPER"
  | this => "THIS"
  | true => "TRUE"
  | var => "VAR"
  | «while» => "WHILE"

/-- The keyword that a word is, if it is one. -/
def ofSpelling? (word : String) : Option Keyword := all.find? (·.spelling == word)

end Keyword

/-- What a token is. A string carries its text without the quotes, a number its value. -/
inductive Kind where
  | mark (mark : Mark)
  | keyword (keyword : Keyword)
  | identifier
  | string (content : String)
  | number (value : Float)
  | endOfInput
deriving DecidableEq

namespace Kind

def name : Kind → String
  | mark m => m.name
  | keyword k => k.name
  | identifier => "IDENTIFIER"
  | string _ => "STRING"
  | number _ => "NUMBER"
  | endOfInput => "EOF"

/-- The kind of this name, for the kinds that carry nothing. -/
def ofName? (s : String) : Option Kind :=
  (Mark.all.map mark ++ Keyword.all.map keyword ++ [identifier, endOfInput]).find? (·.name == s)

/-- Equal up to the text of strings and the value of numbers. -/
def sameSort : Kind → Kind → Bool
  | string _, string _ => true
  | number _, number _ => true
  | k, l => k == l

end Kind

/-- A token: what it is, its text, and the line its text ends on. -/
structure Token where
  kind : Kind
  lexeme : String
  line : Nat
deriving DecidableEq

namespace Token

/-- The token after the last one of a program. -/
def atEnd (line : Nat) : Token := ⟨.endOfInput, "", line⟩

def isEnd (t : Token) : Bool := t.kind matches .endOfInput

/-- Same sort of token, same text, same line. -/
def same (t u : Token) : Bool := t.kind.sameSort u.kind && t.lexeme == u.lexeme && t.line == u.line

/-- The token's kind, its text and its payload. -/
def describe (t : Token) : String :=
  let payload := match t.kind with
    | .string content => content
    | .number value => Number.inToken value
    | _ => "null"
  t.kind.name ++ " " ++ t.lexeme ++ " " ++ payload

end Token
end Lox
