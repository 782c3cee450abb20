import Lox.Number.Spelling

/-! # Documents

Nested data with named parts, and the text of it with two blanks for each level. -/

namespace Lox

inductive Document where
  | null
  | count (n : Nat)
  /-- A number of the language; one without a spelling is written as null. -/
  | number (x : Float)
  | text (s : String)
  | list (items : List Document)
  | record (fields : List (String × Document))

namespace Document

/-- A record with one field. -/
def tagged (tag : String) (d : Document) : Document := .record [(tag, d)]

def hexDigit (n : Nat) : Char := (Nat.digitChar (n % 16))

/-- Quotes, backslashes and control characters are escaped, and nothing else. -/
def escape (c : Char) : String :=
  match c with
  | '"' => "\\\""
  | '\\' => "\\\\"
  | '\x08' => "\\b"
  | '\x0c' => "\\f"
  | '\n' => "\\n"
  | '\r' => "\\r"
  | '\t' => "\\t"
  | c =>
    if c.toNat < 0x20 then
      String.ofList ['\\', 'u', '0', '0', hexDigit (c.toNat / 16), hexDigit c.toNat]
    else c.toString

def quoted (s : String) : String := "\"" ++ String.join (s.toList.map escape) ++ "\""

/-- A line break and the blanks of a level. -/
def newline (level : Nat) : String := String.ofList ('\n' :: List.replicate (2 * level) ' ')

mutual

/-- The text of a document whose last line stands at `level`. -/
def render (level : Nat) : Document → String
  | .null => "null"
  | .count n => toString n
  | .number x => (Number.inOutline? x).getD "null"
  | .text s => quoted s
  | .list [] => "[]"
  | .list (d :: ds) =>
    "[" ++ newline (level + 1) ++ render (level + 1) d ++ renderItems (level + 1) ds ++
      newline level ++ "]"
  | .record [] => "\x7b\x7d"
  | .record ((key, d) :: fields) =>
    "\x7b" ++ newline (level + 1) ++ quoted key ++ ": " ++ render (level + 1) d ++
      renderFields (level + 1) fields ++ newline level ++ "\x7d"

/-- The items after the first, each with the comma before it. -/
def renderItems (level : Nat) : List Document → String
  | [] => ""
  | d :: ds => "," ++ newline level ++ render level d ++ renderItems level ds

/-- The fields after the first, each with the comma before it. -/
def renderFields (level : Nat) : List (String × Document) → String
  | [] => ""
  | (key, d) :: fields =>
    "," ++ newline level ++ quoted key ++ ": " ++ render level d ++ renderFields level fields

end

/-- The text of a document on its own. -/
def pretty (d : Document) : String := render 0 d

end Document
end Lox
