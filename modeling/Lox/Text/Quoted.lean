/-! # Quoted names

A name in a message stands in double quotes. Inside them quotes and backslashes are escaped, and so is
every character that would not show. -/

namespace Lox.Quoted

/-- Lower-case hexadecimal without leading zeros. -/
def hex (n : Nat) : String := String.ofList (Nat.toDigits 16 n)

/-- A character that leaves no mark of its own: the controls, and outside ASCII the blanks, the
    format characters, the surrogate and private areas and the combining marks of the common blocks. -/
def isInvisible (c : Char) : Bool :=
  let n := c.toNat
  n < 0x20 || (0x7F ≤ n && n ≤ 0xA0) || n = 0xAD || (0x300 ≤ n && n ≤ 0x36F) || n = 0x1680 ||
    (0x2000 ≤ n && n ≤ 0x200F) || (0x2028 ≤ n && n ≤ 0x202F) || (0x205F ≤ n && n ≤ 0x206F) ||
    n = 0x3000 || (0xE000 ≤ n && n ≤ 0xF8FF) || (0xFE00 ≤ n && n ≤ 0xFE0F) ||
    (0xFE20 ≤ n && n ≤ 0xFE2F) || n = 0xFEFF || (0xFFF0 ≤ n && n ≤ 0xFFFB) || 0xE0000 ≤ n

def escape (c : Char) : String :=
  match c with
  | '\x00' => "\\0"
  | '\t' => "\\t"
  | '\r' => "\\r"
  | '\n' => "\\n"
  | '\'' => "\\'"
  | '"' => "\\\""
  | '\\' => "\\\\"
  | c => if isInvisible c then "\\u\x7b" ++ hex c.toNat ++ "\x7d" else c.toString

/-- The name in quotes. -/
def quote (name : String) : String :=
  "\"" ++ String.join (name.toList.map escape) ++ "\""

end Lox.Quoted
