/-! # UTF-8

Bytes from outside are text only when they are well-formed UTF-8. A fault is the longest start of a
character that no further byte can complete; it is told apart from text that ends inside a
character. -/

namespace Lox.Utf8

/-- Where and why bytes are not text. -/
structure Fault where
  /-- The index of the first byte of the fault. -/
  index : Nat
  /-- How many bytes are at fault; nothing when the text ends inside a character. -/
  size? : Option Nat
deriving DecidableEq, Repr

def Fault.message (f : Fault) : String :=
  match f.size? with
  | some n => "invalid utf-8 sequence of " ++ toString n ++ " bytes from index " ++ toString f.index
  | none => "incomplete utf-8 byte sequence from index " ++ toString f.index

/-- What stands at the front of some bytes: a character of so many bytes, so many bytes at fault, or a
    start that the end of the bytes cuts off. -/
inductive Front where
  | char (c : Char) (size : Nat)
  | bad (size : Nat)
  | cut
deriving DecidableEq, Repr

/-- The six low bits of a continuation byte. -/
def low (b : UInt8) : Nat := b.toNat % 64

def isContinuation (b : UInt8) : Bool := 0x80 ≤ b && b ≤ 0xBF

/-- Whether `second` may follow `first`, the first byte of a character of three or four bytes. This
    leaves out longer forms than needed, surrogates, and what lies above the last code point. -/
def admitsSecond (first second : UInt8) : Bool :=
  isContinuation second &&
    match first with
    | 0xE0 => 0xA0 ≤ second
    | 0xED => second ≤ 0x9F
    | 0xF0 => 0x90 ≤ second
    | 0xF4 => second ≤ 0x8F
    | _ => true

def front (first : UInt8) (rest : List UInt8) : Front :=
  if first < 0x80 then .char (Char.ofNat first.toNat) 1
  else if 0xC2 ≤ first && first ≤ 0xDF then
    match rest with
    | [] => .cut
    | b :: _ =>
      if isContinuation b then .char (Char.ofNat (first.toNat % 32 * 64 + low b)) 2 else .bad 1
  else if 0xE0 ≤ first && first ≤ 0xEF then
    match rest with
    | [] => .cut
    | b :: rest =>
      if admitsSecond first b then
        match rest with
        | [] => .cut
        | c :: _ =>
          if isContinuation c then
            .char (Char.ofNat ((first.toNat % 16 * 64 + low b) * 64 + low c)) 3
          else .bad 2
      else .bad 1
  else if 0xF0 ≤ first && first ≤ 0xF4 then
    match rest with
    | [] => .cut
    | b :: rest =>
      if admitsSecond first b then
        match rest with
        | [] => .cut
        | c :: rest =>
          if isContinuation c then
            match rest with
            | [] => .cut
            | d :: _ =>
              if isContinuation d then
                .char (Char.ofNat (((first.toNat % 8 * 64 + low b) * 64 + low c) * 64 + low d)) 4
              else .bad 3
          else .bad 2
      else .bad 1
  else .bad 1

theorem length_drop_lt (b : UInt8) (rest : List UInt8) (n : Nat) :
    (rest.drop n).length < (b :: rest).length := by
  rw [List.length_drop, List.length_cons]
  exact Nat.lt_succ_of_le (Nat.sub_le _ _)

/-- Decodes from byte `index` on; `read` holds the characters so far, the last one first. -/
def decodeFrom (read : List Char) (index : Nat) : List UInt8 → Except Fault String
  | [] => .ok (String.ofList read.reverse)
  | b :: rest =>
    match front b rest with
    | .char c size => decodeFrom (c :: read) (index + size) (rest.drop (size - 1))
    | .bad size => .error ⟨index, some size⟩
    | .cut => .error ⟨index, none⟩
termination_by bytes => bytes.length
decreasing_by exact length_drop_lt b rest _

/-- The text that the bytes stand for. -/
def decode (bytes : ByteArray) : Except Fault String := decodeFrom [] 0 bytes.toList

/-- Decodes whatever the bytes are: each fault, and an unfinished end, is shown as `U+FFFD`. -/
def decodeLossyFrom (read : List Char) : List UInt8 → String
  | [] => String.ofList read.reverse
  | b :: rest =>
    match front b rest with
    | .char c size => decodeLossyFrom (c :: read) (rest.drop (size - 1))
    | .bad size => decodeLossyFrom ('\uFFFD' :: read) (rest.drop (size - 1))
    | .cut => String.ofList ('\uFFFD' :: read).reverse
termination_by bytes => bytes.length
decreasing_by all_goals exact length_drop_lt b rest _

/-- The text that the bytes stand for, as far as they stand for any. -/
def decodeLossy (bytes : ByteArray) : String := decodeLossyFrom [] bytes.toList

end Lox.Utf8
