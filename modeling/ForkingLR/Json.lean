/-! JSON documents and their compact text. Numbers and strings keep how they are spelled, so
that a reader decides what it accepts: an unused string may hold half a surrogate pair. -/
namespace ForkingLR

/-- One element of a string literal: a character, or a UTF-16 unit escaped in hexadecimal. -/
inductive StringUnit where
  | char (c : Char)
  | unit (n : Nat)
  deriving DecidableEq, Repr

inductive Json where
  | null
  | bool (b : Bool)
  | number (literal : List Char)
  | string (units : List StringUnit)
  | array (elements : List Json)
  | object (members : List (List StringUnit × Json))

namespace Json

def isHighSurrogate (n : Nat) : Bool := decide (0xD800 ≤ n) && decide (n ≤ 0xDBFF)

def isLowSurrogate (n : Nat) : Bool := decide (0xDC00 ≤ n) && decide (n ≤ 0xDFFF)

def decodeUnits : List StringUnit → Option (List Char)
  | [] => some []
  | .char c :: rest => (decodeUnits rest).map (c :: ·)
  | .unit high :: .unit low :: rest =>
    if isHighSurrogate high then
      if isLowSurrogate low then
        (decodeUnits rest).map (Char.ofNat (0x10000 + (high - 0xD800) * 0x400 + (low - 0xDC00)) :: ·)
      else none
    else if isLowSurrogate high then none
    else (decodeUnits (.unit low :: rest)).map (Char.ofNat high :: ·)
  | .unit n :: rest =>
    if isHighSurrogate n || isLowSurrogate n then none
    else (decodeUnits rest).map (Char.ofNat n :: ·)

def ofString (s : String) : Json := .string (s.toList.map .char)

def ofNat (n : Nat) : Json := .number (Nat.toDigits 10 n)

def ofFields (fields : List (String × Json)) : Json :=
  .object (fields.map fun f => (f.1.toList.map .char, f.2))

def hexDigits (n : Nat) : List Char :=
  [n / 0x1000 % 16, n / 0x100 % 16, n / 0x10 % 16, n % 16].map Nat.digitChar

def writeChar (c : Char) : List Char :=
  match c with
  | '"' => ['\\', '"']
  | '\\' => ['\\', '\\']
  | '\n' => ['\\', 'n']
  | '\r' => ['\\', 'r']
  | '\t' => ['\\', 't']
  | '\x08' => ['\\', 'b']
  | '\x0c' => ['\\', 'f']
  | c => if c.toNat < 0x20 then '\\' :: 'u' :: hexDigits c.toNat else [c]

def writeUnit : StringUnit → List Char
  | .char c => writeChar c
  | .unit n => '\\' :: 'u' :: hexDigits n

def writeString (units : List StringUnit) : List Char := '"' :: units.flatMap writeUnit ++ ['"']

mutual

def write : Json → List Char
  | .null => ['n', 'u', 'l', 'l']
  | .bool true => ['t', 'r', 'u', 'e']
  | .bool false => ['f', 'a', 'l', 's', 'e']
  | .number literal => literal
  | .string units => writeString units
  | .array [] => ['[', ']']
  | .array (e :: rest) => '[' :: write e ++ writeElements rest
  | .object [] => ['\x7b', '\x7d']
  | .object ((key, value) :: rest) =>
    '\x7b' :: writeString key ++ ':' :: write value ++ writeMembers rest

def writeElements : List Json → List Char
  | [] => [']']
  | e :: rest => ',' :: write e ++ writeElements rest

def writeMembers : List (List StringUnit × Json) → List Char
  | [] => ['\x7d']
  | (key, value) :: rest => ',' :: writeString key ++ ':' :: write value ++ writeMembers rest

end

end Json
end ForkingLR
