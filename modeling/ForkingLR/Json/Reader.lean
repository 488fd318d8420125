import ForkingLR.Json

/-! Reading JSON text. Each reader answers what it read and the text after it. -/
namespace ForkingLR.Json

def isSpace (c : Char) : Bool := c == ' ' || c == '\n' || c == '\t' || c == '\r'

def skipSpace (text : List Char) : List Char := text.dropWhile isSpace

def expect : List Char → List Char → Option (List Char)
  | [], text => some text
  | w :: word, c :: text => if w = c then expect word text else none
  | _ :: _, [] => none

def hexValue? (c : Char) : Option Nat :=
  if c.isDigit then some (c.toNat - '0'.toNat)
  else if 'a' ≤ c && c ≤ 'f' then some (c.toNat - 'a'.toNat + 10)
  else if 'A' ≤ c && c ≤ 'F' then some (c.toNat - 'A'.toNat + 10)
  else none

def readHex : List Char → Option (Nat × List Char)
  | a :: b :: c :: d :: text => do
    let a ← hexValue? a
    let b ← hexValue? b
    let c ← hexValue? c
    let d ← hexValue? d
    some (((a * 16 + b) * 16 + c) * 16 + d, text)
  | _ => none

def unescape? : Char → Option Char
  | '"' => some '"'
  | '\\' => some '\\'
  | '/' => some '/'
  | 'b' => some '\x08'
  | 'f' => some '\x0c'
  | 'n' => some '\n'
  | 'r' => some '\r'
  | 't' => some '\t'
  | _ => none

def readUnit : List Char → Option (StringUnit × List Char)
  | '\\' :: 'u' :: text => (readHex text).map fun (n, text) => (.unit n, text)
  | '\\' :: c :: text => (unescape? c).map fun c => (.char c, text)
  | c :: text => if c.toNat < 0x20 || c = '\\' then none else some (.char c, text)
  | [] => none

def readUnits : Nat → List Char → Option (List StringUnit × List Char)
  | _, '"' :: text => some ([], text)
  | 0, _ => none
  | fuel + 1, text => do
    let (u, text) ← readUnit text
    let (units, text) ← readUnits fuel text
    some (u :: units, text)

def readString (text : List Char) : Option (List StringUnit × List Char) :=
  match text with
  | '"' :: text => readUnits text.length text
  | _ => none

def readDigits (text : List Char) : List Char × List Char :=
  (text.takeWhile Char.isDigit, text.dropWhile Char.isDigit)

def readSomeDigits (text : List Char) : Option (List Char × List Char) :=
  match readDigits text with
  | ([], _) => none
  | found => some found

def readInteger : List Char → Option (List Char × List Char)
  | '0' :: text => if text.head?.any Char.isDigit then none else some (['0'], text)
  | text => readSomeDigits text

def readFraction : List Char → Option (List Char × List Char)
  | '.' :: text => (readSomeDigits text).map fun (digits, text) => ('.' :: digits, text)
  | text => some ([], text)

def readSign : List Char → List Char × List Char
  | '+' :: text => (['+'], text)
  | '-' :: text => (['-'], text)
  | text => ([], text)

def readExponent : List Char → Option (List Char × List Char)
  | c :: text =>
    if c = 'e' || c = 'E' then do
      let (sign, text) := readSign text
      let (digits, text) ← readSomeDigits text
      some (c :: sign ++ digits, text)
    else some ([], c :: text)
  | [] => some ([], [])

def readMinus : List Char → List Char × List Char
  | '-' :: text => (['-'], text)
  | text => ([], text)

def readNumber (text : List Char) : Option (List Char × List Char) := do
  let (minus, text) := readMinus text
  let (integer, text) ← readInteger text
  let (fraction, text) ← readFraction text
  let (exponent, text) ← readExponent text
  some (minus ++ integer ++ fraction ++ exponent, text)

mutual

def readValue : Nat → List Char → Option (Json × List Char)
  | 0, _ => none
  | fuel + 1, text =>
    match text with
    | 'n' :: _ => (expect ['n', 'u', 'l', 'l'] text).map fun text => (.null, text)
    | 't' :: _ => (expect ['t', 'r', 'u', 'e'] text).map fun text => (.bool true, text)
    | 'f' :: _ => (expect ['f', 'a', 'l', 's', 'e'] text).map fun text => (.bool false, text)
    | '"' :: _ => (readString text).map fun (units, text) => (.string units, text)
    | '[' :: text =>
      match skipSpace text with
      | ']' :: text => some (.array [], text)
      | text => do
        let (e, text) ← readValue fuel text
        let (rest, text) ← readElements fuel (skipSpace text)
        some (.array (e :: rest), text)
    | '\x7b' :: text =>
      match skipSpace text with
      | '\x7d' :: text => some (.object [], text)
      | text => do
        let (m, text) ← readMember fuel text
        let (rest, text) ← readMembers fuel (skipSpace text)
        some (.object (m :: rest), text)
    | text => (readNumber text).map fun (literal, text) => (.number literal, text)

def readElements : Nat → List Char → Option (List Json × List Char)
  | 0, _ => none
  | fuel + 1, text =>
    match text with
    | ']' :: text => some ([], text)
    | ',' :: text => do
      let (e, text) ← readValue fuel (skipSpace text)
      let (rest, text) ← readElements fuel (skipSpace text)
      some (e :: rest, text)
    | _ => none

def readMember : Nat → List Char → Option ((List StringUnit × Json) × List Char)
  | 0, _ => none
  | fuel + 1, text => do
    let (key, text) ← readString text
    match skipSpace text with
    | ':' :: text => do
      let (value, text) ← readValue fuel (skipSpace text)
      some ((key, value), text)
    | _ => none

def readMembers : Nat → List Char → Option (List (List StringUnit × Json) × List Char)
  | 0, _ => none
  | fuel + 1, text =>
    match text with
    | '\x7d' :: text => some ([], text)
    | ',' :: text => do
      let (m, text) ← readMember fuel (skipSpace text)
      let (rest, text) ← readMembers fuel (skipSpace text)
      some (m :: rest, text)
    | _ => none

end

/-- Reads a whole document: one value with nothing but blanks around it. Every call of a reader
uses up a character or is followed by one that does, which bounds the calls. -/
def read (text : List Char) : Option Json := do
  let (value, rest) ← readValue (3 * text.length + 3) (skipSpace text)
  if (skipSpace rest).isEmpty then some value else none

end ForkingLR.Json
