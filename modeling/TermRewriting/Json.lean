import TermRewriting.Hexadecimal

/-!
# JSON values

A JSON value as it is written: numbers keep their characters, strings keep the halves of surrogate
pairs that their escapes name. The text of a value has no blanks.
-/

namespace TermRewriting

/-- A character of a string, or half of a surrogate pair, which only an escape can name. -/
inductive CodeUnit where
  | char (c : Char)
  | half (code : Nat)
deriving DecidableEq

/-- The contents of a JSON string. -/
abbrev JsonText := List CodeUnit

namespace JsonText

def ofString (s : String) : JsonText := s.toList.map .char

/-- The code point that a surrogate pair stands for. -/
def pairedChar (high low : Nat) : Char :=
  Char.ofNat (0x10000 + (high - 0xd800) * 0x400 + (low - 0xdc00))

def isHigh (code : Nat) : Bool := 0xd800 ≤ code && code < 0xdc00

def isLow (code : Nat) : Bool := 0xdc00 ≤ code && code < 0xe000

/-- The characters of a string; there are none if a half stands without its other half. -/
def toChars? : JsonText → Option (List Char)
  | [] => some []
  | .char c :: rest => (toChars? rest).map (c :: ·)
  | .half high :: .half low :: rest =>
    if isHigh high && isLow low then (toChars? rest).map (pairedChar high low :: ·) else none
  | .half _ :: _ => none

def toString? (text : JsonText) : Option String := (toChars? text).map String.ofList

end JsonText

inductive Json where
  | null
  | bool (value : Bool)
  /-- A number by its characters. -/
  | number (lexeme : List Char)
  | string (text : JsonText)
  | array (items : List Json)
  | object (entries : List (JsonText × Json))

namespace Json

/-! ## Writing -/

/-- Four hexadecimal digits after `\u`. -/
def unicodeEscape (code : Nat) : List Char :=
  ['\\', 'u', hexDigit (code / 4096), hexDigit (code / 256), hexDigit (code / 16), hexDigit code]

/-- A character inside a JSON string: quotes, backslashes and control characters are escaped. -/
def escapedChar (c : Char) : List Char :=
  if c = '"' then ['\\', '"']
  else if c = '\\' then ['\\', '\\']
  else if c = '\n' then ['\\', 'n']
  else if c = '\r' then ['\\', 'r']
  else if c = '\t' then ['\\', 't']
  else if c = '\x08' then ['\\', 'b']
  else if c = '\x0c' then ['\\', 'f']
  else if c.toNat < 0x20 then unicodeEscape c.toNat
  else [c]

def escapedUnit : CodeUnit → List Char
  | .char c => escapedChar c
  | .half code => unicodeEscape code

def quotedText (text : JsonText) : List Char := '"' :: text.flatMap escapedUnit ++ ['"']

/-- The pieces with commas between them. -/
def commaSeparated : List (List Char) → List Char
  | [] => []
  | [piece] => piece
  | piece :: rest => piece ++ ',' :: commaSeparated rest

mutual

/-- The text of a value. -/
def chars : Json → List Char
  | .null => ['n', 'u', 'l', 'l']
  | .bool true => ['t', 'r', 'u', 'e']
  | .bool false => ['f', 'a', 'l', 's', 'e']
  | .number lexeme => lexeme
  | .string text => quotedText text
  | .array items => '[' :: commaSeparated (charsAll items) ++ [']']
  | .object entries => '\x7b' :: commaSeparated (charsEntries entries) ++ ['\x7d']

def charsAll : List Json → List (List Char)
  | [] => []
  | v :: vs => v.chars :: charsAll vs

def charsEntries : List (JsonText × Json) → List (List Char)
  | [] => []
  | (key, v) :: rest => (quotedText key ++ ':' :: v.chars) :: charsEntries rest

end

def text (v : Json) : String := String.ofList v.chars

end Json

end TermRewriting
