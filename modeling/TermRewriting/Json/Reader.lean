import TermRewriting.Json
import TermRewriting.Json.Numeral

/-!
# Reading JSON

A text is cut into tokens by a scanner that looks at one character at a time, and the tokens are put
together by a builder that keeps the unfinished arrays and objects on a stack. A text holds exactly
one value, with blanks allowed anywhere between tokens.

## Termination

The scanner consumes the characters, the builder the tokens; neither ever goes back.
-/

namespace TermRewriting

namespace Json

/-! ## Tokens -/

inductive Token where
  | openBrace
  | closeBrace
  | openBracket
  | closeBracket
  | colon
  | comma
  | text (contents : JsonText)
  | number (lexeme : List Char)
  | null
  | bool (value : Bool)

/-- Where the scanner stands. Collected characters are in reverse. -/
inductive Scan where
  | between
  | inText (contents : List CodeUnit)
  | escaped (contents : List CodeUnit)
  /-- Inside `\uXXXX`, with so many digits to come. -/
  | inEscape (contents : List CodeUnit) (missing code : Nat)
  | inNumber (lexeme : List Char)
  | inWord (letters : List Char)

def isBlank (c : Char) : Bool := c = ' ' || c = '\n' || c = '\t' || c = '\r'

def isNumberChar (c : Char) : Bool :=
  c.isDigit || c = '-' || c = '+' || c = '.' || c = 'e' || c = 'E'

/-- The character behind a backslash, `\u` apart. -/
def simpleEscape? (c : Char) : Option Char :=
  if c = '"' || c = '\\' || c = '/' then some c
  else if c = 'n' then some '\n'
  else if c = 'r' then some '\r'
  else if c = 't' then some '\t'
  else if c = 'b' then some '\x08'
  else if c = 'f' then some '\x0c'
  else none

/-- What four hexadecimal digits name. -/
def unitOfCode (code : Nat) : CodeUnit :=
  if JsonText.isHigh code || JsonText.isLow code then .half code else .char (Char.ofNat code)

def numberToken? (lexeme : List Char) : Option Token :=
  if (Numeral.ofChars? lexeme).isSome then some (.number lexeme) else none

def wordToken? (letters : List Char) : Option Token :=
  if letters = ['n', 'u', 'l', 'l'] then some .null
  else if letters = ['t', 'r', 'u', 'e'] then some (.bool true)
  else if letters = ['f', 'a', 'l', 's', 'e'] then some (.bool false)
  else none

/-- The tokens that a character completes between tokens, and where the scanner stands then. -/
def beginToken (c : Char) : Option (List Token × Scan) :=
  if isBlank c then some ([], .between)
  else if c = '\x7b' then some ([.openBrace], .between)
  else if c = '\x7d' then some ([.closeBrace], .between)
  else if c = '[' then some ([.openBracket], .between)
  else if c = ']' then some ([.closeBracket], .between)
  else if c = ':' then some ([.colon], .between)
  else if c = ',' then some ([.comma], .between)
  else if c = '"' then some ([], .inText [])
  else if c = '-' || c.isDigit then some ([], .inNumber [c])
  else if c.isAlpha then some ([], .inWord [c])
  else none

/-- A token that ends in front of a character. -/
def endBefore (token : Option Token) (c : Char) : Option (List Token × Scan) := do
  let token ← token
  let (tokens, scan) ← beginToken c
  some (token :: tokens, scan)

/-- One character. -/
def scanChar (c : Char) : Scan → Option (List Token × Scan)
  | .between => beginToken c
  | .inText contents =>
    if c = '"' then some ([.text contents.reverse], .between)
    else if c = '\\' then some ([], .escaped contents)
    else if c.toNat < 0x20 then none
    else some ([], .inText (.char c :: contents))
  | .escaped contents =>
    if c = 'u' then some ([], .inEscape contents 4 0)
    else (simpleEscape? c).map fun d => ([], .inText (.char d :: contents))
  | .inEscape contents missing code =>
    (hexValue? c).map fun d =>
      let code := 16 * code + d
      if missing = 1 then ([], .inText (unitOfCode code :: contents))
      else ([], .inEscape contents (missing - 1) code)
  | .inNumber lexeme =>
    if isNumberChar c then some ([], .inNumber (c :: lexeme))
    else endBefore (numberToken? lexeme.reverse) c
  | .inWord letters =>
    if c.isAlpha then some ([], .inWord (c :: letters))
    else endBefore (wordToken? letters.reverse) c

/-- The tokens that the end of the text completes. -/
def scanEnd : Scan → Option (List Token)
  | .between => some []
  | .inNumber lexeme => (numberToken? lexeme.reverse).map ([·])
  | .inWord letters => (wordToken? letters.reverse).map ([·])
  | _ => none

/-- The tokens of a text. -/
def scan (s : Scan) : List Char → Option (List Token)
  | [] => scanEnd s
  | c :: cs => do
    let (tokens, s) ← scanChar c s
    let rest ← scan s cs
    some (tokens ++ rest)

/-! ## Values -/

/-- An array or object that is not finished; its items are in reverse. -/
inductive Frame where
  | array (items : List Json)
  | object (entries : List (JsonText × Json)) (key : JsonText)

/-- What the builder waits for. -/
inductive Awaited where
  | value
  /-- The first item of an array, or its end. -/
  | firstItem
  /-- The first key of an object, or its end. -/
  | firstKey
  | key (entries : List (JsonText × Json))
  | colon (entries : List (JsonText × Json)) (key : JsonText)
  /-- A comma or the end of the innermost frame, its last item being `last`. -/
  | separator (last : Json)

/-- The value of a token that is one. -/
def Token.value? : Token → Option Json
  | .text contents => some (.string contents)
  | .number lexeme => some (.number lexeme)
  | .null => some .null
  | .bool b => some (.bool b)
  | _ => none

/-- The state of the builder. -/
abbrev Build := List Frame × Awaited

/-- A token where a value is due. -/
def buildValue (frames : List Frame) (t : Token) : Option Build :=
  match t with
  | .openBracket => some (frames, .firstItem)
  | .openBrace => some (frames, .firstKey)
  | t => t.value?.map fun v => (frames, .separator v)

/-- A token where a key is due. -/
def buildKey (frames : List Frame) (entries : List (JsonText × Json)) : Token → Option Build
  | .text key => some (frames, .colon entries key)
  | _ => none

/-- A token behind an item. -/
def buildSeparator (frames : List Frame) (last : Json) (t : Token) : Option Build :=
  match frames, t with
  | .array items :: outer, .comma => some (.array (last :: items) :: outer, .value)
  | .array items :: outer, .closeBracket =>
    some (outer, .separator (.array (last :: items).reverse))
  | .object entries key :: outer, .comma => some (outer, .key ((key, last) :: entries))
  | .object entries key :: outer, .closeBrace =>
    some (outer, .separator (.object ((key, last) :: entries).reverse))
  | _, _ => none

/-- One token. -/
def buildToken (t : Token) : Build → Option Build
  | (frames, .value) => buildValue frames t
  | (frames, .firstItem) =>
    match t with
    | .closeBracket => some (frames, .separator (.array []))
    | t => buildValue (.array [] :: frames) t
  | (frames, .firstKey) =>
    match t with
    | .closeBrace => some (frames, .separator (.object []))
    | t => buildKey frames [] t
  | (frames, .key entries) => buildKey frames entries t
  | (frames, .colon entries key) =>
    match t with
    | .colon => some (.object entries key :: frames, .value)
    | _ => none
  | (frames, .separator last) => buildSeparator frames last t

/-- The value that the tokens amount to. -/
def build (b : Build) : List Token → Option Json
  | [] =>
    match b with
    | ([], .separator v) => some v
    | _ => none
  | t :: ts => do
    let b ← buildToken t b
    build b ts

/-- The value that a text holds. -/
def parse? (text : String) : Option Json := do
  let tokens ← scan .between text.toList
  build ([], .value) tokens

end Json

end TermRewriting
