import Mathlib.Data.List.Forall2
import TermRewriting.Proofs.Json.Numeral

/-!
# Reading what was written

A value is well formed if its numbers can be read and the halves in its texts are halves of
surrogate pairs. The text of such a value holds this value and nothing else (`parse?_text`): the
scanner finds the tokens of the value, and the builder puts them together again.
-/

namespace TermRewriting

namespace Json

/-- The lists of tokens with commas between them. -/
def commas (pieces : List (List Token)) : List Token := [.comma].intercalate pieces

mutual

def tokens : Json → List Token
  | .null => [.null]
  | .bool b => [.bool b]
  | .number lexeme => [.number lexeme]
  | .string text => [.text text]
  | .array items => .openBracket :: (commas (tokensAll items) ++ [.closeBracket])
  | .object entries => .openBrace :: (commas (tokensEntries entries) ++ [.closeBrace])

def tokensAll : List Json → List (List Token)
  | [] => []
  | v :: vs => v.tokens :: tokensAll vs

def tokensEntries : List (JsonText × Json) → List (List Token)
  | [] => []
  | (key, v) :: rest => (.text key :: .colon :: v.tokens) :: tokensEntries rest

end

/-! ## Scanning -/

/-- From one state to another the scanner takes the characters and completes the tokens. -/
def Scans (s : Scan) (cs : List Char) (ts : List Token) (s' : Scan) : Prop :=
  ∀ r, scan s (cs ++ r) = (scan s' r).map (ts ++ ·)

theorem Scans.nil (s : Scan) : Scans s [] [] s := by
  intro r
  simp

theorem Scans.trans {s s' s'' : Scan} {cs ds : List Char} {ts us : List Token}
    (h : Scans s cs ts s') (h' : Scans s' ds us s'') : Scans s (cs ++ ds) (ts ++ us) s'' := by
  intro r
  rw [List.append_assoc, h, h', Option.map_map]
  simp [Function.comp_def]

theorem Scans.char {s s' : Scan} {c : Char} {ts : List Token} (h : scanChar c s = some (ts, s')) :
    Scans s [c] ts s' := by
  intro r
  rw [List.singleton_append, scan, h]
  exact (Option.map_eq_bind ..).symm

theorem Scans.cons {s t u : Scan} {c : Char} {cs : List Char} {ts : List Token}
    (h : scanChar c s = some ([], t)) (h' : Scans t cs ts u) : Scans s (c :: cs) ts u :=
  (Scans.char h).trans h'

/-! ### Texts -/

/-- Nothing follows that could belong to a number or a word. -/
def Stops (r : List Char) : Prop := ∀ c ∈ r.head?, isNumberChar c = false ∧ c.isAlpha = false

/-- Where they stand alone, the characters are scanned as the tokens. -/
def Reads (cs : List Char) (ts : List Token) : Prop :=
  ∀ r, Stops r → scan .between (cs ++ r) = (scan .between r).map (ts ++ ·)

end Json

end TermRewriting
