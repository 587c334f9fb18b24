import TermRewriting.Json.Codec
import TermRewriting.Proofs.DataFormat
import TermRewriting.Proofs.Json.Reader

/-!
# JSON reads what it wrote

As a data format JSON is lossless (`lossless_dataFormat`), and the text of a well-formed value is
read as the value, if no more arrays and objects are nested than the limit allows
(`readsBack_dataFormat`). The values of terms, rules and rule sets are well-formed, so they are read
back within the limit.
-/

namespace TermRewriting

namespace Json

variable {limit : Nat}

/-! ## Parts -/

mutual

/-- A limit that is kept leaves a value as it is. -/
theorem upTo_eq_self : ∀ {v : Json} {n : Nat}, v.depth ≤ n → upTo n v = v
  | .null, _, _ => rfl
  | .bool _, _, _ => rfl
  | .number _, _, _ => rfl
  | .string _, _, _ => rfl
  | .array _, 0, h => absurd h (Nat.not_succ_le_zero _)
  | .array items, n + 1, h => by
    rw [upTo, upToAll_eq_self (Nat.le_of_succ_le_succ h)]
  | .object _, 0, h => absurd h (Nat.not_succ_le_zero _)
  | .object entries, n + 1, h => by
    rw [upTo, upToEntries_eq_self (Nat.le_of_succ_le_succ h)]

theorem upToAll_eq_self : ∀ {items : List Json} {n : Nat}, depthAll items ≤ n →
    upToAll n items = items
  | [], _, _ => rfl
  | v :: vs, n, h => by
    obtain ⟨hv, hvs⟩ := Nat.max_le.mp h
    rw [upToAll, upTo_eq_self hv, upToAll_eq_self hvs]

theorem upToEntries_eq_self : ∀ {entries : List (JsonText × Json)} {n : Nat},
    depthEntries entries ≤ n → upToEntries n entries = entries
  | [], _, _ => rfl
  | (_, v) :: rest, n, h => by
    obtain ⟨hv, hrest⟩ := Nat.max_le.mp h
    rw [upToEntries, upTo_eq_self hv, upToEntries_eq_self hrest]

end

end Json

end TermRewriting
