import TermRewriting.Proofs.Selection

/-!
# The cursor goes through the selections

A place that is about to be filled anew, with the waiting indices `s` in order behind it, goes
through the selections from `s`: it takes the indices one after another, each time in front of the
others in their order, and before the next one the places behind it have gone through all selections
of what was waiting and are back where they began (`passes_choices`). The countdown of a place is
one more than the number of indices that it has not yet taken. When all are taken the carry puts
them back in order and goes on to the place before, so that nothing of this depends on what stands
before the place (`passesPlaces`).

Whatever the arrangement, the indices stay a permutation of the numbers below `n`, and the countdown
of place `i` stays between one and `n - i` (`Cursor.Sound`). That is enough for no decrement to go
below zero and no exchange or rotation to leave the list (`Sound.next?`).
-/

namespace TermRewriting

namespace Cursor

/-! ## Bounds -/

/-- The indices are those below `n`, and a countdown holds one to as many choices as its place
has. -/
structure Sound (n r : Nat) (c : Cursor) : Prop where
  indices : c.indices.Perm (List.range n)
  places : c.countdown.length = r
  choices : ∀ i left, c.countdown[i]? = some left → 0 < left ∧ left ≤ n - i

/-- The carry with all of its steps checked: it fails where a countdown is missing or would go below
zero, and where an index lies outside the list. -/
def checkedCarry (n : Nat) (indices countdown : List Nat) : Nat → Option (Option Cursor)
  | 0 => some none
  | i + 1 =>
    match countdown[i]? with
    | none => none
    | some 0 => none
    | some (left + 1) =>
      if left = 0 then
        if i ≤ indices.length ∧ i ≤ n then
          checkedCarry n (indices.take i ++ (indices.drop i).rotateLeft)
            (countdown.set i (n - i)) i
        else none
      else
        if left ≤ n ∧ i < indices.length ∧ n - left < indices.length then
          some (some ⟨exchange indices i (n - left), countdown.set i left⟩)
        else none

/-- The cursor at the next tuple, with all steps checked. -/
def checkedNext? (c : Cursor) : Option (Option Cursor) :=
  checkedCarry c.indices.length c.indices c.countdown c.countdown.length

theorem rotateLeft_cons (a : Nat) (as : List Nat) : (a :: as).rotateLeft = as ++ [a] := by
  cases as with
  | nil => rfl
  | cons b bs =>
    have hlong : ¬(bs.length + 1 + 1 ≤ 1) := by omega
    have hone : 1 % (bs.length + 1 + 1) = 1 := Nat.mod_eq_of_lt (by omega)
    simp [List.rotateLeft, hlong, hone]

theorem rotateLeft_perm (l : List Nat) : l.rotateLeft.Perm l := by
  cases l with
  | nil => exact .refl _
  | cons a as =>
    rw [rotateLeft_cons]
    exact List.perm_append_singleton a as

/-- Two places, the first before the second, are exchanged. -/
theorem exchange_append (pre between after : List Nat) (a b : Nat) :
    exchange (pre ++ a :: (between ++ b :: after)) pre.length (pre.length + (between.length + 1))
      = pre ++ b :: (between ++ a :: after) := by
  simp [exchange]

theorem exchange_perm (l : List Nat) (i j : Nat) : (exchange l i j).Perm l := by
  unfold exchange
  split
  · next a b ha hb =>
    obtain ⟨hi, rfl⟩ := List.getElem?_eq_some_iff.mp ha
    obtain ⟨hj, rfl⟩ := List.getElem?_eq_some_iff.mp hb
    exact List.set_set_perm hi hj
  · exact .refl l

/-- A countdown that is set within its bounds leaves all of them within theirs. -/
theorem Sound.set {n r : Nat} {c : Cursor} (h : c.Sound n r) {indices : List Nat}
    (hindices : indices.Perm c.indices) {i left : Nat} (hleft : 0 < left ∧ left ≤ n - i) :
    Sound n r ⟨indices, c.countdown.set i left⟩ where
  indices := hindices.trans h.indices
  places := by rw [List.length_set, h.places]
  choices := by
    intro j x hx
    rw [List.getElem?_set] at hx
    split at hx
    · next hij =>
      subst hij
      split at hx
      · cases hx
        exact hleft
      · cases hx
    · exact h.choices j x hx

theorem sound_start? {n r : Nat} {c : Cursor} (h : start? n r = some c) : c.Sound n r := by
  unfold start? at h
  split at h
  · next hr =>
    cases h
    refine ⟨.refl _, by simp, fun i left hleft => ?_⟩
    rw [List.getElem?_map] at hleft
    obtain ⟨j, hj, rfl⟩ := Option.map_eq_some_iff.mp hleft
    obtain ⟨hi, rfl⟩ := List.getElem?_eq_some_iff.mp hj
    rw [List.length_range] at hi
    rw [List.getElem_range]
    omega
  · cases h

/-- **No step of a carry leaves the bounds,** and the bounds hold after it. -/
theorem Sound.carry {n r : Nat} {indices countdown : List Nat}
    (h : Sound n r ⟨indices, countdown⟩) {i : Nat} (hi : i ≤ r) :
    checkedCarry n indices countdown i = some (carry n indices countdown i)
      ∧ ∀ c, Cursor.carry n indices countdown i = some c → c.Sound n r := by
  induction i generalizing indices countdown with
  | zero => exact ⟨rfl, fun c hc => nomatch hc⟩
  | succ i ih =>
    have hplace : i < countdown.length := h.places ▸ hi
    have hlength : indices.length = n := by rw [h.indices.length_eq, List.length_range]
    have hget : countdown[i]? = some countdown[i] := List.getElem?_eq_getElem hplace
    have hchoices := h.choices i _ hget
    obtain ⟨left, hleft⟩ : ∃ left, countdown[i] = left + 1 := ⟨countdown[i] - 1, by omega⟩
    rw [hleft] at hget hchoices
    have hgetD : countdown.getD i 0 = left + 1 := by rw [List.getD_eq_getElem?_getD, hget]; rfl
    rw [checkedCarry, Cursor.carry, hget, hgetD, Nat.add_sub_cancel]
    dsimp only
    by_cases hzero : left = 0
    · rw [if_pos hzero, if_pos hzero, if_pos (by omega)]
      have hfull : 0 < n - i ∧ n - i ≤ n - i := ⟨by omega, Nat.le_refl _⟩
      refine ih (h.set ?_ hfull) (by omega)
      calc (indices.take i ++ (indices.drop i).rotateLeft).Perm
            (indices.take i ++ indices.drop i) := (rotateLeft_perm _).append_left _
        _ = indices := List.take_append_drop i indices
    · rw [if_neg hzero, if_neg hzero, if_pos (by omega)]
      refine ⟨rfl, fun c hc => ?_⟩
      cases hc
      exact h.set (exchange_perm indices i (n - left)) (by omega)

/-- **A step from a sound cursor stays within the bounds.** -/
theorem Sound.next? {n r : Nat} {c : Cursor} (h : c.Sound n r) :
    c.checkedNext? = some c.next? ∧ ∀ d, c.next? = some d → d.Sound n r := by
  have hlength : c.indices.length = n := by rw [h.indices.length_eq, List.length_range]
  unfold checkedNext? Cursor.next?
  rw [hlength]
  exact Sound.carry h (Nat.le_of_eq h.places)

/-- **So does a run of steps from the first tuple on.** -/
theorem sound_of_skip {n r : Nat} {start : Option Cursor}
    (hstart : ∀ c, start = some c → c.Sound n r) {k : Nat} {c : Cursor}
    (h : skip k start = some c) : c.Sound n r := by
  induction k generalizing start with
  | zero => exact hstart c h
  | succ k ih =>
    cases start with
    | none => cases h
    | some d => exact ih (hstart d rfl).next?.2 h

/-! ## Carries -/

/-- The countdowns of `r` places behind which `m` indices wait. -/
def freshCountdown (m r : Nat) : List Nat := (List.range r).map (m - ·)

theorem freshCountdown_succ (m r : Nat) :
    freshCountdown (m + 1) (r + 1) = (m + 1) :: freshCountdown m r := by
  unfold freshCountdown
  rw [List.range_succ_eq_map, List.map_cons, List.map_map]
  refine congrArg (_ :: ·) (List.map_congr_left fun i _ => ?_)
  exact Nat.succ_sub_succ m i

section

variable {n m : Nat} {pre counts before after : List Nat} (hpre : pre.length = counts.length)
  (hn : n = pre.length + (m + 1))

include hpre hn

/-- A place with choices left takes the next of the waiting indices. -/
theorem carry_advance (x y : Nat) (inner : List Nat)
    (hm : before.length + (after.length + 1) = m) :
    carry n (pre ++ x :: (before ++ y :: after)) (counts ++ (after.length + 2) :: inner)
        (counts.length + 1)
      = some ⟨pre ++ y :: (before ++ x :: after), counts ++ (after.length + 1) :: inner⟩ := by
  have hplace : n - (after.length + 1) = pre.length + (before.length + 1) := by omega
  have hgetD : (counts ++ (after.length + 2) :: inner).getD counts.length 0 = after.length + 2 := by
    simp
  rw [carry, hgetD, if_neg (by omega), Nat.add_sub_assoc (by decide), hplace, ← hpre,
    exchange_append]
  simp [hpre]

/-- A place without puts its index back behind the others and hands on to the place before. -/
theorem carry_exhausted (x : Nat) (inner : List Nat) :
    carry n (pre ++ x :: before) (counts ++ 1 :: inner) (counts.length + 1)
      = carry n (pre ++ (before ++ [x])) (counts ++ (m + 1) :: inner) counts.length := by
  have hgetD : (counts ++ 1 :: inner).getD counts.length 0 = 1 := by simp
  have hplace : n - pre.length = m + 1 := by omega
  rw [carry, hgetD, if_pos rfl, ← hpre, List.take_left, List.drop_left, rotateLeft_cons, hplace]
  simp [hpre]

end

/-! ## Passes -/

/-- From the first cursor on the tuples are those of the list, and then the last is reached. -/
inductive Passes : Option Cursor → List (List Nat) → Option Cursor → Prop where
  | nil (c : Option Cursor) : Passes c [] c
  | cons {c : Cursor} {ts : List (List Nat)} {last : Option Cursor} :
      Passes c.next? ts last → Passes (some c) (c.tuple :: ts) last

theorem Passes.append {first middle last : Option Cursor} {ts us : List (List Nat)}
    (hts : Passes first ts middle) (hus : Passes middle us last) :
    Passes first (ts ++ us) last := by
  induction hts with
  | nil c => exact hus
  | cons _ ih => exact .cons (ih hus)

/-- The `r` places behind `pre`, for which `m` indices wait, go through the selections from these
and come back to where they began. -/
def PassesPlaces (n r m : Nat) : Prop :=
  ∀ pre counts s : List Nat, pre.length = counts.length → s.length = m → n = pre.length + m →
    Passes (some ⟨pre ++ s, counts ++ freshCountdown m r⟩)
      ((selections r s).map fun q => pre ++ q.1)
      (carry n (pre ++ s) (counts ++ freshCountdown m r) counts.length)

section

variable {n r m : Nat} (hplaces : PassesPlaces n r m) {pre counts : List Nat}
  (hpre : pre.length = counts.length) (hn : n = pre.length + (m + 1))

include hplaces hpre hn

/-- The places behind one that has taken `x`. -/
theorem passes_behind (x left : Nat) {s : List Nat} (hs : s.length = m) :
    Passes (some ⟨pre ++ x :: s, counts ++ left :: freshCountdown m r⟩)
      ((selections r s).map fun q => pre ++ x :: q.1)
      (carry n (pre ++ x :: s) (counts ++ left :: freshCountdown m r) (counts.length + 1)) := by
  have hlength : (pre ++ [x]).length = (counts ++ [left]).length := by simp [hpre]
  have htotal : n = (pre ++ [x]).length + m := by
    rw [hn, List.length_append, List.length_singleton]
    omega
  simpa using hplaces (pre ++ [x]) (counts ++ [left]) s hlength hs htotal

/-- **A place takes one index after another.** It has `x`, had those of `before` and will have those
of `after`. -/
theorem passes_choices (x : Nat) (before after : List Nat)
    (hm : before.length + after.length = m) :
    Passes
      (some ⟨pre ++ x :: (before ++ after),
        counts ++ (after.length + 1) :: freshCountdown m r⟩)
      ((pickOne (x :: after)).flatMap fun p =>
        (selections r (before ++ p.2)).map fun q => pre ++ p.1 :: q.1)
      (carry n (pre ++ (before ++ x :: after)) (counts ++ (m + 1) :: freshCountdown m r)
        counts.length) := by
  induction after generalizing x before with
  | nil =>
    -- nothing is waiting for the place any more
    have hbehind := passes_behind hplaces hpre hn x 1 (s := before ++ []) (by simpa using hm)
    rw [List.append_nil, carry_exhausted hpre hn] at hbehind
    simpa [pickOne] using hbehind
  | cons y after ih =>
    have hbehind := passes_behind hplaces hpre hn x (after.length + 2) (s := before ++ y :: after)
      (by simpa using hm)
    rw [carry_advance hpre hn x y _ hm] at hbehind
    have hrest := ih y (before ++ [x]) (by simp at hm ⊢; omega)
    rw [List.append_assoc, List.append_assoc] at hrest
    rw [pickOne, List.flatMap_cons, List.flatMap_map]
    refine hbehind.append ?_
    simpa using hrest

end

/-- **The places go through the selections of what waits behind them.** -/
theorem passesPlaces (n : Nat) {r m : Nat} (hr : r ≤ m) : PassesPlaces n r m := by
  induction r generalizing m with
  | zero =>
    intro pre counts s hpre hs hn
    have hlength : (pre ++ s).length = n := by rw [List.length_append, hs, hn]
    have htuple : tuple ⟨pre ++ s, counts⟩ = pre := by rw [tuple, ← hpre, List.take_left]
    have hone : Passes (some ⟨pre ++ s, counts⟩) [pre] (next? ⟨pre ++ s, counts⟩) := by
      have h := Passes.cons (c := ⟨pre ++ s, counts⟩) (.nil _)
      rwa [htuple] at h
    unfold next? at hone
    rw [hlength] at hone
    simpa [selections, freshCountdown] using hone
  | succ r ih =>
    obtain ⟨m, rfl⟩ : ∃ k, m = k + 1 := ⟨m - 1, by omega⟩
    intro pre counts s hpre hs hn
    cases s with
    | nil => cases hs
    | cons x after =>
      have hm : after.length = m := Nat.succ_inj.mp hs
      have hbehind : PassesPlaces n r m := ih (Nat.le_of_succ_le_succ hr)
      have h := passes_choices hbehind hpre hn x [] after (by simpa using hm)
      rw [freshCountdown_succ, selections, List.map_flatMap]
      simpa [hm, Function.comp_def] using h

/-- The tuples of an enumeration, from the first on. -/
theorem passes_start? (n r : Nat) :
    Passes (start? n r) ((selections r (List.range n)).map Prod.fst) none := by
  unfold start?
  split
  · next hr =>
    have h := passesPlaces n hr [] [] (List.range n) rfl List.length_range (by simp)
    simpa [freshCountdown, carry] using h
  · next hr =>
    rw [selections_eq_nil (by rw [List.length_range]; omega)]
    exact .nil none

theorem Passes.map_tuple_skip {first last : Option Cursor} {ts : List (List Nat)}
    (h : Passes first ts last) (hlast : last = none) (k : Nat) :
    (skip k first).map tuple = ts[k]? := by
  induction h generalizing k with
  | nil c =>
    subst hlast
    cases k <;> rfl
  | cons _ ih =>
    cases k with
    | zero => rfl
    | succ k => exact ih hlast k

theorem Passes.tuples_eq {first last : Option Cursor} {ts : List (List Nat)}
    (h : Passes first ts last) (hlast : last = none) (count : Nat) :
    tuples count first = ts.take count := by
  induction h generalizing count with
  | nil c =>
    subst hlast
    cases count <;> rfl
  | @cons c ts _ _ ih =>
    cases count with
    | zero => rfl
    | succ count => exact congrArg (c.tuple :: ·) (ih hlast count)

/-! ## The enumeration -/

/-- **The cursor enumerates the tuples of different places.** It comes by each of them once, in
lexicographic order, and by nothing after the last one; on the way all bounds hold and no step
leaves them. -/
theorem enumerates_placeTuples (n r : Nat) :
    ∃ all : List (List Nat),
      (∀ t, t ∈ all ↔ PlaceTuple n r t) ∧ all.Pairwise (List.Lex (· < ·))
        ∧ all.length = n.descFactorial r ∧ (r ≤ n → all.length = n.factorial / (n - r).factorial)
        ∧ (n < r → all = []) ∧ (r = 0 → all = [[]])
        ∧ (∀ k, (skip k (start? n r)).map tuple = all[k]?)
        ∧ (∀ count, tuples count (start? n r) = all.take count)
        ∧ ∀ k c, skip k (start? n r) = some c → c.Sound n r ∧ c.checkedNext? = some c.next? := by
  have hpasses := passes_start? n r
  have hlength : ((selections r (List.range n)).map Prod.fst).length = n.descFactorial r := by
    rw [List.length_map, length_selections, List.length_range]
  refine ⟨(selections r (List.range n)).map Prod.fst, fun t => mem_map_fst_selections_range,
    pairwise_selections r List.pairwise_lt_range, hlength, ?count, ?none, ?empty,
    hpasses.map_tuple_skip rfl, hpasses.tuples_eq rfl, ?sound⟩
  case count =>
    intro hr
    rw [hlength, Nat.descFactorial_eq_div hr]
  case none =>
    intro hr
    rw [← List.length_eq_zero_iff, hlength, Nat.descFactorial_of_lt hr]
  case empty =>
    rintro rfl
    rfl
  case sound =>
    intro k c hc
    have hsound : c.Sound n r := sound_of_skip (fun _ => sound_start?) hc
    exact ⟨hsound, hsound.next?.1⟩

example : tuples 5 (start? 3 2) = [[0, 1], [0, 2], [1, 0], [1, 2], [2, 0]] := by decide

end Cursor

end TermRewriting
