/-!
# Ordered selections

The ways to pick `r` elements of a list one after another, in lexicographic order of their places.
`selections` lists them all, each with the elements left over in their order. A search goes through
them one at a time, so `Selection` also has the enumeration of index tuples with a cursor: an index
vector and a countdown for each place. `checkedArrangementCount?` counts the tuples within 64 bits.

## Termination

`selections` and the cursor's carry run through the places; `Cursor.tuples` takes as many steps as
tuples are wanted.
-/

namespace TermRewriting

/-! ## Lists of selections -/

/-- Every element with the others in their order. -/
def pickOne {α : Type} : List α → List (α × List α)
  | [] => []
  | a :: as => (a, as) :: (pickOne as).map fun p => (p.1, a :: p.2)

/-- Every selection of `r` elements with the elements left over. -/
def selections {α : Type} : Nat → List α → List (List α × List α)
  | 0, as => [([], as)]
  | r + 1, as =>
    (pickOne as).flatMap fun p => (selections r p.2).map fun q => (p.1 :: q.1, q.2)

@[simp] theorem length_pickOne {α : Type} (as : List α) : (pickOne as).length = as.length := by
  induction as with
  | nil => rfl
  | cons a as ih => simp [pickOne, ih]

/-- What is left over together with the pick is the list again. -/
theorem pickOne_perm {α : Type} {as : List α} {p : α × List α} (h : p ∈ pickOne as) :
    (p.1 :: p.2).Perm as := by
  induction as generalizing p with
  | nil => simp [pickOne] at h
  | cons a as ih =>
    simp only [pickOne, List.mem_cons, List.mem_map] at h
    obtain rfl | ⟨q, hq, rfl⟩ := h
    · exact List.Perm.refl _
    · exact (List.Perm.swap a q.1 q.2).trans ((ih hq).cons a)

/-- The elements left over by a selection, together with it, are the list again. -/
theorem selections_perm {α : Type} {r : Nat} {as : List α} {s : List α × List α}
    (h : s ∈ selections r as) : (s.1 ++ s.2).Perm as := by
  induction r generalizing as s with
  | zero =>
    simp only [selections, List.mem_singleton] at h
    subst h
    exact List.Perm.refl _
  | succ r ih =>
    simp only [selections, List.mem_flatMap, List.mem_map] at h
    obtain ⟨p, hp, q, hq, rfl⟩ := h
    exact ((ih hq).cons p.1).trans (pickOne_perm hp)

theorem pickOne_map {α β : Type} (f : α → β) (as : List α) :
    pickOne (as.map f) = (pickOne as).map fun p => (f p.1, p.2.map f) := by
  induction as with
  | nil => rfl
  | cons a as ih =>
    rw [List.map_cons, pickOne, pickOne, ih, List.map_cons, List.map_map, List.map_map]
    rfl

theorem length_of_mem_selections {α : Type} {r : Nat} {as : List α} {s : List α × List α}
    (h : s ∈ selections r as) : s.1.length = r := by
  induction r generalizing as s with
  | zero =>
    rw [selections, List.mem_singleton] at h
    rw [h]
    rfl
  | succ r ih =>
    obtain ⟨p, _, hs⟩ := List.mem_flatMap.mp h
    obtain ⟨q, hq, rfl⟩ := List.mem_map.mp hs
    rw [List.length_cons, ih hq]

/-! ## Places -/

/-- The elements at the places, one after another. -/
def elementsAt {α : Type} (items : List α) (places : List Nat) : List α :=
  places.filterMap (items[·]?)

/-- The elements at the other places, in their order. -/
def elementsElsewhere {α : Type} (items : List α) (places : List Nat) : List α :=
  (items.zipIdx.filter fun p => !places.contains p.2).map Prod.fst

/-! ## Cursor -/

/-- The state of an enumeration of index tuples. The first `countdown.length` places of `indices`
are the current tuple, the others wait in order; `countdown` holds, place by place, how many choices
the place still has, the current one included. -/
structure Cursor where
  indices : List Nat
  countdown : List Nat
deriving DecidableEq

namespace Cursor

/-- The cursor at the first tuple of `r` indices below `n`; there is none if `r` exceeds `n`. -/
def start? (n r : Nat) : Option Cursor :=
  if r ≤ n then some ⟨List.range n, (List.range r).map fun i => n - i⟩ else none

/-- The current tuple. -/
def tuple (c : Cursor) : List Nat := c.indices.take c.countdown.length

/-- The list with the places `i` and `j` exchanged. -/
def exchange (l : List Nat) (i j : Nat) : List Nat :=
  match l[i]?, l[j]? with
  | some a, some b => (l.set i b).set j a
  | _, _ => l

/-- Advances the places from `i` on, the last one first. A place with choices left takes the next
one of the waiting indices; a place without puts its index back behind the others, starts again with
all its choices, and hands on to the place before. -/
def carry (n : Nat) (indices countdown : List Nat) : Nat → Option Cursor
  | 0 => none
  | i + 1 =>
    let left := countdown.getD i 0 - 1
    if left = 0 then
      carry n (indices.take i ++ (indices.drop i).rotateLeft) (countdown.set i (n - i)) i
    else
      some ⟨exchange indices i (n - left), countdown.set i left⟩

/-- The cursor at the next tuple. -/
def next? (c : Cursor) : Option Cursor :=
  carry c.indices.length c.indices c.countdown c.countdown.length

/-- The first `count` tuples from the cursor on. -/
def tuples : Nat → Option Cursor → List (List Nat)
  | 0, _ => []
  | _, none => []
  | count + 1, some c => c.tuple :: tuples count c.next?

/-- The cursor `count` tuples further on. -/
def skip : Nat → Option Cursor → Option Cursor
  | 0, c => c
  | _, none => none
  | count + 1, some c => skip count c.next?

end Cursor

/-! ## Counting -/

/-- The product of `acc` and the `count` factors from `k` on, unless one of the partial products
leaves 64 bits. -/
def boundedProduct? (acc k : Nat) : Nat → Option Nat
  | 0 => some acc
  | count + 1 => if acc * k < UInt64.size then boundedProduct? (acc * k) (k + 1) count else none

/-- The number of tuples of `r` distinct indices below `n`, if it fits 64 bits: the product of the
factors `n - r + 1, …, n`. -/
def arrangementCount? (n r : Nat) : Option Nat :=
  if n < r then some 0 else boundedProduct? 1 (n - r + 1) r

/-- The same, counted in words: it fails if the first factor leaves 64 bits, which is computed also
where no factor is asked for. That is the only step without a guard: the difference is taken for
`r ≤ n` only, no factor exceeds `n`, and the products are bounded. -/
def checkedArrangementCount? (n r : Nat) : Option (Option Nat) :=
  if r ≤ n ∧ UInt64.size ≤ n - r + 1 then none else some (arrangementCount? n r)

end TermRewriting
