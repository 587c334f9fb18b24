import TermRewriting.Pattern.InPlace
import TermRewriting.Replacement

/-!
# Replacing arguments in place

The arguments that the components of a rule stand for are looked for by their places. A cursor goes
through the tuples of places, and every tuple starts without bindings (`seekTuple`). Two components
have a search of their own: for each place of the first, the second is tried at all other places
with one and the same set of bindings (`seekPair`). So a trial that fails must leave nothing in it.

A search through the tuples takes as many steps as there are ways to fill the places, of which the
cursor comes by fewer.
-/

namespace TermRewriting

variable {ω : Type}

/-- Places, and what is bound at them. -/
abbrev Placement := List Nat × Bindings

/-- An attempt that starts without bindings, and the bindings that it leaves. -/
def Attempt.fromNothing {α : Type} (attempt : Attempt ω α) : StateM ω (α × Bindings) :=
  fun memory =>
    let (a, (b, memory)) := attempt.run ([], memory)
    ((a, b), memory)

/-! ## Two components -/

/-- The first of the places other than `taken` whose element the trial accepts. All are tried with
the same bindings. -/
def seekOther (one : Trial ω) (taken : Nat) : List (Term × Nat) → Attempt ω (Option Nat)
  | [] => pure none
  | (item, place) :: rest => do
    if ← (if place = taken then pure false else one item) then pure (some place)
    else seekOther one taken rest

/-- The first of the places at which the first trial accepts its element, and another place at which
the second one does. -/
def seekPair (first second : Trial ω) (items : List Term) :
    List (Term × Nat) → StateM ω (Option Placement)
  | [] => pure none
  | (item, place) :: rest => do
    let (found, b) ← Attempt.fromNothing do
      if ← first item then seekOther second place items.zipIdx else pure none
    match found with
    | some other => pure (some ([place, other], b))
    | none => seekPair first second items rest

/-! ## Any number of components -/

/-- The first of the tuples from a cursor on at which each trial accepts its element. -/
def seekTuple (trials : List (Trial ω)) (items : List Term) :
    Nat → Option Cursor → StateM ω (Option Placement)
  | 0, _ => pure none
  | _, none => pure none
  | count + 1, some c => do
    let (ok, b) ← Attempt.fromNothing (assignEach trials (elementsAt items c.tuple))
    if ok then pure (some (c.tuple, b)) else seekTuple trials items count c.next?

/-- The places of elements that the trials accept one after another. -/
def seekPlaces (trials : List (Trial ω)) (items : List Term) : StateM ω (Option Placement) :=
  match trials with
  | [first, second] => seekPair first second items items.zipIdx
  | _ =>
    seekTuple trials items (Nat.pow items.length trials.length)
      (Cursor.start? items.length trials.length)

/-- Takes elements that the components match out of the list and appends the instance of the
right-hand side, and answers whether it did. -/
def replaceSomeInPlace (table : SymbolTable) (hooks : Hooks ω) (components : List Term)
    (rhs : Term) (items : List Term) : StateM ω (Bool × List Term) :=
  if components.isEmpty || items.length < components.length then pure (false, items)
  else do
    match ← seekPlaces (components.map (Term.matchInto table hooks)) items with
    | some (places, b) => pure (true, elementsElsewhere items places ++ [rhs.instantiate b])
    | none => pure (false, items)

end TermRewriting
