import TermRewriting.Binding
import TermRewriting.Selection

/-!
# Searches

A search yields a result or fails, and keeps the questions that it asked on the way, in order. The
result of a composed search is the composition of the results, whatever was asked: the lemmas on
`result` say so for each way to compose.
-/

namespace TermRewriting

/-- A question whose answer comes from outside the matcher. -/
inductive Question where
  /-- Does the term pass the test? -/
  | test (predicate subject : Term)
  /-- Does the condition hold of the bindings? -/
  | condition (proviso : Term) (bindings : Bindings)

structure Search (α : Type) where
  result : Option α
  asked : List Question

namespace Search

variable {α β : Type}

def succeed (a : α) : Search α := ⟨some a, []⟩

def fail : Search α := ⟨none, []⟩

/-- Goes on only if the condition is met. -/
def require (condition : Bool) (a : α) : Search α := if condition then succeed a else fail

/-- A result that needs no question. -/
def ofOption (a : Option α) : Search α := ⟨a, []⟩

/-- Goes on with the result. -/
def andThen (s : Search α) (next : α → Search β) : Search β :=
  match s.result with
  | none => ⟨none, s.asked⟩
  | some a =>
    let t := next a
    ⟨t.result, s.asked ++ t.asked⟩

/-- Goes on elsewhere after a failure. -/
def orElse (s : Search α) (other : Unit → Search α) : Search α :=
  match s.result with
  | some a => ⟨some a, s.asked⟩
  | none =>
    let t := other ()
    ⟨t.result, s.asked ++ t.asked⟩

/-- The first success among the choices. -/
def firstOf (choices : List β) (attempt : β → Search α) : Search α :=
  match choices with
  | [] => fail
  | b :: bs => (attempt b).orElse fun _ => firstOf bs attempt

/-- The first success among the ordered selections of `r` elements, each taken with the elements
left over. -/
def firstSelection (r : Nat) (items : List β) (attempt : List β → List β → Search α) : Search α :=
  match r with
  | 0 => attempt [] items
  | r + 1 =>
    firstOf (pickOne items) fun p =>
      firstSelection r p.2 fun picked rest => attempt (p.1 :: picked) rest

/-! ## Results -/

@[simp] theorem result_succeed (a : α) : (succeed a).result = some a := rfl

@[simp] theorem result_fail : (fail : Search α).result = none := rfl

@[simp] theorem result_ofOption (a : Option α) : (ofOption a).result = a := rfl

@[simp] theorem result_require (c : Bool) (a : α) :
    (require c a).result = if c then some a else none := by
  unfold require
  split <;> rfl

@[simp] theorem result_andThen (s : Search α) (next : α → Search β) :
    (s.andThen next).result = s.result.bind fun a => (next a).result := by
  unfold andThen
  split <;> simp [*]

@[simp] theorem result_orElse (s : Search α) (other : Unit → Search α) :
    (s.orElse other).result = s.result.or (other ()).result := by
  unfold orElse
  split <;> simp [*]

@[simp] theorem result_firstOf (choices : List β) (attempt : β → Search α) :
    (firstOf choices attempt).result = choices.findSome? fun b => (attempt b).result := by
  induction choices with
  | nil => rfl
  | cons b bs ih =>
    rw [firstOf, result_orElse, ih, List.findSome?_cons]
    cases (attempt b).result <;> rfl

theorem findSome?_flatMap {γ : Type} (f : β → List γ) (g : γ → Option α) (l : List β) :
    (l.flatMap f).findSome? g = l.findSome? fun b => (f b).findSome? g := by
  induction l with
  | nil => rfl
  | cons b bs ih =>
    rw [List.flatMap_cons, List.findSome?_append, ih, List.findSome?_cons]
    cases (f b).findSome? g <;> rfl

/-- The search through selections is a search through their list. -/
theorem result_firstSelection (r : Nat) (items : List β)
    (attempt : List β → List β → Search α) :
    (firstSelection r items attempt).result
      = (selections r items).findSome? fun s => (attempt s.1 s.2).result := by
  induction r generalizing items attempt with
  | zero => simp [firstSelection, selections]
  | succ r ih =>
    rw [firstSelection, result_firstOf, selections, findSome?_flatMap]
    congr 1
    funext p
    rw [ih, List.findSome?_map]
    rfl

end Search

end TermRewriting
