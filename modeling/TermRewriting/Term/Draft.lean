import TermRewriting.Failure

/-!
# Drafts

A node under construction: its parts so far, the head first. Only a finished draft is a term.
-/

namespace TermRewriting

structure Draft where
  parts : List Term := []

namespace Draft

/-- A draft that has its head. -/
def withHead (head : Term) : Draft := ⟨[head]⟩

/-- Adds a part at the end; the first part is the head. -/
def push (part : Term) (d : Draft) : Draft := ⟨d.parts ++ [part]⟩

def extend (parts : List Term) (d : Draft) : Draft := ⟨d.parts ++ parts⟩

def size (d : Draft) : Nat := d.parts.length

def isEmpty (d : Draft) : Bool := d.parts.isEmpty

/-- Whether there is a head, which there is unless the draft is empty. -/
def hasHead (d : Draft) : Bool := !d.isEmpty

/-- The node with these parts. -/
def finish (d : Draft) : Except Failure Term :=
  match Term.ofParts? d.parts with
  | some t => .ok t
  | none => .error .missingHead

@[simp] theorem parts_push (part : Term) (d : Draft) :
    (d.push part).parts = d.parts ++ [part] := rfl

@[simp] theorem parts_extend (parts : List Term) (d : Draft) :
    (d.extend parts).parts = d.parts ++ parts := rfl

end Draft

end TermRewriting
