import TermRewriting.Term.Identity

/-!
# Bindings and substitution

A match gives names to terms. A template is instantiated by putting the terms in place of the
symbols; what becomes an application of `Sequence` dissolves into the argument list around it.
-/

namespace TermRewriting

/-- The terms that names are bound to, each name at most once. -/
abbrev Bindings := List (String × Term)

namespace Bindings

/-- The term that a name is bound to. -/
def get? (name : String) (b : Bindings) : Option Term := b.lookup name

/-- Binds a name. A name that is bound already accepts only an identical term. -/
def bind? (name : String) (value : Term) (b : Bindings) : Option Bindings :=
  match b.get? name with
  | some bound => if bound.identical value then some b else none
  | none => some (b ++ [(name, value)])

@[simp] theorem get?_nil (name : String) : get? name [] = none := rfl

/-- Binding keeps what was bound. -/
theorem get?_of_bind? {name other : String} {value bound : Term} {b c : Bindings}
    (h : b.bind? name value = some c) (hb : b.get? other = some bound) :
    c.get? other = some bound := by
  unfold bind? at h
  split at h
  · split at h
    · cases h; exact hb
    · simp at h
  · cases h
    simp only [get?] at *
    rw [List.lookup_append, hb]
    rfl

end Bindings

namespace Term

mutual

/-- The template with bound symbols replaced. Applications are built anew, bound terms and other
atoms are copied as they are. -/
def instantiate (b : Bindings) : Term → Term
  | .symbol name => (b.get? name).getD (.symbol name)
  | .app head args _ => apply (head.instantiate b) (spliced "Sequence" (instantiateAll b args))
  | t => t

def instantiateAll (b : Bindings) : List Term → List Term
  | [] => []
  | a :: as => a.instantiate b :: instantiateAll b as

end

theorem instantiateAll_eq_map (b : Bindings) (args : List Term) :
    instantiateAll b args = args.map (instantiate b) := by
  induction args with
  | nil => rfl
  | cons a as ih => simp [instantiateAll, ih]

end Term

end TermRewriting
