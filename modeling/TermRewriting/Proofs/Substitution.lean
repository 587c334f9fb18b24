import TermRewriting.Binding
import TermRewriting.Proofs.Term.Coherence

/-!
# Substitutions compose

Instantiating a template and then its instance is instantiating the template once, with bindings that
give what the first ones give, instantiated with the second ones, and otherwise what the second ones
give (`Bindings.followedBy`).

An argument may be a sequence after the first substitution, or only after the second one, by what its
head becomes. Dissolving is nonetheless needed only once: a list that is dissolved, instantiated and
dissolved again is the list that is instantiated and dissolved (`spliced_map_instantiate`). For that
an application of `Sequence` has to stay one, so the second substitution must not bind that name.
-/

namespace TermRewriting

namespace Bindings

/-- The bindings that do in one substitution what `b` and then `c` do in two. -/
def followedBy (b c : Bindings) : Bindings :=
  b.map (fun entry => (entry.1, entry.2.instantiate c)) ++ c

theorem get?_map (change : Term → Term) (b : Bindings) (name : String) :
    get? name (b.map fun entry => (entry.1, change entry.2)) = (b.get? name).map change := by
  induction b with
  | nil => rfl
  | cons entry b ih =>
    unfold get? at ih ⊢
    rw [List.map_cons, List.lookup_cons, List.lookup_cons]
    cases name == entry.1 with
    | true => rfl
    | false => exact ih

/-- A name that `b` binds gives the instance of what it is bound to, another name what `c` gives. -/
theorem get?_followedBy (b c : Bindings) (name : String) :
    (b.followedBy c).get? name = ((b.get? name).map (Term.instantiate c)).or (c.get? name) := by
  rw [← get?_map, followedBy]
  exact List.lookup_append

end Bindings

namespace Term

variable {b c : Bindings} (hc : c.get? "Sequence" = none)

/-! ## Sequences -/

include hc

/-- An application of `Sequence` stays one, and its parts are dissolved in it. -/
theorem instantiate_sequence (items : List Term) (marks : Marks) :
    (Term.app (.symbol "Sequence") items marks).instantiate c
      = call "Sequence" (spliced "Sequence" (items.map (instantiate c))) := by
  rw [instantiate, instantiateAll_eq_map, instantiate, hc]
  rfl

/-- **Dissolving commutes with instantiating,** whatever its elements become. -/
theorem spliced_map_instantiate (args : List Term) :
    spliced "Sequence" ((spliced "Sequence" args).map (instantiate c))
      = spliced "Sequence" (args.map (instantiate c)) := by
  induction args with
  | nil => rfl
  | cons a as ih =>
    rw [spliced_cons, List.map_append, spliced_append, ih, List.map_cons, spliced_cons]
    congr 1
    cases hcall : a.callArgs? "Sequence" with
    | none => exact List.append_nil _
    | some items =>
      obtain ⟨marks, rfl⟩ := callArgs?_eq_some.mp hcall
      rw [instantiate_sequence hc]
      rfl

/-! ## Templates -/

/-- Two substitutions in a row are one. -/
theorem instantiate_instantiate (t : Term) :
    (t.instantiate b).instantiate c = t.instantiate (b.followedBy c) := by
  induction t using induct with
  | atom a =>
    cases a with
    | symbol name =>
      rw [instantiate, instantiate, Bindings.get?_followedBy]
      cases b.get? name with
      | none => rfl
      | some bound => rfl
    | integer value => rfl
    | real value => rfl
    | string text => rfl
  | app head args marks ihhead ihargs =>
    have hargs : (args.map (instantiate b)).map (instantiate c)
        = args.map (instantiate (b.followedBy c)) := by
      rw [List.map_map]
      exact List.map_congr_left ihargs
    rw [instantiate, instantiate, instantiate, instantiateAll_eq_map, instantiateAll_eq_map,
      instantiateAll_eq_map, ihhead, spliced_map_instantiate hc, hargs]

omit hc in
/-- **Substitution composes.** Where the second bindings leave the name `Sequence` alone, two
substitutions in a row come to one, with the bindings that give the instance of what the first ones
give, and otherwise what the second ones give. What a name is bound to is put in as it is, so in one
substitution it is not instantiated again; and arguments may be dissolved before they are instantiated
or not, whether they are sequences or become some. -/
theorem instantiate_followedBy (t : Term) (b c : Bindings) (hc : c.get? "Sequence" = none) :
    ((t.instantiate b).instantiate c).identical (t.instantiate (b.followedBy c)) = true
      ∧ (t.instantiate b).instantiate c = t.instantiate (b.followedBy c)
      ∧ (∀ name, (b.followedBy c).get? name
          = ((b.get? name).map (instantiate c)).or (c.get? name))
      ∧ (∀ name bound, b.get? name = some bound → (Term.symbol name).instantiate b = bound)
      ∧ ∀ args, spliced "Sequence" ((spliced "Sequence" args).map (instantiate c))
          = spliced "Sequence" (args.map (instantiate c)) := by
  have hsame := instantiate_instantiate (b := b) hc t
  refine ⟨?_, hsame, b.get?_followedBy c, ?_, spliced_map_instantiate hc⟩
  · rw [hsame]
    exact identical_rfl _
  · intro name bound hbound
    rw [instantiate, hbound]
    rfl

omit hc in
/-- A head that becomes `Sequence` only in the second substitution, beside a value that is a sequence
of sequences and one that mentions its own name. -/
theorem instantiate_followedBy_becomes :
    Bindings.get? "Sequence" [("s", .symbol "Sequence"), ("y", .integer 3)] = none
      ∧ (((Term.call "f" [.call "x" [.integer 1, .symbol "y"], .symbol "z"]).instantiate
            [("x", .symbol "s"), ("y", .call "g" [.symbol "y"]),
              ("z", .call "Sequence" [.call "s" [], .symbol "y"])]).instantiate
          [("s", .symbol "Sequence"), ("y", .integer 3)]).identical
        (.call "f" [.integer 1, .call "g" [.integer 3], .integer 3]) = true := by
  refine ⟨rfl, ?_⟩
  rw [(instantiate_followedBy _ _ _ rfl).2.1]
  rfl

/-- Names are exchanged, not followed. -/
example : (Term.call "f" [.symbol "x", .symbol "y"]).instantiate
    [("x", .symbol "y"), ("y", .symbol "x")] = .call "f" [.symbol "y", .symbol "x"] := rfl

end Term

end TermRewriting
