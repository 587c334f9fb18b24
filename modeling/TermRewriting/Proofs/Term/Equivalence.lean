import TermRewriting.Proofs.Term.Coherence
import TermRewriting.Symbols

/-!
# Equivalence under the attributes

Two terms are equivalent when one becomes the other by reordering the arguments of orderless
symbols and by flattening or nesting applications of flat symbols (`Term.Equivalent`).

What a match gives back is compared with the matched term in two ways: it is equivalent to it, and
without attributes it is identical to it. Neither argument needs more than the five closure
properties of `Term.Tolerant`.
-/

namespace TermRewriting

/-- No symbol is flat or orderless. -/
def SymbolTable.Plain (table : SymbolTable) : Prop :=
  ∀ name, table.isFlat name = false ∧ table.isOrderless name = false

theorem SymbolTable.plain_empty : SymbolTable.empty.Plain :=
  fun _ => ⟨Attributes.isFlat_empty, Attributes.isOrderless_empty⟩

namespace Term

/-- No node is an application of `Sequence`. -/
def SequenceFree (t : Term) : Prop := t.Every fun s => s.isCall "Sequence" = false

theorem SequenceFree.isCall_eq_false {t : Term} (h : t.SequenceFree) :
    t.isCall "Sequence" = false := by
  cases h with
  | atom a => rfl
  | app hnode _ _ => exact hnode

/-- Other arguments under the same head do not make it `Sequence`. -/
theorem SequenceFree.apply {head : Term} {args items : List Term} {marks : Marks}
    (h : (Term.app head args marks).SequenceFree) (hitems : ∀ a ∈ items, a.SequenceFree) :
    (Term.apply head items).SequenceFree := by
  obtain ⟨hcall, hhead, _⟩ := every_app.mp h
  refine .app ?_ hhead hitems
  rw [isCall, callArgs?_app] at hcall ⊢
  split at hcall
  · cases hcall
  · next hsymbol =>
    rw [if_neg hsymbol]
    rfl

/-! ## Equivalence -/

/-- Equality of structure up to the order of the arguments of orderless symbols and up to the
nesting of applications of flat symbols. -/
inductive Equivalent (table : SymbolTable) : Term → Term → Prop where
  | same {s t : Term} : s.unmarked = t.unmarked → Equivalent table s t
  | symm {s t : Term} : Equivalent table s t → Equivalent table t s
  | trans {s t u : Term} : Equivalent table s t → Equivalent table t u → Equivalent table s u
  | head {h k : Term} (args : List Term) (marks : Marks) : Equivalent table h k →
      Equivalent table (.app h args marks) (.app k args marks)
  | arg {a b : Term} (h : Term) (pre post : List Term) (marks : Marks) : Equivalent table a b →
      Equivalent table (.app h (pre ++ a :: post) marks) (.app h (pre ++ b :: post) marks)
  | reorder {name : String} {as bs : List Term} (marks : Marks) : table.isOrderless name = true →
      as.Perm bs → Equivalent table (.app (.symbol name) as marks) (.app (.symbol name) bs marks)
  | flatten {name : String} (pre inner post : List Term) (marks : Marks) :
      table.isFlat name = true →
      Equivalent table (.app (.symbol name) (pre ++ call name inner :: post) marks)
        (.app (.symbol name) (pre ++ (inner ++ post)) marks)

namespace Equivalent

variable {table : SymbolTable} {s t : Term}

theorem refl (t : Term) : Equivalent table t t := .same rfl

theorem symbolName?_eq (h : Equivalent table s t) : s.symbolName? = t.symbolName? := by
  induction h with
  | same h => rw [← symbolName?_unmarked, h, symbolName?_unmarked]
  | symm _ ih => exact ih.symm
  | trans _ _ ih ih' => exact ih.trans ih'
  | head args marks _ _ => rfl
  | arg h pre post marks _ _ => rfl
  | reorder marks _ _ => rfl
  | flatten pre inner post marks _ => rfl

theorem isCall_eq (name : String) (h : Equivalent table s t) : s.isCall name = t.isCall name := by
  induction h with
  | same h => rw [← isCall_unmarked, h, isCall_unmarked]
  | symm _ ih => exact ih.symm
  | trans _ _ ih ih' => exact ih.trans ih'
  | head args marks hhead _ =>
    rw [isCall, isCall, callArgs?_app, callArgs?_app, hhead.symbolName?_eq]
  | arg h pre post marks _ _ =>
    rw [isCall, isCall, callArgs?_app, callArgs?_app]
    split <;> rfl
  | reorder marks _ _ =>
    rw [isCall, isCall, callArgs?_app, callArgs?_app]
    split <;> rfl
  | flatten pre inner post marks _ =>
    rw [isCall, isCall, callArgs?_app, callArgs?_app]
    split <;> rfl

theorem args (h : Term) (marks : Marks) {as bs : List Term}
    (hargs : List.Forall₂ (Equivalent table) as bs) (pre : List Term) :
    Equivalent table (.app h (pre ++ as) marks) (.app h (pre ++ bs) marks) := by
  induction hargs generalizing pre with
  | nil => exact .refl _
  | @cons a b as bs hab _ ih =>
    have hrest := ih (pre ++ [b])
    rw [List.append_assoc, List.append_assoc] at hrest
    exact .trans (.arg h pre as marks hab) hrest

/-- Applications are equivalent if their heads and arguments are. -/
theorem app {h k : Term} {as bs : List Term} {m n : Marks} (hhead : Equivalent table h k)
    (hargs : List.Forall₂ (Equivalent table) as bs) :
    Equivalent table (.app h as m) (.app k bs n) := by
  have hmarks : Equivalent table (.app k bs m) (.app k bs n) := .same (by simp)
  exact .trans (.head as m hhead) (.trans (args k m hargs []) hmarks)

end Equivalent

/-! ## What a relation to the matched term has to tolerate -/

/-- The relation holds between identical terms, survives building anew, does not blur what dissolves
into an argument list, and does not see what the attributes hide of its second term. -/
structure Tolerant (table : SymbolTable) (R : Term → Term → Prop) : Prop where
  identical : ∀ {s t}, s.identical t = true → R s t
  app : ∀ {h k as bs marks}, R h k → List.Forall₂ R as bs → R (apply h as) (.app k bs marks)
  isCall_eq : ∀ {s t}, R s t → s.isCall "Sequence" = t.isCall "Sequence"
  reorder : ∀ {s name bs cs marks}, table.isOrderless name = true → bs.Perm cs →
    R s (.app (.symbol name) bs marks) → R s (.app (.symbol name) cs marks)
  flatten : ∀ {s name pre inner post marks}, table.isFlat name = true →
    R s (.app (.symbol name) (pre ++ call name inner :: post) marks) →
      R s (.app (.symbol name) (pre ++ (inner ++ post)) marks)

theorem tolerant_equivalent (table : SymbolTable) : Tolerant table (Equivalent table) where
  identical h := .same (unmarked_eq_of_identical h)
  app hhead hargs := hhead.app hargs
  isCall_eq h := h.isCall_eq _
  reorder horderless hperm h := h.trans (.reorder _ horderless hperm)
  flatten hflat h := h.trans (.flatten _ _ _ _ hflat)

/-- Without attributes nothing is hidden. -/
theorem tolerant_identical {table : SymbolTable} (h : table.Plain) :
    Tolerant table fun s t => s.identical t = true where
  identical := id
  app hhead hargs := by
    rw [Term.identical, hhead, identicalAll_iff_forall₂.mpr hargs]
    rfl
  isCall_eq hid := by rw [← isCall_unmarked, unmarked_eq_of_identical hid, isCall_unmarked]
  reorder horderless := by simp [(h _).2] at horderless
  flatten hflat := by simp [(h _).1] at hflat

end Term

end TermRewriting
