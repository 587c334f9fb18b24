import TermRewriting.Conditional
import TermRewriting.Term.Edit
import TermRewriting.Term.Identity

/-!
# The structure of terms

`Term.unmarked` forgets all marks, so two terms have one structure when their unmarked forms are
equal. Everything that is read off a term without its marks commutes with `unmarked`; the lemmas on
the accessors say so.

`Term.Every Q` extends a property of applications to all applications in a term, heads included.
It is the form in which invariants of marks are stated.
-/

namespace TermRewriting

namespace Term

/-! ## Induction -/

/-- Induction on a term, with a hypothesis for the head and one for each argument. -/
theorem induct {P : Term → Prop} (atom : ∀ a, P (.atom a))
    (app : ∀ head args marks, P head → (∀ a ∈ args, P a) → P (.app head args marks))
    (t : Term) : P t := by
  -- the motive for argument lists says `P` of each of their members
  refine @Term.rec P (fun args => ∀ a ∈ args, P a) atom app ?_ ?_ t
  · intro a ha
    cases ha
  · intro a as iha ihas b hb
    rcases List.mem_cons.mp hb with rfl | hb
    · exact iha
    · exact ihas b hb

/-! ## Unmarked terms -/

theorem unmarkedAll_eq_map (args : List Term) : unmarkedAll args = args.map unmarked := by
  induction args with
  | nil => rfl
  | cons a as ih => rw [unmarkedAll, ih, List.map_cons]

@[simp] theorem unmarked_atom (a : Atom) : (Term.atom a).unmarked = .atom a := rfl

@[simp] theorem unmarked_app (head : Term) (args : List Term) (marks : Marks) :
    (Term.app head args marks).unmarked = apply head.unmarked (args.map unmarked) := by
  rw [unmarked, unmarkedAll_eq_map]

@[simp] theorem unmarked_unmarked (t : Term) : t.unmarked.unmarked = t.unmarked := by
  induction t using induct with
  | atom a => rfl
  | app head args marks ihhead ihargs =>
    have hargs : args.map (unmarked ∘ unmarked) = args.map unmarked :=
      List.map_congr_left ihargs
    rw [unmarked_app, unmarked_app, ihhead, List.map_map, hargs]

theorem unmarked_eq_atom {t : Term} {a : Atom} (h : t.unmarked = .atom a) : t = .atom a := by
  cases t with
  | atom b => exact h
  | app head args marks =>
    rw [unmarked_app] at h
    cases h

theorem unmarked_eq_app {t head : Term} {args : List Term} {marks : Marks}
    (h : t.unmarked = (Term.app head args marks).unmarked) :
    ∃ k bs n, t = .app k bs n ∧ k.unmarked = head.unmarked
      ∧ bs.map unmarked = args.map unmarked := by
  cases t with
  | atom b =>
    rw [unmarked_app] at h
    cases h
  | app k bs n =>
    rw [unmarked_app, unmarked_app] at h
    injection h with hhead hargs _
    exact ⟨k, bs, n, rfl, hhead, hargs⟩

/-! ## Reading a term without its marks -/

@[simp] theorem isAtom_unmarked (t : Term) : t.unmarked.isAtom = t.isAtom := by
  cases t with
  | atom a => rfl
  | app head args marks => rw [unmarked_app]; rfl

@[simp] theorem symbolName?_unmarked (t : Term) : t.unmarked.symbolName? = t.symbolName? := by
  cases t with
  | atom a => rfl
  | app head args marks => rw [unmarked_app]; rfl

@[simp] theorem head_unmarked (t : Term) : t.unmarked.head = t.head.unmarked := by
  cases t with
  | atom a => rfl
  | app head args marks => rw [unmarked_app]; rfl

@[simp] theorem headName?_unmarked (t : Term) : t.unmarked.headName? = t.headName? := by
  cases t with
  | atom a => rfl
  | app head args marks =>
    rw [unmarked_app]
    exact symbolName?_unmarked head

@[simp] theorem args_unmarked (t : Term) : t.unmarked.args = t.args.map unmarked := by
  cases t with
  | atom a => rfl
  | app head args marks => rw [unmarked_app]; rfl

/-- A term is a symbol exactly if it has a name. -/
theorem symbolName?_eq_some {t : Term} {name : String} :
    t.symbolName? = some name ↔ t = .symbol name := by
  constructor
  · intro h
    match t, h with
    | .symbol n, h =>
      injection h with h
      rw [h]
  · rintro rfl
    rfl

/-- The applications of a symbol, seen through the name of the head. -/
theorem callArgs?_app (name : String) (head : Term) (args : List Term) (marks : Marks) :
    (Term.app head args marks).callArgs? name
      = if head.symbolName? = some name then some args else none := by
  match head with
  | .symbol h => simp [callArgs?, symbolName?]
  | .integer _ | .real _ | .string _ | .app .. => simp [callArgs?, symbolName?]

@[simp] theorem callArgs?_atom (name : String) (a : Atom) : (Term.atom a).callArgs? name = none :=
  rfl

theorem callArgs?_eq_some {t : Term} {name : String} {args : List Term} :
    t.callArgs? name = some args ↔ ∃ marks, t = .app (.symbol name) args marks := by
  cases t with
  | atom a => simp
  | app head items marks =>
    rw [callArgs?_app]
    constructor
    · intro h
      split at h
      · next hname =>
        rw [symbolName?_eq_some.mp hname, Option.some.inj h]
        exact ⟨marks, rfl⟩
      · cases h
    · rintro ⟨marks, h⟩
      cases h
      exact if_pos rfl

theorem isCall_eq_true {t : Term} {name : String} :
    t.isCall name = true ↔ ∃ args marks, t = .app (.symbol name) args marks := by
  rw [isCall, Option.isSome_iff_exists]
  exact exists_congr fun args => callArgs?_eq_some

/-- What holds of all spliced arguments holds of those that stay and of the parts of the others. -/
theorem forall_mem_spliced {P : Term → Prop} {name : String} {args : List Term} :
    (∀ b ∈ spliced name args, P b)
      ↔ ∀ a ∈ args, (a.isCall name = false → P a) ∧ (a.isCall name = true → ∀ b ∈ a.args, P b) := by
  unfold spliced
  rw [List.forall_mem_flatMap]
  refine forall₂_congr fun a _ => ?_
  cases hcall : a.callArgs? name with
  | none => simp [isCall, hcall]
  | some items =>
    obtain ⟨marks, rfl⟩ := callArgs?_eq_some.mp hcall
    simp [isCall, hcall, Term.args]

theorem conditional?_eq_some {t value condition : Term} :
    t.conditional? = some (value, condition)
      ↔ ∃ marks, t = .app (.symbol "ConditionalExpression") [value, condition] marks := by
  constructor
  · intro h
    simp only [conditional?] at h
    split at h
    · next v c hargs =>
      cases h
      exact callArgs?_eq_some.mp hargs
    · cases h
  · rintro ⟨marks, rfl⟩
    exact conditional?_pair value condition marks

@[simp] theorem callArgs?_unmarked (name : String) (t : Term) :
    t.unmarked.callArgs? name = (t.callArgs? name).map (List.map unmarked) := by
  cases t with
  | atom a => rfl
  | app head args marks =>
    rw [unmarked_app, callArgs?_app, callArgs?_app, symbolName?_unmarked]
    split <;> rfl

@[simp] theorem isCall_unmarked (name : String) (t : Term) :
    t.unmarked.isCall name = t.isCall name := by
  simp [isCall]

@[simp] theorem conditional?_unmarked (t : Term) :
    t.unmarked.conditional? = t.conditional?.map fun c => (c.1.unmarked, c.2.unmarked) := by
  simp only [conditional?, callArgs?_unmarked]
  rcases t.callArgs? "ConditionalExpression" with _ | _ | ⟨value, _ | ⟨condition, _ | _⟩⟩
  all_goals rfl

/-! ## Nodes and paths -/

theorem at?_app_toHead (path : Path) (head : Term) (args : List Term) (marks : Marks) :
    (Term.app head args marks).at? (.toHead :: path) = head.at? path := rfl

theorem at?_app_toArg (i : Nat) (path : Path) (head : Term) (args : List Term) (marks : Marks) :
    (Term.app head args marks).at? (.toArg i :: path) = args[i]?.bind (at? path) := rfl

/-- A path that goes on below the node at another path. -/
theorem at?_append (path below : Path) (t : Term) :
    t.at? (path ++ below) = (t.at? path).bind (at? below) := by
  induction path generalizing t with
  | nil => rfl
  | cons d path ih =>
    cases t with
    | atom a => rfl
    | app head args marks =>
      rw [List.cons_append]
      cases d with
      | toHead => rw [at?_app_toHead, at?_app_toHead, ih]
      | toArg i =>
        rw [at?_app_toArg, at?_app_toArg]
        cases args[i]? with
        | none => rfl
        | some a => exact ih a

/-- Paths lead to the same structures in a term and in its unmarked form. -/
theorem at?_unmarked (path : Path) (t : Term) :
    t.unmarked.at? path = (t.at? path).map unmarked := by
  induction path generalizing t with
  | nil => simp [at?]
  | cons d path ih =>
    cases t with
    | atom a => rfl
    | app head args marks =>
      rw [unmarked_app]
      cases d with
      | toHead => rw [at?_app_toHead, at?_app_toHead, ih]
      | toArg i =>
        rw [at?_app_toArg, at?_app_toArg, List.getElem?_map]
        cases args[i]? with
        | none => rfl
        | some a => exact ih a

theorem forall_at?_atom {P : Term → Prop} {a : Atom} :
    (∀ path s, (Term.atom a).at? path = some s → P s) ↔ P (.atom a) := by
  constructor
  · intro h
    exact h [] _ rfl
  · intro h path s hs
    cases path with
    | nil =>
      cases hs
      exact h
    | cons d path => cases hs

/-- The nodes of an application are itself and the nodes of its parts. -/
theorem forall_at?_app {P : Term → Prop} {head : Term} {args : List Term} {marks : Marks} :
    (∀ path s, (Term.app head args marks).at? path = some s → P s)
      ↔ P (.app head args marks) ∧ (∀ path s, head.at? path = some s → P s)
        ∧ ∀ a ∈ args, ∀ path s, a.at? path = some s → P s := by
  constructor
  · intro h
    refine ⟨h [] _ rfl, fun path s hs => h (.toHead :: path) s hs, ?_⟩
    intro a ha path s hs
    obtain ⟨i, hi⟩ := List.getElem?_of_mem ha
    refine h (.toArg i :: path) s ?_
    rw [at?_app_toArg, hi]
    exact hs
  · rintro ⟨hnode, hhead, hargs⟩ path s hs
    cases path with
    | nil =>
      cases hs
      exact hnode
    | cons d path =>
      cases d with
      | toHead => exact hhead path s hs
      | toArg i =>
        obtain ⟨a, ha, hs⟩ := Option.bind_eq_some_iff.mp hs
        exact hargs a (List.mem_of_getElem? ha) path s hs

/-! ## Properties of all applications -/

/-- The property holds of every application in the term. -/
inductive Every (Q : Term → Prop) : Term → Prop where
  | atom (a : Atom) : Every Q (.atom a)
  | app {head : Term} {args : List Term} {marks : Marks} : Q (.app head args marks) →
      Every Q head → (∀ a ∈ args, Every Q a) → Every Q (.app head args marks)

variable {Q R : Term → Prop}

@[simp] theorem every_atom (a : Atom) : (Term.atom a).Every Q := .atom a

theorem every_app {head : Term} {args : List Term} {marks : Marks} :
    (Term.app head args marks).Every Q
      ↔ Q (.app head args marks) ∧ head.Every Q ∧ ∀ a ∈ args, a.Every Q := by
  constructor
  · rintro (_ | ⟨node, hhead, hargs⟩)
    exact ⟨node, hhead, hargs⟩
  · rintro ⟨node, hhead, hargs⟩
    exact .app node hhead hargs

theorem Every.mono {t : Term} (ht : t.Every Q) (h : ∀ s, Q s → R s) : t.Every R := by
  induction ht with
  | atom a => exact .atom a
  | app node _ _ ihhead ihargs => exact .app (h _ node) ihhead ihargs

theorem Every.and {t : Term} (hQ : t.Every Q) (hR : t.Every R) : t.Every fun s => Q s ∧ R s := by
  induction t using induct with
  | atom a => exact .atom a
  | app head args marks ihhead ihargs =>
    obtain ⟨nodeQ, headQ, argsQ⟩ := every_app.mp hQ
    obtain ⟨nodeR, headR, argsR⟩ := every_app.mp hR
    exact .app ⟨nodeQ, nodeR⟩ (ihhead headQ headR) fun a ha => ihargs a ha (argsQ a ha) (argsR a ha)

theorem Every.at? {t s : Term} {path : Path} (ht : t.Every Q) (h : t.at? path = some s) :
    s.Every Q := by
  induction path generalizing t with
  | nil =>
    cases h
    exact ht
  | cons d path ih =>
    cases ht with
    | atom a => cases h
    | app _ hhead hargs =>
      cases d with
      | toHead => exact ih hhead h
      | toArg i =>
        obtain ⟨a, ha, hs⟩ := Option.bind_eq_some_iff.mp h
        exact ih (hargs a (List.mem_of_getElem? ha)) hs

/-- A property holds of every application in a term if it holds of each one that a path leads to. -/
theorem every_of_at? {t : Term}
    (h : ∀ path head args marks, t.at? path = some (.app head args marks) →
      Q (.app head args marks)) : t.Every Q := by
  induction t using induct with
  | atom a => exact .atom a
  | app head args marks ihhead ihargs =>
    refine .app (h [] head args marks rfl) ?_ ?_
    · exact ihhead fun path k bs n hs => h (.toHead :: path) k bs n hs
    · intro a ha
      obtain ⟨i, hi⟩ := List.getElem?_of_mem ha
      refine ihargs a ha fun path k bs n hs => h (.toArg i :: path) k bs n ?_
      rw [at?_app_toArg, hi]
      exact hs

/-! ## Atoms -/

mutual

/-- The atoms of a term from left to right, those in heads included. -/
def atoms : Term → List Atom
  | .atom a => [a]
  | .app head args _ => head.atoms ++ atomsAll args

def atomsAll : List Term → List Atom
  | [] => []
  | a :: as => a.atoms ++ atomsAll as

end

theorem atomsAll_eq_flatMap (args : List Term) : atomsAll args = args.flatMap atoms := by
  induction args with
  | nil => rfl
  | cons a as ih => rw [atomsAll, ih, List.flatMap_cons]

theorem forall_atoms_app {P : Atom → Prop} {head : Term} {args : List Term} {marks : Marks} :
    (∀ x ∈ (Term.app head args marks).atoms, P x)
      ↔ (∀ x ∈ head.atoms, P x) ∧ ∀ a ∈ args, ∀ x ∈ a.atoms, P x := by
  rw [atoms, atomsAll_eq_flatMap, List.forall_mem_append, List.forall_mem_flatMap]

end Term

end TermRewriting
