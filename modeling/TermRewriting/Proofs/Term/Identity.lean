import TermRewriting.Proofs.Term.Coherence

/-!
# Identity is structural

Whether two terms are identical may be settled early at every node: a node that both terms share
need not be looked into, and nodes that remember different fingerprints differ. `SameStructure` says
what identity is about without either shortcut: the shape, and the contents of the atoms. Between
coherent terms both shortcuts give the right answer (`identity_structural`). That a shared node is
identical to itself needs no coherence (`identicalSharing_eq`); that different fingerprints mean
different structures does.
-/

namespace TermRewriting

namespace Term

/-! ## Shared nodes -/

mutual

/-- Whether two terms are identical, where `shared` tells the paths at which both are known to have
one and the same node. -/
def identicalSharing (shared : Path → Bool) : Term → Term → Bool
  | .atom a, .atom b => a == b
  | .app h as m, .app k bs n =>
    shared [] || (!m.disagree n && (h.identicalSharing (fun path => shared (.toHead :: path)) k
      && identicalAllSharing (fun i path => shared (.toArg i :: path)) as bs))
  | _, _ => false

/-- Whether two lists are identical, place by place. -/
def identicalAllSharing (shared : Nat → Path → Bool) : List Term → List Term → Bool
  | [], [] => true
  | a :: as, b :: bs =>
    a.identicalSharing (shared 0) b && identicalAllSharing (fun i => shared (i + 1)) as bs
  | _, _ => false

end

/-- At the paths that `shared` accepts, both terms have the same node, or none. -/
def Shares (shared : Path → Bool) (s t : Term) : Prop :=
  ∀ path, shared path = true → s.at? path = t.at? path

theorem Shares.head {shared : Path → Bool} {h k : Term} {as bs : List Term} {m n : Marks}
    (hshared : Shares shared (.app h as m) (.app k bs n)) :
    Shares (fun path => shared (.toHead :: path)) h k :=
  fun path hpath => hshared (.toHead :: path) hpath

theorem identicalAllSharing_eq {as : List Term}
    (ih : ∀ a ∈ as, ∀ shared b, Shares shared a b → a.identicalSharing shared b = a.identical b)
    {shared : Nat → Path → Bool} {bs : List Term}
    (h : ∀ i path, shared i path = true → as[i]?.bind (at? path) = bs[i]?.bind (at? path)) :
    identicalAllSharing shared as bs = identicalAll as bs := by
  induction as generalizing shared bs with
  | nil => cases bs <;> rfl
  | cons a as ihas =>
    cases bs with
    | nil => rfl
    | cons b bs =>
      have hfirst : Shares (shared 0) a b := fun path hpath => h 0 path hpath
      have hrest : identicalAllSharing (fun i => shared (i + 1)) as bs = identicalAll as bs :=
        ihas (fun x hx => ih x (List.mem_cons_of_mem _ hx)) fun i path hpath => h (i + 1) path hpath
      rw [identicalAllSharing, identicalAll, ih a List.mem_cons_self _ _ hfirst, hrest]

/-- **Nodes that are shared need not be looked into.** -/
theorem identicalSharing_eq {shared : Path → Bool} {s t : Term} (h : Shares shared s t) :
    s.identicalSharing shared t = s.identical t := by
  induction s using induct generalizing shared t with
  | atom a => cases t <;> rfl
  | app head args m ihhead ihargs =>
    cases t with
    | atom b => rfl
    | app k bs n =>
      rw [identicalSharing]
      by_cases hnode : shared [] = true
      · have hsame : Term.app head args m = .app k bs n := Option.some.inj (h [] hnode)
        rw [hnode, hsame, identical_rfl]
        rfl
      · rw [Bool.not_eq_true] at hnode
        have hall : identicalAllSharing (fun i path => shared (.toArg i :: path)) args bs
            = identicalAll args bs :=
          identicalAllSharing_eq (fun a ha _ _ => ihargs a ha) fun i path hpath =>
            h (.toArg i :: path) hpath
        rw [hnode, ihhead h.head, hall, identical]
        rfl

/-! ## Structure -/

/-- The terms have one shape, and equal names, integers, texts and bits of reals in it. -/
inductive SameStructure : Term → Term → Prop where
  | symbol (name : String) : SameStructure (.symbol name) (.symbol name)
  | integer (value : Int64) : SameStructure (.integer value) (.integer value)
  | real {x y : Binary64} : x.bits = y.bits → SameStructure (.real x) (.real y)
  | string (text : String) : SameStructure (.string text) (.string text)
  | app {h k : Term} {as bs : List Term} (m n : Marks) : SameStructure h k →
      List.Forall₂ SameStructure as bs → SameStructure (.app h as m) (.app k bs n)

theorem sameStructure_atom_iff {a b : Atom} : SameStructure (.atom a) (.atom b) ↔ a = b := by
  constructor
  · intro h
    cases h with
    | real hbits => exact congrArg Atom.real (congrArg Binary64.mk hbits)
    | symbol _ | integer _ | string _ => rfl
  · rintro rfl
    cases a with
    | symbol name => exact .symbol name
    | integer value => exact .integer value
    | real value => exact .real rfl
    | string text => exact .string text

theorem sameStructure_app_iff {h k : Term} {as bs : List Term} {m n : Marks} :
    SameStructure (.app h as m) (.app k bs n)
      ↔ SameStructure h k ∧ List.Forall₂ SameStructure as bs := by
  constructor
  · rintro (_ | _ | _ | _ | ⟨_, _, hhead, hargs⟩)
    exact ⟨hhead, hargs⟩
  · rintro ⟨hhead, hargs⟩
    exact .app m n hhead hargs

/-- The structure of a term is the term without its marks. -/
theorem sameStructure_iff {s t : Term} : s.SameStructure t ↔ s.unmarked = t.unmarked := by
  induction s using induct generalizing t with
  | atom a =>
    cases t with
    | atom b => simp [sameStructure_atom_iff]
    | app k bs n => simpa using fun h => nomatch h
  | app head args m ihhead ihargs =>
    cases t with
    | atom b => simpa using fun h => nomatch h
    | app k bs n =>
      have hall : List.Forall₂ SameStructure args bs ↔ args.map unmarked = bs.map unmarked := by
        rw [← List.forall₂_eq_eq_eq, List.forall₂_map_left_iff, List.forall₂_map_right_iff]
        constructor
        · intro h
          exact ((List.forall₂_and_left _ _).mpr ⟨ihargs, h⟩).imp fun _ _ hab => hab.1.mp hab.2
        · intro h
          exact ((List.forall₂_and_left _ _).mpr ⟨ihargs, h⟩).imp fun _ _ hab => hab.1.mpr hab.2
      simp [sameStructure_app_iff, ihhead, hall, apply]

/-! ## Identity -/

/-- **Identity is structural.** Coherent terms are identical, also where nodes that they share are
skipped, exactly if they have one structure, whatever is remembered in them; and then they have one
fingerprint, which is what a hash table is given. -/
theorem identity_structural {s t : Term} (hs : s.Coherent) (ht : t.Coherent) :
    (s.identical t = true ↔ s.SameStructure t)
      ∧ ((s == t) = true ↔ s.SameStructure t)
      ∧ (∀ shared, Shares shared s t → (s.identicalSharing shared t = true ↔ s.SameStructure t))
      ∧ (s.SameStructure t → s.fingerprint = t.fingerprint ∧ hash s = hash t) := by
  have hidentical : s.identical t = true ↔ s.SameStructure t := by
    rw [identical_iff hs ht, sameStructure_iff]
  refine ⟨hidentical, hidentical, fun shared hshared => ?_, fun hstructure => ?_⟩
  · rw [identicalSharing_eq hshared, hidentical]
  · have hsame : s.fingerprint = t.fingerprint := by
      rw [fingerprint_unmarked hs, sameStructure_iff.mp hstructure, ← fingerprint_unmarked ht]
    exact ⟨hsame, hsame⟩

/-- One term that remembers all its fingerprints and another that remembers only that of its
argument, which the two share. -/
theorem identity_structural_shared :
    let arg := (Term.call "g" [.real ⟨0x7ff8000000000001⟩, .string "a"]).memoized
    let s := (Term.call "f" [arg]).memoized
    let t := Term.call "f" [arg]
    s.Coherent ∧ t.Coherent ∧ s.remembered?.isSome = true ∧ t.remembered? = none
      ∧ (s == t) = true ∧ s.identicalSharing (fun path => path == [.toArg 0]) t = true
      ∧ hash s = hash t := by
  intro arg s t
  have harg : arg.Coherent := Every.memoized robust_truthful (coherent_of_unmarked_eq rfl)
  have ht : t.Coherent := coherent_apply (.atom _) (List.forall_mem_singleton.mpr harg)
  have hs : s.Coherent := Every.memoized robust_truthful ht
  have hshared : Shares (fun path => path == [.toArg 0]) s t := by
    intro path hpath
    rw [beq_iff_eq.mp hpath]
    rfl
  have hstructure : s.SameStructure t := sameStructure_iff.mpr (unmarked_memoized t)
  obtain ⟨_, hequal, hsharing, hhash⟩ := identity_structural hs ht
  exact ⟨hs, ht, rfl, rfl, hequal.mpr hstructure, (hsharing _ hshared).mpr hstructure,
    (hhash hstructure).2⟩

end Term

end TermRewriting
