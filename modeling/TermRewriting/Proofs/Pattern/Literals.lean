import TermRewriting.Proofs.Pattern.InPlace
import TermRewriting.Proofs.Pattern.Shape

/-!
# Literal patterns

A term is a literal pattern if no node of it has a pattern head, and none a flat or an orderless
one. Matching such a pattern is comparing structures: it asks no hook, writes nothing, and its
answer does not depend on what is bound (`Term.matchInto_of_literal`). So the fingerprint under
which the rule index files the pattern is the fingerprint of every term that it matches
(`Term.matchInto_literal_identical`).
-/

namespace TermRewriting

variable {ω : Type}

namespace Attempt

/-! ## Attempts that touch nothing -/

theorem onCopy_pure (ok : Bool) : onCopy (pure ok : Attempt ω Bool) = pure ok := by
  funext s
  rw [run_onCopy]
  cases ok <;> rfl

theorem pure_andThen_pure (ok ok' : Bool) :
    (pure ok : Attempt ω Bool).andThen (pure ok') = pure (ok && ok') := by
  cases ok <;> rfl

end Attempt

open Attempt

namespace Term

/-! ## Literals in place -/

section

variable {table : SymbolTable} {hooks : Hooks ω}

/-- Where nothing varies, every place is the trial of its argument. -/
theorem slotTrials_of_single {args : List Term} (hargs : ∀ a ∈ args, a.isVariadic = false) :
    Slot.trials table hooks (args.map fun a => Slot.ofTerm a (Pattern.ofTerm a))
      = args.map fun a => .single (a.matchInto table hooks) := by
  induction args with
  | nil => rfl
  | cons a as ih =>
    obtain ⟨ha, has⟩ := List.forall_mem_cons.mp hargs
    rw [List.map_cons, slotOfTerm_of_single ha, Slot.trials, ih has]
    rfl

theorem tryInOrder_of_literals {args : List Term}
    (hargs : ∀ a ∈ args, ∀ t, a.matchInto table hooks t = pure (a.unmarked.identical t.unmarked))
    (items : List Term) :
    tryInOrder (args.map fun a => .single (a.matchInto table hooks)) items
      = pure (identicalAll (args.map unmarked) (items.map unmarked)) := by
  induction args generalizing items with
  | nil => cases items <;> rfl
  | cons a as ih =>
    obtain ⟨ha, has⟩ := List.forall_mem_cons.mp hargs
    cases items with
    | nil => rfl
    | cons item others =>
      rw [List.map_cons, tryInOrder, ha, ih has, pure_andThen_pure, onCopy_pure, List.map_cons,
        List.map_cons, identicalAll]

/-- Under a head that is neither flat nor orderless, arguments are tried in order. -/
theorem tryArgs_of_plain {attributes : Attributes} {head : Term} {slots : List (Slot (Trial ω))}
    (horderless : attributes.isOrderless = false) (hflat : attributes.isFlat = false) :
    tryArgs attributes head slots = tryInOrder slots := by
  funext items
  rw [tryArgs, horderless, hflat]
  rfl

theorem identicalAll_of_length {as bs : List Term} (h : as.length ≠ bs.length) :
    identicalAll as bs = false := by
  rw [Bool.eq_false_iff]
  intro hall
  exact h (identicalAll_iff_forall₂.mp hall).length_eq

/-- **Matching a literal is comparing structures.** -/
theorem matchInto_of_literal {p : Term} (hfree : p.isPatternFree = true)
    (hrigid : p.isRigid table = true) (t : Term) :
    p.matchInto table hooks t = pure (p.unmarked.identical t.unmarked) := by
  induction p using induct generalizing t with
  | atom a => cases t <;> rfl
  | app head args marks ihhead ihargs =>
    obtain ⟨hflat, horderless⟩ := plain_of_isRigid hrigid
    rw [isPatternFree, Bool.and_eq_true, Bool.and_eq_true, Bool.not_eq_true'] at hfree
    rw [isRigid, Bool.and_eq_true, Bool.and_eq_true, Bool.not_eq_true'] at hrigid
    obtain ⟨hname, hheadFree, hargsFree⟩ := hfree
    obtain ⟨_, hheadRigid, hargsRigid⟩ := hrigid
    have hsingle : ∀ a ∈ args, a.isVariadic = false := fun a ha =>
      isVariadic_of_isPatternFree (isPatternFree_of_mem hargsFree ha)
    have hargs : ∀ a ∈ args, ∀ t,
        a.matchInto table hooks t = pure (a.unmarked.identical t.unmarked) := fun a ha =>
      ihargs a ha (isPatternFree_of_mem hargsFree ha) (isRigid_of_mem hargsRigid ha)
    have hhead : ∀ k, (Pattern.ofTerm head).trial table hooks k
        = pure (head.unmarked.identical k.unmarked) := ihhead hheadFree hheadRigid
    rw [matchInto, ofTerm_compound (ofPatternHead?_of_not_patternHead hname args), Pattern.trial,
      slotTrials_of_single hsingle, unmarked_app]
    cases t with
    | atom a => rfl
    | app k items n =>
      rw [tryCompound, unmarked_app, hflat, tryArgs_of_plain horderless hflat, hhead,
        tryInOrder_of_literals hargs, pure_andThen_pure, onCopy_pure]
      split
      · next hcount =>
        have hlength : (args.map unmarked).length ≠ (items.map unmarked).length := by
          simpa using (Bool.and_eq_true_iff.mp hcount).2
        rw [identical, identicalAll_of_length hlength, Bool.and_false, Bool.and_false]
      · rfl

end

/-! ## Where literals are filed -/

/-- A literal is about itself: it has no condition. -/
theorem core_of_isPatternFree {p : Term} (h : p.isPatternFree = true) : p.core = p := by
  unfold core
  split
  · cases h
  · cases h
  · rfl

/-- A literal is filed under its fingerprint, unless its head is itself an application. -/
theorem ofLhs_of_literal {table : SymbolTable} {p : Term} (hfree : p.isPatternFree = true)
    (hrigid : p.isRigid table = true) :
    Bucket.ofLhs table p = .literal p.fingerprint
      ∨ p.headName? = none ∧ Bucket.ofLhs table p = .general := by
  rw [Bucket.ofLhs, core_of_isPatternFree hfree]
  cases p with
  | atom a => exact .inl rfl
  | app head args marks =>
    have hliteral : (Term.app head args marks).isLiteral table = true := by
      rw [isLiteral, hfree, hrigid]
      rfl
    cases hhead : head.symbolName? with
    | none =>
      refine .inr ⟨hhead, ?_⟩
      simp only [Bucket.ofCore, hhead]
    | some name =>
      refine .inl ?_
      simp only [Bucket.ofCore, hhead, hliteral, if_true]

/-- **Literal patterns mean identity.** A literal matches the terms that are identical to it, and
these alone. Whatever hooks there are and whatever they remember, none of them is asked, and
whatever is bound stays as it is. So a term that a literal matches has the literal's fingerprint,
which is what the rule index files it under if its head is a symbol; with any other head it is
among the rules that are always tried. -/
theorem matchInto_literal_identical {table : SymbolTable} {p t : Term}
    (hfree : p.isPatternFree = true) (hrigid : p.isRigid table = true) (hp : p.Coherent)
    (ht : t.Coherent) :
    (∀ (ω : Type) (hooks : Hooks ω) (b : Bindings) (memory : ω),
        p.matchInto table hooks t (b, memory) = (t.identical p, (b, memory)))
      ∧ (t.identical p = true → t.fingerprint = p.fingerprint)
      ∧ (Bucket.ofLhs table p = .literal p.fingerprint
          ∨ p.headName? = none ∧ Bucket.ofLhs table p = .general) := by
  refine ⟨fun ω hooks b memory => ?_, fun hid => ?_, ofLhs_of_literal hfree hrigid⟩
  · rw [matchInto_of_literal hfree hrigid, identical_unmarked hp ht, identical_comm hp ht]
    rfl
  · rw [fingerprint_unmarked ht, unmarked_eq_of_identical hid, ← fingerprint_unmarked hp]

/-- The term remembers fingerprints and the pattern does not. The hooks would count and refuse. -/
theorem matchInto_literal_identical_memoized :
    let p := call "f" [apply (call "g" [integer 1]) [], string "a", symbol "x"]
    let table : SymbolTable := .ofAttributes [("h", .flat)]
    let refuses : Hooks Nat :=
      ⟨some fun _ _ asked => (false, asked + 1), some fun _ _ asked => (false, asked + 1)⟩
    let b : Bindings := [("x", integer 2)]
    p.isPatternFree = true ∧ p.isRigid table = true ∧ p.Coherent ∧ p.memoized.Coherent
      ∧ p.matchInto table refuses p.memoized (b, 0) = (true, (b, 0))
      ∧ p.memoized.fingerprint = p.fingerprint
      ∧ Bucket.ofLhs table p = .literal p.fingerprint := by
  intro p table refuses b
  have hrigid : p.isRigid table = true := by
    simp only [p, table]
    rfl
  have hp : p.Coherent := coherent_of_unmarked_eq rfl
  have ht : p.memoized.Coherent := hp.memoized robust_truthful
  have hid : p.memoized.identical p = true :=
    (identical_iff ht hp).mpr (unmarked_memoized p)
  obtain ⟨hmatch, hfingerprint, hfiled⟩ := matchInto_literal_identical rfl hrigid hp ht
  have hmatch := hmatch Nat refuses b 0
  rw [hid] at hmatch
  refine ⟨rfl, hrigid, hp, ht, hmatch, hfingerprint hid, hfiled.resolve_right ?_⟩
  rintro ⟨hhead, _⟩
  cases hhead

end Term

end TermRewriting
