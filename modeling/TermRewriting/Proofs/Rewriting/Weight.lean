import TermRewriting.Proofs.Canonical
import TermRewriting.Proofs.Term.Order
import TermRewriting.Rewriting

/-!
# Weight and canonical form

A node in canonical form weighs no more than the node it was made of, and mostly less. Dissolving an
application takes its node away. Handing `n` conditions upwards takes `n` conditional expressions out
of the node around them; inside `k` such nodes each of them weighs `2 * k + 3` of its own, and what
is new weighs `2 * k + 3` together. With the node itself there is one to spare (`lighter_of_hoisted?`).

Only sorting leaves the weight as it is, and then nothing else is left to be done to the node
(`canonicalNode_cases`).
-/

namespace TermRewriting

namespace Term

/-! ## Sums of weights -/

theorem weightAll_eq_sum (around : Nat) (args : List Term) :
    weightAll around args = (args.map (weight around)).sum := by
  induction args with
  | nil => rfl
  | cons a as ih => rw [weightAll, ih, List.map_cons, List.sum_cons]

theorem weightAll_append (around : Nat) (as bs : List Term) :
    weightAll around (as ++ bs) = weightAll around as + weightAll around bs := by
  rw [weightAll_eq_sum, List.map_append, List.sum_append_nat, weightAll_eq_sum, weightAll_eq_sum]

/-- The order of the arguments has no weight. -/
theorem weightAll_perm {as bs : List Term} (h : as.Perm bs) (around : Nat) :
    weightAll around as = weightAll around bs := by
  rw [weightAll_eq_sum, weightAll_eq_sum]
  exact (h.map _).sum_nat

/-! ## Nodes -/

theorem weight_conditional {head : Term} (h : head.symbolName? = some "ConditionalExpression")
    (around : Nat) (args : List Term) (marks : Marks) :
    (Term.app head args marks).weight around = 1 + 2 * around + weightAll around args := by
  obtain rfl := symbolName?_eq_some.mp h
  simp [weight, symbolName?]

theorem weight_app_of_ne {head : Term} (h : head.symbolName? ≠ some "ConditionalExpression")
    (around : Nat) (args : List Term) (marks : Marks) :
    (Term.app head args marks).weight around
      = 1 + (head.weight (around + 1) + weightAll (around + 1) args) := by
  rw [weight, if_neg h]

/-- Marks have no weight. -/
@[simp] theorem weight_unmarked (around : Nat) (t : Term) :
    t.unmarked.weight around = t.weight around := by
  induction t using induct generalizing around with
  | atom a => rfl
  | app head args marks ihhead ihargs =>
    have hargs : ∀ k, weightAll k (args.map unmarked) = weightAll k args := by
      intro k
      rw [weightAll_eq_sum, weightAll_eq_sum, List.map_map]
      exact congrArg List.sum (List.map_congr_left fun a ha => ihargs a ha k)
    rw [unmarked_app, weight, weight, symbolName?_unmarked, ihhead, ihhead, hargs, hargs]

theorem weight_eq_of_unmarked_eq {s t : Term} (h : s.unmarked = t.unmarked) (around : Nat) :
    s.weight around = t.weight around := by
  rw [← weight_unmarked around s, h, weight_unmarked]

theorem weightAll_mono {args : List Term}
    (h : ∀ a ∈ args, ∀ k k', k ≤ k' → a.weight k ≤ a.weight k') {k k' : Nat} (hk : k ≤ k') :
    weightAll k args ≤ weightAll k' args := by
  induction args with
  | nil => exact Nat.le_refl _
  | cons a as ih =>
    obtain ⟨ha, has⟩ := List.forall_mem_cons.mp h
    exact Nat.add_le_add (ha k k' hk) (ih has)

/-- Further inside a term weighs at least as much. -/
theorem weight_mono (t : Term) : ∀ k k', k ≤ k' → t.weight k ≤ t.weight k' := by
  induction t using induct with
  | atom a => exact fun _ _ _ => Nat.le_refl _
  | app head args marks ihhead ihargs =>
    intro k k' hk
    rw [weight, weight]
    split
    · have hhead := ihhead k k' hk
      have hargs := weightAll_mono ihargs hk
      omega
    · have hhead := ihhead (k + 1) (k' + 1) (Nat.add_le_add_right hk 1)
      have hargs := weightAll_mono ihargs (Nat.add_le_add_right hk 1)
      omega

/-- An application of a symbol weighs more than its arguments. -/
theorem weightAll_lt_of_callArgs? {name : String} {a : Term} {items : List Term}
    (h : a.callArgs? name = some items) (around : Nat) :
    weightAll around items < a.weight around := by
  obtain ⟨marks, rfl⟩ := callArgs?_eq_some.mp h
  have hmono : weightAll around items ≤ weightAll (around + 1) items :=
    weightAll_mono (fun b _ => weight_mono b) (Nat.le_add_right around 1)
  rw [weight]
  split <;> omega

/-! ## Comparison of weights -/

/-- Wherever it stands, the first term weighs less. -/
def Lighter (s t : Term) : Prop := ∀ around, s.weight around < t.weight around

/-- Wherever it stands, the first term weighs the same. -/
def SameWeight (s t : Term) : Prop := ∀ around, s.weight around = t.weight around

/-- Wherever they stand, the first terms weigh less together. -/
def LighterAll (as bs : List Term) : Prop :=
  ∀ around, weightAll around as < weightAll around bs

/-- Wherever they stand, the first terms weigh the same together. -/
def SameWeightAll (as bs : List Term) : Prop :=
  ∀ around, weightAll around as = weightAll around bs

theorem SameWeight.refl (t : Term) : SameWeight t t := fun _ => rfl

theorem SameWeightAll.refl (args : List Term) : SameWeightAll args args := fun _ => rfl

theorem sameWeight_of_unmarked_eq {s t : Term} (h : s.unmarked = t.unmarked) : SameWeight s t :=
  weight_eq_of_unmarked_eq h

section

variable {s t u : Term}

theorem SameWeight.trans (h : SameWeight s t) (h' : SameWeight t u) : SameWeight s u :=
  fun k => (h k).trans (h' k)

theorem Lighter.trans_sameWeight (h : Lighter s t) (h' : SameWeight t u) : Lighter s u :=
  fun k => h' k ▸ h k

theorem SameWeight.trans_lighter (h : SameWeight s t) (h' : Lighter t u) : Lighter s u :=
  fun k => h k ▸ h' k

theorem Lighter.trans (h : Lighter s t) (h' : Lighter t u) : Lighter s u :=
  fun k => (h k).trans (h' k)

end

/-! ## Changes of the arguments -/

theorem weightAll_spliced_le (name : String) (args : List Term) (around : Nat) :
    weightAll around (spliced name args) ≤ weightAll around args := by
  induction args with
  | nil => exact Nat.le_refl _
  | cons a as ih =>
    rw [spliced_cons, weightAll_append, weightAll]
    cases ha : a.callArgs? name with
    | none => simpa [weightAll] using ih
    | some items =>
      have hitems := weightAll_lt_of_callArgs? ha around
      rw [Option.getD_some]
      omega

/-- Dissolving an application among the arguments takes its node away. -/
theorem lighterAll_of_dissolving? {name : String} {args new : List Term}
    (h : dissolving? name args = some new) : LighterAll new args := by
  intro around
  unfold dissolving? at h
  split at h
  · next hany =>
    obtain rfl := Option.some.inj h
    induction args with
    | nil => cases hany
    | cons a as ih =>
      rw [spliced_cons, weightAll_append, weightAll]
      cases ha : a.callArgs? name with
      | some items =>
        have hitems := weightAll_lt_of_callArgs? ha around
        have hrest := weightAll_spliced_le name as around
        rw [Option.getD_some]
        omega
      | none =>
        have hrest : as.any (isCall name) = true := by simpa [isCall, ha] using hany
        simpa [weightAll] using ih hrest rfl
  · cases h

theorem sorting?_eq_some {args new : List Term} (h : sorting? args = some new) :
    new = sortedArgs args := by
  unfold sorting? at h
  split at h
  · cases h
  · exact (Option.some.inj h).symm

theorem sameWeightAll_sortedArgs (args : List Term) : SameWeightAll (sortedArgs args) args :=
  weightAll_perm (sortedArgs_perm args)

theorem changedFurther_eq_some {args new : List Term} {change : List Term → Option (List Term)}
    {earlier : Option (List Term)} (h : changedFurther args change earlier = some new) :
    change (keepOr args earlier) = some new ∨ earlier = some new := by
  unfold changedFurther at h
  split at h
  · next hnow => exact .inl (hnow.trans h)
  · exact .inr h

theorem LighterAll.trans {as bs cs : List Term} (h : LighterAll as bs) (h' : LighterAll bs cs) :
    LighterAll as cs := fun k => (h k).trans (h' k)

/-- Sequences are dissolved, and then applications of a flat head. -/
theorem lighterAll_of_flattened {flat : Bool} {name : String} {args new : List Term}
    (h : (if flat then changedFurther args (dissolving? name) (dissolving? "Sequence" args)
      else dissolving? "Sequence" args) = some new) : LighterAll new args := by
  split at h
  · rcases changedFurther_eq_some h with hnow | hearlier
    · cases hspread : dissolving? "Sequence" args with
      | none =>
        rw [hspread] at hnow
        exact lighterAll_of_dissolving? hnow
      | some spread =>
        rw [hspread] at hnow
        exact (lighterAll_of_dissolving? hnow).trans (lighterAll_of_dissolving? hspread)
    · exact lighterAll_of_dissolving? hearlier
  · exact lighterAll_of_dissolving? h

/-- Sorting does not bring anything to dissolve, and sorted arguments are in order. -/
theorem changedArgs?_sortedArgs {table : SymbolTable} {head : Term} {args : List Term}
    (hspread : ∀ a ∈ args, a.isCall "Sequence" = false)
    (hflat : ∀ name, head.symbolName? = some name → table.isFlat name = true →
      ∀ a ∈ args, a.isCall name = false) :
    changedArgs? table head (sortedArgs args) = none := by
  have hmem : ∀ {a}, a ∈ sortedArgs args → a ∈ args := (sortedArgs_perm args).mem_iff.mp
  refine changedArgs?_eq_none.mpr ⟨?_, ?_, ?_⟩
  · exact fun a ha => hspread a (hmem ha)
  · exact fun name hname h a ha => hflat name hname h a (hmem ha)
  · exact fun _ _ _ => inOrder_sortedArgs args

/-- Changed arguments weigh less, or they were only sorted and are left alone from then on. -/
theorem changedArgs?_cases {table : SymbolTable} {head : Term} {args new : List Term}
    (h : changedArgs? table head args = some new) :
    LighterAll new args ∨ new = sortedArgs args ∧ changedArgs? table head new = none := by
  unfold changedArgs? at h
  cases hname : head.symbolName? with
  | none =>
    rw [hname] at h
    exact .inl (lighterAll_of_dissolving? h)
  | some name =>
    rw [hname] at h
    dsimp only at h
    split at h
    case isFalse => exact .inl (lighterAll_of_flattened h)
    case isTrue horderless =>
    rcases changedFurther_eq_some h with hsorted | hflattened
    case inr => exact .inl (lighterAll_of_flattened hflattened)
    case inl =>
    have hnew := sorting?_eq_some hsorted
    generalize hflat : (if (table.attributes name).isFlat = true then
      changedFurther args (dissolving? name) (dissolving? "Sequence" args)
      else dissolving? "Sequence" args) = flattened at hnew
    cases flattened with
    | some flattened =>
      left
      intro around
      rw [hnew, sameWeightAll_sortedArgs]
      exact lighterAll_of_flattened hflat around
    | none =>
      right
      refine ⟨hnew, ?_⟩
      rw [hnew]
      have hnone : dissolving? "Sequence" args = none
          ∧ (table.isFlat name = true → dissolving? name args = none) := by
        split at hflat
        · next h =>
          rw [changedFurther_eq_none] at hflat
          exact ⟨hflat.1, fun _ => hflat.2⟩
        · next h => exact ⟨hflat, fun hisFlat => absurd hisFlat h⟩
      refine changedArgs?_sortedArgs (dissolving?_eq_none.mp hnone.1) fun other hother h => ?_
      obtain rfl : name = other := Option.some.inj (hname.symm.trans hother)
      exact dissolving?_eq_none.mp (hnone.2 h)

/-! ## Conditions -/

theorem weight_of_conditional? {a value condition : Term}
    (h : a.conditional? = some (value, condition)) (around : Nat) :
    a.weight around
      = 1 + 2 * around + (value.weight around + condition.weight around) := by
  obtain ⟨marks, rfl⟩ := conditional?_eq_some.mp h
  exact weight_conditional rfl around _ marks

/-- The values and the conditions weigh less than the arguments, by what the conditional expressions
weigh of their own. -/
theorem weightAll_bareValue (around : Nat) (args : List Term) :
    weightAll around (args.map bareValue) + weightAll around (conditions args)
        + (conditions args).length * (1 + 2 * around)
      = weightAll around args := by
  induction args with
  | nil => simp [conditions, weightAll]
  | cons a as ih =>
    rw [List.map_cons, weightAll, weightAll]
    cases ha : a.conditional? with
    | none =>
      have hconditions : conditions (a :: as) = conditions as := by simp [conditions, ha]
      have hvalue : a.bareValue = a := by simp [bareValue, ha]
      rw [hconditions, hvalue]
      omega
    | some pair =>
      obtain ⟨value, condition⟩ := pair
      have hconditions : conditions (a :: as) = condition :: conditions as := by
        simp [conditions, ha]
      have hvalue : a.bareValue = value := by simp [bareValue, ha]
      rw [hconditions, hvalue, weightAll, weight_of_conditional? ha, List.length_cons, Nat.succ_mul]
      omega

/-- **Handing conditions upwards makes a term lighter.** -/
theorem lighter_of_hoisted? {head : Term} {args : List Term} {marks : Marks} {t : Term}
    (hup : handsUp head = true) (h : hoisted? head args = some t) :
    Lighter t (.app head args marks) := by
  intro around
  obtain ⟨name, hname, hne⟩ := handsUp_eq_true.mp hup
  have hhead : head.symbolName? ≠ some "ConditionalExpression" := by simpa [hname] using hne
  unfold hoisted? at h
  split at h
  · cases h
  · next hsome =>
    obtain rfl := Option.some.inj h
    have hcount : 1 ≤ (conditions args).length := by
      rw [Nat.one_le_iff_ne_zero]
      simpa using hsome
    have hmany := Nat.mul_le_mul_right (1 + 2 * (around + 1)) hcount
    have hargs := weightAll_bareValue (around + 1) args
    rw [weight_conditional rfl, weight_app_of_ne hhead, weightAll, weightAll, weightAll,
      weight_app_of_ne hhead, weight_app_of_ne (by simp [symbolName?])]
    simp only [weight]
    omega

/-! ## Canonical nodes -/

/-- A node gets lighter with its parts, as long as its head keeps its name. -/
theorem lighter_app {j k : Term} {as bs : List Term} (hname : j.symbolName? = k.symbolName?)
    (h : ∀ around, j.weight around + weightAll around as
      < k.weight around + weightAll around bs) (m n : Marks) :
    Lighter (.app j as m) (.app k bs n) := by
  intro around
  have hhere := h around
  have hinside := h (around + 1)
  rw [weight, weight, hname]
  split <;> omega

theorem lighter_app_args {as bs : List Term} (head : Term) (h : LighterAll as bs) (m n : Marks) :
    Lighter (.app head as m) (.app head bs n) :=
  lighter_app rfl (fun around => Nat.add_lt_add_left (h around) _) m n

theorem sameWeight_app {j k : Term} {as bs : List Term} (hname : j.symbolName? = k.symbolName?)
    (hhead : SameWeight j k) (hargs : SameWeightAll as bs) (m n : Marks) :
    SameWeight (.app j as m) (.app k bs n) := by
  intro around
  rw [weight, weight, hname, hhead, hhead, hargs, hargs]

theorem symbolName?_canonicalNode (table : SymbolTable) (head : Term) (args : List Term)
    (marks : Marks) : (canonicalNode table head args marks).1.symbolName? = none := by
  unfold canonicalNode
  dsimp only
  split
  · next t hhoisted =>
    split at hhoisted
    · rw [eq_of_hoisted? hhoisted]
      rfl
    · cases hhoisted
  · rfl
  · rfl

/-- **A canonical node is the node itself, or it is lighter, or it was only sorted.** -/
theorem canonicalNode_cases (table : SymbolTable) (head : Term) (args : List Term) (marks : Marks) :
    canonicalNode table head args marks = (.app head args marks, false)
        ∧ IsCanonical table (.app head args marks)
      ∨ Lighter (canonicalNode table head args marks).1 (.app head args marks)
      ∨ (canonicalNode table head args marks).1 = .apply head (sortedArgs args)
        ∧ IsCanonical table (.apply head (sortedArgs args)) := by
  cases hmoved : (canonicalNode table head args marks).2 with
  | false => exact .inl ⟨canonicalNode_eq_self hmoved, canonicalTop_eq_false_iff.mp hmoved⟩
  | true =>
    right
    unfold canonicalNode at hmoved ⊢
    dsimp only at hmoved ⊢
    cases hnew : changedArgs? table head args with
    | none =>
      rw [hnew, keepOr, Option.getD_none] at hmoved
      rw [keepOr, Option.getD_none]
      split at hmoved
      · next t hhoisted =>
        split at hhoisted
        · next hup => exact .inl (lighter_of_hoisted? hup hhoisted)
        · cases hhoisted
      · next hargs => cases hargs
      · cases hmoved
    | some new =>
      rw [keepOr, Option.getD_some]
      have hcases := changedArgs?_cases hnew
      split
      · next t hhoisted =>
        -- what is handed upwards weighs more than sorting could make up for
        left
        split at hhoisted
        · next hup =>
          have hhere := @lighter_of_hoisted? head new .fresh t hup hhoisted
          rcases hcases with hlighter | ⟨rfl, _⟩
          · exact hhere.trans (lighter_app_args head hlighter .fresh marks)
          · exact hhere.trans_sameWeight 
              (sameWeight_app rfl (.refl head) (sameWeightAll_sortedArgs args) _ _)
        · cases hhoisted
      · next new' hhoisted hargs =>
        obtain rfl := Option.some.inj hargs
        rcases hcases with hlighter | ⟨rfl, hdone⟩
        · exact .inl (lighter_app_args head hlighter .fresh marks)
        · refine .inr ⟨rfl, canonicalTop_eq_false_iff.mp ?_⟩
          show (canonicalNode table head (sortedArgs args) .fresh).2 = false
          simp only [canonicalNode, hdone, keepOr, Option.getD_none, hhoisted]
      · next hargs => cases hargs

end Term

end TermRewriting
