import TermRewriting.Proofs.Rewriting.Congruence
import TermRewriting.Proofs.Rewriting.FreePass

/-!
# Prices

Without a limit a computation has one outcome and one price. On any other budget it has that outcome
for that price, or, if the budget does not afford it, leaves the budget exhausted
(`Rewriter.Priced`). Every way of composing computations adds up prices, so a pass has a price, which
is what its parts cost together and what is paid at the node (`alike_stepped_app`). In which order
the parts are paid does not matter.
-/

namespace TermRewriting

open Rewriter

namespace Budget

/-- No limit, and nothing paid yet. -/
def boundless : Budget := ⟨none, 0, false⟩

/-- The limit, if there is one, leaves `n` more payments. -/
def Affords (b : Budget) (n : Nat) : Prop := ∀ limit, b.limit = some limit → n ≤ limit - b.used

/-- The budget after `n` payments. -/
def spent (b : Budget) (n : Nat) : Budget := { b with used := b.used + n }

@[simp] theorem spent_spent (b : Budget) (m n : Nat) : (b.spent m).spent n = b.spent (m + n) := by
  simp [spent, Nat.add_assoc]

theorem affords_boundless (n : Nat) : boundless.Affords n := fun _ h => nomatch h

theorem affords_zero (b : Budget) : b.Affords 0 := fun _ _ => Nat.zero_le _

/-- Payments are afforded together if they are one after the other. -/
theorem affords_add {b : Budget} {m n : Nat} :
    b.Affords (m + n) ↔ b.Affords m ∧ (b.spent m).Affords n := by
  constructor
  · intro h
    refine ⟨fun limit hlimit => ?_, fun limit hlimit => ?_⟩
    · have hboth := h limit hlimit
      omega
    · have hboth := h limit hlimit
      show n ≤ limit - (b.used + m)
      omega
  · rintro ⟨hfirst, hsecond⟩ limit hlimit
    have hm := hfirst limit hlimit
    have hn : n ≤ limit - (b.used + m) := hsecond limit hlimit
    omega

theorem charged_of_affords {b : Budget} (h : b.Affords 1) : b.charged = (b.spent 1, true) := by
  unfold charged
  rw [if_neg]
  · rfl
  · intro hspent
    obtain ⟨limit, hlimit, hused⟩ := (Option.any_eq_true _ _).mp hspent
    have hleft := h limit hlimit
    rw [decide_eq_true_eq] at hused
    omega

theorem charged_of_not_affords {b : Budget} (h : ¬b.Affords 1) : b.charged.1.exhausted = true := by
  refine charged_eq_false ?_
  unfold charged
  rw [if_pos]
  by_contra hnot
  refine h fun limit hlimit => ?_
  have hused : b.used < limit := by simpa [hlimit] using hnot
  omega

end Budget

namespace Rewriter

variable {α β : Type}

/-- What the computation comes to without a limit. -/
def outcome (x : Rewriter α) : α := (value x .boundless).1

/-- How many applications it pays without a limit. -/
def price (x : Rewriter α) : Nat := (value x .boundless).2.used

/-- On a budget that affords the price, the computation has its outcome for it; any other it
exhausts. -/
structure Priced (x : Rewriter α) : Prop where
  paid : ∀ b : Budget, b.exhausted = false → b.Affords (price x) →
    value x b = (outcome x, b.spent (price x))
  unpaid : ∀ b : Budget, b.exhausted = false → ¬b.Affords (price x) →
    (value x b).2.exhausted = true
  lasting : Lasting x

theorem Priced.boundless {x : Rewriter α} (hx : Priced x) :
    value x .boundless = (outcome x, Budget.boundless.spent (price x)) :=
  hx.paid _ rfl (Budget.affords_boundless _)

theorem priced_of_free {x : Rewriter α} {a : α} (h : ∀ b, value x b = (a, b)) : Priced x where
  paid b _ _ := by
    simp [outcome, price, h]
    rfl
  unpaid b _ hnot := by
    rw [price, h] at hnot
    exact absurd b.affords_zero hnot
  lasting b hb := by
    rw [h]
    exact hb

theorem priced_pure (a : α) : Priced (pure a : Rewriter α) := priced_of_free fun _ => rfl

theorem priced_free (x : Traced α) : Priced (free x) := priced_of_free fun _ => rfl

theorem priced_note (e : Event) : Priced (note e) := priced_of_free fun _ => rfl

theorem priced_charge : Priced charge where
  paid b _ h := by
    have h : b.Affords 1 := h
    rw [value_charge, Budget.charged_of_affords h]
    rfl
  unpaid b _ h := by
    have h : ¬b.Affords 1 := h
    rw [value_charge]
    exact Budget.charged_of_not_affords h
  lasting b := (Budget.Before.charged b).lasting

section

variable {x : Rewriter β} {f : β → Rewriter α} (hx : Priced x) (hf : ∀ a, Priced (f a))

include hx hf

theorem value_bind_boundless :
    value (x >>= f) .boundless = (outcome (f (outcome x)),
      Budget.boundless.spent (price x + price (f (outcome x)))) := by
  calc value (x >>= f) .boundless
      = value (f (outcome x)) (Budget.boundless.spent (price x)) := by rw [value_bind, hx.boundless]
    _ = (outcome (f (outcome x)),
          (Budget.boundless.spent (price x)).spent (price (f (outcome x)))) :=
        (hf _).paid _ rfl (Budget.affords_add.mp (Budget.affords_boundless _)).2
    _ = _ := by rw [Budget.spent_spent]

theorem outcome_bind : outcome (x >>= f) = outcome (f (outcome x)) := by
  rw [outcome, value_bind_boundless hx hf]

theorem price_bind : price (x >>= f) = price x + price (f (outcome x)) := by
  rw [price, value_bind_boundless hx hf]
  exact Nat.zero_add _

/-- **The price of one computation after another is the sum of theirs.** -/
theorem priced_bind : Priced (x >>= f) where
  paid b hb h := by
    rw [price_bind hx hf, Budget.affords_add] at h
    calc value (x >>= f) b
        = value (f (outcome x)) (b.spent (price x)) := by rw [value_bind, hx.paid b hb h.1]
      _ = (outcome (f (outcome x)), (b.spent (price x)).spent (price (f (outcome x)))) :=
          (hf _).paid _ hb h.2
      _ = _ := by rw [Budget.spent_spent, outcome_bind hx hf, price_bind hx hf]
  unpaid b hb h := by
    rw [price_bind hx hf, Budget.affords_add, not_and] at h
    rw [value_bind]
    by_cases hfirst : b.Affords (price x)
    · rw [hx.paid b hb hfirst]
      exact (hf _).unpaid _ hb (h hfirst)
    · exact (hf _).lasting _ (hx.unpaid b hb hfirst)
  lasting b hb := (hf _).lasting _ (hx.lasting b hb)

end

end Rewriter

namespace Program

variable {p : Program}

/-! ## A pass has a price -/

theorem priced_applyCandidates (key : DefinitionKey) (rules : RuleSet) (t : Term)
    (numbers : List Nat) : Priced (p.applyCandidates key rules t numbers) := by
  induction numbers with
  | nil => exact priced_pure none
  | cons i numbers ih =>
    rw [applyCandidates]
    cases rules[i]? with
    | none => exact ih
    | some rule =>
      refine priced_bind (priced_free _) fun found => ?_
      cases found with
      | none => exact ih
      | some c =>
        refine priced_bind priced_charge fun paid => ?_
        cases paid with
        | false => exact priced_pure none
        | true => exact priced_bind (priced_note _) fun _ => priced_pure _

theorem priced_applyFirst (t : Term) (definitions : List (DefinitionKey × (RuleSet × RuleIndex))) :
    Priced (p.applyFirst t definitions) := by
  induction definitions with
  | nil => exact priced_pure none
  | cons e rest ih =>
    obtain ⟨key, rules, index⟩ := e
    rw [applyFirst]
    refine priced_bind (priced_applyCandidates key rules t _) fun result => ?_
    cases result with
    | none => exact ih
    | some result => exact priced_pure _

theorem priced_applyTop (t : Term) : Priced (p.applyTop t) := by
  unfold applyTop
  split
  · exact priced_pure _
  · exact priced_bind (priced_applyFirst _ _) fun _ => priced_pure _

theorem priced_finishNode (head : Term) (args : List Term) (marks : Marks) (changed : Bool) :
    Priced (p.finishNode head args marks changed) := by
  rw [finishNode]
  refine priced_bind (priced_applyTop _) fun result => ?_
  obtain ⟨result, node⟩ := result
  cases result with
  | none => exact priced_pure _
  | some result => exact priced_pure _

theorem priced_passAll_of {args : List Term} (h : ∀ a ∈ args, Priced (p.pass a)) :
    Priced (p.passAll args) := by
  induction args with
  | nil => exact priced_pure none
  | cons a as ih =>
    obtain ⟨ha, has⟩ := List.forall_mem_cons.mp h
    rw [passAll]
    exact priced_bind ha fun _ => priced_bind (ih has) fun _ => priced_pure _

/-- **A pass has a price.** -/
theorem priced_pass (t : Term) : Priced (p.pass t) := by
  induction t using Term.induct with
  | atom a =>
    rw [pass]
    exact priced_bind (priced_applyTop _) fun _ => priced_pure _
  | app head args marks ihhead ihargs =>
    rw [pass]
    split
    · exact priced_pure none
    · refine priced_bind ihhead fun newHead => ?_
      refine priced_bind (priced_passAll_of ihargs) fun newArgs => ?_
      split
      · exact priced_finishNode _ _ _ _
      · exact priced_finishNode _ _ _ _

theorem priced_passAll (args : List Term) : Priced (p.passAll args) :=
  priced_passAll_of fun a _ => priced_pass a

/-! ## What a pass makes of a term -/

/-- The term after a pass without a limit. -/
def stepped (p : Program) (t : Term) : Term := keepOr t (outcome (p.pass t))

/-- The price of a pass. -/
def cost (p : Program) (t : Term) : Nat := price (p.pass t)

/-- The node after its definitions were applied without a limit. -/
def applied (p : Program) (t : Term) : Term := keepOr t (outcome (p.applyTop t)).1

theorem pass_of_affords {t : Term} {b : Budget} (hb : b.exhausted = false)
    (h : b.Affords (p.cost t)) : value (p.pass t) b = (outcome (p.pass t), b.spent (p.cost t)) :=
  (priced_pass t).paid b hb h

theorem pass_of_not_affords {t : Term} {b : Budget} (hb : b.exhausted = false)
    (h : ¬b.Affords (p.cost t)) : (value (p.pass t) b).2.exhausted = true :=
  (priced_pass t).unpaid b hb h

theorem value_passAll_boundless (args : List Term) :
    keepOr args (outcome (p.passAll args)) = args.map p.stepped
      ∧ price (p.passAll args) = (args.map p.cost).sum := by
  induction args with
  | nil => exact ⟨rfl, rfl⟩
  | cons a as ih =>
    have hrest : ∀ new, Priced (p.passAll as >>= fun rest =>
        pure (relisted? a as Term.unchangedArg new rest)) :=
      fun new => priced_bind (priced_passAll as) fun _ => priced_pure _
    rw [passAll, outcome_bind (priced_pass a) hrest, price_bind (priced_pass a) hrest,
      outcome_bind (priced_passAll as) fun _ => priced_pure _,
      price_bind (priced_passAll as) fun _ => priced_pure _, ih.2]
    refine ⟨(Term.keepOr_relisted? _ _ _ _).trans ?_, ?_⟩
    · rw [ih.1]
      rfl
    · rw [List.map_cons, List.sum_cons]
      rfl

/-- What finishing a node comes to. -/
theorem value_finishNode (head : Term) (args : List Term) (marks : Marks) (changed : Bool)
    (b : Budget) :
    value (p.finishNode head args marks changed) b
      = let node := Term.canonicalNode p.table head args marks
        let top := value (p.applyTop node.1) b
        (top.1.1.or (if changed || node.2 then some top.1.2 else none), top.2) := by
  rw [finishNode, value_bind]
  dsimp only
  generalize value (p.applyTop (Term.canonicalNode p.table head args marks).1) b = top
  obtain ⟨⟨_ | result, node⟩, after⟩ := top
  · rfl
  · rfl

/-- Finishing a node applies definitions to its canonical form. Where nothing changes, the old term
stands for the result. -/
theorem alike_finishNode (hp : p.Sound) {Q : Term → Prop} (hQ : Term.Robust Q) {t head : Term}
    {args : List Term} {marks : Marks} (changed : Bool)
    (hnode : (Term.app head args marks).Every Q)
    (hsame : changed = false → t = .app head args marks) :
    Term.Alike Q (keepOr t (outcome (p.finishNode head args marks changed)))
        (p.applied (Term.canonicalNode p.table head args marks).1)
      ∧ price (p.finishNode head args marks changed)
        = price (p.applyTop (Term.canonicalNode p.table head args marks).1) := by
  have hcanonical : (Term.canonicalNode p.table head args marks).1.Every Q :=
    ((Term.alike_refl hnode).canonicalTop hQ p.table).1.left
  have happlied := (agree_applyTop hp hQ (Term.alike_refl hcanonical) .boundless).1
  obtain ⟨t', ht', htop⟩ := value_applyTop (p := p)
    (Term.canonicalNode p.table head args marks).1 .boundless
  rw [outcome, price, price, applied, outcome, value_finishNode]
  dsimp only
  refine ⟨?_, rfl⟩
  rw [htop] at happlied ⊢
  dsimp only [AlikeApplication] at happlied ⊢
  generalize (value (p.applyFirst _ _) _).1 = result at happlied
  cases result with
  | some result =>
    rcases optionRel_cases happlied.1 with ⟨h, _⟩ | ⟨_, _, h, _, hresult⟩
    · cases h
    · cases h
      exact Term.alike_refl hresult.left
  | none =>
    cases hchanged : changed || (Term.canonicalNode p.table head args marks).2 with
    | true =>
      rcases ht' with rfl | rfl
      · exact Term.alike_refl hcanonical
      · exact ⟨Term.unmarked_memoized _, hcanonical.memoized hQ, hcanonical⟩
    | false =>
      obtain ⟨hparts, hmoved⟩ := Bool.or_eq_false_iff.mp hchanged
      have hself := congrArg Prod.fst (Term.canonicalNode_eq_self hmoved)
      rw [hself] at hcanonical ⊢
      rw [hsame hparts]
      exact Term.alike_refl hcanonical

/-- What a pass makes of a term has every robust property of the term. -/
theorem every_stepped (hp : p.Sound) {Q : Term → Prop} (hQ : Term.Robust Q) {t : Term}
    (ht : t.Every Q) : (p.stepped t).Every Q := by
  unfold stepped
  cases h : outcome (p.pass t) with
  | none => exact ht
  | some new => exact every_of_pass hp hQ ht h

/-- How a pass over a node goes on after its parts. -/
def finishParts (p : Program) (head : Term) (args : List Term) (marks : Marks)
    (newHead : Option Term) (newArgs : Option (List Term)) : Rewriter (Option Term) :=
  match newHead, newArgs with
  | none, none => p.finishNode head args marks false
  | _, _ => p.finishNode (keepOr head newHead) (keepOr args newArgs) .fresh true

theorem priced_finishParts (head : Term) (args : List Term) (marks : Marks) (newHead : Option Term)
    (newArgs : Option (List Term)) : Priced (p.finishParts head args marks newHead newArgs) := by
  cases newHead <;> cases newArgs <;> exact priced_finishNode _ _ _ _

theorem outcome_pass_app {head : Term} {args : List Term} {marks : Marks}
    (hnormal : ¬(Term.app head args marks).isNormalUnder p.generation = true) :
    outcome (p.pass (.app head args marks))
        = outcome (p.finishParts head args marks (outcome (p.pass head)) (outcome (p.passAll args)))
      ∧ p.cost (.app head args marks) = p.cost head + ((args.map p.cost).sum
          + price (p.finishParts head args marks (outcome (p.pass head))
              (outcome (p.passAll args)))) := by
  have hparts := priced_finishParts (p := p) head args marks
  have hargs := fun newHead => priced_bind (priced_passAll (p := p) args) (hparts newHead)
  have hpass : p.pass (.app head args marks)
      = p.pass head >>= fun newHead =>
          p.passAll args >>= p.finishParts head args marks newHead := by
    rw [pass, if_neg hnormal]
    rfl
  refine ⟨?_, ?_⟩
  · rw [hpass, outcome_bind (priced_pass head) hargs, outcome_bind (priced_passAll args) (hparts _)]
  · rw [cost, hpass, price_bind (priced_pass head) hargs,
      price_bind (priced_passAll args) (hparts _), (value_passAll_boundless args).2]
    rfl

/-- **A pass over a node is one over its parts, and then the definitions of what canonical form
makes of the new parts.** -/
theorem alike_stepped_app (hp : p.Sound) {Q : Term → Prop} (hQ : Term.Robust Q) {head : Term}
    {args : List Term} {marks : Marks} (ht : (Term.app head args marks).Every Q)
    (hnormal : ¬(Term.app head args marks).isNormalUnder p.generation = true) :
    ∃ m, (Term.app (p.stepped head) (args.map p.stepped) m).Every Q
      ∧ Term.Alike Q (p.stepped (.app head args marks)) (p.applied
          (Term.canonicalNode p.table (p.stepped head) (args.map p.stepped) m).1)
      ∧ p.cost (.app head args marks) = p.cost head + ((args.map p.cost).sum + price (p.applyTop
          (Term.canonicalNode p.table (p.stepped head) (args.map p.stepped) m).1)) := by
  obtain ⟨_, hhead, hargs⟩ := Term.every_app.mp ht
  have hfresh : (Term.app (p.stepped head) (args.map p.stepped) .fresh).Every Q :=
    .app (hQ.built _ _) (every_stepped hp hQ hhead)
      (List.forall_mem_map.mpr fun a ha => every_stepped hp hQ (hargs a ha))
  obtain ⟨hnew, hcost⟩ := outcome_pass_app hnormal
  have hstepped : p.stepped (.app head args marks) = keepOr (.app head args marks)
      (outcome (p.finishParts head args marks (outcome (p.pass head))
        (outcome (p.passAll args)))) := by rw [stepped, hnew]
  rw [hstepped, hcost, ← (value_passAll_boundless args).1,
    show p.stepped head = keepOr head (outcome (p.pass head)) from rfl]
  rw [← (value_passAll_boundless args).1,
    show p.stepped head = keepOr head (outcome (p.pass head)) from rfl] at hfresh
  have hrebuilt := alike_finishNode hp hQ (t := .app head args marks) true hfresh nofun
  cases hnewHead : outcome (p.pass head) with
  | some newHead =>
    -- a part did change, so the node is built anew
    rw [hnewHead] at hfresh hrebuilt
    exact ⟨.fresh, hfresh, hrebuilt.1, congrArg _ (congrArg _ hrebuilt.2)⟩
  | none =>
    cases hnewArgs : outcome (p.passAll args) with
    | some newArgs =>
      rw [hnewHead, hnewArgs] at hfresh hrebuilt
      exact ⟨.fresh, hfresh, hrebuilt.1, congrArg _ (congrArg _ hrebuilt.2)⟩
    | none =>
      obtain ⟨halike, hprice⟩ := alike_finishNode hp hQ false ht fun _ => rfl
      exact ⟨marks, ht, halike, congrArg _ (congrArg _ hprice)⟩

end Program

end TermRewriting
