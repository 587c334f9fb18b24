import TermRewriting.Rewriting

/-!
# Computations on a budget

What a computation comes to on a budget is a value and what is left of the budget; the events on the
way do not matter for it (`Rewriter.value`).

Two computations agree when on every budget they come to related values and leave the same. Each way
of composing computations takes agreeing parts to agreeing wholes. No computation makes an exhausted
budget good again (`Rewriter.Lasting`), so a budget that is not exhausted at the end never was. More
than that, a budget is only spent (`Rewriter.Spending`), so what costs nothing as a whole costs
nothing in any of its parts.
-/

namespace TermRewriting

namespace Budget

/-! ## Payment -/

/-- The second budget may be what is left of the first: the limit is the same, nothing is paid back
or made good again, and payments stay within the limit. -/
structure Before (b b' : Budget) : Prop where
  limit : b'.limit = b.limit
  used : b.used ≤ b'.used
  lasting : b.exhausted = true → b'.exhausted = true
  within : ∀ limit, b.limit = some limit → b'.used ≤ max b.used limit

namespace Before

variable {b b' b'' : Budget}

theorem refl (b : Budget) : b.Before b :=
  ⟨rfl, Nat.le_refl _, id, fun _ _ => Nat.le_max_left _ _⟩

theorem trans (h : b.Before b') (h' : b'.Before b'') : b.Before b'' where
  limit := h'.limit.trans h.limit
  used := Nat.le_trans h.used h'.used
  lasting := fun hb => h'.lasting (h.lasting hb)
  within := by
    intro limit hlimit
    have hfirst := h.within limit hlimit
    have hsecond := h'.within limit (h.limit.trans hlimit)
    omega

/-- A budget from which nothing was paid, and that is not exhausted, is the same. -/
theorem eq_of_used (h : b.Before b') (hused : b.used = b'.used) (hb' : b'.exhausted = false) :
    b' = b := by
  have hlimit := h.limit
  have hb : b.exhausted = false := by
    cases hb : b.exhausted with
    | false => rfl
    | true =>
      rw [h.lasting hb] at hb'
      cases hb'
  cases b
  cases b'
  simp_all

/-- Between two times at which the budget is the same, and not exhausted, nothing happened. -/
theorem eq_of_between (h : b.Before b') (h' : b'.Before b) (hb : b.exhausted = false) : b' = b := by
  refine h.eq_of_used (Nat.le_antisymm h.used h'.used) ?_
  cases hb' : b'.exhausted with
  | false => rfl
  | true =>
    rw [h'.lasting hb'] at hb
    cases hb

theorem charged (b : Budget) : b.Before b.charged.1 := by
  unfold Budget.charged
  split
  · exact ⟨rfl, Nat.le_refl _, fun _ => rfl, fun _ _ => Nat.le_max_left _ _⟩
  · next hpaid =>
    refine ⟨rfl, Nat.le_succ _, id, fun limit hlimit => ?_⟩
    have hleft : b.used < limit := by simpa [hlimit] using hpaid
    show b.used + 1 ≤ max b.used limit
    omega

end Before

/-- A payment shows, whether or not it was possible. -/
theorem charged_ne {b : Budget} (hb : b.exhausted = false) : b.charged.1 ≠ b := by
  intro h
  unfold charged at h
  split at h
  · have hexhausted := congrArg exhausted h
    rw [hb] at hexhausted
    cases hexhausted
  · have hused := congrArg used h
    exact Nat.succ_ne_self _ hused

/-- What could not be paid leaves an exhausted budget. -/
theorem charged_eq_false {b : Budget} (h : b.charged.2 = false) : b.charged.1.exhausted = true := by
  unfold charged at h ⊢
  split at h
  · next hpaid =>
    rw [if_pos hpaid]
  · cases h

end Budget

namespace Rewriter

variable {α α' β β' : Type}

/-! ## Values -/

/-- What the computation comes to on a budget, and what it leaves of it. -/
def value (x : Rewriter α) (b : Budget) : α × Budget := Traced.value (x b)

@[simp] theorem value_pure (a : α) (b : Budget) : value (pure a) b = (a, b) := rfl

@[simp] theorem value_bind (x : Rewriter α) (f : α → Rewriter β) (b : Budget) :
    value (x >>= f) b = value (f (value x b).1) (value x b).2 := rfl

@[simp] theorem value_charge (b : Budget) : value charge b = (b.charged.2, b.charged.1) := rfl

@[simp] theorem value_note (e : Event) (b : Budget) : value (note e) b = ((), b) := rfl

@[simp] theorem value_free (x : Traced α) (b : Budget) : value (free x) b = (x.value, b) := rfl

@[simp] theorem value_get (b : Budget) : value (get : Rewriter Budget) b = (b, b) := rfl

/-! ## Agreement -/

/-- On every budget the computations come to related values and leave the same. -/
def Agree (P : α → α' → Prop) (x : Rewriter α) (y : Rewriter α') : Prop :=
  ∀ b, P (value x b).1 (value y b).1 ∧ (value x b).2 = (value y b).2

variable {P : α → α' → Prop} {S : β → β' → Prop}

theorem agree_pure {a : α} {a' : α'} (h : P a a') : Agree P (pure a) (pure a') := fun _ => ⟨h, rfl⟩

theorem agree_free {x : Traced α} {y : Traced α'} (h : P x.value y.value) :
    Agree P (free x) (free y) := fun _ => ⟨h, rfl⟩

theorem agree_bind {x : Rewriter β} {y : Rewriter β'} {f : β → Rewriter α} {g : β' → Rewriter α'}
    (hxy : Agree S x y) (hfg : ∀ a a', S a a' → Agree P (f a) (g a')) :
    Agree P (x >>= f) (y >>= g) := by
  intro b
  have hparts := hxy b
  rw [value_bind, value_bind, ← hparts.2]
  exact hfg _ _ hparts.1 _

/-- After the same computation. -/
theorem agree_bind_same (x : Rewriter β) {f : β → Rewriter α} {g : β → Rewriter α'}
    (hfg : ∀ a, Agree P (f a) (g a)) : Agree P (x >>= f) (x >>= g) := by
  intro b
  rw [value_bind, value_bind]
  exact hfg _ _

/-- What is noted does not matter. -/
theorem agree_note {e e' : Event} {x : Rewriter α} {y : Rewriter α'} (h : Agree P x y) :
    Agree P (note e >>= fun _ => x) (note e' >>= fun _ => y) := h

/-! ## Spending -/

/-- A budget is only spent. -/
def Spending (x : Rewriter α) : Prop := ∀ b : Budget, b.Before (value x b).2

theorem Spending.before {x : Rewriter α} (hx : Spending x) {b b' : Budget}
    (h : (value x b).2 = b') : b.Before b' := h ▸ hx b

theorem spending_pure (a : α) : Spending (pure a : Rewriter α) := fun b => .refl b

theorem spending_bind {x : Rewriter β} {f : β → Rewriter α} (hx : Spending x)
    (hf : ∀ a, Spending (f a)) : Spending (x >>= f) := fun b => (hx b).trans (hf _ _)

/-- The parts of a computation that costs nothing cost nothing. -/
theorem Spending.free_of_bind {x : Rewriter β} {f : β → Rewriter α} (hx : Spending x)
    (hf : ∀ a, Spending (f a)) {b : Budget} (hb : b.exhausted = false)
    (h : (value (x >>= f) b).2 = b) :
    (value x b).2 = b ∧ (value (f (value x b).1) b).2 = b := by
  rw [value_bind] at h
  have hsecond := hf (value x b).1 (value x b).2
  rw [h] at hsecond
  have hfirst : (value x b).2 = b := (hx b).eq_of_between hsecond hb
  rw [hfirst] at h
  exact ⟨hfirst, h⟩

/-- An exhausted budget stays exhausted. -/
def Lasting (x : Rewriter α) : Prop :=
  ∀ b, b.exhausted = true → (value x b).2.exhausted = true

theorem Spending.lasting {x : Rewriter α} (hx : Spending x) : Lasting x := fun b => (hx b).lasting

/-- A budget that is not exhausted by the whole is not exhausted by its first part. -/
theorem Lasting.not_exhausted {x : Rewriter α} (hx : Lasting x) {b : Budget}
    (h : (value x b).2.exhausted = false) : b.exhausted = false := by
  cases hb : b.exhausted with
  | false => rfl
  | true =>
    rw [hx b hb] at h
    cases h

end Rewriter

end TermRewriting
