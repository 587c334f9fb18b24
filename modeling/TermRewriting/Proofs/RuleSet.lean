import TermRewriting.Proofs.Term.Alike
import TermRewriting.Rule

/-!
# Rules given and rules kept

A rule set is filled by putting rules into it one after another. `Replays` says what is kept of the
rules given: one for each left-hand side, the latest, at the place where that left-hand side came
first. The rules given determine the rules kept (`Replays.unique`), and one more rule given is one
more rule put (`Replays.put`).
-/

namespace TermRewriting

/-- Coherent terms are compared by their structure. -/
theorem Term.identical_congr {s s' t t' : Term} (h : Alike Truthful s s')
    (h' : Alike Truthful t t') : s.identical t = s'.identical t' :=
  identical_eq robust_truthful robust_truthful h h'

namespace RuleSet

/-! ## Rules given and rules kept -/

/-- The place at which a left-hand side was given first. -/
def firstGiven (given : List Rule) (lhs : Term) : Nat :=
  given.findIdx fun r => r.lhs.identical lhs

/-- The rules are what is kept of the rules given: one for each left-hand side, the latest, in the
order in which the left-hand sides came first. -/
structure Replays (given : List Rule) (rules : RuleSet) : Prop where
  distinct : rules.Pairwise fun r r' => r.lhs.identical r'.lhs = false
  complete : ∀ r ∈ given, ∃ kept ∈ rules, kept.lhs.identical r.lhs = true
  latest : ∀ r ∈ rules, ∃ before after, given = before ++ r :: after
    ∧ ∀ later ∈ after, r.lhs.identical later.lhs = false
  ordered : rules.Pairwise fun r r' => firstGiven given r.lhs < firstGiven given r'.lhs

theorem Replays.nil : Replays [] [] :=
  ⟨.nil, fun _ h => absurd h List.not_mem_nil, fun _ h => absurd h List.not_mem_nil, .nil⟩

theorem Replays.mem_given {given : List Rule} {rules : RuleSet} (h : Replays given rules) {r : Rule}
    (hr : r ∈ rules) : r ∈ given := by
  obtain ⟨before, after, rfl, _⟩ := h.latest r hr
  exact List.mem_append_right before List.mem_cons_self

/-! ## Places -/

variable {given : List Rule} {r : Rule}

theorem firstGiven_lt {lhs : Term} (h : ∃ g ∈ given, g.lhs.identical lhs = true) :
    firstGiven given lhs < given.length := List.findIdx_lt_length.mpr h

theorem firstGiven_append {lhs : Term} (h : ∃ g ∈ given, g.lhs.identical lhs = true)
    (more : List Rule) : firstGiven (given ++ more) lhs = firstGiven given lhs := by
  have hlt : given.findIdx (fun g => g.lhs.identical lhs) < given.length := firstGiven_lt h
  unfold firstGiven
  rw [List.findIdx_append, if_pos hlt]

theorem firstGiven_append_of_new (h : ∀ g ∈ given, g.lhs.identical r.lhs = false) :
    firstGiven (given ++ [r]) r.lhs = given.length := by
  have hnone : given.findIdx (fun g => g.lhs.identical r.lhs) = given.length :=
    List.findIdx_eq_length.mpr h
  unfold firstGiven
  rw [List.findIdx_append, hnone, if_neg (Nat.lt_irrefl _)]
  simp [List.findIdx_cons, Term.identical_rfl]

theorem firstGiven_congr (hgiven : ∀ g ∈ given, g.lhs.Coherent) {lhs lhs' : Term}
    (h : Term.Alike Term.Truthful lhs lhs') : firstGiven given lhs = firstGiven given lhs' := by
  unfold firstGiven
  induction given with
  | nil => rfl
  | cons g rest ih =>
    obtain ⟨hg, hrest⟩ := List.forall_mem_cons.mp hgiven
    have hfirst : g.lhs.identical lhs = g.lhs.identical lhs' :=
      Term.identical_congr (Term.alike_refl hg) h
    rw [List.findIdx_cons, List.findIdx_cons, hfirst, ih hrest]

/-! ## One more rule -/

theorem put_of_new {rules : RuleSet} (h : ∀ old ∈ rules, old.lhs.identical r.lhs = false) :
    put r rules = rules ++ [r] := by
  induction rules with
  | nil => rfl
  | cons old rest ih =>
    obtain ⟨hold, hrest⟩ := List.forall_mem_cons.mp h
    rw [put, hold, ih hrest]
    rfl

theorem put_of_old {before after : List Rule} {old : Rule}
    (hbefore : ∀ x ∈ before, x.lhs.identical r.lhs = false)
    (hold : old.lhs.identical r.lhs = true) :
    put r (before ++ old :: after) = before ++ r :: after := by
  induction before with
  | nil => rw [List.nil_append, put, if_pos hold, List.nil_append]
  | cons x rest ih =>
    obtain ⟨hx, hrest⟩ := List.forall_mem_cons.mp hbefore
    rw [List.cons_append, put, hx, ih hrest]
    rfl

/-- The rule that is given last is the latest of its left-hand side. -/
theorem latest_last (given : List Rule) (r : Rule) :
    ∃ earlier later, given ++ [r] = earlier ++ r :: later
      ∧ ∀ y ∈ later, r.lhs.identical y.lhs = false :=
  ⟨given, [], rfl, fun _ h => absurd h List.not_mem_nil⟩

/-- The latest rule of its left-hand side stays so when one for another is given. -/
theorem latest_append {x : Rule} (hx : ∃ earlier later, given = earlier ++ x :: later
      ∧ ∀ y ∈ later, x.lhs.identical y.lhs = false) (hr : x.lhs.identical r.lhs = false) :
    ∃ earlier later, given ++ [r] = earlier ++ x :: later
      ∧ ∀ y ∈ later, x.lhs.identical y.lhs = false := by
  obtain ⟨earlier, later, rfl, hlater⟩ := hx
  refine ⟨earlier, later ++ [r], by simp, fun y hy => ?_⟩
  rcases List.mem_append.mp hy with hy | hy
  · exact hlater y hy
  · rw [List.mem_singleton.mp hy]
    exact hr

/-- A rule with a new left-hand side goes to the end. -/
theorem Replays.append_of_new {rules : RuleSet} (h : Replays given rules)
    (hnew : ∀ old ∈ rules, old.lhs.identical r.lhs = false)
    (hgiven : ∀ g ∈ given, g.lhs.identical r.lhs = false) :
    Replays (given ++ [r]) (rules ++ [r]) := by
  constructor
  case distinct =>
    exact List.pairwise_append.mpr ⟨h.distinct, List.pairwise_singleton _ _,
      fun old hold _ hr => List.mem_singleton.mp hr ▸ hnew old hold⟩
  case complete =>
    intro g hg
    rcases List.mem_append.mp hg with hg | hg
    · obtain ⟨kept, hkept, hsame⟩ := h.complete g hg
      exact ⟨kept, List.mem_append_left _ hkept, hsame⟩
    · obtain rfl := List.mem_singleton.mp hg
      exact ⟨g, List.mem_append_right _ hg, Term.identical_rfl _⟩
  case latest =>
    intro x hx
    rcases List.mem_append.mp hx with hx | hx
    · exact latest_append (h.latest x hx) (hnew x hx)
    · obtain rfl := List.mem_singleton.mp hx
      exact latest_last given x
  case ordered =>
    have hold : ∀ x ∈ rules, firstGiven (given ++ [r]) x.lhs = firstGiven given x.lhs :=
      fun x hx => firstGiven_append ⟨x, h.mem_given hx, Term.identical_rfl _⟩ [r]
    refine List.pairwise_append.mpr ⟨?_, List.pairwise_singleton _ _, fun x hx y hy => ?_⟩
    · exact h.ordered.imp_of_mem fun hx hy hlt => by rwa [hold _ hx, hold _ hy]
    · obtain rfl := List.mem_singleton.mp hy
      rw [hold x hx, firstGiven_append_of_new hgiven]
      exact firstGiven_lt ⟨x, h.mem_given hx, Term.identical_rfl _⟩

theorem pairwise_exchange {α : Type} {R S : α → α → Prop} {before after : List α} {old new : α}
    (h : (before ++ old :: after).Pairwise R)
    (hkept : ∀ x ∈ before ++ old :: after, ∀ y ∈ before ++ old :: after, R x y → S x y)
    (hleft : ∀ x ∈ before, R x old → S x new) (hright : ∀ y ∈ after, R old y → S new y) :
    (before ++ new :: after).Pairwise S := by
  obtain ⟨hbefore, hrest, hcross⟩ := List.pairwise_append.mp h
  obtain ⟨hold, hafter⟩ := List.pairwise_cons.mp hrest
  have hin : ∀ x ∈ before, x ∈ before ++ old :: after := fun x hx => List.mem_append_left _ hx
  have hin' : ∀ y ∈ after, y ∈ before ++ old :: after :=
    fun y hy => List.mem_append_right _ (List.mem_cons_of_mem _ hy)
  refine List.pairwise_append.mpr ⟨?_, List.pairwise_cons.mpr ⟨?_, ?_⟩, ?_⟩
  · exact hbefore.imp_of_mem fun hx hy => hkept _ (hin _ hx) _ (hin _ hy)
  · exact fun y hy => hright y hy (hold y hy)
  · exact hafter.imp_of_mem fun hx hy => hkept _ (hin' _ hx) _ (hin' _ hy)
  · intro x hx y hy
    rcases List.mem_cons.mp hy with rfl | hy
    · exact hleft x hx (hcross x hx old List.mem_cons_self)
    · exact hkept x (hin x hx) y (hin' y hy) (hcross x hx y (List.mem_cons_of_mem _ hy))

/-- A rule whose left-hand side was given before takes the place of the one kept for it. -/
theorem Replays.exchange {before after : List Rule} {old : Rule}
    (h : Replays given (before ++ old :: after)) (hgiven : ∀ g ∈ given, g.lhs.Coherent)
    (hsame : Term.Alike Term.Truthful old.lhs r.lhs) :
    Replays (given ++ [r]) (before ++ r :: after) := by
  have hgives : ∀ x ∈ before ++ old :: after, x ∈ given := fun x hx => h.mem_given hx
  -- the new rule is compared as the old one was
  have hleft : ∀ x ∈ given, x.lhs.identical r.lhs = x.lhs.identical old.lhs := fun x hx =>
    Term.identical_congr (Term.alike_refl (hgiven x hx)) hsame.symm
  have hright : ∀ x ∈ given, r.lhs.identical x.lhs = old.lhs.identical x.lhs := fun x hx =>
    Term.identical_congr hsame.symm (Term.alike_refl (hgiven x hx))
  obtain ⟨-, hrest, hcross⟩ := List.pairwise_append.mp h.distinct
  obtain ⟨hold, -⟩ := List.pairwise_cons.mp hrest
  have hbefore : ∀ x ∈ before, x ∈ given := fun x hx => hgives x (List.mem_append_left _ hx)
  have hafter : ∀ x ∈ after, x ∈ given :=
    fun x hx => hgives x (List.mem_append_right _ (List.mem_cons_of_mem _ hx))
  have hnew : r ∈ before ++ r :: after := List.mem_append_right _ List.mem_cons_self
  constructor
  case distinct =>
    exact pairwise_exchange h.distinct (fun _ _ _ _ hxy => hxy)
      (fun x hx hxold => (hleft x (hbefore x hx)).trans hxold)
      (fun y hy holdy => (hright y (hafter y hy)).trans holdy)
  case complete =>
    intro g hg
    rcases List.mem_append.mp hg with hg | hg
    · obtain ⟨kept, hkept, hkeeps⟩ := h.complete g hg
      rcases List.mem_append.mp hkept with hkept | hkept
      · exact ⟨kept, List.mem_append_left _ hkept, hkeeps⟩
      · rcases List.mem_cons.mp hkept with rfl | hkept
        · exact ⟨r, hnew, (hright g hg).trans hkeeps⟩
        · exact ⟨kept, List.mem_append_right _ (List.mem_cons_of_mem _ hkept), hkeeps⟩
    · obtain rfl := List.mem_singleton.mp hg
      exact ⟨g, hnew, Term.identical_rfl _⟩
  case latest =>
    intro x hx
    rcases List.mem_append.mp hx with hx | hx
    · refine latest_append (h.latest x (List.mem_append_left _ hx)) ?_
      rw [hleft x (hbefore x hx)]
      exact hcross x hx old List.mem_cons_self
    · rcases List.mem_cons.mp hx with rfl | hx
      · exact latest_last given x
      · refine latest_append (h.latest x (List.mem_append_right _ (List.mem_cons_of_mem _ hx))) ?_
        rw [hleft x (hafter x hx), Term.identical_comm (hgiven x (hafter x hx)) hsame.left]
        exact hold x hx
  case ordered =>
    have hfirst : ∀ x ∈ given, firstGiven (given ++ [r]) x.lhs = firstGiven given x.lhs :=
      fun x hx => firstGiven_append ⟨x, hx, Term.identical_rfl _⟩ [r]
    have hplace : firstGiven (given ++ [r]) r.lhs = firstGiven given old.lhs := by
      have hin := hgives old (List.mem_append_right _ List.mem_cons_self)
      rw [firstGiven_append ⟨old, hin, (Term.identical_iff hsame.left hsame.right).mpr hsame.same⟩,
        firstGiven_congr hgiven hsame]
    refine pairwise_exchange h.ordered (fun x hx y hy hlt => ?_) (fun x hx hlt => ?_)
      (fun y hy hlt => ?_)
    · rwa [hfirst x (hgives x hx), hfirst y (hgives y hy)]
    · rwa [hfirst x (hbefore x hx), hplace]
    · rwa [hfirst y (hafter y hy), hplace]

/-- **Putting a rule is giving it.** -/
theorem Replays.put {rules : RuleSet} (h : Replays given rules)
    (hgiven : ∀ g ∈ given, g.lhs.Coherent) (hr : r.lhs.Coherent) :
    Replays (given ++ [r]) (RuleSet.put r rules) := by
  have hcoherent : ∀ x ∈ rules, x.lhs.Coherent := fun x hx => hgiven x (h.mem_given hx)
  by_cases hknown : ∃ old ∈ rules, old.lhs.identical r.lhs = true
  · obtain ⟨old, hold, hidentical⟩ := hknown
    have hsame : Term.Alike Term.Truthful old.lhs r.lhs :=
      ⟨(Term.identical_iff (hcoherent old hold) hr).mp hidentical, hcoherent old hold, hr⟩
    obtain ⟨before, after, rfl⟩ := List.append_of_mem hold
    have hbefore : ∀ x ∈ before, x.lhs.identical r.lhs = false := by
      intro x hx
      have hx' := hcoherent x (List.mem_append_left _ hx)
      rw [Term.identical_congr (Term.alike_refl hx') hsame.symm]
      exact (List.pairwise_append.mp h.distinct).2.2 x hx old List.mem_cons_self
    rw [put_of_old hbefore hidentical]
    exact h.exchange hgiven hsame
  · simp only [not_exists, not_and, Bool.not_eq_true] at hknown
    rw [put_of_new hknown]
    refine h.append_of_new hknown fun g hg => ?_
    -- what was given is kept in some rule, and no rule that is kept has the new left-hand side
    obtain ⟨kept, hkept, hsame⟩ := h.complete g hg
    have hcongr : kept.lhs.identical r.lhs = g.lhs.identical r.lhs :=
      Term.identical_congr
        ⟨(Term.identical_iff (hcoherent kept hkept) (hgiven g hg)).mp hsame, hcoherent kept hkept,
          hgiven g hg⟩ (Term.alike_refl hr)
    exact hcongr.symm.trans (hknown kept hkept)

/-- The latest rule for a left-hand side is one rule. -/
theorem Replays.mem_of_mem {rules rules' : RuleSet} (h : Replays given rules)
    (h' : Replays given rules') (hgiven : ∀ g ∈ given, g.lhs.Coherent) (hr : r ∈ rules) :
    r ∈ rules' := by
  obtain ⟨kept, hkept, hsame⟩ := h'.complete r (h.mem_given hr)
  have hsame' : r.lhs.identical kept.lhs = true := by
    rwa [Term.identical_comm (hgiven r (h.mem_given hr)) (hgiven kept (h'.mem_given hkept))]
  obtain ⟨before, after, hsplit, hafter⟩ := h.latest r hr
  obtain ⟨before', after', hsplit', hafter'⟩ := h'.latest kept hkept
  rcases List.append_eq_append_iff.mp (hsplit.symm.trans hsplit') with
    ⟨between, hbetween, htail⟩ | ⟨between, hbetween, htail⟩
  · cases between with
    | nil => exact (List.cons.inj htail).1 ▸ hkept
    | cons x rest =>
      -- the rule kept in the second set would come after `r`
      have hlater : kept ∈ after :=
        (List.cons.inj htail).2 ▸ List.mem_append_right _ List.mem_cons_self
      exact absurd hsame' (Bool.eq_false_iff.mp (hafter kept hlater))
  · cases between with
    | nil => exact (List.cons.inj htail).1 ▸ hkept
    | cons x rest =>
      have hlater : r ∈ after' :=
        (List.cons.inj htail).2 ▸ List.mem_append_right _ List.mem_cons_self
      exact absurd hsame (Bool.eq_false_iff.mp (hafter' r hlater))

/-- **The rules given determine the rules kept.** -/
theorem Replays.unique {rules rules' : RuleSet} (h : Replays given rules)
    (h' : Replays given rules') (hgiven : ∀ g ∈ given, g.lhs.Coherent) : rules = rules' := by
  have hnodup : ∀ {rules : RuleSet}, Replays given rules → rules.Nodup := fun h =>
    h.ordered.imp fun hlt heq => absurd (heq ▸ hlt) (Nat.lt_irrefl _)
  have hperm : rules.Perm rules' := (List.perm_ext_iff_of_nodup (hnodup h) (hnodup h')).mpr
    fun r => ⟨h.mem_of_mem h' hgiven, h'.mem_of_mem h hgiven⟩
  exact hperm.eq_of_pairwise (fun _ _ _ _ hlt hlt' => absurd hlt (Nat.lt_asymm hlt'))
    h.ordered h'.ordered

end RuleSet

end TermRewriting
