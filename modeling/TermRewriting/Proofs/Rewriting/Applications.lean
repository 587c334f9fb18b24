import TermRewriting.Proofs.Rewriting.Budget
import TermRewriting.Proofs.Term.Coherence

/-!
# What is paid is what is recorded

Every application of a definition is paid from the budget and recorded in the trace, and nothing
else is. So the payments of a computation are the applications in its trace (`Rewriter.Recorded`),
however it is composed.
-/

namespace TermRewriting

/-! ## Applications in a trace -/

/-- A definition was applied. -/
def Event.isApplication : Event → Bool
  | .rewrote _ _ _ => true
  | _ => false

/-- The number of applications of definitions in a trace. -/
def applications (events : List Event) : Nat := events.countP Event.isApplication

@[simp] theorem applications_nil : applications [] = 0 := rfl

@[simp] theorem applications_append (first second : List Event) :
    applications (first ++ second) = applications first + applications second :=
  List.countP_append

namespace Rewriter

variable {α β : Type}

/-- On every budget the computation pays for the applications that it records. -/
def Recorded (x : Rewriter α) : Prop :=
  ∀ b, (value x b).2.used = b.used + applications (x b).events

theorem recorded_pure (a : α) : Recorded (pure a : Rewriter α) := fun _ => rfl

theorem recorded_get : Recorded (get : Rewriter Budget) := fun _ => rfl

theorem recorded_free {x : Traced α} (h : applications x.events = 0) : Recorded (free x) := by
  intro b
  have hevents : (free x b).events = x.events := by simp [free]
  rw [hevents, h]
  rfl

theorem recorded_note {e : Event} (h : e.isApplication = false) : Recorded (note e) := by
  intro b
  have hevents : applications (note e b).events = 0 := by simp [note, applications, h]
  rw [hevents]
  rfl

theorem recorded_bind {x : Rewriter β} {f : β → Rewriter α} (hx : Recorded x)
    (hf : ∀ a, Recorded (f a)) : Recorded (x >>= f) := by
  intro b
  have hevents : ((x >>= f) b).events
      = (x b).events ++ (f (value x b).1 (value x b).2).events := Traced.followed_eq _ _
  rw [value_bind, hf, hx, hevents, applications_append, Nat.add_assoc]

/-- A payment together with the application that it is for. -/
theorem recorded_charge {e : Event} (h : e.isApplication = true) (a : α) :
    Recorded (do if ← charge then note e; pure (some a) else pure none) := by
  intro b
  -- paying records nothing, so what is recorded is what follows
  have hevents : ((do if ← charge then note e; pure (some a) else pure none : Rewriter _) b).events
      = ((if b.charged.2 then (do note e; pure (some a)) else pure none : Rewriter _)
        b.charged.1).events := Traced.followed_eq [] _
  rw [hevents, value_bind, value_charge]
  unfold Budget.charged
  split
  · rfl
  · have happlied : applications [e] = 1 := by simp [applications, h]
    exact congrArg (b.used + ·) happlied.symm

end Rewriter

namespace Program

open Rewriter

variable {p : Program}

theorem recorded_applyCandidates (key : DefinitionKey) (rules : RuleSet) (t : Term)
    (numbers : List Nat) : Recorded (p.applyCandidates key rules t numbers) := by
  induction numbers with
  | nil => exact recorded_pure none
  | cons i numbers ih =>
    rw [applyCandidates]
    cases rules[i]? with
    | none => exact ih
    | some rule =>
      refine recorded_bind (recorded_free rfl) fun found => ?_
      cases found with
      | none => exact ih
      | some c => exact recorded_charge rfl _

theorem recorded_applyFirst (t : Term)
    (definitions : List (DefinitionKey × (RuleSet × RuleIndex))) :
    Recorded (p.applyFirst t definitions) := by
  induction definitions with
  | nil => exact recorded_pure none
  | cons e rest ih =>
    obtain ⟨key, rules, index⟩ := e
    rw [applyFirst]
    refine recorded_bind (recorded_applyCandidates key rules t _) fun result => ?_
    cases result with
    | none => exact ih
    | some result => exact recorded_pure _

theorem recorded_applyTop (t : Term) : Recorded (p.applyTop t) := by
  unfold applyTop
  split
  · exact recorded_pure _
  · exact recorded_bind (recorded_applyFirst _ _) fun _ => recorded_pure _

theorem recorded_finishNode (head : Term) (args : List Term) (marks : Marks) (changed : Bool) :
    Recorded (p.finishNode head args marks changed) := by
  rw [finishNode]
  refine recorded_bind (recorded_applyTop _) fun result => ?_
  obtain ⟨result, node⟩ := result
  cases result with
  | none => exact recorded_pure _
  | some result => exact recorded_pure _

theorem recorded_passAll_of {args : List Term} (h : ∀ a ∈ args, Recorded (p.pass a)) :
    Recorded (p.passAll args) := by
  induction args with
  | nil => exact recorded_pure none
  | cons a as ih =>
    obtain ⟨ha, has⟩ := List.forall_mem_cons.mp h
    rw [passAll]
    exact recorded_bind ha fun _ => recorded_bind (ih has) fun _ => recorded_pure _

theorem recorded_pass (t : Term) : Recorded (p.pass t) := by
  induction t using Term.induct with
  | atom a =>
    rw [pass]
    exact recorded_bind (recorded_applyTop _) fun _ => recorded_pure _
  | app head args marks ihhead ihargs =>
    rw [pass]
    split
    · exact recorded_pure none
    · refine recorded_bind ihhead fun newHead => ?_
      refine recorded_bind (recorded_passAll_of ihargs) fun newArgs => ?_
      split
      · exact recorded_finishNode _ _ _ _
      · exact recorded_finishNode _ _ _ _

/-! ## Runs -/

theorem recorded_passThen (limit : Nat) {free paid : Term → Rewriter Outcome}
    (hfree : ∀ t, Recorded (free t)) (hpaid : ∀ t, Recorded (paid t)) (t : Term) :
    Recorded (p.passThen limit free paid t) := by
  unfold passThen
  refine recorded_bind recorded_get fun before => ?_
  refine recorded_bind (recorded_pass _) fun new => ?_
  refine recorded_bind recorded_get fun after => ?_
  cases new with
  | none => exact recorded_pure _
  | some new =>
    dsimp only
    split
    · exact recorded_bind (recorded_note rfl) fun _ => recorded_pure _
    · split
      · exact hfree new
      · exact hpaid new

theorem recorded_freePasses (limit : Nat) {paid : Term → Rewriter Outcome}
    (hpaid : ∀ t, Recorded (paid t)) (count : Nat) (t : Term) :
    Recorded (p.freePasses limit paid count t) := by
  induction count generalizing t with
  | zero => exact recorded_pure _
  | succ count ih => exact recorded_passThen limit ih hpaid t

theorem recorded_settle (limit rounds : Nat) (t : Term) : Recorded (p.settle limit rounds t) := by
  induction rounds generalizing t with
  | zero => exact recorded_freePasses limit (fun _ => recorded_pure _) _ t
  | succ rounds ih =>
    exact recorded_passThen limit (fun new => recorded_freePasses limit ih _ new) ih t

end Program

/-- **The applications in the trace of a run are those that were paid.** -/
theorem Session.applications_rewrite (s : Session) (limit : Nat) (t : Term) :
    applications (s.rewrite limit t).events
      = (Rewriter.value (s.program.settle limit limit t) ⟨some limit, 0, false⟩).2.used := by
  have hfinish : ∀ run, applications (s.program.finishRun run).events = 0 := by
    rintro ⟨_ | v, budget⟩
    · rfl
    · rfl
  have hevents : (s.rewrite limit t).events
      = (s.program.settle limit limit t ⟨some limit, 0, false⟩).events
        ++ (s.program.finishRun
          (Rewriter.value (s.program.settle limit limit t) ⟨some limit, 0, false⟩)).events :=
    Traced.followed_eq _ _
  rw [hevents, applications_append, hfinish, Program.recorded_settle]
  simp

end TermRewriting
