import TermRewriting.Proofs.RuleSet
import TermRewriting.Proofs.Session

/-!
# What a session stores

The rules of a session are those that its calls gave: since a symbol was cleared for the last time,
one for each left-hand side, the latest, at the place where that left-hand side came first. Calls
change a session in place, and a call that fails could have changed it before; none has
(`Call.perform_eq`).

The history of a session is the list of its calls, the last one first. What a history gives is read
off the calls alone (`given`, `attributesAfter`, `refusal?`); `RuleSet.Replays` says how the stored
rules follow from it.
-/

namespace TermRewriting

/-! ## Rule sets under changes -/

theorem lookup_filter {κ ν : Type} [BEq κ] [LawfulBEq κ] (keep : κ → Bool) (key : κ)
    (entries : List (κ × ν)) :
    (entries.filter fun e => keep e.1).lookup key
      = if keep key then entries.lookup key else none := by
  induction entries with
  | nil => simp
  | cons e rest ih =>
    obtain ⟨k, v⟩ := e
    by_cases hkey : key = k
    · subst hkey
      by_cases hkeep : keep key = true
      · simp [hkeep]
      · simp [hkeep, ih]
    · have hne : (key == k) = false := beq_false_of_ne hkey
      by_cases hkeep : keep k = true
      · simp [hkeep, List.lookup_cons, hne, ih]
      · simp [hkeep, List.lookup_cons, hne, ih]

namespace Definitions

variable (d : Definitions) (kind : ValueKind) (symbol : String)

theorem rules?_eq :
    d.rules? kind symbol
      = if (d.ruleSet kind symbol).isEmpty then none else some (d.ruleSet kind symbol) := by
  unfold rules? ruleSet
  cases d.entries.lookup (kind, symbol) with
  | none => rfl
  | some rules => cases rules <;> rfl

theorem ruleSet_modify (key : DefinitionKey) (change : RuleSet → RuleSet) :
    (d.modify key.1 key.2 change).ruleSet kind symbol
      = if (kind, symbol) = key then change (d.ruleSet key.1 key.2) else d.ruleSet kind symbol := by
  show ((putEntry key (change (d.ruleSet key.1 key.2)) d.entries).lookup (kind, symbol)).getD [] = _
  rw [lookup_putEntry]
  by_cases hkey : (kind, symbol) = key
  · rw [if_pos hkey, if_pos hkey]
    rfl
  · rw [if_neg hkey, if_neg hkey]
    rfl

theorem ruleSet_clear (cleared : String) :
    (d.clear cleared).ruleSet kind symbol
      = if symbol = cleared then [] else d.ruleSet kind symbol := by
  show ((d.entries.filter fun e => e.1.2 != cleared).lookup (kind, symbol)).getD [] = _
  rw [lookup_filter fun key : DefinitionKey => key.2 != cleared]
  by_cases h : symbol = cleared
  · simp [h]
  · simp [h, ruleSet]

end Definitions

namespace Session

theorem attributes_setAttributes (s : Session) (target : String) (attributes : Attributes)
    (symbol : String) : (s.setAttributes target attributes).table.attributes symbol
      = if symbol = target then attributes else s.table.attributes symbol := by
  show ((putEntry target attributes s.attributes).lookup symbol).getD .empty = _
  rw [lookup_putEntry]
  by_cases h : symbol = target
  · rw [if_pos h, if_pos h, Option.getD_some]
  · rw [if_neg h, if_neg h]
    rfl

/-! ## Calls -/

/-- The calls that change what a session stores about symbols. -/
inductive Call where
  | define (rule : Rule)
  | defineUp (symbol : String) (rule : Rule)
  | clearDefinitions (symbol : String)
  | setAttributes (symbol : String) (attributes : Attributes)
  | addAttributes (symbol : String) (attributes : Attributes)

/-- Programs that change a session in place. One that fails leaves what it has changed so far. -/
abbrev InPlace := ExceptT Failure (StateM Session)

namespace InPlace

def attach (kind : ValueKind) (symbol : String) (rule : Rule) : InPlace Unit := do
  if ((← get).table.attributes symbol).contains .locked then
    throw (.locked symbol)
  modify fun s => { s with definitions := s.definitions.modify kind symbol (RuleSet.put rule) }
  modify nextGeneration

def setAttributes (symbol : String) (attributes : Attributes) : InPlace Unit := do
  modify fun s => { s with attributes := putEntry symbol attributes s.attributes }
  modify nextGeneration

end InPlace

namespace Call

/-- A call, with the session changed in place. -/
def perform : Call → InPlace Unit
  | .define rule =>
    match rule.lhs.definitionKey? with
    | some (kind, symbol) => InPlace.attach kind symbol rule
    | none => throw (.notDefinable rule.lhs)
  | .defineUp symbol rule => InPlace.attach .up symbol rule
  | .clearDefinitions symbol => do
    modify fun s => { s with definitions := s.definitions.clear symbol }
    modify nextGeneration
  | .setAttributes symbol attributes => InPlace.setAttributes symbol attributes
  | .addAttributes symbol attributes => do
    let current := (← get).table.attributes symbol
    InPlace.setAttributes symbol (current.union attributes)

/-- The session that a call makes of another. -/
def result : Call → Session → Except Failure Session
  | .define rule, s => (s.define rule).value
  | .defineUp symbol rule, s => (s.defineUp symbol rule).value
  | .clearDefinitions symbol, s => .ok (s.clearDefinitions symbol)
  | .setAttributes symbol attributes, s => .ok (s.setAttributes symbol attributes)
  | .addAttributes symbol attributes, s => .ok (s.addAttributes symbol attributes)

/-- The rule that a call is to store, and where. -/
def gives? : Call → Option (DefinitionKey × Rule)
  | .define rule => rule.lhs.definitionKey?.map fun key => (key, rule)
  | .defineUp symbol rule => some ((.up, symbol), rule)
  | _ => none

/-- The symbol that a call is about. -/
def symbol? : Call → Option String
  | .define rule => rule.lhs.definitionKey?.map Prod.snd
  | .defineUp symbol _ => some symbol
  | .clearDefinitions symbol => some symbol
  | .setAttributes symbol _ => some symbol
  | .addAttributes symbol _ => some symbol

/-- The failure of a call where symbols have these attributes: definitions are refused for want of a
symbol that could carry them, and by locked symbols. Nothing else is refused. -/
def refusal? (attributes : String → Attributes) (call : Call) : Option Failure :=
  match call with
  | .define rule =>
    match rule.lhs.definitionKey? with
    | none => some (.notDefinable rule.lhs)
    | some (_, symbol) =>
      if (attributes symbol).contains .locked then some (.locked symbol) else none
  | .defineUp symbol _ =>
    if (attributes symbol).contains .locked then some (.locked symbol) else none
  | _ => none

/-- The left-hand side of a rule that is to be stored is coherent. -/
def Coherent : Call → Prop
  | .define rule => rule.lhs.Coherent
  | .defineUp _ rule => rule.lhs.Coherent
  | _ => True

/-- The rules at a key after a call that is not refused, where `add` is how a rule is added. -/
def alter (add : Rule → List Rule → List Rule) (key : DefinitionKey) (call : Call)
    (rules : List Rule) : List Rule :=
  match call with
  | .clearDefinitions symbol => if key.2 = symbol then [] else rules
  | call =>
    match call.gives? with
    | some (target, rule) => if key = target then add rule rules else rules
    | none => rules

/-- The attributes of a symbol after a call. -/
def attributesAfter (symbol : String) (call : Call) (old : Attributes) : Attributes :=
  match call with
  | .setAttributes target attributes => if symbol = target then attributes else old
  | .addAttributes target attributes => if symbol = target then old.union attributes else old
  | _ => old

/-! ### What a call does -/

/-- **A call in place is the call**, and one that fails has changed nothing. -/
theorem perform_eq (call : Call) (s : Session) :
    call.perform.run.run s =
      match call.result s with
      | .ok s' => (.ok (), s')
      | .error failure => (.error failure, s) := by
  have hattach : ∀ kind symbol rule, (InPlace.attach kind symbol rule).run.run s =
      match (s.attach kind symbol rule).value with
      | .ok s' => (.ok (), s')
      | .error failure => (.error failure, s) := by
    intro kind symbol rule
    unfold Session.attach
    show (ExceptT.run (if (s.table.attributes symbol).contains .locked = true then
      throw (.locked symbol) else _ : InPlace Unit)).run s = _
    by_cases hlocked : (s.table.attributes symbol).contains .locked = true
    · rw [if_pos hlocked, if_pos hlocked]
      rfl
    · rw [if_neg hlocked, if_neg hlocked]
      rfl
  cases call with
  | define rule =>
    simp only [perform, result, Session.define]
    cases rule.lhs.definitionKey? with
    | none => rfl
    | some key => exact hattach key.1 key.2 rule
  | defineUp symbol rule => exact hattach .up symbol rule
  | clearDefinitions symbol => rfl
  | setAttributes symbol attributes => rfl
  | addAttributes symbol attributes => rfl

/-- What a call that is not refused changes. -/
structure Changes (call : Call) (s s' : Session) : Prop where
  generation : s'.generation = s.generation + 1
  rules : ∀ kind symbol, s'.definitions.ruleSet kind symbol
    = call.alter RuleSet.put (kind, symbol) (s.definitions.ruleSet kind symbol)
  attributes : ∀ symbol, s'.table.attributes symbol
    = call.attributesAfter symbol (s.table.attributes symbol)

theorem attach_cases (s : Session) (key : DefinitionKey) (rule : Rule) :
    ((s.table.attributes key.2).contains .locked = true
      ∧ (s.attach key.1 key.2 rule).value = .error (.locked key.2))
    ∨ ((s.table.attributes key.2).contains .locked = false
      ∧ ∃ s', (s.attach key.1 key.2 rule).value = .ok s'
        ∧ s'.generation = s.generation + 1
        ∧ (∀ kind symbol, s'.definitions.ruleSet kind symbol
          = if (kind, symbol) = key then RuleSet.put rule (s.definitions.ruleSet kind symbol)
            else s.definitions.ruleSet kind symbol)
        ∧ s'.table = s.table) := by
  unfold attach
  by_cases hlocked : (s.table.attributes key.2).contains .locked = true
  · exact .inl ⟨hlocked, by rw [if_pos hlocked]; rfl⟩
  · refine .inr ⟨Bool.eq_false_iff.mpr hlocked, Session.nextGeneration
      { s with definitions := s.definitions.modify key.1 key.2 (RuleSet.put rule) },
      by rw [if_neg hlocked]; rfl, rfl, ?_, rfl⟩
    intro kind symbol
    show (s.definitions.modify key.1 key.2 (RuleSet.put rule)).ruleSet kind symbol = _
    rw [Definitions.ruleSet_modify]
    by_cases hkey : (kind, symbol) = key
    · rw [if_pos hkey, if_pos hkey, ← hkey]
    · rw [if_neg hkey, if_neg hkey]

/-- Every call that gives a rule is one to store it at its key. -/
theorem of_gives {call : Call} {key : DefinitionKey} {rule : Rule}
    (h : call.gives? = some (key, rule)) :
    (∀ s, call.result s = (s.attach key.1 key.2 rule).value)
      ∧ (∀ attributes, call.refusal? attributes
        = if (attributes key.2).contains .locked then some (.locked key.2) else none)
      ∧ (∀ add target rules, call.alter add target rules
        = if target = key then add rule rules else rules)
      ∧ (∀ symbol old, call.attributesAfter symbol old = old)
      ∧ call.symbol? = some key.2 ∧ (call.Coherent → rule.lhs.Coherent) := by
  cases call with
  | define r =>
    obtain ⟨target, hkey, heq⟩ := Option.map_eq_some_iff.mp h
    obtain ⟨rfl, rfl⟩ := Prod.mk.inj heq
    refine ⟨fun s => ?_, fun _ => ?_, fun _ _ _ => ?_, fun _ _ => rfl, ?_, id⟩
    · simp [result, Session.define, hkey]
    · simp [refusal?, hkey]
    · simp [alter, gives?, hkey]
    · simp [symbol?, hkey]
  | defineUp symbol r =>
    obtain ⟨rfl, rfl⟩ := Prod.mk.inj (Option.some.inj h)
    exact ⟨fun _ => rfl, fun _ => rfl, fun _ _ _ => rfl, fun _ _ => rfl, rfl, id⟩
  | clearDefinitions _ | setAttributes _ _ | addAttributes _ _ => cases h

/-- **A call is refused, or it does what it says.** -/
theorem result_cases (call : Call) (s : Session) :
    (∃ failure, call.refusal? s.table.attributes = some failure
      ∧ call.result s = .error failure)
    ∨ (∃ s', call.refusal? s.table.attributes = none ∧ call.result s = .ok s'
      ∧ call.Changes s s') := by
  cases hgives : call.gives? with
  | some given =>
    obtain ⟨hresult, hrefusal, halter, hattributes, -, -⟩ := of_gives hgives
    rw [hresult, hrefusal]
    rcases attach_cases s given.1 given.2 with ⟨hlocked, hvalue⟩ | ⟨hlocked, s', hvalue, hs'⟩
    · exact .inl ⟨_, if_pos hlocked, hvalue⟩
    · refine .inr ⟨s', if_neg (Bool.eq_false_iff.mp hlocked), hvalue, hs'.1, ?_, ?_⟩
      · intro kind symbol
        rw [hs'.2.1, halter]
      · intro symbol
        rw [hs'.2.2, hattributes]
  | none =>
    cases call with
    | define rule =>
      have hkey : rule.lhs.definitionKey? = none := Option.map_eq_none_iff.mp hgives
      exact .inl ⟨.notDefinable rule.lhs, by simp [refusal?, hkey],
        by simp [result, Session.define, hkey]⟩
    | defineUp symbol rule => cases hgives
    | clearDefinitions cleared =>
      refine .inr ⟨_, rfl, rfl, rfl, fun kind symbol => ?_, fun _ => rfl⟩
      exact s.definitions.ruleSet_clear kind symbol cleared
    | setAttributes target attributes =>
      refine .inr ⟨_, rfl, rfl, rfl, fun _ _ => rfl, fun symbol => ?_⟩
      exact attributes_setAttributes s target attributes symbol
    | addAttributes target attributes =>
      refine .inr ⟨_, rfl, rfl, rfl, fun _ _ => rfl, fun symbol => ?_⟩
      rw [Session.addAttributes, attributes_setAttributes]
      by_cases h : symbol = target
      · simp [attributesAfter, h]
      · simp [attributesAfter, h]

/-- A call drops the rules at a key, adds the rule that it gives, or lets them be. -/
theorem alter_cases (call : Call) (key : DefinitionKey) :
    (call.symbol? = some key.2 ∧ ∀ add rules, call.alter add key rules = [])
      ∨ (∃ rule, call.gives? = some (key, rule)
        ∧ ∀ add rules, call.alter add key rules = add rule rules)
      ∨ ∀ add rules, call.alter add key rules = rules := by
  cases hgives : call.gives? with
  | some given =>
    obtain ⟨-, -, halter, -, -, -⟩ := of_gives hgives
    by_cases hkey : key = given.1
    · exact .inr (.inl ⟨given.2, by rw [hkey], fun add rules => by rw [halter, if_pos hkey]⟩)
    · exact .inr (.inr fun add rules => by rw [halter, if_neg hkey])
  | none =>
    cases call with
    | define rule => exact .inr (.inr fun add rules => by simp only [alter, hgives])
    | defineUp _ _ => cases hgives
    | clearDefinitions cleared =>
      by_cases hsymbol : key.2 = cleared
      · exact .inl ⟨congrArg some hsymbol.symm, fun _ _ => if_pos hsymbol⟩
      · exact .inr (.inr fun _ _ => if_neg hsymbol)
    | setAttributes _ _ | addAttributes _ _ => exact .inr (.inr fun _ _ => rfl)

/-- A call on one symbol leaves the rules of the others. -/
theorem alter_of_other {call : Call} {symbol : String} (h : call.symbol? ≠ some symbol)
    (add : Rule → List Rule → List Rule) (kind : ValueKind) (rules : List Rule) :
    call.alter add (kind, symbol) rules = rules := by
  rcases call.alter_cases (kind, symbol) with ⟨hsymbol, -⟩ | ⟨rule, hgives, -⟩ | hkeep
  · exact absurd hsymbol h
  · obtain ⟨-, -, -, -, hsymbol, -⟩ := of_gives hgives
    exact absurd hsymbol h
  · exact hkeep add rules

/-- A call that is refused is not about attributes. -/
theorem attributesAfter_of_refusal? {call : Call} {attributes : String → Attributes}
    {failure : Failure} (h : call.refusal? attributes = some failure) (symbol : String)
    (old : Attributes) : call.attributesAfter symbol old = old := by
  cases call with
  | define _ | defineUp _ _ | clearDefinitions _ => rfl
  | setAttributes _ _ | addAttributes _ _ => cases h

end Call

/-! ## Histories -/

/-- The session after the calls, the last one first. -/
def after (s : Session) : List Call → Session
  | [] => s
  | call :: earlier => (call.perform.run.run (s.after earlier)).2

/-- The attributes of a symbol after the calls. -/
def attributesAfter (s : Session) : List Call → String → Attributes
  | [], symbol => s.table.attributes symbol
  | call :: earlier, symbol => call.attributesAfter symbol (s.attributesAfter earlier symbol)

/-- The failure of a call after the others. -/
def refusal? (s : Session) (earlier : List Call) (call : Call) : Option Failure :=
  call.refusal? (s.attributesAfter earlier)

/-- The rules that the calls gave for a key since its symbol was cleared, the first one first. -/
def given (s : Session) (key : DefinitionKey) : List Call → List Rule
  | [] => []
  | call :: earlier =>
    if (s.refusal? earlier call).isSome then s.given key earlier
    else call.alter (fun rule rules => rules ++ [rule]) key (s.given key earlier)

/-- The number of calls that were not refused. -/
def changes (s : Session) : List Call → Nat
  | [] => 0
  | call :: earlier => s.changes earlier + if (s.refusal? earlier call).isSome then 0 else 1

theorem coherent_given (s : Session) (key : DefinitionKey) {history : List Call}
    (h : ∀ call ∈ history, call.Coherent) : ∀ rule ∈ s.given key history, rule.lhs.Coherent := by
  induction history with
  | nil => exact fun _ hrule => absurd hrule List.not_mem_nil
  | cons call earlier ih =>
    obtain ⟨hcall, hearlier⟩ := List.forall_mem_cons.mp h
    unfold given
    by_cases hrefused : (s.refusal? earlier call).isSome = true
    · rw [if_pos hrefused]
      exact ih hearlier
    · rw [if_neg hrefused]
      rcases call.alter_cases key with ⟨-, hdrop⟩ | ⟨rule, hgives, hadd⟩ | hkeep
      · rw [hdrop]
        exact fun _ hrule => absurd hrule List.not_mem_nil
      · rw [hadd]
        intro r hr
        rcases List.mem_append.mp hr with hr | hr
        · exact ih hearlier r hr
        · obtain ⟨-, -, -, -, -, hlhs⟩ := Call.of_gives hgives
          exact List.mem_singleton.mp hr ▸ hlhs hcall
      · rw [hkeep]
        exact ih hearlier

/-- Giving a rule and putting it go together. -/
theorem replays_alter {given : List Rule} {rules : RuleSet} (h : RuleSet.Replays given rules)
    (hgiven : ∀ g ∈ given, g.lhs.Coherent) {call : Call} (hcall : call.Coherent)
    (key : DefinitionKey) :
    RuleSet.Replays (call.alter (fun rule rules => rules ++ [rule]) key given)
      (call.alter RuleSet.put key rules) := by
  rcases call.alter_cases key with ⟨-, hdrop⟩ | ⟨rule, hgives, hadd⟩ | hkeep
  · rw [hdrop, hdrop]
    exact .nil
  · rw [hadd, hadd]
    obtain ⟨-, -, -, -, -, hlhs⟩ := Call.of_gives hgives
    exact h.put hgiven (hlhs hcall)
  · rw [hkeep, hkeep]
    exact h

/-- What a session is after a history. -/
structure Replays (s₀ : Session) (history : List Call) (s : Session) : Prop where
  rules : ∀ kind symbol,
    RuleSet.Replays (s₀.given (kind, symbol) history) (s.definitions.ruleSet kind symbol)
  attributes : ∀ symbol, s.table.attributes symbol = s₀.attributesAfter history symbol
  generation : s.generation = s₀.generation + .ofNat (s₀.changes history)

theorem Replays.start {s₀ : Session} (h : s₀.definitions.entries = []) : Replays s₀ [] s₀ where
  rules kind symbol := by
    have hrules : s₀.definitions.ruleSet kind symbol = [] := by
      unfold Definitions.ruleSet
      rw [h]
      rfl
    rw [hrules]
    exact .nil
  attributes _ := rfl
  generation := (UInt64.add_zero _).symm

/-- One call more, refused or not. -/
theorem Replays.call {s₀ s : Session} {history : List Call} (h : Replays s₀ history s)
    (hhistory : ∀ call ∈ history, call.Coherent) {call : Call} (hcall : call.Coherent) :
    Replays s₀ (call :: history) (call.perform.run.run s).2 := by
  have hrefusal : s₀.refusal? history call = call.refusal? s.table.attributes :=
    congrArg call.refusal? (funext h.attributes).symm
  rw [Call.perform_eq]
  rcases call.result_cases s with ⟨failure, hrefused, hresult⟩ | ⟨s', hallowed, hresult, hs'⟩
  · rw [hresult]
    have hrefused' : (s₀.refusal? history call).isSome = true := by rw [hrefusal, hrefused]; rfl
    constructor
    case rules =>
      intro kind symbol
      rw [given, if_pos hrefused']
      exact h.rules kind symbol
    case attributes =>
      intro symbol
      rw [attributesAfter, Call.attributesAfter_of_refusal? hrefused]
      exact h.attributes symbol
    case generation =>
      rw [changes, if_pos hrefused']
      exact h.generation
  · rw [hresult]
    constructor
    case rules =>
      intro kind symbol
      show RuleSet.Replays _ (s'.definitions.ruleSet kind symbol)
      rw [hs'.rules, given, hrefusal, hallowed]
      exact replays_alter (h.rules kind symbol) (coherent_given s₀ _ hhistory) hcall _
    case attributes =>
      intro symbol
      show s'.table.attributes symbol = _
      rw [hs'.attributes, h.attributes, attributesAfter]
    case generation =>
      show s'.generation = _
      rw [hs'.generation, h.generation, changes, hrefusal, hallowed]
      simp [UInt64.ofNat_add, UInt64.add_assoc]

/-- A session replays its history. -/
theorem replays_after {s₀ : Session} (hstart : s₀.definitions.entries = []) {history : List Call}
    (hhistory : ∀ call ∈ history, call.Coherent) : Replays s₀ history (s₀.after history) := by
  induction history with
  | nil => exact .start hstart
  | cons call earlier ih =>
    obtain ⟨hcall, hearlier⟩ := List.forall_mem_cons.mp hhistory
    exact (ih hearlier).call hearlier hcall

/-- **Stored definitions replay the history.** From any session without definitions, for every kind
and symbol the rules that are found are one for each left-hand side, the latest given since the
symbol was cleared, in the order in which the left-hand sides were first given since then. A further
call that fails, for one of the two reasons there are, changes nothing; any other leads to the next
generation; and neither changes the rules of a symbol that it is not about. -/
theorem stored_definitions {s₀ : Session} (hstart : s₀.definitions.entries = [])
    {history : List Call} (hhistory : ∀ call ∈ history, call.Coherent) :
    (∀ kind symbol, ∃ rules, RuleSet.Replays (s₀.given (kind, symbol) history) rules
        ∧ (s₀.after history).definitions.rules? kind symbol
          = if rules.isEmpty then none else some rules)
      ∧ (∀ symbol, (s₀.after history).table.attributes symbol = s₀.attributesAfter history symbol)
      ∧ (s₀.after history).generation = s₀.generation + .ofNat (s₀.changes history)
      ∧ ∀ call : Call,
        (∀ failure, call.result (s₀.after history) = .error failure →
          s₀.after (call :: history) = s₀.after history
            ∧ s₀.refusal? history call = some failure)
        ∧ (∀ s', call.result (s₀.after history) = .ok s' →
          s₀.after (call :: history) = s' ∧ s₀.refusal? history call = none
            ∧ s'.generation = (s₀.after history).generation + 1)
        ∧ ∀ symbol, call.symbol? ≠ some symbol → ∀ kind,
          (s₀.after (call :: history)).definitions.rules? kind symbol
            = (s₀.after history).definitions.rules? kind symbol := by
  have hreplays := replays_after hstart hhistory
  refine ⟨fun kind symbol => ⟨_, hreplays.rules kind symbol, Definitions.rules?_eq _ kind symbol⟩,
    hreplays.attributes, hreplays.generation, fun call => ?_⟩
  have hrefusal : s₀.refusal? history call = call.refusal? (s₀.after history).table.attributes :=
    congrArg call.refusal? (funext hreplays.attributes).symm
  rw [after, hrefusal, Call.perform_eq]
  rcases call.result_cases (s₀.after history) with
    ⟨failure, hrefused, hresult⟩ | ⟨s', hallowed, hresult, hs'⟩
  · rw [hresult, hrefused]
    refine ⟨fun _ h => ⟨rfl, congrArg some (Except.error.inj h)⟩, fun _ h => ?_, fun _ _ _ => rfl⟩
    cases h
  · rw [hresult, hallowed]
    refine ⟨fun _ h => ?_, fun _ h => ?_, fun symbol hother kind => ?_⟩
    · cases h
    · obtain rfl := Except.ok.inj h
      exact ⟨rfl, rfl, hs'.generation⟩
    · rw [Definitions.rules?_eq, Definitions.rules?_eq, hs'.rules, Call.alter_of_other hother]

/-- Two rules and another for the first left-hand side, then a definition for a locked symbol and
one for an integer: the first two keep their places, and four of the six calls count. -/
theorem stored_definitions_refused :
    let f : Int64 → Int64 → Rule := fun i j => ⟨.call "f" [.integer i], .integer j, false⟩
    let s := ({} : Session).after [.define ⟨.integer 1, .integer 2, false⟩, .defineUp "g" (f 1 4),
      .setAttributes "g" .locked, .define (f 1 3), .define (f 2 2), .define (f 1 1)]
    s.definitions.rules? .down "f" = some [f 1 3, f 2 2] ∧ s.definitions.rules? .up "g" = none
      ∧ s.generation = 4 ∧ RuleSet.Replays [f 1 1, f 2 2, f 1 3] [f 1 3, f 2 2] := by
  intro f s
  have hf : ∀ i j, (f i j).lhs.Coherent := fun i j => Term.coherent_of_unmarked_eq rfl
  have hcoherent : ∀ call ∈ [Call.define ⟨.integer 1, .integer 2, false⟩, .defineUp "g" (f 1 4),
      .setAttributes "g" .locked, .define (f 1 3), .define (f 2 2), .define (f 1 1)],
      call.Coherent := by
    simp only [List.forall_mem_cons, Call.Coherent, hf]
    exact ⟨.atom _, trivial, trivial, trivial, trivial, trivial, by simp⟩
  obtain ⟨hrules, -, hgeneration, -⟩ := @stored_definitions {} rfl _ hcoherent
  obtain ⟨rules, hreplays, hfound⟩ := hrules .down "f"
  have hstored : s.definitions.rules? .down "f" = some [f 1 3, f 2 2] := by
    simp only [s, f]
    rfl
  have hnone : s.definitions.rules? .up "g" = none := by
    simp only [s, f]
    rfl
  have hkept : rules = [f 1 3, f 2 2] := by
    have hsame := hfound.symm.trans hstored
    cases rules with
    | nil => cases hsame
    | cons r rest => exact Option.some.inj hsame
  have hcounted : s.generation = 4 := by
    refine hgeneration.trans ?_
    simp only [f]
    rfl
  have hgiven : RuleSet.Replays [f 1 1, f 2 2, f 1 3] rules := by
    simp only [f] at hreplays
    exact hreplays
  exact ⟨hstored, hnone, hcounted, hkept ▸ hgiven⟩

end Session

end TermRewriting
