import TermRewriting.Proofs.Pattern.Growth

/-!
# Variables of a pattern

Whether a name is a variable can be seen from the term that describes the pattern: somewhere in it
the name is the first argument of a head that names what it matches (`Term.HasVariable`). Heads with
other arguments than they ask for are compound patterns, or patterns that match nothing, and bind no
name of their own. So reading the pattern finds no other names
(`Term.hasVariable_of_mem_patternNames`).
-/

namespace TermRewriting

/-- Whether a pattern head names what it matches. -/
def PatternHead.isNaming : PatternHead → Bool
  | .namedBlank => true
  | .named => true
  | .namedRun _ => true
  | _ => false

namespace Term

/-- The name stands as a variable in the term. -/
inductive HasVariable (name : String) : Term → Prop where
  | here {symbol : String} {special : PatternHead} (rest : List Term) (marks : Marks) :
      PatternHead.ofName? symbol = some special → special.isNaming = true →
      HasVariable name (.app (.symbol symbol) (.symbol name :: rest) marks)
  | head {head : Term} (args : List Term) (marks : Marks) :
      HasVariable name head → HasVariable name (.app head args marks)
  | arg (head : Term) {args : List Term} (marks : Marks) {a : Term} :
      a ∈ args → HasVariable name a → HasVariable name (.app head args marks)

variable {name : String}

/-! ## Runs -/

/-- A run is bound to a variable of the term that describes it. -/
theorem hasVariable_of_run {a : Term} {spec : RunSpec} (h : RunSpec.ofTerm? a = some spec)
    (hname : name ∈ spec.names) : a.HasVariable name := by
  unfold RunSpec.ofTerm? at h
  split at h
  · next symbol args marks =>
    split at h
    · cases h
      cases hname
    · next hsymbol =>
      obtain ⟨first, rest, rfl, rfl⟩ := Pattern.exists_of_ofNamedArgs? h
      obtain rfl := List.mem_singleton.mp hname
      exact .here rest marks hsymbol rfl
    · next x inner hsymbol =>
      obtain ⟨plain, _, rfl⟩ := Option.map_eq_some_iff.mp h
      obtain rfl := List.mem_singleton.mp hname
      exact .here [inner] marks hsymbol rfl
    · cases h
  · cases h

/-! ## Patterns -/

/-- An argument binds its name as a run, or it is a pattern. -/
theorem hasVariable_of_mem_argNames {a : Term}
    (ih : name ∈ a.patternNames → a.HasVariable name) (h : name ∈ a.argNames) :
    a.HasVariable name := by
  unfold argNames Slot.ofTerm at h
  split at h
  · next spec hspec => exact hasVariable_of_run hspec h
  · split at h
    · exact ih h
    · exact ih h

/-- The names of the pattern that a pattern head stands for. -/
theorem hasVariable_of_readFrom {symbol : String} {special : PatternHead}
    (hsymbol : PatternHead.ofName? symbol = some special) {args : List Term} {marks : Marks}
    (ih : ∀ a ∈ args, name ∈ a.patternNames → a.HasVariable name) {p : Pattern}
    (h : Pattern.ReadFrom special args p) (hname : name ∈ p.names) :
    HasVariable name (.app (.symbol symbol) args marks) := by
  have hinside : ∀ a ∈ args, name ∈ a.patternNames →
      HasVariable name (.app (.symbol symbol) args marks) :=
    fun a ha hmem => .arg _ marks ha (ih a ha hmem)
  cases h with
  | never => cases hname
  | blank => cases hname
  | namedBlank first rest =>
    obtain rfl := List.mem_singleton.mp hname
    exact .here rest marks hsymbol rfl
  | run => cases hname
  | namedRun least first rest =>
    obtain rfl := List.mem_singleton.mp hname
    exact .here rest marks hsymbol rfl
  | named first inner =>
    rcases List.mem_cons.mp hname with rfl | hinner
    · exact .here [inner] marks hsymbol rfl
    · exact hinside inner (by simp) hinner
  | condition inner proviso => exact hinside inner List.mem_cons_self hname
  | test inner predicate => exact hinside inner List.mem_cons_self hname
  | alternatives =>
    rw [Pattern.names, namesAll_ofTerms] at hname
    obtain ⟨a, ha, hmem⟩ := List.mem_flatMap.mp hname
    exact hinside a ha hmem
  | optional inner => exact hinside inner List.mem_cons_self hname
  | hold inner => exact hinside inner List.mem_cons_self hname

/-- **The names that a match may bind are variables of the pattern.** -/
theorem hasVariable_of_mem_patternNames {p : Term} (h : name ∈ p.patternNames) :
    p.HasVariable name := by
  induction p using induct with
  | atom a => cases h
  | app head args marks ihhead ihargs =>
    unfold patternNames at h
    rw [Pattern.ofTerm, Pattern.ofParts] at h
    cases hspecial : (head.symbolName?.bind PatternHead.ofName?).bind
      (Pattern.ofPatternHead? args (Pattern.ofTerms args)) with
    | some pattern =>
      rw [hspecial] at h
      obtain ⟨special, hhead, hread⟩ := Option.bind_eq_some_iff.mp hspecial
      obtain ⟨symbol, hsymbol, hspecialHead⟩ := Option.bind_eq_some_iff.mp hhead
      obtain rfl := symbolName?_eq_some.mp hsymbol
      exact hasVariable_of_readFrom hspecialHead ihargs (Pattern.readFrom_of_ofPatternHead? hread) h
    | none =>
      rw [hspecial, Option.getD_none, Pattern.names, namesAll_slots] at h
      rcases List.mem_append.mp h with hhead | hargs
      · exact .head args marks (ihhead hhead)
      · obtain ⟨a, ha, hname⟩ := List.mem_flatMap.mp hargs
        exact .arg head marks ha (hasVariable_of_mem_argNames (ihargs a ha) hname)

end Term

end TermRewriting
