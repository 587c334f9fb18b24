import TermRewriting.Proofs.Canonical.Throughout
import TermRewriting.Proofs.Replacement.Splicing
import TermRewriting.Proofs.Rewriting.NormalForms
import TermRewriting.Proofs.Rewriting.Price

/-!
# Traversals that build every node anew

The traversals answer `none` where nothing changed, keep the parts that did not change, and begin a
new argument list only at the first argument that did (`gather`). The plain ones below build every
node from the results for all of its parts, and count what they changed. Both make identical terms,
and the answer is `none` exactly if nothing was counted (`Answers`).

In an argument list a replaced argument is dissolved if it is an application of `Sequence`. An
argument in which nothing was replaced is not looked at: it stays, be it such an application or not
(`Term.replacedAnew` takes what becomes of it as a parameter).
-/

namespace TermRewriting

open Rewriter

/-! ## The loop over an argument list -/

section

variable {m : Type → Type} [Monad m] (visit : Term → m (Option Term)) (dissolve : Term → List Term)

/-- Visits the arguments one after another, `before` being those that were passed. The new list is
begun at the first argument that changes, with all before it, and from then on every argument is put
at its end: what it became, or itself. -/
def gather (before : List Term) (begun : Option (List Term)) :
    List Term → m (Option (List Term))
  | [] => pure begun
  | a :: as => do
    match ← visit a with
    | some new => gather (before ++ [a]) (some (begun.getD before ++ dissolve new)) as
    | none => gather (before ++ [a]) (begun.map (· ++ [a])) as

/-- The arguments as the traversals put them together, from the last one on. -/
def gatherBack : List Term → m (Option (List Term))
  | [] => pure none
  | a :: as => do
    let new ← visit a
    let rest ← gatherBack as
    pure (relisted? a as dissolve new rest)

/-- A list that was begun, or is to be begun behind the arguments `before`, and what the others
became. -/
def continued? (before others : List Term) :
    Option (List Term) → Option (List Term) → Option (List Term)
  | none, none => none
  | begun, rest => some (begun.getD before ++ keepOr others rest)

/-- **The loop yields what is put together from the end,** wherever it stands and whether or not it
has begun a list. -/
theorem gather_eq_continued? [LawfulMonad m] (before args : List Term)
    (begun : Option (List Term)) :
    gather visit dissolve before begun args = (do
      let rest ← gatherBack visit dissolve args
      pure (continued? before args begun rest)) := by
  induction args generalizing before begun with
  | nil =>
    rw [gather, gatherBack, pure_bind]
    cases begun with
    | none => rfl
    | some list => simp [continued?, keepOr]
  | cons a as ih =>
    rw [gather, gatherBack, bind_assoc]
    refine congrArg (visit a >>= ·) (funext fun new => ?_)
    rw [bind_assoc]
    -- changed or not, what the others become is put behind what this argument became
    cases new
    all_goals
      dsimp only
      rw [ih]
      refine congrArg (gatherBack visit dissolve as >>= ·) (funext fun rest => ?_)
      rw [pure_bind]
      cases begun <;> cases rest <;> simp [continued?, relisted?, keepOr]

theorem gather_eq_gatherBack [LawfulMonad m] (args : List Term) :
    gather visit dissolve [] none args = gatherBack visit dissolve args := by
  have hself : ∀ rest, continued? [] args none rest = rest := fun rest => by cases rest <;> rfl
  simp only [gather_eq_continued?, hself, bind_pure]

end

theorem Traced.eq_of_parts {α : Type} {x y : Traced α} (hvalue : x.value = y.value)
    (hevents : x.events = y.events) : x = y := by
  cases x
  cases y
  rw [Traced.mk.injEq]
  exact ⟨hvalue, hevents⟩

instance : LawfulMonad Traced := LawfulMonad.mk' Traced
  (fun x => Traced.eq_of_parts rfl (by simp [Functor.map]))
  (fun a f => Traced.eq_of_parts rfl (by simp))
  (fun x f g => Traced.eq_of_parts rfl (by simp))

/-- The canonical forms of arguments are gathered in the loop. -/
theorem Term.canonicalAll?_eq_gather (table : SymbolTable) (args : List Term) :
    canonicalAll? table args
      = (gather (fun a => (pure (a.canonical? table) : Id (Option Term))) unchangedArg [] none
          args).run := by
  rw [gather_eq_gatherBack]
  induction args with
  | nil => rfl
  | cons a as ih =>
    rw [canonicalAll?, ih]
    rfl

/-- The arguments that rules were applied in are gathered in the loop. -/
theorem Term.replacedAll?_eq_gather (table : SymbolTable) (rules : List Rule) (args : List Term) :
    replacedAll? table rules args
      = gather (Term.replaced? table rules) dissolved [] none args := by
  rw [gather_eq_gatherBack]
  induction args with
  | nil => rw [replacedAll?, gatherBack]
  | cons a as ih => rw [replacedAll?, gatherBack, ih]

/-- The arguments that a pass went over are gathered in the loop. -/
theorem Program.passAll_eq_gather (p : Program) (args : List Term) :
    p.passAll args = gather p.pass Term.unchangedArg [] none args := by
  rw [gather_eq_gatherBack]
  induction args with
  | nil => rw [passAll, gatherBack]
  | cons a as ih => rw [passAll, gatherBack, ih]

namespace Term

/-! ## Plain traversals -/

mutual

/-- The canonical form of a term, every node being built anew, and how often it differed from the
node. -/
def canonicalAnew (table : SymbolTable) : Term → Term × Nat
  | .atom a => (.atom a, 0)
  | .app head args _ =>
    let (newHead, inHead) := head.canonicalAnew table
    let (newArgs, inArgs) := canonicalAllAnew table args
    let (node, moved) := canonicalNode table newHead newArgs .fresh
    (node, inHead + inArgs + moved.toNat)

def canonicalAllAnew (table : SymbolTable) : List Term → List Term × Nat
  | [] => ([], 0)
  | a :: as =>
    let (new, inFirst) := a.canonicalAnew table
    let (rest, inRest) := canonicalAllAnew table as
    (new :: rest, inFirst + inRest)

end

/-- What stands in the argument list for an argument that became `new` after `changes` rules were
applied in it: `untouched` tells what becomes of one in which none was. -/
def listed (untouched : Term → List Term) (new : Term) (changes : Nat) : List Term :=
  if changes = 0 then untouched new else dissolved new

mutual

/-- One pass with rules, where every node that no rule rewrites is built anew, and how many rules
were applied. -/
def replacedAnew (table : SymbolTable) (rules : List Rule) (untouched : Term → List Term) :
    Term → Term × Nat
  | .atom a =>
    match (replaceWhole table (.atom a) rules).value with
    | some new => (new, 1)
    | none => (.atom a, 0)
  | .app head args marks =>
    match (replaceWhole table (.app head args marks) rules).value.or
        (replaceArguments table rules head args).value with
    | some new => (new, 1)
    | none =>
      let (newHead, inHead) := head.replacedAnew table rules untouched
      let (newArgs, inArgs) := replacedAllAnew table rules untouched args
      (.apply newHead newArgs, inHead + inArgs)

def replacedAllAnew (table : SymbolTable) (rules : List Rule) (untouched : Term → List Term) :
    List Term → List Term × Nat
  | [] => ([], 0)
  | a :: as =>
    let (new, inFirst) := a.replacedAnew table rules untouched
    let (rest, inRest) := replacedAllAnew table rules untouched as
    (listed untouched new inFirst ++ rest, inFirst + inRest)

end

end Term

/-- What becomes of a node that is built from its new parts, after `changes` of those. -/
def Program.finishAnew (p : Program) (newHead : Term) (newArgs : List Term) (changes : Nat) :
    Rewriter (Term × Nat) := do
  let (node, moved) := Term.canonicalNode p.table newHead newArgs .fresh
  let (result, _) ← p.applyTop node
  pure (result.getD node, changes + moved.toNat + result.isSome.toNat)

mutual

/-- One pass from the bottom up, where every node is built anew and none is left alone, and how
often a canonical form differed from its node or a definition was applied. -/
def Program.passAnew (p : Program) : Term → Rewriter (Term × Nat)
  | .atom a => do
    let (result, _) ← p.applyTop (.atom a)
    pure (result.getD (.atom a), result.isSome.toNat)
  | .app head args _ => do
    let (newHead, inHead) ← p.passAnew head
    let (newArgs, inArgs) ← p.passAllAnew args
    p.finishAnew newHead newArgs (inHead + inArgs)

def Program.passAllAnew (p : Program) : List Term → Rewriter (List Term × Nat)
  | [] => pure ([], 0)
  | a :: as => do
    let (new, inFirst) ← p.passAnew a
    let (rest, inRest) ← p.passAllAnew as
    pure (new :: rest, inFirst + inRest)

end

/-! ## Answers -/

/-- What a traversal answers is what a plain one makes: with the old value for `none` it is related
to the new one, and it is `none` exactly if the plain traversal changed nothing. -/
def Answers {α : Type} (R : α → α → Prop) (old : α) (new : Option α) (anew : α × Nat) : Prop :=
  R (keepOr old new) anew.1 ∧ (new = none ↔ anew.2 = 0)

/-- The new value answers if there is a change. -/
theorem answers_ite {α : Type} {R : α → α → Prop} {old new anew : α} {changed : Bool}
    {changes : Nat} (hnew : changed = true → R new anew) (hold : changed = false → R old anew)
    (hcount : changed = false ↔ changes = 0) :
    Answers R old (if changed then some new else none) (anew, changes) := by
  cases changed with
  | true => exact ⟨hnew rfl, by simpa using hcount⟩
  | false => exact ⟨hold rfl, by simpa using hcount⟩

section

variable {R : Term → Term → Prop}

/-- One argument after another, where `piece` stands for the first one. -/
theorem answers_relisted? {a : Term} {as : List Term} {dissolve : Term → List Term}
    {new : Option Term} {rest : Option (List Term)} {piece : List Term} {changes : Nat}
    {anew : List Term × Nat} (hpiece : List.Forall₂ R ((new.map dissolve).getD [a]) piece)
    (hnew : new = none ↔ changes = 0) (hrest : Answers (List.Forall₂ R) as rest anew) :
    Answers (List.Forall₂ R) (a :: as) (relisted? a as dissolve new rest)
      (piece ++ anew.1, changes + anew.2) := by
  have hlist : keepOr (a :: as) (relisted? a as dissolve new rest)
      = (new.map dissolve).getD [a] ++ keepOr as rest := by
    cases new <;> cases rest <;> rfl
  constructor
  · rw [hlist]
    exact List.rel_append hpiece hrest.1
  · rw [relisted?_eq_none, hnew, hrest.2, Nat.add_eq_zero_iff]

/-- An argument that is put where the old one was. -/
theorem answers_relisted?_unchangedArg {a : Term} {as : List Term} {new : Option Term}
    {rest : Option (List Term)} {first : Term × Nat} {anew : List Term × Nat}
    (hnew : Answers R a new first) (hrest : Answers (List.Forall₂ R) as rest anew) :
    Answers (List.Forall₂ R) (a :: as) (relisted? a as Term.unchangedArg new rest)
      (first.1 :: anew.1, first.2 + anew.2) := by
  have hpiece : List.Forall₂ R ((new.map Term.unchangedArg).getD [a]) [first.1] := by
    have hone := hnew.1
    cases new with
    | none => exact .cons hone .nil
    | some new => exact .cons hone .nil
  exact answers_relisted? hpiece hnew.2 hrest

end

namespace Term

variable {Q : Term → Prop}

/-- **A node whose changed parts were replaced has the canonical form of the one that is built
anew,** and if neither a part nor the canonical form changed the old node is that form. -/
theorem alike_canonicalNode_anew (hQ : Robust Q) (table : SymbolTable) {head : Term}
    {args : List Term} {marks : Marks} (ht : (Term.app head args marks).Every Q)
    {newHead : Option Term} {newArgs : Option (List Term)} {anewHead : Term × Nat}
    {anewArgs : List Term × Nat} (hhead : Answers (Alike Q) head newHead anewHead)
    (hargs : Answers (AlikeAll Q) args newArgs anewArgs) :
    let unchanged := newHead.isNone && newArgs.isNone
    let node := canonicalNode table (keepOr head newHead) (keepOr args newArgs)
      (if unchanged then marks else .fresh)
    let anew := canonicalNode table anewHead.1 anewArgs.1 .fresh
    Alike Q node.1 anew.1
      ∧ ((!unchanged || node.2) = false → Alike Q (.app head args marks) anew.1)
      ∧ ((!unchanged || node.2) = false ↔ anewHead.2 + anewArgs.2 + anew.2.toNat = 0) := by
  intro unchanged node anew
  have hunchanged : unchanged = true ↔ newHead = none ∧ newArgs = none := by
    simp [unchanged]
  have hnode : Q (.app (keepOr head newHead) (keepOr args newArgs)
      (if unchanged then marks else .fresh)) := by
    split
    · next h =>
      obtain ⟨rfl, rfl⟩ := hunchanged.mp h
      exact (every_app.mp ht).1
    · exact hQ.built _ _
  obtain ⟨halike, hmoved⟩ := Alike.canonicalNode hQ table hnode (hQ.built anewHead.1 anewArgs.1)
    hhead.1 hargs.1
  refine ⟨halike, fun hsame => ?_, ?_⟩
  · obtain ⟨hparts, hform⟩ := Bool.or_eq_false_iff.mp hsame
    have hparts : unchanged = true := by simpa using hparts
    obtain ⟨rfl, rfl⟩ := hunchanged.mp hparts
    have hself : node.1 = .app head args marks := congrArg Prod.fst (canonicalNode_eq_self hform)
    exact hself ▸ halike
  · rw [Bool.or_eq_false_iff, Bool.not_eq_false', hunchanged, hhead.2, hargs.2, Nat.add_eq_zero_iff,
      Nat.add_eq_zero_iff, Bool.toNat_eq_zero, ← hmoved]

/-! ## Canonical form -/

/-- A node in terms of what its parts became. -/
theorem canonical?_of_parts (table : SymbolTable) (head : Term) (args : List Term) (marks : Marks) :
    (Term.app head args marks).canonical? table
      = let newHead := head.canonical? table
        let newArgs := canonicalAll? table args
        let unchanged := newHead.isNone && newArgs.isNone
        let node := canonicalNode table (keepOr head newHead) (keepOr args newArgs)
          (if unchanged then marks else .fresh)
        if !unchanged || node.2 then some node.1 else none := by
  rw [canonical?_app]
  cases head.canonical? table with
  | none => cases canonicalAll? table args <;> rfl
  | some newHead => cases canonicalAll? table args <;> rfl

theorem answers_canonicalAll? (table : SymbolTable) {args : List Term}
    (h : ∀ a ∈ args, Answers (Alike Q) a (a.canonical? table) (a.canonicalAnew table)) :
    Answers (AlikeAll Q) args (canonicalAll? table args) (canonicalAllAnew table args) := by
  induction args with
  | nil => exact ⟨.nil, by simp [canonicalAll?, canonicalAllAnew]⟩
  | cons a as ih =>
    obtain ⟨ha, has⟩ := List.forall_mem_cons.mp h
    exact answers_relisted?_unchangedArg ha (ih has)

theorem answers_canonical? (hQ : Robust Q) (table : SymbolTable) {t : Term} (ht : t.Every Q) :
    Answers (Alike Q) t (t.canonical? table) (t.canonicalAnew table) := by
  induction t using induct with
  | atom a => exact ⟨alike_atom a, by simp [canonical?, canonicalAnew]⟩
  | app head args marks ihhead ihargs =>
    obtain ⟨_, hhead, hargs⟩ := every_app.mp ht
    obtain ⟨halike, hself, hcount⟩ := alike_canonicalNode_anew hQ table ht (ihhead hhead)
      (answers_canonicalAll? table fun a ha => ihargs a ha (hargs a ha))
    rw [canonical?_of_parts]
    exact answers_ite (fun _ => halike) hself hcount

/-! ## Replacement -/

/-- The terms are identical, as far as they remember their fingerprints. -/
abbrev Same (s t : Term) : Prop := s.identical t = true

/-- A new node remembers nothing, so its parts alone decide what is identical to it. -/
theorem identical_apply {h k : Term} {as bs : List Term} {m : Marks} (hhead : h.Same k)
    (hargs : List.Forall₂ Same as bs) : (Term.app h as m).Same (apply k bs) := by
  have hmarks : m.disagree .fresh = false := by
    unfold Marks.disagree
    cases m.fingerprint <;> rfl
  rw [Same, apply, identical, hmarks, hhead, identicalAll_iff_forall₂.mpr hargs]
  rfl

theorem same_dissolved {s t : Term} (h : s.Same t) :
    List.Forall₂ Same (dissolved s) (dissolved t) := by
  have hcalls : s.callArgs? "Sequence" = none ↔ t.callArgs? "Sequence" = none := by
    have hstructure := congrArg (callArgs? "Sequence") (unmarked_eq_of_identical h)
    rw [callArgs?_unmarked, callArgs?_unmarked] at hstructure
    rw [← Option.map_eq_none_iff (f := List.map unmarked), hstructure, Option.map_eq_none_iff]
  unfold dissolved
  cases ht : t.callArgs? "Sequence" with
  | none =>
    rw [hcalls.mpr ht]
    exact .cons h .nil
  | some items =>
    obtain ⟨marks, rfl⟩ := callArgs?_eq_some.mp ht
    obtain ⟨args, hs, hargs⟩ := callArgs?_of_identical h
    rw [hs]
    exact hargs

theorem answers_rebuilt? {head : Term} {args : List Term} {marks : Marks} {newHead : Option Term}
    {newArgs : Option (List Term)} {anewHead : Term × Nat} {anewArgs : List Term × Nat}
    (hhead : Answers Same head newHead anewHead)
    (hargs : Answers (List.Forall₂ Same) args newArgs anewArgs) :
    Answers Same (.app head args marks) (rebuilt? head args newHead newArgs)
      (.apply anewHead.1 anewArgs.1, anewHead.2 + anewArgs.2) := by
  have hnode : ∀ m, (Term.app (keepOr head newHead) (keepOr args newArgs) m).Same
      (.apply anewHead.1 anewArgs.1) := fun m => identical_apply hhead.1 hargs.1
  constructor
  · cases newHead with
    | none =>
      cases newArgs with
      | none => exact hnode marks
      | some newArgs => exact hnode .fresh
    | some newHead => cases newArgs <;> exact hnode .fresh
  · rw [rebuilt?_eq_none, hhead.2, hargs.2, Nat.add_eq_zero_iff]

section

variable {table : SymbolTable} {rules : List Rule}

theorem answers_replacedAll? {args : List Term}
    (h : ∀ a ∈ args, Answers Same a (a.replaced? table rules).value
      (a.replacedAnew table rules unchangedArg)) :
    Answers (List.Forall₂ Same) args (replacedAll? table rules args).value
      (replacedAllAnew table rules unchangedArg args) := by
  induction args with
  | nil => exact ⟨.nil, by simp [replacedAll?, replacedAllAnew]⟩
  | cons a as ih =>
    obtain ⟨⟨hone, hcount⟩, has⟩ := List.forall_mem_cons.mp h
    rw [value_replacedAll?_cons]
    refine answers_relisted? ?_ hcount (ih has)
    unfold listed
    -- what a rule gave is dissolved on both sides, and what none was applied in on neither
    cases hnew : (a.replaced? table rules).value with
    | none =>
      rw [hnew] at hone
      rw [if_pos (hcount.mp hnew)]
      exact .cons hone .nil
    | some new =>
      rw [hnew] at hone
      rw [if_neg fun hzero => Option.some_ne_none _ (hnew.symm.trans (hcount.mpr hzero))]
      exact same_dissolved hone

theorem answers_replaced? (t : Term) :
    Answers Same t (t.replaced? table rules).value (t.replacedAnew table rules unchangedArg) := by
  induction t using induct with
  | atom a =>
    rw [replaced?, replacedAnew]
    cases (replaceWhole table (.atom a) rules).value with
    | none => exact ⟨identical_rfl _, by simp⟩
    | some new => exact ⟨identical_rfl _, by simp⟩
  | app head args marks ihhead ihargs =>
    rw [value_replaced?_app, replacedAnew, ← Option.or_assoc]
    cases (replaceWhole table (.app head args marks) rules).value.or
        (replaceArguments table rules head args).value with
    | none => exact answers_rebuilt? ihhead (answers_replacedAll? ihargs)
    | some new => exact ⟨identical_rfl _, by simp⟩

/-- What became of an argument that is no sequence, without a rule, is none either. -/
theorem listed_dissolved {a : Term} (ha : a.isCall "Sequence" = false) :
    let new := a.replacedAnew table rules unchangedArg
    listed dissolved new.1 new.2 = listed unchangedArg new.1 new.2 := by
  intro new
  obtain ⟨hsame, hcount⟩ : Answers Same a (a.replaced? table rules).value new :=
    answers_replaced? a
  unfold listed
  split
  · next hzero =>
    rw [hcount.mpr hzero] at hsame
    have hcall : new.1.isCall "Sequence" = false := by
      rw [← isCall_unmarked, ← unmarked_eq_of_identical hsame, isCall_unmarked]
      exact ha
    exact dissolved_of_not_isCall hcall
  · rfl

/-- **Where no argument is a sequence, the whole list may be dissolved.** -/
theorem replacedAnew_dissolved {t : Term} (ht : t.Spliced) :
    t.replacedAnew table rules dissolved = t.replacedAnew table rules unchangedArg := by
  induction t using induct with
  | atom a => rfl
  | app head args marks ihhead ihargs =>
    obtain ⟨hhead, hargs⟩ := spliced_app.mp ht
    have hall : replacedAllAnew table rules dissolved args
        = replacedAllAnew table rules unchangedArg args := by
      clear ht
      induction args with
      | nil => rfl
      | cons a as ih =>
        obtain ⟨⟨hitem, ha⟩, has⟩ := List.forall_mem_cons.mp hargs
        obtain ⟨iha, ihas⟩ := List.forall_mem_cons.mp ihargs
        rw [replacedAllAnew, replacedAllAnew, iha ha, ih ihas has]
        dsimp only
        rw [listed_dissolved hitem]
    rw [replacedAnew, replacedAnew, ihhead hhead, hall]

end

end Term

/-! ## Passes -/

namespace Program

variable {p : Program} {Q : Term → Prop}

/-- Definitions are applied alike to alike nodes, and the node that was looked at is still alike. -/
theorem agree_applyTop_looked (hp : p.Sound) (hQ : Term.Robust Q) {s t : Term}
    (h : Term.Alike Q s t) :
    Agree (fun r r' => Option.Rel (Term.Alike Q) r.1 r'.1 ∧ Term.Alike Q r.2 t)
      (p.applyTop s) (p.applyTop t) := by
  intro b
  obtain ⟨⟨hresult, hnode⟩, hbudget⟩ := agree_applyTop hp hQ h b
  refine ⟨⟨hresult, ?_, hnode.left, h.right⟩, hbudget⟩
  obtain ⟨looked, hlooked, hvalue⟩ := value_applyTop (p := p) s b
  rw [hvalue]
  rcases hlooked with rfl | rfl
  · exact h.same
  · exact (Term.unmarked_memoized s).trans h.same

theorem agree_passAll_anew {args : List Term}
    (h : ∀ a ∈ args, Agree (Answers (Term.Alike Q) a) (p.pass a) (p.passAnew a)) :
    Agree (Answers (Term.AlikeAll Q) args) (p.passAll args) (p.passAllAnew args) := by
  induction args with
  | nil => exact agree_pure ⟨.nil, by simp⟩
  | cons a as ih =>
    obtain ⟨ha, has⟩ := List.forall_mem_cons.mp h
    rw [passAll, passAllAnew]
    refine agree_bind ha fun new first hnew => ?_
    refine agree_bind (ih has) fun rest anew hrest => ?_
    exact agree_pure (answers_relisted?_unchangedArg hnew hrest)

/-- Finishing a node whose changed parts were replaced is finishing the one that is built anew. -/
theorem agree_finishParts_anew (hp : p.Sound) (hQ : Term.Robust Q) {head : Term} {args : List Term}
    {marks : Marks} (ht : (Term.app head args marks).Every Q) {newHead : Option Term}
    {newArgs : Option (List Term)} {anewHead : Term × Nat} {anewArgs : List Term × Nat}
    (hhead : Answers (Term.Alike Q) head newHead anewHead)
    (hargs : Answers (Term.AlikeAll Q) args newArgs anewArgs) :
    Agree (Answers (Term.Alike Q) (.app head args marks))
      (p.finishParts head args marks newHead newArgs)
      (p.finishAnew anewHead.1 anewArgs.1 (anewHead.2 + anewArgs.2)) := by
  obtain ⟨halike, hself, hcount⟩ := Term.alike_canonicalNode_anew hQ p.table ht hhead hargs
  have hparts : p.finishParts head args marks newHead newArgs
      = p.finishNode (keepOr head newHead) (keepOr args newArgs)
          (if newHead.isNone && newArgs.isNone then marks else .fresh)
          (!(newHead.isNone && newArgs.isNone)) := by
    cases newHead <;> cases newArgs <;> rfl
  rw [hparts, finishNode, finishAnew]
  refine agree_bind (agree_applyTop_looked hp hQ halike) ?_
  rintro ⟨result, looked⟩ ⟨result', _⟩ ⟨hresult, hlooked⟩
  dsimp only at hresult hlooked
  rcases optionRel_cases hresult with ⟨rfl, rfl⟩ | ⟨u, u', rfl, rfl, hu⟩
  · exact agree_pure (answers_ite (fun _ => hlooked) hself hcount)
  · exact agree_pure ⟨hu, by simp⟩

/-- **A pass answers as the one that builds every node anew,** and pays for as much. -/
theorem agree_pass_anew (hp : p.Sound) {t : Term} (ht : t.Coherent) (hfresh : t.Unstamped) :
    Agree (Answers (Term.Alike Term.Truthful) t) (p.pass t) (p.passAnew t) := by
  have hQ := Term.robust_truthful
  induction t using Term.induct with
  | atom a =>
    rw [pass, passAnew]
    refine agree_bind (agree_applyTop hp hQ (Term.alike_atom a)) ?_
    rintro ⟨result, _⟩ ⟨result', _⟩ ⟨hresult, -⟩
    refine agree_pure ?_
    dsimp only at hresult
    rcases optionRel_cases hresult with ⟨rfl, rfl⟩ | ⟨u, u', rfl, rfl, hu⟩
    · exact ⟨Term.alike_atom a, by simp⟩
    · exact ⟨hu, by simp⟩
  | app head args marks ihhead ihargs =>
    obtain ⟨-, hhead, hargs⟩ := Term.every_app.mp ht
    obtain ⟨-, hfreshHead, hfreshArgs⟩ := Term.every_app.mp hfresh
    have hanswers := agree_passAll_anew fun a ha => ihargs a ha (hargs a ha) (hfreshArgs a ha)
    rw [pass, if_neg (hfresh.not_isNormalUnder ht p.generation), passAnew]
    refine agree_bind (ihhead hhead hfreshHead) fun newHead anewHead hnewHead => ?_
    refine agree_bind hanswers fun newArgs anewArgs hnewArgs => ?_
    exact agree_finishParts_anew hp hQ ht hnewHead hnewArgs

end Program

/-! ## Plain answers -/

theorem Answers.same {t : Term} {new : Option Term} {anew : Term × Nat}
    (h : Answers (Term.Alike Term.Truthful) t new anew) : Answers Term.Same t new anew :=
  ⟨(Term.identical_iff h.1.left h.1.right).mpr h.1.same, h.2⟩

namespace Session

variable {s : Session}

/-- **Keeping what did not change answers as building everything anew does.** The traversals gather
the arguments in a loop that begins a new list at the first one that changes. With the term itself
for `none`, the canonical form, a pass with a list of rules and, over a term that is not marked as
normal, a pass with the definitions of a session give a term identical to that of the plain
traversal. They answer `none` exactly if it found no canonical form that differs from its node and
applied no rule or definition. The pass with definitions leaves of any budget what the plain one
leaves. In the argument lists of the pass with rules those arguments are dissolved in which a rule
was applied, which is to dissolve the whole list where the term has no sequence among its
arguments. -/
theorem traversals_answer_as_plain (hs : s.Reachable) (table : SymbolTable) (rules : List Rule)
    {t : Term} (ht : t.Coherent) :
    (∀ args,
        Term.canonicalAll? table args = (gather (fun a => (pure (a.canonical? table) : Id _))
          Term.unchangedArg [] none args).run
        ∧ Term.replacedAll? table rules args
          = gather (Term.replaced? table rules) dissolved [] none args
        ∧ s.program.passAll args = gather s.program.pass Term.unchangedArg [] none args)
      ∧ Answers Term.Same t (t.canonical? table) (t.canonicalAnew table)
      ∧ Answers Term.Same t (t.replaced? table rules).value
          (t.replacedAnew table rules Term.unchangedArg)
      ∧ (t.Spliced → t.replacedAnew table rules dissolved
          = t.replacedAnew table rules Term.unchangedArg)
      ∧ (t.Unstamped → ∀ b,
          Answers Term.Same t (value (s.program.pass t) b).1 (value (s.program.passAnew t) b).1
            ∧ (value (s.program.pass t) b).2 = (value (s.program.passAnew t) b).2) := by
  refine ⟨fun args => ⟨Term.canonicalAll?_eq_gather table args,
      Term.replacedAll?_eq_gather table rules args, s.program.passAll_eq_gather args⟩,
    (Term.answers_canonical? Term.robust_truthful table ht).same, Term.answers_replaced? t,
    Term.replacedAnew_dissolved, fun hfresh b => ?_⟩
  obtain ⟨hanswers, hbudget⟩ := Program.agree_pass_anew (program_sound hs.wellFiled) ht hfresh b
  exact ⟨hanswers.same, hbudget⟩

/-- A rule for the symbol `x`, and a definition of `g`, in the second argument of `f`. -/
theorem traversals_answer_as_plain_second :
    ∃ s : Session, s.Reachable
      ∧ let t := Term.call "f" [.symbol "z", .call "g" [.symbol "x"]]
        let rules : List Rule := [⟨.symbol "x", .symbol "y", false⟩]
        (t.replaced? s.table rules).value
            = some (.call "f" [.symbol "z", .call "g" [.symbol "y"]])
          ∧ Answers Term.Same t (t.replaced? s.table rules).value
            (t.replacedAnew s.table rules dissolved)
          ∧ (value (s.program.pass t) .boundless).1
            = some (.call "f" [.symbol "z", .symbol "x"])
          ∧ Answers Term.Same t (value (s.program.pass t) .boundless).1
            (value (s.program.passAnew t) .boundless).1 := by
  have hs := @Reachable.define _ _
    ⟨.call "g" [.call "NamedBlank" [.symbol "v"]], .symbol "v", false⟩ .start
    (Term.coherent_of_unmarked_eq rfl) rfl
  refine ⟨_, hs, ?_⟩
  intro t rules
  have ht : t.Coherent := Term.coherent_of_unmarked_eq rfl
  have hfresh : t.Unstamped := Term.unstamped_unmarked t
  have hspliced : t.Spliced := by
    refine .app rfl (.atom _) (Term.forall_mem_pair.mpr ⟨.atom _, ?_⟩)
    exact .app rfl (.atom _) (List.forall_mem_singleton.mpr (.atom _))
  obtain ⟨-, -, hreplaced, hdissolved, hpass⟩ := traversals_answer_as_plain hs _ rules ht
  refine ⟨rfl, ?_, rfl, (hpass hfresh .boundless).1⟩
  rw [hdissolved hspliced]
  exact hreplaced

/-- A sequence in which no rule is applied stays an argument, even where the node around it is built
anew: dissolving it gives another term. -/
theorem replacement_keeps_sequence :
    let t := Term.call "f" [.call "Sequence" [.symbol "a", .symbol "b"], .symbol "x"]
    let rules : List Rule := [⟨.symbol "x", .symbol "y", false⟩]
    (t.replaced? .empty rules).value
        = some (.call "f" [.call "Sequence" [.symbol "a", .symbol "b"], .symbol "y"])
      ∧ (t.replacedAnew .empty rules dissolved).1
        = .call "f" [.symbol "a", .symbol "b", .symbol "y"]
      ∧ ¬Answers Term.Same t (t.replaced? .empty rules).value
        (t.replacedAnew .empty rules dissolved) := by
  intro t rules
  refine ⟨rfl, rfl, fun hanswers => ?_⟩
  have hsame : (Term.call "f" [.call "Sequence" [.symbol "a", .symbol "b"], .symbol "y"]).Same
      (.call "f" [.symbol "a", .symbol "b", .symbol "y"]) := hanswers.1
  cases hsame

end Session

end TermRewriting
