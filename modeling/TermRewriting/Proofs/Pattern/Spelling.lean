import TermRewriting.Pattern.InPlace
import TermRewriting.Proofs.Pattern.Soundness

/-!
# Two spellings of named runs

A named run is written as `NamedBlankSequence[x, …]`, or as `Pattern[x, BlankSequence[…]]`. As
arguments of a compound pattern, however deep and under whatever attributes, both are one and the
same run, so it does not matter which of them a pattern is written with (`Term.Respelled`): it reads
as the same pattern.

On its own the first spelling is a run of one and binds its name to `Sequence[t]`, while the second
is a term with a name and binds it to `t`. So as whole patterns they never agree on a term that
either of them matches (`Term.searchMatch_of_respelled`).
-/

namespace TermRewriting

namespace Term

/-! ## Spellings -/

/-- The two spellings of a run that is bound to a name: how many arguments it has at least, the
name, and the type of each argument, if one is given. -/
inductive SpellsRun (x : String) (type : List Term) : Nat → Term → Term → Prop where
  | blankSequence (marks marks' inner : Marks) :
      SpellsRun x type 1 (.app (.symbol "NamedBlankSequence") (.symbol x :: type) marks)
        (.app (.symbol "Pattern") [.symbol x, .app (.symbol "BlankSequence") type inner] marks')
  | blankNullSequence (marks marks' inner : Marks) :
      SpellsRun x type 0 (.app (.symbol "NamedBlankNullSequence") (.symbol x :: type) marks)
        (.app (.symbol "Pattern") [.symbol x, .app (.symbol "BlankNullSequence") type inner] marks')

/-- The patterns differ in how named runs are written that are arguments of compound patterns in
them. -/
inductive Respelled : Term → Term → Prop where
  | refl (p : Term) : Respelled p p
  | symm {p q : Term} : Respelled p q → Respelled q p
  | trans {p q r : Term} : Respelled p q → Respelled q r → Respelled p r
  | run {head a a' : Term} {least : Nat} {x : String} {type : List Term} (pre post : List Term)
      (marks marks' : Marks) : IsCompound head (pre ++ a :: post) → SpellsRun x type least a a' →
      Respelled (.app head (pre ++ a :: post) marks) (.app head (pre ++ a' :: post) marks')
  | arg {head a a' : Term} (pre post : List Term) (marks marks' : Marks) :
      IsCompound head (pre ++ a :: post) → Respelled a a' →
      Respelled (.app head (pre ++ a :: post) marks) (.app head (pre ++ a' :: post) marks')
  | head {head head' : Term} {args : List Term} (marks marks' : Marks) : IsCompound head args →
      Respelled head head' → Respelled (.app head args marks) (.app head' args marks')
  | named {p q : Term} (x : String) (marks marks' : Marks) : Respelled p q →
      Respelled (.app (.symbol "Pattern") [.symbol x, p] marks)
        (.app (.symbol "Pattern") [.symbol x, q] marks')
  | condition {p q : Term} (proviso : Term) (marks marks' : Marks) : Respelled p q →
      Respelled (.app (.symbol "Condition") [p, proviso] marks)
        (.app (.symbol "Condition") [q, proviso] marks')
  | test {p q : Term} (predicate : Term) (marks marks' : Marks) : Respelled p q →
      Respelled (.app (.symbol "PatternTest") [p, predicate] marks)
        (.app (.symbol "PatternTest") [q, predicate] marks')
  | alternatives {name : String} {p q : Term} {pre post : List Term} (marks marks' : Marks) :
      PatternHead.ofName? name = some .alternatives → Respelled p q →
      Respelled (.app (.symbol name) (pre ++ p :: post) marks)
        (.app (.symbol name) (pre ++ q :: post) marks')
  | optional {p q : Term} (rest : List Term) (marks marks' : Marks) : Respelled p q →
      Respelled (.app (.symbol "Optional") (p :: rest) marks)
        (.app (.symbol "Optional") (q :: rest) marks')
  | hold {p q : Term} (rest : List Term) (marks marks' : Marks) : Respelled p q →
      Respelled (.app (.symbol "HoldPattern") (p :: rest) marks)
        (.app (.symbol "HoldPattern") (q :: rest) marks')

section

variable {x : String} {type : List Term} {least : Nat} {p q r : Term}

/-- As arguments both spellings are the same run. -/
theorem SpellsRun.ofTerm?_eq (h : SpellsRun x type least p q) :
    RunSpec.ofTerm? p = some ⟨least, some x, type.head?⟩
      ∧ RunSpec.ofTerm? q = some ⟨least, some x, type.head?⟩ := by
  cases h <;> cases type <;> exact ⟨rfl, rfl⟩

/-- On their own they are not: a run of one, and a named term. -/
theorem SpellsRun.ofTerm_eq (h : SpellsRun x type least p q) :
    Pattern.ofTerm p = .run ⟨least, some x, type.head?⟩
      ∧ Pattern.ofTerm q = .named x (.run ⟨least, none, type.head?⟩) := by
  cases h <;> cases type <;> exact ⟨rfl, rfl⟩

theorem SpellsRun.least_le (h : SpellsRun x type least p q) : least ≤ 1 := by
  cases h <;> decide

theorem slotOfTerm_of_run {spec : RunSpec} (h : RunSpec.ofTerm? p = some spec) (one : Pattern) :
    Slot.ofTerm p one = .run spec := by
  rw [Slot.ofTerm, h]

/-! ## Readings -/

/-- Whatever is read off a pattern is the same for both, alone and as an argument. -/
structure SameReading (p q : Term) : Prop where
  symbol : p.symbolName? = q.symbolName?
  anonymous : RunSpec.anonymous? p = RunSpec.anonymous? q
  run : RunSpec.ofTerm? p = RunSpec.ofTerm? q
  optional : p.isOptional = q.isOptional
  pattern : Pattern.ofTerm p = Pattern.ofTerm q

theorem SameReading.refl (p : Term) : SameReading p p := ⟨rfl, rfl, rfl, rfl, rfl⟩

theorem SameReading.symm (h : SameReading p q) : SameReading q p :=
  ⟨h.symbol.symm, h.anonymous.symm, h.run.symm, h.optional.symm, h.pattern.symm⟩

theorem SameReading.trans (h : SameReading p q) (h' : SameReading q r) : SameReading p r :=
  ⟨h.symbol.trans h'.symbol, h.anonymous.trans h'.anonymous, h.run.trans h'.run,
    h.optional.trans h'.optional, h.pattern.trans h'.pattern⟩

theorem SameReading.slot_eq (h : SameReading p q) :
    Slot.ofTerm p (Pattern.ofTerm p) = Slot.ofTerm q (Pattern.ofTerm q) := by
  rw [Slot.ofTerm, Slot.ofTerm, h.run, h.optional, h.pattern]

/-- A run without a name is a run. -/
theorem anonymous?_eq_none (h : RunSpec.ofTerm? p = none) : RunSpec.anonymous? p = none := by
  unfold RunSpec.anonymous?
  split
  · next name args marks =>
    split
    · next least hname =>
      simp [RunSpec.ofTerm?, hname] at h
    · rfl
  · rfl

/-- A compound pattern stands for one term as an argument, and is read off its head and what its
arguments are as arguments. -/
theorem SameReading.of_compound {head head' : Term} {args args' : List Term} (marks marks' : Marks)
    (h : IsCompound head args) (hhead : SameReading head head')
    (hlength : args'.length = args.length)
    (hargs : (args.map fun a => Slot.ofTerm a (Pattern.ofTerm a))
      = args'.map fun a => Slot.ofTerm a (Pattern.ofTerm a)) :
    SameReading (.app head args marks) (.app head' args' marks') := by
  have h' : IsCompound head' args' := h.of_length hhead.symbol.symm hlength
  obtain ⟨hrun, hoptional⟩ :=
    isVariadic_eq_false.mp (@isVariadic_of_isCompound head args marks h)
  obtain ⟨hrun', hoptional'⟩ :=
    isVariadic_eq_false.mp (@isVariadic_of_isCompound head' args' marks' h')
  refine ⟨rfl, ?_, by rw [hrun, hrun'], by rw [hoptional, hoptional'], ?_⟩
  · rw [anonymous?_eq_none hrun, anonymous?_eq_none hrun']
  · rw [ofTerm_compound h, ofTerm_compound h', hhead.symbol, hhead.pattern, hargs]

theorem SameReading.of_alternatives {name : String} {args args' : List Term}
    (marks marks' : Marks) (hname : PatternHead.ofName? name = some .alternatives)
    (hargs : args.map Pattern.ofTerm = args'.map Pattern.ofTerm) :
    SameReading (.app (.symbol name) args marks) (.app (.symbol name) args' marks') := by
  have hpattern (args : List Term) (marks : Marks) :
      Pattern.ofTerm (.app (.symbol name) args marks)
        = .alternatives (args.map Pattern.ofTerm) := by
    rw [Pattern.ofTerm, Pattern.ofParts, symbolName?, Option.bind_some, hname,
      Pattern.ofTerms_eq_map]
    rfl
  have hoptional (args : List Term) (marks : Marks) :
      (Term.app (.symbol name) args marks).isOptional = false := by
    have hne : name ≠ "Optional" := by
      rintro rfl
      cases hname
    simp [isOptional, callArgs?, hne]
  refine ⟨rfl, ?_, ?_, by rw [hoptional, hoptional], by rw [hpattern, hpattern, hargs]⟩
  · simp [RunSpec.anonymous?, hname]
  · simp [RunSpec.ofTerm?, hname]

/-- **However its named runs are written, a pattern reads the same.** -/
theorem Respelled.sameReading (h : Respelled p q) : SameReading p q := by
  induction h with
  | refl p => exact .refl p
  | symm _ ih => exact ih.symm
  | trans _ _ ih ih' => exact ih.trans ih'
  | run pre post marks marks' hcompound hruns =>
    obtain ⟨hrun, hrun'⟩ := hruns.ofTerm?_eq
    refine .of_compound marks marks' hcompound (.refl _) (by simp) ?_
    simp only [List.map_append, List.map_cons, slotOfTerm_of_run hrun, slotOfTerm_of_run hrun']
  | arg pre post marks marks' hcompound _ ih =>
    refine .of_compound marks marks' hcompound (.refl _) (by simp) ?_
    simp only [List.map_append, List.map_cons, ih.slot_eq]
  | head marks marks' hcompound _ ih => exact .of_compound marks marks' hcompound ih rfl rfl
  | @named p q x marks marks' _ ih =>
    have hrun : (RunSpec.anonymous? p).map (fun spec => { spec with name := some x })
        = (RunSpec.anonymous? q).map fun spec => { spec with name := some x } := by
      rw [ih.anonymous]
    exact ⟨rfl, rfl, hrun, rfl, congrArg (Pattern.named x) ih.pattern⟩
  | condition proviso marks marks' _ ih =>
    exact ⟨rfl, rfl, rfl, rfl, congrArg (Pattern.condition · proviso) ih.pattern⟩
  | test predicate marks marks' _ ih =>
    exact ⟨rfl, rfl, rfl, rfl, congrArg (Pattern.test · predicate) ih.pattern⟩
  | alternatives marks marks' hname _ ih =>
    refine .of_alternatives marks marks' hname ?_
    simp only [List.map_append, List.map_cons, ih.pattern]
  | optional rest marks marks' _ ih => exact ⟨rfl, rfl, rfl, rfl, ih.pattern⟩
  | hold rest marks marks' _ ih => exact ⟨rfl, rfl, rfl, rfl, ih.pattern⟩

/-! ## Whole patterns -/

/-- A run of one. -/
theorem result_matchRun_one {spec : RunSpec} (hleast : spec.least ≤ 1) (t : Term) (b : Bindings) :
    (spec.matchRun [t] b).result
      = if t.hasOptionalType spec.type then
          match spec.name with
          | some name => b.bind? name (.call "Sequence" [t])
          | none => some b
        else none := by
  rw [RunSpec.matchRun, List.length_singleton, decide_eq_true hleast, Bool.true_and, List.all_cons,
    List.all_nil, Bool.and_true]
  split
  · cases spec.name <;> rfl
  · rfl

/-- As whole patterns the spellings accept terms of one type, and bind the name to different
terms. -/
theorem SpellsRun.result_eq (h : SpellsRun x type least p q) (c : MatchContext) (t : Term)
    (b : Bindings) :
    (p.searchMatch c t b).result
        = (if t.hasOptionalType type.head? then b.bind? x (.call "Sequence" [t]) else none)
      ∧ (q.searchMatch c t b).result
        = if t.hasOptionalType type.head? then b.bind? x t else none := by
  obtain ⟨hp, hq⟩ := h.ofTerm_eq
  constructor
  · rw [searchMatch, hp, Pattern.matcher, result_matchRun_one h.least_le]
  · rw [searchMatch, hq, Pattern.matcher, Search.result_andThen, Pattern.matcher,
      result_matchRun_one h.least_le]
    split <;> rfl

theorem sequence_ne (t : Term) : call "Sequence" [t] ≠ t := by
  intro heq
  have hsize := congrArg sizeOf heq
  simp at hsize
  omega

/-- A name cannot be bound both to a term and to the run of it. -/
theorem bind?_sequence_eq_iff {t : Term} {b : Bindings} :
    b.bind? x (.call "Sequence" [t]) = b.bind? x t
      ↔ b.bind? x (.call "Sequence" [t]) = none ∧ b.bind? x t = none := by
  refine ⟨fun heq => ?_, fun ⟨hnone, hnone'⟩ => hnone.trans hnone'.symm⟩
  suffices hnone : b.bind? x t = none from ⟨heq.trans hnone, hnone⟩
  rw [Option.eq_none_iff_forall_ne_some]
  intro d hd
  obtain ⟨bound, hbound, hid, _⟩ := Bindings.get?_bind? hd
  obtain ⟨bound', hbound', hid', _⟩ := Bindings.get?_bind? (heq.trans hd)
  obtain rfl : bound' = bound := Option.some.inj (hbound'.symm.trans hbound)
  have hsame := (unmarked_eq_of_identical hid').symm.trans (unmarked_eq_of_identical hid)
  rw [unmarked_app] at hsame
  exact sequence_ne t.unmarked hsame

end

/-- **Where the spellings agree.** Two patterns that differ in how the runs are written that are
arguments of compound patterns in them are matched alike: in place, whatever the hooks answer and
remember, and as a search. As whole patterns the two spellings accept the terms of the type of the
run, but the first binds its name to `Sequence[t]` and the second to `t`; they leave the same
bindings only if neither matches. -/
theorem searchMatch_of_respelled (p q : Term) :
    (Respelled p q →
        (∀ (ω : Type) (table : SymbolTable) (hooks : Hooks ω),
          p.matchInto table hooks = q.matchInto table hooks)
        ∧ ∀ c : MatchContext, p.searchMatch c = q.searchMatch c)
      ∧ ∀ x type least, SpellsRun x type least p q → ∀ (c : MatchContext) (t : Term) (b : Bindings),
          (p.searchMatch c t b).result
              = (if t.hasOptionalType type.head? then b.bind? x (.call "Sequence" [t]) else none)
            ∧ (q.searchMatch c t b).result
              = (if t.hasOptionalType type.head? then b.bind? x t else none)
            ∧ ((p.searchMatch c t b).result = (q.searchMatch c t b).result
              ↔ (p.searchMatch c t b).result = none ∧ (q.searchMatch c t b).result = none) := by
  refine ⟨fun h => ⟨fun ω table hooks => ?_, fun c => ?_⟩, fun x type least h c t b => ?_⟩
  · funext t
    rw [matchInto, matchInto, h.sameReading.pattern]
  · funext t b
    rw [searchMatch, searchMatch, h.sameReading.pattern]
  · obtain ⟨hp, hq⟩ := h.result_eq c t b
    refine ⟨hp, hq, ?_⟩
    rw [hp, hq]
    split
    · exact bind?_sequence_eq_iff
    · simp

/-- A run and, inside an argument that is held, the same run, both written anew. On its own each
spelling binds another term. -/
theorem searchMatch_of_respelled_held :
    let xs := call "NamedBlankSequence" [symbol "x", symbol "Integer"]
    let xs' := call "Pattern" [symbol "x", call "BlankSequence" [symbol "Integer"]]
    let p := call "f" [xs, call "HoldPattern" [call "g" [xs]]]
    let q := call "f" [xs', call "HoldPattern" [call "g" [xs']]]
    let c : MatchContext := ⟨.ofAttributes [("f", .orderless)], {}⟩
    let t := call "f" [call "g" [integer 1, integer 2], integer 1, integer 2]
    let d : Bindings := [("x", call "Sequence" [integer 1, integer 2])]
    let result := (p.searchMatch c t []).result
    Respelled p q ∧ result = some d ∧ (q.searchMatch c t []).result = some d
      ∧ SpellsRun "x" [symbol "Integer"] 1 xs xs'
      ∧ (xs.searchMatch c (integer 1) []).result = some [("x", call "Sequence" [integer 1])]
      ∧ (xs'.searchMatch c (integer 1) []).result = some [("x", integer 1)] := by
  intro xs xs' p q c t d result
  have hruns : SpellsRun "x" [symbol "Integer"] 1 xs xs' := .blankSequence _ _ _
  have hinner : Respelled (call "g" [xs]) (call "g" [xs']) := .run [] [] _ _ rfl hruns
  have hheld : Respelled (call "HoldPattern" [call "g" [xs]])
      (call "HoldPattern" [call "g" [xs']]) := .hold [] _ _ hinner
  have hfirst : Respelled p (call "f" [xs', call "HoldPattern" [call "g" [xs]]]) :=
    .run [] [_] _ _ rfl hruns
  have hpq : Respelled p q := hfirst.trans (.arg [xs'] [] _ _ rfl hheld)
  have hresult : result = some d := by
    simp only [result, p, c, t, xs, d]
    rfl
  have hsame : p.searchMatch c = q.searchMatch c := ((searchMatch_of_respelled p q).1 hpq).2 c
  obtain ⟨halone, halone', _⟩ :=
    (searchMatch_of_respelled xs xs').2 _ _ _ hruns c (integer 1) []
  exact ⟨hpq, hresult, by rw [← hsame, ← hresult], hruns, halone, halone'⟩

/-- Held as a whole pattern, the run asks for `Sequence[1]` again in the first spelling, and for `1`
in the second. -/
theorem not_matches_of_respelled_held :
    let xs := call "NamedBlankSequence" [symbol "x"]
    let xs' := call "Pattern" [symbol "x", call "BlankSequence" []]
    let t := call "f" [integer 1, integer 1]
    SpellsRun "x" [] 1 xs xs'
      ∧ (call "f" [xs, call "HoldPattern" [xs]]).matches? .empty t
        = some [("x", call "Sequence" [integer 1])]
      ∧ (call "f" [xs', call "HoldPattern" [xs']]).matches? .empty t = none :=
  ⟨.blankSequence _ _ _, rfl, rfl⟩

end Term

end TermRewriting
