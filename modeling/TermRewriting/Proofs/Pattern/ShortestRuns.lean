import TermRewriting.Proofs.Pattern.FirstOrder

/-!
# The shortest runs

Arguments that are runs or first-order patterns take the items of a list in turn, an ordinary
argument one of them and a run as many as its length says (`Term.FitsRuns`). So the lengths settle
what every name is used for (`Term.FitsRuns.unique`). Matching in order finds lengths under which
all uses of a name agree whenever there are such lengths, and of all of them it takes those that
come first lexicographically (`Term.matchInOrder_shortest`).

The search tries the lengths of a run from the least on, up to what the later arguments leave. That
bound loses nothing, since no later argument takes fewer items than it needs. And what is bound
under a length that fails is not kept, so a longer run starts from the same bindings.
-/

namespace TermRewriting

/-- What the name of a run is used for. -/
def RunSpec.uses (spec : RunSpec) (items : List Term) : List (String × Term) :=
  spec.name.toList.map fun name => (name, .call "Sequence" items)

theorem matchRun_eq_some_iff {spec : RunSpec} {items : List Term} {b d : Bindings} :
    (spec.matchRun items b).result = some d
      ↔ spec.least ≤ items.length ∧ items.all (Term.hasOptionalType spec.type) = true
        ∧ b.bindAll? (spec.uses items) = some d := by
  constructor
  · intro h
    obtain ⟨hleast, htype, hbind⟩ := matchRun_eq_some h
    refine ⟨hleast, htype, ?_⟩
    rw [RunSpec.uses]
    cases hname : spec.name with
    | none =>
      rw [hname] at hbind
      exact congrArg some hbind.symm
    | some name =>
      rw [hname] at hbind
      exact (Bindings.bindAll?_singleton ..).trans hbind
  · rintro ⟨hleast, htype, hbind⟩
    rw [RunSpec.matchRun, htype, decide_eq_true hleast]
    rw [RunSpec.uses] at hbind
    cases hname : spec.name with
    | none =>
      rw [hname] at hbind
      exact hbind
    | some name =>
      rw [hname] at hbind
      exact (Bindings.bindAll?_singleton ..).symm.trans hbind

/-- A search through lengths yields what the least length yields that does not fail. -/
theorem exists_least_of_firstOf {α : Type} {low high : Nat} {attempt : Nat → Search α} {a : α}
    (h : (Search.firstOf (lengthsBetween low high) attempt).result = some a) :
    ∃ k, low ≤ k ∧ k ≤ high ∧ (attempt k).result = some a ∧
      ∀ j ∈ lengthsBetween low high, j < k → (attempt j).result = none := by
  rw [Search.result_firstOf, List.findSome?_eq_some_iff] at h
  obtain ⟨shorter, k, longer, hsplit, hk, hfail⟩ := h
  have hsorted : (shorter ++ k :: longer).Pairwise (· < ·) :=
    hsplit ▸ List.pairwise_lt_range'
  have hbound : k ∈ lengthsBetween low high := hsplit ▸ by simp
  rw [lengthsBetween, List.mem_range'_1] at hbound
  refine ⟨k, hbound.1, by omega, hk, fun j hj hlt => hfail j ?_⟩
  rw [hsplit, List.mem_append, List.mem_cons] at hj
  obtain hj | rfl | hj := hj
  · exact hj
  · exact absurd hlt (Nat.lt_irrefl j)
  · have hlater := (List.pairwise_cons.mp (List.pairwise_append.mp hsorted).2.1).1 j hj
    omega

/-- Among lists whose first length is no less, those with the same one decide which comes first. -/
theorem lex_cons_of_least {k j : Nat} {ks js : List Nat} (hleast : ¬j < k)
    (h : j = k → js = ks ∨ List.Lex (· < ·) ks js) :
    j :: js = k :: ks ∨ List.Lex (· < ·) (k :: ks) (j :: js) := by
  obtain hlt | rfl | hgt := Nat.lt_trichotomy j k
  · exact absurd hlt hleast
  · exact (h rfl).imp (congrArg _) .cons
  · exact .inr (.rel hgt)

namespace Term

/-! ## Lengths of runs -/

/-- The arguments fit the items if they take as many in turn as the lengths say, an ordinary
argument one of its own shape, a run no fewer than it needs and all of its type. `uses` lists the
names from left to right, each with what it stands for. -/
inductive FitsRuns : List Term → List Term → List Nat → List (String × Term) → Prop where
  | nil : FitsRuns [] [] [] []
  | one {a t : Term} {as ts : List Term} {lengths : List Nat} {uses uses' : List (String × Term)} :
      Fits a t uses → FitsRuns as ts lengths uses' →
      FitsRuns (a :: as) (t :: ts) (1 :: lengths) (uses ++ uses')
  | run {a : Term} {spec : RunSpec} {items as ts : List Term} {lengths : List Nat}
      {uses : List (String × Term)} : a.IsRun spec → spec.least ≤ items.length →
      items.all (hasOptionalType spec.type) = true → FitsRuns as ts lengths uses →
      FitsRuns (a :: as) (items ++ ts) (items.length :: lengths) (spec.uses items ++ uses)

theorem Fits.isVariadic {a t : Term} {uses : List (String × Term)} (h : a.Fits t uses) :
    a.isVariadic = false := by
  cases h with
  | atom a => rfl
  | blank type marks _ => rfl
  | namedBlank name type marks _ => rfl
  | compound marks marks' hname _ =>
    exact isVariadic_of_isCompound (isCompound_of_not_patternHead hname _)

/-- There is a length for every argument, and together they are as long as the list. -/
theorem FitsRuns.lengths {args items : List Term} {lengths : List Nat}
    {uses : List (String × Term)} (h : FitsRuns args items lengths uses) :
    lengths.length = args.length ∧ lengths.sum = items.length := by
  induction h with
  | nil => exact ⟨rfl, rfl⟩
  | one _ _ ih => simp [ih, Nat.add_comm]
  | run _ _ _ _ ih => simp [ih]

section

variable {c : MatchContext} {args items : List Term} {lengths : List Nat}
  {uses : List (String × Term)} {b d : Bindings}

/-- Later arguments find the items that they need at least. -/
theorem FitsRuns.leastArgs_le (h : FitsRuns args items lengths uses) :
    leastArgs (args.map (slot c)) ≤ items.length := by
  induction h with
  | nil => exact Nat.le_refl 0
  | one hone _ ih =>
    rw [List.map_cons, slot_of_single hone.isVariadic, leastArgs, List.length_cons]
    omega
  | run hrun hleast _ _ ih =>
    rw [List.map_cons, slot_of_run hrun.ofTerm?, leastArgs, List.length_append]
    omega

/-- The length of a run is among those that are tried. -/
theorem mem_lengthsBetween {spec : RunSpec} {run ts : List Term} (hleast : spec.least ≤ run.length)
    (hrest : FitsRuns args ts lengths uses) :
    run.length ∈ lengthsBetween spec.least
      ((run ++ ts).length - leastArgs (args.map (slot c))) := by
  have hlater := hrest.leastArgs_le (c := c)
  rw [lengthsBetween, List.mem_range'_1, List.length_append]
  omega

/-- An ordinary argument takes one item. -/
theorem FitsRuns.of_single {a : Term} (hsingle : a.isVariadic = false)
    (h : FitsRuns (a :: args) items lengths uses) :
    ∃ t ts lengths' first others, items = t :: ts ∧ lengths = 1 :: lengths'
      ∧ uses = first ++ others ∧ Fits a t first ∧ FitsRuns args ts lengths' others := by
  cases h with
  | one hone hrest => exact ⟨_, _, _, _, _, rfl, rfl, rfl, hone, hrest⟩
  | run hrun _ _ _ =>
    rw [hrun.isVariadic] at hsingle
    cases hsingle

/-- A run takes as many items as the first length says. -/
theorem FitsRuns.of_run {a : Term} {spec : RunSpec} (hrun : a.IsRun spec)
    (h : FitsRuns (a :: args) items lengths uses) :
    ∃ run ts lengths' others, items = run ++ ts ∧ lengths = run.length :: lengths'
      ∧ uses = spec.uses run ++ others ∧ spec.least ≤ run.length
      ∧ run.all (hasOptionalType spec.type) = true ∧ FitsRuns args ts lengths' others := by
  cases h with
  | one hone _ =>
    have hsingle := hone.isVariadic
    rw [hrun.isVariadic] at hsingle
    cases hsingle
  | run hrun' hleast htype hrest =>
    obtain rfl := Option.some.inj (hrun'.ofTerm?.symm.trans hrun.ofTerm?)
    exact ⟨_, _, _, _, rfl, rfl, rfl, hleast, htype, hrest⟩

/-- The lengths settle what every name is used for. -/
theorem FitsRuns.unique {uses' : List (String × Term)} (h : FitsRuns args items lengths uses)
    (h' : FitsRuns args items lengths uses') : uses = uses' := by
  induction h generalizing uses' with
  | nil =>
    cases h'
    rfl
  | one hone _ ih =>
    obtain ⟨_, _, _, _, _, heq, hlengths, rfl, hone', hrest'⟩ := h'.of_single hone.isVariadic
    cases heq
    cases hlengths
    rw [hone.unique hone', ih hrest']
  | run hrun _ _ _ ih =>
    obtain ⟨_, _, _, _, hitems, hlengths, rfl, _, _, hrest'⟩ := h'.of_run hrun
    obtain ⟨hlength, rfl⟩ := List.cons_eq_cons.mp hlengths
    obtain ⟨rfl, rfl⟩ := List.append_inj hitems hlength
    rw [ih hrest']

/-- An ordinary argument is a first-order pattern. -/
theorem bindsUses_of_single {a : Term} (ha : (∃ spec, a.IsRun spec) ∨ a.FirstOrder c.table)
    (hsingle : a.isVariadic = false) : a.BindsUses c := by
  obtain ⟨spec, hrun⟩ | hfirstOrder := ha
  · rw [hrun.isVariadic] at hsingle
    cases hsingle
  · exact hfirstOrder.bindsUses

/-- **Lengths that fit are not missed.** -/
theorem FitsRuns.exists_matchInOrder
    (hargs : ∀ a ∈ args, (∃ spec, a.IsRun spec) ∨ a.FirstOrder c.table)
    (h : FitsRuns args items lengths uses) (haccepts : b.Accepts uses) :
    ∃ d, (matchInOrder (args.map (slot c)) items b).result = some d := by
  induction h generalizing b with
  | nil => exact ⟨b, rfl⟩
  | @one a t as ts lengths uses uses' hone hrest ih =>
    obtain ⟨ha, has⟩ := List.forall_mem_cons.mp hargs
    obtain ⟨b₁, hbind, haccepts⟩ := Bindings.accepts_append.mp haccepts
    obtain ⟨d, hothers⟩ := ih has haccepts
    have hmatch := (bindsUses_of_single ha hone.isVariadic).mpr ⟨uses, hone, hbind⟩
    rw [List.map_cons, slot_of_single hone.isVariadic]
    exact ⟨d, Search.andThen_eq_some.mpr ⟨b₁, hmatch, hothers⟩⟩
  | @run a spec run as ts lengths uses hrun hleast htype hrest ih =>
    obtain ⟨_, has⟩ := List.forall_mem_cons.mp hargs
    obtain ⟨b₁, hbind, haccepts⟩ := Bindings.accepts_append.mp haccepts
    obtain ⟨d, hothers⟩ := ih has haccepts
    have hmatch := matchRun_eq_some_iff.mpr ⟨hleast, htype, hbind⟩
    rw [← @List.take_left _ run ts] at hmatch
    rw [← @List.drop_left _ run ts] at hothers
    rw [List.map_cons, slot_of_run hrun.ofTerm?]
    exact Search.exists_firstOf (mem_lengthsBetween hleast hrest)
      (Search.andThen_eq_some.mpr ⟨b₁, hmatch, hothers⟩)

/-! ## The shortest runs -/

/-- The lengths come first among those that fit with uses that are accepted. -/
def Shortest (b : Bindings) (args items : List Term) (lengths : List Nat) : Prop :=
  ∀ ⦃lengths' uses'⦄, FitsRuns args items lengths' uses' → b.Accepts uses' →
    lengths' = lengths ∨ List.Lex (· < ·) lengths lengths'

/-- An ordinary argument leaves no choice, so the lengths of the others decide. -/
theorem Shortest.one {a t : Term} {as ts : List Term} {b₁ : Bindings} (ha : a.BindsUses c)
    (hsingle : a.isVariadic = false) (hmatch : (a.searchMatch c t b).result = some b₁)
    (h : Shortest b₁ as ts lengths) : Shortest b (a :: as) (t :: ts) (1 :: lengths) := by
  intro lengths' uses' hfits haccepts
  obtain ⟨_, _, lengths', first, others, heq, rfl, rfl, hone, hrest⟩ := hfits.of_single hsingle
  obtain ⟨rfl, rfl⟩ := List.cons_eq_cons.mp heq
  obtain ⟨b₂, hbind, haccepts⟩ := Bindings.accepts_append.mp haccepts
  obtain rfl : b₂ = b₁ := Option.some.inj ((ha.mpr ⟨_, hone, hbind⟩).symm.trans hmatch)
  exact lex_cons_of_least (Nat.lt_irrefl 1) fun _ => h hrest haccepts

/-- If no shorter run goes on to a match, the lengths of the later arguments decide. -/
theorem Shortest.run {a : Term} {spec : RunSpec} {as run rest : List Term} {b₁ : Bindings}
    (has : ∀ a ∈ as, (∃ spec, a.IsRun spec) ∨ a.FirstOrder c.table) (hrun : a.IsRun spec)
    (hmatch : (spec.matchRun run b).result = some b₁)
    (hshorter : ∀ j ∈ lengthsBetween spec.least
        ((run ++ rest).length - leastArgs (as.map (slot c))), j < run.length →
      ((spec.matchRun ((run ++ rest).take j) b).andThen
        (matchInOrder (as.map (slot c)) ((run ++ rest).drop j))).result = none)
    (h : Shortest b₁ as rest lengths) :
    Shortest b (a :: as) (run ++ rest) (run.length :: lengths) := by
  intro lengths' uses' hfits haccepts
  obtain ⟨run', rest', lengths', others, hitems, rfl, rfl, hleast, htype, hrest⟩ :=
    hfits.of_run hrun
  obtain ⟨b₂, hbind, hlater⟩ := Bindings.accepts_append.mp haccepts
  have hmatch' := matchRun_eq_some_iff.mpr ⟨hleast, htype, hbind⟩
  refine lex_cons_of_least (fun hlt => ?_) fun heq => ?_
  · obtain ⟨d, hothers⟩ := hrest.exists_matchInOrder has hlater
    rw [hitems] at hshorter
    have hnone := hshorter _ (mem_lengthsBetween hleast hrest) hlt
    rw [List.take_left, List.drop_left, Search.result_andThen, hmatch', Option.bind_some,
      hothers] at hnone
    cases hnone
  · obtain ⟨rfl, rfl⟩ := List.append_inj hitems heq.symm
    obtain rfl : b₂ = b₁ := Option.some.inj (hmatch'.symm.trans hmatch)
    exact h hrest hlater

/-- **The lengths that are taken come first among those that fit.** -/
theorem exists_shortest (hargs : ∀ a ∈ args, (∃ spec, a.IsRun spec) ∨ a.FirstOrder c.table)
    (h : (matchInOrder (args.map (slot c)) items b).result = some d) :
    ∃ lengths uses, FitsRuns args items lengths uses ∧ b.bindAll? uses = some d
      ∧ Shortest b args items lengths := by
  induction args generalizing items b with
  | nil =>
    obtain ⟨hempty, rfl⟩ := Search.require_eq_some h
    rw [List.isEmpty_iff.mp hempty]
    refine ⟨[], [], .nil, rfl, fun lengths' uses' hfits _ => ?_⟩
    cases hfits
    exact .inl rfl
  | cons a as ih =>
    obtain ⟨ha, has⟩ := List.forall_mem_cons.mp hargs
    cases hvariadic : a.isVariadic with
    | true =>
      have hrun : ∃ spec, a.IsRun spec := ha.resolve_right fun hfirstOrder => by
        rw [hfirstOrder.isVariadic] at hvariadic
        cases hvariadic
      obtain ⟨spec, hrun⟩ := hrun
      rw [List.map_cons, slot_of_run hrun.ofTerm?, matchInOrder] at h
      obtain ⟨k, _, hbound, hk, hshorter⟩ := exists_least_of_firstOf h
      obtain ⟨b₁, hmatch, hothers⟩ := Search.andThen_eq_some.mp hk
      -- the items as the run that is taken, and the rest
      obtain ⟨run, rest, rfl, rfl⟩ : ∃ run rest, items = run ++ rest ∧ k = run.length :=
        ⟨items.take k, items.drop k, (List.take_append_drop k items).symm,
          (List.length_take_of_le (by omega)).symm⟩
      rw [List.take_left] at hmatch
      rw [List.drop_left] at hothers
      obtain ⟨hleast, htype, hbind₁⟩ := matchRun_eq_some_iff.mp hmatch
      obtain ⟨lengths, uses, hfits, hbind, hshortest⟩ := ih has hothers
      refine ⟨_, _, .run hrun hleast htype hfits, ?_, hshortest.run has hrun hmatch hshorter⟩
      rw [Bindings.bindAll?_append, hbind₁, Option.bind_some, hbind]
    | false =>
      have hbinds := bindsUses_of_single ha hvariadic
      rw [List.map_cons, slot_of_single hvariadic] at h
      cases items with
      | nil => cases h
      | cons item others =>
        obtain ⟨b₁, hmatch, hothers⟩ := Search.andThen_eq_some.mp h
        obtain ⟨uses, hone, hbind₁⟩ := hbinds.mp hmatch
        obtain ⟨lengths, uses', hfits, hbind, hshortest⟩ := ih has hothers
        refine ⟨_, _, .one hone hfits, ?_, hshortest.one hbinds hvariadic hmatch⟩
        rw [Bindings.bindAll?_append, hbind₁, Option.bind_some, hbind]

/-- A compound pattern under a symbol without attributes matches its arguments in order. -/
theorem result_compound_of_inOrder {name : String} {marks marks' : Marks}
    (hargs : ∀ a ∈ args, (∃ spec, a.IsRun spec) ∨ a.FirstOrder c.table)
    (hcompound : IsCompound (.symbol name) args) (hflat : c.table.isFlat name = false)
    (horderless : c.table.isOrderless name = false) :
    ((Term.app (.symbol name) args marks).searchMatch c
        (.app (.symbol name) items marks') b).result
      = (matchInOrder (args.map (slot c)) items b).result := by
  refine Option.ext fun d => ?_
  rw [searchMatch_compound_eq_some_iff hcompound, matchArgs_of_plain horderless hflat]
  constructor
  · rintro ⟨items', _, heq, _, hmatch⟩
    cases heq
    exact hmatch
  · intro hmatch
    refine ⟨items, marks', rfl, fun hsingle _ => ?_, hmatch⟩
    -- without runs every argument takes one item
    obtain ⟨lengths, uses, hfits, _⟩ := exists_shortest hargs hmatch
    have hall : ∀ a ∈ args, a.isVariadic = false := by simpa using hsingle
    rw [result_matchInOrder_of_single hall] at hmatch
    by_contra hne
    rw [if_neg hne] at hmatch
    cases hmatch

end

/-- **The shortest runs.** Arguments that are runs or first-order patterns are matched in order
exactly if there are lengths under which they fit the items and all uses of a name agree. Of those
lengths the match takes the lexicographically least, and a name that is not bound yet is bound to
its first use. Under a symbol without attributes this is how applications match. -/
theorem matchInOrder_shortest {c : MatchContext} {args : List Term}
    (hargs : ∀ a ∈ args, (∃ spec, a.IsRun spec) ∨ a.FirstOrder c.table) (items : List Term)
    (b : Bindings) :
    ((matchInOrder (args.map (slot c)) items b).result.isSome = true
        ↔ ∃ lengths uses, FitsRuns args items lengths uses ∧ b.Accepts uses)
      ∧ (∀ d, (matchInOrder (args.map (slot c)) items b).result = some d →
          ∃ lengths uses, FitsRuns args items lengths uses ∧ b.Accepts uses
            ∧ (∀ lengths' uses', FitsRuns args items lengths' uses' → b.Accepts uses' →
                lengths' = lengths ∨ List.Lex (· < ·) lengths lengths')
            ∧ ∀ name, d.get? name = Bindings.get? name (b ++ uses))
      ∧ ∀ name marks marks', IsCompound (.symbol name) args → c.table.isFlat name = false →
          c.table.isOrderless name = false →
          ((Term.app (.symbol name) args marks).searchMatch c
              (.app (.symbol name) items marks') b).result
            = (matchInOrder (args.map (slot c)) items b).result := by
  have hshortest {d : Bindings} (h : (matchInOrder (args.map (slot c)) items b).result = some d) :
      ∃ lengths uses, FitsRuns args items lengths uses ∧ b.Accepts uses
        ∧ Shortest b args items lengths
        ∧ ∀ name, d.get? name = Bindings.get? name (b ++ uses) := by
    obtain ⟨lengths, uses, hfits, hbind, hleast⟩ := exists_shortest hargs h
    have haccepts := Bindings.accepts_iff_exists.mpr ⟨d, hbind⟩
    exact ⟨lengths, uses, hfits, haccepts, hleast, Bindings.get?_of_bindAll? hbind⟩
  refine ⟨⟨fun h => ?_, ?_⟩, fun d h => ?_, fun name marks marks' => ?_⟩
  · obtain ⟨d, h⟩ := Option.isSome_iff_exists.mp h
    obtain ⟨lengths, uses, hfits, haccepts, _⟩ := hshortest h
    exact ⟨lengths, uses, hfits, haccepts⟩
  · rintro ⟨lengths, uses, hfits, haccepts⟩
    exact Option.isSome_iff_exists.mpr (hfits.exists_matchInOrder hargs haccepts)
  · obtain ⟨lengths, uses, hfits, haccepts, hleast, hget⟩ := hshortest h
    exact ⟨lengths, uses, hfits, haccepts, fun _ _ => @hleast _ _, hget⟩
  · exact result_compound_of_inOrder hargs

/-- The name that is bound already makes the first run take an item, and the run of the same name
take another one. -/
theorem matchInOrder_shortest_repeated :
    let x := call "NamedBlankNullSequence" [symbol "x"]
    let y := call "NamedBlank" [symbol "y", symbol "Integer"]
    let z := call "NamedBlankSequence" [symbol "z"]
    let c : MatchContext := ⟨.empty, {}⟩
    let items := [integer 1, integer 2, integer 1, call "g" [], integer 2]
    let b : Bindings := [("y", integer 2)]
    let d : Bindings := [("y", integer 2), ("x", call "Sequence" [integer 1]),
      ("z", call "Sequence" [call "g" [], integer 2])]
    (∀ a ∈ [x, y, x, z], (∃ spec, a.IsRun spec) ∨ a.FirstOrder c.table)
      ∧ (matchInOrder ([x, y, x, z].map (slot c)) items b).result = some d
      ∧ ∃ lengths uses, FitsRuns [x, y, x, z] items lengths uses ∧ b.Accepts uses
          ∧ (∀ lengths' uses', FitsRuns [x, y, x, z] items lengths' uses' → b.Accepts uses' →
              lengths' = lengths ∨ List.Lex (· < ·) lengths lengths')
          ∧ ∀ name, d.get? name = Bindings.get? name (b ++ uses) := by
  intro x y z c items b d
  have hx : x.IsRun ⟨0, some "x", none⟩ := .namedBlankNullSequence "x" [] _
  have hz : z.IsRun ⟨1, some "z", none⟩ := .namedBlankSequence "z" [] _
  have hargs : ∀ a ∈ [x, y, x, z], (∃ spec, a.IsRun spec) ∨ a.FirstOrder c.table := by
    simp only [List.forall_mem_cons]
    exact ⟨.inl ⟨_, hx⟩, .inr (.namedBlank "y" _ _), .inl ⟨_, hx⟩, .inl ⟨_, hz⟩, nofun⟩
  have hmatch : (matchInOrder ([x, y, x, z].map (slot c)) items b).result = some d := rfl
  exact ⟨hargs, hmatch, (matchInOrder_shortest hargs items b).2.1 d hmatch⟩

end Term

end TermRewriting
