import Mathlib.Data.List.Nodup
import TermRewriting.Proofs.Pattern.InPlaceSearch
import TermRewriting.Proofs.Replacement
import TermRewriting.Proofs.Selection.Cursor
import TermRewriting.Replacement.InPlace

/-!
# Which arguments the components take

Components fit at a tuple of places if they match the elements there one after another
(`FitsAt`). Of the tuples at which they fit the replacement uses the lexicographically least one,
and both ways to look for it come to `firstPlaces`: the choice of elements, which knows nothing of
places (`result_searchComponents_eq`), and the search in place. The latter reaches the tuples with
the cursor (`fst_run_seekTuple`), or for two components with two loops over one set of bindings.
There a trial that fails leaves nothing, so that all second elements are tried with what the first
one bound (`fst_run_seekPair`).
-/

namespace TermRewriting

/-! ## Places -/

/-- The components match the elements at the places in turn, from no bindings on. -/
def FitsAt (table : SymbolTable) (components items : List Term) (t : List Nat) (b : Bindings) :
    Prop :=
  PlaceTuple items.length components.length t
    ∧ MatchInTurn table components (elementsAt items t) [] b

/-- No tuple of places at which the components fit comes before this one. -/
def FitsFirst (table : SymbolTable) (components items : List Term) (t : List Nat) (b : Bindings) :
    Prop :=
  FitsAt table components items t b
    ∧ ∀ t' b', FitsAt table components items t' b' → t' = t ∨ List.Lex (· < ·) t t'

/-- The first places whose elements the matchers accept in turn. -/
def firstPlaces (matchers : List Matcher) (items : List Term) : Option Placement :=
  ((selections matchers.length (List.range items.length)).map Prod.fst).findSome? fun t =>
    (matchEach matchers (elementsAt items t) []).result.map (t, ·)

theorem findSome?_congr {α β : Type} {l : List α} {f g : α → Option β} (h : ∀ a ∈ l, f a = g a) :
    l.findSome? f = l.findSome? g := by
  induction l with
  | nil => rfl
  | cons a l ih =>
    rw [List.findSome?_cons, List.findSome?_cons, h a List.mem_cons_self,
      ih fun b hb => h b (List.mem_cons_of_mem _ hb)]

/-- In a sorted list, the first tuple with a result is the least one. -/
theorem findSome?_eq_some_iff_least {β : Type} {ts : List (List Nat)}
    (hts : ts.Pairwise (List.Lex (· < ·))) {f : List Nat → Option β} {t : List Nat} {b : β} :
    (ts.findSome? fun t => (f t).map (t, ·)) = some (t, b)
      ↔ t ∈ ts ∧ f t = some b
        ∧ ∀ t' ∈ ts, ∀ b', f t' = some b' → t' = t ∨ List.Lex (· < ·) t t' := by
  constructor
  · intro h
    obtain ⟨before, u, after, rfl, hu, hbefore⟩ := List.findSome?_eq_some_iff.mp h
    obtain ⟨c, hc, hpair⟩ := Option.map_eq_some_iff.mp hu
    obtain ⟨rfl, rfl⟩ := Prod.mk.inj hpair
    refine ⟨by simp, hc, fun t' ht' b' hb' => ?_⟩
    obtain ⟨_, hafter, _⟩ := List.pairwise_append.mp hts
    rcases List.mem_append.mp ht' with hin | hin
    · have hnone := hbefore t' hin
      rw [hb'] at hnone
      cases hnone
    · rcases List.mem_cons.mp hin with rfl | hin
      · exact .inl rfl
      · exact .inr (List.rel_of_pairwise_cons hafter hin)
  · rintro ⟨hmem, hb, hleast⟩
    obtain ⟨before, after, rfl⟩ := List.append_of_mem hmem
    refine List.findSome?_eq_some_iff.mpr ⟨before, t, after, rfl, by rw [hb]; rfl, ?_⟩
    intro u hu
    obtain ⟨_, _, hsorted⟩ := List.pairwise_append.mp hts
    have hlt : List.Lex (· < ·) u t := hsorted u hu t List.mem_cons_self
    refine Option.map_eq_none_iff.mpr (Option.eq_none_iff_forall_ne_some.mpr fun c hc => ?_)
    rcases hleast u (List.mem_append_left _ hu) c hc with rfl | hgt
    · exact List.lex_irrefl Nat.lt_irrefl _ hlt
    · exact @List.lt_asymm Nat _ _ _ _ hlt hgt

theorem fitsAt_iff {table : SymbolTable} {components items : List Term} {t : List Nat}
    {b : Bindings} :
    FitsAt table components items t b
      ↔ t ∈ (selections components.length (List.range items.length)).map Prod.fst
        ∧ (matchEach (componentMatchers table components) (elementsAt items t) []).result
          = some b := by
  rw [mem_map_fst_selections_range, FitsAt]
  refine and_congr_right fun ht => (result_matchEach_eq_some ?_).symm
  rw [length_elementsAt ht.2.2, ht.1]

theorem length_componentMatchers (table : SymbolTable) (components : List Term) :
    (componentMatchers table components).length = components.length := List.length_map _

theorem firstPlaces_eq_some_iff {table : SymbolTable} {components items : List Term}
    {t : List Nat} {b : Bindings} :
    firstPlaces (componentMatchers table components) items = some (t, b)
      ↔ FitsFirst table components items t b := by
  rw [firstPlaces, findSome?_eq_some_iff_least (pairwise_selections _ List.pairwise_lt_range),
    length_componentMatchers, FitsFirst]
  simp only [fitsAt_iff, and_assoc, and_imp]
  exact and_congr_right fun _ => and_congr_right fun _ => forall_congr' fun t' => forall_comm

/-- Where components fit at all there are first places. -/
theorem firstPlaces_isSome_iff {table : SymbolTable} {components items : List Term} :
    (firstPlaces (componentMatchers table components) items).isSome
      ↔ ∃ t b, FitsAt table components items t b := by
  rw [firstPlaces, List.findSome?_isSome_iff, length_componentMatchers]
  simp only [fitsAt_iff, Option.isSome_map, Option.isSome_iff_exists, exists_and_left]

theorem firstPlaces_eq_none {matchers : List Matcher} {items : List Term}
    (h : items.length < matchers.length) : firstPlaces matchers items = none := by
  rw [firstPlaces, selections_eq_nil (by rwa [List.length_range])]
  rfl

/-- Elements that are chosen by their places leave the others. -/
theorem result_searchComponents_eq (matchers : List Matcher) (items : List Term) :
    (searchComponents matchers items).result
      = (firstPlaces matchers items).map fun p => (p.2, elementsElsewhere items p.1) := by
  rw [result_searchComponents, Search.result_firstSelection, selections_eq_map_range, firstPlaces,
    List.findSome?_map, List.findSome?_map, List.map_findSome?]
  refine findSome?_congr fun s hs => ?_
  obtain ⟨_, _, _, hrest⟩ := (mem_selections_iff List.nodup_range).mp hs
  simp only [Function.comp_apply, Search.result_andThen, hrest, elementsAt_others]
  cases (matchEach matchers (elementsAt items s.1) []).result <;> rfl

/-! ## In place -/

section

variable {ω : Type}

theorem run_seekOther_cons (one : Trial ω) (taken : Nat) (p : Term × Nat) (rest : List (Term × Nat))
    (s : Bindings × ω) :
    seekOther one taken (p :: rest) s
      = if p.2 = taken then seekOther one taken rest s
        else if (one p.1 s).1 = true then (some p.2, (one p.1 s).2)
        else seekOther one taken rest (one p.1 s).2 := by
  rw [seekOther]
  split
  · rfl
  · show (match one p.1 s with
      | (ok, s') => (if ok then pure (some p.2) else seekOther one taken rest :
          Attempt ω (Option Nat)) s') = _
    obtain ⟨_ | _, s'⟩ := one p.1 s
    · rfl
    · rfl

theorem run_seekPair_cons (first second : Trial ω) (items : List Term) (p : Term × Nat)
    (rest : List (Term × Nat)) (memory : ω) :
    seekPair first second items (p :: rest) memory
      = match (if (first p.1 ([], memory)).1 = true then
            seekOther second p.2 items.zipIdx (first p.1 ([], memory)).2
          else (none, (first p.1 ([], memory)).2)) with
        | (some other, (b, memory)) => (some ([p.2, other], b), memory)
        | (none, (_, memory)) => seekPair first second items rest memory := by
  rw [seekPair]
  simp only [Attempt.fromNothing, StateT.run, bind, StateT.bind, pure]
  obtain ⟨_ | _, b, memory'⟩ := first p.1 ([], memory)
  · rfl
  · simp only [if_true]
    obtain ⟨_ | other, c, memory''⟩ := seekOther second p.2 items.zipIdx (b, memory')
    · rfl
    · rfl

theorem run_seekTuple_succ (trials : List (Trial ω)) (items : List Term) (count : Nat) (c : Cursor)
    (memory : ω) :
    seekTuple trials items (count + 1) (some c) memory
      = match assignEach trials (elementsAt items c.tuple) ([], memory) with
        | (true, (b, memory)) => (some (c.tuple, b), memory)
        | (false, (_, memory)) => seekTuple trials items count c.next? memory := by
  rw [seekTuple]
  simp only [Attempt.fromNothing, StateT.run, bind, StateT.bind, pure]
  obtain ⟨_ | _, b, memory'⟩ := assignEach trials (elementsAt items c.tuple) ([], memory)
  · rfl
  · rfl

end

/-- The first of the places other than `taken` whose element the matcher accepts, and what is bound
then. -/
def otherPlace? (matcher : Matcher) (taken : Nat) (b : Bindings) (placed : List (Term × Nat)) :
    Option (Nat × Bindings) :=
  placed.findSome? fun q => if q.2 = taken then none else (matcher q.1 b).result.map (q.2, ·)

section

variable {first second : Trial (List Question)} {firstMatcher secondMatcher : Matcher}

/-- What is bound when a place is found has been bound by its trial alone. -/
theorem run_seekOther (hsecond : second.Implements secondMatcher) (taken : Nat)
    (placed : List (Term × Nat)) (b : Bindings) (asked : List Question) :
    (seekOther second taken placed (b, asked)).1
        = (otherPlace? secondMatcher taken b placed).map Prod.fst
      ∧ (seekOther second taken placed (b, asked)).2.1
        = ((otherPlace? secondMatcher taken b placed).map Prod.snd).getD b := by
  induction placed generalizing asked with
  | nil => exact ⟨rfl, rfl⟩
  | cons q placed ih =>
    rw [run_seekOther_cons, otherPlace?, List.findSome?_cons, (hsecond q.1).eq b asked]
    by_cases htaken : q.2 = taken
    · simp only [if_pos htaken]
      exact ih asked
    · simp only [if_neg htaken]
      cases (secondMatcher q.1 b).result with
      | none => exact ih _
      | some c => exact ⟨rfl, rfl⟩

theorem fst_run_seekPair (hfirst : first.Implements firstMatcher)
    (hsecond : second.Implements secondMatcher) (items : List Term) (placed : List (Term × Nat))
    (asked : List Question) :
    (seekPair first second items placed asked).1
      = placed.findSome? fun p => (firstMatcher p.1 []).result.bind fun b =>
          (otherPlace? secondMatcher p.2 b items.zipIdx).map fun q => ([p.2, q.1], q.2) := by
  induction placed generalizing asked with
  | nil => rfl
  | cons p placed ih =>
    rw [run_seekPair_cons, List.findSome?_cons, (hfirst p.1).eq [] asked]
    cases (firstMatcher p.1 []).result with
    | none => exact ih _
    | some b =>
      obtain ⟨hplace, hbound⟩ :=
        run_seekOther hsecond p.2 items.zipIdx b (asked ++ (firstMatcher p.1 []).asked)
      simp only [Option.isSome_some, Option.getD_some, if_true, Option.bind_some]
      revert hplace hbound
      generalize seekOther second p.2 items.zipIdx (b, asked ++ (firstMatcher p.1 []).asked) = run
      obtain ⟨place, c, asked'⟩ := run
      cases otherPlace? secondMatcher p.2 b items.zipIdx with
      | none =>
        rintro rfl rfl
        exact ih _
      | some q =>
        rintro rfl rfl
        rfl

theorem fst_run_seekTuple {trials : List (Trial (List Question))} {matchers : List Matcher}
    (h : List.Forall₂ Trial.Implements trials matchers) (items : List Term)
    {start last : Option Cursor} {ts : List (List Nat)} (hpasses : Cursor.Passes start ts last)
    (hlast : last = none) {count : Nat} (hcount : ts.length ≤ count) (asked : List Question) :
    (seekTuple trials items count start asked).1
      = ts.findSome? fun t => (matchEach matchers (elementsAt items t) []).result.map (t, ·) := by
  induction hpasses generalizing count asked with
  | nil c =>
    subst hlast
    cases count <;> rfl
  | @cons c ts last _ ih =>
    cases count with
    | zero => cases hcount
    | succ count =>
      have hrest := ih hlast (Nat.le_of_succ_le_succ hcount)
      have hfollows := follows_assignEach h (elementsAt items c.tuple)
      rw [run_seekTuple_succ, List.findSome?_cons]
      cases hresult : (matchEach matchers (elementsAt items c.tuple) []).result with
      | none =>
        obtain ⟨hfails, -⟩ := hfollows.fails [] asked hresult
        revert hfails
        generalize assignEach trials (elementsAt items c.tuple) ([], asked) = run
        obtain ⟨ok, b, asked'⟩ := run
        rintro rfl
        exact hrest asked'
      | some b =>
        rw [hfollows.succeeds [] asked b hresult]
        rfl

end

/-! ## Pairs -/

theorem firstPlaces_eq_zipIdx (matchers : List Matcher) (items : List Term) :
    firstPlaces matchers items
      = (selections matchers.length items.zipIdx).findSome? fun s =>
          (matchEach matchers (s.1.map Prod.fst) []).result.map (s.1.map Prod.snd, ·) := by
  rw [firstPlaces, ← map_snd_zipIdx, selections_map, List.map_map, List.findSome?_map]
  refine findSome?_congr fun s hs => ?_
  have hsub : s.1 ⊆ items.zipIdx := fun p hp =>
    (selections_perm hs).subset (List.mem_append_left _ hp)
  simp only [Function.comp_apply, elementsAt_map_snd hsub]

theorem findSome?_filter {α β : Type} (p : α → Bool) (f : α → Option β) (l : List α) :
    (l.filter p).findSome? f = l.findSome? fun a => if p a = true then f a else none := by
  induction l with
  | nil => rfl
  | cons a l ih =>
    rw [List.filter_cons, List.findSome?_cons, ← ih]
    by_cases hp : p a = true
    · rw [if_pos hp, if_pos hp, List.findSome?_cons]
    · rw [if_neg hp, if_neg hp]

theorem firstPlaces_pair (first second : Matcher) (items : List Term) :
    firstPlaces [first, second] items
      = items.zipIdx.findSome? fun p => (first p.1 []).result.bind fun b =>
          (otherPlace? second p.2 b items.zipIdx).map fun q => ([p.2, q.1], q.2) := by
  classical
  have hplaces : (items.zipIdx.map Prod.snd).Nodup := map_snd_zipIdx items ▸ List.nodup_range
  have hnodup : items.zipIdx.Nodup := List.Nodup.of_map Prod.snd hplaces
  rw [firstPlaces_eq_zipIdx, List.length_cons, List.length_singleton, selections,
    Search.findSome?_flatMap, pickOne_eq_map hnodup, List.findSome?_map]
  refine findSome?_congr fun p hp => ?_
  rw [Function.comp_apply, selections, List.findSome?_map, Search.findSome?_flatMap,
    pickOne_eq_map (hnodup.filter _), List.findSome?_map, findSome?_filter]
  cases hfirst : (first p.1 []).result with
  | none =>
    -- without the first place there is no second
    refine List.findSome?_eq_none_iff.mpr fun q _ => ?_
    simp [selections, matchEach, hfirst]
  | some b =>
    rw [Option.bind_some, otherPlace?, List.map_findSome?]
    refine findSome?_congr fun q hq => ?_
    by_cases hqp : q.2 = p.2
    · have hsame : q = p := List.inj_on_of_nodup_map hplaces hq hp hqp
      simp [hsame]
    · have hother : q ≠ p := fun h => hqp (congrArg Prod.snd h)
      simp [selections, matchEach, hfirst, hqp, hother, Function.comp_def]

/-! ## The replacement -/

section

variable (table : SymbolTable)

theorem implements_components (components : List Term) :
    List.Forall₂ Trial.Implements (components.map (Term.matchInto table ({} : Oracle).hooks))
      (componentMatchers table components) := by
  induction components with
  | nil => exact .nil
  | cons p components ih => exact .cons (Pattern.implements_trial table {} (.ofTerm p)) ih

theorem fst_run_seekTuple_start {trials : List (Trial (List Question))} {matchers : List Matcher}
    (h : List.Forall₂ Trial.Implements trials matchers) (items : List Term)
    (asked : List Question) :
    (seekTuple trials items (items.length ^ trials.length)
        (Cursor.start? items.length trials.length) asked).1 = firstPlaces matchers items := by
  rw [h.length_eq, firstPlaces]
  refine fst_run_seekTuple h items (Cursor.passes_start? _ _) rfl ?_ asked
  rw [List.length_map, length_selections, List.length_range]
  exact Nat.descFactorial_le_pow _ _

theorem fst_run_seekPlaces {trials : List (Trial (List Question))} {matchers : List Matcher}
    (h : List.Forall₂ Trial.Implements trials matchers) (items : List Term)
    (asked : List Question) :
    (seekPlaces trials items asked).1 = firstPlaces matchers items := by
  unfold seekPlaces
  split
  · obtain _ | ⟨hfirst, _ | ⟨hsecond, _ | _⟩⟩ := h
    rw [fst_run_seekPair hfirst hsecond, firstPlaces_pair]
  · exact fst_run_seekTuple_start h items asked

variable (components : List Term) (rhs : Term) (items : List Term)

/-- The places that the replacement takes. Without components there is nothing to replace, although
they fit at no places. -/
def takenPlaces : Option Placement :=
  if components.isEmpty then none else firstPlaces (componentMatchers table components) items

variable {table components items} in
theorem takenPlaces_eq_some_iff {t : List Nat} {b : Bindings} :
    takenPlaces table components items = some (t, b)
      ↔ components ≠ [] ∧ FitsFirst table components items t b := by
  unfold takenPlaces
  cases components with
  | nil => simp
  | cons p components => simp [firstPlaces_eq_some_iff]

variable {table components items} in
theorem takenPlaces_isSome_iff :
    (takenPlaces table components items).isSome
      ↔ components ≠ [] ∧ ∃ t b, FitsAt table components items t b := by
  unfold takenPlaces
  cases components with
  | nil => simp
  | cons p components => simp [firstPlaces_isSome_iff]

/-- The replacement does not start to search if there are fewer elements than components; the search
would find nothing. -/
theorem takenPlaces_eq :
    takenPlaces table components items
      = if components.isEmpty || items.length < components.length then none
        else firstPlaces (componentMatchers table components) items := by
  unfold takenPlaces
  by_cases hfew : items.length < components.length
  · rw [firstPlaces_eq_none (by rwa [length_componentMatchers])]
    simp
  · simp [hfew]

theorem value_replaceSome_eq :
    (replaceSome table components rhs items).value
      = (takenPlaces table components items).map fun p =>
          elementsElsewhere items p.1 ++ [rhs.instantiate p.2] := by
  rw [value_replaceSome, takenPlaces_eq, result_searchComponents_eq]
  split
  · rfl
  · rw [Option.map_map]
    rfl

theorem value_replaceSome_isSome_iff :
    (replaceSome table components rhs items).value.isSome
      ↔ components ≠ [] ∧ ∃ t b, FitsAt table components items t b := by
  rw [value_replaceSome_eq, Option.isSome_map, takenPlaces_isSome_iff]

variable {table components rhs items} in
theorem value_replaceSome_eq_some_iff {new : List Term} :
    (replaceSome table components rhs items).value = some new
      ↔ components ≠ [] ∧ ∃ t b, FitsFirst table components items t b
          ∧ new = elementsElsewhere items t ++ [rhs.instantiate b] := by
  rw [value_replaceSome_eq, Option.map_eq_some_iff]
  constructor
  · rintro ⟨⟨t, b⟩, htaken, rfl⟩
    obtain ⟨hne, hfirst⟩ := takenPlaces_eq_some_iff.mp htaken
    exact ⟨hne, t, b, hfirst, rfl⟩
  · rintro ⟨hne, t, b, hfirst, rfl⟩
    exact ⟨(t, b), takenPlaces_eq_some_iff.mpr ⟨hne, hfirst⟩, rfl⟩

/-- In place the new list takes the place of the old one, if there is a new one. -/
theorem fst_run_replaceSomeInPlace (asked : List Question) :
    (replaceSomeInPlace table ({} : Oracle).hooks components rhs items asked).1
      = ((replaceSome table components rhs items).value.isSome,
          (replaceSome table components rhs items).value.getD items) := by
  rw [value_replaceSome_eq, takenPlaces_eq, replaceSomeInPlace]
  split
  · rfl
  · rw [← fst_run_seekPlaces (implements_components table components) items asked]
    simp only [bind, StateT.bind]
    obtain ⟨_ | ⟨t, b⟩, asked'⟩ :=
      seekPlaces (components.map (Term.matchInto table ({} : Oracle).hooks)) items asked
    · rfl
    · rfl

/-- **The replacement takes the first places at which the components fit.** It succeeds exactly if
they fit at some tuple of different places. Then it takes the elements at the lexicographically
least such tuple out of the list, leaves the others in their order, and appends the instance of the
right-hand side under what was bound at these places. Otherwise the list stays as it is. For two
components the loops over pairs find what the search through the tuples finds. -/
theorem replacement_takes_first (asked : List Question) :
    let run := (replaceSomeInPlace table ({} : Oracle).hooks components rhs items asked).1
    (run.1 = true ↔ components ≠ [] ∧ ∃ t b, FitsAt table components items t b)
      ∧ (∀ new, run = (true, new) ↔ components ≠ [] ∧ ∃ t b,
          FitsFirst table components items t b
            ∧ new = elementsElsewhere items t ++ [rhs.instantiate b])
      ∧ (∀ t, PlaceTuple items.length components.length t →
          (elementsAt items t ++ elementsElsewhere items t).Perm items)
      ∧ (run.1 = false → run.2 = items)
      ∧ (components = [] ∨ items.length < components.length → run = (false, items))
      ∧ (replaceSome table components rhs items).value = (if run.1 then some run.2 else none)
      ∧ ∀ first second, components = [first, second] →
          let trial := Term.matchInto table ({} : Oracle).hooks
          (seekPair (trial first) (trial second) items items.zipIdx asked).1
            = (seekTuple [trial first, trial second] items (items.length ^ 2)
                (Cursor.start? items.length 2) asked).1 := by
  intro run
  have hrun : run = ((replaceSome table components rhs items).value.isSome,
      (replaceSome table components rhs items).value.getD items) :=
    fst_run_replaceSomeInPlace table components rhs items asked
  refine ⟨?succeeds, ?new, ?parts, ?unchanged, ?few, ?value, ?pair⟩
  case succeeds =>
    rw [hrun]
    exact value_replaceSome_isSome_iff table components rhs items
  case new =>
    intro new
    rw [← value_replaceSome_eq_some_iff, hrun]
    cases (replaceSome table components rhs items).value <;> simp
  case parts => exact fun t ht => elementsAt_append_perm ht.2.1 ht.2.2
  case unchanged =>
    rw [hrun]
    cases (replaceSome table components rhs items).value <;> simp
  case few =>
    intro hfew
    rw [hrun, value_replaceSome_eq, takenPlaces_eq, if_pos (by simpa using hfew)]
    rfl
  case value =>
    rw [hrun]
    cases (replaceSome table components rhs items).value <;> rfl
  case pair =>
    rintro first second rfl
    have himplements := implements_components table [first, second]
    exact (fst_run_seekPlaces himplements items asked).trans
      (fst_run_seekTuple_start himplements items asked).symm

example :
    let x := Term.call "NamedBlank" [.symbol "x"]
    (replaceSomeInPlace .empty ({} : Oracle).hooks [x, x] (.call "twice" [.symbol "x"])
        [.integer 1, .integer 2, .integer 1, .integer 2] []).1
      = (true, [.integer 2, .integer 2, .call "twice" [.integer 1]]) := by
  rfl

end

end TermRewriting
