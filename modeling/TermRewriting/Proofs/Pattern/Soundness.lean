import Mathlib.Data.List.Perm.Basic
import TermRewriting.Proofs.Pattern.Growth
import TermRewriting.Proofs.Term.Equivalence

/-!
# A match gives the term back

A pattern becomes a template when its names stand for themselves (`Term.template`). Instantiated
with the bindings of a match, the template of a reversible pattern is equivalent to the matched
term, and identical to it where nothing is flat or orderless (`Term.equivalent_of_matches?`).

Both statements are one about any tolerant relation. What the arguments of a compound pattern give
back is compared with a rearrangement of the matched arguments first: runs dissolve into the
argument list, groups are flattened, and orderless arguments are put into the order in which they
were picked (`exists_of_matchArgs`).
-/

namespace TermRewriting

namespace Term

/-! ## Templates -/

mutual

/-- The template that a pattern becomes: a named pattern its name; what is held, or subject to a
condition or a test, what it is without. -/
def template : Term → Term
  | .atom a => .atom a
  | .app head args _ =>
    match head.symbolName?.bind PatternHead.ofName?, args with
    | some .namedBlank, name :: _ => name
    | some (.namedRun _), name :: _ => name
    | some .named, [name, _] => name
    | some .hold, inner :: _ => inner.template
    | some .condition, [inner, _] => inner.template
    | some .test, [inner, _] => inner.template
    | _, args => apply head.template (templates args)

def templates : List Term → List Term
  | [] => []
  | a :: as => a.template :: templates as

end

theorem templates_eq_map (args : List Term) : templates args = args.map template := by
  induction args with
  | nil => rfl
  | cons a as ih => rw [templates, ih, List.map_cons]

/-- What arguments become when the names in them are replaced and the runs dissolve. -/
def restored (d : Bindings) (args : List Term) : List Term :=
  spliced "Sequence" (args.map fun a => a.template.instantiate d)

theorem instantiate_apply (d : Bindings) (head : Term) (args : List Term) :
    (apply head.template (templates args)).instantiate d
      = apply (head.template.instantiate d) (restored d args) := by
  rw [instantiate, instantiateAll_eq_map, templates_eq_map, List.map_map]
  rfl

theorem restored_cons (d : Bindings) (a : Term) (as : List Term) :
    restored d (a :: as)
      = ((a.template.instantiate d).callArgs? "Sequence").getD [a.template.instantiate d]
        ++ restored d as := rfl

theorem restored_append (d : Bindings) (as bs : List Term) :
    restored d (as ++ bs) = restored d as ++ restored d bs := by
  rw [restored, List.map_append, spliced_append]
  rfl

theorem restored_perm (d : Bindings) {as bs : List Term} (h : as.Perm bs) :
    (restored d as).Perm (restored d bs) := (h.map _).flatMap_right _

/-! ## Reversible patterns -/

/-- The name of the run that a term describes as an argument. -/
def namedRun? (a : Term) : Option String := (RunSpec.ofTerm? a).bind RunSpec.name

/-- Whether an application reads as a compound pattern: its head is no pattern head, or it has not
the arguments that the pattern head asks for. -/
def IsCompound (head : Term) (args : List Term) : Prop :=
  (head.symbolName?.bind PatternHead.ofName?).bind
    (Pattern.ofPatternHead? args (Pattern.ofTerms args)) = none

/-- Every part of the pattern that is matched has a name or is literal, and no literal symbol is one
of `names`. Runs stand only as arguments, where they have names. -/
inductive Reversible (names : List String) : Term → Prop where
  | atom (a : Atom) : (∀ name, a = .symbol name → name ∉ names) → Reversible names (.atom a)
  | namedBlank (name : String) (rest : List Term) (marks : Marks) :
      Reversible names (.app (.symbol "NamedBlank") (.symbol name :: rest) marks)
  | named (name : String) (inner : Term) (marks : Marks) :
      Reversible names (.app (.symbol "Pattern") [.symbol name, inner] marks)
  | hold {inner : Term} (rest : List Term) (marks : Marks) : Reversible names inner →
      Reversible names (.app (.symbol "HoldPattern") (inner :: rest) marks)
  | condition {inner : Term} (proviso : Term) (marks : Marks) : Reversible names inner →
      Reversible names (.app (.symbol "Condition") [inner, proviso] marks)
  | test {inner : Term} (predicate : Term) (marks : Marks) : Reversible names inner →
      Reversible names (.app (.symbol "PatternTest") [inner, predicate] marks)
  | compound {head : Term} {args : List Term} (marks : Marks) : IsCompound head args →
      Reversible names head → (∀ a ∈ args, a.namedRun? = none → Reversible names a) →
      Reversible names (.app head args marks)

theorem template_of_namedRun? {a : Term} {name : String} (h : a.namedRun? = some name) :
    a.template = .symbol name := by
  obtain ⟨spec, hspec, hname⟩ := Option.bind_eq_some_iff.mp h
  unfold RunSpec.ofTerm? at hspec
  split at hspec
  · next head args marks =>
    split at hspec
    · cases hspec
      cases hname
    · next least hhead =>
      obtain ⟨first, rest, rfl, rfl⟩ := Pattern.exists_of_ofNamedArgs? hspec
      cases hname
      have hspecial : (symbol head).symbolName?.bind PatternHead.ofName?
        = some (.namedRun least) := hhead
      rw [template.eq_def]
      dsimp only
      rw [hspecial]
    · next x inner hhead =>
      obtain ⟨plain, _, rfl⟩ := Option.map_eq_some_iff.mp hspec
      cases hname
      have hspecial : (symbol head).symbolName?.bind PatternHead.ofName? = some .named := hhead
      rw [template.eq_def]
      dsimp only
      rw [hspecial]
    · cases hspec
  · cases hspec

/-- A pattern head asks for its arguments in two ways only: for two of them, or for some. -/
theorem ofPatternHead?_eq_none {args : List Term} {special : PatternHead}
    (h : Pattern.ofPatternHead? args (Pattern.ofTerms args) special = none) :
    (special = .named ∨ special = .condition ∨ special = .test) ∧ args.length ≠ 2
      ∨ (special = .optional ∨ special = .hold) ∧ args = [] := by
  have hfirst : (Pattern.ofTerms args).head? = none → args = [] := by
    rw [Pattern.ofTerms_eq_map]
    simp
  cases special with
  | blank => cases h
  | run least => cases h
  | alternatives => cases h
  | namedBlank =>
    simp only [Pattern.ofPatternHead?] at h
    split at h <;> cases h
  | namedRun least =>
    simp only [Pattern.ofPatternHead?] at h
    split at h <;> cases h
  | named =>
    refine .inl ⟨by simp, fun hlength => ?_⟩
    obtain ⟨x, inner, rfl⟩ := List.length_eq_two.mp hlength
    simp only [Pattern.ofPatternHead?, Pattern.ofTerms] at h
    split at h <;> simp_all
  | condition =>
    refine .inl ⟨by simp, fun hlength => ?_⟩
    obtain ⟨inner, proviso, rfl⟩ := List.length_eq_two.mp hlength
    cases h
  | test =>
    refine .inl ⟨by simp, fun hlength => ?_⟩
    obtain ⟨inner, predicate, rfl⟩ := List.length_eq_two.mp hlength
    cases h
  | optional => exact .inr ⟨by simp, hfirst h⟩
  | hold => exact .inr ⟨by simp, hfirst h⟩

theorem IsCompound.cases {head : Term} {args : List Term} (h : IsCompound head args) :
    head.symbolName?.bind PatternHead.ofName? = none
      ∨ ∃ special, head.symbolName?.bind PatternHead.ofName? = some special
        ∧ ((special = .named ∨ special = .condition ∨ special = .test) ∧ args.length ≠ 2
          ∨ (special = .optional ∨ special = .hold) ∧ args = []) := by
  cases hspecial : head.symbolName?.bind PatternHead.ofName? with
  | none => exact .inl rfl
  | some special =>
    rw [IsCompound, hspecial, Option.bind_some] at h
    exact .inr ⟨special, rfl, ofPatternHead?_eq_none h⟩

/-- A pattern head that asks for two arguments has no meaning with another number of them. -/
theorem ofPatternHead?_of_length {args : List Term} {special : PatternHead}
    (h : (special = .named ∨ special = .condition ∨ special = .test) ∧ args.length ≠ 2) :
    Pattern.ofPatternHead? args (Pattern.ofTerms args) special = none := by
  obtain ⟨hspecial, hlength⟩ := h
  match args, hlength with
  | [], _ => rcases hspecial with rfl | rfl | rfl <;> rfl
  | [_], _ => rcases hspecial with rfl | rfl | rfl <;> simp [Pattern.ofPatternHead?]
  | [_, _], hlength => exact absurd rfl hlength
  | _ :: _ :: _ :: _, _ => rcases hspecial with rfl | rfl | rfl <;> simp [Pattern.ofPatternHead?]

/-- Whether an application reads as a compound pattern depends on the symbol at its head and the
number of its arguments. -/
theorem IsCompound.of_length {head head' : Term} {args args' : List Term} (h : IsCompound head args)
    (hsymbol : head'.symbolName? = head.symbolName?) (hlength : args'.length = args.length) :
    IsCompound head' args' := by
  rw [IsCompound, hsymbol]
  obtain hnone | ⟨special, hspecial, ⟨hcases, hne⟩ | ⟨hcases, rfl⟩⟩ := h.cases
  · rw [hnone]
    rfl
  · rw [hspecial, Option.bind_some]
    exact ofPatternHead?_of_length ⟨hcases, hlength ▸ hne⟩
  · rw [List.eq_nil_of_length_eq_zero hlength]
    exact h

theorem template_of_isCompound {head : Term} {args : List Term} {marks : Marks}
    (h : IsCompound head args) :
    (Term.app head args marks).template = apply head.template (templates args) := by
  rw [template.eq_def]
  dsimp only
  obtain hnone | ⟨special, hspecial, ⟨rfl | rfl | rfl, hlength⟩ | ⟨rfl | rfl, rfl⟩⟩ := h.cases
  · rw [hnone]
  -- the pattern heads that ask for two arguments
  · rw [hspecial]
    split <;> simp_all
  · rw [hspecial]
    split <;> simp_all
  · rw [hspecial]
    split <;> simp_all
  -- and those that ask for some
  · rw [hspecial]
  · rw [hspecial]

theorem isVariadic_of_isCompound {head : Term} {args : List Term} {marks : Marks}
    (h : IsCompound head args) : (Term.app head args marks).isVariadic = false := by
  have hrun : RunSpec.ofTerm? (.app head args marks) = none := by
    unfold RunSpec.ofTerm?
    split
    · next name args' marks' heq =>
      cases heq
      obtain hnone | ⟨special, hspecial, hcases⟩ := h.cases
      · have hname : PatternHead.ofName? name = none := hnone
        rw [hname]
      · have hname : PatternHead.ofName? name = some special := hspecial
        rw [hname]
        split <;> simp_all
    · rfl
  have hoptional : (Term.app head args marks).isOptional = false := by
    unfold isOptional
    rw [callArgs?_app]
    split
    · next first rest heq =>
      split at heq
      · next hhead =>
        cases heq
        simp [IsCompound, hhead, PatternHead.ofName?, Pattern.ofPatternHead?,
          Pattern.ofTerms] at h
      · cases heq
    · rfl
  exact isVariadic_eq_false.mpr ⟨hrun, hoptional⟩

/-- An argument of a reversible pattern is a named run or stands for one term. -/
theorem Reversible.isVariadic {names : List String} {a : Term} (ha : a.Reversible names)
    (hrun : a.namedRun? = none) : a.isVariadic = false := by
  cases ha with
  | atom a => rfl
  | namedBlank name rest marks => rfl
  | named name inner marks =>
    have hinner : RunSpec.anonymous? inner = none := by
      cases hplain : RunSpec.anonymous? inner with
      | none => rfl
      | some spec => simp [namedRun?, RunSpec.ofTerm?, PatternHead.ofName?, hplain] at hrun
    simp [Term.isVariadic, RunSpec.ofTerm?, PatternHead.ofName?, hinner, isOptional, callArgs?]
  | hold rest marks hinner => rfl
  | condition proviso marks hinner => rfl
  | test predicate marks hinner => rfl
  | compound marks hcompound _ _ => exact isVariadic_of_isCompound hcompound

/-! ## Giving back what was matched -/

section

variable (R : Term → Term → Prop) (c : MatchContext) (d : Bindings)

/-- What the pattern becomes with the names replaced is related to whatever it matched with part of
those bindings. -/
def Restores (p : Term) : Prop :=
  ∀ ⦃t b b'⦄, t.SequenceFree → (p.searchMatch c t b).result = some b' → d.Extends b' →
    R (p.template.instantiate d) t

/-- An argument is a named run, or it stands for one term and restores it. -/
def RestoresArg (a : Term) : Prop :=
  (∃ name, a.namedRun? = some name) ∨ a.isVariadic = false ∧ Restores R c d a

variable {R c d}

theorem RestoresArg.restores {a : Term} (h : RestoresArg R c d a) (ha : a.isVariadic = false) :
    Restores R c d a := by
  obtain ⟨name, hname⟩ | ⟨_, hrestores⟩ := h
  · obtain ⟨spec, hspec, _⟩ := Option.bind_eq_some_iff.mp hname
    simp [isVariadic, hspec] at ha
  · exact hrestores

end

section

variable {table : SymbolTable} {R : Term → Term → Prop} (hR : Tolerant table R)
  {c : MatchContext} {d : Bindings}

include hR

/-- A run gives back the items that it is bound to. -/
theorem restored_run {a : Term} {name : String} (ha : a.namedRun? = some name)
    {items : List Term} {b b' : Bindings} (hbind : b.bind? name (call "Sequence" items) = some b')
    (hd : d.Extends b') (as : List Term) :
    ∃ run, restored d (a :: as) = run ++ restored d as ∧ List.Forall₂ R run items := by
  obtain ⟨bound, hbound, hid, _⟩ := Bindings.get?_bind? hbind
  obtain ⟨run, hcall, hrun⟩ := callArgs?_of_identical hid
  have hinstance : a.template.instantiate d = bound := by
    rw [template_of_namedRun? ha, instantiate, hd hbound]
    rfl
  refine ⟨run, ?_, hrun.imp fun _ _ => hR.identical⟩
  rw [restored_cons, hinstance, hcall]
  rfl

theorem restored_single {a t : Term} (h : R (a.template.instantiate d) t) (ht : t.SequenceFree)
    (as : List Term) : restored d (a :: as) = a.template.instantiate d :: restored d as := by
  have hcall : (a.template.instantiate d).callArgs? "Sequence" = none := by
    rw [← Option.isNone_iff_eq_none, ← Option.isSome_eq_false_iff]
    exact (hR.isCall_eq h).trans ht.isCall_eq_false
  rw [restored_cons, hcall]
  rfl

theorem forall₂_of_matchInOrder {args : List Term} (hargs : ∀ a ∈ args, RestoresArg R c d a)
    {items : List Term} (hitems : ∀ t ∈ items, t.SequenceFree) {b b' : Bindings}
    (h : (matchInOrder (args.map (slot c)) items b).result = some b') (hd : d.Extends b') :
    List.Forall₂ R (restored d args) items := by
  induction args generalizing items b with
  | nil =>
    have hempty := (Search.require_eq_some h).1
    rw [List.isEmpty_iff.mp hempty]
    exact .nil
  | cons a as ih =>
    obtain ⟨ha, has⟩ := List.forall_mem_cons.mp hargs
    obtain ⟨name, hname⟩ | ⟨hsingle, ha⟩ := ha
    · obtain ⟨spec, hspec, hspecName⟩ := Option.bind_eq_some_iff.mp hname
      rw [List.map_cons, slot_of_run hspec] at h
      obtain ⟨k, _, hk⟩ := Search.exists_of_firstOf h
      obtain ⟨b₁, hrun, hrest⟩ := Search.andThen_eq_some.mp hk
      obtain ⟨_, _, hbind⟩ := matchRun_eq_some hrun
      rw [hspecName] at hbind
      -- what comes later keeps the run bound
      have hd₁ := hd.trans (grows_matchInOrder (grows_slots c as) hrest).keeps
      obtain ⟨run, hrestored, hitemsRun⟩ := restored_run hR hname hbind hd₁ as
      rw [hrestored, ← List.take_append_drop k items]
      exact List.rel_append hitemsRun
        (ih has (fun t ht => hitems t (List.mem_of_mem_drop ht)) hrest)
    · rw [List.map_cons, slot_of_single hsingle] at h
      cases items with
      | nil => cases h
      | cons item others =>
        obtain ⟨hitem, hothers⟩ := List.forall_mem_cons.mp hitems
        obtain ⟨b₁, hone, hrest⟩ := Search.andThen_eq_some.mp h
        have hd₁ := hd.trans (grows_matchInOrder (grows_slots c as) hrest).keeps
        have hrelated := ha hitem hone hd₁
        rw [restored_single hR hrelated hitem]
        exact .cons hrelated (ih has hothers hrest)

theorem forall₂_of_matchEach {args : List Term} (hargs : ∀ a ∈ args, Restores R c d a)
    {items : List Term} (hlength : args.length = items.length)
    (hitems : ∀ t ∈ items, t.SequenceFree) {b b' : Bindings}
    (h : (matchEach (args.map (searchMatch c)) items b).result = some b') (hd : d.Extends b') :
    List.Forall₂ R (restored d args) items := by
  induction args generalizing items b with
  | nil =>
    rw [List.length_eq_zero_iff.mp hlength.symm]
    exact .nil
  | cons a as ih =>
    cases items with
    | nil => cases hlength
    | cons item others =>
      obtain ⟨ha, has⟩ := List.forall_mem_cons.mp hargs
      obtain ⟨hitem, hothers⟩ := List.forall_mem_cons.mp hitems
      obtain ⟨b₁, hone, hrest⟩ := Search.andThen_eq_some.mp h
      have hd₁ := hd.trans (grows_matchEach (grows_searchMatches c as) hrest).keeps
      have hrelated := ha hitem hone hd₁
      rw [restored_single hR hrelated hitem]
      exact .cons hrelated (ih has (Nat.succ.inj hlength) hothers hrest)

/-! ### Groups under a flat head -/

theorem related_ungrouped {name : String} (hflat : table.isFlat name = true) {s : Term}
    {pre group post : List Term} {marks : Marks}
    (h : R s (.app (.symbol name) (pre ++ grouped (.symbol name) group :: post) marks)) :
    R s (.app (.symbol name) (pre ++ (group ++ post)) marks) := by
  rcases group with _ | ⟨_, _ | _⟩
  · exact hR.flatten hflat h
  · exact h
  · exact hR.flatten hflat h

theorem related_allUngrouped {name : String} (hflat : table.isFlat name = true) {s : Term}
    {pre : List Term} {groups : List (List Term)} {marks : Marks}
    (h : R s (.app (.symbol name) (pre ++ groups.map (grouped (.symbol name))) marks)) :
    R s (.app (.symbol name) (pre ++ groups.flatten) marks) := by
  induction groups generalizing pre with
  | nil => exact h
  | cons group groups ih =>
    have hfirst := related_ungrouped hR hflat h
    rw [← List.append_assoc] at hfirst
    rw [List.flatten_cons, ← List.append_assoc]
    exact ih hfirst

omit hR in
/-- A group of arguments of a node is as free of `Sequence` as the node. -/
theorem sequenceFree_grouped {head : Term} {items part : List Term} {marks : Marks}
    (hnode : (Term.app head items marks).SequenceFree) (hpart : ∀ t ∈ part, t.SequenceFree) :
    (grouped head part).SequenceFree := by
  rcases part with _ | ⟨_, _ | _⟩
  · exact hnode.apply hpart
  · exact hpart _ List.mem_cons_self
  · exact hnode.apply hpart

theorem forall₂_of_matchGroups {args : List Term} (hargs : ∀ a ∈ args, Restores R c d a)
    {head : Term} {all : List Term} {marks : Marks}
    (hnode : (Term.app head all marks).SequenceFree) {items : List Term}
    (hitems : ∀ t ∈ items, t.SequenceFree) {b b' : Bindings}
    (h : (matchGroups head (args.map (searchMatch c)) items b).result = some b')
    (hd : d.Extends b') :
    ∃ groups : List (List Term), groups.flatten = items
      ∧ List.Forall₂ R (restored d args) (groups.map (grouped head)) := by
  induction args generalizing items b with
  | nil =>
    have hempty := (Search.require_eq_some h).1
    rw [List.isEmpty_iff.mp hempty]
    exact ⟨[], rfl, .nil⟩
  | cons a as ih =>
    obtain ⟨ha, has⟩ := List.forall_mem_cons.mp hargs
    cases as with
    | nil =>
      rw [List.map_cons, List.map_nil, matchGroups] at h
      split at h
      · cases h
      · have hfree := sequenceFree_grouped hnode hitems
        have hrelated := ha hfree h hd
        refine ⟨[items], by simp, ?_⟩
        rw [restored_single hR hrelated hfree]
        exact .cons hrelated .nil
    | cons next rest =>
      rw [List.map_cons, List.map_cons, matchGroups] at h
      · obtain ⟨k, _, hk⟩ := Search.exists_of_firstOf h
        obtain ⟨b₁, hone, hrest⟩ := Search.andThen_eq_some.mp hk
        have hd₁ := hd.trans (grows_matchGroups (grows_searchMatches c (next :: rest)) hrest).keeps
        have htake : ∀ t ∈ items.take k, t.SequenceFree :=
          fun t ht => hitems t (List.mem_of_mem_take ht)
        have hfree := sequenceFree_grouped hnode htake
        have hrelated := ha hfree hone hd₁
        obtain ⟨groups, hgroups, hall⟩ :=
          ih has (fun t ht => hitems t (List.mem_of_mem_drop ht)) hrest
        refine ⟨items.take k :: groups, ?_, ?_⟩
        · rw [List.flatten_cons, hgroups, List.take_append_drop]
        · rw [restored_single hR hrelated hfree]
          exact .cons hrelated hall
      · intro hnil
        cases hnil

/-! ### Arguments in any order -/

/-- What reordered arguments give back is, reordered, what the arguments do. -/
theorem related_reordered {name : String} (horderless : table.isOrderless name = true)
    {args args' items items' : List Term} (hargs : args.Perm args') (hitems : items'.Perm items)
    (h : List.Forall₂ R (restored d args') items') :
    ∃ items'', List.Forall₂ R (restored d args) items''
      ∧ ∀ s marks, R s (.app (.symbol name) items'' marks) →
          R s (.app (.symbol name) items marks) := by
  obtain ⟨items'', hall, hperm⟩ := List.perm_comp_forall₂ (restored_perm d hargs) h
  exact ⟨items'', hall, fun s marks hs => hR.reorder horderless (hperm.trans hitems) hs⟩

theorem exists_of_matchAbsorbing {args : List Term} (hargs : ∀ a ∈ args, Restores R c d a)
    {name : String} (horderless : table.isOrderless name = true)
    (hflat : table.isFlat name = true) {items : List Term} {marks : Marks}
    (hnode : (Term.app (.symbol name) items marks).SequenceFree) {b b' : Bindings}
    (h : (matchAbsorbing (.symbol name) (args.map (searchMatch c)) items b).result = some b')
    (hd : d.Extends b') :
    ∃ items', List.Forall₂ R (restored d args) items'
      ∧ ∀ s, R s (.app (.symbol name) items' marks) → R s (.app (.symbol name) items marks) := by
  obtain ⟨_, _, hitems⟩ := every_app.mp hnode
  obtain ⟨p, hp, hpicked⟩ := Search.exists_of_firstOf h
  rw [pickOne_map] at hp
  obtain ⟨⟨a, others⟩, hpick, rfl⟩ := List.mem_map.mp hp
  obtain ⟨⟨picked, rest⟩, hselection, hselected⟩ := Search.exists_of_firstSelection hpicked
  obtain ⟨b₁, heach, hwide⟩ := Search.andThen_eq_some.mp hselected
  have hlength : others.length = picked.length := by
    rw [length_of_mem_selections hselection, List.length_map]
  have hperm := selections_perm hselection
  have hfree : ∀ t ∈ picked ++ rest, t.SequenceFree :=
    fun t ht => hitems t (hperm.mem_iff.mp ht)
  have hrestFree := sequenceFree_grouped hnode fun t ht => hfree t (List.mem_append_right _ ht)
  have hall : ∀ x ∈ a :: others, Restores R c d x :=
    fun x hx => hargs x ((pickOne_perm hpick).mem_iff.mp hx)
  obtain ⟨ha, hothers⟩ := List.forall_mem_cons.mp hall
  -- the one that takes the group comes last, so it keeps what the others have bound
  have hwidest := ha hrestFree hwide hd
  have hd₁ := hd.trans (grows_searchMatch c a hwide).keeps
  have hforall : List.Forall₂ R (restored d (a :: others))
      (grouped (.symbol name) rest :: picked) := by
    rw [restored_single hR hwidest hrestFree]
    exact .cons hwidest (forall₂_of_matchEach hR hothers hlength
      (fun t ht => hfree t (List.mem_append_left _ ht)) heach hd₁)
  obtain ⟨items', hitems', hback⟩ :=
    related_reordered hR horderless (pickOne_perm hpick).symm (List.Perm.refl _) hforall
  refine ⟨items', hitems', fun s hs => ?_⟩
  have hgrouped : R s (.app (.symbol name) ([] ++ grouped (.symbol name) rest :: picked) marks) :=
    hback s marks hs
  have hungrouped := related_ungrouped hR hflat hgrouped
  exact hR.reorder horderless (List.perm_append_comm.trans hperm) hungrouped

theorem exists_of_matchOrderless {args : List Term} (hargs : ∀ a ∈ args, RestoresArg R c d a)
    {name : String} (horderless : table.isOrderless name = true) {flat : Bool}
    (hflat : flat = table.isFlat name) {items : List Term} {marks : Marks}
    (hnode : (Term.app (.symbol name) items marks).SequenceFree) {b b' : Bindings}
    (h : (matchOrderless (.symbol name) flat (args.map (slot c)) items b).result = some b')
    (hd : d.Extends b') :
    ∃ items', List.Forall₂ R (restored d args) items'
      ∧ ∀ s, R s (.app (.symbol name) items' marks) → R s (.app (.symbol name) items marks) := by
  obtain ⟨_, _, hitems⟩ := every_app.mp hnode
  have hsingles : ∀ a ∈ args.filter fun a => !a.isVariadic, Restores R c d a := by
    intro a ha
    obtain ⟨hmem, hsingle⟩ := List.mem_filter.mp ha
    exact (hargs a hmem).restores (by simpa using hsingle)
  unfold matchOrderless at h
  simp only [singles_slots, filter_isVariadic_slot] at h
  split at h
  · cases h
  · split at h
    · next hvariadic =>
      split at h
      · next hflatTrue =>
        have hnone : args.any isVariadic = false := by
          simpa using (Bool.and_eq_true_iff.mp hvariadic).1
        rw [filter_single_eq_self hnone] at h hsingles
        exact exists_of_matchAbsorbing hR hsingles horderless (hflat ▸ hflatTrue) hnode h hd
      · cases h
    · obtain ⟨⟨picked, rest⟩, hselection, hselected⟩ := Search.exists_of_firstSelection h
      obtain ⟨b₁, heach, hrest⟩ := Search.andThen_eq_some.mp hselected
      have hperm := selections_perm hselection
      have hlength : (args.filter fun a => !a.isVariadic).length = picked.length := by
        rw [length_of_mem_selections hselection, List.length_map]
      have hfree : ∀ t ∈ picked ++ rest, t.SequenceFree :=
        fun t ht => hitems t (hperm.mem_iff.mp ht)
      have hd₁ := hd.trans
        (grows_matchInOrder (grows_slots c (args.filter isVariadic)) hrest).keeps
      have hpicked := forall₂_of_matchEach hR hsingles hlength
        (fun t ht => hfree t (List.mem_append_left _ ht)) heach hd₁
      have hothers := forall₂_of_matchInOrder hR
        (fun a ha => hargs a (List.mem_filter.mp ha).1)
        (fun t ht => hfree t (List.mem_append_right _ ht)) hrest hd
      have hforall : List.Forall₂ R
          (restored d ((args.filter fun a => !a.isVariadic) ++ args.filter isVariadic))
          (picked ++ rest) := by
        rw [restored_append]
        exact List.rel_append hpicked hothers
      have hargsPerm :
          ((args.filter fun a => !a.isVariadic) ++ args.filter isVariadic).Perm args := by
        have := List.filter_append_perm (fun a => !a.isVariadic) args
        simpa using this
      obtain ⟨items', hitems', hback⟩ :=
        related_reordered hR horderless hargsPerm.symm hperm hforall
      exact ⟨items', hitems', fun s => hback s marks⟩

/-- **What the arguments of a compound pattern give back is, up to what the attributes hide, what
they matched.** -/
theorem exists_of_matchArgs {args : List Term} (hargs : ∀ a ∈ args, RestoresArg R c d a)
    {symbol : Option String} {head : Term}
    (hsymbol : ∀ name, symbol = some name → head = .symbol name) {items : List Term} {marks : Marks}
    (hnode : (Term.app head items marks).SequenceFree) {b b' : Bindings}
    (h : (matchArgs ((symbol.map table.attributes).getD .empty) head (args.map (slot c))
      items b).result = some b') (hd : d.Extends b') :
    ∃ items', List.Forall₂ R (restored d args) items'
      ∧ ∀ s, R s (.app head items' marks) → R s (.app head items marks) := by
  obtain ⟨_, _, hitems⟩ := every_app.mp hnode
  cases symbol with
  | none =>
    rw [Option.map_none, Option.getD_none,
      matchArgs_of_plain Attributes.isOrderless_empty Attributes.isFlat_empty] at h
    exact ⟨items, forall₂_of_matchInOrder hR hargs hitems h hd, fun _ => id⟩
  | some name =>
    obtain rfl := hsymbol name rfl
    rw [Option.map_some, Option.getD_some, matchArgs] at h
    split at h
    · next horderless => exact exists_of_matchOrderless hR hargs horderless rfl hnode h hd
    · split at h
      · next hflat =>
        rw [Bool.and_eq_true, Bool.not_eq_true', any_isVariadic_slot] at hflat
        have hrestores : ∀ a ∈ args, Restores R c d a := fun a ha =>
          (hargs a ha).restores (by simpa using List.any_eq_false.mp hflat.2 a ha)
        rw [singles_slots, filter_single_eq_self hflat.2] at h
        obtain ⟨groups, rfl, hall⟩ := forall₂_of_matchGroups hR hrestores hnode hitems h hd
        exact ⟨_, hall, fun s hs => @related_allUngrouped _ _ hR _ hflat.1 s [] groups marks hs⟩
      · exact ⟨items, forall₂_of_matchInOrder hR hargs hitems h hd, fun _ => id⟩

end

/-- **A reversible pattern restores what it matched, under every tolerant relation.** -/
theorem Reversible.restores {R : Term → Term → Prop} {c : MatchContext} (hR : Tolerant c.table R)
    {names : List String} {d : Bindings} (hd : ∀ name, name ∉ names → d.get? name = none) {p : Term}
    (hp : p.Reversible names) : Restores R c d p := by
  -- the template is a name, and the name is bound to a term identical to the matched one
  have hbound {name : String} {t : Term} {b b' : Bindings} (hbind : b.bind? name t = some b')
      (hb' : d.Extends b') : R ((Term.symbol name).instantiate d) t := by
    obtain ⟨bound, hname, hid, _⟩ := Bindings.get?_bind? hbind
    rw [instantiate, hb' hname]
    exact hR.identical hid
  induction hp with
  | atom a hliteral =>
    intro t b b' _ h _
    obtain ⟨rfl, _⟩ := eq_of_searchMatch_atom h
    have hself : (Term.atom a).instantiate d = .atom a := by
      cases a with
      | symbol name =>
        rw [instantiate, hd name (hliteral name rfl)]
        rfl
      | integer value => rfl
      | real value => rfl
      | string text => rfl
    rw [template, hself]
    exact hR.identical (identical_rfl _)
  | namedBlank name rest marks =>
    intro t b b' _ h hb'
    rw [result_namedBlank] at h
    split at h
    · exact hbound h hb'
    · cases h
  | named name inner marks =>
    intro t b b' _ h hb'
    obtain ⟨b₁, _, hbind⟩ := Search.andThen_eq_some.mp h
    exact hbound hbind hb'
  | hold rest marks _ ih => exact ih
  | condition proviso marks _ ih =>
    intro t b b' ht h hb'
    obtain ⟨b₁, hinner, hcheck⟩ := Search.andThen_eq_some.mp h
    exact ih ht hinner (checkCondition_eq_some hcheck ▸ hb')
  | test predicate marks _ ih =>
    intro t b b' ht h hb'
    obtain ⟨b₁, hinner, hcheck⟩ := Search.andThen_eq_some.mp h
    exact ih ht hinner (checkTest_eq_some hcheck ▸ hb')
  | @compound head args marks hcompound hhead hargs ihhead ihargs =>
    intro t b b' ht h hb'
    rw [searchMatch_compound hcompound] at h
    obtain ⟨k, items, n, b₁, rfl, hk, hmatched, _⟩ := of_matchCompound h
    have hrestoresArgs : ∀ a ∈ args, RestoresArg R c d a := by
      intro a ha
      cases hrun : a.namedRun? with
      | some name => exact .inl ⟨name, hrun⟩
      | none => exact .inr ⟨(hargs a ha hrun).isVariadic hrun, ihargs a ha hrun⟩
    have hsymbol : ∀ name, head.symbolName? = some name → k = .symbol name := by
      intro name hname
      obtain rfl := symbolName?_eq_some.mp hname
      exact (eq_of_searchMatch_atom hk).1
    have hb₁ := hb'.trans (grows_matchArgs (grows_slots c args) hmatched).keeps
    obtain ⟨_, hkFree, _⟩ := every_app.mp ht
    obtain ⟨items', hall, hback⟩ := exists_of_matchArgs hR hrestoresArgs hsymbol ht hmatched hb'
    rw [template_of_isCompound hcompound, instantiate_apply]
    exact hback _ (hR.app (ihhead hkFree hk hb₁) hall)

/-- **Soundness of matching.** The template of a reversible pattern, no literal symbol of which is
one of its names, gives back a matched term that is free of `Sequence`: one equivalent to it under
the attributes, and one identical to it where no symbol is flat or orderless. -/
theorem equivalent_of_matches? {table : SymbolTable} {p t : Term} {b : Bindings}
    (hp : p.Reversible p.patternNames) (ht : t.SequenceFree) (h : p.matches? table t = some b) :
    Equivalent table (p.template.instantiate b) t
      ∧ (table.Plain → (p.template.instantiate b).identical t = true) := by
  have hgrown := grows_searchMatch ⟨table, {}⟩ p h
  have hunbound : ∀ name, name ∉ p.patternNames → b.get? name = none :=
    fun name hname => hgrown.within hname
  constructor
  · exact hp.restores (tolerant_equivalent table) hunbound ht h (.refl b)
  · intro hplain
    exact hp.restores (tolerant_identical hplain) hunbound ht h (.refl b)

/-- One pattern under two tables. If `f` is flat and orderless its second argument takes a group,
since `y` is bound to that group inside of the first; without attributes the runs dissolve and
nothing is moved. -/
theorem equivalent_of_matches?_group :
    let y := call "NamedBlank" [symbol "y"]
    let p := call "f" [call "g" [call "NamedBlankSequence" [symbol "x"], y], y]
    let table : SymbolTable := .ofAttributes [("f", Attributes.flat.union .orderless)]
    let group := call "f" [integer 1, integer 4]
    let t := call "f" [integer 1, call "g" [integer 2, integer 3, group], integer 4]
    let b := [("x", call "Sequence" [integer 2, integer 3]), ("y", group)]
    let t' := call "f" [call "g" [integer 2, integer 3, integer 4], integer 4]
    let b' := [("x", call "Sequence" [integer 2, integer 3]), ("y", integer 4)]
    p.Reversible p.patternNames
      ∧ (t.SequenceFree ∧ p.matches? table t = some b
        ∧ p.template.instantiate b = call "f" [call "g" [integer 2, integer 3, group], group]
        ∧ Equivalent table (p.template.instantiate b) t)
      ∧ (t'.SequenceFree ∧ p.matches? .empty t' = some b'
        ∧ (p.template.instantiate b').identical t' = true) := by
  intro y p table group t b t' b'
  have hy : y.Reversible p.patternNames := .namedBlank "y" [] _
  have hg : (call "g" [call "NamedBlankSequence" [symbol "x"], y]).Reversible p.patternNames := by
    refine .compound _ rfl (.atom _ (by rintro name ⟨⟩; decide)) fun a ha hrun => ?_
    obtain rfl | rfl : a = _ ∨ a = y := by simpa using ha
    · cases hrun
    · exact hy
  have hp : p.Reversible p.patternNames := by
    refine .compound _ rfl (.atom _ (by rintro name ⟨⟩; decide)) fun a ha _ => ?_
    obtain rfl | rfl : a = _ ∨ a = y := by simpa using ha
    · exact hg
    · exact hy
  have ht : t.SequenceFree := by
    simp [t, group, SequenceFree, every_app, isCall, callArgs?]
  have ht' : t'.SequenceFree := by
    simp [t', SequenceFree, every_app, isCall, callArgs?]
  have hmatch : p.matches? table t = some b := by
    simp only [table, p, t, b, y, group]
    rfl
  have hmatch' : p.matches? .empty t' = some b' := by
    simp only [p, t', b', y]
    rfl
  exact ⟨hp, ⟨ht, hmatch, rfl, (equivalent_of_matches? hp ht hmatch).1⟩,
    ht', hmatch', (equivalent_of_matches? hp ht' hmatch').2 SymbolTable.plain_empty⟩

end Term

end TermRewriting
