import TermRewriting.Proofs.Pattern.InPlaceSearch
import TermRewriting.Proofs.Pattern.ShortestRuns

/-!
# Groups of neighbours

Under a flat symbol, first-order arguments take the items of a list in groups of neighbours, one
group each and none of them empty (`Term.FitsGroups`). The search finds groups under which all uses
of a name agree whenever there are such groups, and of all of them it takes those whose lengths come
first lexicographically (`Term.searchMatch_leastGroups`).

The search bounds the length of a group from both sides. Every argument leaves an item for each of
the later ones, and the last argument takes all that is left. Neither bound loses groups
(`Term.FitsGroups.mem_groupLengths`).
-/

namespace TermRewriting

namespace Term

/-! ## Groups -/

/-- The groups are the items in order, none of them is empty, and every argument fits its group: the
item itself where there is one, else the items under the head. `uses` lists the names from left to
right, each with what it stands for. -/
structure FitsGroups (head : Term) (args items : List Term) (groups : List (List Term))
    (uses : List (String × Term)) : Prop where
  flatten_eq : groups.flatten = items
  nonempty : ∀ group ∈ groups, group ≠ []
  fits : FitsAll args (groups.map (grouped head)) uses

/-- The lengths that are tried for the group of an argument with others after it. -/
def groupLengths (others items : List Term) : List Nat :=
  lengthsBetween (if others.isEmpty then items.length - others.length else 1)
    (items.length - others.length)

section

variable {c : MatchContext} {head : Term} {args items : List Term} {groups : List (List Term)}
  {uses : List (String × Term)} {b d : Bindings}

theorem fitsGroups_nil : FitsGroups head [] [] [] [] := ⟨rfl, nofun, .nil⟩

theorem FitsGroups.cons {a : Term} {group : List Term} {first : List (String × Term)}
    (hgroup : group ≠ []) (hone : Fits a (grouped head group) first)
    (h : FitsGroups head args items groups uses) :
    FitsGroups head (a :: args) (group ++ items) (group :: groups) (first ++ uses) where
  flatten_eq := congrArg (group ++ ·) h.flatten_eq
  nonempty := List.forall_mem_cons.mpr ⟨hgroup, h.nonempty⟩
  fits := .cons hone h.fits

theorem FitsGroups.of_nil (h : FitsGroups head [] items groups uses) :
    items = [] ∧ groups = [] ∧ uses = [] := by
  obtain ⟨rfl, _, hfits⟩ := h
  generalize hterms : groups.map (grouped head) = terms at hfits
  cases hfits
  obtain rfl := List.map_eq_nil_iff.mp hterms
  exact ⟨rfl, rfl, rfl⟩

/-- The first argument takes the first group. -/
theorem FitsGroups.of_cons {a : Term} (h : FitsGroups head (a :: args) items groups uses) :
    ∃ group rest groups' first others, items = group ++ rest ∧ groups = group :: groups'
      ∧ uses = first ++ others ∧ group ≠ [] ∧ Fits a (grouped head group) first
      ∧ FitsGroups head args rest groups' others := by
  obtain ⟨rfl, hnonempty, hfits⟩ := h
  generalize hterms : groups.map (grouped head) = terms at hfits
  cases hfits with
  | cons hone hrest =>
    obtain ⟨group, groups', rfl, rfl, rfl⟩ := List.map_eq_cons_iff.mp hterms
    obtain ⟨hgroup, hgroups⟩ := List.forall_mem_cons.mp hnonempty
    exact ⟨group, groups'.flatten, groups', _, _, rfl, rfl, rfl, hgroup, hone,
      rfl, hgroups, hrest⟩

/-- Every argument finds an item. -/
theorem FitsGroups.length_le (h : FitsGroups head args items groups uses) :
    args.length ≤ items.length := by
  induction args generalizing items groups uses with
  | nil => exact Nat.zero_le _
  | cons a as ih =>
    obtain ⟨group, rest, _, _, _, rfl, _, _, hgroup, _, hrest⟩ := h.of_cons
    have hlength := ih hrest
    have hpos := List.length_pos_iff.mpr hgroup
    rw [List.length_cons, List.length_append]
    omega

/-- **The bounds lose nothing**: the length of a group is among those that are tried. -/
theorem FitsGroups.mem_groupLengths {group : List Term} (hgroup : group ≠ [])
    (hrest : FitsGroups head args items groups uses) :
    group.length ∈ groupLengths args (group ++ items) := by
  have hlength := hrest.length_le
  have hpos := List.length_pos_iff.mpr hgroup
  rw [groupLengths, lengthsBetween, List.mem_range'_1, List.length_append]
  cases args with
  | nil =>
    -- nothing is left after the last group
    obtain ⟨rfl, _, _⟩ := hrest.of_nil
    simp
  | cons a as =>
    rw [List.isEmpty_cons, if_neg Bool.false_ne_true]
    omega

/-! ## The search through groups -/

theorem matchGroups_of_cons (a : Term) :
    matchGroups head ((a :: args).map (searchMatch c)) items b
      = if items.length < args.length + 1 then .fail
        else .firstOf (groupLengths args items) fun k =>
          (a.searchMatch c (grouped head (items.take k)) b).andThen
            (matchGroups head (args.map (searchMatch c)) (items.drop k)) := by
  rw [List.map_cons, matchGroups_cons, List.length_map, List.isEmpty_map, groupLengths]

/-- **Groups that fit are not missed.** -/
theorem FitsGroups.exists_matchGroups (hargs : ∀ a ∈ args, a.BindsUses c)
    (h : FitsGroups head args items groups uses) (haccepts : b.Accepts uses) :
    ∃ d, (matchGroups head (args.map (searchMatch c)) items b).result = some d := by
  induction args generalizing items groups uses b with
  | nil =>
    obtain ⟨rfl, _, _⟩ := h.of_nil
    exact ⟨b, rfl⟩
  | cons a as ih =>
    obtain ⟨ha, has⟩ := List.forall_mem_cons.mp hargs
    have hlength : as.length + 1 ≤ items.length := h.length_le
    obtain ⟨group, rest, _, first, others, rfl, _, rfl, hgroup, hone, hrest⟩ := h.of_cons
    obtain ⟨b₁, hbind, haccepts⟩ := Bindings.accepts_append.mp haccepts
    obtain ⟨d, hothers⟩ := ih has hrest haccepts
    have hmatch := ha.mpr ⟨first, hone, hbind⟩
    rw [← @List.take_left _ group rest] at hmatch
    rw [← @List.drop_left _ group rest] at hothers
    rw [matchGroups_of_cons, if_neg (Nat.not_lt.mpr hlength)]
    exact Search.exists_firstOf (hrest.mem_groupLengths hgroup)
      (Search.andThen_eq_some.mpr ⟨b₁, hmatch, hothers⟩)

/-! ## The least groups -/

/-- The lengths of the groups come first among those of groups that fit with uses that are
accepted. -/
def LeastGroups (b : Bindings) (head : Term) (args items : List Term)
    (groups : List (List Term)) : Prop :=
  ∀ ⦃groups' uses'⦄, FitsGroups head args items groups' uses' → b.Accepts uses' →
    groups'.map List.length = groups.map List.length
      ∨ List.Lex (· < ·) (groups.map List.length) (groups'.map List.length)

/-- If no shorter group goes on to a match, the groups of the later arguments decide. -/
theorem LeastGroups.cons {a : Term} {group rest : List Term} {b₁ : Bindings}
    (ha : a.BindsUses c) (hargs : ∀ a ∈ args, a.BindsUses c)
    (hmatch : (a.searchMatch c (grouped head group) b).result = some b₁)
    (hshorter : ∀ j ∈ groupLengths args (group ++ rest), j < group.length →
      ((a.searchMatch c (grouped head ((group ++ rest).take j)) b).andThen
        (matchGroups head (args.map (searchMatch c)) ((group ++ rest).drop j))).result = none)
    (h : LeastGroups b₁ head args rest groups) :
    LeastGroups b head (a :: args) (group ++ rest) (group :: groups) := by
  intro groups' uses' hfits haccepts
  obtain ⟨group', rest', groups', first, others, hitems, rfl, rfl, hgroup, hone, hrest⟩ :=
    hfits.of_cons
  obtain ⟨b₂, hbind, hlater⟩ := Bindings.accepts_append.mp haccepts
  have hmatch' := ha.mpr ⟨first, hone, hbind⟩
  refine lex_cons_of_least (fun hlt => ?_) fun heq => ?_
  · obtain ⟨d, hothers⟩ := hrest.exists_matchGroups hargs hlater
    rw [hitems] at hshorter
    have hnone := hshorter _ (hrest.mem_groupLengths hgroup) hlt
    rw [List.take_left, List.drop_left, Search.result_andThen, hmatch', Option.bind_some,
      hothers] at hnone
    cases hnone
  · obtain ⟨rfl, rfl⟩ := List.append_inj hitems heq.symm
    obtain rfl : b₂ = b₁ := Option.some.inj (hmatch'.symm.trans hmatch)
    exact h hrest hlater

/-- **The groups that are taken come first among those that fit.** -/
theorem exists_leastGroups (hargs : ∀ a ∈ args, a.BindsUses c)
    (h : (matchGroups head (args.map (searchMatch c)) items b).result = some d) :
    ∃ groups uses, FitsGroups head args items groups uses ∧ b.bindAll? uses = some d
      ∧ LeastGroups b head args items groups := by
  induction args generalizing items b with
  | nil =>
    obtain ⟨hempty, rfl⟩ := Search.require_eq_some h
    rw [List.isEmpty_iff.mp hempty]
    refine ⟨[], [], fitsGroups_nil, rfl, fun groups' uses' hfits _ => ?_⟩
    obtain ⟨_, rfl, _⟩ := hfits.of_nil
    exact .inl rfl
  | cons a as ih =>
    obtain ⟨ha, has⟩ := List.forall_mem_cons.mp hargs
    rw [matchGroups_of_cons] at h
    split at h
    · cases h
    · next hmany =>
      obtain ⟨k, hlow, hhigh, hk, hshorter⟩ := exists_least_of_firstOf h
      obtain ⟨b₁, hmatch, hothers⟩ := Search.andThen_eq_some.mp hk
      have hpos : 0 < k := by
        split at hlow <;> omega
      -- the items as the group that is taken, and the rest
      obtain ⟨group, rest, rfl, rfl⟩ : ∃ group rest, items = group ++ rest ∧ k = group.length :=
        ⟨items.take k, items.drop k, (List.take_append_drop k items).symm,
          (List.length_take_of_le (by omega)).symm⟩
      rw [List.take_left] at hmatch
      rw [List.drop_left] at hothers
      obtain ⟨first, hone, hbind₁⟩ := ha.mp hmatch
      obtain ⟨groups, uses, hfits, hbind, hleast⟩ := ih has hothers
      refine ⟨_, _, hfits.cons (List.length_pos_iff.mp hpos) hone, ?_,
        hleast.cons ha has hmatch hshorter⟩
      rw [Bindings.bindAll?_append, hbind₁, Option.bind_some, hbind]

/-! ## Flat symbols -/

/-- The applications of a flat symbol that a compound pattern under the symbol matches are those
whose arguments are matched in groups. -/
theorem result_compound_of_flat {name : String} {marks marks' : Marks}
    (hcompound : IsCompound (.symbol name) args) (hflat : c.table.isFlat name = true)
    (horderless : c.table.isOrderless name = false) (hsingle : args.any isVariadic = false) :
    ((Term.app (.symbol name) args marks).searchMatch c
        (.app (.symbol name) items marks') b).result
      = (matchGroups (.symbol name) (args.map (searchMatch c)) items b).result := by
  have hcount : args.any isVariadic = false → c.table.isFlat name = false →
      items.length = args.length := fun _ hnot => by
    rw [hflat] at hnot
    cases hnot
  have hflat' : (c.table.attributes name).isFlat = true := hflat
  have horderless' : (c.table.attributes name).isOrderless = false := horderless
  rw [result_compound hcompound hcount, matchArgs, if_neg (by rw [horderless']; decide),
    any_isVariadic_slot, hflat', hsingle, singles_slots, filter_single_eq_self hsingle]
  rfl

end

/-- **The least groups.** Under a flat symbol that is not orderless, first-order arguments match the
items exactly if the items can be divided into groups of neighbours, one for each argument, that
the arguments fit so that all uses of a name agree. Of those divisions the match takes the one whose
lengths come first lexicographically, and a name that is not bound yet is bound to its first use. -/
theorem searchMatch_leastGroups {c : MatchContext} {name : String} {args : List Term}
    (hcompound : IsCompound (.symbol name) args) (hflat : c.table.isFlat name = true)
    (horderless : c.table.isOrderless name = false) (hargs : ∀ a ∈ args, a.FirstOrder c.table)
    (marks : Marks) (items : List Term) (marks' : Marks) (b : Bindings) :
    let found := ((Term.app (.symbol name) args marks).searchMatch c
      (.app (.symbol name) items marks') b).result
    (found.isSome = true
        ↔ ∃ groups uses, FitsGroups (.symbol name) args items groups uses ∧ b.Accepts uses)
      ∧ ∀ d, found = some d →
          ∃ groups uses, FitsGroups (.symbol name) args items groups uses ∧ b.Accepts uses
            ∧ (∀ groups' uses', FitsGroups (.symbol name) args items groups' uses' →
                b.Accepts uses' → groups'.map List.length = groups.map List.length
                  ∨ List.Lex (· < ·) (groups.map List.length) (groups'.map List.length))
            ∧ ∀ name, d.get? name = Bindings.get? name (b ++ uses) := by
  intro found
  have hbinds : ∀ a ∈ args, a.BindsUses c := fun a ha => (hargs a ha).bindsUses
  have hsingle : args.any isVariadic = false := by
    simpa using fun a ha => (hargs a ha).isVariadic
  have hfound : found = (matchGroups (.symbol name) (args.map (searchMatch c)) items b).result :=
    result_compound_of_flat hcompound hflat horderless hsingle
  rw [hfound]
  constructor
  · rw [Option.isSome_iff_exists]
    constructor
    · rintro ⟨d, h⟩
      obtain ⟨groups, uses, hfits, hbind, _⟩ := exists_leastGroups hbinds h
      exact ⟨groups, uses, hfits, Bindings.accepts_iff_exists.mpr ⟨d, hbind⟩⟩
    · rintro ⟨groups, uses, hfits, haccepts⟩
      exact hfits.exists_matchGroups hbinds haccepts
  · intro d h
    obtain ⟨groups, uses, hfits, hbind, hleast⟩ := exists_leastGroups hbinds h
    exact ⟨groups, uses, hfits, Bindings.accepts_iff_exists.mpr ⟨d, hbind⟩,
      fun _ _ => @hleast _ _, Bindings.get?_of_bindAll? hbind⟩

/-- The first group takes two items, because one would leave no equal group for the last. -/
theorem searchMatch_leastGroups_repeated :
    let c : MatchContext := ⟨.ofAttributes [("h", .flat)], {}⟩
    let x := call "NamedBlank" [symbol "x"]
    let y := call "NamedBlank" [symbol "y", symbol "Integer"]
    let args := [x, y, x]
    let items := [integer 1, integer 2, integer 3, integer 1, integer 2]
    let found := ((call "h" args).searchMatch c (call "h" items) []).result
    let d : Bindings := [("x", call "h" [integer 1, integer 2]), ("y", integer 3)]
    IsCompound (.symbol "h") args ∧ c.table.isFlat "h" = true ∧ c.table.isOrderless "h" = false
      ∧ (∀ a ∈ args, a.FirstOrder c.table) ∧ found = some d
      ∧ ∃ groups uses, FitsGroups (.symbol "h") args items groups uses
          ∧ Bindings.Accepts [] uses
          ∧ (∀ groups' uses', FitsGroups (.symbol "h") args items groups' uses' →
              Bindings.Accepts [] uses' → groups'.map List.length = groups.map List.length
                ∨ List.Lex (· < ·) (groups.map List.length) (groups'.map List.length))
          ∧ ∀ name, d.get? name = Bindings.get? name uses := by
  intro c x y args items found d
  have hcompound : IsCompound (.symbol "h") args := rfl
  have hflat : c.table.isFlat "h" = true := by
    simp only [c]
    rfl
  have horderless : c.table.isOrderless "h" = false := by
    simp only [c]
    rfl
  have hx : x.FirstOrder c.table := .namedBlank "x" [] _
  have hy : y.FirstOrder c.table := .namedBlank "y" [symbol "Integer"] _
  have hargs : ∀ a ∈ args, a.FirstOrder c.table := by
    simp only [args, List.forall_mem_cons]
    exact ⟨hx, hy, hx, nofun⟩
  have hmatch : found = some d := by
    simp only [found, c, args, items, x, y, d]
    rfl
  exact ⟨hcompound, hflat, horderless, hargs, hmatch,
    (searchMatch_leastGroups hcompound hflat horderless hargs .fresh items .fresh []).2 d hmatch⟩

/-- A pattern head is read before its attributes: it hands the whole term on to its argument. -/
theorem searchMatch_of_held_groups :
    let table : SymbolTable := .ofAttributes [("HoldPattern", .flat)]
    let args := [integer 1]
    let items := [integer 1]
    table.isFlat "HoldPattern" = true ∧ table.isOrderless "HoldPattern" = false
      ∧ (∀ a ∈ args, a.FirstOrder table)
      ∧ FitsGroups (.symbol "HoldPattern") args items [items] [] ∧ Bindings.Accepts [] []
      ∧ (call "HoldPattern" args).matches? table (call "HoldPattern" items) = none := by
  have hfits : FitsGroups (.symbol "HoldPattern") [integer 1] ([integer 1] ++ []) [[integer 1]]
      ([] ++ []) := fitsGroups_nil.cons (List.cons_ne_nil _ _) (.atom _)
  exact ⟨rfl, rfl, List.forall_mem_singleton.mpr (.atom _), hfits, nofun, rfl⟩

end Term

end TermRewriting
