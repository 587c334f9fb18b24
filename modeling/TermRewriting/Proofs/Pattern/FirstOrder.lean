import TermRewriting.Proofs.Pattern.Completeness

/-!
# First-order patterns

A first-order pattern consists of literals, blanks, and compound patterns of them under symbols that
are neither flat nor orderless. There is one way at most in which it fits a term, so every use of a
name in it stands for a certain part of the term (`Term.Fits`). A match then is a fit whose uses can
be bound one after another (`Term.FirstOrder.bindsUses`), and that is so exactly if all uses of a
name agree with what the name is bound to, before or by its first use
(`Bindings.isSome_bindAll?_iff`). Hence the order of the uses does not decide whether a term is
matched (`Bindings.Accepts.perm`).
-/

namespace TermRewriting

/-! ## Binding several names -/

namespace Bindings

variable {b d : Bindings} {uses uses' : List (String × Term)}

/-- Binds the names one after another. -/
def bindAll? : Bindings → List (String × Term) → Option Bindings
  | b, [] => some b
  | b, (name, t) :: uses => (b.bind? name t).bind fun c => c.bindAll? uses

theorem bindAll?_singleton (b : Bindings) (name : String) (t : Term) :
    b.bindAll? [(name, t)] = b.bind? name t := Option.bind_fun_some _

theorem bindAll?_append (b : Bindings) (uses uses' : List (String × Term)) :
    b.bindAll? (uses ++ uses') = (b.bindAll? uses).bind fun c => c.bindAll? uses' := by
  induction uses generalizing b with
  | nil => rfl
  | cons use uses ih =>
    rw [List.cons_append, bindAll?, bindAll?, Option.bind_assoc]
    exact congrArg _ (funext ih)

/-- Every use of a name is identical to what the name stands for: what it is bound to, or else its
first use. -/
def Accepts (b : Bindings) (uses : List (String × Term)) : Prop :=
  ∀ use ∈ uses, ∀ t, Bindings.get? use.1 (b ++ uses) = some t → t.identical use.2 = true

theorem get?_append (name : String) (b c : Bindings) :
    Bindings.get? name (b ++ c) = (b.get? name).or (c.get? name) := List.lookup_append

/-- A use of a name that is bound binds nothing. -/
theorem get?_append_cons {name : String} {bound : Term} (hbound : b.get? name = some bound)
    (t : Term) (uses : List (String × Term)) (other : String) :
    Bindings.get? other (b ++ (name, t) :: uses) = Bindings.get? other (b ++ uses) := by
  rw [get?_append, get?_append]
  cases hother : b.get? other with
  | some s => rfl
  | none =>
    have hne : (other == name) = false := by
      rw [beq_eq_false_iff_ne]
      rintro rfl
      rw [hbound] at hother
      cases hother
    rw [Option.none_or, Option.none_or, get?, get?, List.lookup_cons, hne]

/-- The uses of names can be bound exactly if they are accepted. -/
theorem isSome_bindAll?_iff : (b.bindAll? uses).isSome = true ↔ b.Accepts uses := by
  induction uses generalizing b with
  | nil => exact ⟨fun _ _ hmem => absurd hmem List.not_mem_nil, fun _ => rfl⟩
  | cons use uses ih =>
    obtain ⟨name, t⟩ := use
    rw [bindAll?, bind?]
    cases hbound : b.get? name with
    | some bound =>
      have hsame := get?_append_cons hbound t uses
      have hname : Bindings.get? name (b ++ (name, t) :: uses) = some bound := by
        rw [get?_append, hbound, Option.some_or]
      have hrest : b.Accepts uses
          ↔ ∀ use ∈ uses, ∀ s, Bindings.get? use.1 (b ++ (name, t) :: uses) = some s →
              s.identical use.2 = true := by
        simp only [hsame]
        rfl
      rw [Accepts, List.forall_mem_cons, ← hrest, hname, ← ih]
      by_cases hid : bound.identical t = true
      · simp [hid]
      · simp [hid]
    | none =>
      have hname : Bindings.get? name (b ++ (name, t) :: uses) = some t := by
        rw [get?_append, hbound, Option.none_or, get?, List.lookup_cons_self]
      have hself : ∀ s, Bindings.get? name (b ++ (name, t) :: uses) = some s →
          s.identical t = true := by
        intro s hs
        rw [Option.some.inj (hs.symm.trans hname)]
        exact Term.identical_rfl t
      -- from the second use on the name is bound
      have hstep : (b ++ [(name, t)]) ++ uses = b ++ (name, t) :: uses := List.append_assoc ..
      rw [Option.bind_some, ih, Accepts, Accepts, List.forall_mem_cons, hstep]
      exact ⟨fun h => ⟨hself, h⟩, And.right⟩

theorem accepts_iff_exists : b.Accepts uses ↔ ∃ d, b.bindAll? uses = some d := by
  rw [← isSome_bindAll?_iff, Option.isSome_iff_exists]

/-- Uses are accepted one part after another. -/
theorem accepts_append :
    b.Accepts (uses ++ uses') ↔ ∃ c, b.bindAll? uses = some c ∧ c.Accepts uses' := by
  simp only [accepts_iff_exists, bindAll?_append, Option.bind_eq_some_iff]
  exact exists_comm.trans (exists_congr fun _ => exists_and_left)

theorem exists_get?_of_mem {name : String} {t : Term} (h : (name, t) ∈ b) :
    ∃ s, b.get? name = some s := by
  rw [← Option.ne_none_iff_exists', get?, ne_eq, List.lookup_eq_none_iff]
  exact fun hnone => by simpa using hnone _ h

/-- What a name is bound to after its uses are bound: as before, or to its first use. -/
theorem get?_of_bindAll? (h : b.bindAll? uses = some d) (name : String) :
    d.get? name = Bindings.get? name (b ++ uses) := by
  induction uses generalizing b with
  | nil =>
    cases h
    rw [List.append_nil]
  | cons use uses ih =>
    obtain ⟨first, t⟩ := use
    obtain ⟨c, hc, hrest⟩ := Option.bind_eq_some_iff.mp h
    rw [ih hrest]
    unfold bind? at hc
    split at hc
    · next bound hbound =>
      split at hc
      · cases hc
        exact (get?_append_cons hbound t uses name).symm
      · cases hc
    · cases hc
      rw [List.append_assoc]
      rfl

/-- **Whether uses are accepted does not depend on their order.** -/
theorem Accepts.perm (h : b.Accepts uses) (hcoherent : ∀ use ∈ uses, use.2.Coherent)
    (hperm : uses.Perm uses') : b.Accepts uses' := by
  rintro ⟨name, t⟩ hmem s hs
  have ht : (name, t) ∈ uses := hperm.mem_iff.mpr hmem
  rw [get?_append] at hs
  cases hbound : b.get? name with
  | some bound =>
    rw [hbound, Option.some_or] at hs
    exact h _ ht s (by rw [get?_append, hbound, Option.some_or, hs])
  | none =>
    -- both uses are identical to the one that comes first in the other order
    rw [hbound, Option.none_or] at hs
    have hs : (name, s) ∈ uses := hperm.mem_iff.mpr (mem_of_get? hs)
    obtain ⟨first, hfirst⟩ := exists_get?_of_mem (List.mem_append_right b ht)
    have hfirst_s := h _ hs first hfirst
    have hfirst_t := h _ ht first hfirst
    rw [Term.identical_iff (hcoherent _ hs) (hcoherent _ ht)]
    exact (Term.unmarked_eq_of_identical hfirst_s).symm.trans
      (Term.unmarked_eq_of_identical hfirst_t)

end Bindings

/-! ## First-order patterns -/

namespace Term

/-- Literals, blanks, and compound patterns of them under symbols that are neither flat nor
orderless. -/
inductive FirstOrder (table : SymbolTable) : Term → Prop where
  | atom (a : Atom) : FirstOrder table (.atom a)
  | blank (type : List Term) (marks : Marks) :
      FirstOrder table (.app (.symbol "Blank") type marks)
  | namedBlank (name : String) (type : List Term) (marks : Marks) :
      FirstOrder table (.app (.symbol "NamedBlank") (.symbol name :: type) marks)
  | compound {name : String} {args : List Term} (marks : Marks) : isPatternHead name = false →
      table.isFlat name = false → table.isOrderless name = false →
      (∀ a ∈ args, FirstOrder table a) → FirstOrder table (.app (.symbol name) args marks)

mutual

/-- The pattern has the shape of the term, with the literals and types that it asks for. `uses`
lists the named blanks from left to right, each with what it stands for. -/
inductive Fits : Term → Term → List (String × Term) → Prop where
  | atom (a : Atom) : Fits (.atom a) (.atom a) []
  | blank {t : Term} (type : List Term) (marks : Marks) : t.hasOptionalType type.head? = true →
      Fits (.app (.symbol "Blank") type marks) t []
  | namedBlank {t : Term} (name : String) (type : List Term) (marks : Marks) :
      t.hasOptionalType type.head? = true →
      Fits (.app (.symbol "NamedBlank") (.symbol name :: type) marks) t [(name, t)]
  | compound {name : String} {args items : List Term} {uses : List (String × Term)}
      (marks marks' : Marks) : isPatternHead name = false → FitsAll args items uses →
      Fits (.app (.symbol name) args marks) (.app (.symbol name) items marks') uses

/-- The patterns fit the terms, each its own. -/
inductive FitsAll : List Term → List Term → List (String × Term) → Prop where
  | nil : FitsAll [] [] []
  | cons {a t : Term} {as ts : List Term} {uses uses' : List (String × Term)} : Fits a t uses →
      FitsAll as ts uses' → FitsAll (a :: as) (t :: ts) (uses ++ uses')

end

mutual

theorem Fits.coherent {p t : Term} {uses : List (String × Term)} (h : p.Fits t uses)
    (ht : t.Coherent) : ∀ use ∈ uses, use.2.Coherent := by
  match h with
  | .atom a => exact nofun
  | .blank type marks _ => exact nofun
  | .namedBlank name type marks _ => exact List.forall_mem_singleton.mpr ht
  | .compound marks marks' _ hall =>
    obtain ⟨_, _, hitems⟩ := every_app.mp ht
    exact hall.coherent hitems

theorem FitsAll.coherent {args items : List Term} {uses : List (String × Term)}
    (h : FitsAll args items uses) (hitems : ∀ t ∈ items, t.Coherent) :
    ∀ use ∈ uses, use.2.Coherent := by
  match h with
  | .nil => exact nofun
  | .cons hone hrest =>
    obtain ⟨ht, hts⟩ := List.forall_mem_cons.mp hitems
    exact List.forall_mem_append.mpr ⟨hone.coherent ht, hrest.coherent hts⟩

end

theorem Fits.of_blank {type : List Term} {marks : Marks} {t : Term} {uses : List (String × Term)}
    (h : Fits (.app (.symbol "Blank") type marks) t uses) :
    t.hasOptionalType type.head? = true ∧ uses = [] := by
  generalize hp : Term.app (.symbol "Blank") type marks = p at h
  cases h with
  | atom a => cases hp
  | blank type' marks' htype =>
    cases hp
    exact ⟨htype, rfl⟩
  | namedBlank => simp at hp
  | compound _ _ hname _ =>
    cases hp
    cases hname

theorem Fits.of_namedBlank {name : String} {type : List Term} {marks : Marks} {t : Term}
    {uses : List (String × Term)}
    (h : Fits (.app (.symbol "NamedBlank") (.symbol name :: type) marks) t uses) :
    t.hasOptionalType type.head? = true ∧ uses = [(name, t)] := by
  generalize hp : Term.app (.symbol "NamedBlank") (.symbol name :: type) marks = p at h
  cases h with
  | atom a => cases hp
  | blank => simp at hp
  | namedBlank name' type' marks' htype =>
    cases hp
    exact ⟨htype, rfl⟩
  | compound _ _ hname _ =>
    cases hp
    cases hname

theorem Fits.of_compound {name : String} (hname : isPatternHead name = false) {args : List Term}
    {marks : Marks} {t : Term} {uses : List (String × Term)}
    (h : Fits (.app (.symbol name) args marks) t uses) :
    ∃ items marks', t = .app (.symbol name) items marks' ∧ FitsAll args items uses := by
  cases h with
  | blank => cases hname
  | namedBlank => cases hname
  | compound _ marks' _ hall => exact ⟨_, marks', rfl, hall⟩

mutual

/-- There is one way at most in which a pattern fits a term. -/
theorem Fits.unique {p t : Term} {uses uses' : List (String × Term)} (h : p.Fits t uses)
    (h' : p.Fits t uses') : uses = uses' := by
  match h with
  | .atom a =>
    cases h'
    rfl
  | .blank type marks _ => exact h'.of_blank.2.symm
  | .namedBlank name type marks _ => exact h'.of_namedBlank.2.symm
  | .compound marks marks' hname hall =>
    obtain ⟨items, _, heq, hall'⟩ := h'.of_compound hname
    cases heq
    exact hall.unique hall'

theorem FitsAll.unique {args items : List Term} {uses uses' : List (String × Term)}
    (h : FitsAll args items uses) (h' : FitsAll args items uses') : uses = uses' := by
  match h, h' with
  | .nil, .nil => rfl
  | .cons hone hrest, .cons hone' hrest' => rw [hone.unique hone', hrest.unique hrest']

end

theorem FitsAll.length_eq {args items : List Term} {uses : List (String × Term)}
    (h : FitsAll args items uses) : items.length = args.length := by
  induction args generalizing items uses with
  | nil =>
    cases h
    rfl
  | cons a as ih =>
    cases h with
    | cons _ hrest => rw [List.length_cons, List.length_cons, ih hrest]

/-- Reordered patterns fit reordered terms. -/
theorem FitsAll.perm {args args' items : List Term} {uses : List (String × Term)}
    (h : FitsAll args items uses) (hperm : args.Perm args') :
    ∃ items' uses', FitsAll args' items' uses' ∧ items.Perm items' ∧ uses.Perm uses' := by
  induction hperm generalizing items uses with
  | nil => exact ⟨items, uses, h, .refl _, .refl _⟩
  | cons a _ ih =>
    cases h with
    | cons hone hrest =>
      obtain ⟨items', uses', hrest', hitems, huses⟩ := ih hrest
      exact ⟨_, _, .cons hone hrest', hitems.cons _, huses.append_left _⟩
  | swap a b as =>
    cases h with
    | cons hone hrest =>
      cases hrest with
      | cons hnext hrest =>
        refine ⟨_, _, .cons hnext (.cons hone hrest), .swap _ _ _, ?_⟩
        rw [← List.append_assoc, ← List.append_assoc]
        exact List.perm_append_comm.append_right _
  | trans _ _ ih ih' =>
    obtain ⟨items', uses', h', hitems, huses⟩ := ih h
    obtain ⟨items'', uses'', h'', hitems', huses'⟩ := ih' h'
    exact ⟨items'', uses'', h'', hitems.trans hitems', huses.trans huses'⟩

theorem FirstOrder.isVariadic {table : SymbolTable} {p : Term} (hp : p.FirstOrder table) :
    p.isVariadic = false := by
  cases hp with
  | atom a => rfl
  | blank type marks => rfl
  | namedBlank name type marks => rfl
  | compound marks hname _ _ _ =>
    exact isVariadic_of_isCompound (isCompound_of_not_patternHead hname _)

/-! ## Matches are fits -/

/-- To match the pattern is to bind the uses of names with which it fits. -/
def BindsUses (c : MatchContext) (p : Term) : Prop :=
  ∀ ⦃t b d⦄, (p.searchMatch c t b).result = some d
    ↔ ∃ uses, p.Fits t uses ∧ b.bindAll? uses = some d

section

variable {c : MatchContext} {args items : List Term} {b d : Bindings}

theorem matchEach_eq_some_iff (hargs : ∀ a ∈ args, a.BindsUses c)
    (hlength : items.length = args.length) :
    (matchEach (args.map (searchMatch c)) items b).result = some d
      ↔ ∃ uses, FitsAll args items uses ∧ b.bindAll? uses = some d := by
  induction args generalizing items b with
  | nil =>
    rw [List.length_eq_zero_iff.mp hlength]
    constructor
    · intro h
      exact ⟨[], .nil, h⟩
    · rintro ⟨uses, hfits, h⟩
      cases hfits
      exact h
  | cons a as ih =>
    obtain ⟨ha, has⟩ := List.forall_mem_cons.mp hargs
    cases items with
    | nil => cases hlength
    | cons item others =>
      rw [List.map_cons, matchEach, Search.andThen_eq_some]
      constructor
      · rintro ⟨b₁, hone, hrest⟩
        obtain ⟨uses, hfits, hbind⟩ := ha.mp hone
        obtain ⟨uses', hfits', hbind'⟩ := (ih has (Nat.succ.inj hlength)).mp hrest
        refine ⟨uses ++ uses', .cons hfits hfits', ?_⟩
        rw [Bindings.bindAll?_append, hbind, Option.bind_some, hbind']
      · rintro ⟨_, hfits, hbind⟩
        cases hfits with
        | cons hone hrest =>
          rw [Bindings.bindAll?_append] at hbind
          obtain ⟨b₁, hbind, hbind'⟩ := Option.bind_eq_some_iff.mp hbind
          exact ⟨b₁, ha.mpr ⟨_, hone, hbind⟩,
            (ih has (Nat.succ.inj hlength)).mpr ⟨_, hrest, hbind'⟩⟩

/-- Without runs, matching in order is matching each argument with its own item. -/
theorem result_matchInOrder_of_single (hargs : ∀ a ∈ args, a.isVariadic = false) :
    (matchInOrder (args.map (slot c)) items b).result
      = if items.length = args.length then (matchEach (args.map (searchMatch c)) items b).result
        else none := by
  induction args generalizing items b with
  | nil =>
    rw [List.map_nil, matchInOrder, Search.result_require]
    cases items <;> rfl
  | cons a as ih =>
    obtain ⟨ha, has⟩ := List.forall_mem_cons.mp hargs
    rw [List.map_cons, slot_of_single ha]
    cases items with
    | nil => rfl
    | cons item others =>
      rw [matchInOrder, Search.result_andThen, List.map_cons, matchEach, Search.result_andThen,
        List.length_cons, List.length_cons]
      simp only [ih has, Nat.add_right_cancel_iff]
      split
      · rfl
      · exact Option.bind_fun_none _

/-- A compound pattern under a symbol is matched by the applications of the symbol whose arguments
are matched, to as many arguments where nothing varies. -/
theorem searchMatch_compound_eq_some_iff {name : String} {marks : Marks} {t : Term}
    (hcompound : IsCompound (.symbol name) args) :
    ((Term.app (.symbol name) args marks).searchMatch c t b).result = some d
      ↔ ∃ items marks', t = .app (.symbol name) items marks'
        ∧ (args.any isVariadic = false → c.table.isFlat name = false →
          items.length = args.length)
        ∧ (matchArgs (c.table.attributes name) (.symbol name) (args.map (slot c)) items b).result
          = some d := by
  constructor
  · intro h
    rw [searchMatch_compound hcompound] at h
    obtain ⟨k, items, marks', b₁, rfl, hhead, hargs, hcount⟩ := of_matchCompound h
    obtain ⟨rfl, rfl⟩ := eq_of_searchMatch_atom hhead
    rw [any_isVariadic_slot, List.length_map] at hcount
    exact ⟨items, marks', rfl, hcount, hargs⟩
  · rintro ⟨items, marks', rfl, hcount, hargs⟩
    rw [result_compound hcompound hcount, hargs]

end

/-- **A first-order pattern is matched by the terms that it fits, and the match binds its uses of
names.** -/
theorem FirstOrder.bindsUses {c : MatchContext} {p : Term} (hp : p.FirstOrder c.table) :
    p.BindsUses c := by
  induction hp with
  | atom a =>
    intro t b d
    constructor
    · intro h
      obtain ⟨rfl, rfl⟩ := eq_of_searchMatch_atom h
      exact ⟨[], .atom a, rfl⟩
    · rintro ⟨uses, hfits, hbind⟩
      cases hfits
      rw [searchMatch_atom, Search.result_require, identical_rfl]
      exact hbind
  | blank type marks =>
    intro t b d
    constructor
    · intro h
      obtain ⟨htype, rfl⟩ := Search.require_eq_some h
      exact ⟨[], .blank type marks htype, rfl⟩
    · rintro ⟨uses, hfits, hbind⟩
      obtain ⟨htype, rfl⟩ := hfits.of_blank
      rw [searchMatch_blank, Search.result_require, if_pos htype]
      exact hbind
  | namedBlank name type marks =>
    intro t b d
    rw [result_namedBlank]
    constructor
    · intro h
      split at h
      · next htype =>
        exact ⟨_, .namedBlank name type marks htype, by rw [Bindings.bindAll?_singleton, h]⟩
      · cases h
    · rintro ⟨uses, hfits, hbind⟩
      obtain ⟨htype, rfl⟩ := hfits.of_namedBlank
      rw [if_pos htype, ← hbind, Bindings.bindAll?_singleton]
  | @compound name args marks hname hflat horderless hargs ih =>
    intro t b d
    have hsingle : ∀ a ∈ args, a.isVariadic = false := fun a ha => (hargs a ha).isVariadic
    have hany : args.any Term.isVariadic = false := by simpa using hsingle
    rw [searchMatch_compound_eq_some_iff (isCompound_of_not_patternHead hname args)]
    constructor
    · rintro ⟨items, marks', rfl, hcount, hmatch⟩
      have hlength := hcount hany hflat
      rw [matchArgs_of_plain horderless hflat, result_matchInOrder_of_single hsingle,
        if_pos hlength, matchEach_eq_some_iff ih hlength] at hmatch
      obtain ⟨uses, hall, hbind⟩ := hmatch
      exact ⟨uses, .compound marks marks' hname hall, hbind⟩
    · rintro ⟨uses, hfits, hbind⟩
      obtain ⟨items, marks', rfl, hall⟩ := hfits.of_compound hname
      refine ⟨items, marks', rfl, fun _ _ => hall.length_eq, ?_⟩
      rw [matchArgs_of_plain horderless hflat, result_matchInOrder_of_single hsingle,
        if_pos hall.length_eq, matchEach_eq_some_iff ih hall.length_eq]
      exact ⟨uses, hall, hbind⟩

end Term

end TermRewriting
