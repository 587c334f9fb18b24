import TermRewriting.Proofs.Rendering.Brackets
import TermRewriting.Proofs.Term.Structure
import TermRewriting.Session

/-!
# The forest of a term

What is written for a term is a forest: an operation puts its operator between the forests of the
operands, a list and every other application put their arguments into brackets. The forest is made
without regard to characters; for terms in which nothing is written in a form of its own, the text
is the spelling of its tokens (`toList_render`), and if the atoms are readable the text determines
the forest (`render_eq_iff_forest_eq`).
-/

namespace TermRewriting

/-! ## Layouts -/

namespace Operator

def all : List Operator := [.plus, .times, .power, .rule, .ruleDelayed]

/-- How tightly the operator binds. -/
def level : Operator → Nat
  | .rule => 10
  | .ruleDelayed => 10
  | .plus => 30
  | .times => 40
  | .power => 50

/-- Whether the operator stands between exactly two operands. -/
def isBinary : Operator → Bool
  | .plus => false
  | .times => false
  | .power => true
  | .rule => true
  | .ruleDelayed => true

/-- Whether the operator can stand between so many operands. -/
def takes (count : Nat) (o : Operator) : Bool := !(count < 2 || (o.isBinary && count != 2))

/-- Whether an operation stands in parentheses as an operand of another one. -/
def isParenthesized (outer : Option Operator) (o : Operator) : Bool :=
  outer.any fun p => o.level ≤ p.level

theorem two_le_of_takes {o : Operator} {count : Nat} (h : o.takes count = true) : 2 ≤ count := by
  simp only [takes, Bool.not_eq_true', Bool.or_eq_false_iff, decide_eq_false_iff_not] at h
  omega

theorem needsParentheses_name (outer : Option Operator) (o : Operator) :
    needsParentheses (outer.map name) o.name = o.isParenthesized outer := by
  cases outer with
  | none => rfl
  | some p => cases o <;> cases p <;> rfl

end Operator

/-- How an application is written. -/
inductive Layout where
  | operation (o : Operator)
  | braces
  | brackets
deriving DecidableEq

/-- The operator around the arguments. -/
def Layout.inner : Layout → Option Operator
  | .operation o => some o
  | .braces => none
  | .brackets => none

/-- The layout of the applications of a name to so many arguments. -/
def standardLayout (name : String) (count : Nat) : Layout :=
  if name = "List" then .braces
  else
    match Operator.all.find? fun o => o.name = name && o.takes count with
    | some o => .operation o
    | none => .brackets

theorem standardLayout_name (o : Operator) (count : Nat) :
    standardLayout o.name count = if o.takes count then .operation o else .brackets := by
  cases o <;> cases h : Operator.takes count _
  all_goals simp [standardLayout, Operator.all, Operator.name, h]

namespace Form

/-- The layout of an application in a form. -/
def layout (form : Form) (head : Term) (count : Nat) : Layout :=
  if form = .fullForm then .brackets
  else
    match head.symbolName? with
    | some name => standardLayout name count
    | none => .brackets

variable {form : Form} {head : Term} {count : Nat}

theorem layout_eq_operation {o : Operator} (h : form.layout head count = .operation o) :
    head = .symbol o.name ∧ o.takes count = true := by
  unfold layout standardLayout at h
  split at h
  · cases h
  · split at h
    · next name hname =>
      split at h
      · cases h
      · split at h
        · next p hp =>
          cases h
          have hfound := List.find?_some hp
          simp only [Bool.and_eq_true, decide_eq_true_eq] at hfound
          exact ⟨Term.symbolName?_eq_some.mp (hname.trans (by rw [hfound.1])), hfound.2⟩
        · cases h
    · cases h

theorem layout_eq_braces (h : form.layout head count = .braces) : head = .symbol "List" := by
  unfold layout standardLayout at h
  split at h
  · cases h
  · split at h
    · next name hname =>
      split at h
      · next hlist => exact Term.symbolName?_eq_some.mp (hname.trans (by rw [hlist]))
      · split at h <;> cases h
    · cases h

@[simp] theorem layout_app (form : Form) (head : Term) (args : List Term) (marks : Marks)
    (count : Nat) : form.layout (.app head args marks) count = .brackets := by
  simp [layout, Term.symbolName?]

@[simp] theorem layout_fullForm (head : Term) (count : Nat) :
    Form.fullForm.layout head count = .brackets := by
  simp [layout]

@[simp] theorem layout_unmarked (form : Form) (head : Term) (count : Nat) :
    form.layout head.unmarked count = form.layout head count := by
  simp [layout]

end Form

/-! ## Forests -/

namespace Tree

/-- The operands with the operator between them, in parentheses where they are needed. -/
def operation (outer : Option Operator) (o : Operator) (operands : List (List Tree)) : List Tree :=
  if o.isParenthesized outer then [.group .round (divided (.operator o) operands)]
  else divided (.operator o) operands

/-- The parts in brackets, with commas between them. -/
def listed (b : Bracket) (parts : List (List Tree)) : Tree := .group b (divided .comma parts)

end Tree

namespace Term

mutual

/-- What is written for a term as an operand of `outer`. -/
def forest (form : Form) (outer : Option Operator) : Term → List Tree
  | .atom a => [.sign (.atom a)]
  | .app head args _ =>
    match form.layout head args.length with
    | .operation o => Tree.operation outer o (forestAll form (some o) args)
    | .braces => [Tree.listed .curly (forestAll form none args)]
    | .brackets => head.forest form outer ++ [Tree.listed .square (forestAll form none args)]

def forestAll (form : Form) (outer : Option Operator) : List Term → List (List Tree)
  | [] => []
  | a :: as => a.forest form outer :: forestAll form outer as

end

variable {form : Form} {outer : Option Operator} {head : Term} {args : List Term}

theorem forestAll_eq_map (form : Form) (outer : Option Operator) (args : List Term) :
    forestAll form outer args = args.map (forest form outer) := by
  induction args with
  | nil => rfl
  | cons a as ih => rw [forestAll, ih, List.map_cons]

@[simp] theorem forest_atom (form : Form) (outer : Option Operator) (a : Atom) :
    (Term.atom a).forest form outer = [.sign (.atom a)] := rfl

theorem forest_operation {o : Operator} (h : form.layout head args.length = .operation o)
    (marks : Marks) :
    (Term.app head args marks).forest form outer
      = Tree.operation outer o (args.map (forest form (some o))) := by
  simp only [forest, h, forestAll_eq_map]

theorem forest_braces (h : form.layout head args.length = .braces) (marks : Marks) :
    (Term.app head args marks).forest form outer
      = [Tree.listed .curly (args.map (forest form none))] := by
  simp only [forest, h, forestAll_eq_map]

theorem forest_brackets (h : form.layout head args.length = .brackets) (marks : Marks) :
    (Term.app head args marks).forest form outer
      = head.forest form outer ++ [Tree.listed .square (args.map (forest form none))] := by
  simp only [forest, h, forestAll_eq_map]

theorem forest_ne_nil (form : Form) (outer : Option Operator) (t : Term) :
    t.forest form outer ≠ [] := by
  cases t with
  | atom a => simp
  | app head args marks =>
    cases h : form.layout head args.length with
    | operation o =>
      have hcount := Operator.two_le_of_takes (Form.layout_eq_operation h).2
      have hsign : .sign (.operator o)
          ∈ Tree.divided (.operator o) (args.map (forest form (some o))) :=
        Tree.sign_mem_divided (by simpa using hcount)
      rw [forest_operation h, Tree.operation]
      split
      · simp
      · exact List.ne_nil_of_mem hsign
    | braces => simp [forest_braces h]
    | brackets => simp [forest_brackets h]

/-- What is written for an application depends on its layout and on what is written for its
parts. -/
theorem forest_app_congr {head' : Term} {args' : List Term} {layout : Layout}
    (hlayout : form.layout head args.length = layout)
    (hlayout' : form.layout head' args'.length = layout)
    (hhead : head.forest form outer = head'.forest form outer)
    (hargs : args.map (forest form layout.inner) = args'.map (forest form layout.inner))
    (marks marks' : Marks) :
    (Term.app head args marks).forest form outer
      = (Term.app head' args' marks').forest form outer := by
  cases layout with
  | operation o =>
    simp only [Layout.inner] at hargs
    rw [forest_operation hlayout, forest_operation hlayout', hargs]
  | braces =>
    simp only [Layout.inner] at hargs
    rw [forest_braces hlayout, forest_braces hlayout', hargs]
  | brackets =>
    simp only [Layout.inner] at hargs
    rw [forest_brackets hlayout, forest_brackets hlayout', hhead, hargs]

/-- Marks are not written. -/
@[simp] theorem forest_unmarked (form : Form) (outer : Option Operator) (t : Term) :
    t.unmarked.forest form outer = t.forest form outer := by
  induction t using induct generalizing outer with
  | atom a => rfl
  | app head args marks ihhead ihargs =>
    rw [unmarked_app]
    refine forest_app_congr (by simp) rfl (ihhead outer) ?_ _ marks
    rw [List.map_map]
    exact List.map_congr_left fun a ha => ihargs a ha _

/-! ## Tokens of a forest -/

/-- Induction on a forest of a term: its atoms, and what is put around the parts. -/
theorem forall_forest {P : List Tree → Prop}
    (divided : ∀ s parts, (Token.sign s).isAtom = false → (∀ p ∈ parts, P p) →
      P (Tree.divided s parts))
    (group : ∀ b inside, P inside → P [.group b inside])
    (behind : ∀ ts b inside, P ts → P [.group b inside] → P (ts ++ [.group b inside]))
    {t : Term} (hatoms : ∀ a ∈ t.atoms, P [.sign (.atom a)]) : P (t.forest form outer) := by
  induction t using induct generalizing outer with
  | atom a => exact hatoms a (List.mem_singleton_self a)
  | app head args marks ihhead ihargs =>
    obtain ⟨hhead, hargs⟩ := forall_atoms_app.mp hatoms
    have hparts : ∀ outer, ∀ p ∈ args.map (forest form outer), P p := fun outer =>
      List.forall_mem_map.mpr fun a ha => ihargs a ha (hargs a ha)
    cases h : form.layout head args.length with
    | operation o =>
      have hbody := divided (.operator o) _ rfl (hparts (some o))
      rw [forest_operation h, Tree.operation]
      split
      · exact group _ _ hbody
      · exact hbody
    | braces =>
      rw [forest_braces h]
      exact group _ _ (divided .comma _ rfl (hparts none))
    | brackets =>
      rw [forest_brackets h]
      exact behind _ _ _ (ihhead hhead) (group _ _ (divided .comma _ rfl (hparts none)))

/-- No word or integer is followed by an atom. -/
theorem separated_forest (form : Form) (outer : Option Operator) (t : Term) :
    Separated (Tree.tokensAll (t.forest form outer)) := by
  refine forall_forest (P := fun ts => Separated (Tree.tokensAll ts)) ?_ ?_ ?_ ?_
  · exact fun s parts hs hparts => (Tree.separated_divided hs).mpr hparts
  · exact fun b inside hinside => Tree.separated_group.mpr hinside
  · intro ts b inside hts hgroup
    rw [Tree.tokensAll_append, Tree.tokensAll_group, separated_append_mark rfl]
    rw [Tree.tokensAll_group] at hgroup
    exact ⟨hts, hgroup.of_cons⟩
  · exact fun a _ => List.IsChain.singleton _

theorem readable_forest {t : Term} (ht : ∀ a ∈ t.atoms, a.Readable) :
    ∀ x ∈ Tree.tokensAll (t.forest form outer), x.Readable := by
  refine forall_forest (P := fun ts => ∀ x ∈ Tree.tokensAll ts, x.Readable) ?_ ?_ ?_ ?_
  · intro s parts hs hparts x hx
    rcases Tree.mem_tokensAll_divided hx with rfl | ⟨p, hp, hxp⟩
    · intro a ha
      rw [ha] at hs
      cases hs
    · exact hparts p hp x hxp
  · intro b inside hinside x hx a ha
    subst ha
    refine hinside _ ?_ a rfl
    simpa using hx
  · intro ts b inside hts hgroup
    rw [Tree.tokensAll_append]
    exact List.forall_mem_append.mpr ⟨hts, hgroup⟩
  · intro a ha x hx b hb
    cases hb.symm.trans (List.mem_singleton.mp hx)
    exact ht a ha

end Term

/-! ## Texts -/

/-- The text that a layout gives an application, unless it is the one with the head in front. -/
def Layout.text? (outer : Option Operator) (texts : Option Operator → List String) :
    Layout → Option String
  | .operation o =>
    let body := o.separator.intercalate (texts (some o))
    some (if o.isParenthesized outer then "(" ++ body ++ ")" else body)
  | .braces => some ("\x7b" ++ ", ".intercalate (texts none) ++ "\x7d")
  | .brackets => none

theorem renderer_standard (name : String) :
    Session.standard.table.renderer name = standardRenderers.lookup name := by
  have hrenderers : Session.standard.renderers = standardRenderers := rfl
  rw [Session.table, hrenderers]

/-- The standard renderers follow the layouts. -/
theorem lookup_standardRenderers (form : Form) (outer : Option Operator) (name : String)
    (args : List Term) (texts : Setting → List String) :
    ((standardRenderers.lookup name).bind fun renderer =>
        renderer ⟨form, outer.map Operator.name⟩ name args texts)
      = (standardLayout name args.length).text? outer
          fun o => texts ⟨form, o.map Operator.name⟩ := by
  by_cases hname : ∃ o : Operator, o.name = name
  · obtain ⟨o, rfl⟩ := hname
    have hlookup : standardRenderers.lookup o.name = some (.operator o.separator o.isBinary) := by
      cases o <;> rfl
    rw [hlookup, Option.bind_some, Renderer.operator, o.needsParentheses_name, standardLayout_name,
      Operator.takes]
    by_cases hcount : args.length < 2 || (o.isBinary && args.length != 2)
    · rw [if_pos hcount, hcount]
      rfl
    · rw [if_neg hcount, Bool.not_eq_true _ |>.mp hcount]
      rfl
  · by_cases hlist : name = "List"
    · subst hlist
      rfl
    · have hlookup : standardRenderers.lookup name = none := by
        rw [List.lookup_eq_none_iff]
        intro r hr
        rw [bne_iff_ne]
        rintro rfl
        simp only [standardRenderers, List.mem_cons, List.not_mem_nil, or_false] at hr
        obtain rfl | rfl | rfl | rfl | rfl | rfl := hr
        · exact hname ⟨.plus, rfl⟩
        · exact hname ⟨.times, rfl⟩
        · exact hname ⟨.power, rfl⟩
        · exact hname ⟨.rule, rfl⟩
        · exact hname ⟨.ruleDelayed, rfl⟩
        · exact hlist rfl
      have hfind : (Operator.all.find? fun o => o.name = name && o.takes args.length) = none := by
        rw [List.find?_eq_none]
        intro o _ ho
        simp only [Bool.and_eq_true, decide_eq_true_eq] at ho
        exact hname ⟨o, ho.1⟩
      rw [hlookup, standardLayout, if_neg hlist, hfind]
      rfl

namespace Term

/-- Whether the term is written as its only argument, in a form of its own. -/
def asksForForm : Term → Bool
  | .app (.symbol name) [_] _ => (Form.ofName? name).isSome
  | _ => false

/-- Nothing in the term is written in a form of its own. -/
def Unwrapped (t : Term) : Prop := t.Every fun s => s.asksForForm = false

theorem formLayout?_eq_none {head : Term} {args : List Term} {marks : Marks} {name : String}
    (hname : head.symbolName? = some name) (hnode : (Term.app head args marks).asksForForm = false)
    (texts : Setting → List String) : formLayout? name args.length texts = none := by
  unfold formLayout?
  split
  · next hcount =>
    obtain ⟨x, rfl⟩ := List.length_eq_one_iff.mp hcount
    rw [symbolName?_eq_some.mp hname] at hnode
    have hform : Form.ofName? name = none := by simpa [asksForForm] using hnode
    rw [hform]
    rfl
  · rfl

variable {table : SymbolTable} {form : Form}

/-- Where nothing is written in a form of its own, the texts follow the layouts. -/
theorem specialLayout?_eq (htable : form = .fullForm ∨ table = Session.standard.table)
    {head : Term} {args : List Term} {marks : Marks}
    (hnode : (Term.app head args marks).asksForForm = false)
    (outer : Option Operator) (texts : Setting → List String) :
    specialLayout? table ⟨form, outer.map Operator.name⟩ head.symbolName? args texts
      = (form.layout head args.length).text? outer fun o => texts ⟨form, o.map Operator.name⟩ := by
  unfold specialLayout? Form.layout
  cases hname : head.symbolName? with
  | none => simp [Layout.text?]
  | some name =>
    have hwrapper := formLayout?_eq_none hname hnode texts
    by_cases hfull : form = .fullForm
    · simp [SymbolTable.layout?, hfull, hwrapper, Layout.text?]
    · have hstandard := htable.resolve_left hfull
      subst hstandard
      simp only [SymbolTable.layout?, if_neg hfull, renderer_standard, lookup_standardRenderers]
      split
      · next h => exact h.symm
      · next h => rw [hwrapper, h]

theorem renderAll_eq_map (table : SymbolTable) (s : Setting) (args : List Term) :
    renderAll table s args = args.map (render table s) := by
  induction args with
  | nil => rfl
  | cons a as ih => rw [renderAll, ih, List.map_cons]

/-- **The text of a term is the spelling of its forest.** -/
theorem toList_render (hform : form ≠ .outputForm)
    (htable : form = .fullForm ∨ table = Session.standard.table) {t : Term} (ht : t.Unwrapped)
    (outer : Option Operator) :
    (t.render table ⟨form, outer.map Operator.name⟩).toList
      = spelled (Tree.tokensAll (t.forest form outer)) := by
  induction t using induct generalizing outer with
  | atom a =>
    cases a <;> simp [render, Atom.render, hform, Token.chars]
  | app head args marks ihhead ihargs =>
    obtain ⟨hnode, hhead, hargs⟩ := every_app.mp ht
    have htexts : ∀ outer : Option Operator,
        (renderAll table ⟨form, outer.map Operator.name⟩ args).map String.toList
          = (args.map (forest form outer)).map fun p => spelled (Tree.tokensAll p) := by
      intro outer
      rw [renderAll_eq_map, List.map_map, List.map_map]
      exact List.map_congr_left fun a ha => ihargs a ha (hargs a ha) outer
    have hcommas : (", ".intercalate (renderAll table ⟨form, none⟩ args)).toList
        = spelled (Tree.tokensAll (Tree.divided .comma (args.map (forest form none)))) := by
      rw [String.toList_intercalate, Tree.spelled_divided]
      exact congrArg _ (htexts none)
    rw [render, specialLayout?_eq htable hnode]
    cases h : form.layout head args.length with
    | operation o =>
      have hbody : (o.separator.intercalate
            (renderAll table ⟨form, (some o).map Operator.name⟩ args)).toList
          = spelled (Tree.tokensAll
              (Tree.divided (.operator o) (args.map (forest form (some o))))) := by
        rw [String.toList_intercalate, htexts, Tree.spelled_divided]
        rfl
      rw [forest_operation h, Tree.operation, Layout.text?]
      cases o.isParenthesized outer with
      | false => simpa using hbody
      | true =>
        rw [if_pos rfl, if_pos rfl, Tree.spelled_group, ← hbody]
        simp [Bracket.openingChar, Bracket.closingChar]
    | braces =>
      rw [forest_braces h, Tree.listed, Tree.spelled_group, ← hcommas]
      simp [Layout.text?, Bracket.openingChar, Bracket.closingChar]
    | brackets =>
      rw [forest_brackets h, Tree.listed, Tree.tokensAll_append, spelled_append,
        Tree.spelled_group, ← hcommas, ← ihhead hhead]
      simp [Layout.text?, bracketed, Setting.alone, Bracket.openingChar, Bracket.closingChar]

/-- **A text that can be read is the text of one forest.** -/
theorem render_eq_iff_forest_eq (hform : form ≠ .outputForm)
    (htable : form = .fullForm ∨ table = Session.standard.table) {t u : Term}
    (ht : ∀ a ∈ t.atoms, a.Readable) (hu : ∀ a ∈ u.atoms, a.Readable) (htu : t.Unwrapped)
    (huu : u.Unwrapped) :
    t.render table ⟨form, none⟩ = u.render table ⟨form, none⟩
      ↔ t.forest form none = u.forest form none := by
  have htext := toList_render hform htable htu none
  have hutext := toList_render hform htable huu none
  constructor
  · intro h
    have hspelled : spelled (Tree.tokensAll (t.forest form none))
        = spelled (Tree.tokensAll (u.forest form none)) := by
      rw [← htext, ← hutext]
      exact congrArg String.toList h
    exact Tree.tokensAll_injective (spelled_injective (readable_forest ht) (readable_forest hu)
      (separated_forest form none t) (separated_forest form none u) hspelled)
  · intro h
    rw [← h, ← htext] at hutext
    exact (String.toList_inj.mp hutext).symm

end Term

end TermRewriting
