import TermRewriting.Proofs.Rendering.Reading

/-!
# Brackets behind operations

Brackets behind an operation without parentheses are written like brackets behind its last operand.
`Term.regrouped` moves them behind the operation wherever there is a choice. It changes no text, and
two terms have one text exactly if they become the same in this way (`inputForm_eq_iff`). Where no
operation without parentheses has brackets behind it, the text determines the term.
-/

namespace TermRewriting

variable {form : Form} {outer : Option Operator} {t u : Term}

namespace Term

/-! ## Operations as heads -/

/-- The head of the term is no operation without parentheses. -/
def headIsNoOperation (form : Form) (outer : Option Operator) (t : Term) : Bool :=
  !t.head.isOperation form outer

/-- Then an operator at the top shows that the term is an operation. -/
theorem operator_not_mem_forest {o : Operator}
    (ht : t.everywhere form (headIsNoOperation form) outer = true)
    (hno : t.isOperation form outer = false) : .sign (.operator o) ∉ t.forest form outer := by
  induction t using induct generalizing outer with
  | atom a => simp
  | app head args marks ihhead _ =>
    generalize hfs : (Term.app head args marks).forest form outer = fs
    cases hfs ▸ written form outer (.app head args marks) with
    | one hx => cases hx <;> simp
    | operation _ _ _ hlayout hbare => simp [isOperation, hlayout, hbare] at hno
    | brackets _ _ _ _ =>
      obtain ⟨hcondition, hhead, -⟩ := everywhere_app.mp ht
      have hnohead : head.isOperation form outer = false := by
        simpa [headIsNoOperation, Term.head] using hcondition
      rw [List.mem_append]
      rintro (h | h)
      · exact ihhead hhead hnohead h
      · simp [Tree.listed] at h

theorem exists_operator_mem_forest (h : t.isOperation form outer = true) :
    ∃ o, .sign (.operator o) ∈ t.forest form outer := by
  cases t with
  | atom a => cases h
  | app head args marks =>
    cases hlayout : form.layout head args.length with
    | operation o =>
      obtain ⟨rfl, -⟩ := Form.layout_eq_operation hlayout
      have hbare : o.isParenthesized outer = false := by simpa [isOperation, hlayout] using h
      rw [forest_operation hlayout, Tree.operation, hbare]
      exact ⟨o, sign_mem_divided_operands hlayout⟩
    | braces | brackets => simp [isOperation, hlayout] at h

theorem isOperation_eq_false_of_isBracketed (h : t.isBracketed form = true) :
    t.isOperation form outer = false := by
  cases t with
  | atom a => rfl
  | app head args marks =>
    have hlayout : form.layout head args.length = .brackets := by simpa [isBracketed] using h
    simp [isOperation, hlayout]

theorem tellsApart_headIsNoOperation (form : Form) : TellsApart form (headIsNoOperation form) := by
  intro outer t u _ hu hoperation hbracketed h
  obtain ⟨o, ho⟩ := exists_operator_mem_forest hoperation
  exact operator_not_mem_forest hu (isOperation_eq_false_of_isBracketed hbracketed) (h ▸ ho)

/-! ## Brackets behind last operands -/

/-- If the term is an operation without parentheses, there are no brackets behind the last
operand. -/
def lastOperandHasNoBrackets (form : Form) (outer : Option Operator) (t : Term) : Bool :=
  !t.isOperation form outer || t.args.getLast?.all fun a => !a.isBracketed form

/-- Then square brackets at the end show that the term has them behind its head. -/
theorem getLast?_forest_ne_square
    (ht : t.everywhere form (lastOperandHasNoBrackets form) outer = true)
    (hno : t.isBracketed form = false) (inside : List Tree) :
    (t.forest form outer).getLast? ≠ some (.group .square inside) := by
  induction t using induct generalizing outer with
  | atom a => simp
  | app head args marks _ ihargs =>
    generalize hfs : (Term.app head args marks).forest form outer = fs
    cases hfs ▸ written form outer (.app head args marks) with
    | one hx => cases hx <;> simp
    | operation o _ _ hlayout hbare =>
      obtain ⟨hcondition, -, hargs⟩ := everywhere_app.mp ht
      rw [hlayout] at hargs
      have hoperation : (Term.app (.symbol o.name) args marks).isOperation form outer = true := by
        simp [isOperation, hlayout, hbare]
      rcases List.eq_nil_or_concat' args with rfl | ⟨operands, last, rfl⟩
      · simp
      · have hlast : last.isBracketed form = false := by
          simpa [lastOperandHasNoBrackets, hoperation, Term.args] using hcondition
        have hmem : last ∈ operands ++ [last] := List.mem_append_right _ List.mem_cons_self
        -- the operation ends with its last operand
        rw [List.map_append, List.map_singleton, ← List.nil_append (last.forest form (some o)),
          Tree.divided_append_last, List.getLast?_append_of_ne_nil _ (forest_ne_nil form _ last)]
        exact ihargs last hmem (hargs last hmem) hlast
    | brackets _ _ _ hbrackets => simp [isBracketed, hbrackets] at hno

theorem tellsApart_lastOperandHasNoBrackets (form : Form) :
    TellsApart form (lastOperandHasNoBrackets form) := by
  intro outer t u ht _ hoperation hbracketed h
  have hno : t.isBracketed form = false := by
    by_contra hbracketed
    rw [isOperation_eq_false_of_isBracketed (by simpa using hbracketed)] at hoperation
    cases hoperation
  cases u with
  | atom a => cases hbracketed
  | app head args marks =>
    have hbrackets : form.layout head args.length = .brackets := by
      simpa [isBracketed] using hbracketed
    refine getLast?_forest_ne_square ht hno (Tree.divided .comma (args.map (forest form none))) ?_
    rw [h, forest_brackets hbrackets, List.getLast?_concat]
    rfl

end Term

/-! ## Spines -/

/-- A term with brackets behind it. -/
structure Spine where
  core : Term
  groups : List (List Term)

namespace Spine

def term (s : Spine) : Term := s.groups.foldl Term.apply s.core

/-- What is written for a spine. -/
def forest (form : Form) (outer : Option Operator) (s : Spine) : List Tree :=
  s.core.forest form outer
    ++ s.groups.map fun args => Tree.listed .square (args.map (Term.forest form none))

/-- An operation; the brackets behind the last operand are put behind the operation. -/
def operation (head : Term) (operands : List Spine) : Spine :=
  match operands.getLast? with
  | none => ⟨.apply head [], []⟩
  | some last => ⟨.apply head (operands.dropLast.map term ++ [last.core]), last.groups⟩

theorem operation_concat (head : Term) (operands : List Spine) (last : Spine) :
    operation head (operands ++ [last])
      = ⟨.apply head (operands.map term ++ [last.core]), last.groups⟩ := by
  simp [operation]

end Spine

namespace Term

mutual

/-- The term with brackets moved out of last operands, those at its end apart. -/
def raised (form : Form) (outer : Option Operator) : Term → Spine
  | .atom a => ⟨.atom a, []⟩
  | .app head args _ =>
    match form.layout head args.length with
    | .operation o =>
      let operands := raisedAll form (some o) args
      if o.isParenthesized outer then ⟨.apply head (operands.map Spine.term), []⟩
      else .operation head operands
    | .braces => ⟨.apply head ((raisedAll form none args).map Spine.term), []⟩
    | .brackets =>
      let s := head.raised form outer
      ⟨s.core, s.groups ++ [(raisedAll form none args).map Spine.term]⟩

def raisedAll (form : Form) (outer : Option Operator) : List Term → List Spine
  | [] => []
  | a :: as => a.raised form outer :: raisedAll form outer as

end

/-- The term with brackets behind its operations and not behind their last operands, wherever the
text does not tell. -/
def regrouped (form : Form) (t : Term) : Term := (t.raised form none).term.unmarked

/-! ## What is moved -/

theorem raisedAll_eq_map (form : Form) (outer : Option Operator) (args : List Term) :
    raisedAll form outer args = args.map (raised form outer) := by
  induction args with
  | nil => rfl
  | cons a as ih => rw [raisedAll, ih, List.map_cons]

end Term

/-- What holds of a spine whose brackets have been moved: they are brackets behind a term without
brackets, and no last operand has any. -/
structure Spine.IsRaised (form : Form) (outer : Option Operator) (s : Spine) : Prop where
  layout : ∀ args ∈ s.groups.head?, form.layout s.core args.length = .brackets
  noBrackets : s.core.isBracketed form = false
  core : s.core.everywhere form (Term.lastOperandHasNoBrackets form) outer = true
  groups : ∀ args ∈ s.groups, ∀ a ∈ args,
    a.everywhere form (Term.lastOperandHasNoBrackets form) none = true

namespace Term

/-- Brackets are put behind a term that is no symbol with a layout of its own. -/
theorem forest_foldl {core : Term} {groups : List (List Term)}
    (h : ∀ args ∈ groups.head?, form.layout core args.length = .brackets) :
    (groups.foldl apply core).forest form outer = Spine.forest form outer ⟨core, groups⟩ := by
  induction groups generalizing core with
  | nil => simp [Spine.forest]
  | cons args groups ih =>
    rw [List.foldl_cons, ih fun _ _ => Form.layout_app form core args .fresh _, Spine.forest,
      Spine.forest, forest_brackets (h args rfl), List.map_cons, List.append_assoc]
    rfl

theorem everywhere_foldl {core : Term} {groups : List (List Term)}
    (h : ∀ args ∈ groups.head?, form.layout core args.length = .brackets)
    (hcore : core.everywhere form (lastOperandHasNoBrackets form) outer = true)
    (hgroups : ∀ args ∈ groups, ∀ a ∈ args,
      a.everywhere form (lastOperandHasNoBrackets form) none = true) :
    (groups.foldl apply core).everywhere form (lastOperandHasNoBrackets form) outer = true := by
  induction groups generalizing core with
  | nil => exact hcore
  | cons args groups ih =>
    obtain ⟨hargs, hgroups⟩ := List.forall_mem_cons.mp hgroups
    have hlayout := h args rfl
    refine ih (fun _ _ => Form.layout_app form core args .fresh _) ?_ hgroups
    refine everywhere_app.mpr ⟨?_, hcore, ?_⟩
    · simp [lastOperandHasNoBrackets, isOperation, hlayout]
    · rw [hlayout]
      exact hargs

end Term

namespace Spine

theorem IsRaised.forest_term {s : Spine} (h : s.IsRaised form outer) :
    s.term.forest form outer = s.forest form outer :=
  Term.forest_foldl h.layout

theorem IsRaised.everywhere_term {s : Spine} (h : s.IsRaised form outer) :
    s.term.everywhere form (Term.lastOperandHasNoBrackets form) outer = true :=
  Term.everywhere_foldl h.layout h.core h.groups

/-- The core may be an application of a symbol that is not written with brackets. -/
theorem IsRaised.of_symbol {name : String} {args : List Term} {groups : List (List Term)}
    (hlayout : form.layout (.symbol name) args.length ≠ .brackets)
    (hcondition : Term.lastOperandHasNoBrackets form outer (.call name args) = true)
    (hargs : ∀ a ∈ args, a.everywhere form (Term.lastOperandHasNoBrackets form)
      (form.layout (.symbol name) args.length).inner = true)
    (hgroups : ∀ args ∈ groups, ∀ a ∈ args,
      a.everywhere form (Term.lastOperandHasNoBrackets form) none = true) :
    IsRaised form outer ⟨.call name args, groups⟩ where
  layout _ _ := Form.layout_app form _ _ _ _
  noBrackets := by simp [Term.isBracketed, hlayout]
  core := Term.everywhere_app.mpr ⟨hcondition, rfl, hargs⟩
  groups := hgroups

/-- An operation without parentheses is followed by the brackets of its last operand. -/
theorem operation_spec {o : Operator} {operands : List Spine} {last : Spine}
    (hlayout : form.layout (.symbol o.name) (operands.length + 1) = .operation o)
    (hbare : o.isParenthesized outer = false)
    (hoperands : ∀ s ∈ operands, s.IsRaised form (some o)) (hlast : last.IsRaised form (some o)) :
    (operation (.symbol o.name) (operands ++ [last])).IsRaised form outer
      ∧ (operation (.symbol o.name) (operands ++ [last])).forest form outer
        = Tree.divided (.operator o) ((operands ++ [last]).map (forest form (some o))) := by
  have hcount : (operands.map term ++ [last.core]).length = operands.length + 1 := by simp
  have hcore : form.layout (.symbol o.name) (operands.map term ++ [last.core]).length
      = .operation o := hcount ▸ hlayout
  have hforests : (operands.map term).map (Term.forest form (some o))
      = operands.map (forest form (some o)) := by
    rw [List.map_map]
    exact List.map_congr_left fun s hs => (hoperands s hs).forest_term
  rw [operation_concat]
  constructor
  · refine .of_symbol (by simp [hlayout]) ?_ ?_ hlast.groups
    · simp [Term.lastOperandHasNoBrackets, Term.args, hlast.noBrackets]
    · rw [hcore]
      refine List.forall_mem_append.mpr ⟨?_, List.forall_mem_singleton.mpr hlast.core⟩
      exact List.forall_mem_map.mpr fun s hs => (hoperands s hs).everywhere_term
  · rw [forest, Term.forest_operation hcore, Tree.operation, hbare, List.map_append, hforests,
      List.map_append, List.map_singleton, List.map_singleton, forest, Tree.divided_append_last]
    rfl

end Spine

namespace Term

theorem layout_of_isOperation (h : t.isOperation form outer = true) (count : Nat) :
    form.layout t count = .brackets := by
  cases t with
  | atom a => cases h
  | app head args marks => simp

theorem layout_of_isBracketed (h : t.isBracketed form = true) (count : Nat) :
    form.layout t count = .brackets := by
  cases t with
  | atom a => cases h
  | app head args marks => simp

/-- A head that is written in the same way has the same layouts, since only atoms are written as
atoms. -/
theorem layout_eq_of_forest_eq {head : Term} {count : Nat}
    (h : t.forest form outer = head.forest form outer) :
    form.layout t count = form.layout head count := by
  rcases forest_eq_cases h with hbuilt | ⟨hoperation, hbracketed⟩ | ⟨hbracketed, hoperation⟩
  · cases hbuilt with
    | atom a => rfl
    | named _ _ _ | brackets _ _ _ _ => simp
  · rw [layout_of_isOperation hoperation, layout_of_isBracketed hbracketed]
  · rw [layout_of_isBracketed hbracketed, layout_of_isOperation hoperation]

/-- Moving brackets leaves the forest as it is, and afterwards no last operand has any. -/
def RaisesWell (form : Form) (outer : Option Operator) (t : Term) : Prop :=
  (t.raised form outer).IsRaised form outer
    ∧ (t.raised form outer).forest form outer = t.forest form outer

/-- The arguments, each with its brackets moved. -/
def raisedArgs (form : Form) (outer : Option Operator) (args : List Term) : List Term :=
  (raisedAll form outer args).map Spine.term

theorem length_raisedArgs (form : Form) (outer : Option Operator) (args : List Term) :
    (raisedArgs form outer args).length = args.length := by
  rw [raisedArgs, raisedAll_eq_map, List.length_map, List.length_map]

theorem map_forest_raisedArgs {args : List Term} (h : ∀ a ∈ args, ∀ outer, a.RaisesWell form outer)
    (outer : Option Operator) :
    (raisedArgs form outer args).map (forest form outer) = args.map (forest form outer) := by
  rw [raisedArgs, raisedAll_eq_map, List.map_map, List.map_map]
  refine List.map_congr_left fun a ha => ?_
  obtain ⟨hraised, hforest⟩ := h a ha outer
  exact hraised.forest_term.trans hforest

theorem everywhere_raisedArgs {args : List Term} (h : ∀ a ∈ args, ∀ outer, a.RaisesWell form outer)
    (outer : Option Operator) :
    ∀ a ∈ raisedArgs form outer args,
      a.everywhere form (lastOperandHasNoBrackets form) outer = true := by
  rw [raisedArgs, raisedAll_eq_map, List.map_map]
  exact List.forall_mem_map.mpr fun a ha => (h a ha outer).1.everywhere_term

/-- A list in braces, or an operation in parentheses. -/
theorem raisesWell_of_symbol {name : String} {args : List Term} {marks : Marks}
    (h : ∀ a ∈ args, ∀ outer, a.RaisesWell form outer)
    (hlayout : form.layout (.symbol name) args.length ≠ .brackets)
    (hno : (Term.app (.symbol name) args marks).isOperation form outer = false) :
    (Term.app (.symbol name) args marks).RaisesWell form outer := by
  have hraised : (Term.app (.symbol name) args marks).raised form outer
      = ⟨.call name (raisedArgs form (form.layout (.symbol name) args.length).inner args), []⟩ := by
    cases h : form.layout (.symbol name) args.length with
    | operation o =>
      have hpar : o.isParenthesized outer = true := by simpa [isOperation, h] using hno
      simp [raised, h, hpar, raisedArgs, Layout.inner]
    | braces => simp [raised, h, raisedArgs, Layout.inner]
    | brackets => exact absurd h hlayout
  have hsame := congrArg (form.layout (.symbol name))
    (length_raisedArgs form (form.layout (.symbol name) args.length).inner args)
  unfold RaisesWell
  rw [hraised]
  refine ⟨.of_symbol (hsame.trans_ne hlayout) ?_ ?_ ?_, ?_⟩
  · have hcore : (Term.call name (raisedArgs form (form.layout (.symbol name) args.length).inner
        args)).isOperation form outer = false := by
      simpa [isOperation, hsame] using hno
    simp [lastOperandHasNoBrackets, hcore]
  · rw [hsame]
    exact everywhere_raisedArgs h _
  · intro group hgroup
    cases hgroup
  · rw [Spine.forest, List.map_nil, List.append_nil]
    exact forest_app_congr hsame rfl rfl (map_forest_raisedArgs h _) _ marks

theorem raisesWell_of_operation {o : Operator} {args : List Term} {marks : Marks}
    (h : ∀ a ∈ args, ∀ outer, a.RaisesWell form outer)
    (hlayout : form.layout (.symbol o.name) args.length = .operation o)
    (hbare : o.isParenthesized outer = false) :
    (Term.app (.symbol o.name) args marks).RaisesWell form outer := by
  have hraised : (Term.app (.symbol o.name) args marks).raised form outer
      = .operation (.symbol o.name) (args.map (raised form (some o))) := by
    simp [raised, hlayout, hbare, raisedAll_eq_map]
  have hforests : (args.map (raised form (some o))).map (Spine.forest form (some o))
      = args.map (forest form (some o)) := by
    rw [List.map_map]
    exact List.map_congr_left fun a ha => (h a ha (some o)).2
  unfold RaisesWell
  rw [hraised, forest_operation hlayout, Tree.operation, hbare, if_neg (by simp), ← hforests]
  rcases List.eq_nil_or_concat' args with rfl | ⟨operands, last, rfl⟩
  · exact absurd (Operator.two_le_of_takes (Form.layout_eq_operation hlayout).2) (by simp)
  · obtain ⟨hoperands, hlast⟩ := List.forall_mem_append.mp h
    rw [List.map_append, List.map_singleton]
    refine Spine.operation_spec (by simpa using hlayout) hbare ?_ (hlast last ?_ (some o)).1
    · exact List.forall_mem_map.mpr fun a ha => (hoperands a ha (some o)).1
    · exact List.mem_cons_self

theorem raisesWell_of_brackets {head : Term} {args : List Term} {marks : Marks}
    (hhead : head.RaisesWell form outer) (h : ∀ a ∈ args, ∀ outer, a.RaisesWell form outer)
    (hlayout : form.layout head args.length = .brackets) :
    (Term.app head args marks).RaisesWell form outer := by
  obtain ⟨hspine, hforest⟩ := hhead
  have hraised : (Term.app head args marks).raised form outer
      = ⟨(head.raised form outer).core, (head.raised form outer).groups
          ++ [raisedArgs form none args]⟩ := by
    simp [raised, hlayout, raisedArgs]
  unfold RaisesWell
  rw [hraised]
  refine ⟨⟨?_, hspine.noBrackets, hspine.core, ?_⟩, ?_⟩
  · intro group hgroup
    cases hgroups : (head.raised form outer).groups with
    | nil =>
      -- there are no other brackets, so the head is the core
      rw [hgroups] at hgroup
      cases hgroup
      rw [Spine.forest, hgroups, List.map_nil, List.append_nil] at hforest
      rw [layout_eq_of_forest_eq hforest, length_raisedArgs, hlayout]
    | cons first rest =>
      refine hspine.layout group ?_
      rw [hgroups] at hgroup ⊢
      exact hgroup
  · exact List.forall_mem_append.mpr
      ⟨hspine.groups, List.forall_mem_singleton.mpr (everywhere_raisedArgs h none)⟩
  · rw [forest_brackets hlayout, ← hforest, ← map_forest_raisedArgs h]
    simp [Spine.forest]

/-- **Moving brackets leaves the forest as it is.** -/
theorem raisesWell (form : Form) (outer : Option Operator) (t : Term) :
    t.RaisesWell form outer := by
  induction t using induct generalizing outer with
  | atom a =>
    refine ⟨⟨?_, rfl, rfl, ?_⟩, List.append_nil _⟩
    · rintro _ ⟨⟩
    · nofun
  | app head args marks ihhead ihargs =>
    cases h : form.layout head args.length with
    | operation o =>
      obtain ⟨rfl, -⟩ := Form.layout_eq_operation h
      cases hpar : o.isParenthesized outer with
      | true => exact raisesWell_of_symbol ihargs (by simp [h]) (by simp [isOperation, h, hpar])
      | false => exact raisesWell_of_operation ihargs h hpar
    | braces =>
      obtain rfl := Form.layout_eq_braces h
      exact raisesWell_of_symbol ihargs (by simp [h]) (by simp [isOperation, h])
    | brackets => exact raisesWell_of_brackets (ihhead outer) ihargs h

theorem identical_regrouped_iff (form : Form) (t u : Term) :
    (t.regrouped form).identical (u.regrouped form) = true
      ↔ t.regrouped form = u.regrouped form := by
  unfold regrouped
  rw [identical_iff (coherent_unmarked _) (coherent_unmarked _), unmarked_unmarked,
    unmarked_unmarked]

theorem forest_regrouped (form : Form) (t : Term) :
    (t.regrouped form).forest form none = t.forest form none := by
  obtain ⟨hraised, hforest⟩ := raisesWell form none t
  rw [regrouped, forest_unmarked, hraised.forest_term, hforest]

/-- Terms are written as the same forest exactly if moving brackets makes them the same. -/
theorem regrouped_eq_iff (form : Form) (t u : Term) :
    t.regrouped form = u.regrouped form ↔ t.forest form none = u.forest form none := by
  constructor
  · intro h
    rw [← forest_regrouped, h, forest_regrouped]
  · intro h
    obtain ⟨ht, htforest⟩ := raisesWell form none t
    obtain ⟨hu, huforest⟩ := raisesWell form none u
    refine unmarked_eq_of_forest_eq (tellsApart_lastOperandHasNoBrackets form) ht.everywhere_term
      hu.everywhere_term ?_
    rw [ht.forest_term, hu.forest_term, htforest, huforest, h]

/-- **When two terms have one text in input form:** exactly if they become the same once brackets
are moved from last operands to operations. The terms are the same where no operation without
parentheses has brackets behind it. -/
theorem inputForm_eq_iff (ht : t.Coherent) (hu : u.Coherent) (hatoms : ∀ a ∈ t.atoms, a.Readable)
    (hatoms' : ∀ a ∈ u.atoms, a.Readable) (hwrap : t.Unwrapped) (hwrap' : u.Unwrapped) :
    (t.render Session.standard.table {} = u.render Session.standard.table {}
        ↔ (t.regrouped .inputForm).identical (u.regrouped .inputForm) = true)
      ∧ (t.everywhere .inputForm (headIsNoOperation .inputForm) none = true →
        u.everywhere .inputForm (headIsNoOperation .inputForm) none = true →
        (t.render Session.standard.table {} = u.render Session.standard.table {}
          ↔ t.identical u = true)) := by
  have hform : Form.inputForm ≠ .outputForm := by decide
  have htext := render_eq_iff_forest_eq hform (.inr rfl) hatoms hatoms' hwrap hwrap'
  constructor
  · rw [identical_regrouped_iff, regrouped_eq_iff, htext]
  · intro hhead hhead'
    rw [identical_iff ht hu, htext]
    constructor
    · exact unmarked_eq_of_forest_eq (tellsApart_headIsNoOperation .inputForm) hhead hhead'
    · intro h
      rw [← forest_unmarked, h, forest_unmarked]

/-- Brackets behind a sum are written like brackets behind its last operand; a product of a sum is
not written like a sum of products. -/
theorem inputForm_eq_iff_sum :
    (apply (call "Plus" [symbol "a", symbol "b"]) [symbol "c"]).render Session.standard.table {}
        = (call "Plus" [symbol "a", call "b" [symbol "c"]]).render Session.standard.table {}
      ∧ (call "Times" [call "Plus" [symbol "a", symbol "b"], symbol "c"]).render
          Session.standard.table {}
        ≠ (call "Plus" [symbol "a", call "Times" [symbol "b", symbol "c"]]).render
          Session.standard.table {} := by
  constructor
  · refine (inputForm_eq_iff ?_ ?_ ?_ ?_ ?_ ?_).1.mpr (by decide +kernel)
    · exact coherent_of_unmarked_eq rfl
    · exact coherent_of_unmarked_eq rfl
    · decide +kernel
    · decide +kernel
    · simp [Unwrapped, every_app, asksForForm]
    · simpa [Unwrapped, every_app, asksForForm] using (by decide : Form.ofName? "b" = none)
  · intro h
    refine absurd ((inputForm_eq_iff ?_ ?_ ?_ ?_ ?_ ?_).2 (by decide +kernel) (by decide +kernel)
      |>.mp h) (by decide +kernel)
    · exact coherent_of_unmarked_eq rfl
    · exact coherent_of_unmarked_eq rfl
    · decide +kernel
    · decide +kernel
    · simp [Unwrapped, every_app, asksForForm]
    · simp [Unwrapped, every_app, asksForForm]

/-- The text in input form alone does not determine the term. -/
theorem not_identical_of_inputForm_eq :
    ¬∀ t u : Term, t.Coherent → u.Coherent → (∀ a ∈ t.atoms, a.Readable) →
      (∀ a ∈ u.atoms, a.Readable) → t.Unwrapped → u.Unwrapped →
      t.render Session.standard.table {} = u.render Session.standard.table {} →
      t.identical u = true := by
  intro h
  refine absurd (h (apply (call "Plus" [symbol "a", symbol "b"]) [symbol "c"])
    (call "Plus" [symbol "a", call "b" [symbol "c"]]) ?_ ?_ ?_ ?_ ?_ ?_ ?_) (by decide +kernel)
  · exact coherent_of_unmarked_eq rfl
  · exact coherent_of_unmarked_eq rfl
  · decide +kernel
  · decide +kernel
  · simp [Unwrapped, every_app, asksForForm]
  · simpa [Unwrapped, every_app, asksForForm] using (by decide : Form.ofName? "b" = none)
  · decide +kernel

end Term

end TermRewriting
