import TermRewriting.Proofs.Rendering.Forest
import TermRewriting.Proofs.Term.Coherence

/-!
# Reading a forest

Two terms that are written as the same forest are built alike, with one exception: brackets that
stand behind an operation without parentheses may belong to the operation or to its last operand
(`forest_eq_cases`). So among terms for which one of the two is ruled out everywhere, the forest
determines the term (`unmarked_eq_of_forest_eq`). Full form has no operations, and there the text
determines the term (`display_eq_iff`).
-/

namespace TermRewriting

namespace Term

variable {form : Form} {outer : Option Operator} {t u : Term}

/-! ## Kinds of terms -/

/-- Whether the term is written as an operation without parentheses. -/
def isOperation (form : Form) (outer : Option Operator) : Term → Bool
  | .atom _ => false
  | .app head args _ =>
    match form.layout head args.length with
    | .operation o => !o.isParenthesized outer
    | .braces => false
    | .brackets => false

/-- Whether the term is written with brackets behind its head. -/
def isBracketed (form : Form) : Term → Bool
  | .atom _ => false
  | .app head args _ => form.layout head args.length = .brackets

/-- How a term is written that is a single tree. -/
inductive WrittenAsOne (form : Form) (outer : Option Operator) : Term → Tree → Prop
  | atom (a : Atom) : WrittenAsOne form outer (.atom a) (.sign (.atom a))
  | parenthesized (o : Operator) (args : List Term) (marks : Marks) :
      form.layout (.symbol o.name) args.length = .operation o → o.isParenthesized outer = true →
      WrittenAsOne form outer (.app (.symbol o.name) args marks)
        (.group .round (Tree.divided (.operator o) (args.map (forest form (some o)))))
  | braces (args : List Term) (marks : Marks) :
      form.layout (.symbol "List") args.length = .braces →
      WrittenAsOne form outer (.app (.symbol "List") args marks)
        (.group .curly (Tree.divided .comma (args.map (forest form none))))

/-- How a term is written. -/
inductive Written (form : Form) (outer : Option Operator) : Term → List Tree → Prop
  | one {t : Term} {x : Tree} : WrittenAsOne form outer t x → Written form outer t [x]
  | operation (o : Operator) (args : List Term) (marks : Marks) :
      form.layout (.symbol o.name) args.length = .operation o → o.isParenthesized outer = false →
      Written form outer (.app (.symbol o.name) args marks)
        (Tree.divided (.operator o) (args.map (forest form (some o))))
  | brackets (head : Term) (args : List Term) (marks : Marks) :
      form.layout head args.length = .brackets →
      Written form outer (.app head args marks)
        (head.forest form outer ++ [Tree.listed .square (args.map (forest form none))])

theorem written (form : Form) (outer : Option Operator) (t : Term) :
    Written form outer t (t.forest form outer) := by
  cases t with
  | atom a => exact .one (.atom a)
  | app head args marks =>
    cases h : form.layout head args.length with
    | operation o =>
      rw [forest_operation h, Tree.operation]
      obtain ⟨rfl, -⟩ := Form.layout_eq_operation h
      cases hpar : o.isParenthesized outer with
      | false => exact .operation o args marks h hpar
      | true => exact .one (.parenthesized o args marks h hpar)
    | braces =>
      rw [forest_braces h]
      obtain rfl := Form.layout_eq_braces h
      exact .one (.braces args marks h)
    | brackets =>
      rw [forest_brackets h]
      exact .brackets head args marks h

/-- An operation without parentheses is more than one tree. -/
theorem divided_operands_ne_singleton {o : Operator} {args : List Term}
    (h : form.layout (.symbol o.name) args.length = .operation o) (x : Tree) :
    Tree.divided (.operator o) (args.map (forest form (some o))) ≠ [x] := by
  intro hone
  match args, Operator.two_le_of_takes (Form.layout_eq_operation h).2 with
  | a :: b :: args, _ =>
    rw [List.map_cons, List.map_cons, Tree.divided_cons_cons] at hone
    cases hfirst : a.forest form (some o) with
    | nil => exact forest_ne_nil form (some o) a hfirst
    | cons y ys => simp [hfirst] at hone

/-- Brackets behind a head are more than one tree. -/
theorem forest_append_ne_singleton (head : Term) (x y : Tree) :
    head.forest form outer ++ [y] ≠ [x] := by
  intro hone
  cases hfirst : head.forest form outer with
  | nil => exact forest_ne_nil form outer head hfirst
  | cons z zs => simp [hfirst] at hone

/-! ## Signs -/

/-- The operators at the top bind more tightly than the operator around the term, and there are no
commas. -/
theorem sign_mem_forest {s : Sign} (h : .sign s ∈ t.forest form outer) :
    (∃ a, s = .atom a) ∨ ∃ o, s = .operator o ∧ ∀ p ∈ outer, p.level < o.level := by
  induction t using induct generalizing outer with
  | atom a =>
    cases List.mem_singleton.mp h
    exact .inl ⟨a, rfl⟩
  | app head args marks ihhead ihargs =>
    generalize hfs : (Term.app head args marks).forest form outer = fs at h
    cases hfs ▸ written form outer (.app head args marks) with
    | one hx => cases hx <;> simp at h
    | operation o _ _ _ hbare =>
      have hlevel : ∀ p ∈ outer, p.level < o.level := by
        rintro p rfl
        simpa [Operator.isParenthesized] using hbare
      rcases Tree.mem_divided h with hs | ⟨p, hp, hs⟩
      · cases hs
        exact .inr ⟨o, rfl, hlevel⟩
      · obtain ⟨a, ha, rfl⟩ := List.mem_map.mp hp
        obtain ha | ⟨o', rfl, ho'⟩ := ihargs a ha hs
        · exact .inl ha
        · exact .inr ⟨o', rfl, fun p hp => (hlevel p hp).trans (ho' o rfl)⟩
    | brackets _ _ _ _ =>
      rw [List.mem_append] at h
      rcases h with h | h
      · exact ihhead h
      · simp [Tree.listed] at h

theorem comma_not_mem_forest (form : Form) (outer : Option Operator) (t : Term) :
    .sign .comma ∉ t.forest form outer := by
  intro h
  rcases sign_mem_forest h with ⟨a, ha⟩ | ⟨o, ho, -⟩
  · cases ha
  · cases ho

theorem level_lt_of_operator_mem_forest {o p : Operator}
    (h : .sign (.operator o) ∈ t.forest form (some p)) : p.level < o.level := by
  rcases sign_mem_forest h with ⟨a, ha⟩ | ⟨o', ho, hlevel⟩
  · cases ha
  · cases ho
    exact hlevel p rfl

/-! ## Parts -/

/-- Commas divide the arguments in one way. -/
theorem elements_injective {args args' : List Term}
    (h : Tree.divided .comma (args.map (forest form none))
      = Tree.divided .comma (args'.map (forest form none))) :
    args.map (forest form none) = args'.map (forest form none) := by
  have hparts : ∀ args : List Term, ∀ p ∈ args.map (forest form none),
      p ≠ [] ∧ .sign .comma ∉ p := fun args =>
    List.forall_mem_map.mpr fun a _ => ⟨forest_ne_nil form none a, comma_not_mem_forest form none a⟩
  exact Tree.divided_injective (hparts args) (hparts args') h

theorem sign_mem_divided_operands {o : Operator} {args : List Term}
    (h : form.layout (.symbol o.name) args.length = .operation o) :
    .sign (.operator o) ∈ Tree.divided (.operator o) (args.map (forest form (some o))) :=
  Tree.sign_mem_divided (by simpa using Operator.two_le_of_takes (Form.layout_eq_operation h).2)

/-- An operator stands between its operands but not in them at the top. -/
theorem operands_injective {o o' : Operator} {args args' : List Term}
    (hlayout : form.layout (.symbol o.name) args.length = .operation o)
    (hlayout' : form.layout (.symbol o'.name) args'.length = .operation o')
    (h : Tree.divided (.operator o) (args.map (forest form (some o)))
      = Tree.divided (.operator o') (args'.map (forest form (some o')))) :
    o = o' ∧ args.map (forest form (some o)) = args'.map (forest form (some o')) := by
  -- an operator of one side is the operator of the other side or binds more tightly
  have hlevel : ∀ {o o' : Operator} {args : List Term},
      .sign (.operator o) ∈ Tree.divided (.operator o') (args.map (forest form (some o'))) →
        o = o' ∨ o'.level < o.level := by
    intro o o' args hmem
    rcases Tree.mem_divided hmem with hs | ⟨p, hp, hs⟩
    · cases hs
      exact .inl rfl
    · obtain ⟨a, -, rfl⟩ := List.mem_map.mp hp
      exact .inr (level_lt_of_operator_mem_forest hs)
  have hsame : o = o' := by
    have hmem : .sign (.operator o)
        ∈ Tree.divided (.operator o) (args.map (forest form (some o))) :=
      sign_mem_divided_operands hlayout
    have hmem' : .sign (.operator o')
        ∈ Tree.divided (.operator o') (args'.map (forest form (some o'))) :=
      sign_mem_divided_operands hlayout'
    rcases hlevel (h ▸ hmem) with hsame | hlt
    · exact hsame
    · rcases hlevel (h.symm ▸ hmem') with hsame | hlt'
      · exact hsame.symm
      · omega
  subst hsame
  have hparts : ∀ args : List Term, ∀ p ∈ args.map (forest form (some o)),
      p ≠ [] ∧ .sign (.operator o) ∉ p := fun args =>
    List.forall_mem_map.mpr fun a _ =>
      ⟨forest_ne_nil form _ a, fun hmem => absurd (level_lt_of_operator_mem_forest hmem) (by omega)⟩
  exact ⟨rfl, Tree.divided_injective (hparts args) (hparts args') h⟩

/-! ## Equal forests -/

/-- The terms are built alike from parts that are written alike. -/
inductive BuiltAlike (form : Form) (outer : Option Operator) : Term → Term → Prop
  | atom (a : Atom) : BuiltAlike form outer (.atom a) (.atom a)
  | named {name : String} {layout : Layout} {args args' : List Term} {marks marks' : Marks} :
      form.layout (.symbol name) args.length = layout →
      form.layout (.symbol name) args'.length = layout →
      args.map (forest form layout.inner) = args'.map (forest form layout.inner) →
      BuiltAlike form outer (.app (.symbol name) args marks) (.app (.symbol name) args' marks')
  | brackets {head head' : Term} {args args' : List Term} {marks marks' : Marks} :
      form.layout head args.length = .brackets → form.layout head' args'.length = .brackets →
      head.forest form outer = head'.forest form outer →
      args.map (forest form none) = args'.map (forest form none) →
      BuiltAlike form outer (.app head args marks) (.app head' args' marks')

theorem BuiltAlike.of_asOne {x : Tree} (ht : WrittenAsOne form outer t x)
    (hu : WrittenAsOne form outer u x) : BuiltAlike form outer t u := by
  generalize hy : x = y at hu
  cases ht with
  | atom a =>
    cases hu with
    | atom b =>
      cases hy
      exact .atom a
    | parenthesized _ _ _ _ _ | braces _ _ _ => cases hy
  | parenthesized o args _ hlayout _ =>
    cases hu with
    | parenthesized o' args' _ hlayout' _ =>
      injection hy with _ hinside
      obtain ⟨rfl, hparts⟩ := operands_injective hlayout hlayout' hinside
      exact .named hlayout hlayout' hparts
    | atom _ | braces _ _ _ => cases hy
  | braces args _ hlayout =>
    cases hu with
    | braces args' _ hlayout' =>
      injection hy with _ hinside
      exact .named hlayout hlayout' (elements_injective hinside)
    | atom _ | parenthesized _ _ _ _ _ => cases hy

/-- **Terms that are written as the same forest are built alike,** unless one is an operation
without parentheses and the other one has brackets behind its head. -/
theorem forest_eq_cases (h : t.forest form outer = u.forest form outer) :
    BuiltAlike form outer t u ∨ (t.isOperation form outer = true ∧ u.isBracketed form = true)
      ∨ (t.isBracketed form = true ∧ u.isOperation form outer = true) := by
  generalize hfs : t.forest form outer = fs at h
  generalize hgs : u.forest form outer = gs at h
  cases hfs ▸ written form outer t with
  | one hx =>
    cases hgs ▸ written form outer u with
    | one hy =>
      cases h
      exact .inl (.of_asOne hx hy)
    | operation o args _ hlayout _ => exact absurd h.symm (divided_operands_ne_singleton hlayout _)
    | brackets head _ _ _ => exact absurd h.symm (forest_append_ne_singleton head _ _)
  | operation o args _ hlayout hbare =>
    cases hgs ▸ written form outer u with
    | one _ => exact absurd h (divided_operands_ne_singleton hlayout _)
    | operation o' args' _ hlayout' _ =>
      obtain ⟨rfl, hparts⟩ := operands_injective hlayout hlayout' h
      exact .inl (.named hlayout hlayout' hparts)
    | brackets _ _ _ hbrackets =>
      exact .inr (.inl ⟨by simp [isOperation, hlayout, hbare], by simp [isBracketed, hbrackets]⟩)
  | brackets head args _ hbrackets =>
    cases hgs ▸ written form outer u with
    | one _ => exact absurd h (forest_append_ne_singleton head _ _)
    | operation _ _ _ hlayout hbare =>
      exact .inr (.inr ⟨by simp [isBracketed, hbrackets], by simp [isOperation, hlayout, hbare]⟩)
    | brackets head' args' _ hbrackets' =>
      obtain ⟨hhead, hgroup⟩ := List.append_inj' h rfl
      simp only [Tree.listed, List.cons.injEq, Tree.group.injEq, true_and, and_true] at hgroup
      exact .inl (.brackets hbrackets hbrackets' hhead (elements_injective hgroup))

/-! ## Conditions on all applications -/

mutual

/-- The condition holds of all applications in the term, each with the operator around it. -/
def everywhere (form : Form) (condition : Option Operator → Term → Bool)
    (outer : Option Operator) : Term → Bool
  | .atom _ => true
  | .app head args marks =>
    condition outer (.app head args marks) && head.everywhere form condition outer
      && everywhereAll form condition (form.layout head args.length).inner args

def everywhereAll (form : Form) (condition : Option Operator → Term → Bool)
    (outer : Option Operator) : List Term → Bool
  | [] => true
  | a :: as => a.everywhere form condition outer && everywhereAll form condition outer as

end

variable {condition : Option Operator → Term → Bool}

theorem everywhereAll_iff {args : List Term} :
    everywhereAll form condition outer args = true
      ↔ ∀ a ∈ args, a.everywhere form condition outer = true := by
  induction args with
  | nil => simp [everywhereAll]
  | cons a as ih => rw [everywhereAll, Bool.and_eq_true, ih, List.forall_mem_cons]

theorem everywhere_app {head : Term} {args : List Term} {marks : Marks} :
    (Term.app head args marks).everywhere form condition outer = true
      ↔ condition outer (.app head args marks) = true
        ∧ head.everywhere form condition outer = true
        ∧ ∀ a ∈ args, a.everywhere form condition (form.layout head args.length).inner = true := by
  rw [everywhere, Bool.and_eq_true, Bool.and_eq_true, everywhereAll_iff, and_assoc]

/-- Under the condition no operation without parentheses is written like a term with brackets behind
its head. -/
def TellsApart (form : Form) (condition : Option Operator → Term → Bool) : Prop :=
  ∀ (outer : Option Operator) (t u : Term), t.everywhere form condition outer = true →
    u.everywhere form condition outer = true → t.isOperation form outer = true →
    u.isBracketed form = true → t.forest form outer ≠ u.forest form outer

theorem map_unmarked_eq {f : Term → List Tree} {args args' : List Term}
    (hsame : ∀ a ∈ args, ∀ b ∈ args', f a = f b → a.unmarked = b.unmarked)
    (h : args.map f = args'.map f) : args.map unmarked = args'.map unmarked := by
  induction args generalizing args' with
  | nil =>
    cases args' with
    | nil => rfl
    | cons b bs => cases h
  | cons a as ih =>
    cases args' with
    | nil => cases h
    | cons b bs =>
      obtain ⟨hfirst, hrest⟩ := List.cons.inj h
      have htail := ih (fun a ha b hb =>
        hsame a (List.mem_cons_of_mem _ ha) b (List.mem_cons_of_mem _ hb)) hrest
      rw [List.map_cons, List.map_cons, hsame a List.mem_cons_self b List.mem_cons_self hfirst,
        htail]

/-- **Reading:** where a condition tells the terms apart, the forest determines the term. -/
theorem unmarked_eq_of_forest_eq (hcondition : TellsApart form condition)
    (ht : t.everywhere form condition outer = true) (hu : u.everywhere form condition outer = true)
    (h : t.forest form outer = u.forest form outer) : t.unmarked = u.unmarked := by
  induction t using induct generalizing u outer with
  | atom a =>
    rcases forest_eq_cases h with hbuilt | ⟨hoperation, -⟩ | ⟨hbracketed, -⟩
    · cases hbuilt
      rfl
    · cases hoperation
    · cases hbracketed
  | app head args marks ihhead ihargs =>
    rcases forest_eq_cases h with hbuilt | ⟨hoperation, hbracketed⟩ | ⟨hbracketed, hoperation⟩
    · cases hbuilt with
      | named hlayout hlayout' hparts =>
        obtain ⟨-, -, hargs⟩ := everywhere_app.mp ht
        obtain ⟨-, -, hargs'⟩ := everywhere_app.mp hu
        rw [hlayout] at hargs
        rw [hlayout'] at hargs'
        rw [unmarked_app, unmarked_app,
          map_unmarked_eq (fun a ha b hb => ihargs a ha (hargs a ha) (hargs' b hb)) hparts]
      | brackets hlayout hlayout' hheads hparts =>
        obtain ⟨-, hhead, hargs⟩ := everywhere_app.mp ht
        obtain ⟨-, hhead', hargs'⟩ := everywhere_app.mp hu
        rw [hlayout] at hargs
        rw [hlayout'] at hargs'
        rw [unmarked_app, unmarked_app, ihhead hhead hhead' hheads,
          map_unmarked_eq (fun a ha b hb => ihargs a ha (hargs a ha) (hargs' b hb)) hparts]
    · exact absurd h (hcondition _ _ _ ht hu hoperation hbracketed)
    · exact absurd h.symm (hcondition _ _ _ hu ht hoperation hbracketed)

/-! ## Full form -/

theorem everywhere_of_forall (h : ∀ outer s, condition outer s = true) (t : Term) :
    t.everywhere form condition outer = true := by
  induction t using induct generalizing outer with
  | atom a => rfl
  | app head args marks ihhead ihargs =>
    exact everywhere_app.mpr ⟨h _ _, ihhead, fun a ha => ihargs a ha⟩

theorem isOperation_fullForm (outer : Option Operator) (t : Term) :
    t.isOperation .fullForm outer = false := by
  cases t with
  | atom a => rfl
  | app head args marks => simp [isOperation]

/-- **The text in full form determines the term,** where its words are identifiers, there are no
reals and nothing is written in a form of its own. -/
theorem display_eq_iff (ht : t.Coherent) (hu : u.Coherent) (hatoms : ∀ a ∈ t.atoms, a.Readable)
    (hatoms' : ∀ a ∈ u.atoms, a.Readable) (hwrap : t.Unwrapped) (hwrap' : u.Unwrapped) :
    t.display = u.display ↔ t.identical u = true := by
  have hcondition : TellsApart .fullForm fun _ _ => true := by
    intro outer s _ _ _ hoperation
    simp [isOperation_fullForm] at hoperation
  rw [identical_iff ht hu, display, display,
    render_eq_iff_forest_eq (by decide) (.inl rfl) hatoms hatoms' hwrap hwrap']
  constructor
  · exact unmarked_eq_of_forest_eq hcondition (everywhere_of_forall (fun _ _ => rfl) t)
      (everywhere_of_forall (fun _ _ => rfl) u)
  · intro h
    rw [← forest_unmarked, h, forest_unmarked]

/-- One string with quotes and a comma in it is not written like two strings. -/
theorem display_eq_iff_quotes :
    (call "f" [string "a\", \"b"]).display ≠ (call "f" [string "a", string "b"]).display := by
  intro h
  refine absurd ((display_eq_iff ?_ ?_ ?_ ?_ ?_ ?_).mp h) (by decide +kernel)
  · exact coherent_of_unmarked_eq rfl
  · exact coherent_of_unmarked_eq rfl
  · decide +kernel
  · decide +kernel
  · simpa [Unwrapped, every_app, asksForForm] using (by decide : Form.ofName? "f" = none)
  · simp [Unwrapped, every_app, asksForForm]

end Term

end TermRewriting
