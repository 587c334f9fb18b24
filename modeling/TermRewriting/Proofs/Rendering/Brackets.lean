import TermRewriting.Proofs.Rendering.Tokens

/-!
# Brackets

A list of tokens whose brackets match is a forest: a tree is a token that is no bracket, or a pair
of brackets around a forest. The tokens determine the forest (`tokensAll_injective`), and a forest
that is divided by a sign determines its parts (`divided_injective`).
-/

namespace TermRewriting

/-- A token that is no bracket, or what stands between two brackets. -/
inductive Tree where
  | sign (s : Sign)
  | group (b : Bracket) (inside : List Tree)

namespace Tree

mutual

def tokens : Tree → List Token
  | .sign s => [.sign s]
  | .group b inside => .opening b :: (tokensAll inside ++ [.closing b])

/-- The tokens of a forest. -/
def tokensAll : List Tree → List Token
  | [] => []
  | t :: ts => t.tokens ++ tokensAll ts

end

@[simp] theorem tokensAll_append (ts us : List Tree) :
    tokensAll (ts ++ us) = tokensAll ts ++ tokensAll us := by
  induction ts with
  | nil => rfl
  | cons t ts ih => rw [List.cons_append, tokensAll, tokensAll, ih, List.append_assoc]

@[simp] theorem tokensAll_nil : tokensAll [] = [] := rfl

@[simp] theorem tokensAll_sign (s : Sign) (ts : List Tree) :
    tokensAll (.sign s :: ts) = .sign s :: tokensAll ts := rfl

@[simp] theorem tokensAll_group (b : Bracket) (inside : List Tree) :
    tokensAll [.group b inside] = .opening b :: (tokensAll inside ++ [.closing b]) :=
  List.append_nil _

theorem spelled_group (b : Bracket) (inside : List Tree) :
    spelled (tokensAll [.group b inside])
      = b.openingChar :: (spelled (tokensAll inside) ++ [b.closingChar]) := by
  simp [Token.chars]

theorem mem_tokensAll {x : Token} {ts : List Tree} : x ∈ tokensAll ts ↔ ∃ t ∈ ts, x ∈ t.tokens := by
  induction ts with
  | nil => simp
  | cons t ts ih => simp [tokensAll, ih]

/-- Induction on a forest: what is inside the first tree, if it is a group, and what follows. -/
theorem forest_induct {P : List Tree → Prop} (nil : P [])
    (sign : ∀ s ts, P ts → P (.sign s :: ts))
    (group : ∀ b inside ts, P inside → P ts → P (.group b inside :: ts)) (ts : List Tree) :
    P ts := by
  -- the motive for a tree says that it may be put in front of a forest
  refine @Tree.rec_1 (fun t => ∀ ts, P ts → P (t :: ts)) P ?_ ?_ nil ?_ ts
  · exact sign
  · exact fun b inside ihinside ts => group b inside ts ihinside
  · exact fun t ts iht ihts => iht ts ihts

/-- Nothing stands in front of the next closing bracket. -/
def Closes (r : List Token) : Prop := ∀ t ∈ r.head?, ∃ b, t = .closing b

theorem closes_nil : Closes [] := by
  intro t ht
  cases ht

theorem closes_closing (b : Bracket) (r : List Token) : Closes (.closing b :: r) := by
  intro t ht
  cases ht
  exact ⟨b, rfl⟩

theorem not_closes_tokensAll (t : Tree) (ts : List Tree) (r : List Token) :
    ¬Closes (tokensAll (t :: ts) ++ r) := by
  intro h
  cases t with
  | sign s =>
    obtain ⟨b, hb⟩ := h _ rfl
    cases hb
  | group b inside =>
    obtain ⟨b, hb⟩ := h _ rfl
    cases hb

/-- A forest ends where the brackets around it do. -/
theorem tokensAll_append_inj {ts us : List Tree} {r r' : List Token} (hr : Closes r)
    (hr' : Closes r') (h : tokensAll ts ++ r = tokensAll us ++ r') : ts = us ∧ r = r' := by
  induction ts using forest_induct generalizing us r r' with
  | nil =>
    cases us with
    | nil => exact ⟨rfl, h⟩
    | cons u us =>
      subst h
      exact absurd hr (not_closes_tokensAll u us r')
  | sign s ts ih =>
    match us with
    | [] =>
      subst h
      exact absurd hr' (not_closes_tokensAll _ ts r)
    | .sign s' :: us =>
      obtain ⟨hsign, hrest⟩ := List.cons.inj h
      cases hsign
      obtain ⟨rfl, hr⟩ := ih hr hr' hrest
      exact ⟨rfl, hr⟩
    | .group b inside :: us => cases (List.cons.inj h).1
  | group b inside ts ihinside ih =>
    match us with
    | [] =>
      subst h
      exact absurd hr' (not_closes_tokensAll _ ts r)
    | .sign s :: us => cases (List.cons.inj h).1
    | .group c others :: us =>
      simp only [tokensAll, tokens, List.cons_append, List.append_assoc, List.nil_append,
        List.cons.injEq, Token.opening.injEq] at h
      obtain ⟨rfl, hinside⟩ := h
      obtain ⟨rfl, hrest⟩ := ihinside (closes_closing b _) (closes_closing b _) hinside
      obtain ⟨rfl, hr⟩ := ih hr hr' (List.tail_eq_of_cons_eq hrest)
      exact ⟨rfl, hr⟩

/-- **Brackets match in one way:** the tokens of a forest determine it. -/
theorem tokensAll_injective {ts us : List Tree} (h : tokensAll ts = tokensAll us) : ts = us := by
  have happend : tokensAll ts ++ [] = tokensAll us ++ [] := by rw [h]
  exact (tokensAll_append_inj closes_nil closes_nil happend).1

/-! ## Divided forests -/

/-- The forests one after the other, a sign between each two. -/
def divided (s : Sign) (parts : List (List Tree)) : List Tree := [.sign s].intercalate parts

@[simp] theorem divided_nil (s : Sign) : divided s [] = [] := List.intercalate_nil

@[simp] theorem divided_singleton (s : Sign) (p : List Tree) : divided s [p] = p :=
  List.intercalate_singleton

theorem divided_cons_cons (s : Sign) (p q : List Tree) (parts : List (List Tree)) :
    divided s (p :: q :: parts) = p ++ .sign s :: divided s (q :: parts) := by
  rw [divided, List.intercalate_cons_cons, List.append_assoc]
  rfl

/-- What follows the last part follows the whole. -/
theorem divided_append_last (s : Sign) (parts : List (List Tree)) (p ts : List Tree) :
    divided s (parts ++ [p ++ ts]) = divided s (parts ++ [p]) ++ ts := by
  induction parts with
  | nil => simp
  | cons q parts ih =>
    cases parts with
    | nil => simp [divided_cons_cons]
    | cons r parts =>
      simp only [List.cons_append] at ih ⊢
      rw [divided_cons_cons, ih, divided_cons_cons, List.append_assoc, List.cons_append]

theorem mem_divided {s : Sign} {parts : List (List Tree)} {t : Tree} (h : t ∈ divided s parts) :
    t = .sign s ∨ ∃ p ∈ parts, t ∈ p := by
  induction parts with
  | nil => cases h
  | cons p parts ih =>
    cases parts with
    | nil => exact .inr ⟨p, List.mem_cons_self, by simpa using h⟩
    | cons q parts =>
      rw [divided_cons_cons, List.mem_append, List.mem_cons] at h
      obtain h | h | h := h
      · exact .inr ⟨p, List.mem_cons_self, h⟩
      · exact .inl h
      · refine (ih h).imp id ?_
        rintro ⟨r, hr, ht⟩
        exact ⟨r, List.mem_cons_of_mem p hr, ht⟩

theorem sign_mem_divided {s : Sign} {parts : List (List Tree)} (h : 2 ≤ parts.length) :
    .sign s ∈ divided s parts := by
  match parts, h with
  | p :: q :: parts, _ =>
    rw [divided_cons_cons]
    exact List.mem_append_right p List.mem_cons_self

theorem spelled_divided (s : Sign) (parts : List (List Tree)) :
    spelled (tokensAll (divided s parts))
      = (Token.sign s).chars.intercalate (parts.map fun p => spelled (tokensAll p)) := by
  induction parts with
  | nil => rfl
  | cons p parts ih =>
    cases parts with
    | nil => simp
    | cons q parts =>
      rw [divided_cons_cons, tokensAll_append, tokensAll_sign, spelled_append, spelled_cons, ih]
      simp [List.intercalate_cons_cons]

theorem divided_ne_nil {s : Sign} {parts : List (List Tree)} (hne : parts ≠ [])
    (hparts : ∀ p ∈ parts, p ≠ []) : divided s parts ≠ [] := by
  match parts, hne with
  | [p], _ =>
    rw [divided_singleton]
    exact hparts p List.mem_cons_self
  | p :: q :: parts, _ => simp [divided_cons_cons]

/-- The tokens of a divided forest are those of its parts and the sign. -/
theorem mem_tokensAll_divided {x : Token} {s : Sign} {parts : List (List Tree)}
    (h : x ∈ tokensAll (divided s parts)) : x = .sign s ∨ ∃ p ∈ parts, x ∈ tokensAll p := by
  obtain ⟨t, ht, hx⟩ := mem_tokensAll.mp h
  rcases mem_divided ht with rfl | ⟨p, hp, htp⟩
  · exact .inl (List.mem_singleton.mp hx)
  · exact .inr ⟨p, hp, mem_tokensAll.mpr ⟨t, htp, hx⟩⟩

/-- **A divided forest determines its parts,** if none is empty or has the sign itself. -/
theorem divided_injective {s : Sign} {ps qs : List (List Tree)}
    (hps : ∀ p ∈ ps, p ≠ [] ∧ .sign s ∉ p) (hqs : ∀ q ∈ qs, q ≠ [] ∧ .sign s ∉ q)
    (h : divided s ps = divided s qs) : ps = qs := by
  classical
  by_cases hp : ps = []
  · subst hp
    by_contra hq
    exact divided_ne_nil (Ne.symm hq) (fun q hq => (hqs q hq).1) h.symm
  · by_cases hq : qs = []
    · subst hq
      exact absurd h (divided_ne_nil hp fun p hp => (hps p hp).1)
    · rw [← List.splitOn_intercalate (.sign s) (fun p hp => (hps p hp).2) hp]
      rw [← List.splitOn_intercalate (.sign s) (fun q hq => (hqs q hq).2) hq]
      exact congrArg _ h

/-- Signs that are no atoms keep the parts apart. -/
theorem separated_divided {s : Sign} (hs : (Token.sign s).isAtom = false)
    {parts : List (List Tree)} :
    Separated (tokensAll (divided s parts)) ↔ ∀ p ∈ parts, Separated (tokensAll p) := by
  induction parts with
  | nil => simp [Separated]
  | cons p parts ih =>
    cases parts with
    | nil => simp
    | cons q parts =>
      rw [divided_cons_cons, tokensAll_append, tokensAll_sign, separated_append_mark hs, ih,
        List.forall_mem_cons (l := q :: parts)]

theorem separated_group {b : Bracket} {inside : List Tree} :
    Separated (tokensAll [.group b inside]) ↔ Separated (tokensAll inside) := by
  have hopening : Separated ([] ++ .opening b :: (tokensAll inside ++ [.closing b])) ↔ _ :=
    separated_append_mark rfl
  have hclosing : Separated (tokensAll inside ++ .closing b :: []) ↔ _ :=
    separated_append_mark rfl
  rw [tokensAll_group]
  simpa [Separated] using hopening.trans (and_congr_right fun _ => hclosing)

end Tree

end TermRewriting
