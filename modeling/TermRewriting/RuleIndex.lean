import TermRewriting.Pattern
import TermRewriting.Rule
import TermRewriting.Symbols

/-!
# Rule index

An index sorts rules into buckets by their left-hand sides, so that for a term only those rules are
tried that may match it. A left-hand side that matches one term alone is found by its fingerprint, an
application by its head and number of arguments, or by its head where the number varies; all others
are always tried.
-/

namespace TermRewriting

/-- Where a left-hand side is filed. -/
inductive Bucket where
  | literal (fingerprint : UInt64)
  | arity (head : String) (count : Nat)
  | head (name : String)
  | general
deriving DecidableEq

namespace Term

mutual

/-- Whether no node of the term has a flat or orderless symbol as its head. -/
def isRigid (table : SymbolTable) : Term → Bool
  | .atom _ => true
  | .app head args _ =>
    !head.symbolName?.any (fun h => table.isFlat h || table.isOrderless h)
      && (head.isRigid table && allRigid table args)

def allRigid (table : SymbolTable) : List Term → Bool
  | [] => true
  | a :: as => a.isRigid table && allRigid table as

end

/-- Whether the term, as a pattern, matches no other term: it is free of patterns, and the order and
nesting of arguments matter throughout. -/
def isLiteral (table : SymbolTable) (t : Term) : Bool := t.isPatternFree && t.isRigid table

end Term

namespace Bucket

/-- The bucket of a left-hand side, `core` being what its conditions are about. -/
def ofCore (table : SymbolTable) (core : Term) : Bucket :=
  match core with
  | .atom _ => .literal core.fingerprint
  | .app h args _ =>
    match h.symbolName? with
    | none => .general
    | some name =>
      if core.isLiteral table then .literal core.fingerprint
      else if table.isFlat name || args.any Term.isVariadic then .head name
      else if isPatternHead name then .general
      else .arity name args.length

/-- The bucket of a left-hand side. -/
def ofLhs (table : SymbolTable) (lhs : Term) : Bucket := ofCore table lhs.core

/-- Whether the bucket is looked into for a term. -/
def covers (t : Term) : Bucket → Bool
  | .literal fingerprint => t.fingerprint == fingerprint
  | .arity name count => !t.isAtom && (t.headName? == some name && t.args.length == count)
  | .head name => !t.isAtom && t.headName? == some name
  | .general => true

end Bucket

/-- The numbers of rules with their buckets. -/
structure RuleIndex where
  entries : List (Bucket × Nat) := []

namespace RuleIndex

/-- Files a left-hand side under a number. -/
def insert (table : SymbolTable) (lhs : Term) (id : Nat) (index : RuleIndex) : RuleIndex :=
  ⟨index.entries ++ [(Bucket.ofLhs table lhs, id)]⟩

/-- Puts a number into an ascending list, once. -/
def insertAscending (id : Nat) : List Nat → List Nat
  | [] => [id]
  | other :: rest =>
    if id < other then id :: other :: rest
    else if id = other then other :: rest
    else other :: insertAscending id rest

theorem mem_insertAscending {id k : Nat} {l : List Nat} :
    k ∈ insertAscending id l ↔ k = id ∨ k ∈ l := by
  induction l with
  | nil => simp [insertAscending]
  | cons a as ih =>
    unfold insertAscending
    split
    · simp
    · split
      · next h => subst h; simp
      · simp only [List.mem_cons, ih]
        constructor
        · rintro (h | h | h) <;> simp [h]
        · rintro (h | h | h) <;> simp [h]

/-- The numbers of the rules that may match a term, ascending. -/
def candidates (index : RuleIndex) (t : Term) : List Nat :=
  ((index.entries.filter fun e => e.1.covers t).map Prod.snd).foldr insertAscending []

/-- The index of a list of rules, numbered from zero. -/
def ofRules (table : SymbolTable) (rules : List Rule) : RuleIndex :=
  ⟨rules.zipIdx.map fun r => (Bucket.ofLhs table r.1.lhs, r.2)⟩

/-- A rule is a candidate exactly when a bucket in which it is filed is looked into. -/
theorem mem_candidates {index : RuleIndex} {t : Term} {k : Nat} :
    k ∈ index.candidates t ↔ ∃ b, (b, k) ∈ index.entries ∧ b.covers t = true := by
  have key : ∀ l : List Nat, k ∈ l.foldr insertAscending [] ↔ k ∈ l := by
    intro l
    induction l with
    | nil => simp
    | cons a as ih => simp [List.foldr_cons, mem_insertAscending, ih]
  unfold candidates
  rw [key]
  constructor
  · intro h
    obtain ⟨⟨b, i⟩, hb, rfl⟩ := List.mem_map.mp h
    obtain ⟨hmem, hcov⟩ := List.mem_filter.mp hb
    exact ⟨b, hmem, hcov⟩
  · rintro ⟨b, hmem, hcov⟩
    exact List.mem_map.mpr ⟨(b, k), List.mem_filter.mpr ⟨hmem, hcov⟩, rfl⟩

end RuleIndex

end TermRewriting
