import TermRewriting.Digest
import TermRewriting.Term

/-!
# Fingerprints

The fingerprint of a term is a digest of its structure: a domain word for the kind of node, then the
text of the atom or the fingerprints of the parts. A node that was fingerprinted keeps the result in
its marks until it is edited, so `fingerprint` never descends below such a node.

A stamp joins the fingerprint of a node with the generation of a rule table. A node is normal under
a generation when it needs no evaluation and carries that stamp.
-/

namespace TermRewriting

open Digest

/-! ## Digests of nodes -/

/-- Zero is not a fingerprint; its place is taken by a fixed word. -/
def nonzero (h : UInt64) : UInt64 := if h = 0 then 0x9e3779b97f4a7c15 else h

theorem nonzero_ne_zero (h : UInt64) : nonzero h ≠ 0 := by
  unfold nonzero
  split
  · decide
  · assumption

namespace Domain

/-- The word in front of the parts of an application. -/
def application : UInt64 := 0x1e45d20556f40548

/-- The word in front of the name of a symbol. -/
def symbol : UInt64 := 0x6b00d8d115cc0a6b

/-- The word in front of the value of an integer. -/
def integer : UInt64 := 0x5e762e66715463f2

/-- The word in front of the bits of a real. -/
def real : UInt64 := 0xc9268cdd093fb411

/-- The word in front of the text of a string. -/
def string : UInt64 := 0xa535a76daa5d5266

end Domain

/-- The fingerprint of a text under a domain word. -/
def textFingerprint (domain : UInt64) (text : String) : UInt64 :=
  let (lanes, tail) := lanesOf text.toUTF8.toList
  nonzero (xxh64 0 (domain :: lanes) tail)

/-- The fingerprint of a word under a domain word. -/
def wordFingerprint (domain word : UInt64) : UInt64 :=
  nonzero (xxh64 0 [domain, word] [])

def Atom.fingerprint : Atom → UInt64
  | .symbol name => textFingerprint Domain.symbol name
  | .integer value => wordFingerprint Domain.integer value.toUInt64
  | .real value => wordFingerprint Domain.real value.bits
  | .string text => textFingerprint Domain.string text

/-- The fingerprint of a node from those of its parts, the head first. -/
def partsFingerprint (parts : List UInt64) : UInt64 :=
  nonzero (xxh64 0 (Domain.application :: parts) [])

/-! ## Fingerprints of terms -/

mutual

/-- The fingerprint of a term; a remembered one is taken as it is. -/
def Term.fingerprint : Term → UInt64
  | .atom a => a.fingerprint
  | .app head args marks =>
    match marks.fingerprint with
    | some remembered => remembered
    | none => partsFingerprint (head.fingerprint :: Term.fingerprints args)

def Term.fingerprints : List Term → List UInt64
  | [] => []
  | a :: as => a.fingerprint :: Term.fingerprints as

end

/-- A hash table is given the fingerprint of a term. -/
instance : Hashable Term := ⟨Term.fingerprint⟩

theorem Term.fingerprints_eq_map (args : List Term) :
    Term.fingerprints args = args.map Term.fingerprint := by
  induction args with
  | nil => rfl
  | cons a as ih => simp [Term.fingerprints, ih]

mutual

/-- The term once its fingerprint has been asked for: every node down to the remembered ones has
its fingerprint in its marks. -/
def Term.memoized : Term → Term
  | .atom a => .atom a
  | .app head args marks =>
    match marks.fingerprint with
    | some _ => .app head args marks
    | none =>
      let head := head.memoized
      let args := Term.memoizedAll args
      .app head args { marks with
        fingerprint := some (partsFingerprint (head.fingerprint :: args.map Term.fingerprint)) }

def Term.memoizedAll : List Term → List Term
  | [] => []
  | a :: as => a.memoized :: Term.memoizedAll as

end

/-! ## Normal forms -/

/-- The stamp of a node with this fingerprint under a generation: the digest of the generation,
seeded with the fingerprint. -/
def evaluationStamp (fingerprint generation : UInt64) : UInt64 :=
  nonzero (xxh64 fingerprint [generation] [])

mutual

/-- The term with every node marked as normal under a generation. -/
def Term.markNormal (generation : UInt64) : Term → Term
  | .atom a => .atom a
  | .app head args marks =>
    let head := head.markNormal generation
    let args := Term.markNormalAll generation args
    let fingerprint :=
      match marks.fingerprint with
      | some remembered => remembered
      | none => partsFingerprint (head.fingerprint :: args.map Term.fingerprint)
    .app head args ⟨false, some fingerprint, some (evaluationStamp fingerprint generation)⟩

def Term.markNormalAll (generation : UInt64) : List Term → List Term
  | [] => []
  | a :: as => a.markNormal generation :: Term.markNormalAll generation as

end

namespace Term

/-- Whether the term is marked as normal under a generation; atoms always are. -/
def isNormalUnder (generation : UInt64) : Term → Bool
  | .atom _ => true
  | t@(.app _ _ marks) =>
    !marks.needsEval && marks.stamp == some (evaluationStamp t.fingerprint generation)

/-- The term once `isNormalUnder` has been asked: the question needs the fingerprint of a node that
does not need evaluation, and of no other. -/
def askedNormal (t : Term) : Term := if t.needsEval then t else t.memoized

/-- The node with a stamp put on it. -/
def stamped (stamp : UInt64) : Term → Term
  | .atom a => .atom a
  | .app head args marks => .app head args { marks with stamp := some (nonzero stamp) }

/-- Whether the node carries a stamp. -/
def hasStamp (stamp : UInt64) : Term → Bool
  | .atom _ => false
  | .app _ _ marks => marks.stamp == some (nonzero stamp)

end Term

mutual

/-- The term once every node on the way down to the normal ones has been asked whether it is
normal. -/
def Term.askedThroughout : Term → Term
  | .atom a => .atom a
  | .app head args marks =>
    if marks.needsEval then
      .app head.askedThroughout (Term.askedThroughoutAll args) marks
    else (Term.app head args marks).memoized

def Term.askedThroughoutAll : List Term → List Term
  | [] => []
  | a :: as => a.askedThroughout :: Term.askedThroughoutAll as

end

mutual

/-- Whether every node on the way down to the normal ones has been asked already. -/
def Term.isAsked : Term → Bool
  | .atom _ => true
  | .app head args marks =>
    if marks.needsEval then head.isAsked && Term.allAsked args else marks.fingerprint.isSome

def Term.allAsked : List Term → Bool
  | [] => true
  | a :: as => a.isAsked && Term.allAsked as

end

mutual

/-- Asking again leaves a term as it is. -/
theorem Term.askedThroughout_of_isAsked (t : Term) (h : t.isAsked = true) :
    t.askedThroughout = t := by
  match t with
  | .atom _ => rfl
  | .app head args marks =>
    unfold Term.isAsked at h
    unfold Term.askedThroughout
    split at h
    · next eval =>
      obtain ⟨hhead, hargs⟩ := Bool.and_eq_true_iff.mp h
      rw [if_pos eval, Term.askedThroughout_of_isAsked head hhead,
        Term.askedThroughoutAll_of_allAsked args hargs]
    · next normal =>
      obtain ⟨fingerprint, hf⟩ := Option.isSome_iff_exists.mp h
      rw [if_neg normal]
      simp [Term.memoized, hf]

theorem Term.askedThroughoutAll_of_allAsked (args : List Term) (h : Term.allAsked args = true) :
    Term.askedThroughoutAll args = args := by
  match args with
  | [] => rfl
  | a :: as =>
    obtain ⟨ha, has⟩ := Bool.and_eq_true_iff.mp h
    rw [Term.askedThroughoutAll, Term.askedThroughout_of_isAsked a ha,
      Term.askedThroughoutAll_of_allAsked as has]

end

end TermRewriting
