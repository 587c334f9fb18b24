import TermRewriting.Term.Fingerprint
import TermRewriting.Term.Order

/-!
# Editing terms in place

A path leads from a term down to one of its nodes. An edit of that node goes through all nodes above
it, and each of them loses its marks: what was known about it may no longer hold. An observation, by
contrast, leaves the nodes above as they are.
-/

namespace TermRewriting

/-! ## Paths -/

/-- One step down. -/
inductive Descent where
  | toHead
  | toArg (i : Nat)
deriving DecidableEq

abbrev Path := List Descent

namespace Term

/-- The node at a path. -/
def at? : Path → Term → Option Term
  | [], t => some t
  | _ :: _, .atom _ => none
  | .toHead :: path, .app head _ _ => head.at? path
  | .toArg i :: path, .app _ args _ => args[i]?.bind (at? path)

/-- Changes the node at a path, and the marks of the nodes above it. -/
def changeAt (marksAbove : Marks → Marks) (change : Term → Term) : Path → Term → Term
  | [], t => change t
  | _ :: _, .atom a => .atom a
  | .toHead :: path, .app head args marks =>
    .app (changeAt marksAbove change path head) args (marksAbove marks)
  | .toArg i :: path, .app head args marks =>
    .app head (args.modify i (changeAt marksAbove change path)) (marksAbove marks)

/-- Changes the node at a path as an edit: the nodes above it lose their marks. -/
def editAt (change : Term → Term) (path : Path) (t : Term) : Term :=
  t.changeAt (fun _ => .fresh) change path

/-- Changes what the node at a path remembers; the nodes above it keep their marks. -/
def observeAt (change : Term → Term) (path : Path) (t : Term) : Term :=
  t.changeAt id change path

end Term

/-! ## Edits -/

/-- The marks of a node that forgets its fingerprint and its stamp. -/
def Marks.forgotten (m : Marks) : Marks := { needsEval := m.needsEval }

inductive Edit where
  /-- Marks all nodes as normal under a generation. -/
  | markNormal (generation : UInt64)
  /-- Adds an argument at the end. -/
  | push (arg : Term)
  /-- Adds arguments at the end. -/
  | extend (args : List Term)
  | setArgs (args : List Term)
  | setHead (head : Term)
  /-- Replaces an argument. -/
  | setArg (i : Nat) (arg : Term)
  /-- Takes away the last argument. -/
  | pop
  | reverse
  /-- Exchanges two arguments. -/
  | exchange (i j : Nat)
  /-- Puts the arguments in canonical order. -/
  | sort
  /-- Forgets the fingerprint and the stamp of the node. -/
  | forget
  | setNeedsEval (value : Bool)

/-- What an edit answers. -/
inductive EditAnswer where
  | done
  /-- The argument that was taken away, if there was one. -/
  | removed (arg : Option Term)
  /-- Whether an argument moved. -/
  | moved (any : Bool)
  /-- There is no such argument, and nothing was done. -/
  | noSuchPart
  /-- There is no such argument, which was found out after the node was opened for editing. -/
  | outOfRange
  /-- The node is an atom. -/
  | notComposite

namespace Edit

/-- The list with two elements exchanged, if both exist. -/
def exchanged? (i j : Nat) (args : List Term) : Option (List Term) :=
  match args[i]?, args[j]? with
  | some a, some b => some ((args.set i b).set j a)
  | _, _ => none

/-- The edit of an application. -/
def applyTo (head : Term) (args : List Term) (marks : Marks) : Edit → Term × EditAnswer
  | .markNormal generation => ((Term.app head args marks).markNormal generation, .done)
  | .push arg => (.apply head (args ++ [arg]), .done)
  | .extend more => (.apply head (args ++ more), .done)
  | .setArgs args => (.apply head args, .done)
  | .setHead head => (.apply head args, .done)
  | .setArg i arg =>
    if i < args.length then (.apply head (args.set i arg), .done)
    else (.app head args marks, .noSuchPart)
  | .pop => (.apply head args.dropLast, .removed args.getLast?)
  | .reverse => (.apply head args.reverse, .done)
  | .exchange i j =>
    if i = j then (.app head args marks, .done)
    else
      match exchanged? i j args with
      | some args => (.apply head args, .done)
      | none => (.apply head args, .outOfRange)
  | .sort =>
    let (t, moved) := (Term.app head args marks).sorted
    (t, .moved moved)
  | .forget => (.app head args marks.forgotten, .done)
  | .setNeedsEval value => (.app head args { marks with needsEval := value }, .done)

/-- The edit of an atom; only marking it does nothing without complaint. -/
def applyToAtom : Edit → EditAnswer
  | .markNormal _ => .done
  | _ => .notComposite

/-- The edit of a node. -/
def apply (e : Edit) : Term → Term × EditAnswer
  | .atom a => (.atom a, e.applyToAtom)
  | .app head args marks => e.applyTo head args marks

/-- The edit of the node at a path. -/
def applyAt (e : Edit) (path : Path) (t : Term) : Term × EditAnswer :=
  match t.at? path with
  | none => (t, .noSuchPart)
  | some node => (t.editAt (fun node => (e.apply node).1) path, (e.apply node).2)

end Edit

/-! ## Looking at marks -/

mutual

/-- The marks of all nodes: each before its head, and the head before the arguments. -/
def Term.allMarks : Term → List Marks
  | .atom _ => []
  | .app head args marks => marks :: (head.allMarks ++ Term.allMarksOf args)

def Term.allMarksOf : List Term → List Marks
  | [] => []
  | a :: as => a.allMarks ++ Term.allMarksOf as

end

end TermRewriting
