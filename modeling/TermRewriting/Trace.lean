import TermRewriting.Pattern.Matching
import TermRewriting.Rendering

/-!
# Traces

What happens on the way to a result is recorded as events. A traced value is composed without
looking at its events, so `value` commutes with `bind`.
-/

namespace TermRewriting

/-! ## Events -/

/-- Where a definition is kept: at the symbol it defines, at the head of the application, at the
head of an argument, or at the head of the head. -/
inductive ValueKind where
  | own
  | down
  | up
  | sub
deriving DecidableEq

namespace ValueKind

def name : ValueKind → String
  | .own => "Own"
  | .down => "Down"
  | .up => "Up"
  | .sub => "Sub"

def all : List ValueKind := [.own, .down, .up, .sub]

def ofName? (name : String) : Option ValueKind := all.find? fun k => k.name == name

end ValueKind

inductive Event where
  /-- A pattern was tried on a term. -/
  | tried (subject pattern : Term) (matched : Bool)
  /-- A definition was applied to a term. -/
  | rewrote (kind : ValueKind) (symbol : String) (subject : Term)
  /-- Some components found no arguments to stand for. -/
  | unassigned (components arguments : Nat)
  /-- A definition was stored. -/
  | defined (kind : ValueKind) (symbol : String) (replaced : Bool)
  /-- A definition could have been applied but the budget was spent. -/
  | exhausted (limit : Nat) (subject : Term)
  /-- A normal form was reached. -/
  | settled (applications : Nat) (subject : Term)

/-- The word for a truth value. -/
def truthWord (b : Bool) : String := if b then "true" else "false"

/-- The line that reports an event: its level and what happened. -/
def Event.line : Event → String
  | .tried t p ok => "TRACE: match " ++ t.display ++ " against " ++ p.display ++ ": " ++ truthWord ok
  | .rewrote kind symbol t =>
    "TRACE: " ++ kind.name ++ " value of " ++ symbol ++ " rewrote " ++ t.display
  | .unassigned components arguments =>
    "TRACE: no assignment of " ++ toString components ++ " components among "
      ++ toString arguments ++ " arguments"
  | .defined kind symbol replaced =>
    "DEBUG: defined " ++ kind.name ++ " value for " ++ symbol ++ " (replaced: "
      ++ truthWord replaced ++ ")"
  | .exhausted limit t =>
    "DEBUG: rewrite budget of " ++ toString limit ++ " exhausted at " ++ t.display
  | .settled applications t =>
    "DEBUG: normal form after " ++ toString applications ++ " rule applications: " ++ t.display

/-! ## Traced values -/

structure Traced (α : Type) where
  value : α
  events : List Event

namespace Traced

variable {α β : Type}

/-- One trace after another. Nothing is copied where nothing follows. -/
def followed (first : List Event) : List Event → List Event
  | [] => first
  | e :: es => first ++ e :: es

@[simp] theorem followed_eq (first second : List Event) :
    followed first second = first ++ second := by
  cases second with
  | nil => simp [followed]
  | cons e es => rfl

instance : Monad Traced where
  pure a := ⟨a, []⟩
  bind x f :=
    let y := f x.value
    ⟨y.value, followed x.events y.events⟩

/-- Records one event. -/
def note (e : Event) : Traced Unit := ⟨(), [e]⟩

@[simp] theorem value_pure (a : α) : (pure a : Traced α).value = a := rfl

@[simp] theorem value_bind (x : Traced α) (f : α → Traced β) :
    (x >>= f).value = (f x.value).value := rfl

@[simp] theorem value_map (g : α → β) (x : Traced α) : (g <$> x).value = g x.value := rfl

@[simp] theorem value_note (e : Event) : (note e).value = () := rfl

@[simp] theorem events_pure (a : α) : (pure a : Traced α).events = [] := rfl

@[simp] theorem events_bind (x : Traced α) (f : α → Traced β) :
    (x >>= f).events = x.events ++ (f x.value).events := followed_eq _ _

@[simp] theorem events_note (e : Event) : (note e).events = [e] := rfl

end Traced

/-- Tries a pattern on a term. -/
def Term.tryMatch (table : SymbolTable) (pattern t : Term) : Traced (Option Bindings) :=
  let bindings := pattern.matches? table t
  ⟨bindings, [.tried t pattern bindings.isSome]⟩

@[simp] theorem Term.value_tryMatch (table : SymbolTable) (pattern t : Term) :
    (pattern.tryMatch table t).value = pattern.matches? table t := rfl

end TermRewriting
