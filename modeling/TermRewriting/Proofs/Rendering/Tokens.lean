import Mathlib.Data.List.Chain
import TermRewriting.Proofs.Decimal
import TermRewriting.Rendering

/-!
# The tokens of a text

The text of a term is made of atoms, separators and brackets. A quoted text tells itself where it
ends, since a quote inside it has a backslash in front; a word or an integer ends where a character
follows that cannot belong to either, and all separators and brackets start with such a character.
So a text has only one reading as a list of tokens in which no word or integer is followed by an
atom (`spelled_injective`).
-/

namespace TermRewriting

/-! ## Tokens -/

/-- The operators that stand between their arguments. -/
inductive Operator where
  | plus
  | times
  | power
  | rule
  | ruleDelayed
deriving DecidableEq

namespace Operator

/-- The head whose applications are written with the operator. -/
def name : Operator → String
  | .plus => "Plus"
  | .times => "Times"
  | .power => "Power"
  | .rule => "Rule"
  | .ruleDelayed => "RuleDelayed"

def separator : Operator → String
  | .plus => " + "
  | .times => "*"
  | .power => "^"
  | .rule => " -> "
  | .ruleDelayed => " :> "

end Operator

inductive Bracket where
  | round
  | square
  | curly
deriving DecidableEq

/-- A token that is no bracket. -/
inductive Sign where
  | atom (a : Atom)
  | comma
  | operator (o : Operator)
deriving DecidableEq

inductive Token where
  | sign (s : Sign)
  | opening (b : Bracket)
  | closing (b : Bracket)
deriving DecidableEq

def Bracket.openingChar : Bracket → Char
  | .round => '('
  | .square => '['
  | .curly => '\x7b'

def Bracket.closingChar : Bracket → Char
  | .round => ')'
  | .square => ']'
  | .curly => '\x7d'

namespace Token

/-- The characters of a token, an atom in the form for input. -/
def chars : Token → List Char
  | .sign (.atom a) => (a.render {}).toList
  | .sign .comma => [',', ' ']
  | .sign (.operator o) => o.separator.toList
  | .opening b => [b.openingChar]
  | .closing b => [b.closingChar]

def isAtom : Token → Bool
  | .sign (.atom _) => true
  | _ => false

/-- Whether only what follows tells where the token ends. -/
def isBare : Token → Bool
  | .sign (.atom (.symbol _)) => true
  | .sign (.atom (.integer _)) => true
  | _ => false

end Token

/-- The characters of a list of tokens. -/
def spelled (ts : List Token) : List Char := ts.flatMap Token.chars

@[simp] theorem spelled_nil : spelled [] = [] := rfl

@[simp] theorem spelled_cons (t : Token) (ts : List Token) :
    spelled (t :: ts) = t.chars ++ spelled ts := rfl

@[simp] theorem spelled_append (ts us : List Token) :
    spelled (ts ++ us) = spelled ts ++ spelled us := by
  simp [spelled]

/-! ## Identifiers -/

/-- A letter. Beyond ASCII every character counts as one. -/
def isLetter (c : Char) : Bool := c.isAlpha || 128 ≤ c.toNat

/-- A letter followed by letters and digits. -/
def isIdentifier (name : String) : Bool :=
  match name.toList with
  | [] => false
  | c :: cs => isLetter c && cs.all fun d => isLetter d || d.isDigit

/-- An atom whose text can be read: not a real, and if a symbol then an identifier. -/
def Atom.Readable : Atom → Prop
  | .symbol name => isIdentifier name = true
  | .real _ => False
  | .integer _ => True
  | .string _ => True

instance : DecidablePred Atom.Readable
  | .symbol name => inferInstanceAs (Decidable (isIdentifier name = true))
  | .real _ => inferInstanceAs (Decidable False)
  | .integer _ => inferInstanceAs (Decidable True)
  | .string _ => inferInstanceAs (Decidable True)

/-- A token that is a readable atom, or none. -/
def Token.Readable (t : Token) : Prop := ∀ a, t = .sign (.atom a) → a.Readable

/-! ## Characters of words and integers -/

/-- A character that a word or an integer can have. -/
def isBareChar (c : Char) : Bool := isLetter c || c.isDigit || c = '-'

/-- Nothing follows that could belong to a word or an integer. -/
def Ends (r : List Char) : Prop := ∀ c ∈ r.head?, isBareChar c = false

theorem takeWhile_of_ends {cs r : List Char} (hcs : ∀ c ∈ cs, isBareChar c = true) (hr : Ends r) :
    (cs ++ r).takeWhile isBareChar = cs := by
  have hrest : r.takeWhile isBareChar = [] := by
    cases r with
    | nil => rfl
    | cons c r => rw [List.takeWhile_cons, hr c rfl]; rfl
  rw [List.takeWhile_append_of_pos hcs, hrest, List.append_nil]

/-- Bare characters end where others begin. -/
theorem append_inj_of_ends {cs ds r r' : List Char} (hcs : ∀ c ∈ cs, isBareChar c = true)
    (hds : ∀ c ∈ ds, isBareChar c = true) (hr : Ends r) (hr' : Ends r')
    (h : cs ++ r = ds ++ r') : cs = ds ∧ r = r' := by
  have hsame : cs = ds := by
    rw [← takeWhile_of_ends hcs hr, h, takeWhile_of_ends hds hr']
  subst hsame
  exact ⟨rfl, List.append_cancel_left h⟩

theorem isBareChar_of_mem_toString {n : Int} {c : Char} (h : c ∈ (toString n).toList) :
    isBareChar c = true := by
  rw [toList_toString_int, List.mem_append] at h
  rcases h with h | h
  · split at h
    · rw [List.mem_singleton.mp h]
      decide
    · cases h
  · simp [isBareChar, isDigit_of_mem_decimal h]

/-! ## Quoted texts -/

theorem quotedChar_append_inj {c d : Char} {r r' : List Char}
    (h : quotedChar c ++ r = quotedChar d ++ r') : c = d ∧ r = r' := by
  unfold quotedChar at h
  split at h <;> split at h
  · simpa using h
  · -- a backslash stands only in front of a quote or a backslash
    next _ hd =>
    simp only [List.cons_append, List.cons.injEq] at h
    exact absurd (.inl h.1.symm) hd
  · next hc _ =>
    simp only [List.cons_append, List.cons.injEq] at h
    exact absurd (.inl h.1) hc
  · simpa using h

/-- Inside a quoted text a quote does not stand alone. -/
theorem quotedChar_append_ne (c : Char) (r r' : List Char) : quotedChar c ++ r ≠ '"' :: r' := by
  unfold quotedChar
  split <;> simp_all

/-- A quoted text tells itself where it ends. -/
theorem quotedChars_append_inj {cs ds r r' : List Char}
    (h : cs.flatMap quotedChar ++ '"' :: r = ds.flatMap quotedChar ++ '"' :: r') :
    cs = ds ∧ r = r' := by
  induction cs generalizing ds with
  | nil =>
    cases ds with
    | nil => exact ⟨rfl, List.tail_eq_of_cons_eq h⟩
    | cons d ds =>
      rw [List.flatMap_cons, List.append_assoc] at h
      exact absurd h.symm (quotedChar_append_ne d _ _)
  | cons c cs ih =>
    cases ds with
    | nil =>
      rw [List.flatMap_cons, List.append_assoc] at h
      exact absurd h (quotedChar_append_ne c _ _)
    | cons d ds =>
      rw [List.flatMap_cons, List.flatMap_cons, List.append_assoc, List.append_assoc] at h
      obtain ⟨rfl, hrest⟩ := quotedChar_append_inj h
      obtain ⟨rfl, htail⟩ := ih hrest
      exact ⟨rfl, htail⟩

theorem toList_quoted (text : String) :
    (quoted text).toList = '"' :: (text.toList.flatMap quotedChar ++ ['"']) := by
  simp [quoted]

/-! ## First characters -/

/-- What the first character of a token tells about it. -/
inductive Start where
  | word
  | integer
  | text
  | mark
deriving DecidableEq

def Start.ofChar (c : Char) : Start :=
  if isLetter c then .word
  else if c.isDigit || c = '-' then .integer
  else if c = '"' then .text
  else .mark

/-- How a token starts. -/
def Token.start : Token → Start
  | .sign (.atom (.symbol _)) => .word
  | .sign (.atom (.integer _)) => .integer
  | .sign (.atom (.string _)) => .text
  | _ => .mark

theorem isLetter_eq_false_of_isDigit {c : Char} (h : c.isDigit = true) : isLetter c = false := by
  have halpha : c.isAlpha = (decide ('A'.val ≤ c.val ∧ c.val ≤ 'Z'.val)
      || (decide ('a'.val ≤ c.val) && decide (c.val ≤ 'z'.val))) := rfl
  rw [isLetter, halpha]
  simp only [Char.isDigit, Char.toNat, Bool.and_eq_true, Bool.or_eq_false_iff,
    Bool.and_eq_false_iff, decide_eq_true_eq, decide_eq_false_iff_not, ge_iff_le,
    UInt32.le_iff_toNat_le] at h ⊢
  have hdigits : '0'.val.toNat = 48 ∧ '9'.val.toNat = 57 := ⟨rfl, rfl⟩
  have hletters : 'A'.val.toNat = 65 ∧ 'a'.val.toNat = 97 := ⟨rfl, rfl⟩
  omega

/-- The characters of an identifier. -/
theorem exists_of_isIdentifier {name : String} (h : isIdentifier name = true) :
    (∃ c cs, name.toList = c :: cs ∧ isLetter c = true)
      ∧ ∀ c ∈ name.toList, isBareChar c = true := by
  unfold isIdentifier at h
  cases hname : name.toList with
  | nil => simp [hname] at h
  | cons c cs =>
    simp only [hname, Bool.and_eq_true, List.all_eq_true, Bool.or_eq_true] at h
    refine ⟨⟨c, cs, rfl, h.1⟩, fun d hd => ?_⟩
    rcases List.mem_cons.mp hd with rfl | hd
    · simp [isBareChar, h.1]
    · rcases h.2 d hd with hd | hd <;> simp [isBareChar, hd]

theorem exists_first_integer (n : Int) :
    ∃ c cs, (toString n).toList = c :: cs ∧ Start.ofChar c = .integer := by
  rw [toList_toString_int]
  split
  · exact ⟨'-', _, rfl, by decide⟩
  · cases hdigits : Nat.toDigits 10 n.natAbs with
    | nil => exact absurd hdigits Nat.toDigits_ne_nil
    | cons c cs =>
      have hdigit : c.isDigit = true := isDigit_of_mem_decimal (hdigits ▸ List.mem_cons_self)
      refine ⟨c, cs, rfl, ?_⟩
      rw [Start.ofChar, isLetter_eq_false_of_isDigit hdigit, hdigit]
      rfl

theorem Token.exists_first {t : Token} (ht : t.Readable) :
    ∃ c cs, t.chars = c :: cs ∧ Start.ofChar c = t.start := by
  match t with
  | .sign (.atom (.symbol name)) =>
    obtain ⟨⟨c, cs, hname, hletter⟩, -⟩ := exists_of_isIdentifier (ht _ rfl)
    exact ⟨c, cs, hname, if_pos hletter⟩
  | .sign (.atom (.integer n)) => exact exists_first_integer n.toInt
  | .sign (.atom (.string text)) => exact ⟨'"', _, toList_quoted text, rfl⟩
  | .sign (.atom (.real x)) => exact (ht _ rfl).elim
  | .sign .comma => exact ⟨',', _, rfl, by decide⟩
  | .sign (.operator o) => cases o <;> exact ⟨_, _, rfl, by decide⟩
  | .opening b => cases b <;> exact ⟨_, _, rfl, by decide⟩
  | .closing b => cases b <;> exact ⟨_, _, rfl, by decide⟩

/-! ## Unique reading -/

/-- The separators and brackets. -/
def Token.marks : List Token :=
  [.sign .comma, .sign (.operator .plus), .sign (.operator .times), .sign (.operator .power),
    .sign (.operator .rule), .sign (.operator .ruleDelayed), .opening .round, .opening .square,
    .opening .curly, .closing .round, .closing .square, .closing .curly]

theorem Token.mem_marks {t : Token} (ht : t.isAtom = false) : t ∈ marks := by
  match t with
  | .sign (.atom a) => cases ht
  | .sign .comma => decide
  | .sign (.operator o) => cases o <;> decide
  | .opening b => cases b <;> decide
  | .closing b => cases b <;> decide

/-- None of them is the beginning of another one. -/
theorem Token.eq_of_isPrefixOf_mark :
    ∀ t ∈ marks, ∀ u ∈ marks, t.chars.isPrefixOf u.chars = true → t = u := by
  decide +kernel

theorem Token.mark_append_inj {t u : Token} (ht : t.isAtom = false) (hu : u.isAtom = false)
    {r r' : List Char} (h : t.chars ++ r = u.chars ++ r') : t = u ∧ r = r' := by
  have hsame : t = u := by
    rcases List.prefix_or_prefix_of_prefix ⟨r, h⟩ ⟨r', rfl⟩ with hle | hle
    · exact eq_of_isPrefixOf_mark t (mem_marks ht) u (mem_marks hu)
        (List.isPrefixOf_iff_prefix.mpr hle)
    · exact (eq_of_isPrefixOf_mark u (mem_marks hu) t (mem_marks ht)
        (List.isPrefixOf_iff_prefix.mpr hle)).symm
  subst hsame
  exact ⟨rfl, List.append_cancel_left h⟩

theorem Token.ends_mark {t : Token} (ht : t.isAtom = false) (r : List Char) :
    Ends (t.chars ++ r) := by
  have hall : ∀ u ∈ marks, u.chars.head?.any (fun c => !isBareChar c) = true := by decide +kernel
  obtain ⟨c, hc, hbare⟩ := (Option.any_eq_true _ _).mp (hall t (mem_marks ht))
  intro d hd
  rw [List.head?_append, hc] at hd
  cases hd
  simpa using hbare

theorem Token.start_eq {t u : Token} (ht : t.Readable) (hu : u.Readable) {r r' : List Char}
    (h : t.chars ++ r = u.chars ++ r') : t.start = u.start := by
  obtain ⟨c, cs, hc, hcs⟩ := exists_first ht
  obtain ⟨d, ds, hd, hds⟩ := exists_first hu
  rw [hc, hd] at h
  rw [← hcs, ← hds, (List.cons.inj h).1]

theorem Token.isAtom_iff {t : Token} (ht : t.Readable) : t.isAtom = true ↔ t.start ≠ .mark := by
  match t with
  | .sign (.atom (.symbol _)) | .sign (.atom (.integer _)) | .sign (.atom (.string _)) =>
    simp [isAtom, start]
  | .sign (.atom (.real _)) => exact (ht _ rfl).elim
  | .sign .comma | .sign (.operator _) | .opening _ | .closing _ => simp [isAtom, start]

theorem Token.atom_append_inj {a b : Atom} (ha : a.Readable) (hb : b.Readable) {r r' : List Char}
    (hr : (sign (.atom a)).isBare = true → Ends r)
    (hr' : (sign (.atom b)).isBare = true → Ends r')
    (hstart : (sign (.atom a)).start = (sign (.atom b)).start)
    (h : (sign (.atom a)).chars ++ r = (sign (.atom b)).chars ++ r') : a = b ∧ r = r' := by
  cases a with
  | symbol x =>
    cases b with
    | symbol y =>
      obtain ⟨hsame, hrest⟩ := append_inj_of_ends (exists_of_isIdentifier ha).2
        (exists_of_isIdentifier hb).2 (hr rfl) (hr' rfl) h
      exact ⟨congrArg Atom.symbol (String.toList_inj.mp hsame), hrest⟩
    | integer _ | real _ | string _ => cases hstart
  | integer m =>
    cases b with
    | integer n =>
      obtain ⟨hsame, hrest⟩ := append_inj_of_ends (fun _ => isBareChar_of_mem_toString)
        (fun _ => isBareChar_of_mem_toString) (hr rfl) (hr' rfl) h
      have hvalue := Int64.toInt_inj.mp (toString_int_inj (String.toList_inj.mp hsame))
      exact ⟨congrArg Atom.integer hvalue, hrest⟩
    | symbol _ | real _ | string _ => cases hstart
  | string x =>
    cases b with
    | string y =>
      have hquoted : '"' :: (x.toList.flatMap quotedChar ++ '"' :: r)
          = '"' :: (y.toList.flatMap quotedChar ++ '"' :: r') := by
        simpa [chars, Atom.render, toList_quoted] using h
      obtain ⟨hsame, hrest⟩ := quotedChars_append_inj (List.tail_eq_of_cons_eq hquoted)
      exact ⟨congrArg Atom.string (String.toList_inj.mp hsame), hrest⟩
    | symbol _ | integer _ | real _ => cases hstart
  | real x => exact ha.elim

/-- **A text starts with one token only,** if a word or an integer ends where it seems to end. -/
theorem Token.append_inj {t u : Token} (ht : t.Readable) (hu : u.Readable) {r r' : List Char}
    (hr : t.isBare = true → Ends r) (hr' : u.isBare = true → Ends r')
    (h : t.chars ++ r = u.chars ++ r') : t = u ∧ r = r' := by
  have hstart := start_eq ht hu h
  have hkind : t.isAtom = u.isAtom := by
    rw [Bool.eq_iff_iff, isAtom_iff ht, isAtom_iff hu, hstart]
  cases htatom : t.isAtom with
  | false => exact mark_append_inj htatom (hkind ▸ htatom) h
  | true =>
    match t, u, htatom, hkind ▸ htatom with
    | .sign (.atom a), .sign (.atom b), _, _ =>
      obtain ⟨rfl, hrest⟩ := atom_append_inj (ht _ rfl) (hu _ rfl) hr hr' hstart h
      exact ⟨rfl, hrest⟩

/-- No word or integer is followed by an atom. -/
def Separated (ts : List Token) : Prop :=
  ts.IsChain fun t u => t.isBare = true → u.isAtom = false

theorem ends_spelled {t : Token} {ts : List Token} (h : Separated (t :: ts))
    (hbare : t.isBare = true) : Ends (spelled ts) := by
  cases ts with
  | nil =>
    intro c hc
    cases hc
  | cons u us => exact Token.ends_mark ((List.isChain_cons_cons.mp h).1 hbare) (spelled us)

theorem spelled_ne_nil {t : Token} (ht : t.Readable) (ts : List Token) :
    spelled (t :: ts) ≠ [] := by
  obtain ⟨c, cs, hc, -⟩ := t.exists_first ht
  simp [hc]

/-- **A text has one reading:** separated lists of readable tokens that are spelled alike are the
same. -/
theorem spelled_injective {ts us : List Token} (hts : ∀ t ∈ ts, t.Readable)
    (hus : ∀ u ∈ us, u.Readable) (hsep : Separated ts) (hsep' : Separated us)
    (h : spelled ts = spelled us) : ts = us := by
  induction ts generalizing us with
  | nil =>
    cases us with
    | nil => rfl
    | cons u us => exact absurd h.symm (spelled_ne_nil (hus u List.mem_cons_self) us)
  | cons t ts ih =>
    cases us with
    | nil => exact absurd h (spelled_ne_nil (hts t List.mem_cons_self) ts)
    | cons u us =>
      obtain ⟨ht, htail⟩ := List.forall_mem_cons.mp hts
      obtain ⟨hu, hutail⟩ := List.forall_mem_cons.mp hus
      obtain ⟨rfl, hrest⟩ := Token.append_inj ht hu (ends_spelled hsep) (ends_spelled hsep') h
      rw [ih htail hutail hsep.of_cons hsep'.of_cons hrest]

/-- A separator or bracket keeps two lists apart. -/
theorem separated_append_mark {t : Token} (ht : t.isAtom = false) {ts us : List Token} :
    Separated (ts ++ t :: us) ↔ Separated ts ∧ Separated us := by
  have hbare : t.isBare ≠ true := by
    match t with
    | .sign (.atom a) => cases ht
    | .sign .comma | .sign (.operator _) | .opening _ | .closing _ => nofun
  have hafter : ∀ u ∈ us.head?, t.isBare = true → u.isAtom = false := fun u _ h => absurd h hbare
  have hbefore : ∀ u ∈ ts.getLast?, ∀ v ∈ (t :: us).head?, u.isBare = true → v.isAtom = false := by
    intro u _ v hv _
    cases hv
    exact ht
  rw [Separated, List.isChain_append, List.isChain_cons]
  exact ⟨fun h => ⟨h.1, h.2.1.2⟩, fun h => ⟨h.1, ⟨hafter, h.2⟩, hbefore⟩⟩

end TermRewriting
