import TermRewriting.DataFormat
import TermRewriting.Json.Reader

/-!
# JSON as a data format

A case with contents is an object with one entry, its name and contents; a case without contents is
its name. A record is an object with an entry for each field, or the array of its fields in order.
Reading is strict about both, except that a record may have entries of other names. A limit is set
to the number of arrays and objects that may be nested around what is read; entries that are ignored
may nest as they like.
-/

namespace TermRewriting

namespace Json

/-! ## Depth -/

mutual

/-- How many arrays and objects are nested. -/
def depth : Json → Nat
  | .null => 0
  | .bool _ => 0
  | .number _ => 0
  | .string _ => 0
  | .array items => depthAll items + 1
  | .object entries => depthEntries entries + 1

def depthAll : List Json → Nat
  | [] => 0
  | v :: vs => max v.depth (depthAll vs)

def depthEntries : List (JsonText × Json) → Nat
  | [] => 0
  | (_, v) :: rest => max v.depth (depthEntries rest)

end

theorem depth_le_depthAll {items : List Json} {v : Json} (hv : v ∈ items) :
    v.depth ≤ depthAll items := by
  induction items with
  | nil => cases hv
  | cons w ws ih =>
    rw [depthAll]
    rcases List.mem_cons.mp hv with rfl | hv
    · exact Nat.le_max_left _ _
    · exact Nat.le_trans (ih hv) (Nat.le_max_right _ _)

theorem depth_le_depthEntries {entries : List (JsonText × Json)} {e : JsonText × Json}
    (he : e ∈ entries) : e.2.depth ≤ depthEntries entries := by
  induction entries with
  | nil => cases he
  | cons f fs ih =>
    rw [depthEntries]
    rcases List.mem_cons.mp he with rfl | he
    · exact Nat.le_max_left _ _
    · exact Nat.le_trans (ih he) (Nat.le_max_right _ _)

mutual

/-- The value to so many levels. What nests deeper becomes a number without digits, which is nothing
that can be read. -/
def upTo (levels : Nat) : Json → Json
  | .null => .null
  | .bool b => .bool b
  | .number lexeme => .number lexeme
  | .string text => .string text
  | .array items =>
    match levels with
    | 0 => .number []
    | n + 1 => .array (upToAll n items)
  | .object entries =>
    match levels with
    | 0 => .number []
    | n + 1 => .object (upToEntries n entries)

def upToAll (levels : Nat) : List Json → List Json
  | [] => []
  | v :: vs => upTo levels v :: upToAll levels vs

def upToEntries (levels : Nat) : List (JsonText × Json) → List (JsonText × Json)
  | [] => []
  | (key, v) :: rest => (key, upTo levels v) :: upToEntries levels rest

end

/-! ## Writing -/

def ofString (s : String) : Json := .string (.ofString s)

/-- An object with these entries, in this order. -/
def ofEntries (entries : List (String × Json)) : Json :=
  .object (entries.map fun e => (.ofString e.1, e.2))

/-- The variant `name` with its contents. -/
def variant (name : String) (contents : Json) : Json := ofEntries [(name, contents)]

/-- A real; infinities and NaNs are written as nothing. -/
def ofReal (x : Binary64) : Json := if x.isFinite then .number (Numeral.ofReal x) else .null

/-! ## Reading -/

def toString? : Json → Option String
  | .string text => text.toString?
  | _ => none

def toInt64? : Json → Option Int64
  | .number lexeme => (Numeral.ofChars? lexeme).bind Numeral.toInt64?
  | _ => none

def toReal? : Json → Option Binary64
  | .number lexeme => (Numeral.ofChars? lexeme).bind Numeral.toReal?
  | _ => none

/-- The name and the contents of a variant. -/
def variant? : Json → Option (String × Json)
  | .object [(key, contents)] => key.toString?.map (·, contents)
  | _ => none

/-- The name of a variant without contents, written alone or with nothing as its contents. -/
def unit? (v : Json) : Option String :=
  match v with
  | .string text => text.toString?
  | v =>
    match v.variant? with
    | some (name, .null) => some name
    | _ => none

/-- The only entry with a name. -/
def onlyNamed? (entries : List (String × Json)) (name : String) : Option Json :=
  match entries.filter fun e => e.1 == name with
  | [e] => some e.2
  | _ => none

/-- The entries with their names, unless one is no text. -/
def namedEntries? (entries : List (JsonText × Json)) : Option (List (String × Json)) :=
  entries.mapM fun e => e.1.toString?.map (·, e.2)

/-- The fields of a record, in the order of their names. -/
def fields? (names : List String) : Json → Option (List Json)
  | .array items => if items.length = names.length then some items else none
  | .object entries => (namedEntries? entries).bind fun entries => names.mapM (onlyNamed? entries)
  | _ => none

def items? : Json → Option (List Json)
  | .array items => some items
  | _ => none

/-! ## The parts of a value -/

theorem exists_of_mem_mapM {α β : Type} {f : α → Option β} {as : List α} {bs : List β}
    (h : as.mapM f = some bs) : ∀ b ∈ bs, ∃ a ∈ as, f a = some b := by
  induction as generalizing bs with
  | nil =>
    cases h
    simp
  | cons a as ih =>
    rw [List.mapM_cons] at h
    obtain ⟨c, hc, h⟩ := Option.bind_eq_some_iff.mp h
    obtain ⟨cs, hcs, h⟩ := Option.bind_eq_some_iff.mp h
    cases h
    refine List.forall_mem_cons.mpr ⟨⟨a, List.mem_cons_self, hc⟩, fun b hb => ?_⟩
    obtain ⟨a', ha', hb⟩ := ih hcs b hb
    exact ⟨a', List.mem_cons_of_mem _ ha', hb⟩

theorem depth_lt_of_items? {v : Json} {items : List Json} (h : v.items? = some items) :
    ∀ w ∈ items, w.depth < v.depth := by
  intro w hw
  cases v with
  | array items' =>
    cases h
    exact Nat.lt_succ_of_le (depth_le_depthAll hw)
  | null | bool _ | number _ | string _ | object _ => cases h

theorem depth_lt_of_variant? {v contents : Json} {name : String}
    (h : v.variant? = some (name, contents)) : contents.depth < v.depth := by
  unfold variant? at h
  split at h
  · next key contents' =>
    obtain ⟨s, -, hs⟩ := Option.map_eq_some_iff.mp h
    cases hs
    exact Nat.lt_succ_of_le (depth_le_depthEntries (List.mem_singleton_self (key, contents)))
  · cases h

theorem mem_of_onlyNamed? {entries : List (String × Json)} {name : String} {v : Json}
    (h : onlyNamed? entries name = some v) : ∃ e ∈ entries, e.2 = v := by
  unfold onlyNamed? at h
  split at h
  · next e he =>
    cases h
    exact ⟨e, (List.mem_filter.mp (he ▸ List.mem_singleton_self e)).1, rfl⟩
  · cases h

theorem depth_lt_of_fields? {names : List String} {v : Json} {parts : List Json}
    (h : v.fields? names = some parts) : ∀ w ∈ parts, w.depth < v.depth := by
  intro w hw
  cases v with
  | array items =>
    rw [fields?] at h
    split at h
    · cases h
      exact Nat.lt_succ_of_le (depth_le_depthAll hw)
    · cases h
  | object entries =>
    obtain ⟨named, hnamed, h⟩ := Option.bind_eq_some_iff.mp h
    obtain ⟨name, -, hname⟩ := exists_of_mem_mapM h w hw
    obtain ⟨e, he, rfl⟩ := mem_of_onlyNamed? hname
    obtain ⟨e', he', heq⟩ := exists_of_mem_mapM hnamed e he
    obtain ⟨s, -, rfl⟩ := Option.map_eq_some_iff.mp heq
    exact Nat.lt_succ_of_le (depth_le_depthEntries he')
  | null | bool _ | number _ | string _ => cases h

/-! ## The format -/

/-- JSON, read to so many nested arrays and objects. -/
def dataFormat (limit : Nat) : DataFormat Json where
  string := ofString
  integer n := .number (Numeral.ofInt n.toInt)
  real := ofReal
  list := .array
  record := ofEntries
  variant := variant
  unit := ofString
  text := text
  string? := toString?
  integer? := toInt64?
  real? := toReal?
  list? := items?
  record? := fields?
  variant? := variant?
  unit? := unit?
  parse? s := (parse? s).map (upTo limit)
  depth := depth
  depth_lt_of_list? := depth_lt_of_items?
  depth_lt_of_record? := depth_lt_of_fields?
  depth_lt_of_variant? := depth_lt_of_variant?

end Json

end TermRewriting
