import Mathlib.Data.List.Nodup
import Mathlib.Data.List.Forall2
import Mathlib.Algebra.Order.Ring.Rat
import Mathlib.Tactic.Common

/-!
JSON as a tree, and the shapes in which `serde` writes data into it and reads it
back. An object is the list of its entries as they are written, so that a key can
stand in it twice. Reading passes over the keys it does not know and fails where a
key it looks for stands twice. Numbers are the values of their tokens.

`serde` also reads an array in place of a struct and a number in place of a tag.
Nothing writes such text, and these readers are left out.
-/

namespace Execra

inductive JsonTree where
  | null
  | bool (b : Bool)
  | int (n : Int)
  | real (q : ℚ)
  | string (s : String)
  | array (items : List JsonTree)
  | object (entries : List (String × JsonTree))

namespace JsonTree

variable {α β : Type}

abbrev Entries := List (String × JsonTree)

def keys (entries : Entries) : List String := entries.map Prod.fst

/-- No object in the tree has a key twice. -/
inductive WellKeyed : JsonTree → Prop where
  | null : WellKeyed .null
  | bool (b : Bool) : WellKeyed (.bool b)
  | int (n : Int) : WellKeyed (.int n)
  | real (q : ℚ) : WellKeyed (.real q)
  | string (s : String) : WellKeyed (.string s)
  | array {items : List JsonTree} (hitems : ∀ tree ∈ items, WellKeyed tree) :
      WellKeyed (.array items)
  | object {entries : Entries} (hkeys : (keys entries).Nodup)
      (hentries : ∀ entry ∈ entries, WellKeyed entry.2) : WellKeyed (.object entries)

/-! Writing. -/

def writeNat (n : Nat) : JsonTree := .int n

def writeInt32 (n : Int32) : JsonTree := .int n.toInt

def writeOption (write : α → JsonTree) : Option α → JsonTree
  | none => .null
  | some a => write a

def writeList (write : α → JsonTree) (items : List α) : JsonTree := .array (items.map write)

def writePair (writeFst : α → JsonTree) (writeSnd : β → JsonTree) (p : α × β) : JsonTree :=
  .array [writeFst p.1, writeSnd p.2]

/-- The entries of a variant with its tag among its fields: `tag = "…"`. -/
def variant (tag name : String) (fields : Entries) : Entries := (tag, .string name) :: fields

def tagged (tag name : String) (fields : Entries) : JsonTree := .object (variant tag name fields)

/-- A variant with its tag beside its content: `tag = "…", content = "…"`. -/
def adjacent (tag content name : String) (value : JsonTree) : JsonTree :=
  .object [(tag, .string name), (content, value)]

/-! Reading. -/

def readBool : JsonTree → Option Bool
  | .bool b => some b
  | _ => none

def readString : JsonTree → Option String
  | .string s => some s
  | _ => none

/-- An unsigned integer below a bound. -/
def readNat (bound : Nat) : JsonTree → Option Nat
  | .int n => if 0 ≤ n ∧ n < bound then some n.toNat else none
  | _ => none

def readU32 : JsonTree → Option Nat := readNat (2 ^ 32)

def readU64 : JsonTree → Option Nat := readNat (2 ^ 64)

def readInt32 : JsonTree → Option Int32
  | .int n => if -2 ^ 31 ≤ n ∧ n < 2 ^ 31 then some (Int32.ofInt n) else none
  | _ => none

def readOption (read : JsonTree → Option α) : JsonTree → Option (Option α)
  | .null => some none
  | tree => (read tree).map some

def readList (read : JsonTree → Option α) : JsonTree → Option (List α)
  | .array items => items.mapM read
  | _ => none

def readPair (readFst : JsonTree → Option α) (readSnd : JsonTree → Option β) :
    JsonTree → Option (α × β)
  | .array [a, b] => do return (← readFst a, ← readSnd b)
  | _ => none

/-- A variant without fields of an enum without a tag. -/
def readUnitVariant : JsonTree → Option String
  | .string name => some name
  | .object [(name, .null)] => some name
  | _ => none

def readObject (read : Entries → Option α) : JsonTree → Option α
  | .object entries => read entries
  | _ => none

/-- What stands under a key. -/
def occurrences (key : String) (entries : Entries) : List JsonTree :=
  (entries.filter (fun entry => entry.1 = key)).map Prod.snd

def field (key : String) (read : JsonTree → Option α) (entries : Entries) : Option α :=
  match occurrences key entries with
  | [tree] => read tree
  | _ => none

/-- A field of an option type may be missing. -/
def optionalField (key : String) (read : JsonTree → Option α) (entries : Entries) :
    Option (Option α) :=
  match occurrences key entries with
  | [] => some none
  | [tree] => readOption read tree
  | _ => none

/-- The name under the tag, and the entries without it. -/
def untag (tag : String) : JsonTree → Option (String × Entries) :=
  readObject fun entries => do
    return (← field tag readString entries, entries.filter (fun entry => entry.1 ≠ tag))

/-- The reader of a variant gets its name and its fields. -/
def readTagged (tag : String) (readVariant : String → Entries → Option α) (tree : JsonTree) :
    Option α := do
  let (name, fields) ← untag tag tree
  readVariant name fields

def readAdjacent (tag content : String) (readVariant : String → JsonTree → Option α) :
    JsonTree → Option α :=
  readObject fun entries => do
    let name ← field tag readString entries
    let value ← field content some entries
    readVariant name value

theorem occurrences_cons (key name : String) (tree : JsonTree) (entries : Entries) :
    occurrences key ((name, tree) :: entries) =
      if name = key then tree :: occurrences key entries else occurrences key entries := by
  by_cases h : name = key <;> simp [occurrences, h]

@[simp] theorem keys_nil : keys [] = [] := rfl

@[simp] theorem keys_cons (name : String) (tree : JsonTree) (entries : Entries) :
    keys ((name, tree) :: entries) = name :: keys entries := rfl

@[simp] theorem keys_append (entries rest : Entries) :
    keys (entries ++ rest) = keys entries ++ keys rest := List.map_append

theorem occurrences_append (key : String) (entries rest : Entries) :
    occurrences key (entries ++ rest) = occurrences key entries ++ occurrences key rest := by
  rw [occurrences, List.filter_append, List.map_append, occurrences, occurrences]

theorem occurrences_eq_nil {key : String} {entries : Entries} (h : key ∉ keys entries) :
    occurrences key entries = [] := by
  induction entries with
  | nil => rfl
  | cons entry rest ih =>
      obtain ⟨name, tree⟩ := entry
      rw [keys_cons, List.mem_cons, not_or] at h
      rw [occurrences_cons, if_neg (Ne.symm h.1)]
      exact ih h.2

/-! A field is found behind the others, whatever its reader is. -/

section Fields

variable {key name : String} (read : JsonTree → Option α) (tree : JsonTree) {entries : Entries}

@[simp] theorem field_cons_self (h : key ∉ keys entries) :
    field key read ((key, tree) :: entries) = read tree := by
  rw [field, occurrences_cons, if_pos rfl, occurrences_eq_nil h]

@[simp] theorem field_cons_of_ne (h : name ≠ key) :
    field key read ((name, tree) :: entries) = field key read entries := by
  rw [field, occurrences_cons, if_neg h, field]

theorem field_append (h : key ∉ keys entries) (rest : Entries) :
    field key read (entries ++ rest) = field key read rest := by
  rw [field, occurrences_append, occurrences_eq_nil h, List.nil_append, field]

@[simp] theorem optionalField_cons_self (h : key ∉ keys entries) :
    optionalField key read ((key, tree) :: entries) = readOption read tree := by
  rw [optionalField, occurrences_cons, if_pos rfl, occurrences_eq_nil h]

@[simp] theorem optionalField_cons_of_ne (h : name ≠ key) :
    optionalField key read ((name, tree) :: entries) = optionalField key read entries := by
  rw [optionalField, occurrences_cons, if_neg h, optionalField]

end Fields

/-- A tag that none of the fields is named like is found, and the fields are left. -/
theorem untag_tagged {tag : String} (name : String) {fields : Entries} (h : tag ∉ keys fields) :
    untag tag (tagged tag name fields) = some (name, fields) := by
  have hrest : fields.filter (fun entry => entry.1 ≠ tag) = fields := by
    apply List.filter_eq_self.mpr
    intro entry hentry
    apply decide_eq_true
    intro heq
    exact h (heq ▸ List.mem_map_of_mem hentry)
  have hself : ((tag, JsonTree.string name) :: fields).filter (fun entry => entry.1 ≠ tag) =
      fields := by
    rw [List.filter_cons_of_neg (by simp), hrest]
  simp only [untag, tagged, variant, readObject, field_cons_self _ _ h, hself, readString]
  rfl

/-- The tag and the fields of a variant have names of their own. -/
theorem WellKeyed.tagged {tag : String} (name : String) {fields : Entries}
    (htag : tag ∉ keys fields) (hkeys : (keys fields).Nodup)
    (hfields : ∀ entry ∈ fields, entry.2.WellKeyed) : (tagged tag name fields).WellKeyed := by
  apply WellKeyed.object
  · exact List.nodup_cons.mpr ⟨htag, hkeys⟩
  · exact List.forall_mem_cons.mpr ⟨.string name, hfields⟩

theorem WellKeyed.adjacent {tag content : String} (h : tag ≠ content) (name : String)
    {value : JsonTree} (hvalue : value.WellKeyed) :
    (adjacent tag content name value).WellKeyed := by
  apply WellKeyed.object
  · simp [keys, h]
  · simp [hvalue, WellKeyed.string]

/-! A tree for a value. -/

/-- The tree is read as this value. -/
structure Denotes (read : JsonTree → Option α) (tree : JsonTree) (a : α) : Prop where
  wellKeyed : tree.WellKeyed
  read : read tree = some a

theorem Denotes.bool (b : Bool) : Denotes readBool (.bool b) b := ⟨.bool b, rfl⟩

theorem Denotes.string (s : String) : Denotes readString (.string s) s := ⟨.string s, rfl⟩

theorem Denotes.nat {bound n : Nat} (h : n < bound) :
    Denotes (readNat bound) (writeNat n) n := by
  constructor
  · exact .int n
  · rw [writeNat, readNat, if_pos (by omega), Int.toNat_natCast]

theorem Denotes.u32 {n : Nat} (h : n < 2 ^ 32) : Denotes readU32 (writeNat n) n := .nat h

theorem Denotes.u64 {n : Nat} (h : n < 2 ^ 64) : Denotes readU64 (writeNat n) n := .nat h

theorem Denotes.int32 (n : Int32) : Denotes readInt32 (writeInt32 n) n := by
  have hlow := n.le_toInt
  have hhigh := n.toInt_lt
  constructor
  · exact .int _
  · rw [writeInt32, readInt32, if_pos (by omega), Int32.ofInt_toInt]

theorem Denotes.tagged {tag name : String} {fields : Entries}
    {readVariant : String → Entries → Option α} {a : α} (htag : tag ∉ keys fields)
    (hkeys : (keys fields).Nodup) (hfields : ∀ entry ∈ fields, entry.2.WellKeyed)
    (hread : readVariant name fields = some a) :
    Denotes (readTagged tag readVariant) (tagged tag name fields) a := by
  constructor
  · exact .tagged name htag hkeys hfields
  · rw [readTagged, untag_tagged name htag]
    exact hread

theorem Denotes.adjacent {tag content name : String} {value : JsonTree}
    {readVariant : String → JsonTree → Option α} {a : α} (htag : tag ≠ content)
    (hvalue : value.WellKeyed) (hread : readVariant name value = some a) :
    Denotes (readAdjacent tag content readVariant) (adjacent tag content name value) a := by
  constructor
  · exact .adjacent htag name hvalue
  · simp [readAdjacent, JsonTree.adjacent, readObject, readString, htag, hread]

/-- The reader of a struct gets its fields. -/
theorem Denotes.object {readFields : Entries → Option α} {fields : Entries} {a : α}
    (hkeys : (keys fields).Nodup) (hfields : ∀ entry ∈ fields, entry.2.WellKeyed)
    (hread : readFields fields = some a) :
    Denotes (readObject readFields) (.object fields) a :=
  ⟨.object hkeys hfields, hread⟩

theorem readOption_of_read {read : JsonTree → Option α} (hnull : read .null = none)
    {tree : JsonTree} {a : α} (h : read tree = some a) : readOption read tree = some (some a) := by
  cases tree with
  | null =>
      rw [hnull] at h
      cases h
  | _ => simp [readOption, h]

theorem Denotes.option {read : JsonTree → Option α} {write : α → JsonTree}
    (hnull : read .null = none) {o : Option α} (h : ∀ a ∈ o, Denotes read (write a) a) :
    Denotes (readOption read) (writeOption write o) o := by
  cases o with
  | none => exact ⟨.null, rfl⟩
  | some a =>
      have ha := h a rfl
      exact ⟨ha.wellKeyed, readOption_of_read hnull ha.read⟩

theorem Denotes.pair {readFst : JsonTree → Option α} {readSnd : JsonTree → Option β}
    {first second : JsonTree} {a : α} {b : β} (hfst : Denotes readFst first a)
    (hsnd : Denotes readSnd second b) :
    Denotes (readPair readFst readSnd) (.array [first, second]) (a, b) := by
  constructor
  · apply WellKeyed.array
    simp [hfst.wellKeyed, hsnd.wellKeyed]
  · simp [readPair, hfst.read, hsnd.read]

theorem Denotes.array {read : JsonTree → Option α} {trees : List JsonTree} {items : List α}
    (h : List.Forall₂ (Denotes read) trees items) :
    Denotes (readList read) (.array trees) items := by
  have hall : (∀ tree ∈ trees, tree.WellKeyed) ∧ trees.mapM read = some items := by
    induction h with
    | nil => exact ⟨List.forall_mem_nil _, rfl⟩
    | cons hhead _ ih =>
        obtain ⟨hkeyed, hread⟩ := ih
        constructor
        · exact List.forall_mem_cons.mpr ⟨hhead.wellKeyed, hkeyed⟩
        · simp [List.mapM_cons, hhead.read, hread]
  exact ⟨.array hall.1, hall.2⟩

theorem Denotes.list {read : JsonTree → Option α} {write : α → JsonTree} {items : List α}
    (h : ∀ a ∈ items, Denotes read (write a) a) :
    Denotes (readList read) (writeList write items) items := by
  apply Denotes.array
  rw [List.forall₂_map_left_iff, List.forall₂_same]
  exact h

/-- A list is written if and only if each of its items is. -/
theorem mapM_isSome (write : α → Option JsonTree) (items : List α) :
    (items.mapM write).isSome = items.all (fun a => (write a).isSome) := by
  induction items with
  | nil => rfl
  | cons a rest ih =>
      rw [List.all_cons, ← ih, List.mapM_cons]
      cases write a with
      | none => rfl
      | some tree => cases rest.mapM write <;> rfl

/-- A list whose items can each be written can be written. -/
theorem mapM_denotes {read : JsonTree → Option α} {write : α → Option JsonTree} {items : List α}
    (h : ∀ a ∈ items, ∃ tree, write a = some tree ∧ Denotes read tree a) :
    ∃ trees, items.mapM write = some trees ∧ Denotes (readList read) (.array trees) items := by
  have htrees : ∃ trees, items.mapM write = some trees ∧
      List.Forall₂ (Denotes read) trees items := by
    induction items with
    | nil => exact ⟨[], rfl, .nil⟩
    | cons a rest ih =>
        obtain ⟨tree, hwrite, hdenotes⟩ := h a List.mem_cons_self
        obtain ⟨trees, hmap, hrest⟩ := ih (fun b hb => h b (List.mem_cons_of_mem a hb))
        exact ⟨tree :: trees, by simp [List.mapM_cons, hwrite, hmap], .cons hdenotes hrest⟩
  obtain ⟨trees, hmap, hforall⟩ := htrees
  exact ⟨trees, hmap, .array hforall⟩

end JsonTree

end Execra
