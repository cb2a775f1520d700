/-!
Tables give values to distinct names and keep the names in the order in which they were entered.
Each operation is described by what `get?` answers afterwards.
-/

namespace ScriptWasm

set_option autoImplicit false

structure Table (Value : Type) where
  entries : List (String × Value)
  distinct : (entries.map Prod.fst).Nodup
deriving DecidableEq

namespace Table

variable {Value : Type}

/-- Gives a name a value in place of the one it has, or at the end if it has none. -/
def put (name : String) (value : Value) : List (String × Value) → List (String × Value)
  | [] => [(name, value)]
  | (other, old) :: rest =>
      if other = name then (name, value) :: rest else (other, old) :: put name value rest

theorem mem_map_fst_put (name other : String) (value : Value) (entries : List (String × Value)) :
    other ∈ (put name value entries).map Prod.fst ↔
      other = name ∨ other ∈ entries.map Prod.fst := by
  induction entries with
  | nil => simp [put]
  | cons entry rest induction =>
      obtain ⟨first, old⟩ := entry
      simp only [put]
      split
      · simp_all
      · simp only [List.map_cons, List.mem_cons, induction]
        constructor <;> rintro (same | same | same) <;> simp [same]

theorem nodup_put (name : String) (value : Value) (entries : List (String × Value))
    (distinct : (entries.map Prod.fst).Nodup) : ((put name value entries).map Prod.fst).Nodup := by
  induction entries with
  | nil => simp [put]
  | cons entry rest induction =>
      obtain ⟨first, old⟩ := entry
      rw [List.map_cons, List.nodup_cons] at distinct
      simp only [put]
      split
      · simp_all
      · rename_i different
        rw [List.map_cons, List.nodup_cons, mem_map_fst_put]
        exact ⟨fun member => member.elim different distinct.1, induction distinct.2⟩

def empty : Table Value :=
  ⟨[], List.nodup_nil⟩

def valueIn? (name : String) : List (String × Value) → Option Value
  | [] => none
  | (other, value) :: rest => if other = name then some value else valueIn? name rest

def get? (table : Table Value) (name : String) : Option Value :=
  valueIn? name table.entries

def contains (table : Table Value) (name : String) : Bool :=
  (table.get? name).isSome

def size (table : Table Value) : Nat :=
  table.entries.length

def insert (table : Table Value) (name : String) (value : Value) : Table Value :=
  ⟨put name value table.entries, nodup_put name value table.entries table.distinct⟩

def insertNew? (table : Table Value) (name : String) (value : Value) : Option (Table Value) :=
  if table.contains name then none else some (table.insert name value)

/-- The later of two values for one name counts. -/
def ofList (entries : List (String × Value)) : Table Value :=
  entries.foldl (fun table (name, value) => table.insert name value) empty

/-- The outer table, with the values of the inner one for the names they share. -/
def overlay (outer inner : Table Value) : Table Value :=
  inner.entries.foldl (fun table (name, value) => table.insert name value) outer

theorem value_in_put (name other : String) (value : Value) (entries : List (String × Value)) :
    valueIn? other (put name value entries) =
      if name = other then some value else valueIn? other entries := by
  induction entries with
  | nil => rfl
  | cons entry rest induction =>
      obtain ⟨first, old⟩ := entry
      by_cases sameFirst : first = name
      · subst sameFirst
        by_cases same : first = other <;> simp [put, valueIn?, same]
      · by_cases same : first = other
        · subst same
          simp [put, valueIn?, sameFirst, Ne.symm sameFirst]
        · simp [put, valueIn?, sameFirst, same, induction]

theorem get_empty (name : String) : (empty : Table Value).get? name = none :=
  rfl

theorem get_insert (table : Table Value) (name other : String) (value : Value) :
    (table.insert name value).get? other = if name = other then some value else table.get? other :=
  value_in_put name other value table.entries

end Table

end ScriptWasm
