/-!
# Finite maps from names

Frames, instance fields, method tables and static scopes all map names to
something, and all of them are small.  A `NameMap` is a list of entries in the
order in which the names were first given; giving a name again changes its entry
in place.

## Main definitions

* `NameMap`: the type, with `empty`, `get?`, `contains` and `insert`.

## Main results

* `NameMap.get?_insert`: reading after a write sees the write, and nothing else
  changes.
-/

namespace ScopedScript

/-- **A finite map from names**, as its entries in order of first insertion. -/
structure NameMap (α : Type) where
  entries : List (String × α)

namespace NameMap

variable {α : Type}

/-- The value of the first entry of `name`. -/
def lookupEntry (name : String) : List (String × α) → Option α
  | [] => none
  | entry :: rest => if entry.1 = name then some entry.2 else lookupEntry name rest

/-- The entry list with `name` bound to `value`: in place if the name is there,
at the end otherwise. -/
def insertEntry (name : String) (value : α) : List (String × α) → List (String × α)
  | [] => [(name, value)]
  | entry :: rest =>
    if entry.1 = name then (name, value) :: rest else entry :: insertEntry name value rest

/-- The map without names. -/
def empty : NameMap α := ⟨[]⟩

/-- The value of `name`, if it has one. -/
def get? (map : NameMap α) (name : String) : Option α := lookupEntry name map.entries

/-- Whether `name` has a value. -/
def contains (map : NameMap α) (name : String) : Bool := (map.get? name).isSome

/-- Gives `name` the value `value`. -/
def insert (map : NameMap α) (name : String) (value : α) : NameMap α :=
  ⟨insertEntry name value map.entries⟩

/-- The names in order of first insertion. -/
def names (map : NameMap α) : List String := map.entries.map Prod.fst

@[simp]
theorem get?_empty (name : String) : (empty : NameMap α).get? name = none := rfl

@[simp]
theorem contains_empty (name : String) : (empty : NameMap α).contains name = false := rfl

theorem lookupEntry_insertEntry (name other : String) (value : α)
    (entries : List (String × α)) :
    lookupEntry other (insertEntry name value entries) =
      if other = name then some value else lookupEntry other entries := by
  induction entries with
  | nil => grind [insertEntry, lookupEntry]
  | cons entry rest ih => grind [insertEntry, lookupEntry]

/-- A write is seen under its own name, and under no other. -/
@[simp, grind =]
theorem get?_insert (map : NameMap α) (name other : String) (value : α) :
    (map.insert name value).get? other = if other = name then some value else map.get? other :=
  lookupEntry_insertEntry name other value map.entries

end NameMap

end ScopedScript
