/-!
# Tables

A table maps names to values and keeps the order in which the names were first
entered. Entering a name again changes its value and not its place.

* `get?_insert`: a look-up after an entry.
* `mem_of_get?`: what a look-up finds was entered.
* `keys_insert_of_contains`, `keys_insert_of_not_contains`: the order of the names.
-/

namespace VecLang

/-- A map from names to values in order of first entry. -/
structure Table (α : Type) where
  entries : List (String × α) := []
deriving DecidableEq, Repr

namespace Table

variable {α : Type}

def lookup (key : String) : List (String × α) → Option α
  | [] => none
  | (k, v) :: rest => if k = key then some v else lookup key rest

/-- The entries with the value of a name set, at its place or else at the end. -/
def enter (key : String) (value : α) : List (String × α) → List (String × α)
  | [] => [(key, value)]
  | (k, v) :: rest => if k = key then (k, value) :: rest else (k, v) :: enter key value rest

def get? (t : Table α) (key : String) : Option α := lookup key t.entries

def insert (t : Table α) (key : String) (value : α) : Table α := ⟨enter key value t.entries⟩

def contains (t : Table α) (key : String) : Bool := (t.get? key).isSome

def keys (t : Table α) : List String := t.entries.map Prod.fst

def size (t : Table α) : Nat := t.entries.length

theorem lookup_enter (key key' : String) (value : α) (es : List (String × α)) :
    lookup key' (enter key value es) = if key' = key then some value else lookup key' es := by
  induction es with
  | nil => simp [enter, lookup, eq_comm]
  | cons e rest ih =>
    obtain ⟨k, v⟩ := e
    by_cases hk : k = key
    · subst hk
      by_cases hk' : key' = k
      · simp [enter, lookup, hk']
      · simp [enter, lookup, hk', Ne.symm hk']
    · by_cases hk' : k = key'
      · subst hk'
        simp [enter, lookup, hk]
      · simp [enter, lookup, hk, hk', ih]

/-- The name just entered has the new value, and no other name has changed. -/
@[simp] theorem get?_insert (t : Table α) (key key' : String) (value : α) :
    (t.insert key value).get? key' = if key' = key then some value else t.get? key' :=
  lookup_enter key key' value t.entries

theorem mem_of_get? {t : Table α} {key : String} {value : α} (h : t.get? key = some value) :
    (key, value) ∈ t.entries := by
  obtain ⟨es⟩ := t
  change lookup key es = some value at h
  change (key, value) ∈ es
  induction es with
  | nil => cases h
  | cons e es ih =>
    obtain ⟨k, v⟩ := e
    rw [lookup] at h
    split at h
    · next hk =>
      cases h
      exact hk ▸ (.head _)
    · exact .tail _ (ih h)

theorem map_fst_enter (key : String) (value : α) (es : List (String × α)) :
    (enter key value es).map Prod.fst =
      if (lookup key es).isSome then es.map Prod.fst else es.map Prod.fst ++ [key] := by
  induction es with
  | nil => simp [enter, lookup]
  | cons e rest ih =>
    obtain ⟨k, v⟩ := e
    by_cases hk : k = key
    · simp [enter, lookup, hk]
    · simp only [enter, lookup, hk, if_false, List.map_cons, ih]
      split <;> simp

theorem keys_insert_of_contains {t : Table α} {key : String} (value : α)
    (h : t.contains key = true) : (t.insert key value).keys = t.keys := by
  simp only [contains, get?] at h
  simp [keys, insert, map_fst_enter, h]

theorem keys_insert_of_not_contains {t : Table α} {key : String} (value : α)
    (h : t.contains key = false) : (t.insert key value).keys = t.keys ++ [key] := by
  simp only [contains, get?] at h
  simp [keys, insert, map_fst_enter, h]

end Table

end VecLang
