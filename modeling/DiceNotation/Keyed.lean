/-
  DiceNotation.Keyed

  Values under keys, sorted by key.

  The entries stand in increasing order of their keys and each key occurs once,
  so that two lists with the same values under the same keys are equal.
-/

namespace DiceNotation

/-- Entries in increasing order of their keys, each key once. -/
abbrev Keyed (α : Type) : Type := List (String × α)

namespace Keyed

variable {α : Type}

/-- The value under a key. -/
def find? (key : String) : Keyed α → Option α
  | [] => none
  | (k, v) :: rest => if k = key then some v else find? key rest

/-- Sets the value under a key, in place of an earlier one. -/
def set (key : String) (value : α) : Keyed α → Keyed α
  | [] => [(key, value)]
  | (k, v) :: rest =>
    if key < k then (key, value) :: (k, v) :: rest
    else if key = k then (key, value) :: rest
    else (k, v) :: set key value rest

/-- Sets the value under a key unless there is one already. -/
def add (key : String) (value : α) (entries : Keyed α) : Keyed α :=
  match find? key entries with
  | some _ => entries
  | none => set key value entries

/-- Sorts entries; of several values under one key the last stays. -/
def ofList (entries : List (String × α)) : Keyed α :=
  entries.foldl (fun acc (k, v) => set k v acc) []

/-- The value that was just set is found. -/
theorem find?_set (key : String) (value : α) (entries : Keyed α) :
    find? key (set key value entries) = some value := by
  induction entries with
  | nil => simp [set, find?]
  | cons e rest ih =>
    obtain ⟨k, v⟩ := e
    unfold set
    split
    · simp [find?]
    · split
      · simp [find?]
      · next hne => simpa [find?, Ne.symm hne] using ih

/-- Setting a value leaves those under other keys. -/
theorem find?_set_of_ne {key other : String} (h : other ≠ key) (value : α) (entries : Keyed α) :
    find? other (set key value entries) = find? other entries := by
  induction entries with
  | nil => simp [set, find?, Ne.symm h]
  | cons e rest ih =>
    obtain ⟨k, v⟩ := e
    unfold set
    split
    · simp [find?, Ne.symm h]
    · split
      · next heq => simp [find?, heq ▸ Ne.symm h, Ne.symm h]
      · simp [find?, ih]

end Keyed

end DiceNotation
