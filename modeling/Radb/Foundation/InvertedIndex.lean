import Mathlib

/-! # Inverted indexes

An index of a collection of items lists, for every label, the items that carry it.
Entries are stored apart from the items, and an empty entry is not stored.
-/

namespace Foundation

/-- An entry as it is stored. -/
def saved {Id : Type} (entry : List Id) : Option (List Id) :=
  match entry with
  | [] => none
  | _ => some entry

theorem saved_getD {Id : Type} (entry : List Id) : (saved entry).getD [] = entry := by
  cases entry <;> rfl

theorem saved_ne_nil {Id : Type} (entry : List Id) : saved entry ≠ some [] := by
  cases entry <;> simp [saved]

/-- The stored entries list every item under its label, and nothing else. -/
structure Inverts {Label Id Item : Type} (entries : Label → Option (List Id))
    (items : Id → Option Item) (label : Item → Option Label) : Prop where
  filled : ∀ value, entries value ≠ some []
  distinct : ∀ value, ((entries value).getD []).Nodup
  mem_iff : ∀ value id, id ∈ (entries value).getD [] ↔
    ∃ item, items id = some item ∧ label item = some value

namespace Inverts

variable {Label Id Item : Type} [DecidableEq Label] [DecidableEq Id]
  {entries : Label → Option (List Id)} {items : Id → Option Item} {label : Item → Option Label}
  {id : Id} {value : Label} {next : List Id}

omit [DecidableEq Label] [DecidableEq Id] in
/-- Nothing is listed of no items. -/
theorem of_none (stored : ∀ value, entries value = none) (empty : ∀ id, items id = none) :
    Inverts entries items label where
  filled value := by simp [stored]
  distinct value := by simp [stored]
  mem_iff value id := by simp [stored, empty]

/-- An item is added under its label. -/
theorem add (inverts : Inverts entries items label) {item : Item} (absent : items id = none)
    (labelled : label item = some value)
    (members : ∀ other, other ∈ next ↔ other ∈ (entries value).getD [] ∨ other = id)
    (distinct : next.Nodup) :
    Inverts (Function.update entries value (saved next)) (Function.update items id (some item))
      label where
  filled found := by
    by_cases same : found = value
    · subst same
      rw [Function.update_self]
      exact saved_ne_nil next
    · rw [Function.update_of_ne same]
      exact inverts.filled found
  distinct found := by
    by_cases same : found = value
    · subst same
      rwa [Function.update_self, saved_getD]
    · rw [Function.update_of_ne same]
      exact inverts.distinct found
  mem_iff found other := by
    by_cases own : other = id
    · subst own
      rw [Function.update_self]
      simp only [Option.some.injEq, exists_eq_left', labelled]
      by_cases same : found = value
      · subst same
        rw [Function.update_self, saved_getD, members]
        simp
      · rw [Function.update_of_ne same, inverts.mem_iff]
        simp [absent, Ne.symm same]
    · rw [Function.update_of_ne own, ← inverts.mem_iff]
      by_cases same : found = value
      · subst same
        rw [Function.update_self, saved_getD, members]
        simp [own]
      · rw [Function.update_of_ne same]

/-- An item is removed from under its label. -/
theorem remove (inverts : Inverts entries items label) {item : Item}
    (present : items id = some item) (labelled : label item = some value)
    (members : ∀ other, other ∈ next ↔ other ∈ (entries value).getD [] ∧ other ≠ id)
    (distinct : next.Nodup) :
    Inverts (Function.update entries value (saved next)) (Function.update items id none)
      label where
  filled found := by
    by_cases same : found = value
    · subst same
      rw [Function.update_self]
      exact saved_ne_nil next
    · rw [Function.update_of_ne same]
      exact inverts.filled found
  distinct found := by
    by_cases same : found = value
    · subst same
      rwa [Function.update_self, saved_getD]
    · rw [Function.update_of_ne same]
      exact inverts.distinct found
  mem_iff found other := by
    by_cases own : other = id
    · subst own
      rw [Function.update_self]
      by_cases same : found = value
      · subst same
        rw [Function.update_self, saved_getD, members]
        simp
      · rw [Function.update_of_ne same, inverts.mem_iff]
        simp [present, labelled, Ne.symm same]
    · rw [Function.update_of_ne own, ← inverts.mem_iff]
      by_cases same : found = value
      · subst same
        rw [Function.update_self, saved_getD, members]
        simp [own]
      · rw [Function.update_of_ne same]

omit [DecidableEq Label] in
/-- An item that keeps its label is replaced without touching the index. -/
theorem replace (inverts : Inverts entries items label) {old item : Item}
    (present : items id = some old) (same : label item = label old) :
    Inverts entries (Function.update items id (some item)) label where
  filled := inverts.filled
  distinct := inverts.distinct
  mem_iff found other := by
    rw [inverts.mem_iff]
    by_cases own : other = id
    · subst own
      simp [present, same]
    · rw [Function.update_of_ne own]

omit [DecidableEq Label] [DecidableEq Id] in
/-- Without items, nothing is stored. -/
theorem eq_none (inverts : Inverts entries items label) (empty : ∀ id, items id = none) :
    entries value = none := by
  cases stored : entries value with
  | none => rfl
  | some entry =>
    cases entry with
    | nil => exact absurd stored (inverts.filled value)
    | cons first rest =>
      have listed : first ∈ (entries value).getD [] := by simp [stored]
      obtain ⟨item, found, _⟩ := (inverts.mem_iff value first).mp listed
      rw [empty] at found
      cases found

end Inverts

end Foundation
