import Mathlib.Data.List.Nodup
import Mathlib.Data.List.Perm.Basic
import Mathlib.Logic.Function.Basic

/-!
# Lists of entries as maps

A list of entries with distinct keys stands for a finite map.  Its order does
not matter, and adding or taking away an entry updates the map at one key.
-/

namespace NtShm

variable {Entry Key Value : Type*} [DecidableEq Key]

/-- The entries have distinct keys, and are those of a map. -/
structure Dictionary (keyOf : Entry → Key) (valueOf : Entry → Value)
    (contents : List Entry) (map : Key → Option Value) : Prop where
  keys : (contents.map keyOf).Nodup
  maps : ∀ key value, map key = some value ↔
    ∃ entry ∈ contents, keyOf entry = key ∧ valueOf entry = value

namespace Dictionary

variable {keyOf : Entry → Key} {valueOf : Entry → Value}
  {contents contents' : List Entry} {map : Key → Option Value} {entry : Entry}

omit [DecidableEq Key] in
theorem empty : Dictionary keyOf valueOf [] fun _ => none where
  keys := by simp
  maps := by simp

omit [DecidableEq Key] in
theorem perm (dictionary : Dictionary keyOf valueOf contents map)
    (same : contents'.Perm contents) :
    Dictionary keyOf valueOf contents' map where
  keys := (same.map keyOf).nodup_iff.mpr dictionary.keys
  maps key value := by simp only [same.mem_iff, dictionary.maps key value]

omit [DecidableEq Key] in
theorem eq_none (dictionary : Dictionary keyOf valueOf contents map) {key : Key}
    (absent : ∀ entry ∈ contents, keyOf entry ≠ key) : map key = none := by
  cases known : map key with
  | none => rfl
  | some value =>
      obtain ⟨entry, isEntry, isKey, -⟩ := (dictionary.maps key value).mp known
      exact absurd isKey (absent entry isEntry)

omit [DecidableEq Key] in
theorem eq_some (dictionary : Dictionary keyOf valueOf contents map)
    (isEntry : entry ∈ contents) : map (keyOf entry) = some (valueOf entry) :=
  (dictionary.maps _ _).mpr ⟨entry, isEntry, rfl, rfl⟩

theorem cons (dictionary : Dictionary keyOf valueOf contents map)
    (fresh : ∀ other ∈ contents, keyOf other ≠ keyOf entry) :
    Dictionary keyOf valueOf (entry :: contents)
      (Function.update map (keyOf entry) (some (valueOf entry))) where
  keys := by
    rw [List.map_cons, List.nodup_cons]
    refine ⟨?_, dictionary.keys⟩
    rw [List.mem_map]
    rintro ⟨other, isOther, same⟩
    exact fresh other isOther same
  maps key value := by
    by_cases here : key = keyOf entry
    · subst here
      rw [Function.update_self]
      constructor
      · rintro ⟨⟩
        exact ⟨entry, List.mem_cons_self, rfl, rfl⟩
      · rintro ⟨other, isOther, isKey, isValue⟩
        rw [List.mem_cons] at isOther
        cases isOther with
        | inl same => rw [← isValue, same]
        | inr old => exact absurd isKey (fresh other old)
    · rw [Function.update_of_ne here, dictionary.maps]
      constructor
      · rintro ⟨other, isOther, found⟩
        exact ⟨other, List.mem_cons_of_mem _ isOther, found⟩
      · rintro ⟨other, isOther, isKey, isValue⟩
        rw [List.mem_cons] at isOther
        cases isOther with
        | inl same =>
            rw [same] at isKey
            exact absurd isKey.symm here
        | inr old => exact ⟨other, old, isKey, isValue⟩

theorem uncons (dictionary : Dictionary keyOf valueOf (entry :: contents) map) :
    Dictionary keyOf valueOf contents
      (Function.update map (keyOf entry) none) where
  keys := by
    have keys := dictionary.keys
    rw [List.map_cons, List.nodup_cons] at keys
    exact keys.2
  maps key value := by
    have keys := dictionary.keys
    rw [List.map_cons, List.nodup_cons] at keys
    by_cases here : key = keyOf entry
    · subst here
      rw [Function.update_self]
      simp only [reduceCtorEq, false_iff]
      rintro ⟨other, isOther, isKey, -⟩
      exact keys.1 (isKey ▸ List.mem_map_of_mem isOther)
    · rw [Function.update_of_ne here, dictionary.maps]
      constructor
      · rintro ⟨other, isOther, isKey, isValue⟩
        rw [List.mem_cons] at isOther
        cases isOther with
        | inl same =>
            rw [same] at isKey
            exact absurd isKey.symm here
        | inr old => exact ⟨other, old, isKey, isValue⟩
      · rintro ⟨other, isOther, found⟩
        exact ⟨other, List.mem_cons_of_mem _ isOther, found⟩

theorem replace (dictionary : Dictionary keyOf valueOf (entry :: contents) map)
    {entry' : Entry} (same : keyOf entry' = keyOf entry) :
    Dictionary keyOf valueOf (entry' :: contents)
      (Function.update map (keyOf entry') (some (valueOf entry'))) := by
  have keys := dictionary.keys
  rw [List.map_cons, List.nodup_cons, ← same] at keys
  have fresh : ∀ other ∈ contents, keyOf other ≠ keyOf entry' := by
    intro other isOther sameKey
    exact keys.1 (List.mem_map.mpr ⟨other, isOther, sameKey⟩)
  have added := dictionary.uncons.cons fresh
  rwa [← same, Function.update_idem] at added

end Dictionary

end NtShm
