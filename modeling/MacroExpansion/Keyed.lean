/-! # Keyed lists

A finite map kept as a list of pairs in the order in which the keys were first put. It is read by
`List.lookup`; `lookup_put_self` and `lookup_put_of_ne` say what a write does to every later read.
-/

namespace MacroExpansion

/-- A finite map as a list of pairs with distinct keys. -/
abbrev Keyed (κ β : Type) := List (κ × β)

namespace Keyed

/-- Writes a value under a key, in place of the old one if there is one. -/
def put [BEq κ] (map : Keyed κ β) (key : κ) (value : β) : Keyed κ β :=
  match map with
  | [] => [(key, value)]
  | (k, v) :: rest => if k == key then (key, value) :: rest else (k, v) :: put rest key value

variable {κ β : Type} [BEq κ] [LawfulBEq κ]

/-- The key just written holds the value just written. -/
@[simp] theorem lookup_put_self (map : Keyed κ β) (key : κ) (value : β) :
    (map.put key value).lookup key = some value := by
  induction map with
  | nil => simp [put]
  | cons entry rest ih =>
    obtain ⟨k, v⟩ := entry
    by_cases h : k = key
    · simp [put, h]
    · have hk : (key == k) = false := by simpa using Ne.symm h
      simp [put, h, List.lookup_cons, hk, ih]

/-- All other keys hold what they held. -/
theorem lookup_put_of_ne (map : Keyed κ β) {key other : κ} (h : other ≠ key) (value : β) :
    (map.put key value).lookup other = map.lookup other := by
  have hk : (other == key) = false := by simpa using h
  induction map with
  | nil => simp [put, List.lookup_cons, hk]
  | cons entry rest ih =>
    obtain ⟨k, v⟩ := entry
    by_cases hp : k = key
    · subst hp
      simp [put, List.lookup_cons, hk]
    · simp [put, hp, List.lookup_cons, ih]

/-- The keys after a write are those before it, and the written one at the end if it is new. -/
theorem keys_put (map : Keyed κ β) (key : κ) (value : β) :
    (map.put key value).map Prod.fst =
      if key ∈ map.map Prod.fst then map.map Prod.fst else map.map Prod.fst ++ [key] := by
  induction map with
  | nil => simp [put]
  | cons entry rest ih =>
    obtain ⟨k, v⟩ := entry
    by_cases hk : k = key
    · simp [put, hk]
    · have hk' : ¬key = k := fun h => hk h.symm
      by_cases hm : key ∈ rest.map Prod.fst <;> simp_all [put]

end Keyed

end MacroExpansion
