import MacroExpansion.Call.Registry

/-! # Registries with changed bodies

The implementations of a registry can be exchanged one by one, say for ones that do the same and write
down what they do. Symbols then lead to the exchanged implementations, and nothing else is found. -/

namespace MacroExpansion

variable {σ τ : Type}

namespace Keyed

variable {κ α β : Type} [BEq κ]

/-- Changed values are found where the values are. -/
theorem lookup_changed (change : α → β) (map : Keyed κ α) (key : κ) :
    List.lookup key (map.map fun entry => (entry.1, change entry.2)) = (map.lookup key).map change := by
  induction map with
  | nil => rfl
  | cons entry rest ih =>
    obtain ⟨other, value⟩ := entry
    rw [List.map_cons, List.lookup_cons, List.lookup_cons]
    cases key == other with
    | true => rfl
    | false => exact ih

/-- Changed values are put where the values are. -/
theorem put_changed (change : α → β) (map : Keyed κ α) (key : κ) (value : α) :
    Keyed.put (map.map fun entry => (entry.1, change entry.2)) key (change value) =
      (map.put key value).map fun entry => (entry.1, change entry.2) := by
  induction map with
  | nil => rfl
  | cons entry rest ih =>
    obtain ⟨other, old⟩ := entry
    rw [List.map_cons, Keyed.put, Keyed.put]
    cases other == key with
    | true => rfl
    | false =>
      rw [if_neg Bool.false_ne_true, if_neg Bool.false_ne_true, ih]
      rfl

end Keyed

namespace Registry

variable (registry : Registry σ) (change : Implementation σ → Implementation τ)

/-- A registry with its implementations changed. -/
def withBodies : Registry τ where
  implementations := registry.implementations.map fun entry => (entry.1, change entry.2)
  discovered := registry.discovered.map fun entry => (entry.1, change entry.2)

/-- A symbol leads to the changed implementation. -/
theorem discover_withBodies (symbol : MethodSymbol) :
    (registry.withBodies change).discover symbol =
      ((registry.discover symbol).1.map change, (registry.discover symbol).2.withBodies change) := by
  unfold discover
  rw [withBodies, Keyed.lookup_changed]
  cases registry.discovered.lookup symbol.id with
  | some implementation => rfl
  | none =>
    simp only [Option.map_none, find?, Keyed.lookup_changed]
    cases registry.implementations.lookup (.of symbol) with
    | none => rfl
    | some implementation =>
      simp only [Option.map_some, Keyed.put_changed]
      rfl

/-- A symbol is resolved to the changed implementation. -/
theorem resolve_withBodies (symbol : MethodSymbol) (site : Site) (source : Option SourceText) :
    (registry.withBodies change).resolve symbol site source =
      ((registry.resolve symbol site source).1.map change,
        (registry.resolve symbol site source).2.withBodies change) := by
  unfold resolve
  rw [discover_withBodies]
  rcases registry.discover symbol with ⟨- | implementation, registry⟩ <;> rfl

end Registry

end MacroExpansion
