import MacroExpansion.Proofs.Splicing

/-! # Positions of spliced elements

An element that no splice touches parts the splices in two: those before it and those behind it do
not know of each other. So the element lands where `SpliceStack.shifted` says, between what the two
parts of the sequence read as under their own splices. -/

namespace MacroExpansion

variable {α : Type} {splice : PendingSplice α} {splices pushed : List (PendingSplice α)}
  {items : List α} {position : Nat} {reckoning : Reckoning}

namespace SpliceStack

open PendingSplice

/-- No splice touches the element at a position: none begins there, and none removes it. -/
def Spares (splices : List (PendingSplice α)) (position : Nat) : Prop :=
  ∀ splice ∈ splices, splice.index ≠ position ∧ splice.covers position = false

instance (splices : List (PendingSplice α)) (position : Nat) : Decidable (Spares splices position) :=
  inferInstanceAs (Decidable (∀ splice ∈ splices, _))

/-- The splices that begin before a position. -/
def before (splices : List (PendingSplice α)) (position : Nat) : List (PendingSplice α) :=
  splices.filter (·.index < position)

/-- The splices that begin behind a position, in the sequence that begins there. -/
def behind (splices : List (PendingSplice α)) (position : Nat) : List (PendingSplice α) :=
  (splices.filter (position < ·.index)).map fun splice =>
    { splice with index := splice.index - (position + 1) }

/-- The splices behind an element lie within what is behind it. -/
theorem areApart_behind {length : Nat} (h : AreApart splices length) :
    AreApart (behind splices position) (length - (position + 1)) where
  within splice hmem := by
    obtain ⟨original, horiginal, rfl⟩ := List.mem_map.mp hmem
    obtain ⟨hsplice, hbehind⟩ := List.mem_filter.mp horiginal
    have hindex := of_decide_eq_true hbehind
    have hwithin := h.within original hsplice
    dsimp only
    omega
  apart := by
    refine List.pairwise_map.mpr ((h.apart.sublist List.filter_sublist).imp_of_mem ?_)
    intro splice other hsplice hother hapart
    have hindex := of_decide_eq_true (List.mem_filter.mp hsplice).2
    have hindex' := of_decide_eq_true (List.mem_filter.mp hother).2
    simp only [Apart, covers_eq_false_iff] at hapart ⊢
    omega

/-- A part of the splices puts the same where it contains all that begin there. -/
theorem emitted_filter {keep : PendingSplice α → Bool}
    (h : ∀ splice ∈ splices, splice.index = position → keep splice = true) :
    emitted (splices.filter keep) position = emitted splices position := by
  induction splices with
  | nil => rfl
  | cons splice rest ih =>
    have hrest := ih fun later hmem => h later (List.mem_cons_of_mem _ hmem)
    by_cases hkeep : keep splice = true
    · rw [List.filter_cons_of_pos hkeep, emitted_cons, emitted_cons, hrest]
    · have hne : splice.index ≠ position := fun hindex =>
        hkeep (h splice List.mem_cons_self hindex)
      rw [List.filter_cons_of_neg hkeep, emitted_cons, if_neg hne, hrest, List.nil_append]

/-- A part of the splices removes the same where it contains all that reach there. -/
theorem any_covers_filter {keep : PendingSplice α → Bool}
    (h : ∀ splice ∈ splices, splice.covers position = true → keep splice = true) :
    (splices.filter keep).any (·.covers position) = splices.any (·.covers position) := by
  rw [Bool.eq_iff_iff, List.any_eq_true, List.any_eq_true]
  constructor
  · rintro ⟨splice, hmem, hcovers⟩
    exact ⟨splice, (List.mem_filter.mp hmem).1, hcovers⟩
  · rintro ⟨splice, hmem, hcovers⟩
    exact ⟨splice, List.mem_filter.mpr ⟨hmem, h splice hmem hcovers⟩, hcovers⟩

/-- Splices put in the part of a sequence behind a position what they put there in the whole. -/
theorem emitted_behind (offset : Nat) :
    emitted (behind splices position) offset = emitted splices (position + 1 + offset) := by
  have hbegins (splice : PendingSplice α) (hmem : splice ∈ splices.filter (position < ·.index)) :
      splice.index - (position + 1) = offset ↔ splice.index = position + 1 + offset := by
    have hindex := of_decide_eq_true (List.mem_filter.mp hmem).2
    omega
  have hfilter : emitted (splices.filter (position < ·.index)) (position + 1 + offset) =
      emitted splices (position + 1 + offset) :=
    emitted_filter fun splice _ hindex => decide_eq_true (by omega)
  rw [← hfilter, emitted, emitted, behind, List.flatMap_map]
  exact List.flatMap_congr fun splice hmem => if_congr (hbegins splice hmem) rfl rfl

/-- The part behind an element is previewed as it is read. -/
theorem preview_behind (h : AreApart splices items.length) (hpushed : pushed.Perm splices)
    (hreach : reckoning.Reaches (items.length + 2 * volume splices)) :
    (pushAll { reckoning } (behind pushed position)).preview (items.drop (position + 1)) =
      replaceAll (behind splices position) 0 (items.drop (position + 1)) := by
  have hlength : (items.drop (position + 1)).length = items.length - (position + 1) :=
    List.length_drop
  have hapart : AreApart (behind splices position) (items.drop (position + 1)).length :=
    hlength.symm ▸ areApart_behind h
  have hvolume : volume (behind splices position) ≤ volume splices := by
    rw [volume, behind, List.map_map]
    exact volume_filter_le _ splices
  exact congrArg Prod.fst (apply_pushAll hapart ((hpushed.filter _).map _)
    (hreach.mono (by rw [hlength]; omega)))

section Spared

variable (hspared : Spares splices position)
include hspared

/-- Splices that begin before a spared element end before it, too. -/
theorem Spares.end_le (hmem : splice ∈ splices) (hbefore : splice.index < position) :
    splice.index + splice.deleted ≤ position := by
  have hcovers := (hspared splice hmem).2
  rw [covers_eq_false_iff] at hcovers
  omega

/-- Nothing is put in front of a spared element. -/
theorem emitted_of_spares : emitted splices position = [] :=
  emitted_of_forall_ne fun splice hmem => (hspared splice hmem).1

/-- The splices before a spared element lie within what is before it. -/
theorem areApart_before {length : Nat} (h : AreApart splices length) :
    AreApart (before splices position) position :=
  h.filter _ fun _ hmem hbefore => hspared.end_le hmem (of_decide_eq_true hbefore)

/-- Before a spared element only the splices that begin before it are read. -/
theorem replaceAll_before {front : List α} (hlength : front.length = position) :
    replaceAll splices 0 front = replaceAll (before splices position) 0 front := by
  refine replaceAll_congr (fun offset hle => (emitted_filter fun splice hmem hindex => ?_).symm)
    fun offset hlt => (any_covers_filter fun splice _ hcovers => ?_).symm
  · have hne := (hspared splice hmem).1
    exact decide_eq_true (by omega)
  · simp only [covers, Bool.and_eq_true, decide_eq_true_eq] at hcovers ⊢
    omega

/-- What splices remove behind a spared element, those behind it remove. -/
theorem any_covers_behind (offset : Nat) :
    (behind splices position).any (·.covers offset) =
      splices.any (·.covers (position + 1 + offset)) := by
  rw [Bool.eq_iff_iff, List.any_eq_true, List.any_eq_true]
  simp only [behind, List.mem_map, List.mem_filter, decide_eq_true_eq, covers, Bool.and_eq_true]
  constructor
  · rintro ⟨_, ⟨splice, ⟨hmem, hindex⟩, rfl⟩, hcovers⟩
    dsimp only at hcovers
    exact ⟨splice, hmem, by omega, by omega⟩
  · rintro ⟨splice, hmem, hcovers⟩
    -- a splice that begins before the spared element does not reach behind it
    have hindex : position < splice.index := by
      by_contra hle
      have hne := (hspared splice hmem).1
      have hend := hspared.end_le hmem (by omega)
      omega
    refine ⟨_, ⟨splice, ⟨hmem, hindex⟩, rfl⟩, ?_⟩
    dsimp only
    omega

/-- Behind a spared element only the splices that begin behind it are read. -/
theorem replaceAll_behind (rest : List α) :
    replaceAll splices (position + 1) rest = replaceAll (behind splices position) 0 rest := by
  refine replaceAll_congr (fun offset _ => ?_) fun offset _ => ?_
  · rw [Nat.zero_add, emitted_behind]
  · rw [Nat.zero_add, any_covers_behind hspared]

/-- A sequence is read as what is before a spared element, the element, and what is behind it. -/
theorem replaceAll_parted {item : α} (hitem : items[position]? = some item) :
    replaceAll splices 0 items =
      replaceAll (before splices position) 0 (items.take position) ++
        item :: replaceAll (behind splices position) 0 (items.drop (position + 1)) := by
  obtain ⟨hlt, hget⟩ := List.getElem?_eq_some_iff.mp hitem
  have hlength : (items.take position).length = position :=
    List.length_take_of_le (Nat.le_of_lt hlt)
  have hitems : items = items.take position ++ item :: items.drop (position + 1) := by
    rw [← hget, ← List.drop_eq_getElem_cons hlt, List.take_append_drop]
  have hemitted := emitted_of_spares hspared
  have hkept : splices.any (·.covers position) = false :=
    List.any_eq_false.mpr fun splice hmem => Bool.not_eq_true _ ▸ (hspared splice hmem).2
  conv_lhs => rw [hitems]
  rw [replaceAll_append (by rwa [Nat.zero_add, hlength]), Nat.zero_add, hlength, replaceAll, hemitted,
    hkept, ← replaceAll_before hspared hlength, ← replaceAll_behind hspared]
  rfl

/-- A spared element lands behind what is read in front of it. -/
theorem shifted_pushAll (h : AreApart splices items.length) (hpushed : pushed.Perm splices)
    (hreach : reckoning.Reaches (items.length + 2 * volume splices))
    (hposition : position ≤ items.length) :
    (pushAll { reckoning } pushed).shifted position =
      (replaceAll splices 0 (items.take position)).length := by
  have hlength : (items.take position).length = position := List.length_take_of_le hposition
  have hpending : (pushAll { reckoning } pushed).pending.Perm splices :=
    (pending_pushAll_perm reckoning pushed).trans hpushed
  have hbefore := areApart_before hspared h
  have hvolume := volume_filter_le (fun splice => splice.index < position) splices
  have hgrowth : totalDelta reckoning (before splices position) =
      totalDelta .unbounded (before splices position) :=
    totalDelta_of_reaches hreach hbefore.within (by simp only [before]; omega)
  have hread : ((replaceAll (before splices position) 0 (items.take position)).length : Int) =
      position + totalDelta .unbounded (before splices position) := by
    rw [length_replaceAll (hlength.symm ▸ hbefore), hlength]
  have hle := totalDelta_le_volume (before splices position)
  have hpendingBefore : totalDelta reckoning ((pushAll { reckoning } pushed).pending.filter
      (·.index < position)) = totalDelta .unbounded (before splices position) :=
    (totalDelta_perm _ (hpending.filter _)).trans hgrowth
  simp only [shifted, reckoning_pushAll, hpendingBefore]
  rw [replaceAll_before hspared hlength, ← hread, hreach.wrap_eq, Int.toNat_natCast]
  simp only [before] at hread hle ⊢
  omega

/-- The part before a spared element is previewed as it is read. -/
theorem preview_before (h : AreApart splices items.length) (hpushed : pushed.Perm splices)
    (hreach : reckoning.Reaches (items.length + 2 * volume splices))
    (hposition : position ≤ items.length) :
    (pushAll { reckoning } (before pushed position)).preview (items.take position) =
      replaceAll (before splices position) 0 (items.take position) := by
  have hlength : (items.take position).length = position := List.length_take_of_le hposition
  have hapart : AreApart (before splices position) (items.take position).length :=
    hlength.symm ▸ areApart_before hspared h
  have hvolume : volume (before splices position) ≤ volume splices := volume_filter_le _ _
  exact congrArg Prod.fst
    (apply_pushAll hapart (hpushed.filter _) (hreach.mono (by rw [hlength]; omega)))

end Spared

/-- Spared elements land in the order in which they stand. -/
theorem shifted_lt_shifted {later : Nat} (h : AreApart splices items.length)
    (hpushed : pushed.Perm splices) (hreach : reckoning.Reaches (items.length + 2 * volume splices))
    (hspared : Spares splices position) (hspared' : Spares splices later) (hlt : position < later)
    (hlater : later < items.length) :
    (pushAll { reckoning } pushed).shifted position <
      (pushAll { reckoning } pushed).shifted later := by
  have hposition : position < items.length := Nat.lt_trans hlt hlater
  -- what is in front of the first element is the beginning of what is in front of the later one
  have hitem : (items.take later)[position]? = some items[position] := by
    rw [List.getElem?_take_of_lt hlt, List.getElem?_eq_getElem]
  have hread := replaceAll_parted hspared hitem
  have htake : (items.take position).length = position :=
    List.length_take_of_le (Nat.le_of_lt hposition)
  rw [List.take_take, Nat.min_eq_left (Nat.le_of_lt hlt),
    ← replaceAll_before hspared htake] at hread
  rw [shifted_pushAll hspared h hpushed hreach (Nat.le_of_lt hposition),
    shifted_pushAll hspared' h hpushed hreach (Nat.le_of_lt hlater), hread, List.length_append,
    List.length_cons]
  omega

end SpliceStack

/-- Where an element lands that no splice touches, the preview shows it. Such elements stay in order,
and what the preview shows before and behind one of them is what the two parts of the sequence read as
under the splices that begin there. -/
theorem preview_shows_shifted_positions (reckoning : Reckoning) (items : List α)
    (splices pushed : List (PendingSplice α))
    (hapart : PendingSplice.AreApart splices items.length) (hpushed : pushed.Perm splices)
    (hreach : reckoning.Reaches (items.length + 2 * PendingSplice.volume splices)) :
    let stack := SpliceStack.pushAll { reckoning } pushed
    (∀ position item, items[position]? = some item → SpliceStack.Spares splices position →
      (stack.preview items)[stack.shifted position]? = some item ∧
      (stack.preview items).take (stack.shifted position) =
        (SpliceStack.pushAll { reckoning } (SpliceStack.before pushed position)).preview
          (items.take position) ∧
      (stack.preview items).drop (stack.shifted position + 1) =
        (SpliceStack.pushAll { reckoning } (SpliceStack.behind pushed position)).preview
          (items.drop (position + 1))) ∧
    ∀ position later, position < later → later < items.length →
      SpliceStack.Spares splices position → SpliceStack.Spares splices later →
        stack.shifted position < stack.shifted later := by
  intro stack
  have hpreview : stack.preview items = PendingSplice.replaceAll splices 0 items :=
    congrArg Prod.fst (SpliceStack.apply_pushAll hapart hpushed hreach)
  constructor
  · intro position item hitem hspared
    have hlt : position < items.length := (List.getElem?_eq_some_iff.mp hitem).1
    have hlength : (items.take position).length = position :=
      List.length_take_of_le (Nat.le_of_lt hlt)
    have hshifted : stack.shifted position = _ :=
      SpliceStack.shifted_pushAll hspared hapart hpushed hreach (Nat.le_of_lt hlt)
    rw [SpliceStack.replaceAll_before hspared hlength] at hshifted
    rw [hpreview, hshifted, SpliceStack.preview_before hspared hapart hpushed hreach (Nat.le_of_lt hlt),
      SpliceStack.preview_behind hapart hpushed hreach, SpliceStack.replaceAll_parted hspared hitem]
    refine ⟨?_, List.take_left, ?_⟩
    · rw [List.getElem?_append_right (Nat.le_refl _), Nat.sub_self]
      rfl
    · rw [← List.drop_drop, List.drop_left]
      rfl
  · intro position later hlt hlater hspared hspared'
    exact SpliceStack.shifted_lt_shifted hapart hpushed hreach hspared hspared' hlt hlater

/-- The element between a shorter and a longer replacement, and the one behind both. -/
theorem preview_shows_shifted_positions_two :
    let items := ["m0", "s1", "s2", "m3", "s4"]
    let splices : List (PendingSplice String) := [⟨3, 1, ["a", "b"]⟩, ⟨0, 2, ["c"]⟩]
    let stack := SpliceStack.pushAll { reckoning := .word64 } splices
    PendingSplice.AreApart splices items.length ∧
      Reckoning.word64.Reaches (items.length + 2 * PendingSplice.volume splices) ∧
      SpliceStack.Spares splices 2 ∧ SpliceStack.Spares splices 4 ∧
      (stack.preview items).take (stack.shifted 2) = ["c"] ∧ stack.shifted 2 < stack.shifted 4 := by
  intro items splices stack
  have hapart : PendingSplice.AreApart splices items.length := by decide
  have hreach : Reckoning.word64.Reaches (items.length + 2 * PendingSplice.volume splices) := by
    decide
  have hsecond : SpliceStack.Spares splices 2 := by decide
  have hfourth : SpliceStack.Spares splices 4 := by decide
  obtain ⟨hshown, hordered⟩ :=
    preview_shows_shifted_positions .word64 items splices splices hapart (.refl _) hreach
  exact ⟨hapart, hreach, hsecond, hfourth, (hshown 2 "s2" rfl hsecond).2.1,
    hordered 2 4 (by decide) (by decide) hsecond hfourth⟩

end MacroExpansion
