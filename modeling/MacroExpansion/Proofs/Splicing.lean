import MacroExpansion.Proofs.CursorShows
import Mathlib

/-! # Splices carried out at once

Splices are recorded against the positions that a sequence had at first, and they are carried out one
after the other, on a sequence that the earlier ones have moved already. Where no splice begins in
what another one removes, this comes to reading the sequence once from left to right and replacing
every range on the way (`PendingSplice.replaceAll`), in whatever order the splices were pushed. -/

namespace MacroExpansion

/-! ## Reckoning with small numbers -/

namespace Reckoning

/-- Positions and lengths up to a number are kept, also when two of them are added. -/
def Reaches (reckoning : Reckoning) (size : Nat) : Prop :=
  reckoning = .unbounded ∨ 4 * size < words

instance (reckoning : Reckoning) (size : Nat) : Decidable (reckoning.Reaches size) :=
  inferInstanceAs (Decidable (_ ∨ _))

/-- A reckoning that reaches so far reaches less far, too. -/
theorem Reaches.mono {reckoning : Reckoning} {size size' : Nat} (h : reckoning.Reaches size)
    (hle : size' ≤ size) : reckoning.Reaches size' :=
  h.imp_right fun hsize => by omega

/-- A reckoning is exact as far as it reaches. -/
theorem Reaches.wrap_eq {reckoning : Reckoning} {size : Nat} (h : reckoning.Reaches size) {n : Int}
    (hn : n.natAbs ≤ 2 * size) : reckoning.wrap n = n := by
  rcases h with rfl | hsize
  · rfl
  · exact reckoning.wrap_of_fits (by omega)

end Reckoning

variable {α : Type} {splice other : PendingSplice α} {splices pushed : List (PendingSplice α)}
  {items : List α} {position : Nat} {reckoning : Reckoning}

namespace PendingSplice

/-! ## Reading from left to right -/

/-- The splice removes the element at a position. -/
def covers (splice : PendingSplice α) (position : Nat) : Bool :=
  splice.index ≤ position && position < splice.index + splice.deleted

/-- What splices put in front of the element at a position. -/
def emitted (splices : List (PendingSplice α)) (position : Nat) : List α :=
  splices.flatMap fun splice => if splice.index = position then splice.replacement else []

/-- Reads a sequence that begins at a position from left to right. A splice puts its replacement
where it begins; an element that a splice removes is left out, and every other one is kept. -/
def replaceAll (splices : List (PendingSplice α)) : (position : Nat) → List α → List α
  | position, [] => emitted splices position
  | position, item :: rest =>
      emitted splices position ++ (if splices.any (·.covers position) then [] else [item]) ++
        replaceAll splices (position + 1) rest

/-- A splice leaves an element alone exactly if that is before the splice or behind what it removes. -/
@[simp] theorem covers_eq_false_iff :
    splice.covers position = false ↔
      position < splice.index ∨ splice.index + splice.deleted ≤ position := by
  simp only [covers, Bool.and_eq_false_iff, decide_eq_false_iff_not]
  omega

/-- What splices put in front of an element is put there splice by splice. -/
theorem emitted_cons (splice : PendingSplice α) (splices : List (PendingSplice α)) (position : Nat) :
    emitted (splice :: splices) position =
      (if splice.index = position then splice.replacement else []) ++ emitted splices position :=
  List.flatMap_cons

/-- Nothing is put where no splice begins. -/
theorem emitted_of_forall_ne (h : ∀ splice ∈ splices, splice.index ≠ position) :
    emitted splices position = [] :=
  List.flatMap_eq_nil_iff.mpr fun splice hmem => if_neg (h splice hmem)

/-- What is read depends on nothing but what is put and removed at the positions that are read. -/
theorem replaceAll_congr {first second : List (PendingSplice α)} {p q : Nat}
    (hemitted : ∀ offset ≤ items.length,
      emitted first (p + offset) = emitted second (q + offset))
    (hcovers : ∀ offset < items.length,
      first.any (·.covers (p + offset)) = second.any (·.covers (q + offset))) :
    replaceAll first p items = replaceAll second q items := by
  induction items generalizing p q with
  | nil => exact hemitted 0 (Nat.le_refl 0)
  | cons item rest ih =>
    have hhere := hemitted 0 (Nat.zero_le _)
    have hcovered := hcovers 0 (Nat.zero_lt_succ _)
    simp only [Nat.add_zero] at hhere hcovered
    rw [replaceAll, replaceAll, hhere, hcovered, ih]
    · intro offset hle
      rw [Nat.add_assoc, Nat.add_assoc, Nat.add_comm 1]
      exact hemitted (offset + 1) (Nat.succ_le_succ hle)
    · intro offset hlt
      rw [Nat.add_assoc, Nat.add_assoc, Nat.add_comm 1]
      exact hcovers (offset + 1) (Nat.succ_lt_succ hlt)

/-- A sequence that is cut where no splice begins is read part by part. -/
theorem replaceAll_append {front : List α} (h : emitted splices (position + front.length) = []) :
    replaceAll splices position (front ++ items) =
      replaceAll splices position front ++ replaceAll splices (position + front.length) items := by
  induction front generalizing position with
  | nil =>
    rw [List.length_nil, Nat.add_zero] at h
    rw [replaceAll, h]
    rfl
  | cons item rest ih =>
    rw [List.length_cons, Nat.add_comm rest.length, ← Nat.add_assoc] at h ⊢
    rw [List.cons_append, replaceAll, replaceAll, ih h, List.append_assoc _ (replaceAll ..)]

/-- Elements before all splices are kept. -/
theorem replaceAll_untouched {front : List α}
    (h : ∀ splice ∈ splices, position + front.length ≤ splice.index) :
    replaceAll splices position (front ++ items) =
      front ++ replaceAll splices (position + front.length) items := by
  induction front generalizing position with
  | nil => rfl
  | cons item rest ih =>
    rw [List.length_cons, Nat.add_comm rest.length, ← Nat.add_assoc] at h ⊢
    have hemitted : emitted splices position = [] :=
      emitted_of_forall_ne fun splice hmem => by have := h splice hmem; omega
    have hkept : splices.any (·.covers position) = false := by
      refine List.any_eq_false.mpr fun splice hmem => ?_
      rw [Bool.not_eq_true, covers_eq_false_iff]
      exact .inl (by have := h splice hmem; omega)
    rw [List.cons_append, replaceAll, hemitted, hkept, ih h]
    rfl

/-- Elements that are removed leave nothing behind. -/
theorem replaceAll_covered {removed : List α}
    (h : ∀ offset < removed.length, emitted splices (position + offset) = [] ∧
      splices.any (·.covers (position + offset)) = true) :
    replaceAll splices position (removed ++ items) =
      replaceAll splices (position + removed.length) items := by
  induction removed generalizing position with
  | nil => rfl
  | cons item rest ih =>
    obtain ⟨hemitted, hcovered⟩ := h 0 (Nat.zero_lt_succ _)
    rw [Nat.add_zero] at hemitted hcovered
    rw [List.cons_append, replaceAll, hemitted, hcovered, if_pos rfl, ih]
    · rw [List.length_cons, Nat.add_comm rest.length, Nat.add_assoc]
      rfl
    · intro offset hlt
      rw [Nat.add_assoc, Nat.add_comm 1]
      exact h (offset + 1) (Nat.succ_lt_succ hlt)

/-! ## Splices that are apart -/

/-- Neither of two splices begins where the other one begins, or in what the other one removes. -/
def Apart (splice other : PendingSplice α) : Prop :=
  splice.index ≠ other.index ∧ splice.covers other.index = false ∧
    other.covers splice.index = false

instance (splice other : PendingSplice α) : Decidable (splice.Apart other) :=
  inferInstanceAs (Decidable (_ ∧ _ ∧ _))

/-- It makes no difference which of two splices that are apart is named first. -/
theorem Apart.symm (h : splice.Apart other) : other.Apart splice :=
  ⟨h.1.symm, h.2.2, h.2.1⟩

/-- The first of two splices ends before the second one begins. -/
def Precedes (splice other : PendingSplice α) : Prop :=
  splice.index < other.index ∧ splice.index + splice.deleted ≤ other.index

/-- Of two splices that are apart, the one with the smaller position ends before the other one. -/
theorem Apart.precedes (h : splice.Apart other) (hle : splice.index ≤ other.index) :
    splice.Precedes other := by
  obtain ⟨hne, hcovers, -⟩ := h
  rw [covers_eq_false_iff] at hcovers
  constructor <;> omega

/-- Splices that lie within a sequence of some length and are apart. -/
structure AreApart (splices : List (PendingSplice α)) (length : Nat) : Prop where
  /-- No splice reaches past the end. -/
  within : ∀ splice ∈ splices, splice.index + splice.deleted ≤ length
  /-- Any two of the splices are apart. -/
  apart : splices.Pairwise Apart

instance (splices : List (PendingSplice α)) (length : Nat) : Decidable (AreApart splices length) :=
  decidable_of_iff
    ((∀ splice ∈ splices, splice.index + splice.deleted ≤ length) ∧ splices.Pairwise Apart)
    ⟨fun h => ⟨h.1, h.2⟩, fun h => ⟨h.within, h.apart⟩⟩

namespace AreApart

variable {length : Nat}

/-- Splices that are apart are so in any order. -/
theorem of_perm (h : AreApart splices length) (hperm : pushed.Perm splices) :
    AreApart pushed length where
  within splice hmem := h.within splice (hperm.mem_iff.mp hmem)
  apart := (hperm.pairwise_iff Apart.symm).mpr h.apart

/-- Some of the splices that are apart are apart, in a shorter sequence as well if they are within
it. -/
theorem filter (h : AreApart splices length) (keep : PendingSplice α → Bool) {length' : Nat}
    (hwithin : ∀ splice ∈ splices, keep splice = true →
      splice.index + splice.deleted ≤ length') : AreApart (splices.filter keep) length' where
  within splice hmem := by
    obtain ⟨hsplice, hkeep⟩ := List.mem_filter.mp hmem
    exact hwithin splice hsplice hkeep
  apart := h.apart.sublist List.filter_sublist

/-- Where a splice begins, nothing but its replacement is put. -/
theorem emitted_eq (h : splices.Pairwise Apart) (hmem : splice ∈ splices) :
    emitted splices splice.index = splice.replacement := by
  induction splices with
  | nil => cases hmem
  | cons first rest ih =>
    obtain ⟨hfirst, hrest⟩ := List.pairwise_cons.mp h
    rw [emitted_cons]
    rcases List.mem_cons.mp hmem with rfl | hmem
    · rw [if_pos rfl, emitted_of_forall_ne fun later hlater => (hfirst later hlater).1.symm,
        List.append_nil]
    · rw [if_neg (hfirst splice hmem).1, ih hrest hmem, List.nil_append]

/-- The order in which splices are listed makes no difference to what is read. -/
theorem replaceAll_perm (h : splices.Pairwise Apart) (hperm : pushed.Perm splices)
    (position : Nat) (items : List α) :
    replaceAll pushed position items = replaceAll splices position items := by
  refine replaceAll_congr (fun offset _ => ?_) fun offset _ => hperm.any_eq
  by_cases hbegins : ∃ splice ∈ splices, splice.index = position + offset
  · obtain ⟨splice, hmem, hindex⟩ := hbegins
    rw [← hindex, emitted_eq h hmem,
      emitted_eq ((hperm.pairwise_iff Apart.symm).mpr h) (hperm.mem_iff.mpr hmem)]
  · rw [emitted_of_forall_ne fun splice hmem hindex => hbegins ⟨splice, hmem, hindex⟩,
      emitted_of_forall_ne fun splice hmem hindex =>
        hbegins ⟨splice, hperm.mem_iff.mp hmem, hindex⟩]

end AreApart

/-- What is read where the first of some splices begins: its replacement, and what is behind the
elements that it removes. -/
theorem replaceAll_cons_self {removed behind : List α} (hdeleted : removed.length = splice.deleted)
    (hrest : ∀ other ∈ splices, splice.Precedes other) :
    replaceAll (splice :: splices) splice.index (removed ++ behind) =
      splice.replacement ++ replaceAll splices (splice.index + splice.deleted) behind := by
  -- the replacement comes first, and then the splice only removes
  let removal : PendingSplice α := { splice with replacement := [] }
  have hemitted (position : Nat) : emitted (removal :: splices) position = emitted splices position := by
    rw [emitted_cons, ite_self]
    rfl
  have hcovers (position : Nat) : (removal :: splices).any (·.covers position) =
      (splice :: splices).any (·.covers position) := rfl
  have hfirst : replaceAll (splice :: splices) splice.index (removed ++ behind) =
      splice.replacement ++ replaceAll (removal :: splices) splice.index (removed ++ behind) := by
    cases removed ++ behind with
    | nil => rw [replaceAll, replaceAll, hemitted, emitted_cons, if_pos rfl]
    | cons item rest =>
      have hlater : replaceAll (splice :: splices) (splice.index + 1) rest =
          replaceAll (removal :: splices) (splice.index + 1) rest := by
        refine replaceAll_congr (fun offset _ => ?_) fun _ _ => rfl
        rw [hemitted, emitted_cons, if_neg (by omega), List.nil_append]
      rw [replaceAll, replaceAll, hlater, hemitted, hcovers, emitted_cons, if_pos rfl]
      simp only [List.append_assoc]
  rw [hfirst, replaceAll_covered fun offset hlt => ?_, hdeleted]
  · congr 1
    refine replaceAll_congr (fun offset _ => hemitted _) fun offset _ => ?_
    rw [List.any_cons, show removal.covers _ = false from covers_eq_false_iff.mpr (.inr ?_),
      Bool.false_or]
    exact Nat.le_add_right _ _
  · rw [hdeleted] at hlt
    refine ⟨(hemitted _).trans (emitted_of_forall_ne fun other hmem => ?_), ?_⟩
    · have := (hrest other hmem).2
      omega
    · rw [List.any_cons, Bool.or_eq_true_iff]
      left
      simp only [removal, covers, Bool.and_eq_true, decide_eq_true_eq]
      omega

/-- Without splices everything is kept. -/
@[simp] theorem replaceAll_nil (position : Nat) (items : List α) :
    replaceAll [] position items = items := by
  induction items generalizing position with
  | nil => rfl
  | cons item rest ih =>
    rw [replaceAll, ih]
    rfl

/-! ## Sums over splices -/

/-- The number of elements that splices bring in. -/
def volume (splices : List (PendingSplice α)) : Nat :=
  (splices.map (·.replacement.length)).sum

/-- A splice and further ones bring in what they bring in together. -/
theorem volume_cons (splice : PendingSplice α) (splices : List (PendingSplice α)) :
    volume (splice :: splices) = splice.replacement.length + volume splices :=
  List.sum_cons

/-- Two lists of splices bring in what each of them brings in. -/
theorem volume_append (first second : List (PendingSplice α)) :
    volume (first ++ second) = volume first + volume second := by
  simp only [volume, List.map_append, List.sum_append]

/-- The growth is that of all splices, added up. -/
theorem totalDelta_eq_sum (reckoning : Reckoning) (splices : List (PendingSplice α)) :
    totalDelta reckoning splices = (splices.map (·.delta reckoning)).sum := by
  induction splices with
  | nil => rfl
  | cons splice rest ih => rw [totalDelta, ih, List.map_cons, List.sum_cons]

/-- The growth does not depend on the order of splices. -/
theorem totalDelta_perm (reckoning : Reckoning) (hperm : pushed.Perm splices) :
    totalDelta reckoning pushed = totalDelta reckoning splices := by
  rw [totalDelta_eq_sum, totalDelta_eq_sum]
  exact (hperm.map _).sum_eq

/-- How much is brought in does not depend on the order of splices. -/
theorem volume_perm (hperm : pushed.Perm splices) : volume pushed = volume splices :=
  (hperm.map _).sum_eq

/-- Some of the splices bring in no more than all of them. -/
theorem volume_filter_le (keep : PendingSplice α → Bool) (splices : List (PendingSplice α)) :
    volume (splices.filter keep) ≤ volume splices := by
  induction splices with
  | nil => exact Nat.le_refl _
  | cons splice rest ih =>
    rw [List.filter_cons, volume_cons]
    split
    · rw [volume_cons]
      exact Nat.add_le_add_left ih _
    · exact Nat.le_add_left_of_le ih

/-- A sequence grows by no more than what is brought in. -/
theorem totalDelta_le_volume (splices : List (PendingSplice α)) :
    totalDelta .unbounded splices ≤ volume splices := by
  induction splices with
  | nil => exact Int.le_refl 0
  | cons splice rest ih =>
    rw [totalDelta, delta, Reckoning.wrap_unbounded, volume_cons]
    omega

/-- Net growths are reckoned as they are, where the reckoning reaches what comes in and goes out. -/
theorem totalDelta_of_reaches {length size : Nat} (hreach : reckoning.Reaches size)
    (hwithin : ∀ splice ∈ splices, splice.index + splice.deleted ≤ length)
    (hsize : length + volume splices ≤ size) :
    totalDelta reckoning splices = totalDelta .unbounded splices := by
  induction splices with
  | nil => rfl
  | cons splice rest ih =>
    have hfirst := hwithin splice List.mem_cons_self
    rw [volume_cons] at hsize
    have hdelta : splice.delta reckoning = splice.delta :=
      hreach.wrap_eq (by omega)
    rw [totalDelta, totalDelta, hdelta,
      ih (fun later hmem => hwithin later (List.mem_cons_of_mem _ hmem)) (by omega)]

end PendingSplice

namespace SpliceStack

open PendingSplice

/-! ## Carrying splices out -/

/-- A sequence of `length` elements at first never grows by less than `-length`, and with `room` for all
that comes in, no position is moved behind `top`. Where the numbers between are kept, it makes no
difference to a run how positions are reckoned with. -/
theorem run_eq_unbounded (length room top : Nat)
    (hkept : ∀ n : Int, -length ≤ n → n ≤ top → reckoning.wrap n = n)
    (hindex : ∀ splice ∈ splices, splice.index + room ≤ top) {delta : Int}
    (hdelta : delta = items.length - length) (hroom : delta + volume splices ≤ room) :
    run reckoning splices delta items = run .unbounded splices delta items := by
  induction splices generalizing delta items with
  | nil => rfl
  | cons splice rest ih =>
    have hfirst := hindex splice List.mem_cons_self
    rw [volume_cons] at hroom
    rw [run, run, hkept _ (by omega) (by omega), Reckoning.wrap_unbounded, Reckoning.wrap_unbounded]
    set start := min ((splice.index : Int) + delta).toNat items.length
    set stop := min (start + splice.deleted) items.length
    have hstart : start ≤ stop ∧ stop ≤ items.length := by omega
    rw [hkept _ (by omega) (by omega)]
    refine ih (fun later hmem => hindex later (List.mem_cons_of_mem _ hmem)) ?_ (by omega)
    simp only [List.length_append, List.length_take, List.length_drop]
    omega

/-- Splices in order, carried out behind `front`, replace what is read behind it. -/
theorem run_eq_replaceAll (hsorted : splices.Pairwise Precedes)
    (hfrom : ∀ splice ∈ splices, position ≤ splice.index)
    (hwithin : ∀ splice ∈ splices, splice.index + splice.deleted ≤ position + items.length)
    (front : List α) :
    run .unbounded splices ((front.length : Int) - position) (front ++ items) =
      (front ++ replaceAll splices position items,
        (front.length : Int) - position + totalDelta .unbounded splices) := by
  induction splices generalizing position items front with
  | nil => simp [run, totalDelta]
  | cons splice rest ih =>
    obtain ⟨hfirst, hrest⟩ := List.pairwise_cons.mp hsorted
    have hbegin := hfrom splice List.mem_cons_self
    have hend := hwithin splice List.mem_cons_self
    -- the splice stands behind a gap, and removes what comes next
    obtain ⟨gap, removed, behind, rfl, hgap, hremoved⟩ : ∃ gap removed behind,
        items = gap ++ (removed ++ behind) ∧ position + gap.length = splice.index ∧
          removed.length = splice.deleted := by
      refine ⟨items.take (splice.index - position),
        (items.drop (splice.index - position)).take splice.deleted,
        (items.drop (splice.index - position)).drop splice.deleted, by simp, ?_, ?_⟩
      · rw [List.length_take]
        omega
      · rw [List.length_take, List.length_drop]
        omega
    have hdelta : (front.length : Int) - position = ((front ++ gap).length : Int) - splice.index := by
      rw [List.length_append]
      omega
    have hnext : ((front ++ gap).length : Int) - splice.index +
        (splice.replacement.length - splice.deleted) =
        ((front ++ gap ++ splice.replacement).length : Int) -
          (splice.index + splice.deleted : Nat) := by
      simp only [List.length_append]
      omega
    have hbefore : ∀ other ∈ splice :: rest, position + gap.length ≤ other.index := by
      intro other hmem
      rcases List.mem_cons.mp hmem with rfl | hmem
      · exact Nat.le_of_eq hgap
      · exact hgap.trans_le (Nat.le_of_lt (hfirst other hmem).1)
    rw [← List.append_assoc front, hdelta, ← List.singleton_append, run_append,
      run_one _ _ _ _ hremoved, hnext, ih hrest (fun other hmem => (hfirst other hmem).2) ?_]
    · rw [List.singleton_append, replaceAll_untouched hbefore, hgap,
        replaceAll_cons_self hremoved hfirst, totalDelta, ← hnext]
      simp only [List.append_assoc, delta, Reckoning.wrap_unbounded, Prod.mk.injEq, true_and]
      omega
    · intro other hmem
      have := hwithin other (List.mem_cons_of_mem _ hmem)
      simp only [List.length_append] at this
      omega

/-! ## Pushing splices -/

/-- Records splices one after the other. -/
def pushAll (stack : SpliceStack α) (splices : List (PendingSplice α)) : SpliceStack α :=
  splices.foldl (fun stack splice => stack.push splice.index splice.deleted splice.replacement) stack

/-- Pushing splices does not change how they are reckoned with. -/
theorem reckoning_pushAll (stack : SpliceStack α) (splices : List (PendingSplice α)) :
    (stack.pushAll splices).reckoning = stack.reckoning := by
  induction splices generalizing stack with
  | nil => rfl
  | cons splice rest ih => exact ih _

/-- Of two splices one goes before its equals and the other behind them: it makes no difference which
of them is put in first. -/
theorem insertInOrder_orderedInsert (first last : PendingSplice α) (others : List (PendingSplice α)) :
    last.insertInOrder (others.orderedInsert (·.index ≤ ·.index) first) =
      (last.insertInOrder others).orderedInsert (·.index ≤ ·.index) first := by
  induction others with
  | nil => rfl
  | cons other rest ih =>
    simp only [List.orderedInsert_cons, insertInOrder]
    -- three comparisons decide what is in front; they cannot go round in a circle
    by_cases hfirst : first.index ≤ other.index <;> by_cases hlast : other.index ≤ last.index <;>
      by_cases hequal : first.index ≤ last.index <;>
      simp only [hfirst, hlast, hequal, if_true, if_false, insertInOrder, List.orderedInsert_cons, ih]
    all_goals omega

/-- A splice that is pushed before all others goes before its equals. -/
theorem pushAll_orderedInsert (stack : SpliceStack α) (first : PendingSplice α)
    (splices : List (PendingSplice α)) :
    pushAll { stack with pending := stack.pending.orderedInsert (·.index ≤ ·.index) first } splices =
      { stack.pushAll splices with
        pending := (stack.pushAll splices).pending.orderedInsert (·.index ≤ ·.index) first } := by
  induction splices generalizing stack with
  | nil => rfl
  | cons splice rest ih =>
    have hpush := insertInOrder_orderedInsert first splice stack.pending
    refine Eq.trans ?_ (ih (stack.push splice.index splice.deleted splice.replacement))
    exact congrArg (fun pending => pushAll { stack with pending } rest) hpush

/-- Splices stand in the order of their positions, and those at one position in the order in which they
were pushed. -/
theorem pending_pushAll (reckoning : Reckoning) (pushed : List (PendingSplice α)) :
    (pushAll { reckoning } pushed).pending = pushed.insertionSort (·.index ≤ ·.index) := by
  induction pushed with
  | nil => rfl
  | cons first rest ih =>
    rw [List.insertionSort_cons, ← ih]
    exact congrArg pending (pushAll_orderedInsert { reckoning } first rest)

/-- The pending splices are those that were pushed. -/
theorem pending_pushAll_perm (reckoning : Reckoning) (pushed : List (PendingSplice α)) :
    (pushAll { reckoning } pushed).pending.Perm pushed :=
  pending_pushAll reckoning pushed ▸ List.perm_insertionSort _ pushed

/-- The pending splices are in the order of their positions. -/
theorem pairwise_pending_pushAll (reckoning : Reckoning) (pushed : List (PendingSplice α)) :
    (pushAll { reckoning } pushed).pending.Pairwise (·.index ≤ ·.index) := by
  have : Std.Total fun splice other : PendingSplice α => splice.index ≤ other.index :=
    ⟨fun splice other => Nat.le_total splice.index other.index⟩
  have : IsTrans (PendingSplice α) (·.index ≤ ·.index) := ⟨fun _ _ _ => Nat.le_trans⟩
  rw [pending_pushAll]
  exact List.pairwise_insertionSort _ pushed

/-- Splices that are apart come to the same in whatever order they are pushed: they replace what they
reach all at once. -/
theorem apply_pushAll (h : AreApart splices items.length) (hpushed : pushed.Perm splices)
    (hreach : reckoning.Reaches (items.length + 2 * volume splices)) :
    (pushAll { reckoning } pushed).apply items =
      (replaceAll splices 0 items, (splices.map (·.delta reckoning)).sum) := by
  have hpending : (pushAll { reckoning } pushed).pending.Perm splices :=
    (pending_pushAll_perm reckoning pushed).trans hpushed
  have hapart := h.of_perm hpending
  -- in the order of their positions each of them ends before the next one begins
  have hsorted : (pushAll { reckoning } pushed).pending.Pairwise Precedes :=
    hapart.apart.imp₂ (fun _ _ hapart hle => hapart.precedes hle)
      (pairwise_pending_pushAll reckoning pushed)
  have hwithin : ∀ splice ∈ (pushAll { reckoning } pushed).pending,
      splice.index + splice.deleted ≤ 0 + items.length := by
    rw [Nat.zero_add]
    exact hapart.within
  have hrun := run_eq_replaceAll hsorted (fun _ _ => Nat.zero_le _) hwithin []
  have hvolume : volume (pushAll { reckoning } pushed).pending = volume splices := volume_perm hpending
  have hkept (n : Int) (hlow : -(items.length : Int) ≤ n)
      (hhigh : n ≤ (items.length + volume splices : Nat)) : reckoning.wrap n = n :=
    hreach.wrap_eq (by omega)
  have hindex : ∀ splice ∈ (pushAll { reckoning } pushed).pending,
      splice.index + volume splices ≤ items.length + volume splices := by
    intro splice hmem
    have := hapart.within splice hmem
    omega
  rw [apply, reckoning_pushAll, run_eq_unbounded items.length (volume splices) _ hkept hindex
    (by omega) (by omega)]
  refine hrun.trans ?_
  simp only [List.length_nil, Int.natCast_zero, Int.sub_self, Int.zero_add, List.nil_append]
  rw [AreApart.replaceAll_perm h.apart hpending, totalDelta_perm _ hpending,
    ← totalDelta_of_reaches hreach h.within (by omega), totalDelta_eq_sum]

/-- Splices that are apart change the length of a sequence by what they ask for. -/
theorem length_replaceAll (h : AreApart splices items.length) :
    ((replaceAll splices 0 items).length : Int) = items.length + totalDelta .unbounded splices := by
  let stack : SpliceStack α := pushAll {} splices
  have happly : stack.apply items = _ := apply_pushAll h (.refl splices) (.inl rfl)
  have hstack : SpliceStack.mk stack.pending .unbounded = stack :=
    congrArg (SpliceStack.mk stack.pending) (reckoning_pushAll {} splices).symm
  have hgrowth := apply_growth stack.pending items
  simp only [hstack, preview, happly, ← totalDelta_eq_sum] at hgrowth
  omega

end SpliceStack

/-- Splices that are apart replace their ranges all at once, in whatever order they are pushed: what
they leave is the sequence read once from left to right, with each replacement where its splice begins
and without what the splices remove. `preview` shows the same, and the growth that is reported is what
the splices ask for together and the change in length. -/
theorem splicing_replaces_all_at_once (reckoning : Reckoning) (items : List α)
    (splices pushed : List (PendingSplice α))
    (hapart : PendingSplice.AreApart splices items.length) (hpushed : pushed.Perm splices)
    (hreach : reckoning.Reaches (items.length + 2 * PendingSplice.volume splices)) :
    let stack := SpliceStack.pushAll { reckoning } pushed
    let replaced := PendingSplice.replaceAll splices 0 items
    let growth := (splices.map (·.delta reckoning)).sum
    stack.apply items = (replaced, growth) ∧ stack.preview items = replaced ∧
      growth = (replaced.length : Int) - items.length := by
  intro stack replaced growth
  have happly : stack.apply items = (replaced, growth) :=
    SpliceStack.apply_pushAll hapart hpushed hreach
  refine ⟨happly, congrArg Prod.fst happly, ?_⟩
  have hlength := SpliceStack.length_replaceAll hapart
  rw [← PendingSplice.totalDelta_of_reaches hreach hapart.within (by omega),
    PendingSplice.totalDelta_eq_sum] at hlength
  change _ = ((PendingSplice.replaceAll splices 0 items).length : Int) - items.length
  rw [hlength]
  omega

/-- Three splices in another order than that of their positions, the last one behind the end. -/
theorem splicing_replaces_all_at_once_three :
    let items := ["s0", "m1", "s2", "m3", "s4"]
    let splices : List (PendingSplice String) :=
      [⟨3, 1, ["c"]⟩, ⟨1, 2, ["a", "b", "b"]⟩, ⟨5, 0, ["d"]⟩]
    let pushed := [⟨3, 1, ["c"]⟩, ⟨5, 0, ["d"]⟩, ⟨1, 2, ["a", "b", "b"]⟩]
    PendingSplice.AreApart splices items.length ∧ pushed.Perm splices ∧
      Reckoning.word64.Reaches (items.length + 2 * PendingSplice.volume splices) ∧
      (SpliceStack.pushAll { reckoning := .word64 } pushed).apply items =
        (["s0", "a", "b", "b", "c", "s4", "d"], 2) := by
  intro items splices pushed
  have hapart : PendingSplice.AreApart splices items.length := by decide
  have hpushed : pushed.Perm splices := .cons _ (.swap _ _ _)
  have hreach : Reckoning.word64.Reaches (items.length + 2 * PendingSplice.volume splices) := by
    decide
  exact ⟨hapart, hpushed, hreach,
    (splicing_replaces_all_at_once .word64 items splices pushed hapart hpushed hreach).1⟩

end MacroExpansion
