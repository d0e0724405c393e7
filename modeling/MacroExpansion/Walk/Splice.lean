/-! # Pending splices

While a sequence is walked, every change of its length is recorded as a splice against the positions
that it had at first. `apply` carries the splices out in the order of their positions and shifts
each by the net growth of the earlier ones. Until then `preview` gives the sequence as it will read,
and `shifted` the place where a position lands in it.

Positions are reckoned with as integers of any size or in words of 64 bits, which differ only where
a position or a number of elements comes near to `2 ^ 63`. -/

namespace MacroExpansion

/-- How positions are reckoned with. -/
inductive Reckoning where
  /-- As integers of any size. -/
  | unbounded
  /-- In signed words of 64 bits: a number that does not fit wraps around. -/
  | word64
  deriving DecidableEq, Repr, Inhabited

namespace Reckoning

/-- The number of different words, which is `2 ^ 64`. -/
def words : Nat := 18446744073709551616

/-- What is left of a number. -/
def wrap : Reckoning → Int → Int
  | .unbounded, n => n
  | .word64, n => n.bmod words

/-- Integers of any size are kept. -/
@[simp] theorem wrap_unbounded (n : Int) : unbounded.wrap n = n := rfl

/-- A number that fits into a word is kept. -/
theorem wrap_of_fits (reckoning : Reckoning) {n : Int} (h : -words ≤ 2 * n ∧ 2 * n < words) :
    reckoning.wrap n = n := by
  cases reckoning with
  | unbounded => rfl
  | word64 =>
    simp only [words] at h
    simp only [wrap, words, Int.bmod]
    omega

end Reckoning

/-- A run of positions that is to be replaced. -/
structure PendingSplice (α : Type) where
  /-- The position of the first replaced element before any splice. -/
  index : Nat
  /-- The number of elements removed; fewer are removed where the sequence ends. -/
  deleted : Nat
  /-- What comes in their place. -/
  replacement : List α
  deriving DecidableEq, Repr

namespace PendingSplice

variable {α : Type}

/-- The net growth that the splice asks for. -/
def delta (splice : PendingSplice α) (reckoning : Reckoning := .unbounded) : Int :=
  reckoning.wrap (splice.replacement.length - splice.deleted)

/-- The net growth that splices ask for together. -/
def totalDelta (reckoning : Reckoning) : List (PendingSplice α) → Int
  | [] => 0
  | splice :: rest => splice.delta reckoning + totalDelta reckoning rest

/-- What splices ask for in a row is what each part asks for. -/
theorem totalDelta_append (reckoning : Reckoning) (first second : List (PendingSplice α)) :
    totalDelta reckoning (first ++ second) =
      totalDelta reckoning first + totalDelta reckoning second := by
  induction first with
  | nil => exact (Int.zero_add _).symm
  | cons splice rest ih => simp only [List.cons_append, totalDelta, ih, Int.add_assoc]

/-- The splice among others in the order of positions, after those at its own position. -/
def insertInOrder (splice : PendingSplice α) : List (PendingSplice α) → List (PendingSplice α)
  | [] => [splice]
  | other :: rest =>
      if other.index ≤ splice.index then other :: splice.insertInOrder rest
      else splice :: other :: rest

end PendingSplice

/-- Splices that are still to be carried out. -/
structure SpliceStack (α : Type) where
  /-- The splices in the order of their positions; those at one position in the order in which they
  were pushed. -/
  pending : List (PendingSplice α) := []
  /-- How their positions are reckoned with. -/
  reckoning : Reckoning := .unbounded
  deriving Repr, Inhabited

namespace SpliceStack

variable {α : Type}

/-- Records a splice. -/
def push (stack : SpliceStack α) (index deleted : Nat) (replacement : List α) : SpliceStack α :=
  { stack with pending := PendingSplice.insertInOrder ⟨index, deleted, replacement⟩ stack.pending }

/-- The number of pending splices. -/
def size (stack : SpliceStack α) : Nat :=
  stack.pending.length

/-- Carries out splices in order. `delta` is the growth so far; the result comes with the total
growth, in which a removal counts only as far as there was something to remove. -/
def run (reckoning : Reckoning) :
    List (PendingSplice α) → (delta : Int) → List α → List α × Int
  | [], delta, items => (items, delta)
  | splice :: rest, delta, items =>
      -- a splice that begins behind the end adds its replacement there
      let start := min (reckoning.wrap (splice.index + delta)).toNat items.length
      let stop := min (start + splice.deleted) items.length
      run reckoning rest
        (reckoning.wrap (delta + ((splice.replacement.length : Int) - (stop - start : Nat))))
        (items.take start ++ splice.replacement ++ items.drop stop)

/-- The sequence after all splices, and its growth. -/
def apply (stack : SpliceStack α) (items : List α) : List α × Int :=
  run stack.reckoning stack.pending 0 items

/-- The sequence as it will read. -/
def preview (stack : SpliceStack α) (items : List α) : List α :=
  (stack.apply items).1

/-- Where a position lands once the splices before it are carried out. -/
def shifted (stack : SpliceStack α) (index : Nat) : Nat :=
  let growth := PendingSplice.totalDelta stack.reckoning (stack.pending.filter (·.index < index))
  (stack.reckoning.wrap (index + growth)).toNat

/-- Without splices a sequence reads as it is. -/
@[simp] theorem preview_empty (items : List α) : ({} : SpliceStack α).preview items = items := rfl

/-- Without splices every position stays. -/
@[simp] theorem shifted_empty (index : Nat) : ({} : SpliceStack α).shifted index = index := by
  simp [shifted, PendingSplice.totalDelta]

/-- The growth of a run is the growth so far and the change in length. -/
theorem run_growth (splices : List (PendingSplice α)) (delta : Int) (items : List α) :
    (run .unbounded splices delta items).2
      = delta + ((run .unbounded splices delta items).1.length - items.length : Int) := by
  induction splices generalizing delta items with
  | nil => simp [run]
  | cons splice rest ih =>
    simp only [run, Reckoning.wrap_unbounded, ih, List.length_append, List.length_take,
      List.length_drop]
    omega

/-- The growth that is reported is the change in length. -/
theorem apply_growth (pending : List (PendingSplice α)) (items : List α) :
    ((SpliceStack.mk pending .unbounded).apply items).2
      = ((SpliceStack.mk pending .unbounded).preview items).length - items.length := by
  simp [preview, apply, run_growth]

end SpliceStack

end MacroExpansion
