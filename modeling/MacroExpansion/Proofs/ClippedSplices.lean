import MacroExpansion.Proofs.Splicing

/-! # Splices that are clipped

Nothing keeps the splices of a stack apart: they may overlap, begin at one position, or reach past the
end of the sequence. Each of them takes what is left for it when its turn comes, and the growth counts
what it takes and not what it asks for. As long as positions, the numbers of elements to remove and all
that comes in stay below `2 ^ 61`, every number on the way fits into a word of 64 bits
(`PendingSplice.FitsWords`), and words come to what integers of any size come to. -/

namespace MacroExpansion

/-! ## Numbers that fit into words -/

namespace Reckoning

/-- The number fits into a signed word of 64 bits. -/
def FitsSigned (n : Int) : Prop :=
  -2 ^ 63 ≤ n ∧ n < 2 ^ 63

/-- The number fits into an unsigned word of 64 bits. -/
def FitsUnsigned (n : Int) : Prop :=
  0 ≤ n ∧ n < 2 ^ 64

/-- A number that fits into a signed word is what is reckoned with. -/
theorem FitsSigned.wrap_eq {n : Int} (h : FitsSigned n) (reckoning : Reckoning) :
    reckoning.wrap n = n := by
  obtain ⟨hlow, hhigh⟩ := h
  exact reckoning.wrap_of_fits (by simp only [words]; omega)

end Reckoning

variable {α : Type} {splice : PendingSplice α} {splices pushed earlier later : List (PendingSplice α)}
  {items : List α}

namespace PendingSplice

open Reckoning

/-! ## The range of a splice -/

/-- Where the splice begins in a sequence of some length after some growth. A splice that is moved
before the sequence begins where the sequence does, and one behind it where the sequence ends. -/
def start (splice : PendingSplice α) (reckoning : Reckoning) (growth : Int) (length : Nat) : Nat :=
  min (reckoning.wrap (splice.index + growth)).toNat length

/-- Where the elements end that the splice removes there, at the end of the sequence at the latest. -/
def stop (splice : PendingSplice α) (reckoning : Reckoning) (growth : Int) (length : Nat) : Nat :=
  min (splice.start reckoning growth length + splice.deleted) length

/-- The number of elements that the splice removes there. -/
def removed (splice : PendingSplice α) (reckoning : Reckoning) (growth : Int) (length : Nat) : Nat :=
  splice.stop reckoning growth length - splice.start reckoning growth length

/-- What a splice removes ends within the sequence. -/
theorem stop_le_length (splice : PendingSplice α) (reckoning : Reckoning) (growth : Int)
    (length : Nat) : splice.stop reckoning growth length ≤ length :=
  Nat.min_le_right _ _

/-- What a splice removes does not end before it begins. -/
theorem start_le_stop (splice : PendingSplice α) (reckoning : Reckoning) (growth : Int)
    (length : Nat) : splice.start reckoning growth length ≤ splice.stop reckoning growth length :=
  Nat.le_min.mpr ⟨Nat.le_add_right _ _, Nat.min_le_right _ _⟩

/-- A splice removes no more than it was to delete. -/
theorem removed_le_deleted (splice : PendingSplice α) (reckoning : Reckoning) (growth : Int)
    (length : Nat) : splice.removed reckoning growth length ≤ splice.deleted :=
  Nat.sub_le_iff_le_add'.mpr (Nat.min_le_left _ _)

/-- Words are wide enough for a splice on a sequence of some length after some growth: its range is one
of the sequence, and every number that comes up fits into the word that is to hold it. -/
structure FitsWords (splice : PendingSplice α) (growth : Int) (length : Nat) : Prop where
  /-- The range does not end before it begins. -/
  start_le_stop : splice.start .word64 growth length ≤ splice.stop .word64 growth length
  /-- The range ends within the sequence. -/
  stop_le_length : splice.stop .word64 growth length ≤ length
  /-- The position as it was recorded. -/
  index : FitsSigned splice.index
  /-- The position as it is moved by the growth. -/
  moved : FitsSigned (splice.index + growth)
  /-- The end of the range before it is clipped. -/
  unclipped : FitsUnsigned (splice.start .word64 growth length + splice.deleted : Nat)
  /-- The number of elements that come in. -/
  replacement : FitsSigned splice.replacement.length
  /-- The number of elements that are removed. -/
  removed : FitsSigned (splice.removed .word64 growth length)
  /-- What the splice adds to the growth. -/
  gain : FitsSigned ((splice.replacement.length : Int) - splice.removed .word64 growth length)
  /-- The growth behind the splice. -/
  growth : FitsSigned
    (growth + ((splice.replacement.length : Int) - splice.removed .word64 growth length))

/-! ## Splices with small numbers -/

/-- Splices that begin below `2 ^ 61`, ask for less than `2 ^ 61` elements each, and bring in less than
`2 ^ 61` elements together. -/
structure AreSmall (splices : List (PendingSplice α)) : Prop where
  /-- No splice begins far behind. -/
  index_lt : ∀ splice ∈ splices, splice.index < 2 ^ 61
  /-- No splice asks for many elements. -/
  deleted_lt : ∀ splice ∈ splices, splice.deleted < 2 ^ 61
  /-- Few elements come in. -/
  volume_lt : volume splices < 2 ^ 61

instance (splices : List (PendingSplice α)) : Decidable (AreSmall splices) :=
  decidable_of_iff
    ((∀ splice ∈ splices, splice.index < 2 ^ 61) ∧ (∀ splice ∈ splices, splice.deleted < 2 ^ 61) ∧
      volume splices < 2 ^ 61)
    ⟨fun h => ⟨h.1, h.2.1, h.2.2⟩, fun h => ⟨h.index_lt, h.deleted_lt, h.volume_lt⟩⟩

namespace AreSmall

/-- Splices with small numbers have small numbers in any order. -/
theorem of_perm (h : AreSmall splices) (hperm : pushed.Perm splices) : AreSmall pushed where
  index_lt splice hmem := h.index_lt splice (hperm.mem_iff.mp hmem)
  deleted_lt splice hmem := h.deleted_lt splice (hperm.mem_iff.mp hmem)
  volume_lt := volume_perm hperm ▸ h.volume_lt

/-- The first ones of splices with small numbers have small numbers. -/
theorem of_append (h : AreSmall (earlier ++ later)) : AreSmall earlier where
  index_lt splice hmem := h.index_lt splice (List.mem_append_left later hmem)
  deleted_lt splice hmem := h.deleted_lt splice (List.mem_append_left later hmem)
  volume_lt := by
    have hvolume := h.volume_lt
    rw [volume_append] at hvolume
    omega

/-- A splice fits words when its turn comes. By then the growth is the change in length, and the sequence
is longer by no more than the earlier splices brought in. -/
theorem fitsWords {length current : Nat} {growth : Int} (h : AreSmall (earlier ++ splice :: later))
    (hlength : length < 2 ^ 63) (hgrowth : growth = (current : Int) - length)
    (hcurrent : current ≤ length + volume earlier) : splice.FitsWords growth current := by
  have hindex := h.index_lt splice List.mem_append_cons_self
  have hdeleted := h.deleted_lt splice List.mem_append_cons_self
  have hvolume := h.volume_lt
  rw [volume_append, volume_cons] at hvolume
  have hstart : splice.start .word64 growth current ≤ current := Nat.min_le_right _ _
  have hremoved := splice.removed_le_deleted .word64 growth current
  have hstop := splice.stop_le_length .word64 growth current
  -- no more is removed than there is, so the growth does not fall below minus the first length
  have hleft : splice.removed .word64 growth current ≤ current := (Nat.sub_le _ _).trans hstop
  exact
    { start_le_stop := splice.start_le_stop .word64 growth current
      stop_le_length := hstop
      index := ⟨by omega, by omega⟩
      moved := ⟨by omega, by omega⟩
      unclipped := ⟨by omega, by omega⟩
      replacement := ⟨by omega, by omega⟩
      removed := ⟨by omega, by omega⟩
      gain := ⟨by omega, by omega⟩
      growth := ⟨by omega, by omega⟩ }

end AreSmall

end PendingSplice

namespace SpliceStack

open PendingSplice

/-! ## Runs -/

/-- A run carries out its first splice on the range of it, and goes on with what that leaves. -/
theorem run_cons (reckoning : Reckoning) (splice : PendingSplice α) (rest : List (PendingSplice α))
    (growth : Int) (items : List α) :
    run reckoning (splice :: rest) growth items =
      run reckoning rest
        (reckoning.wrap (growth + ((splice.replacement.length : Int) -
          splice.removed reckoning growth items.length)))
        (items.take (splice.start reckoning growth items.length) ++ splice.replacement ++
          items.drop (splice.stop reckoning growth items.length)) :=
  rfl

/-- No run makes a sequence longer by more than its splices bring in. -/
theorem length_run_le (reckoning : Reckoning) (splices : List (PendingSplice α)) (growth : Int)
    (items : List α) :
    (run reckoning splices growth items).1.length ≤ items.length + volume splices := by
  induction splices generalizing growth items with
  | nil => exact Nat.le_add_right _ _
  | cons splice rest ih =>
    have hrange := splice.start_le_stop reckoning growth items.length
    rw [run_cons]
    refine (ih _ _).trans ?_
    simp only [volume_cons, List.length_append, List.length_take, List.length_drop]
    omega

/-- Splices with small numbers are carried out in words as in integers. -/
theorem run_word64 (h : AreSmall splices) (hlength : items.length < 2 ^ 63) :
    run .word64 splices 0 items = run .unbounded splices 0 items := by
  -- a position and all that comes in stay below `2 ^ 62` together
  have hkept (n : Int) (hlow : -(items.length : Int) ≤ n) (hhigh : n ≤ (2 ^ 62 : Nat)) :
      Reckoning.word64.wrap n = n :=
    Reckoning.FitsSigned.wrap_eq ⟨by omega, by omega⟩ .word64
  have hindex : ∀ splice ∈ splices, splice.index + volume splices ≤ 2 ^ 62 := by
    intro splice hmem
    have hfirst := h.index_lt splice hmem
    have hvolume := h.volume_lt
    omega
  exact run_eq_unbounded items.length (volume splices) (2 ^ 62) hkept hindex (by omega) (by omega)

/-- The growth that a run in words reports is the change in length. -/
theorem run_word64_growth (h : AreSmall splices) (hlength : items.length < 2 ^ 63) :
    (run .word64 splices 0 items).2 =
      ((run .word64 splices 0 items).1.length : Int) - items.length := by
  rw [run_word64 h hlength, run_growth, Int.zero_add]

/-- Every splice of a run fits words when its turn comes. -/
theorem fitsWords_of_run (h : AreSmall (earlier ++ splice :: later))
    (hlength : items.length < 2 ^ 63) :
    splice.FitsWords (run .word64 earlier 0 items).2 (run .word64 earlier 0 items).1.length :=
  h.fitsWords hlength (run_word64_growth h.of_append hlength) (length_run_le .word64 earlier 0 items)

end SpliceStack

/-- However splices overlap, repeat a position or reach past the end, carrying them out in words is
exact. They are carried out in the order of their positions, those at one position in the order in which
they were pushed; each one finds its range within the sequence as the earlier ones left it, and no
number overflows. The result is that of integers of any size: the growth that is reported is the change
in length, and `preview` shows what `apply` leaves. The length of a sequence in memory is always below
`2 ^ 63`. -/
theorem clipped_splices_are_exact (items : List α) (pushed : List (PendingSplice α))
    (hlength : items.length < 2 ^ 63) (hsmall : PendingSplice.AreSmall pushed) :
    let stack := SpliceStack.pushAll { reckoning := .word64 } pushed
    let ordered := pushed.insertionSort (·.index ≤ ·.index)
    stack.apply items = SpliceStack.run .unbounded ordered 0 items ∧
      (∀ earlier splice later, ordered = earlier ++ splice :: later →
        let reached := SpliceStack.run .word64 earlier 0 items
        splice.FitsWords reached.2 reached.1.length ∧
          stack.apply items = SpliceStack.run .word64 (splice :: later) reached.2 reached.1) ∧
      (stack.apply items).2 = ((stack.apply items).1.length : Int) - items.length ∧
      stack.preview items = (stack.apply items).1 := by
  intro stack ordered
  have hordered : PendingSplice.AreSmall ordered := hsmall.of_perm (List.perm_insertionSort _ pushed)
  have happly : stack.apply items = SpliceStack.run .word64 ordered 0 items := by
    rw [SpliceStack.apply, SpliceStack.reckoning_pushAll, SpliceStack.pending_pushAll]
  refine ⟨happly.trans (SpliceStack.run_word64 hordered hlength), ?_, ?_, rfl⟩
  · intro earlier splice later hparts reached
    rw [hparts] at hordered
    refine ⟨SpliceStack.fitsWords_of_run hordered hlength, ?_⟩
    rw [happly, hparts, SpliceStack.run_append]
  · rw [happly]
    exact SpliceStack.run_word64_growth hordered hlength

/-- Two splices at one position, one that they leave little for, and one far behind the end. -/
theorem clipped_splices_are_exact_four :
    let items := ["s0", "m1", "s2", "m3"]
    let pushed : List (PendingSplice String) :=
      [⟨2 ^ 61 - 1, 2 ^ 61 - 1, ["z"]⟩, ⟨1, 2, ["a", "b"]⟩, ⟨2, 5, ["c"]⟩, ⟨1, 1, []⟩]
    items.length < 2 ^ 63 ∧ PendingSplice.AreSmall pushed ∧
      PendingSplice.FitsWords (⟨2, 5, ["c"]⟩ : PendingSplice String) (-1) 3 ∧
      (SpliceStack.pushAll { reckoning := .word64 } pushed).apply items = (["s0", "c", "z"], -1) := by
  intro items pushed
  have hlength : items.length < 2 ^ 63 := by decide
  have hsmall : PendingSplice.AreSmall pushed := by decide
  obtain ⟨happly, hsteps, -⟩ := clipped_splices_are_exact items pushed hlength hsmall
  have hordered : pushed.insertionSort (·.index ≤ ·.index) =
      [⟨1, 2, ["a", "b"]⟩, ⟨1, 1, []⟩] ++ ⟨2, 5, ["c"]⟩ :: [⟨2 ^ 61 - 1, 2 ^ 61 - 1, ["z"]⟩] := by
    decide
  have hreached : SpliceStack.run .word64 [⟨1, 2, ["a", "b"]⟩, ⟨1, 1, []⟩] 0 items =
      (["s0", "b", "m3"], -1) := by
    decide
  have hthird := (hsteps _ _ _ hordered).1
  rw [hreached] at hthird
  exact ⟨hlength, hsmall, hthird, happly.trans (by decide)⟩

/-- From `2 ^ 63` on a position counts as negative in words: the splice is moved to the beginning. -/
example :
    (SpliceStack.pushAll { reckoning := .word64 } [⟨2 ^ 63, 0, ["x"]⟩]).apply ["a"] = (["x", "a"], 1) ∧
      (SpliceStack.pushAll {} [⟨2 ^ 63, 0, ["x"]⟩]).apply ["a"] = (["a", "x"], 1) := by
  decide

end MacroExpansion
