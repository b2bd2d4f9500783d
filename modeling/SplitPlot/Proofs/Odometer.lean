import Mathlib
import SplitPlot.Proofs.Design.Completion

/-!
# The odometer, digit by digit

The positions of a shape are numbered in three ways: an odometer shows them one after another, a
fold from the left multiplies the levels together (`flatIndex`), and a walk from the right divides
them off again (`unflatten`).  All three are the same numbering (`multiIndices_exact`).

Here the odometer is a device with a state (`Odometer`): the digits it shows, and a flag that is
raised after the last position, or at once if the shape has no position.  A call searches the digits
from the right for one that has room, and is asked for as often as one likes.

* The search from the right finds the same digit as the recursion from the left
  (`carry_eq_advance?`), since what happens behind the first digit does not depend on it.
* One call shows the reading of the state and moves on to the next (`next_eq`), so any number of
  calls shows the readings, and nothing any more after them (`answers_eq`).
* From the position with number `m` on there are `cellCount shape - m` readings, however many are
  asked for (`readings_unravel_of_lt`).  So the odometer stops by itself after all positions.
-/

namespace SplitPlot

/-! ## The search for a digit with room -/

/-- The digits after the rightmost one in front of `axis` that has room has gone up by one, and
those behind it have returned to zero. -/
def carry (shape current : List ℕ) : ℕ → Option (List ℕ)
  | 0 => none
  | axis + 1 =>
    if current.getD axis 0 + 1 < shape.getD axis 0 then
      some (current.take axis ++
        (current.getD axis 0 + 1) :: (current.drop (axis + 1)).map fun _ => 0)
    else carry shape current axis

/-- The first digit goes up when the search behind it finds none that has room. -/
theorem carry_cons (n i : ℕ) (shape current : List ℕ) : ∀ axis,
    carry (n :: shape) (i :: current) (axis + 1) = ((carry shape current axis).map (i :: ·)).or
      (if i + 1 < n then some ((i + 1) :: current.map fun _ => 0) else none)
  | 0 => rfl
  | axis + 1 => by
    rw [carry, List.getD_cons_succ, List.getD_cons_succ, carry_cons n i shape current axis]
    conv_rhs => rw [carry]
    by_cases hroom : current.getD axis 0 + 1 < shape.getD axis 0
    · rw [if_pos hroom, if_pos hroom]
      rfl
    · rw [if_neg hroom, if_neg hroom]

/-- The search from the right moves on as the recursion from the left does. -/
theorem carry_eq_advance? : ∀ {shape current : List ℕ}, current.length = shape.length →
    carry shape current shape.length = advance? shape current
  | [], [], _ => rfl
  | n :: shape, i :: current, h => by
    have hlength : current.length = shape.length := Nat.succ.inj h
    have hzero : (current.map fun _ => 0) = shape.map fun _ => 0 := by
      rw [List.map_const', List.map_const', hlength]
    rw [List.length_cons, carry_cons, carry_eq_advance? hlength, advance?, hzero]
    cases advance? shape current with
    | none => rfl
    | some next => rfl

theorem length_advance? : ∀ {shape index next : List ℕ}, index.length = shape.length →
    advance? shape index = some next → next.length = shape.length
  | [], [], next, _, h => by cases h
  | n :: shape, i :: index, next, hlength, h => by
    have hlength : index.length = shape.length := Nat.succ.inj hlength
    rw [advance?] at h
    split at h
    · next rest hrest =>
      rw [← Option.some.inj h, List.length_cons, length_advance? hlength hrest, List.length_cons]
    · split at h
      · rw [← Option.some.inj h, List.length_cons, List.length_map, List.length_cons]
      · cases h

/-! ## The odometer -/

/-- An odometer over the positions of a shape. -/
structure Odometer where
  /-- The number of values of each digit. -/
  shape : List ℕ
  /-- The digits. -/
  current : List ℕ
  /-- Whether there is nothing more to show. -/
  finished : Bool

namespace Odometer

/-- The odometer at the zero position.  If an axis has no extent, then it is finished already. -/
def start (shape : List ℕ) : Odometer where
  shape := shape
  current := shape.map fun _ => 0
  finished := shape.any (· == 0)

/-- One call: what the odometer shows, and the odometer afterwards. -/
def next (o : Odometer) : Option (List ℕ) × Odometer :=
  if o.finished then (none, o)
  else
    (some o.current,
      match carry o.shape o.current o.shape.length with
      | some current => { o with current := current }
      | none => { o with finished := true })

/-- What so many calls show. -/
def answers : ℕ → Odometer → List (Option (List ℕ))
  | 0, _ => []
  | k + 1, o => o.next.1 :: answers k o.next.2

/-- The position that the next call shows. -/
def reading? (o : Odometer) : Option (List ℕ) := if o.finished then none else some o.current

/-- There is one digit for each axis. -/
def HasDigits (o : Odometer) : Prop := o.current.length = o.shape.length

variable {o : Odometer}

theorem hasDigits_start (shape : List ℕ) : (start shape).HasDigits := List.length_map ..

theorem reading?_of_finished (h : o.finished = true) : o.reading? = none := if_pos h

theorem reading?_of_not_finished (h : o.finished = false) : o.reading? = some o.current :=
  if_neg (by rw [h]; exact Bool.false_ne_true)

/-- A call shows the reading and moves on to the one after it. -/
theorem next_eq (h : o.HasDigits) :
    o.next.1 = o.reading? ∧ o.next.2.reading? = o.reading?.bind (advance? o.shape) ∧
      o.next.2.shape = o.shape ∧ o.next.2.HasDigits := by
  cases hfinished : o.finished with
  | true =>
    have hnext : o.next = (none, o) := if_pos hfinished
    rw [hnext, reading?_of_finished hfinished]
    exact ⟨rfl, rfl, rfl, h⟩
  | false =>
    have hcall : o.next = (some o.current, match carry o.shape o.current o.shape.length with
        | some current => { o with current := current }
        | none => { o with finished := true }) :=
      if_neg (by rw [hfinished]; exact Bool.false_ne_true)
    rw [hcall, carry_eq_advance? h, reading?_of_not_finished hfinished, Option.bind_some]
    cases hnext : advance? o.shape o.current with
    | none => exact ⟨rfl, reading?_of_finished rfl, rfl, h⟩
    | some current =>
      exact ⟨rfl, reading?_of_not_finished hfinished, rfl, length_advance? h hnext⟩

/-- The calls show the readings, and then nothing any more. -/
theorem answers_eq : ∀ {k : ℕ} {o : Odometer}, o.HasDigits →
    o.answers k = (readings o.shape k o.reading?).map some ++
      List.replicate (k - (readings o.shape k o.reading?).length) none
  | 0, o, _ => by
    cases o.reading? with
    | none => rfl
    | some index => rfl
  | k + 1, o, h => by
    obtain ⟨hshow, hreading, hshape, hdigits⟩ := next_eq h
    rw [answers, answers_eq hdigits, hshow, hreading, hshape]
    cases o.reading? with
    | none =>
      rw [Option.bind_none, readings, readings, List.map_nil, List.nil_append, List.nil_append,
        List.length_nil, Nat.sub_zero, Nat.sub_zero]
      rfl
    | some index =>
      rw [Option.bind_some, readings, List.map_cons, List.length_cons, Nat.add_sub_add_right]
      rfl

end Odometer

/-! ## All positions -/

/-- From the position with number `m` on there is one reading for each number that is left, however
many are asked for. -/
theorem readings_unravel_of_lt {shape : List ℕ} : ∀ {k m : ℕ}, m < cellCount shape →
    readings shape k (some (unravel shape m)) =
      (List.range' m (min k (cellCount shape - m))).map (unravel shape)
  | 0, m, _ => by
    rw [Nat.zero_min]
    rfl
  | k + 1, m, hm => by
    rw [readings, advance?_eq (inBounds_unravel hm), flatIndex_unravel hm]
    by_cases hmore : m + 1 < cellCount shape
    · have hcount : min (k + 1) (cellCount shape - m) = min k (cellCount shape - (m + 1)) + 1 := by
        omega
      rw [if_pos hmore, readings_unravel_of_lt hmore, hcount, List.range'_succ, List.map_cons]
    · have hcount : min (k + 1) (cellCount shape - m) = 1 := by omega
      rw [if_neg hmore, hcount]
      cases k with
      | zero => rfl
      | succ k => rfl

theorem cellCount_eq_zero_iff : ∀ {shape : List ℕ}, cellCount shape = 0 ↔ 0 ∈ shape
  | [] => by simp
  | n :: shape => by
    rw [cellCount_cons, Nat.mul_eq_zero, cellCount_eq_zero_iff, List.mem_cons, eq_comm]

theorem multiIndices_eq_nil {shape : List ℕ} (h : 0 ∈ shape) : multiIndices shape = [] := by
  rw [← List.length_eq_zero_iff, length_multiIndices, cellCount_eq_zero_iff.mpr h]

/-- However many readings are asked for, the odometer shows no others. -/
theorem readings_start (shape : List ℕ) (k : ℕ) :
    readings shape k (Odometer.start shape).reading? = (multiIndices shape).take k := by
  by_cases hzero : 0 ∈ shape
  · have hfinished : (Odometer.start shape).finished = true :=
      List.any_eq_true.mpr ⟨0, hzero, rfl⟩
    rw [Odometer.reading?_of_finished hfinished, multiIndices_eq_nil hzero, List.take_nil]
    cases k with
    | zero => rfl
    | succ k => rfl
  · have hfinished : (Odometer.start shape).finished = false := by
      rw [Bool.eq_false_iff]
      intro hany
      obtain ⟨n, hn, hn0⟩ := List.any_eq_true.mp hany
      rw [beq_iff_eq.mp hn0] at hn
      exact hzero hn
    have hpos : 0 < cellCount shape := Nat.pos_of_ne_zero (mt cellCount_eq_zero_iff.mp hzero)
    have hcurrent : (Odometer.start shape).current = unravel shape 0 := (unravel_zero shape).symm
    rw [Odometer.reading?_of_not_finished hfinished, hcurrent, readings_unravel_of_lt hpos,
      Nat.sub_zero, multiIndices_eq, ← List.map_take, List.take_range, List.range_eq_range']

/-- **One numbering of the positions.**  For every shape: however often the odometer is called, it
shows the positions one after another and nothing any more after `cellCount shape` of them.  The
position that it shows in the place `i` is in bounds, has the number `i`, and is the one that `i` is
divided into.  Every position in bounds is shown exactly once, and dividing its number gives it
back.  The shape without axes has one position, and a shape with an axis of no extent has none. -/
theorem multiIndices_exact (shape : List ℕ) :
    (∀ k, (Odometer.start shape).answers k =
      ((multiIndices shape).take k).map some ++ List.replicate (k - cellCount shape) none) ∧
    (multiIndices shape).length = cellCount shape ∧
    (∀ i (hi : i < (multiIndices shape).length), InBounds (multiIndices shape)[i] shape ∧
      flatIndex (multiIndices shape)[i] shape = i ∧
      unflatten i shape = .ok (multiIndices shape)[i]) ∧
    (∀ index, InBounds index shape → (multiIndices shape).count index = 1 ∧
      unflatten (flatIndex index shape) shape = .ok index) ∧
    (shape = [] → multiIndices shape = [[]]) ∧ (0 ∈ shape → multiIndices shape = []) := by
  have hunflatten : ∀ {i}, i < cellCount shape → unflatten i shape = .ok (unravel shape i) := by
    intro i hi
    have hzero : ¬ 0 ∈ shape := fun h => by
      rw [cellCount_eq_zero_iff.mpr h] at hi
      exact Nat.not_lt_zero i hi
    exact if_neg hzero
  refine ⟨fun k => ?_, length_multiIndices shape, fun i hi => ?_, fun index hindex => ?_, ?_,
    multiIndices_eq_nil⟩
  · rw [Odometer.answers_eq (Odometer.hasDigits_start shape)]
    have hreadings : readings (Odometer.start shape).shape k (Odometer.start shape).reading? =
        (multiIndices shape).take k := readings_start shape k
    rw [hreadings, List.length_take, length_multiIndices]
    congr 2
    omega
  · have hlt : i < cellCount shape := length_multiIndices shape ▸ hi
    have hposition : (multiIndices shape)[i] = unravel shape i := by
      simp only [multiIndices_eq, List.getElem_map, List.getElem_range]
    rw [hposition]
    exact ⟨inBounds_unravel hlt, flatIndex_unravel hlt, hunflatten hlt⟩
  · refine ⟨List.count_eq_one_of_mem (nodup_multiIndices shape) (mem_multiIndices.mpr hindex), ?_⟩
    rw [hunflatten (flatIndex_lt hindex), unravel_flatIndex hindex]
  · rintro rfl
    rfl

/-- The six positions of a shape with two axes, shown by eight calls. -/
theorem positions_two_three :
    (Odometer.start [2, 3]).answers 8 = [some [0, 0], some [0, 1], some [0, 2], some [1, 0],
      some [1, 1], some [1, 2], none, none] ∧
    InBounds [1, 0] [2, 3] ∧ (multiIndices [2, 3]).count [1, 0] = 1 ∧
    unflatten (flatIndex [1, 0] [2, 3]) [2, 3] = .ok [1, 0] ∧
    (∃ hi : 3 < (multiIndices [2, 3]).length, unflatten 3 [2, 3] = .ok (multiIndices [2, 3])[3]) ∧
    0 ∈ [2, 0] ∧ multiIndices [2, 0] = [] ∧ multiIndices [] = [[]] := by
  obtain ⟨hanswers, -, hplaces, hpositions, -, -⟩ := multiIndices_exact [2, 3]
  obtain ⟨-, -, -, -, -, hempty⟩ := multiIndices_exact [2, 0]
  obtain ⟨-, -, -, -, hnone, -⟩ := multiIndices_exact []
  have hindex : InBounds [1, 0] [2, 3] := ⟨by decide, by decide, trivial⟩
  have hlength : 3 < (multiIndices [2, 3]).length := by decide
  obtain ⟨hcount, hunflatten⟩ := hpositions [1, 0] hindex
  refine ⟨?_, hindex, hcount, hunflatten, ⟨hlength, (hplaces 3 hlength).2.2⟩, by decide,
    hempty (by decide), hnone rfl⟩
  rw [hanswers]
  decide

end SplitPlot
