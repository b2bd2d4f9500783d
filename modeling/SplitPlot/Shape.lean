import SplitPlot.Fault

/-!
# Shapes and positions

The cells of a factorial design are addressed in two ways: by a position, which gives one level
per factor, and by a single number, which counts the cells with the last factor varying fastest.
A shape lists the number of levels of each factor.

* `cellCount`: how many cells there are.
* `flatIndex`: from a position to its number.
* `unravel`, `unflatten`: from a number to its position, dividing off the last factor first.
* `multiIndices`: all positions in the order of their numbers, as an odometer shows them.

## The odometer

`advance?` moves to the next position: the rightmost digit that has room goes up by one and the
digits after it return to zero.  It answers `none` at the last position.  Starting from the zero
position the readings before the odometer stops are exactly `cellCount shape` many, so
`multiIndices` takes that many readings and needs no other bound.  `findIndex?` looks for a position
without taking all the readings first: a shape can have far more cells than a table has rows.  A
shape with an extent of zero has no cell and no reading; the empty shape has the one empty position.
-/

namespace SplitPlot

/-- The number of cells of a shape, however many they are. -/
def cellCount (shape : List Nat) : Nat := shape.foldr (· * ·) 1

@[simp] theorem cellCount_nil : cellCount [] = 1 := rfl

@[simp] theorem cellCount_cons (n : Nat) (s : List Nat) :
    cellCount (n :: s) = n * cellCount s := rfl

/-- The number of a position, with the last axis varying fastest. -/
def flatIndex (index shape : List Nat) : Nat :=
  (index.zip shape).foldl (fun flat step => flat * step.2 + step.1) 0

/-! ## From numbers to positions -/

/-- The position along the axes of a shape, and what is left of the number after the extents of
all of them have been divided off, the last one first. -/
def peel : List Nat → Nat → List Nat × Nat
  | [], flat => ([], flat)
  | n :: s, flat =>
    let rest := peel s flat
    (rest.2 % n :: rest.1, rest.2 / n)

/-- The position of a number in a shape. -/
def unravel (shape : List Nat) (flat : Nat) : List Nat := (peel shape flat).1

@[simp] theorem unravel_nil (flat : Nat) : unravel [] flat = [] := rfl

@[simp] theorem length_unravel (shape : List Nat) (flat : Nat) :
    (unravel shape flat).length = shape.length := by
  induction shape with
  | nil => rfl
  | cons n s ih => simpa [unravel, peel] using ih

/-- The position of a number in a shape in which every axis has an extent. -/
def unflatten (flat : Nat) (shape : List Nat) : Except Fault (List Nat) :=
  if 0 ∈ shape then .error .zeroExtent else .ok (unravel shape flat)

/-! ## The odometer -/

/-- The position after `index`, if it is not the last one. -/
def advance? : List Nat → List Nat → Option (List Nat)
  | n :: s, i :: index =>
    match advance? s index with
    | some next => some (i :: next)
    | none => if i + 1 < n then some ((i + 1) :: s.map fun _ => 0) else none
  | _, _ => none

/-- The readings of the odometer from a given one on, at most as many as asked for. -/
def readings (shape : List Nat) : Nat → Option (List Nat) → List (List Nat)
  | _, none => []
  | 0, some _ => []
  | k + 1, some index => index :: readings shape k (advance? shape index)

/-- Every position of a shape, in the order of their numbers. -/
def multiIndices (shape : List Nat) : List (List Nat) :=
  readings shape (cellCount shape) (some (shape.map fun _ => 0))

/-- The first reading that passes a test, from a given one on and among at most as many as asked
for.  The odometer is not moved past it. -/
def searchReadings (shape : List Nat) (test : List Nat → Bool) :
    Nat → Option (List Nat) → Option (List Nat)
  | _, none => none
  | 0, some _ => none
  | k + 1, some index =>
    if test index then some index else searchReadings shape test k (advance? shape index)

theorem searchReadings_eq (shape : List Nat) (test : List Nat → Bool) :
    ∀ (k : Nat) (start : Option (List Nat)),
      searchReadings shape test k start = (readings shape k start).find? test
  | 0, none => rfl
  | 0, some _ => rfl
  | _ + 1, none => rfl
  | k + 1, some index => by
    rw [searchReadings, readings, List.find?_cons]
    split
    · next h => rw [h]
    · next h => rw [Bool.eq_false_iff.mpr h, searchReadings_eq]

/-- The first position of a shape that passes a test, in the order of their numbers.  Of a shape
with many cells no more is looked at than lies in front of it. -/
def findIndex? (shape : List Nat) (test : List Nat → Bool) : Option (List Nat) :=
  searchReadings shape test (cellCount shape) (some (shape.map fun _ => 0))

theorem findIndex?_eq (shape : List Nat) (test : List Nat → Bool) :
    findIndex? shape test = (multiIndices shape).find? test := searchReadings_eq ..

example : multiIndices [2, 2] = [[0, 0], [0, 1], [1, 0], [1, 1]] := by decide

example : multiIndices [] = [[]] := by decide

example : multiIndices [2, 0] = [] := by decide

end SplitPlot
