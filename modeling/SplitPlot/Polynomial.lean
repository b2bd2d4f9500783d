/-!
# Orthogonal polynomials over equally spaced points

A factor within subjects with `n` levels is analysed through `n - 1` contrasts: the values of the
orthogonal polynomials of degree `1` to `n - 1` at `n` equally spaced points, scaled to whole
numbers without common divisor.  The values of each sum to zero, and those of two different
degrees are orthogonal, so the contrasts of one factor span everything about its levels except
their mean.

The table ends at ten levels.  A factor with a single level has no contrast; its entry is the
constant, which keeps the table free of gaps.
-/

namespace SplitPlot

/-- The largest number of levels of a factor within subjects. -/
def maxWithinLevels : Nat := 10

/-- The values of the orthogonal polynomials over `levels` points, by ascending degree. -/
def polynomialTable : (levels : Nat) → List (List Int)
  | 1 => [[1]]
  | 2 => [[-1, 1]]
  | 3 => [
    [-1, 0, 1],
    [1, -2, 1]]
  | 4 => [
    [-3, -1, 1, 3],
    [1, -1, -1, 1],
    [-1, 3, -3, 1]]
  | 5 => [
    [-2, -1, 0, 1, 2],
    [2, -1, -2, -1, 2],
    [-1, 2, 0, -2, 1],
    [1, -4, 6, -4, 1]]
  | 6 => [
    [-5, -3, -1, 1, 3, 5],
    [5, -1, -4, -4, -1, 5],
    [-5, 7, 4, -4, -7, 5],
    [1, -3, 2, 2, -3, 1],
    [-1, 5, -10, 10, -5, 1]]
  | 7 => [
    [-3, -2, -1, 0, 1, 2, 3],
    [5, 0, -3, -4, -3, 0, 5],
    [-1, 1, 1, 0, -1, -1, 1],
    [3, -7, 1, 6, 1, -7, 3],
    [-1, 4, -5, 0, 5, -4, 1],
    [1, -6, 15, -20, 15, -6, 1]]
  | 8 => [
    [-7, -5, -3, -1, 1, 3, 5, 7],
    [7, 1, -3, -5, -5, -3, 1, 7],
    [-7, 5, 7, 3, -3, -7, -5, 7],
    [7, -13, -3, 9, 9, -3, -13, 7],
    [-7, 23, -17, -15, 15, 17, -23, 7],
    [1, -5, 9, -5, -5, 9, -5, 1],
    [-1, 7, -21, 35, -35, 21, -7, 1]]
  | 9 => [
    [-4, -3, -2, -1, 0, 1, 2, 3, 4],
    [28, 7, -8, -17, -20, -17, -8, 7, 28],
    [-14, 7, 13, 9, 0, -9, -13, -7, 14],
    [14, -21, -11, 9, 18, 9, -11, -21, 14],
    [-4, 11, -4, -9, 0, 9, 4, -11, 4],
    [4, -17, 22, 1, -20, 1, 22, -17, 4],
    [-1, 6, -14, 14, 0, -14, 14, -6, 1],
    [1, -8, 28, -56, 70, -56, 28, -8, 1]]
  | 10 => [
    [-9, -7, -5, -3, -1, 1, 3, 5, 7, 9],
    [6, 2, -1, -3, -4, -4, -3, -1, 2, 6],
    [-42, 14, 35, 31, 12, -12, -31, -35, -14, 42],
    [18, -22, -17, 3, 18, 18, 3, -17, -22, 18],
    [-6, 14, -1, -11, -6, 6, 11, 1, -14, 6],
    [3, -11, 10, 6, -8, -8, 6, 10, -11, 3],
    [9, -47, 86, -42, -56, 56, 42, -86, 47, -9],
    [1, -7, 20, -28, 14, 14, -28, 20, -7, 1],
    [-1, 9, -36, 84, -126, 126, -84, 36, -9, 1]]
  | _ => []

/-- The coefficients of a contrast of a factor, if the table has them.  Contrast `c` is the
polynomial of degree `c + 1`. -/
def coefficients (levels contrast : Nat) : Option (List Int) := (polynomialTable levels)[contrast]?

example : coefficients 3 1 = some [1, -2, 1] := by decide

example : coefficients 11 0 = none := by decide

end SplitPlot
