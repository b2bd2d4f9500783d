import SplitPlot.Grid
import SplitPlot.Shape.Lemmas

/-!
# Reading tables back

A table that was built from a function on positions shows the value of that function at every
position in bounds (`Grid.get_ofFn`), and a table is determined by what it shows
(`Grid.ext_get`).  Each reduction and each stretched combination is built by `ofFn`, so these two
say what it holds without a look at the storage.
-/

namespace SplitPlot

namespace Grid

variable {K : Type} [Scalar K]

/-- A table shows the value of the function it was built from. -/
theorem get_ofFn {shape index : List Nat} (f : List Nat → K) (h : InBounds index shape) :
    (ofFn shape f).get index = f index := by
  rw [get, Array.getD_eq_getD_getElem?]
  simp only [ofFn]
  rw [Array.getElem?_ofFn, dif_pos (flatIndex_lt h), Option.getD_some, unravel_flatIndex h]

/-- The entry with a given number stands at the position of that number. -/
theorem getElem_entries (g : Grid K) {flat : Nat} (h : flat < g.entries.size) :
    g.entries[flat] = g.get (unravel g.shape flat) := by
  rw [get, flatIndex_unravel (g.size_entries ▸ h), Array.getD_eq_getD_getElem?,
    Array.getElem?_eq_getElem h, Option.getD_some]

/-- Two tables of one shape that show the same entries are equal. -/
theorem ext_get {g h : Grid K} (hshape : g.shape = h.shape)
    (hget : ∀ index, InBounds index g.shape → g.get index = h.get index) : g = h := by
  refine Grid.ext hshape (Array.ext ?_ fun flat hg hh => ?_)
  · rw [g.size_entries, h.size_entries, hshape]
  · rw [getElem_entries g hg, getElem_entries h hh,
      hget _ (inBounds_unravel (g.size_entries ▸ hg)), hshape]

/-- The entries of a table in the order of the position numbers. -/
theorem toList_eq (g : Grid K) : g.toList = (multiIndices g.shape).map g.get := by
  rw [multiIndices_eq, List.map_map]
  refine List.ext_getElem ?_ fun flat hg _ => ?_
  · simp [toList, g.size_entries]
  · simp only [toList, Array.length_toList] at hg
    simp [toList, getElem_entries g hg]

end Grid

end SplitPlot
