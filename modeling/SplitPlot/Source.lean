/-!
# Sources of variation

A source is a main effect or an interaction: a set of factors.  It is held as a word of 32 bits.
Bit 0 stands for the subjects, the random factor that takes part in every source, and bit `f + 1`
for factor `f`.

## The reserved bit

That bit 0 is set is part of the type, so two sources are equal when they hold the same factors,
and no operation on sets of factors has to treat the empty set apart.  `union` keeps the bit by
itself; `intersection` and `difference` set it again, and so does `ofBits` on an arbitrary word.

## Two readings

A source is read as a word where it is ordered and printed, and as a set of factors everywhere
else.  `contains` is the bridge; only the first sixteen factors are seen through it, while
`factorCount` and the subset tests look at the whole word.

## Sub-sources

`properSubsets` walks the words below a mask: from `sub` the next smaller word whose bits all lie
in `mask` is `(sub - 1) &&& mask`, because the borrow clears the lowest set bit of `sub` and fills
in every bit below it, and the mask keeps of those what it has.
-/

namespace SplitPlot

/-- A set of factors, as a word with the bit of the subjects set. -/
@[ext] structure Source where
  /-- The word: bit `f + 1` stands for factor `f`. -/
  bits : BitVec 32
  /-- The subjects take part in every source. -/
  subjects : bits.getLsbD 0 = true
  deriving DecidableEq

namespace Source

/-- The number of factors that a design may have. -/
def maxFactors : Nat := 16

/-- The source of a word: its bit 0 is set. -/
def ofBits (bits : BitVec 32) : Source := ⟨bits ||| 1#32, by simp⟩

@[simp] theorem bits_ofBits (b : BitVec 32) : (ofBits b).bits = b ||| 1#32 := rfl

instance : Inhabited Source := ⟨ofBits 0⟩

/-- Whether factor `f` belongs to the source. -/
def contains (s : Source) (f : Nat) : Bool := f < maxFactors && s.bits.getLsbD (f + 1)

/-! ## The algebra of sources -/

/-- The factors of either source. -/
def union (s t : Source) : Source := ⟨s.bits ||| t.bits, by simp [s.subjects]⟩

/-- The factors of both sources. -/
def intersection (s t : Source) : Source := ofBits (s.bits &&& t.bits)

/-- The factors of `s` that are not in `t`. -/
def difference (s t : Source) : Source := ofBits (s.bits &&& ~~~t.bits)

/-- Whether the source names no factor. -/
def isEmpty (s : Source) : Bool := s.bits &&& ~~~1#32 == 0#32

/-- Whether every factor of `s` is one of `t`. -/
def isSubsetOf (s t : Source) : Bool := s.bits &&& ~~~t.bits == 0#32

/-- Whether `s` is a subset of `t` and differs from it. -/
def isProperSubsetOf (s t : Source) : Bool := s.isSubsetOf t && s.bits != t.bits

@[simp] theorem bits_union (s t : Source) : (s.union t).bits = s.bits ||| t.bits := rfl

@[simp] theorem bits_intersection (s t : Source) :
    (s.intersection t).bits = s.bits &&& t.bits ||| 1#32 := rfl

@[simp] theorem bits_difference (s t : Source) :
    (s.difference t).bits = s.bits &&& ~~~t.bits ||| 1#32 := rfl

/-- The number of set bits, the one of the subjects included. -/
def bitCount (s : Source) : Nat := (List.range 32).countP s.bits.getLsbD

/-- The number of factors. -/
def factorCount (s : Source) : Nat := (List.range 31).countP fun f => s.bits.getLsbD (f + 1)

/-- The factors in ascending order. -/
def factors (s : Source) : List Nat := (List.range maxFactors).filter s.contains

@[simp] theorem mem_factors (s : Source) (f : Nat) : f ∈ s.factors ↔ s.contains f = true := by
  simp only [factors, List.mem_filter, List.mem_range, and_iff_right_iff_imp]
  intro h
  simp only [contains, Bool.and_eq_true, decide_eq_true_eq] at h
  exact h.1

/-! ## Sources from factors -/

/-- The source spanned by a list of factors below `maxFactors`. -/
def span (factors : List Nat) : Source :=
  ofBits (factors.foldl (fun bits f => bits ||| 1#32 <<< (f + 1)) 0#32)

/-! ## Sub-sources -/

/-- A word that is not zero becomes smaller by one step of the walk. -/
theorem toNat_sub_one_and_lt {mask sub : BitVec 32} (h : sub ≠ 0#32) :
    ((sub - 1#32) &&& mask).toNat < sub.toNat := by
  have hpos : sub.toNat ≠ 0 := fun h0 => h (BitVec.eq_of_toNat_eq (by simpa using h0))
  have hlt := sub.isLt
  have hle : ((sub - 1#32) &&& mask).toNat ≤ (sub - 1#32).toNat := by
    rw [BitVec.toNat_and]
    exact Nat.and_le_left
  have hsub : (sub - 1#32).toNat = sub.toNat - 1 := by
    rw [BitVec.toNat_sub]
    simp only [BitVec.toNat_ofNat]
    omega
  omega

/-- The words below `sub`, zero apart, that the descending walk through `mask` meets, in front of
those met before. -/
def submasks (mask sub : BitVec 32) (met : List (BitVec 32)) : List (BitVec 32) :=
  if _h : sub = 0#32 then met
  else
    let next := (sub - 1#32) &&& mask
    if next = 0#32 then met else submasks mask next (next :: met)
termination_by sub.toNat
decreasing_by exact toNat_sub_one_and_lt _h

/-- The sources that hold at least one factor of `s` and none besides, without `s` itself, in
ascending order.  These are the sources whose effects the effect of `s` is measured against. -/
def properSubsets (s : Source) : List Source :=
  let mask := s.bits &&& ~~~1#32
  (submasks mask mask []).map ofBits

/-! ## Order and text -/

/-- Sources are ordered by their words. -/
def compare (s t : Source) : Ordering := Ord.compare s.bits.toNat t.bits.toNat

/-- The names of the factors, joined by a multiplication sign.  A factor beyond the names is
called by its number. -/
def label (s : Source) (names : List String) : String :=
  "×".intercalate (s.factors.map fun f => names.getD f s!"F{f + 1}")

instance : ToString Source where
  toString s := "0b" ++ String.ofList (Nat.toDigits 2 s.bits.toNat)

/-! ## Kinds -/

/-- How the factors of a source split between the two kinds of factor. -/
inductive Kind where
  /-- Only factors between subjects. -/
  | between
  /-- Only factors within subjects, and at least one. -/
  | within
  /-- Factors of both kinds. -/
  | mixed
  deriving DecidableEq, Repr

instance : ToString Kind where
  toString
    | .between => "between"
    | .within => "within"
    | .mixed => "mixed"

/-- The kind of a source, given the source of all factors within subjects.  The source without
factors counts as one between subjects. -/
def kind (s within : Source) : Kind :=
  if (s.intersection within).isEmpty then .between
  else if (s.difference within).isEmpty then .within
  else .mixed

end Source

end SplitPlot
