import Mathlib
import SplitPlot.Proofs.Source.Sets

/-!
# The walk through the parts of a mask

The proper subsets of a source are found by a walk through the parts of a mask, the word of the
source without the bit of the subjects.  One pass goes from a part to the next smaller one
(`Source.nextPart`), and the walk ends at zero.  `Source.Sets` shows which words the walk meets;
here its passes are counted.

* The walk from a word ends after some number of passes, and the words that it meets before are
  those of the list (`exists_passes`).  This is an induction along the walk itself.
* A source with `n` factors has `2 ^ n - 2` proper subsets (`length_properSubsets`): all sets of its
  factors but the empty one and its own.
* So from the mask it takes exactly `2 ^ n - 1` passes to zero, one for each proper subset and one
  more that ends the walk.  Without factors the mask is zero, and there is nothing to walk through.
-/

namespace SplitPlot

namespace Source

/-! ## Passes of the walk -/

/-- The part of a mask to which one pass of the walk goes. -/
def nextPart (mask sub : BitVec 32) : BitVec 32 := (sub - 1#32) &&& mask

/-- The factors of a source as a word, without the bit of the subjects. -/
def mask (s : Source) : BitVec 32 := s.bits &&& ~~~1#32

/-- The walk from a word ends at zero, and the words in front of it are listed, the last one
first. -/
theorem exists_passes (mask sub : BitVec 32) (met : List (BitVec 32)) :
    ∃ n, (nextPart mask)^[n] sub = 0#32 ∧ (∀ k < n, (nextPart mask)^[k] sub ≠ 0#32) ∧
      submasks mask sub met =
        ((List.range (n - 1)).map fun k => (nextPart mask)^[k + 1] sub).reverse ++ met := by
  fun_induction submasks mask sub met with
  | case1 met => exact ⟨0, rfl, fun k hk => absurd hk (Nat.not_lt_zero k), rfl⟩
  | case2 sub met h next hnext =>
    refine ⟨1, hnext, fun k hk => ?_, rfl⟩
    obtain rfl : k = 0 := by omega
    exact h
  | case3 sub met h next hnext ih =>
    obtain ⟨n, hzero, hbefore, hlist⟩ := ih
    -- the walk from the next word has at least one pass
    have hpos : n ≠ 0 := by
      rintro rfl
      exact hnext hzero
    refine ⟨n + 1, hzero, fun k hk => ?_, ?_⟩
    · rcases k with _ | k
      · exact h
      · exact hbefore k (by omega)
    · rw [hlist, show n + 1 - 1 = n - 1 + 1 by omega, List.range_succ_eq_map, List.map_cons,
        List.map_map, List.reverse_cons, List.append_assoc]
      rfl

/-! ## The number of proper subsets -/

/-- The sets of factors that the proper subsets of a source stand for. -/
theorem toFinset_map_properSubsets (s : Source) :
    (s.properSubsets.map toFinset).toFinset = s.toFinset.ssubsets.erase ∅ := by
  ext factors
  rw [List.mem_toFinset, List.mem_map, Finset.mem_erase, Finset.mem_ssubsets]
  constructor
  · rintro ⟨t, ht, rfl⟩
    obtain ⟨hsub, hne⟩ := mem_properSubsets.mp ht
    exact ⟨hne.ne_empty, hsub⟩
  · rintro ⟨hne, hsub⟩
    have hrange : factors ⊆ Finset.range 31 := fun f hf =>
      Finset.mem_range.mpr (lt_of_mem_toFinset (hsub.1 hf))
    obtain ⟨t, rfl⟩ := exists_toFinset_eq (le_refl 31) hrange
    exact ⟨t, mem_properSubsets.mpr ⟨hsub, Finset.nonempty_iff_ne_empty.mpr hne⟩, rfl⟩

/-- A set of `n` members has `2 ^ n - 2` subsets besides itself and the empty one. -/
theorem card_ssubsets_erase_empty (factors : Finset ℕ) :
    (factors.ssubsets.erase ∅).card = 2 ^ factors.card - 2 := by
  have hssubsets : factors.ssubsets.card = 2 ^ factors.card - 1 := by
    rw [Finset.ssubsets, Finset.card_erase_of_mem (Finset.mem_powerset_self factors),
      Finset.card_powerset]
  rcases factors.eq_empty_or_nonempty with rfl | hne
  · rfl
  · rw [Finset.card_erase_of_mem (Finset.empty_mem_ssubsets hne), hssubsets, Nat.sub_sub]

theorem length_properSubsets (s : Source) : s.properSubsets.length = 2 ^ s.factorCount - 2 := by
  have hnodup : (s.properSubsets.map toFinset).Nodup :=
    (nodup_properSubsets s).map toFinset_injective
  rw [← List.length_map (f := toFinset), ← List.toFinset_card_of_nodup hnodup,
    toFinset_map_properSubsets, card_ssubsets_erase_empty, factorCount_eq_card]

/-! ## From the mask to zero -/

theorem mask_eq_zero_iff (s : Source) : s.mask = 0#32 ↔ s.factorCount = 0 := by
  have hempty : s.isEmpty = true ↔ s.mask = 0#32 := beq_iff_eq
  rw [← hempty, isEmpty_iff, factorCount_eq_card, Finset.card_eq_zero]

/-- A walk from the mask that ends after its passes, and lists a word after each but the last, has
one pass more than there are proper subsets. -/
theorem passes_eq {s : Source} {n : ℕ} (hzero : (nextPart s.mask)^[n] s.mask = 0#32)
    (hbefore : ∀ k < n, (nextPart s.mask)^[k] s.mask ≠ 0#32)
    (hlength : n - 1 = 2 ^ s.factorCount - 2) : n = 2 ^ s.factorCount - 1 := by
  rcases Nat.eq_zero_or_pos s.factorCount with hnone | hsome
  · -- the mask is zero, so there is nothing to walk through
    have hn : n = 0 := by
      by_contra hne
      exact hbefore 0 (Nat.pos_of_ne_zero hne) ((mask_eq_zero_iff s).mpr hnone)
    rw [hn, hnone]
    rfl
  · have hn : n ≠ 0 := by
      rintro rfl
      have hnone := (mask_eq_zero_iff s).mp hzero
      omega
    have hpow : 2 ^ 1 ≤ 2 ^ s.factorCount := Nat.pow_le_pow_right Nat.two_pos hsome
    omega

/-- The walk through the parts of a source with factors takes one pass for each proper subset, and
one more that ends it. -/
theorem passes_properSubsets (s : Source) :
    ((nextPart s.mask)^[2 ^ s.factorCount - 1] s.mask = 0#32 ∧
      ∀ k < 2 ^ s.factorCount - 1, (nextPart s.mask)^[k] s.mask ≠ 0#32) ∧
    s.properSubsets = ((List.range (2 ^ s.factorCount - 2)).map fun k =>
      ofBits ((nextPart s.mask)^[k + 1] s.mask)).reverse := by
  obtain ⟨n, hzero, hbefore, hlist⟩ := exists_passes s.mask s.mask []
  rw [List.append_nil] at hlist
  have hproper : s.properSubsets = (submasks s.mask s.mask []).map ofBits := rfl
  have hlength : n - 1 = 2 ^ s.factorCount - 2 := by
    rw [← length_properSubsets, hproper, hlist, List.length_map, List.length_reverse,
      List.length_map, List.length_range]
  refine ⟨passes_eq hzero hbefore hlength ▸ ⟨hzero, hbefore⟩, ?_⟩
  rw [hproper, hlist, hlength, List.map_reverse, List.map_map]
  rfl

/-- The words of the proper subsets: they have the bit of the subjects, some bit besides, no bit
that the source does not have, and they are not its word. -/
theorem mem_map_bits_properSubsets {s : Source} {w : BitVec 32} :
    w ∈ s.properSubsets.map (·.bits) ↔
      w.getLsbD 0 = true ∧ (∃ f, w.getLsbD (f + 1) = true) ∧
        (∀ i, w.getLsbD i = true → s.bits.getLsbD i = true) ∧ w ≠ s.bits := by
  rw [List.mem_map]
  constructor
  · rintro ⟨t, ht, rfl⟩
    obtain ⟨hsub, f, hf⟩ := mem_properSubsets.mp ht
    refine ⟨t.subjects, ⟨f, mem_toFinset.mp hf⟩, fun i hi => ?_, fun heq => ?_⟩
    · rcases i with _ | g
      · exact s.subjects
      · exact mem_toFinset.mp (hsub.1 (mem_toFinset.mpr hi))
    · exact hsub.ne (congrArg toFinset (Source.ext heq))
  · rintro ⟨hsubjects, ⟨f, hf⟩, hbits, hne⟩
    let t : Source := ⟨w, hsubjects⟩
    have hsub : t.toFinset ⊆ s.toFinset := fun g hg =>
      mem_toFinset.mpr (hbits (g + 1) (mem_toFinset.mp hg))
    have hneq : t.toFinset ≠ s.toFinset := fun heq =>
      hne (congrArg bits (toFinset_injective heq))
    have hnonempty : t.toFinset.Nonempty := ⟨f, mem_toFinset.mpr hf⟩
    exact ⟨t, mem_properSubsets.mpr ⟨hsub.ssubset_of_ne hneq, hnonempty⟩, rfl⟩

/-- **The walk lists the proper subsets and nothing else.**  For every source with `n` factors the
walk from its mask reaches zero after `2 ^ n - 1` passes and no sooner, and the words it meets in
front of zero are, with the bit of the subjects and the last one first, the proper subsets.  Their
words are exactly those that have the bit of the subjects and some other bit, have no bit that the
source does not have, and are not its own.  They are strictly ascending, so none of them stands
twice; and there are `2 ^ n - 2` of them, or none if the source has no factor. -/
theorem properSubsets_exact (s : Source) :
    ((nextPart s.mask)^[2 ^ s.factorCount - 1] s.mask = 0#32 ∧
      ∀ k < 2 ^ s.factorCount - 1, (nextPart s.mask)^[k] s.mask ≠ 0#32) ∧
    s.properSubsets = ((List.range (2 ^ s.factorCount - 2)).map fun k =>
      ofBits ((nextPart s.mask)^[k + 1] s.mask)).reverse ∧
    (∀ w, w ∈ s.properSubsets.map (·.bits) ↔
      w.getLsbD 0 = true ∧ (∃ f, w.getLsbD (f + 1) = true) ∧
        (∀ i, w.getLsbD i = true → s.bits.getLsbD i = true) ∧ w ≠ s.bits) ∧
    (s.properSubsets.map (·.bits.toNat)).Pairwise (· < ·) ∧ s.properSubsets.Nodup ∧
    s.properSubsets.length = if s.factorCount = 0 then 0 else 2 ^ s.factorCount - 2 := by
  obtain ⟨hpasses, hlist⟩ := passes_properSubsets s
  refine ⟨hpasses, hlist, fun w => mem_map_bits_properSubsets,
    List.pairwise_map.mpr (pairwise_properSubsets s), nodup_properSubsets s, ?_⟩
  rw [length_properSubsets]
  split
  · next hnone => rw [hnone]; rfl
  · rfl

/-- The proper subsets of a source with three factors. -/
theorem properSubsets_threeFactors :
    let s := ofBits 15
    s.properSubsets.map (·.bits) = [3, 5, 7, 9, 11, 13] ∧ (nextPart s.mask)^[7] s.mask = 0 ∧
      (nextPart s.mask)^[6] s.mask ≠ 0 := by
  intro s
  obtain ⟨⟨hzero, hbefore⟩, hlist, -⟩ := properSubsets_exact s
  have hcount : s.factorCount = 3 := by decide
  rw [hcount] at hzero hbefore hlist
  refine ⟨?_, hzero, hbefore 6 (by decide)⟩
  rw [hlist]
  decide

end Source

end SplitPlot
