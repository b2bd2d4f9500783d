import Mathlib
import SplitPlot.Source.Enumeration

/-!
# Sources as sets of factors

A source is a word, and everything that is said about it is said about the set of its factors.
`Source.toFinset` is that set.  It determines the source (`toFinset_injective`), and each operation
on words is translated here once: union, intersection and difference, the tests, the count of
factors, the list of all sources of a design, and the walk through the proper subsets of a mask.

## The walk

From a word `sub` below a mask the walk goes to `(sub - 1) &&& mask`.  That no word below the mask
is skipped is `le_sub_one_and`: any part of the mask that is smaller than `sub` is at most that
word.  The proof halves all three words at once.  If `sub` is odd, its predecessor differs in the
last bit only; if it is even, so is the borrow of its half.
-/

namespace SplitPlot

/-! ## The walk through the parts of a mask -/

/-- No part of a mask lies strictly between a word of the walk and the next. -/
theorem le_sub_one_and {m : ℕ} : ∀ {s y : ℕ}, y &&& m = y → s &&& m = s → y < s →
    y ≤ (s - 1) &&& m := by
  induction m using Nat.strong_induction_on with
  | _ m ih =>
    intro s y hy hs hlt
    have hm : 0 < m := by
      rcases Nat.eq_zero_or_pos m with rfl | h
      · rw [Nat.and_zero] at hs
        omega
      · exact h
    have hy2 : y / 2 &&& m / 2 = y / 2 := by rw [← Nat.and_div_two, hy]
    have hs2 : s / 2 &&& m / 2 = s / 2 := by rw [← Nat.and_div_two, hs]
    have hyodd : y % 2 = 1 → m % 2 = 1 := fun h =>
      (Nat.and_mod_two_eq_one.mp ((congrArg (· % 2) hy).trans h)).2
    have hhalf : (s - 1 &&& m) / 2 = (s - 1) / 2 &&& m / 2 := Nat.and_div_two
    rcases Nat.mod_two_eq_zero_or_one s with heven | hodd
    · have hpred : (s - 1) / 2 = s / 2 - 1 := by omega
      have hle := ih (m / 2) (by omega) hy2 hs2 (by omega)
      rw [hpred] at hhalf
      have hbit : y % 2 = 1 → (s - 1 &&& m) % 2 = 1 := fun h =>
        Nat.and_mod_two_eq_one.mpr ⟨by omega, hyodd h⟩
      omega
    · have hpred : (s - 1) / 2 = s / 2 := by omega
      rw [hpred, hs2] at hhalf
      omega

namespace Source

/-- The part of a mask that the walk goes to from `sub`. -/
theorem toNat_le_step {mask sub w : BitVec 32} (hsub : sub &&& mask = sub) (h0 : sub ≠ 0#32)
    (hw : w &&& mask = w) : w.toNat < sub.toNat ↔ w.toNat ≤ ((sub - 1#32) &&& mask).toNat := by
  have hpos : sub.toNat ≠ 0 := fun h => h0 (BitVec.eq_of_toNat_eq (by simpa using h))
  have hpred : (sub - 1#32).toNat = sub.toNat - 1 := by
    rw [BitVec.toNat_sub]
    simp only [BitVec.toNat_ofNat]
    omega
  constructor
  · intro hlt
    rw [BitVec.toNat_and, hpred]
    refine le_sub_one_and ?_ ?_ hlt
    · rw [← BitVec.toNat_and, hw]
    · rw [← BitVec.toNat_and, hsub]
  · exact fun hle => lt_of_le_of_lt hle (toNat_sub_one_and_lt h0)

/-- What the walk adds to the words already met: the parts of the mask below `sub`, zero apart. -/
theorem mem_submasks {mask sub : BitVec 32} {met : List (BitVec 32)} (hsub : sub &&& mask = sub)
    {w : BitVec 32} : w ∈ submasks mask sub met ↔
      w ∈ met ∨ (w ≠ 0#32 ∧ w &&& mask = w ∧ w.toNat < sub.toNat) := by
  have hstep : ∀ sub : BitVec 32, (sub - 1#32) &&& mask &&& mask = (sub - 1#32) &&& mask :=
    fun sub => by rw [BitVec.and_assoc, BitVec.and_self]
  fun_induction submasks mask sub met with
  | case1 met => simp
  | case2 sub met h next hnext =>
    refine (or_iff_left ?_).symm
    rintro ⟨hw0, hw, hlt⟩
    have hle := (toNat_le_step hsub h hw).mp hlt
    rw [show (sub - 1#32) &&& mask = 0#32 from hnext] at hle
    exact hw0 (BitVec.eq_of_toNat_eq (by simpa using hle))
  | case3 sub met h next hnext ih =>
    have hrest : w ∈ submasks mask next (next :: met) ↔ _ := ih (hstep sub)
    rw [hrest, List.mem_cons, or_assoc, or_left_comm]
    refine or_congr_right ⟨?_, ?_⟩
    · rintro (rfl | ⟨hw0, hw, hlt⟩)
      · exact ⟨hnext, hstep sub, toNat_sub_one_and_lt h⟩
      · exact ⟨hw0, hw, (toNat_le_step hsub h hw).mpr hlt.le⟩
    · rintro ⟨hw0, hw, hlt⟩
      rcases ((toNat_le_step hsub h hw).mp hlt).eq_or_lt with heq | hlt
      · exact Or.inl (BitVec.eq_of_toNat_eq heq)
      · exact Or.inr ⟨hw0, hw, hlt⟩

/-- The walk lists words in ascending order. -/
theorem pairwise_submasks {mask sub : BitVec 32} {met : List (BitVec 32)}
    (hmet : met.Pairwise fun v w => v.toNat < w.toNat) (hsub : ∀ w ∈ met, sub.toNat ≤ w.toNat) :
    (submasks mask sub met).Pairwise fun v w => v.toNat < w.toNat := by
  fun_induction submasks mask sub met with
  | case1 met => exact hmet
  | case2 sub met h next hnext => exact hmet
  | case3 sub met h next hnext ih =>
    have hlt : ∀ w ∈ met, next.toNat < w.toNat := fun w hw =>
      lt_of_lt_of_le (toNat_sub_one_and_lt h) (hsub w hw)
    refine ih (List.pairwise_cons.mpr ⟨hlt, hmet⟩) fun w hw => ?_
    rcases List.mem_cons.mp hw with rfl | hw
    · exact le_refl _
    · exact (hlt w hw).le

/-! ## The set of factors -/

/-- The factors of a source as a set. -/
def toFinset (s : Source) : Finset ℕ := (Finset.range 31).filter fun f => s.bits.getLsbD (f + 1)

theorem mem_toFinset {s : Source} {f : ℕ} :
    f ∈ s.toFinset ↔ s.bits.getLsbD (f + 1) = true := by
  rw [toFinset, Finset.mem_filter, Finset.mem_range, and_iff_right_iff_imp]
  intro h
  have := BitVec.lt_of_getLsbD h
  omega

theorem lt_of_mem_toFinset {s : Source} {f : ℕ} (h : f ∈ s.toFinset) : f < 31 :=
  Finset.mem_range.mp (Finset.mem_filter.mp h).1

/-- A source is determined by its factors. -/
theorem toFinset_injective : Function.Injective toFinset := by
  intro s t h
  refine Source.ext (BitVec.eq_of_getLsbD_eq fun i _ => ?_)
  rcases i with _ | f
  · rw [s.subjects, t.subjects]
  · rw [Bool.eq_iff_iff, ← mem_toFinset, ← mem_toFinset, h]

theorem mem_toFinset_ofBits {b : BitVec 32} {f : ℕ} :
    f ∈ (ofBits b).toFinset ↔ b.getLsbD (f + 1) = true := by
  rw [mem_toFinset, bits_ofBits, BitVec.getLsbD_or, Bool.or_eq_true, or_iff_left]
  simp

theorem toFinset_union (s t : Source) : (s.union t).toFinset = s.toFinset ∪ t.toFinset := by
  ext f
  rw [Finset.mem_union, mem_toFinset, mem_toFinset, mem_toFinset, bits_union, BitVec.getLsbD_or,
    Bool.or_eq_true]

theorem toFinset_intersection (s t : Source) :
    (s.intersection t).toFinset = s.toFinset ∩ t.toFinset := by
  ext f
  rw [intersection, mem_toFinset_ofBits, Finset.mem_inter, mem_toFinset, mem_toFinset,
    BitVec.getLsbD_and, Bool.and_eq_true]

theorem toFinset_difference (s t : Source) :
    (s.difference t).toFinset = s.toFinset \ t.toFinset := by
  ext f
  rw [difference, mem_toFinset_ofBits, Finset.mem_sdiff, mem_toFinset, mem_toFinset,
    BitVec.getLsbD_and, BitVec.getLsbD_not, Bool.and_eq_true]
  refine and_congr_right fun h => ?_
  have := BitVec.lt_of_getLsbD h
  simp [this]

theorem isSubsetOf_iff {s t : Source} : s.isSubsetOf t = true ↔ s.toFinset ⊆ t.toFinset := by
  rw [isSubsetOf, beq_iff_eq]
  constructor
  · intro h f hf
    have hbit := congrArg (fun b : BitVec 32 => b.getLsbD (f + 1)) h
    have := BitVec.lt_of_getLsbD (mem_toFinset.mp hf)
    rw [mem_toFinset] at hf ⊢
    simpa [hf, this] using hbit
  · intro h
    refine BitVec.eq_of_getLsbD_eq fun i hi => ?_
    rcases i with _ | f
    · simp [t.subjects]
    · by_cases hf : f ∈ s.toFinset
      · simp [mem_toFinset.mp (h hf)]
      · rw [mem_toFinset, Bool.not_eq_true] at hf
        simp [hf]

theorem isProperSubsetOf_iff {s t : Source} :
    s.isProperSubsetOf t = true ↔ s.toFinset ⊂ t.toFinset := by
  rw [isProperSubsetOf, Bool.and_eq_true, isSubsetOf_iff, bne_iff_ne, Finset.ssubset_iff_subset_ne]
  exact and_congr_right fun _ => not_congr
    ⟨fun heq => congrArg toFinset (Source.ext heq),
      fun heq => congrArg bits (toFinset_injective heq)⟩

theorem isEmpty_iff {s : Source} : s.isEmpty = true ↔ s.toFinset = ∅ := by
  have hempty : s.isEmpty = s.isSubsetOf (ofBits 0) := by
    simp [isEmpty, isSubsetOf]
  have hnone : (ofBits 0).toFinset = ∅ := by
    ext f
    simp [mem_toFinset_ofBits]
  rw [hempty, isSubsetOf_iff, hnone, Finset.subset_empty]

theorem nodup_factors (s : Source) : s.factors.Nodup := List.nodup_range.filter _

theorem factorCount_eq_card (s : Source) : s.factorCount = s.toFinset.card := by
  rw [factorCount, List.countP_eq_length_filter, toFinset]
  exact (List.toFinset_card_of_nodup (List.nodup_range.filter _)).symm.trans
    (congrArg Finset.card (by ext f; simp))

theorem contains_iff {s : Source} {f : ℕ} : s.contains f = true ↔ f < 16 ∧ f ∈ s.toFinset := by
  rw [contains, Bool.and_eq_true, decide_eq_true_eq, mem_toFinset]
  rfl

/-- The listed factors are all factors, if a source may hold that many. -/
theorem toFinset_factors {s : Source} (hs : s.toFinset ⊆ Finset.range maxFactors) :
    s.factors.toFinset = s.toFinset := by
  ext f
  rw [List.mem_toFinset, mem_factors, contains_iff]
  exact and_iff_right_of_imp fun hf => Finset.mem_range.mp (hs hf)

theorem mem_factors_of_subset {s u : Source} (hsu : s.toFinset ⊆ u.toFinset) {f : ℕ}
    (hf : f ∈ s.factors) : f ∈ u.factors := by
  rw [mem_factors, contains_iff] at hf ⊢
  exact ⟨hf.1, hsu hf.2⟩

/-! ## Sources from factors -/

theorem toFinset_span {factors : List ℕ} (h : ∀ f ∈ factors, f < 31) :
    (span factors).toFinset = factors.toFinset := by
  have hbits : ∀ (l : List ℕ) (b : BitVec 32) (j : ℕ), (∀ f ∈ l, f < 31) →
      ((l.foldl (fun bits f => bits ||| 1#32 <<< (f + 1)) b).getLsbD (j + 1) = true ↔
        b.getLsbD (j + 1) = true ∨ j ∈ l) := by
    intro l
    induction l with
    | nil => simp
    | cons f l ih =>
      intro b j hl
      obtain ⟨hf, hl⟩ := List.forall_mem_cons.mp hl
      rw [List.foldl_cons, ih _ j hl, BitVec.getLsbD_or, Bool.or_eq_true, List.mem_cons, or_assoc]
      refine or_congr_right (or_congr_left ?_)
      rw [BitVec.getLsbD_shiftLeft, BitVec.getLsbD_one]
      simp only [Bool.and_eq_true, Bool.not_eq_true', decide_eq_true_eq, decide_eq_false_iff_not]
      omega
  ext f
  rw [span, mem_toFinset_ofBits, hbits factors _ f h, List.mem_toFinset]
  simp

/-- Every set of factors of a design is that of a source. -/
theorem exists_toFinset_eq {k : ℕ} (hk : k ≤ 31) {factors : Finset ℕ}
    (h : factors ⊆ Finset.range k) : ∃ s : Source, s.toFinset = factors := by
  refine ⟨span factors.toList, ?_⟩
  rw [toFinset_span fun f hf => ?_, Finset.toList_toFinset]
  exact (Finset.mem_range.mp (h (Finset.mem_toList.mp hf))).trans_le hk

/-! ## Proper subsets -/

/-- Without the bit of the subjects a word keeps its other bits. -/
theorem getLsbD_bare {b : BitVec 32} {i : ℕ} :
    (b &&& ~~~1#32).getLsbD i = true ↔ b.getLsbD i = true ∧ i ≠ 0 := by
  rw [BitVec.getLsbD_and, BitVec.getLsbD_not, BitVec.getLsbD_one, Bool.and_eq_true]
  refine and_congr_right fun h => ?_
  have := BitVec.lt_of_getLsbD h
  simp [this]

theorem toFinset_ofBits_bare (s : Source) :
    (ofBits (s.bits &&& ~~~1#32)).toFinset = s.toFinset := by
  ext f
  rw [mem_toFinset_ofBits, mem_toFinset, getLsbD_bare]
  exact and_iff_left (Nat.succ_ne_zero f)

/-- Words without the bit of the subjects that name the same factors are equal. -/
theorem eq_of_toFinset_ofBits_eq {v w : BitVec 32} (hv : v.getLsbD 0 = false)
    (hw : w.getLsbD 0 = false) (h : (ofBits v).toFinset = (ofBits w).toFinset) : v = w := by
  refine BitVec.eq_of_getLsbD_eq fun i _ => ?_
  rcases i with _ | f
  · rw [hv, hw]
  · rw [Bool.eq_iff_iff, ← mem_toFinset_ofBits, ← mem_toFinset_ofBits, h]

/-- A word below a mask has no bit that the mask does not have. -/
theorem getLsbD_of_and_eq {w mask : BitVec 32} (h : w &&& mask = w) {i : ℕ}
    (hi : w.getLsbD i = true) : mask.getLsbD i = true := by
  rw [← h, BitVec.getLsbD_and, Bool.and_eq_true] at hi
  exact hi.2

theorem getLsbD_zero_of_and_eq {w b : BitVec 32} (h : w &&& (b &&& ~~~1#32) = w) :
    w.getLsbD 0 = false := by
  by_contra hbit
  exact (getLsbD_bare.mp (getLsbD_of_and_eq h (Bool.not_eq_false _ ▸ hbit))).2 rfl

/-- The walk meets exactly the sets of factors that are part of a source, not empty and not all of
it. -/
theorem mem_properSubsets {s t : Source} :
    t ∈ s.properSubsets ↔ t.toFinset ⊂ s.toFinset ∧ t.toFinset.Nonempty := by
  rw [properSubsets, List.mem_map]
  have hbare : ∀ b : BitVec 32, (b &&& ~~~1#32).getLsbD 0 = false := fun b =>
    Bool.eq_false_iff.mpr fun h => (getLsbD_bare.mp h).2 rfl
  constructor
  · rintro ⟨w, hw, rfl⟩
    obtain ⟨hw0, hand, hlt⟩ := ((mem_submasks (BitVec.and_self)).mp hw).resolve_left
      List.not_mem_nil
    have hbit := getLsbD_zero_of_and_eq hand
    have hsub : (ofBits w).toFinset ⊆ s.toFinset := fun f hf => by
      rw [← toFinset_ofBits_bare, mem_toFinset_ofBits]
      exact getLsbD_of_and_eq hand (mem_toFinset_ofBits.mp hf)
    refine ⟨hsub.ssubset_of_ne fun heq => ?_, Finset.nonempty_iff_ne_empty.mpr fun hempty => hw0 ?_⟩
    · rw [← toFinset_ofBits_bare s] at heq
      rw [eq_of_toFinset_ofBits_eq hbit (hbare _) heq] at hlt
      exact lt_irrefl _ hlt
    · refine eq_of_toFinset_ofBits_eq hbit (by simp) (hempty.trans ?_)
      ext f
      simp [mem_toFinset_ofBits]
  · rintro ⟨hsub, hne⟩
    have hand : (t.bits &&& ~~~1#32) &&& (s.bits &&& ~~~1#32) = t.bits &&& ~~~1#32 := by
      refine eq_of_toFinset_ofBits_eq ?_ (hbare _) ?_
      · rw [BitVec.getLsbD_and, hbare, Bool.false_and]
      ext f
      rw [toFinset_ofBits_bare, mem_toFinset_ofBits, BitVec.getLsbD_and, Bool.and_eq_true,
        ← mem_toFinset_ofBits, ← mem_toFinset_ofBits, toFinset_ofBits_bare, toFinset_ofBits_bare]
      exact and_iff_left_of_imp fun h => hsub.1 h
    refine ⟨t.bits &&& ~~~1#32, (mem_submasks (BitVec.and_self)).mpr (Or.inr ⟨?_, hand, ?_⟩), ?_⟩
    · intro h0
      obtain ⟨f, hf⟩ := hne
      rw [← toFinset_ofBits_bare, h0, mem_toFinset_ofBits] at hf
      simp at hf
    · refine lt_of_le_of_ne ?_ fun heq => hsub.ne ?_
      · rw [← hand, BitVec.toNat_and]
        exact Nat.and_le_right
      · rw [← toFinset_ofBits_bare, BitVec.eq_of_toNat_eq heq, toFinset_ofBits_bare]
    · exact toFinset_injective (toFinset_ofBits_bare t)

/-- Setting the bit of the subjects. -/
theorem toNat_bits_ofBits (w : BitVec 32) : (ofBits w).bits.toNat = 2 * (w.toNat / 2) + 1 := by
  rw [bits_ofBits, BitVec.toNat_or]
  refine Nat.eq_of_testBit_eq fun j => ?_
  rcases j with _ | j
  · simp
  · have hhalf : (2 * (w.toNat / 2) + 1) / 2 = w.toNat / 2 := by omega
    rw [Nat.testBit_or, Nat.testBit_succ, Nat.testBit_succ, Nat.testBit_succ, hhalf]
    simp

/-- The walk lists sources in ascending order. -/
theorem pairwise_properSubsets (s : Source) :
    s.properSubsets.Pairwise fun t u => t.bits.toNat < u.bits.toNat := by
  have heven : ∀ w ∈ submasks (s.bits &&& ~~~1#32) (s.bits &&& ~~~1#32) [], w.toNat % 2 = 0 := by
    intro w hw
    have hbit := getLsbD_zero_of_and_eq (((mem_submasks (BitVec.and_self)).mp hw).resolve_left
      List.not_mem_nil).2.1
    rw [BitVec.getLsbD, Nat.testBit_zero, decide_eq_false_iff_not] at hbit
    omega
  refine List.pairwise_map.mpr (List.Pairwise.imp_of_mem (fun {v w} hv hw hlt => ?_)
    (pairwise_submasks List.Pairwise.nil fun w hw => absurd hw List.not_mem_nil))
  have hv := heven v hv
  have hw := heven w hw
  rw [toNat_bits_ofBits, toNat_bits_ofBits]
  omega

theorem nodup_properSubsets (s : Source) : s.properSubsets.Nodup := by
  refine (pairwise_properSubsets s).imp ?_
  rintro t u hlt rfl
  exact lt_irrefl _ hlt

/-- A proper subset has a smaller word. -/
theorem toNat_bits_lt_of_isProperSubsetOf {s t : Source} (h : s.isProperSubsetOf t = true) :
    s.bits.toNat < t.bits.toNat := by
  rw [isProperSubsetOf, isSubsetOf, Bool.and_eq_true, beq_iff_eq, bne_iff_ne] at h
  obtain ⟨hsub, hne⟩ := h
  have hand : s.bits &&& t.bits = s.bits := by
    refine BitVec.eq_of_getLsbD_eq fun i hi => ?_
    have hbit := congrArg (fun b : BitVec 32 => b.getLsbD i) hsub
    simp only [BitVec.getLsbD_and, BitVec.getLsbD_not, hi, decide_true, Bool.true_and,
      BitVec.getLsbD_zero] at hbit
    rw [BitVec.getLsbD_and]
    cases hs : s.bits.getLsbD i <;> simp_all
  refine lt_of_le_of_ne ?_ fun heq => hne (BitVec.eq_of_toNat_eq heq)
  rw [← hand, BitVec.toNat_and]
  exact Nat.and_le_right

theorem factorCount_lt_of_isProperSubsetOf {s t : Source} (h : s.isProperSubsetOf t = true) :
    s.factorCount < t.factorCount := by
  rw [factorCount_eq_card, factorCount_eq_card]
  exact Finset.card_lt_card (isProperSubsetOf_iff.mp h)

/-! ## All sources of a design -/

theorem toNat_ofBits_odd {i : ℕ} (h : 2 * i + 3 < 2 ^ 32) :
    (ofBits (BitVec.ofNat 32 (2 * i + 3))).bits.toNat = 2 * i + 3 := by
  rw [toNat_bits_ofBits, BitVec.toNat_ofNat, Nat.mod_eq_of_lt h]
  omega

theorem mem_toFinset_odd {i f : ℕ} :
    f ∈ (ofBits (BitVec.ofNat 32 (2 * i + 3))).toFinset ↔ f < 31 ∧ (i + 1).testBit f = true := by
  rw [mem_toFinset_ofBits, BitVec.getLsbD_ofNat, Bool.and_eq_true, decide_eq_true_eq,
    Nat.testBit_succ, show (2 * i + 3) / 2 = i + 1 by omega]
  exact and_congr_left fun _ => by omega

/-- The sources of a design with `k` factors are the sets of its factors that are not empty. -/
theorem mem_all {k : ℕ} (hk : k ≤ 31) {s : Source} :
    s ∈ all k ↔ s.toFinset ⊆ Finset.range k ∧ s.toFinset.Nonempty := by
  rw [all, List.mem_map]
  have hpow : ∀ n, Nat.pow 2 n = 2 ^ n := fun _ => rfl
  constructor
  · rintro ⟨i, hi, rfl⟩
    rw [List.mem_range, hpow] at hi
    constructor
    · intro f hf
      by_contra hfk
      have hlt : i + 1 < 2 ^ f := lt_of_lt_of_le (by omega)
        (Nat.pow_le_pow_right Nat.two_pos (not_lt.mp (mt Finset.mem_range.mpr hfk)))
      have hbit := (mem_toFinset_odd.mp hf).2
      rw [Nat.testBit_lt_two_pow hlt] at hbit
      exact Bool.false_ne_true hbit
    · obtain ⟨f, hf⟩ := Nat.exists_testBit_of_ne_zero (Nat.succ_ne_zero i)
      have hfk : f < k := by
        by_contra hfk
        have hlt : i + 1 < 2 ^ f := lt_of_lt_of_le (by omega)
          (Nat.pow_le_pow_right Nat.two_pos (not_lt.mp hfk))
        rw [Nat.testBit_lt_two_pow hlt] at hf
        exact Bool.false_ne_true hf
      exact ⟨f, mem_toFinset_odd.mpr ⟨by omega, hf⟩⟩
  · rintro ⟨hsub, f, hf⟩
    -- the word without its last bit, which is not zero
    have hbit : ∀ g, (s.bits.toNat / 2).testBit g = s.bits.getLsbD (g + 1) := fun g => by
      rw [← Nat.testBit_succ, BitVec.getLsbD]
    have hpos : s.bits.toNat / 2 ≠ 0 := fun h0 => by
      have := hbit f
      rw [h0, Nat.zero_testBit, mem_toFinset.mp hf] at this
      exact Bool.false_ne_true this
    have hlt : s.bits.toNat / 2 < 2 ^ k := by
      refine Nat.lt_pow_two_of_testBit _ fun g hg => ?_
      rw [hbit, ← Bool.not_eq_true, ← mem_toFinset]
      exact fun hmem => not_lt.mpr hg (Finset.mem_range.mp (hsub hmem))
    refine ⟨s.bits.toNat / 2 - 1, List.mem_range.mpr (by rw [hpow]; omega), ?_⟩
    refine toFinset_injective (Finset.ext fun g => ?_)
    rw [mem_toFinset_odd, show s.bits.toNat / 2 - 1 + 1 = s.bits.toNat / 2 by omega, hbit,
      ← mem_toFinset, and_iff_right_iff_imp]
    exact lt_of_mem_toFinset

/-- The sources of a design are listed in ascending order. -/
theorem pairwise_all {k : ℕ} (hk : k ≤ 30) :
    (all k).Pairwise fun s t => s.bits.toNat < t.bits.toNat := by
  have hpow : Nat.pow 2 k ≤ 2 ^ 30 := Nat.pow_le_pow_right Nat.two_pos hk
  rw [all, List.pairwise_map]
  refine List.pairwise_lt_range.imp_of_mem fun hi hj hij => ?_
  rw [List.mem_range] at hi hj
  rw [toNat_ofBits_odd (by omega), toNat_ofBits_odd (by omega)]
  omega

theorem nodup_all {k : ℕ} (hk : k ≤ 30) : (all k).Nodup := by
  refine (pairwise_all hk).imp ?_
  rintro s t hlt rfl
  exact lt_irrefl _ hlt

/-! ## Kinds -/

/-- The kind of a source, read off its set of factors. -/
theorem kind_eq (s w : Source) :
    s.kind w = if Disjoint s.toFinset w.toFinset then .between
      else if s.toFinset ⊆ w.toFinset then .within else .mixed := by
  simp only [kind, isEmpty_iff, toFinset_intersection, toFinset_difference,
    Finset.sdiff_eq_empty_iff_subset, Finset.disjoint_iff_inter_eq_empty]

theorem kind_eq_between_iff {s w : Source} :
    s.kind w = .between ↔ Disjoint s.toFinset w.toFinset := by
  rw [kind_eq]
  split
  · next h => exact iff_of_true rfl h
  · next h =>
    refine iff_of_false ?_ h
    split <;> exact fun h => nomatch h

theorem kind_eq_within_iff {s w : Source} :
    s.kind w = .within ↔ s.toFinset.Nonempty ∧ s.toFinset ⊆ w.toFinset := by
  rw [kind_eq]
  split
  · next h =>
    refine iff_of_false (fun h => nomatch h) fun h' => h'.1.ne_empty ?_
    exact disjoint_self.mp (h.mono_right h'.2)
  · next h =>
    split
    · next hsub =>
      refine iff_of_true rfl ⟨Finset.nonempty_iff_ne_empty.mpr fun hempty => h ?_, hsub⟩
      rw [hempty]
      exact Finset.disjoint_empty_left _
    · next hsub => exact iff_of_false (fun h => nomatch h) fun h' => hsub h'.2

theorem kind_eq_mixed_iff {s w : Source} :
    s.kind w = .mixed ↔ ¬ Disjoint s.toFinset w.toFinset ∧ ¬ s.toFinset ⊆ w.toFinset := by
  rw [kind_eq]
  split
  · next h => exact iff_of_false (fun h => nomatch h) fun h' => h'.1 h
  · next h =>
    split
    · next hsub => exact iff_of_false (fun h => nomatch h) fun h' => h'.2 hsub
    · next hsub => exact iff_of_true rfl ⟨h, hsub⟩

end Source

end SplitPlot
