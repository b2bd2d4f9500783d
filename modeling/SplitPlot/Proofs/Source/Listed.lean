import Mathlib
import SplitPlot.Proofs.Source.Sets

/-!
# Listed factors

A word has room for 31 factors, and a source lists the factors among the first sixteen
(`Source.listed`).  A source made of an arbitrary word may have factors beyond these
(`Source.unlisted`).  They are not among its factors and are not contained in it, but they count: a
source without a listed factor need not be empty, nor a subset of every other.

* Containment, union, intersection and difference are those of the listed factors, for all sources.
* The other operations look at both parts, at the listed factors and at the unlisted ones
  (`isSubsetOf_iff_listed`, `factorCount_eq_listed`, `kind_eq_between_iff_listed`).
* So a source is no more than its listed factors exactly if it has no others.  These are the sources
  that come from constructors which check their factors (`checked_iff`), and the words below
  `2 ^ 17` (`unlisted_eq_empty_iff_lt`).

Each part is the set of factors cut at the limit, and each operation on sets of factors is cut into
its two parts.
-/

namespace SplitPlot

namespace Source

/-! ## The two parts of a source -/

/-- The factors that a source lists, as a set. -/
def listed (s : Source) : Finset ℕ := s.factors.toFinset

/-- The factors of a source beyond those that it can list. -/
def unlisted (s : Source) : Finset ℕ := s.toFinset.filter fun f => maxFactors ≤ f

variable {s t : Source} {f : ℕ}

theorem mem_listed : f ∈ s.listed ↔ f ∈ s.toFinset ∧ f < maxFactors := by
  rw [listed, List.mem_toFinset, mem_factors, contains_iff, and_comm]
  rfl

theorem mem_unlisted : f ∈ s.unlisted ↔ f ∈ s.toFinset ∧ maxFactors ≤ f := Finset.mem_filter

/-- The factors are the listed ones and the unlisted ones. -/
theorem forall_mem_toFinset_iff {p : ℕ → Prop} :
    (∀ f ∈ s.toFinset, p f) ↔ (∀ f ∈ s.listed, p f) ∧ ∀ f ∈ s.unlisted, p f := by
  constructor
  · intro h
    exact ⟨fun f hf => h f (mem_listed.mp hf).1, fun f hf => h f (mem_unlisted.mp hf).1⟩
  · rintro ⟨hlisted, hunlisted⟩ f hf
    rcases Nat.lt_or_ge f maxFactors with hlt | hle
    · exact hlisted f (mem_listed.mpr ⟨hf, hlt⟩)
    · exact hunlisted f (mem_unlisted.mpr ⟨hf, hle⟩)

/-- What is listed by one source belongs to another exactly if the other lists it as well. -/
theorem mem_toFinset_iff_of_mem_listed (hf : f ∈ s.listed) : f ∈ t.toFinset ↔ f ∈ t.listed := by
  rw [mem_listed]
  exact (and_iff_left (mem_listed.mp hf).2).symm

theorem mem_toFinset_iff_of_mem_unlisted (hf : f ∈ s.unlisted) :
    f ∈ t.toFinset ↔ f ∈ t.unlisted := by
  rw [mem_unlisted]
  exact (and_iff_left (mem_unlisted.mp hf).2).symm

theorem toFinset_subset_iff :
    s.toFinset ⊆ t.toFinset ↔ s.listed ⊆ t.listed ∧ s.unlisted ⊆ t.unlisted := by
  rw [Finset.subset_iff, forall_mem_toFinset_iff]
  refine and_congr ?_ ?_
  · exact forall₂_congr fun f hf => mem_toFinset_iff_of_mem_listed hf
  · exact forall₂_congr fun f hf => mem_toFinset_iff_of_mem_unlisted hf

theorem disjoint_toFinset_iff : Disjoint s.toFinset t.toFinset ↔
    Disjoint s.listed t.listed ∧ Disjoint s.unlisted t.unlisted := by
  rw [Finset.disjoint_left, forall_mem_toFinset_iff, Finset.disjoint_left, Finset.disjoint_left]
  refine and_congr ?_ ?_
  · exact forall₂_congr fun f hf => not_congr (mem_toFinset_iff_of_mem_listed hf)
  · exact forall₂_congr fun f hf => not_congr (mem_toFinset_iff_of_mem_unlisted hf)

theorem toFinset_eq_empty_iff : s.toFinset = ∅ ↔ s.listed = ∅ ∧ s.unlisted = ∅ := by
  rw [Finset.eq_empty_iff_forall_notMem, Finset.eq_empty_iff_forall_notMem,
    Finset.eq_empty_iff_forall_notMem]
  exact forall_mem_toFinset_iff (p := fun _ => False)

theorem card_toFinset (s : Source) : s.toFinset.card = s.listed.card + s.unlisted.card := by
  have hlisted : s.listed = s.toFinset.filter fun f => ¬ maxFactors ≤ f := by
    ext f
    rw [mem_listed, Finset.mem_filter, not_le]
  rw [hlisted, unlisted, add_comm, Finset.card_filter_add_card_filter_not]

/-! ## Sets of factors -/

theorem listed_union (s t : Source) : (s.union t).listed = s.listed ∪ t.listed := by
  ext f
  rw [Finset.mem_union, mem_listed, mem_listed, mem_listed, toFinset_union, Finset.mem_union,
    or_and_right]

theorem listed_intersection (s t : Source) :
    (s.intersection t).listed = s.listed ∩ t.listed := by
  ext f
  rw [Finset.mem_inter, mem_listed, mem_listed, mem_listed, toFinset_intersection, Finset.mem_inter,
    and_and_right]

theorem listed_difference (s t : Source) : (s.difference t).listed = s.listed \ t.listed := by
  ext f
  rw [mem_listed, toFinset_difference, Finset.mem_sdiff, Finset.mem_sdiff, and_right_comm,
    ← mem_listed]
  exact and_congr_right fun hf => not_congr (mem_toFinset_iff_of_mem_listed hf)

/-! ## Tests and counts -/

theorem isSubsetOf_iff_listed : s.isSubsetOf t = true ↔
    s.listed ⊆ t.listed ∧ s.unlisted ⊆ t.unlisted := by
  rw [isSubsetOf_iff, toFinset_subset_iff]

theorem isProperSubsetOf_iff_listed : s.isProperSubsetOf t = true ↔
    (s.listed ⊆ t.listed ∧ s.unlisted ⊆ t.unlisted) ∧
      ¬ (t.listed ⊆ s.listed ∧ t.unlisted ⊆ s.unlisted) := by
  rw [isProperSubsetOf_iff, Finset.ssubset_def, toFinset_subset_iff,
    toFinset_subset_iff]

theorem isEmpty_iff_listed : s.isEmpty = true ↔ s.listed = ∅ ∧ s.unlisted = ∅ := by
  rw [isEmpty_iff, toFinset_eq_empty_iff]

theorem factorCount_eq_listed (s : Source) :
    s.factorCount = s.listed.card + s.unlisted.card := by
  rw [factorCount_eq_card, card_toFinset]

theorem kind_eq_between_iff_listed : s.kind t = .between ↔
    Disjoint s.listed t.listed ∧ Disjoint s.unlisted t.unlisted := by
  rw [kind_eq_between_iff, disjoint_toFinset_iff]

theorem kind_eq_within_iff_listed : s.kind t = .within ↔
    ¬ (s.listed = ∅ ∧ s.unlisted = ∅) ∧ s.listed ⊆ t.listed ∧ s.unlisted ⊆ t.unlisted := by
  rw [kind_eq_within_iff, Finset.nonempty_iff_ne_empty, Ne, toFinset_eq_empty_iff,
    toFinset_subset_iff]

theorem kind_eq_mixed_iff_not (s t : Source) :
    s.kind t = .mixed ↔ s.kind t ≠ .between ∧ s.kind t ≠ .within := by
  cases s.kind t with
  | between => exact iff_of_false (by decide) fun h => h.1 rfl
  | within => exact iff_of_false (by decide) fun h => h.2 rfl
  | mixed => exact iff_of_true rfl (by decide)

/-! ## Sources without unlisted factors -/

theorem unlisted_eq_empty_iff_subset :
    s.unlisted = ∅ ↔ s.toFinset ⊆ Finset.range maxFactors := by
  rw [unlisted, Finset.filter_eq_empty_iff, Finset.subset_iff]
  exact forall₂_congr fun f _ => by rw [Finset.mem_range, not_le]

/-- A source without unlisted factors has a word of seventeen bits. -/
theorem unlisted_eq_empty_iff_lt : s.unlisted = ∅ ↔ s.bits.toNat < 2 ^ (maxFactors + 1) := by
  rw [unlisted_eq_empty_iff_subset, Finset.subset_iff]
  constructor
  · intro h
    refine Nat.lt_pow_two_of_testBit _ fun i hi => ?_
    rcases i with _ | f
    · omega
    · by_contra hbit
      have hf : f ∈ s.toFinset := mem_toFinset.mpr (Bool.not_eq_false _ ▸ hbit)
      have hlt := Finset.mem_range.mp (h hf)
      omega
  · intro h f hf
    rw [Finset.mem_range]
    by_contra hle
    have hpow : 2 ^ (maxFactors + 1) ≤ 2 ^ (f + 1) := Nat.pow_le_pow_right Nat.two_pos (by omega)
    have hbit : s.bits.toNat.testBit (f + 1) = true := mem_toFinset.mp hf
    rw [Nat.testBit_lt_two_pow (h.trans_le hpow)] at hbit
    cases hbit

/-! ## Sources from listed factors -/

theorem lt_of_mem_factors (h : f ∈ s.factors) : f < maxFactors :=
  (mem_listed.mp (List.mem_toFinset.mpr h)).2

/-- Factors make a source if each of them can be listed. -/
theorem ofFactors_eq_ok_iff {factors : List ℕ} :
    ofFactors factors = .ok s ↔ (∀ f ∈ factors, f < maxFactors) ∧ span factors = s := by
  have hnone : factors.find? (fun f => maxFactors ≤ f) = none ↔ ∀ f ∈ factors, f < maxFactors := by
    rw [List.find?_eq_none]
    exact forall₂_congr fun f _ => by rw [decide_eq_true_iff, not_le]
  rw [← hnone, ofFactors]
  cases factors.find? fun f => maxFactors ≤ f with
  | none => simp
  | some f => simp

theorem ofFactors_factors (s : Source) : ofFactors s.factors = .ok (span s.factors) :=
  ofFactors_eq_ok_iff.mpr ⟨fun _ hf => lt_of_mem_factors hf, rfl⟩

/-- The source of factors that can be listed lists them and has no others. -/
theorem toFinset_span_of_lt {factors : List ℕ} (h : ∀ f ∈ factors, f < maxFactors) :
    (span factors).toFinset = factors.toFinset :=
  toFinset_span fun f hf => (h f hf).trans (by decide)

theorem toFinset_span_factors (s : Source) : (span s.factors).toFinset = s.listed :=
  toFinset_span_of_lt fun _ hf => lt_of_mem_factors hf

theorem span_factors_eq_iff : span s.factors = s ↔ s.unlisted = ∅ := by
  rw [← toFinset_injective.eq_iff, toFinset_span_factors, unlisted_eq_empty_iff_subset]
  constructor
  · intro h f hf
    rw [← h] at hf
    exact Finset.mem_range.mpr (mem_listed.mp hf).2
  · intro h
    ext f
    rw [mem_listed]
    exact and_iff_left_of_imp fun hf => Finset.mem_range.mp (h hf)

/-- The sources that are made by naming factors or as the sources of a design, and by the operations
from these. -/
inductive Checked : Source → Prop
  | ofFactors {factors : List ℕ} {s : Source} (h : Source.ofFactors factors = .ok s) : Checked s
  | enumerate {k : ℕ} {sources : List Source} {s : Source} (h : Source.enumerate k = .ok sources)
      (hs : s ∈ sources) : Checked s
  | union {s t : Source} (hs : Checked s) (ht : Checked t) : Checked (s.union t)
  | intersection {s t : Source} (hs : Checked s) (ht : Checked t) : Checked (s.intersection t)
  | difference {s t : Source} (hs : Checked s) (ht : Checked t) : Checked (s.difference t)

theorem Checked.subset_range (h : s.Checked) : s.toFinset ⊆ Finset.range maxFactors := by
  induction h with
  | @ofFactors factors s h =>
    obtain ⟨hlt, rfl⟩ := ofFactors_eq_ok_iff.mp h
    rw [toFinset_span_of_lt hlt]
    intro f hf
    exact Finset.mem_range.mpr (hlt f (List.mem_toFinset.mp hf))
  | @enumerate k sources s h hs =>
    rw [Source.enumerate] at h
    split at h
    · next hk =>
      rw [← Except.ok.inj h, mem_all (hk.trans (by decide))] at hs
      exact hs.1.trans (Finset.range_subset_range.mpr hk)
    · cases h
  | union hs ht ihs iht =>
    rw [toFinset_union]
    exact Finset.union_subset ihs iht
  | intersection hs ht ihs iht =>
    rw [toFinset_intersection]
    exact Finset.inter_subset_left.trans ihs
  | difference hs ht ihs iht =>
    rw [toFinset_difference]
    exact Finset.sdiff_subset.trans ihs

/-- The constructors that check their factors make the sources without unlisted factors. -/
theorem checked_iff : s.Checked ↔ s.unlisted = ∅ := by
  constructor
  · intro h
    exact unlisted_eq_empty_iff_subset.mpr h.subset_range
  · intro h
    have hself : Source.ofFactors s.factors = .ok s := by
      rw [ofFactors_factors, span_factors_eq_iff.mpr h]
    exact .ofFactors hself

/-! ## Reading a source as its listed factors -/

/-- The operations on a source, next to another one, are those on the sets of their listed
factors. -/
structure ActsAsListed (s t : Source) : Prop where
  isSubsetOf_iff : s.isSubsetOf t = true ↔ s.listed ⊆ t.listed
  isProperSubsetOf_iff : s.isProperSubsetOf t = true ↔ s.listed ⊂ t.listed
  factorCount_eq : s.factorCount = s.listed.card
  isEmpty_iff : s.isEmpty = true ↔ s.listed = ∅
  ofFactors_factors : Source.ofFactors s.factors = .ok s
  kind_eq_between_iff : s.kind t = .between ↔ Disjoint s.listed t.listed
  kind_eq_within_iff : s.kind t = .within ↔ s.listed.Nonempty ∧ s.listed ⊆ t.listed
  kind_eq_mixed_iff : s.kind t = .mixed ↔
    ¬ Disjoint s.listed t.listed ∧ ¬ (s.listed.Nonempty ∧ s.listed ⊆ t.listed)

theorem ActsAsListed.unlisted_eq_empty (h : s.ActsAsListed t) : s.unlisted = ∅ := by
  have hcount := h.factorCount_eq
  rw [factorCount_eq_listed] at hcount
  exact Finset.card_eq_zero.mp (by omega)

theorem actsAsListed_of_unlisted_eq_empty (hs : s.unlisted = ∅) (ht : t.unlisted = ∅) :
    s.ActsAsListed t := by
  have hbetween : s.kind t = .between ↔ Disjoint s.listed t.listed := by
    rw [kind_eq_between_iff_listed, hs]
    exact and_iff_left (Finset.disjoint_empty_left _)
  have hwithin : s.kind t = .within ↔ s.listed.Nonempty ∧ s.listed ⊆ t.listed := by
    rw [kind_eq_within_iff_listed, hs, Finset.nonempty_iff_ne_empty]
    exact and_congr (not_congr (and_iff_left rfl)) (and_iff_left (Finset.empty_subset _))
  refine ⟨?_, ?_, ?_, ?_, ?_, hbetween, hwithin, ?_⟩
  · rw [isSubsetOf_iff_listed, hs]
    exact and_iff_left (Finset.empty_subset _)
  · rw [isProperSubsetOf_iff_listed, hs, ht, Finset.ssubset_def]
    exact and_congr (and_iff_left (Finset.empty_subset _))
      (not_congr (and_iff_left (Finset.empty_subset _)))
  · rw [factorCount_eq_listed, hs, Finset.card_empty, Nat.add_zero]
  · rw [isEmpty_iff_listed, hs]
    exact and_iff_left rfl
  · rw [ofFactors_factors, span_factors_eq_iff.mpr hs]
  · rw [kind_eq_mixed_iff_not, Ne, Ne, hbetween, hwithin]

/-- **What a source shares with the set of its listed factors.**  For every two sources, whatever
words they are made of: a factor is contained in a source exactly if it is listed, and union,
intersection and difference list the union, the intersection and the difference of the listed
factors.  The other operations see the unlisted factors as well: the tests hold of both parts, the
count is that of both, and the listed factors make a source of their own.  So all operations on both
sources are those on their listed factors exactly if neither has other factors, that is, if their
words have no more than seventeen bits, or if they come from constructors that check their
factors. -/
theorem actsAsListed_iff (s t : Source) :
    (∀ f, s.contains f = true ↔ f ∈ s.listed) ∧
    (s.union t).listed = s.listed ∪ t.listed ∧
    (s.intersection t).listed = s.listed ∩ t.listed ∧
    (s.difference t).listed = s.listed \ t.listed ∧
    (s.isSubsetOf t = true ↔ s.listed ⊆ t.listed ∧ s.unlisted ⊆ t.unlisted) ∧
    (s.isProperSubsetOf t = true ↔ (s.listed ⊆ t.listed ∧ s.unlisted ⊆ t.unlisted) ∧
      ¬ (t.listed ⊆ s.listed ∧ t.unlisted ⊆ s.unlisted)) ∧
    s.factorCount = s.listed.card + s.unlisted.card ∧
    (s.isEmpty = true ↔ s.listed = ∅ ∧ s.unlisted = ∅) ∧
    (Source.ofFactors s.factors = .ok (span s.factors) ∧
      (span s.factors).listed = s.listed ∧ (span s.factors).unlisted = ∅) ∧
    (s.kind t = .between ↔ Disjoint s.listed t.listed ∧ Disjoint s.unlisted t.unlisted) ∧
    (s.kind t = .within ↔
      ¬ (s.listed = ∅ ∧ s.unlisted = ∅) ∧ s.listed ⊆ t.listed ∧ s.unlisted ⊆ t.unlisted) ∧
    (s.kind t = .mixed ↔ s.kind t ≠ .between ∧ s.kind t ≠ .within) ∧
    (s.ActsAsListed t ∧ t.ActsAsListed s ↔ s.unlisted = ∅ ∧ t.unlisted = ∅) ∧
    (s.unlisted = ∅ ↔ s.bits.toNat < 2 ^ 17) ∧
    (s.unlisted = ∅ ↔ s.Checked) := by
  have hspan : (span s.factors).Checked := .ofFactors (ofFactors_factors s)
  refine ⟨fun f => ?_, listed_union s t, listed_intersection s t, listed_difference s t,
    isSubsetOf_iff_listed, isProperSubsetOf_iff_listed, factorCount_eq_listed s, isEmpty_iff_listed,
    ⟨ofFactors_factors s, ?_, checked_iff.mp hspan⟩, kind_eq_between_iff_listed,
    kind_eq_within_iff_listed, kind_eq_mixed_iff_not s t, ?_, unlisted_eq_empty_iff_lt,
    checked_iff.symm⟩
  · rw [listed, List.mem_toFinset, mem_factors]
  · ext f
    rw [mem_listed, toFinset_span_factors]
    exact and_iff_left_of_imp fun hf => (mem_listed.mp hf).2
  · constructor
    · rintro ⟨hs, ht⟩
      exact ⟨hs.unlisted_eq_empty, ht.unlisted_eq_empty⟩
    · rintro ⟨hs, ht⟩
      exact ⟨actsAsListed_of_unlisted_eq_empty hs ht, actsAsListed_of_unlisted_eq_empty ht hs⟩

/-- The word with the bits 0 and 17 lists no factor.  But it is not empty, it has one factor, and it
is not a subset of the source without factors. -/
theorem unlisted_factor_counts :
    let s := ofBits 131073
    s.factors = [] ∧ s.isEmpty = false ∧ s.factorCount = 1 ∧ s.isSubsetOf (ofBits 1) = false ∧
      Source.ofFactors s.factors = .ok (ofBits 1) ∧
      ¬ (s.ActsAsListed (ofBits 1) ∧ (ofBits 1).ActsAsListed s) := by
  intro s
  obtain ⟨-, -, -, -, -, -, -, -, ⟨hfactors, -, -⟩, -, -, -, hacts, hbits, -⟩ :=
    actsAsListed_iff s (ofBits 1)
  refine ⟨by decide, by decide, by decide, by decide, ?_, ?_⟩
  · rw [hfactors]
    exact congrArg Except.ok (by decide)
  · rw [hacts, hbits]
    rintro ⟨hlt, -⟩
    revert hlt
    decide

end Source

end SplitPlot
