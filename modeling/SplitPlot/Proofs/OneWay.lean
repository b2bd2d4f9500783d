import Mathlib
import SplitPlot.OneWay
import SplitPlot.Proofs.Exact

/-!
# The one-way analysis in exact arithmetic

The one-way analysis works with raw sums and a correction.  In exact arithmetic these are the sums
of squares that they stand for: those of the scores about the means of their groups (`ssWithin_eq`),
and those of the group means about the mean of all scores, each counted as often as its group has
scores (`ssBetween_eq`).  So neither is negative, although the former is formed as a difference, and
it is positive exactly if the scores of some group vary (`ssWithin_pos_iff`).  The analysis is
refused for too few groups or scores and for nothing else (`ofGroups?_eq_none_iff`).

Neither the order of the groups nor that of the scores of a group matters
(`SameGroups.ofGroups?_eq`).
-/

namespace SplitPlot

/-! ## Squares about a number -/

theorem sum_map_sub_sq (l : List ℝ) (c : ℝ) : (l.map fun v => (v - c) ^ 2).sum =
    (l.map fun v => v * v).sum - 2 * c * l.sum + l.length * c ^ 2 := by
  induction l with
  | nil => simp
  | cons v l ih =>
    rw [List.map_cons, List.sum_cons, ih, List.map_cons, List.sum_cons, List.sum_cons,
      List.length_cons, Nat.cast_add, Nat.cast_one]
    ring

theorem sum_map_sub_sq_nonneg (l : List ℝ) (c : ℝ) : 0 ≤ (l.map fun v => (v - c) ^ 2).sum :=
  List.sum_nonneg (List.forall_mem_map.mpr fun _ _ => sq_nonneg _)

/-- A sum of numbers none of which is negative is zero only if each of them is. -/
theorem forall_eq_zero_of_sum_map {α : Type} {l : List α} {f : α → ℝ} (hf : ∀ a ∈ l, 0 ≤ f a)
    (h : (l.map f).sum = 0) : ∀ a ∈ l, f a = 0 := fun _ ha =>
  List.all_zero_of_le_zero_le_of_sum_eq_zero (List.forall_mem_map.mpr hf) h (List.mem_map_of_mem ha)

theorem length_mul_mean {l : List ℝ} (h : l ≠ []) : l.length * mean l = l.sum := by
  have hlength : (l.length : ℝ) ≠ 0 := Nat.cast_ne_zero.mpr (mt List.length_eq_zero_iff.mp h)
  rw [mean_eq, mul_div_cancel₀ _ hlength]

/-- The squares of numbers about their mean. -/
theorem sum_map_sub_mean_sq {l : List ℝ} (h : l ≠ []) :
    (l.map fun v => (v - mean l) ^ 2).sum =
      (l.map fun v => v * v).sum - l.sum * l.sum / l.length := by
  have hlength : (l.length : ℝ) ≠ 0 := Nat.cast_ne_zero.mpr (mt List.length_eq_zero_iff.mp h)
  rw [sum_map_sub_sq, mean_eq]
  field_simp
  ring

/-- The mean of equal numbers is that number. -/
theorem mean_of_forall_eq {l : List ℝ} {c : ℝ} (hne : l ≠ []) (h : ∀ x ∈ l, x = c) :
    mean l = c := by
  have hlength : (l.length : ℝ) ≠ 0 := Nat.cast_ne_zero.mpr (mt List.length_eq_zero_iff.mp hne)
  have hsum : l.sum = l.length * c := by
    rw [List.sum_eq_card_nsmul l c h, nsmul_eq_mul]
  rw [mean_eq, hsum, mul_div_cancel_left₀ _ hlength]

theorem mean_perm {l l' : List ℝ} (h : l.Perm l') : mean l = mean l' := by
  rw [mean_eq, mean_eq, h.sum_eq, h.length_eq]

theorem harmonicMean_perm {l l' : List ℝ} (h : l.Perm l') : harmonicMean l = harmonicMean l' := by
  unfold harmonicMean
  rw [h.any_eq, total_eq_sum, total_eq_sum, (h.map _).sum_eq, h.length_eq, h.isEmpty_eq]

namespace OneWay

variable {groups groups' : List (List ℝ)}

/-- The squares of the group means about the mean of all scores, each counted as often as the groups
have scores on harmonic average. -/
noncomputable def ssHarmonic (groups : List (List ℝ)) : ℝ :=
  harmonicMean (groups.map fun g => (g.length : ℝ)) *
    (groups.map fun g => (mean g - mean groups.flatten) ^ 2).sum

/-! ## The order of the scores -/

/-- The same scores in the same groups.  Neither the order of the groups nor that of the scores of a
group need be the same. -/
def SameGroups (groups groups' : List (List ℝ)) : Prop :=
  (groups.map Multiset.ofList).Perm (groups'.map Multiset.ofList)

namespace SameGroups

variable (h : SameGroups groups groups')

include h

/-- What does not depend on the order inside a group has the same values on the groups. -/
theorem map_perm {β : Type} {f : List ℝ → β} (hf : ∀ g g', g.Perm g' → f g = f g') :
    (groups.map f).Perm (groups'.map f) := by
  let lift : Multiset ℝ → β := Quot.lift f hf
  have hlift := List.Perm.map lift h
  rwa [List.map_map, List.map_map] at hlift

theorem flatten_perm : groups.flatten.Perm groups'.flatten := by
  rw [← Multiset.coe_eq_coe, ← Multiset.coe_join, ← Multiset.coe_join]
  exact congrArg Multiset.join (Multiset.coe_eq_coe.mpr h)

theorem length_eq : groups.length = groups'.length := by
  have hlength := List.Perm.length_eq h
  rwa [List.length_map, List.length_map] at hlength

theorem correction_eq : correction groups = correction groups' := by
  rw [correction, correction, total_eq_sum, total_eq_sum, h.flatten_perm.sum_eq,
    h.flatten_perm.length_eq]

theorem ssBetween_eq : ssBetween groups = ssBetween groups' := by
  have hmap : (groups.map fun g => total g * total g / (g.length : ℝ)).sum =
      (groups'.map fun g => total g * total g / (g.length : ℝ)).sum :=
    (h.map_perm fun g g' hg => by
      rw [total_eq_sum, total_eq_sum, hg.sum_eq, hg.length_eq]).sum_eq
  rw [ssBetween, ssBetween, h.correction_eq, total_eq_sum, total_eq_sum, hmap]

theorem ssWithin_eq : ssWithin groups = ssWithin groups' := by
  rw [ssWithin, ssWithin, h.ssBetween_eq, ssTotal, ssTotal, h.correction_eq, total_eq_sum,
    total_eq_sum, (h.flatten_perm.map _).sum_eq]

theorem ssHarmonic_eq : ssHarmonic groups = ssHarmonic groups' := by
  have hsizes := h.map_perm fun g g' hg => congrArg (Nat.cast (R := ℝ)) hg.length_eq
  have hsquares := h.map_perm fun g g' hg =>
    congrArg (fun m => (m - mean groups'.flatten) ^ 2) (mean_perm hg)
  rw [ssHarmonic, ssHarmonic, mean_perm h.flatten_perm, harmonicMean_perm hsizes, hsquares.sum_eq]

/-- The one-way analysis does not depend on the order of the scores. -/
theorem ofGroups?_eq : ofGroups? groups = ofGroups? groups' := by
  have hempty : groups.any List.isEmpty = groups'.any List.isEmpty := by
    have hmap := (h.map_perm fun _ _ hg => hg.isEmpty_eq).any_eq (f := id)
    rwa [List.any_map, List.any_map] at hmap
  rw [ofGroups?, ofGroups?, h.ssBetween_eq, h.ssWithin_eq, h.length_eq, h.flatten_perm.length_eq,
    hempty]

end SameGroups

/-! ## Sums of squares -/

section Sums

variable (hne : ∀ g ∈ groups, g ≠ [])

include hne

/-- The sum of squares within the groups is that of the scores about the means of their groups. -/
theorem ssWithin_eq : ssWithin groups =
    (groups.map fun g => (g.map fun v => (v - mean g) ^ 2).sum).sum := by
  have hgroup : groups.map (fun g => (g.map fun v => (v - mean g) ^ 2).sum) =
      groups.map fun g => (g.map fun v => v * v).sum + -1 * (g.sum * g.sum / (g.length : ℝ)) :=
    List.map_congr_left fun g hg => by
      rw [sum_map_sub_mean_sq (hne g hg)]
      ring
  rw [hgroup, List.sum_map_add, List.sum_map_mul_left, ssWithin, ssTotal, ssBetween, total_eq_sum,
    total_eq_sum, List.map_flatten, List.sum_flatten, List.map_map]
  simp only [total_eq_sum, Function.comp_def]
  ring

/-- The sum of squares between the groups is that of their means, once for each score. -/
theorem ssBetween_eq (hpos : groups ≠ []) : ssBetween groups =
    (groups.map fun g => g.length * (mean g - mean groups.flatten) ^ 2).sum := by
  set c := mean groups.flatten with hc
  have hflatten : groups.flatten ≠ [] := by
    obtain ⟨g, hg⟩ := List.exists_mem_of_ne_nil _ hpos
    obtain ⟨v, hv⟩ := List.exists_mem_of_ne_nil _ (hne g hg)
    exact List.ne_nil_of_mem (List.mem_flatten_of_mem hg hv)
  have hn : (groups.flatten.length : ℝ) ≠ 0 :=
    Nat.cast_ne_zero.mpr (mt List.length_eq_zero_iff.mp hflatten)
  have hgroup : groups.map (fun g => g.length * (mean g - c) ^ 2) =
      groups.map fun g =>
        g.sum * g.sum / (g.length : ℝ) + (-2 * c * g.sum + c ^ 2 * (g.length : ℝ)) :=
    List.map_congr_left fun g hg => by
      have hg' : (g.length : ℝ) ≠ 0 :=
        Nat.cast_ne_zero.mpr (mt List.length_eq_zero_iff.mp (hne g hg))
      rw [mean_eq]
      field_simp
      ring
  have hlength : (groups.map fun g => (g.length : ℝ)).sum = groups.flatten.length := by
    rw [List.length_flatten, Nat.cast_list_sum, List.map_map]
    rfl
  rw [hgroup, List.sum_map_add, List.sum_map_add, List.sum_map_mul_left, List.sum_map_mul_left,
    hlength, ← List.sum_flatten, ← length_mul_mean hflatten, ← hc, ssBetween, correction,
    total_eq_sum, total_eq_sum, ← length_mul_mean hflatten, ← hc]
  simp only [total_eq_sum]
  field_simp
  ring

theorem ssBetween_nonneg (hpos : groups ≠ []) : 0 ≤ ssBetween groups := by
  rw [ssBetween_eq hne hpos]
  exact List.sum_nonneg (List.forall_mem_map.mpr fun g _ =>
    mul_nonneg (Nat.cast_nonneg _) (sq_nonneg _))

theorem ssWithin_nonneg : 0 ≤ ssWithin groups := by
  rw [ssWithin_eq hne]
  exact List.sum_nonneg (List.forall_mem_map.mpr fun g _ => sum_map_sub_sq_nonneg g _)

/-- Scores that do not vary inside the groups leave nothing within them. -/
theorem ssWithin_eq_zero (hsame : ∀ g ∈ groups, ∀ x ∈ g, ∀ y ∈ g, x = y) : ssWithin groups = 0 := by
  rw [ssWithin_eq hne]
  refine List.sum_eq_zero fun x hx => ?_
  obtain ⟨g, hg, rfl⟩ := List.mem_map.mp hx
  refine List.sum_eq_zero fun y hy => ?_
  obtain ⟨v, hv, rfl⟩ := List.mem_map.mp hy
  have hmean : mean g = v := mean_of_forall_eq (hne g hg) fun x hx => hsame g hg x hx v hv
  rw [hmean, sub_self, zero_pow two_ne_zero]

/-- Something is left within the groups exactly if the scores of one of them vary. -/
theorem ssWithin_pos_iff : 0 < ssWithin groups ↔ ∃ g ∈ groups, ∃ x ∈ g, ∃ y ∈ g, x ≠ y := by
  constructor
  · intro hpos
    by_contra! hsame
    exact hpos.ne' (ssWithin_eq_zero hne hsame)
  · rintro ⟨g, hg, x, hx, y, hy, hxy⟩
    refine (ssWithin_nonneg hne).lt_of_ne fun hzero => hxy ?_
    -- a sum of zero leaves no deviation in any group
    rw [ssWithin_eq hne] at hzero
    have hgroup := forall_eq_zero_of_sum_map (fun g _ => sum_map_sub_sq_nonneg g _) hzero.symm g hg
    have hscore := forall_eq_zero_of_sum_map (fun v _ => sq_nonneg (v - mean g)) hgroup
    have hmean : ∀ v ∈ g, v = mean g := fun v hv =>
      sub_eq_zero.mp ((pow_eq_zero_iff two_ne_zero).mp (hscore v hv))
    rw [hmean x hx, hmean y hy]

omit hne in
theorem ssHarmonic_nonneg : 0 ≤ ssHarmonic groups := by
  refine mul_nonneg (harmonicMean_nonneg (List.forall_mem_map.mpr fun g _ => Nat.cast_nonneg _)) ?_
  exact List.sum_nonneg (List.forall_mem_map.mpr fun g _ => sq_nonneg _)

/-- Groups of one size are counted as often as they have scores. -/
theorem ssHarmonic_eq_ssBetween (hpos : groups ≠ []) {m : ℕ} (hm : ∀ g ∈ groups, g.length = m) :
    ssHarmonic groups = ssBetween groups := by
  have hsize : harmonicMean (groups.map fun g => (g.length : ℝ)) = m := by
    refine harmonicMean_of_forall_eq (mt List.map_eq_nil_iff.mp hpos) fun x hx => ?_
    obtain ⟨g, hg, rfl⟩ := List.mem_map.mp hx
    rw [hm g hg]
  have hgroup : groups.map (fun g => g.length * (mean g - mean groups.flatten) ^ 2) =
      groups.map fun g => (m : ℝ) * (mean g - mean groups.flatten) ^ 2 :=
    List.map_congr_left fun g hg => by rw [hm g hg]
  rw [ssBetween_eq hne hpos, hgroup, List.sum_map_mul_left, ssHarmonic, hsize]

/-! ## The analysis -/

/-- The one-way analysis of groups that it accepts. -/
theorem exists_ofGroups? (hk : 2 ≤ groups.length) (hn : groups.length < groups.flatten.length) :
    ∃ o, ofGroups? groups = some o ∧ o.dfBetween = groups.length - 1 ∧
      o.dfWithin = groups.flatten.length - groups.length ∧
      o.f = (if 0 < ssWithin groups / o.dfWithin then
        ssBetween groups / o.dfBetween / (ssWithin groups / o.dfWithin) else 0) ∧
      o.p = fTail (o.dfBetween : ℝ) (o.dfWithin : ℝ) o.f := by
  have hany : groups.any List.isEmpty = false := by
    rw [List.any_eq_false]
    exact fun g hg => mt List.isEmpty_iff.mp (hne g hg)
  unfold ofGroups?
  simp only
  rw [if_neg]
  · exact ⟨_, rfl, rfl, rfl, rfl, rfl⟩
  · rw [hany, not_or, not_or]
    exact ⟨not_lt.mpr hk, not_le.mpr hn, Bool.false_ne_true⟩

end Sums

/-- There is no analysis of fewer than two groups, with an empty group, or without more scores than
groups. -/
theorem ofGroups?_eq_none_iff {groups : List (List ℝ)} : ofGroups? groups = none ↔
    groups.length < 2 ∨ [] ∈ groups ∨ groups.flatten.length ≤ groups.length := by
  have hany : groups.any List.isEmpty = true ↔ [] ∈ groups := by
    rw [List.any_eq_true]
    exact ⟨fun ⟨g, hg, hempty⟩ => List.isEmpty_iff.mp hempty ▸ hg, fun h => ⟨[], h, rfl⟩⟩
  rw [← hany, or_comm (a := groups.any List.isEmpty = true)]
  unfold ofGroups?
  simp only
  split
  · next h => exact iff_of_true rfl h
  · next h => exact iff_of_false (fun h' => nomatch h') h

/-- **The one-way analysis is what its definition says.**  It is refused exactly for fewer than two
groups, for an empty group, and for no more scores than groups.  Otherwise the sum of squares
between the groups is that of the group means about the mean of all scores, each counted as often as
its group has scores, and the sum of squares within them is that of the scores about the means of
their groups.  Neither is negative.  The statistic compares the two mean squares if the scores of
some group vary, and it is zero if they do not; the probability is that of the statistic. -/
theorem ofGroups?_deviations (groups : List (List ℝ)) :
    (ofGroups? groups = none ↔
      groups.length < 2 ∨ [] ∈ groups ∨ groups.flatten.length ≤ groups.length) ∧
    ∀ o, ofGroups? groups = some o →
      ssBetween groups = (groups.map fun g => g.length * (mean g - mean groups.flatten) ^ 2).sum ∧
      ssWithin groups = (groups.map fun g => (g.map fun v => (v - mean g) ^ 2).sum).sum ∧
      0 ≤ ssBetween groups ∧ 0 ≤ ssWithin groups ∧
      o.dfBetween = groups.length - 1 ∧ o.dfWithin = groups.flatten.length - groups.length ∧
      ((∃ g ∈ groups, ∃ x ∈ g, ∃ y ∈ g, x ≠ y) →
        o.f = ssBetween groups / ((groups.length : ℝ) - 1) /
          (ssWithin groups / ((groups.flatten.length : ℝ) - groups.length))) ∧
      ((∀ g ∈ groups, ∀ x ∈ g, ∀ y ∈ g, x = y) → o.f = 0) ∧
      o.p = fTail (o.dfBetween : ℝ) (o.dfWithin : ℝ) o.f := by
  refine ⟨ofGroups?_eq_none_iff, fun o ho => ?_⟩
  have haccepted := mt ofGroups?_eq_none_iff.mpr (ho ▸ Option.some_ne_none o)
  push Not at haccepted
  obtain ⟨hk, hempty, hn⟩ := haccepted
  have hne : ∀ g ∈ groups, g ≠ [] := fun g hg h => hempty (h ▸ hg)
  have hpos : groups ≠ [] := List.ne_nil_of_length_pos (by omega)
  obtain ⟨o', ho', hbetween, hwithin, hf, hp⟩ := exists_ofGroups? hne hk hn
  obtain rfl := Option.some.inj (ho.symm.trans ho')
  have hdf : (0 : ℝ) < o.dfWithin := Nat.cast_pos.mpr (by omega)
  have hvaries : 0 < ssWithin groups / o.dfWithin ↔ ∃ g ∈ groups, ∃ x ∈ g, ∃ y ∈ g, x ≠ y :=
    (div_pos_iff_of_pos_right hdf).trans (ssWithin_pos_iff hne)
  refine ⟨ssBetween_eq hne hpos, ssWithin_eq hne, ssBetween_nonneg hne hpos, ssWithin_nonneg hne,
    hbetween, hwithin, fun hvary => ?_, fun hsame => ?_, hp⟩
  · rw [hf, if_pos (hvaries.mpr hvary), hbetween, hwithin, Nat.cast_sub (by omega),
      Nat.cast_sub hn.le, Nat.cast_one]
  · refine hf.trans (if_neg (mt hvaries.mp ?_))
    push Not
    exact hsame

/-- Three groups whose means are 10, 12 and 14.  The statistic is 10; a single group is refused, and
so are two groups of one score each. -/
theorem ofGroups?_threeMeans :
    (∃ o : OneWay ℝ, ofGroups? [[8, 10, 10, 10, 12], [10, 12, 12, 12, 14], [12, 14, 14, 14, 16]] =
        some o ∧
      o.dfBetween = 2 ∧ o.dfWithin = 12 ∧ o.f = 10 ∧ o.p = fTail ((2 : ℕ) : ℝ) ((12 : ℕ) : ℝ) 10) ∧
    ofGroups? [[(1 : ℝ), 2]] = none ∧ ofGroups? [[(1 : ℝ)], [2]] = none := by
  obtain ⟨hnone, hsome⟩ := ofGroups?_deviations
    [[8, 10, 10, 10, 12], [10, 12, 12, 12, 14], [12, 14, 14, 14, 16]]
  refine ⟨?_, (ofGroups?_deviations _).1.mpr (.inl (by decide)),
    (ofGroups?_deviations _).1.mpr (.inr (.inr (by decide)))⟩
  obtain ⟨o, ho⟩ := Option.ne_none_iff_exists'.mp (mt hnone.mp (by simp))
  obtain ⟨hssBetween, hssWithin, -, -, hbetween, hwithin, hf, -, hp⟩ := hsome o ho
  have hten : o.f = 10 := by
    rw [hf ⟨_, List.mem_cons_self, 8, by simp, 10, by simp, by norm_num⟩, hssBetween, hssWithin]
    norm_num [mean_eq]
  exact ⟨o, ho, hbetween, hwithin, hten, by rw [hp, hten, hbetween, hwithin]; rfl⟩

end OneWay

end SplitPlot
