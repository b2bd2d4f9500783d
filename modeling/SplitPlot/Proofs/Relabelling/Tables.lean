import Mathlib
import SplitPlot.Proofs.Design.Decoding
import SplitPlot.Proofs.Relabelling.Designs

/-!
# Rewritten tables

A table is rewritten row by row: the columns of the factors are put in another order, subjects and
levels are given other names, and the values another scale.  As long as different names stay
different (`Rewriting.subject_inj`, `Rewriting.level_inj`), nothing is lost.  Two rows of the new
table have a subject, a level or a key in common exactly when the rows they come from have.

So the new table is crossed if the old one is (`Rewriting.crossed`), it is accepted if the old one
is (`Rewriting.exists_ofTable`), and the two designs are relabelled ones (`Rewriting.relabelling`).
The ascending lists of names are where the order of the names enters: the new place of a name is
where its new name stands among the new names (`newPlace`).
-/

namespace SplitPlot

open Finset

/-! ## New places of names -/

/-- The place in a list of names of the new name for a name at a place of another list. -/
def newPlace (φ : Level → Level) (l l' : List Level) (i : ℕ) : ℕ := l'.idxOf (φ (l.getD i default))

/-- A list holds the new names of another, and neither repeats a name. -/
structure Renames (φ : Level → Level) (l l' : List Level) : Prop where
  nodup : l.Nodup
  nodup' : l'.Nodup
  mem_iff : ∀ b, b ∈ l' ↔ ∃ a ∈ l, φ a = b
  inj : ∀ a ∈ l, ∀ b ∈ l, φ a = φ b → a = b

namespace Renames

variable {φ : Level → Level} {l l' : List Level} (h : Renames φ l l')

include h

theorem mem {a : Level} (ha : a ∈ l) : φ a ∈ l' := (h.mem_iff _).mpr ⟨a, ha, rfl⟩

theorem length_eq : l'.length = l.length := by
  have hperm : l'.Perm (l.map φ) := by
    refine (List.perm_ext_iff_of_nodup h.nodup' (h.nodup.map_on h.inj)).mpr fun b => ?_
    rw [h.mem_iff, List.mem_map]
  rw [hperm.length_eq, List.length_map]

omit h in
theorem getD_mem {i : ℕ} (hi : i < l.length) : l.getD i default ∈ l := by
  rw [List.getD_eq_getElem _ _ hi]
  exact List.getElem_mem hi

theorem newPlace_lt {i : ℕ} (hi : i < l.length) : newPlace φ l l' i < l.length := by
  rw [← h.length_eq]
  exact List.idxOf_lt_length_of_mem (h.mem (getD_mem hi))

theorem newPlace_inj {i j : ℕ} (hi : i < l.length) (hj : j < l.length)
    (heq : newPlace φ l l' i = newPlace φ l l' j) : i = j := by
  have hname := h.inj _ (getD_mem hi) _ (getD_mem hj)
    ((List.idxOf_inj (h.mem (getD_mem hi))).mp heq)
  rw [List.getD_eq_getElem _ _ hi, List.getD_eq_getElem _ _ hj] at hname
  exact (h.nodup.getElem_inj_iff).mp hname

omit h in
theorem newPlace_idxOf {a : Level} (ha : a ∈ l) : newPlace φ l l' (l.idxOf a) = l'.idxOf (φ a) := by
  have hlt : l.idxOf a < l.length := List.idxOf_lt_length_of_mem ha
  rw [newPlace, List.getD_eq_getElem _ _ hlt, List.getElem_idxOf hlt]

omit h in
/-- Where every name is kept, so is every place. -/
theorem newPlace_self (hnodup : l.Nodup) (hφ : ∀ a ∈ l, φ a = a) {i : ℕ} (hi : i < l.length) :
    newPlace φ l l i = i := by
  rw [newPlace, hφ _ (getD_mem hi), List.getD_eq_getElem _ _ hi]
  exact hnodup.idxOf_getElem i hi

end Renames

/-! ## Rewriting the rows of a table -/

theorem mean_map_affine {l : List ℝ} (hne : l ≠ []) (a b : ℝ) :
    mean (l.map (a * · + b)) = a * mean l + b := by
  have hlen : (l.length : ℝ) ≠ 0 := Nat.cast_ne_zero.mpr (mt List.length_eq_zero_iff.mp hne)
  rw [mean_eq, mean_eq, List.length_map, List.sum_map_add, List.sum_map_mul_left, List.map_id',
    List.map_const', List.sum_replicate, nsmul_eq_mul, add_div, mul_div_assoc,
    mul_div_cancel_left₀ _ hlen]

/-- A table is another one with each row rewritten. -/
structure Rewriting (t t' : ObservationTable ℝ) where
  /-- The row that a row becomes. -/
  row : Observation ℝ → Observation ℝ
  /-- The column that the column of a factor becomes. -/
  factor : Equiv.Perm ℕ
  /-- The new name of a subject. -/
  subject : Level → Level
  /-- The new name of a level of a factor. -/
  level : ℕ → Level → Level
  /-- What values are multiplied by. -/
  scale : ℝ
  /-- What is added to values. -/
  shift : ℝ
  rows_eq : t'.rows = t.rows.map row
  factorCount_eq : t'.factorCount = t.factorCount
  factor_lt : ∀ f, factor f < t.factorCount ↔ f < t.factorCount
  subject_row : ∀ r ∈ t.rows, (row r).subject = subject r.subject
  level_row : ∀ r ∈ t.rows, ∀ f, (row r).levels[factor f]? = (r.levels[f]?).map (level f)
  value_row : ∀ r ∈ t.rows, (row r).value = scale * r.value + shift
  subject_inj : ∀ r ∈ t.rows, ∀ q ∈ t.rows, subject r.subject = subject q.subject →
    r.subject = q.subject
  level_inj : ∀ f l m, Occurs t.rows f l → Occurs t.rows f m → level f l = level f m → l = m

namespace Rewriting

variable {t t' : ObservationTable ℝ} (w : Rewriting t t')

/-- Factors that stay in their columns stay in the table. -/
theorem one_apply_lt (f : ℕ) : (1 : Equiv.Perm ℕ) f < t.factorCount ↔ f < t.factorCount := Iff.rfl

theorem row_mem {r : Observation ℝ} (hr : r ∈ t.rows) : w.row r ∈ t'.rows := by
  rw [w.rows_eq]
  exact List.mem_map_of_mem hr

theorem exists_row {r' : Observation ℝ} (hr' : r' ∈ t'.rows) : ∃ r ∈ t.rows, w.row r = r' := by
  rw [w.rows_eq] at hr'
  exact List.mem_map.mp hr'

theorem subject_row_eq_iff {r q : Observation ℝ} (hr : r ∈ t.rows) (hq : q ∈ t.rows) :
    (w.row r).subject = (w.row q).subject ↔ r.subject = q.subject := by
  rw [w.subject_row r hr, w.subject_row q hq]
  exact ⟨w.subject_inj r hr q hq, congrArg _⟩

theorem level_row_eq_iff {r q : Observation ℝ} (hr : r ∈ t.rows) (hq : q ∈ t.rows) (f : ℕ) :
    (w.row r).levels[w.factor f]? = (w.row q).levels[w.factor f]? ↔
      r.levels[f]? = q.levels[f]? := by
  rw [w.level_row r hr, w.level_row q hq]
  refine ⟨fun h => ?_, congrArg _⟩
  cases hl : r.levels[f]? with
  | none =>
    rw [hl, Option.map_none, eq_comm, Option.map_eq_none_iff] at h
    exact h.symm
  | some l =>
    rw [hl, Option.map_some, eq_comm, Option.map_eq_some_iff] at h
    obtain ⟨m, hm, heq⟩ := h
    rw [hm, w.level_inj f m l ⟨q, hq, hm⟩ ⟨r, hr, hl⟩ heq]

theorem key_row_eq_iff {r q : Observation ℝ} (hr : r ∈ t.rows) (hq : q ∈ t.rows) :
    (w.row r).key = (w.row q).key ↔ r.key = q.key := by
  have hlevels : (w.row r).levels = (w.row q).levels ↔ r.levels = q.levels := by
    rw [List.ext_getElem?_iff, List.ext_getElem?_iff, ← w.factor.forall_congr_right]
    exact forall_congr' fun f => w.level_row_eq_iff hr hq f
  rw [Observation.key, Observation.key, List.cons_eq_cons, w.subject_row_eq_iff hr hq, hlevels]
  exact List.cons_eq_cons.symm

/-! ## Crossed rows -/

/-- The levels that occur are the new names of those that occurred. -/
theorem occurs_iff (f : ℕ) (m : Level) :
    Occurs t'.rows (w.factor f) m ↔ ∃ l, Occurs t.rows f l ∧ w.level f l = m := by
  constructor
  · rintro ⟨r', hr', hm⟩
    obtain ⟨r, hr, rfl⟩ := w.exists_row hr'
    rw [w.level_row r hr, Option.map_eq_some_iff] at hm
    obtain ⟨l, hl, heq⟩ := hm
    exact ⟨l, ⟨r, hr, hl⟩, heq⟩
  · rintro ⟨l, ⟨r, hr, hl⟩, rfl⟩
    exact ⟨_, w.row_mem hr, by rw [w.level_row r hr, hl, Option.map_some]⟩

/-- A factor varies in the new table exactly if it varied in the old one. -/
theorem varies_iff (f : ℕ) : Varies t'.rows (w.factor f) ↔ Varies t.rows f := by
  constructor
  · rintro ⟨r', hr', q', hq', hsubject, hne⟩
    obtain ⟨r, hr, rfl⟩ := w.exists_row hr'
    obtain ⟨q, hq, rfl⟩ := w.exists_row hq'
    exact ⟨r, hr, q, hq, (w.subject_row_eq_iff hr hq).mp hsubject,
      mt (w.level_row_eq_iff hr hq f).mpr hne⟩
  · rintro ⟨r, hr, q, hq, hsubject, hne⟩
    exact ⟨_, w.row_mem hr, _, w.row_mem hq, (w.subject_row_eq_iff hr hq).mpr hsubject,
      mt (w.level_row_eq_iff hr hq f).mp hne⟩

/-- The old names of a combination of new levels. -/
theorem exists_old_levels {S : Finset ℕ} {g : ℕ → Level}
    (hg : ∀ f ∈ S.image w.factor, Occurs t'.rows f (g f)) : ∃ h : ℕ → Level,
      (∀ f ∈ S, Occurs t.rows f (h f)) ∧ ∀ f ∈ S, w.level f (h f) = g (w.factor f) := by
  have hold : ∀ f, ∃ l, f ∈ S → Occurs t.rows f l ∧ w.level f l = g (w.factor f) := by
    intro f
    by_cases hf : f ∈ S
    · obtain ⟨l, hl⟩ := (w.occurs_iff f _).mp (hg _ (mem_image_of_mem _ hf))
      exact ⟨l, fun _ => hl⟩
    · exact ⟨default, fun h => absurd h hf⟩
  choose h hh using hold
  exact ⟨h, fun f hf => (hh f hf).1, fun f hf => (hh f hf).2⟩

theorem row_has_levels {S : Finset ℕ} {g h : ℕ → Level} {r : Observation ℝ} (hr : r ∈ t.rows)
    (hlevels : ∀ f ∈ S, r.levels[f]? = some (h f))
    (hg : ∀ f ∈ S, w.level f (h f) = g (w.factor f)) :
    ∀ f ∈ S.image w.factor, (w.row r).levels[f]? = some (g f) := by
  intro f hf
  obtain ⟨e, he, rfl⟩ := mem_image.mp hf
  rw [w.level_row r hr, hlevels e he, Option.map_some, hg e he]

theorem crossed {between within : Finset ℕ} (hc : Crossed t.rows between within) :
    Crossed t'.rows (between.image w.factor) (within.image w.factor) where
  constant f hf hv := by
    obtain ⟨e, he, rfl⟩ := mem_image.mp hf
    exact hc.constant e he ((w.varies_iff e).mp hv)
  populated g hg := by
    obtain ⟨h, hh, heq⟩ := w.exists_old_levels hg
    obtain ⟨r, hr, hlevels⟩ := hc.populated h hh
    exact ⟨_, w.row_mem hr, w.row_has_levels hr hlevels heq⟩
  complete r' hr' g hg := by
    obtain ⟨r, hr, rfl⟩ := w.exists_row hr'
    obtain ⟨h, hh, heq⟩ := w.exists_old_levels hg
    obtain ⟨q, hq, hsubject, hlevels⟩ := hc.complete r hr h hh
    exact ⟨_, w.row_mem hq, (w.subject_row_eq_iff hq hr).mpr hsubject,
      w.row_has_levels hq hlevels heq⟩
  levels_le f hf := by
    obtain ⟨e, he, rfl⟩ := mem_image.mp hf
    have himage : (t'.rows.filterMap fun r => r.levels[w.factor e]?).toFinset ⊆
        (t.rows.filterMap fun r => r.levels[e]?).toFinset.image (w.level e) := by
      intro m hm
      obtain ⟨l, hl, rfl⟩ :=
        (w.occurs_iff e m).mp (List.mem_filterMap.mp (List.mem_toFinset.mp hm))
      exact mem_image_of_mem _ (List.mem_toFinset.mpr (List.mem_filterMap.mpr hl))
    exact (card_le_card himage).trans (card_image_le.trans (hc.levels_le e he))

/-- The columns of a table are permuted among one another. -/
theorem image_range : (range t.factorCount).image w.factor = range t.factorCount := by
  ext f
  rw [mem_image, mem_range]
  constructor
  · rintro ⟨e, he, rfl⟩
    exact (w.factor_lt e).mpr (mem_range.mp he)
  · intro hf
    refine ⟨w.factor.symm f, mem_range.mpr ((w.factor_lt _).mp ?_), w.factor.apply_symm_apply f⟩
    rwa [Equiv.apply_symm_apply]

include w in
/-- A rewritten table passes the first checks if the table does. -/
theorem admissible {settings settings' : Settings}
    (hnames : (settings'.resolveNames t.factorCount).length =
      (settings.resolveNames t.factorCount).length)
    (hduplicates : settings'.duplicates = settings.duplicates)
    (hadm : Design.Admissible t settings) : Design.Admissible t' settings' where
  rows_ne_nil := by
    rw [w.rows_eq, Ne, List.map_eq_nil_iff]
    exact hadm.rows_ne_nil
  one_le_factorCount := w.factorCount_eq ▸ hadm.one_le_factorCount
  factorCount_le := w.factorCount_eq ▸ hadm.factorCount_le
  length_names := by rw [w.factorCount_eq, hnames, hadm.length_names]
  nodup_of_reject hreject := by
    have hnodup := hadm.nodup_of_reject (hduplicates ▸ hreject)
    rw [w.rows_eq, List.map_map]
    refine (List.Nodup.of_map _ hnodup).map_on fun r hr q hq heq => ?_
    exact List.inj_on_of_nodup_map hnodup hr hq ((w.key_row_eq_iff hr hq).mp heq)

include w in
/-- A rewritten table is accepted if the table is. -/
theorem exists_ofTable (ht : t.Built) (ht' : t'.Built) {settings settings' : Settings}
    (hnames : (settings'.resolveNames t.factorCount).length =
      (settings.resolveNames t.factorCount).length)
    (hduplicates : settings'.duplicates = settings.duplicates) {d : Design ℝ}
    (h : Design.ofTable t settings = .ok d) : ∃ d', Design.ofTable t' settings' = .ok d' := by
  obtain ⟨hadm, -, -⟩ := (Design.ofTable_eq_ok_iff t settings d).mp h
  have hcrossed := (Design.crossed_of_ofTable ht h).congr Design.keysWithin_averages
    Design.keysWithin_rows
  refine ⟨_, Design.ofTable_of_crossed ht' (w.admissible hnames hduplicates hadm) ?_
    (w.crossed hcrossed)⟩
  rw [← image_union, Coding.union_factors, Design.factorCount_ofTable ht h, w.image_range,
    w.factorCount_eq]

/-! ## Averages -/

/-- The average of a key becomes the average of the new key. -/
theorem exists_average {r : Observation ℝ} (hr : r ∈ t.averages) : ∃ r' ∈ t'.averages,
    r'.subject = w.subject r.subject ∧
      (∀ f, r'.levels[w.factor f]? = (r.levels[f]?).map (w.level f)) ∧
        r'.value = w.scale * r.value + w.shift := by
  obtain ⟨key, hkey, rfl⟩ := List.mem_map.mp hr
  obtain ⟨q, hq, rfl⟩ := List.mem_map.mp (mem_ascending.mp hkey)
  have hvalues : ((t'.rows.filter fun o => o.key == (w.row q).key).map (·.value)) =
      ((t.rows.filter fun o => o.key == q.key).map (·.value)).map (w.scale * · + w.shift) := by
    have hfilter : (t.rows.filter fun o => (w.row o).key == (w.row q).key) =
        t.rows.filter fun o => o.key == q.key := List.filter_congr fun o ho => by
      rw [Bool.eq_iff_iff, beq_iff_eq, beq_iff_eq, w.key_row_eq_iff ho hq]
    rw [w.rows_eq, List.filter_map, List.map_map, List.map_map]
    show ((t.rows.filter fun o => (w.row o).key == (w.row q).key).map _) = _
    rw [hfilter]
    exact List.map_congr_left fun o ho => w.value_row o (List.mem_of_mem_filter ho)
  have hne : ((t.rows.filter fun o => o.key == q.key).map (·.value)) ≠ [] := by
    rw [Ne, List.map_eq_nil_iff]
    exact List.ne_nil_of_mem (List.mem_filter.mpr ⟨hq, beq_self_eq_true _⟩)
  refine ⟨t'.average (w.row q).key, ?_, w.subject_row q hq, fun f => w.level_row q hq f, ?_⟩
  · exact List.mem_map_of_mem (mem_ascending.mpr (List.mem_map_of_mem (w.row_mem hq)))
  · show mean _ = w.scale * mean _ + w.shift
    rw [hvalues, mean_map_affine hne]

end Rewriting

/-! ## The designs of a table and of the rewritten one -/

namespace Rewriting

variable {t t' : ObservationTable ℝ} (w : Rewriting t t') (ht : t.Built) (ht' : t'.Built)
  {settings settings' : Settings} {d d' : Design ℝ} (h : Design.ofTable t settings = .ok d)
  (h' : Design.ofTable t' settings' = .ok d')

include ht ht' h h'

theorem renames_subjects : Renames w.subject d.subjects d'.subjects where
  nodup := by
    rw [Design.subjects_ofTable ht h]
    exact nodup_ascending _
  nodup' := by
    rw [Design.subjects_ofTable ht' h']
    exact nodup_ascending _
  mem_iff s := by
    rw [Design.mem_subjects_ofTable ht' h']
    constructor
    · rintro ⟨r', hr', rfl⟩
      obtain ⟨r, hr, rfl⟩ := w.exists_row hr'
      exact ⟨_, (Design.mem_subjects_ofTable ht h).mpr ⟨r, hr, rfl⟩, (w.subject_row r hr).symm⟩
    · rintro ⟨_, hs, rfl⟩
      obtain ⟨r, hr, rfl⟩ := (Design.mem_subjects_ofTable ht h).mp hs
      exact ⟨_, w.row_mem hr, w.subject_row r hr⟩
  inj a ha b hb heq := by
    obtain ⟨r, hr, rfl⟩ := (Design.mem_subjects_ofTable ht h).mp ha
    obtain ⟨q, hq, rfl⟩ := (Design.mem_subjects_ofTable ht h).mp hb
    exact w.subject_inj r hr q hq heq

theorem renames_levels {f : ℕ} (hf : f < t.factorCount) :
    Renames (w.level f) (d.factor f).levels (d'.factor (w.factor f)).levels := by
  have hf' : w.factor f < t'.factorCount := w.factorCount_eq ▸ (w.factor_lt f).mpr hf
  have hold := fun {l : Level} => Design.mem_levels_ofTable ht h hf (l := l)
  have hnew := fun {l : Level} => Design.mem_levels_ofTable ht' h' hf' (l := l)
  refine ⟨?_, ?_, fun m => ?_, fun a ha b hb => w.level_inj f a b (hold.mp ha) (hold.mp hb)⟩
  · rw [Design.levels_ofTable ht h hf]
    exact nodup_columnLevels f
  · rw [Design.levels_ofTable ht' h' hf']
    exact nodup_columnLevels _
  · rw [hnew, w.occurs_iff]
    exact exists_congr fun l => and_congr_left fun _ => hold.symm

/-- The designs are relabelled ones. -/
noncomputable def relabelling : Design.Relabelling d d' where
  factor := w.factor
  subject := newPlace w.subject d.subjects d'.subjects
  level f := newPlace (w.level f) (d.factor f).levels (d'.factor (w.factor f)).levels
  scale := w.scale
  shift := w.shift
  factorCount_eq := by
    rw [Design.factorCount_ofTable ht h, Design.factorCount_ofTable ht' h', w.factorCount_eq]
  subjectCount_eq := (w.renames_subjects ht ht' h h').length_eq
  factor_lt f := by
    rw [Design.factorCount_ofTable ht h]
    exact w.factor_lt f
  within_eq f hf := by
    rw [Design.factorCount_ofTable ht h] at hf
    have hf' : w.factor f < t'.factorCount := w.factorCount_eq ▸ (w.factor_lt f).mpr hf
    rw [Bool.eq_iff_iff, Design.within_factor_iff_varies ht h hf,
      Design.within_factor_iff_varies ht' h' hf', w.varies_iff]
  levelCount_eq f hf := by
    rw [Design.factorCount_ofTable ht h] at hf
    exact (w.renames_levels ht ht' h h' hf).length_eq
  subject_lt i hi := (w.renames_subjects ht ht' h h').newPlace_lt hi
  subject_inj i hi j hj := (w.renames_subjects ht ht' h h').newPlace_inj hi hj
  level_lt f hf i hi := by
    rw [Design.factorCount_ofTable ht h] at hf
    exact (w.renames_levels ht ht' h h' hf).newPlace_lt hi
  level_inj f hf i hi j hj := by
    rw [Design.factorCount_ofTable ht h] at hf
    exact (w.renames_levels ht ht' h h' hf).newPlace_inj hi hj
  observation o ho := by
    rw [Design.observations_ofTable ht h] at ho
    obtain ⟨r, hr, rfl⟩ := List.mem_map.mp ho
    obtain ⟨r', hr', hsubject, hlevels, hvalue⟩ := w.exists_average hr
    obtain ⟨q, hq, hqr, hlevelsq⟩ := Design.keysWithin_averages r hr
    refine ⟨code t'.averages (settings'.resolveNames t'.factorCount) r', ?_, ?_, fun f hf => ?_,
      hvalue⟩
    · rw [Design.observations_ofTable ht' h']
      exact List.mem_map_of_mem hr'
    · have hmem : r.subject ∈ d.subjects := (Design.mem_subjects_ofTable ht h).mpr ⟨q, hq, hqr⟩
      rw [Design.subject_code_ofTable ht h, Design.subject_code_ofTable ht' h', hsubject,
        Renames.newPlace_idxOf hmem]
    · rw [Design.factorCount_ofTable ht h] at hf
      have hf' : w.factor f < t'.factorCount := w.factorCount_eq ▸ (w.factor_lt f).mpr hf
      have hlen := Design.length_levels_averages ht r hr
      have hget := List.getElem?_eq_getElem (l := r.levels) (i := f) (hlen ▸ hf)
      have hget' := hlevels f
      rw [hget, Option.map_some] at hget'
      have hmem := (Design.mem_levels_ofTable ht h hf).mpr ⟨q, hq, by rw [hlevelsq, hget]⟩
      rw [Design.levels_code_ofTable ht h hf hget, Design.levels_code_ofTable ht' h' hf' hget',
        Renames.newPlace_idxOf hmem]

end Rewriting

end SplitPlot
