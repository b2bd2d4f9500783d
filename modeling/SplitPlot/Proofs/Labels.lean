import Mathlib
import SplitPlot.Proofs.Totality

/-!
# Labels

The label of a source is made from the names of its factors with a multiplication sign between any
two of them.  The names come from whoever asks for the analysis, so two sources may well have one
label: the factors `A`, `B` and `A×B` do not tell the third main effect from the first interaction.

They have different labels if the names are distinct and none of them contains the sign.  A label
can be read back then (`Source.readLabel_label`): cut at the signs it falls into the names of the
factors, and the place of a name among all names is the factor.  One of the names may be empty.  A
source has at least one factor, so the number of pieces is the number of its factors even then.

A result is looked up by its label with a search from the front, which finds the first result with
that label.  If the labels are distinct there is only one, and it is the one that the search by
halving finds under its source.
-/

namespace SplitPlot

namespace Source

/-! ## Reading a label -/

theorem toList_label (s : Source) (names : List String) : (s.label names).toList =
    ['×'].intercalate (s.factors.map fun f => (names.getD f s!"F{f + 1}").toList) := by
  rw [label, String.toList_intercalate, List.map_map]
  rfl

/-- The factors whose names stand between the multiplication signs of a text. -/
def readLabel (names : List String) (text : String) : List ℕ :=
  (text.toList.splitOn '×').map fun piece => names.idxOf (String.ofList piece)

section Readable

variable {names : List String} (hnodup : names.Nodup) (hfree : ∀ name ∈ names, '×' ∉ name.toList)

include hnodup hfree

/-- The label of a source is read as the list of its factors. -/
theorem readLabel_label {s : Source} (hlt : ∀ f ∈ s.factors, f < names.length)
    (hne : s.factors ≠ []) : readLabel names (s.label names) = s.factors := by
  have hpieces : (s.label names).toList.splitOn '×' =
      s.factors.map fun f => (names.getD f s!"F{f + 1}").toList := by
    rw [toList_label]
    refine List.splitOn_intercalate '×' (List.forall_mem_map.mpr fun f hf => ?_)
      (mt List.map_eq_nil_iff.mp hne)
    rw [List.getD_eq_getElem _ _ (hlt f hf)]
    exact hfree _ (List.getElem_mem _)
  rw [readLabel, hpieces, List.map_map]
  refine (List.map_congr_left fun f hf => ?_).trans (List.map_id _)
  show names.idxOf (String.ofList (names.getD f _).toList) = f
  rw [String.ofList_toList, List.getD_eq_getElem _ _ (hlt f hf), hnodup.idxOf_getElem]

/-- Distinct sources of a design have distinct labels. -/
theorem label_injOn (hlength : names.length ≤ maxFactors) :
    Set.InjOn (label · names) {s | s ∈ all names.length} := by
  have hread : ∀ s ∈ all names.length, s.factors.toFinset = s.toFinset ∧
      readLabel names (s.label names) = s.factors := fun s hs => by
    obtain ⟨hsub, hne⟩ := (mem_all (hlength.trans (by decide))).mp hs
    have hset := toFinset_factors (hsub.trans (Finset.range_subset_range.mpr hlength))
    refine ⟨hset, readLabel_label hnodup hfree (fun f hf => ?_) fun hnil => hne.ne_empty ?_⟩
    · exact Finset.mem_range.mp (hsub (hset ▸ List.mem_toFinset.mpr hf))
    · rw [← hset, hnil, List.toFinset_nil]
  intro s hs t ht heq
  obtain ⟨hsset, hsread⟩ := hread s hs
  obtain ⟨htset, htread⟩ := hread t ht
  refine toFinset_injective ?_
  rw [← hsset, ← htset, ← hsread, ← htread]
  exact congrArg (fun text => (readLabel names text).toFinset) heq

end Readable

/-- Without these conditions a main effect and an interaction can have the same label. -/
example : label (.span [2]) ["A", "B", "A×B"] = label (.span [0, 1]) ["A", "B", "A×B"] := by decide

end Source

variable {K : Type}

namespace AnovaTable

/-! ## The first result with a label -/

variable {t : AnovaTable K}

/-- Among results with distinct labels exactly the result with a label is found under it. -/
theorem get?_eq_some_iff (h : (t.results.map (·.label)).Nodup) {text : String}
    {r : SourceResult K} : t.get? text = some r ↔ r ∈ t.results ∧ r.label = text := by
  have hfound : ∀ {r}, t.get? text = some r → r ∈ t.results ∧ r.label = text := fun {r} hr => by
    rw [get?] at hr
    exact ⟨List.mem_of_find?_eq_some hr, by simpa using List.find?_some hr⟩
  refine ⟨hfound, fun ⟨hr, hlabel⟩ => ?_⟩
  cases hget : t.get? text with
  | none => exact absurd hlabel (by simpa using List.find?_eq_none.mp hget r hr)
  | some r' =>
    obtain ⟨hr', hlabel'⟩ := hfound hget
    rw [List.inj_on_of_nodup_map h hr' hr (hlabel'.trans hlabel.symm)]

/-- A text that is no label finds nothing. -/
theorem get?_eq_none_iff {text : String} :
    t.get? text = none ↔ ∀ r ∈ t.results, r.label ≠ text := by
  simp [get?]

end AnovaTable

/-! ## The labels of a design -/

variable [Scalar K]

namespace Design

variable {d : Design K}

theorem label_resultOf (settings : Settings) (s : Source) :
    (d.resultOf settings s).label = s.label d.factorNames := by
  show (d.outcome s).source.label d.factorNames = _
  rw [source_outcome]

/-- The factors of a design have the names that the settings give. -/
theorem factorNames_ofTable {t : ObservationTable K} (ht : t.Built) {settings : Settings}
    (h : ofTable t settings = .ok d) : d.factorNames = settings.resolveNames t.factorCount := by
  rw [eq_of_ofTable ht h]
  show ((settings.resolveNames t.factorCount).zipIdx.map _).map _ = _
  rw [List.map_map]
  exact List.zipIdx_map_fst 0 _

namespace Accepted

variable (hd : d.Accepted) (settings : Settings)

include hd

/-- If the labels of the sources are distinct, the result of a source is the one that is found under
its label. -/
theorem get?_label_table
    (hinj : Set.InjOn (Source.label · d.factorNames) {s | s ∈ Source.all d.factorCount})
    {s : Source} (hs : s ∈ Source.all d.factorCount) :
    (d.table settings).get? (s.label d.factorNames) = some (d.resultOf settings s) := by
  have hlabels : (d.table settings).results.map (·.label) =
      (Source.all d.factorCount).map (·.label d.factorNames) := by
    show ((Source.all d.factorCount).map _).map _ = _
    rw [List.map_map]
    exact List.map_congr_left fun s _ => label_resultOf settings s
  have hnodup := Source.nodup_all (hd.factorCount_le.trans (by decide : 16 ≤ 30))
  refine (AnovaTable.get?_eq_some_iff ?_).mpr ⟨List.mem_map_of_mem hs, label_resultOf settings s⟩
  rw [hlabels]
  exact hnodup.map_on fun s hs t ht heq => hinj hs ht heq

end Accepted

end Design

/-- **A result is found by its label as it is by its source.**  Let a table be a design, and let the
names of its factors be distinct texts without a multiplication sign.  Then distinct sources of the
design have distinct labels, the result that is found under the label of a source is the one that is
found under the source, and a text that is not the label of a source finds nothing. -/
theorem anova_get?_label {t : ObservationTable K} (ht : t.Built) {settings : Settings}
    {d : Design K} (h : Design.ofTable t settings = .ok d) {names : List String}
    (hnames : settings.resolveNames t.factorCount = names) (hnodup : names.Nodup)
    (hfree : ∀ name ∈ names, '×' ∉ name.toList) :
    ∃ table, anova t settings = .ok table ∧
      (∀ s ∈ Source.all t.factorCount, ∀ s' ∈ Source.all t.factorCount,
        s.label names = s'.label names → s = s') ∧
      (∀ s ∈ Source.all t.factorCount, ∃ r, r.source = s ∧ table.bySource? s = some r ∧
        table.get? (s.label names) = some r) ∧
      ∀ text, (∀ s ∈ Source.all t.factorCount, s.label names ≠ text) → table.get? text = none := by
  have hd := Design.accepted_of_ofTable ht h
  have hcount := Design.factorCount_ofTable ht h
  obtain rfl : d.factorNames = names := (Design.factorNames_ofTable ht h).trans hnames
  have hlength : d.factorNames.length = d.factorCount := List.length_map _
  have hinj : Set.InjOn (Source.label · d.factorNames) {s | s ∈ Source.all d.factorCount} := by
    rw [← hlength]
    exact Source.label_injOn hnodup hfree (hlength.trans_le hd.factorCount_le)
  rw [← hcount]
  refine ⟨d.table settings, anova_eq_ok ht h, fun s hs s' hs' => hinj hs hs', fun s hs => ?_,
    fun text htext => ?_⟩
  · refine ⟨d.resultOf settings s, Design.source_resultOf settings s, ?_,
      hd.get?_label_table settings hinj hs⟩
    rw [hd.bySource?_table, if_pos hs]
  · refine AnovaTable.get?_eq_none_iff.mpr (List.forall_mem_map.mpr fun s hs => ?_)
    rw [Design.label_resultOf]
    exact htext s hs

/-- The settings of `measuredTwice` with names for its factors, one of which is empty. -/
def halfNamed : Settings := { factorNames := some ["", "time"] }

/-- The three results of `measuredTwice` are found under their labels, one of which is empty. -/
theorem get?_measuredTwice : measuredTwice.Built ∧
    ∃ d, Design.ofTable measuredTwice halfNamed = .ok d ∧
    halfNamed.resolveNames measuredTwice.factorCount = ["", "time"] ∧ ["", "time"].Nodup ∧
    (∀ name ∈ ["", "time"], '×' ∉ name.toList) ∧
    ∃ table, anova measuredTwice halfNamed = .ok table ∧
      (∃ r, r.source = .span [0] ∧ table.bySource? (.span [0]) = some r ∧
        table.get? "" = some r) ∧
      (∃ r, r.source = .span [0, 1] ∧ table.bySource? (.span [0, 1]) = some r ∧
        table.get? "×time" = some r) ∧
      table.get? "group" = none := by
  have hbuilt : measuredTwice.Built := built_wholeTable (by decide) (by decide)
  have hofTable : Design.ofTable measuredTwice halfNamed =
      .ok (Design.tableCoding measuredTwice halfNamed).toDesign := rfl
  have hnames : halfNamed.resolveNames measuredTwice.factorCount = ["", "time"] := rfl
  have hnodup : ["", "time"].Nodup := by decide
  have hfree : ∀ name ∈ ["", "time"], '×' ∉ name.toList := by decide
  obtain ⟨table, htable, -, hfound, hnone⟩ := anova_get?_label hbuilt hofTable hnames hnodup hfree
  refine ⟨hbuilt, _, hofTable, hnames, hnodup, hfree, table, htable, ?_, ?_, hnone "group" ?_⟩
  · exact hfound (.span [0]) (by decide)
  · exact hfound (.span [0, 1]) (by decide)
  · decide

end SplitPlot
