import Mathlib
import SplitPlot.Effect

/-!
# What a memo holds after a run of requests

A memo is given effects and asked for them, in any order, and a request that is at fault does not
end the run.  This is the theory of whole runs of requests, the faulty ones included
(`EffectMemo.serveAll`).

A second effect for a source is reported as a fault, and it is stored all the same.  So the memo
holds, of the effects given for a source, the one given last (`get?_serveAll`), and the ones before
it are lost.  A fault leaves no other trace: the other sources are not touched, the number of stored
effects is still that of the sources with an effect (`size_serveAll`), and a request that only asks
changes nothing.

The number of effects is the length of a list in which each source stands once; that is what one
request preserves (`nodup_sources_serve`) and what a run therefore ends with
(`nodup_sources_serveAll`).
-/

namespace SplitPlot

namespace EffectMemo

variable {K : Type}

/-! ## One request -/

/-- What a memo can be asked to do. -/
inductive Request (K : Type) where
  /-- Store an effect. -/
  | insert (e : Effect K)
  /-- Look for the effect of a source. -/
  | get (s : Source)
  /-- Hand out the effect of a source, which has to be stored. -/
  | require (s : Source)
  /-- Tell whether the effect of a source is stored. -/
  | contains (s : Source)

/-- What a memo replies to a request that is not at fault. -/
inductive Reply (K : Type) where
  /-- The effect is stored. -/
  | stored
  /-- The effect that was looked for, if there is one. -/
  | found (e? : Option (Effect K))
  /-- The effect that had to be there. -/
  | effect (e : Effect K)
  /-- Whether there is an effect. -/
  | held (b : Bool)

/-- The effect that comes with a request. -/
def Request.given? : Request K → Option (Effect K)
  | .insert e => some e
  | .get _ => none
  | .require _ => none
  | .contains _ => none

/-- Serves a request: the reply or the fault, and the memo afterwards. -/
def serve (m : EffectMemo K) : Request K → Except Fault (Reply K) × EffectMemo K
  | .insert e => ((m.insert e).1.map fun _ => .stored, (m.insert e).2)
  | .get s => (.ok (.found (m.get? s)), m)
  | .require s => ((m.require s).map .effect, m)
  | .contains s => (.ok (.held (m.contains s)), m)

/-- The sources whose effects are stored. -/
def sources (m : EffectMemo K) : List Source := m.effects.map (·.source)

variable {m : EffectMemo K} {e : Effect K} {s : Source}

theorem mem_sources_iff : s ∈ m.sources ↔ m.contains s = true := by
  rw [contains, get?, List.find?_isSome, sources, List.mem_map]
  exact exists_congr fun e => and_congr_right fun _ => beq_iff_eq.symm

theorem sources_replace (m : EffectMemo K) (e : Effect K) :
    (m.replace e).sources = e.source :: m.sources.filter (· != e.source) := by
  rw [sources, replace, List.map_cons, sources, List.filter_map]
  rfl

theorem nodup_sources_replace (h : m.sources.Nodup) (e : Effect K) :
    (m.replace e).sources.Nodup := by
  rw [sources_replace, List.nodup_cons]
  refine ⟨?_, h.filter _⟩
  intro hmem
  have hne := (List.mem_filter.mp hmem).2
  rw [bne_self_eq_false] at hne
  cases hne

/-- A request changes what the memo holds for a source if it comes with an effect of the source, and
not otherwise. -/
theorem get?_serve (m : EffectMemo K) (r : Request K) (s : Source) :
    (m.serve r).2.get? s = (r.given?.filter fun e => s = e.source).or (m.get? s) := by
  cases r with
  | insert e =>
    have hreplace : (m.serve (.insert e)).2.get? s = if s = e.source then some e else m.get? s :=
      get?_replace m e s
    rw [hreplace, Request.given?, Option.filter_some]
    by_cases hs : s = e.source
    · rw [if_pos hs, if_pos (decide_eq_true hs), Option.some_or]
    · rw [if_neg hs, if_neg (by rwa [decide_eq_true_iff]), Option.none_or]
  | get s => rfl
  | require s => rfl
  | contains s => rfl

theorem nodup_sources_serve (h : m.sources.Nodup) (r : Request K) :
    (m.serve r).2.sources.Nodup := by
  cases r with
  | insert e => exact nodup_sources_replace h e
  | get s => exact h
  | require s => exact h
  | contains s => exact h

/-! ## Runs of requests -/

/-- The memo after requests one after another, whether they were at fault or not. -/
def serveAll (requests : List (Request K)) : EffectMemo K :=
  requests.foldl (fun m r => (m.serve r).2) ∅

/-- The effects that came with the requests of a run, the last one at the end. -/
def given (requests : List (Request K)) : List (Effect K) := requests.filterMap Request.given?

/-- The effects given for one source in a run. -/
def givenFor (requests : List (Request K)) (s : Source) : List (Effect K) :=
  (given requests).filter fun e => s = e.source

/-- The sources that were given effects in a run, each of them once. -/
def sourcesGiven (requests : List (Request K)) : List Source :=
  ((given requests).map (·.source)).dedup

variable (requests : List (Request K))

theorem serveAll_concat (r : Request K) :
    serveAll (requests ++ [r]) = ((serveAll requests).serve r).2 := by
  rw [serveAll, List.foldl_concat]
  rfl

theorem given_concat (r : Request K) :
    given (requests ++ [r]) = given requests ++ r.given?.toList := by
  rw [given, List.filterMap_append, List.filterMap_cons]
  cases r.given? with
  | none => rfl
  | some e => rfl

theorem givenFor_concat (r : Request K) (s : Source) : givenFor (requests ++ [r]) s =
    givenFor requests s ++ (r.given?.filter fun e => s = e.source).toList := by
  rw [givenFor, given_concat, List.filter_append, Option.toList_filter]
  rfl

theorem mem_sourcesGiven {requests : List (Request K)} {s : Source} :
    s ∈ sourcesGiven requests ↔ givenFor requests s ≠ [] := by
  rw [sourcesGiven, List.mem_dedup, List.mem_map, givenFor, Ne, List.filter_eq_nil_iff]
  push Not
  exact exists_congr fun e => and_congr_right fun _ => by rw [decide_eq_true_iff, eq_comm]

/-- After a run the memo holds the effect that was given last. -/
theorem get?_serveAll (s : Source) :
    (serveAll requests).get? s = (givenFor requests s).getLast? := by
  induction requests using List.reverseRecOn with
  | nil => rfl
  | append_singleton requests r ih =>
    rw [serveAll_concat, get?_serve, givenFor_concat, ih]
    cases r.given?.filter fun e => s = e.source with
    | none => rw [Option.none_or, Option.toList_none, List.append_nil]
    | some e => rw [Option.some_or, Option.toList_some, List.getLast?_concat]

theorem contains_serveAll (s : Source) :
    (serveAll requests).contains s = decide (s ∈ sourcesGiven requests) := by
  rw [Bool.eq_iff_iff, decide_eq_true_iff, mem_sourcesGiven, contains, get?_serveAll,
    List.getLast?_isSome]

theorem nodup_sources_serveAll : (serveAll requests).sources.Nodup := by
  induction requests using List.reverseRecOn with
  | nil => exact List.nodup_nil
  | append_singleton requests r ih =>
    rw [serveAll_concat]
    exact nodup_sources_serve ih r

/-- After a run there is one effect for each source that was given any. -/
theorem size_serveAll : (serveAll requests).size = (sourcesGiven requests).length := by
  have hsources : (serveAll requests).sources.Perm (sourcesGiven requests) := by
    refine (List.perm_ext_iff_of_nodup (nodup_sources_serveAll requests)
      (List.nodup_dedup _)).mpr ?_
    intro s
    rw [mem_sources_iff, contains_serveAll, decide_eq_true_iff]
    rfl
  rw [size, ← hsources.length_eq, sources, List.length_map]

/-! ## Replies and faults -/

theorem serve_insert_serveAll (e : Effect K) : (serveAll requests).serve (.insert e) =
    (if e.source ∈ sourcesGiven requests then .error (.computedTwice e.source) else .ok .stored,
      serveAll (requests ++ [.insert e])) := by
  rw [serveAll_concat, serve, insert, contains_serveAll]
  by_cases h : e.source ∈ sourcesGiven requests
  · rw [if_pos h, if_pos (decide_eq_true h)]
    rfl
  · rw [if_neg h, if_neg (by rwa [decide_eq_true_iff])]
    rfl

theorem serve_require_serveAll (s : Source) : (serveAll requests).serve (.require s) =
    ((givenFor requests s).getLast?.elim (.error (.notYetComputed s)) fun e => .ok (.effect e),
      serveAll requests) := by
  rw [serve, require, get?_serveAll]
  cases (givenFor requests s).getLast? with
  | none => rfl
  | some e => rfl

/-- A second effect for a source takes the place of the one that is stored, and nothing else. -/
theorem serveAll_concat_insert {e : Effect K} (h : e.source ∈ sourcesGiven requests) :
    (serveAll (requests ++ [.insert e])).size = (serveAll requests).size ∧
      ∀ s, (serveAll (requests ++ [.insert e])).get? s =
        if s = e.source then some e else (serveAll requests).get? s := by
  constructor
  · have hmem : e.source ∈ (given requests).map (·.source) := List.mem_dedup.mp h
    have hperm : ((given requests).map (·.source) ++ [e.source]).dedup.Perm
        (e.source :: (given requests).map (·.source)).dedup :=
      (List.perm_append_singleton _ _).dedup
    rw [List.dedup_cons_of_mem hmem] at hperm
    rw [size_serveAll, size_serveAll, sourcesGiven, given_concat, List.map_append]
    exact hperm.length_eq
  · intro s
    rw [serveAll_concat]
    exact get?_replace (serveAll requests) e s

/-- Equal effects with one more behind them are all that one if it is also the first of them. -/
theorem eq_of_head?_concat {l : List (Effect K)} (h : ∀ a ∈ l, ∀ b ∈ l, a = b)
    (hfirst : (l ++ [e]).head? = some e) : ∀ a ∈ l ++ [e], a = e := by
  intro a ha
  rcases List.mem_append.mp ha with hold | hnew
  · obtain ⟨first, rest, hl⟩ := List.exists_cons_of_ne_nil (List.ne_nil_of_mem hold)
    rw [hl, List.cons_append, List.head?_cons] at hfirst
    rw [← Option.some.inj hfirst]
    exact h a hold first (hl ▸ List.mem_cons_self)
  · exact List.mem_singleton.mp hnew

theorem getLast?_eq_head? {l : List (Effect K)} (h : ∀ a ∈ l, ∀ b ∈ l, a = b) :
    l.getLast? = l.head? := by
  cases l with
  | nil => rfl
  | cons e l =>
    rw [List.getLast?_eq_some_getLast (List.cons_ne_nil e l), List.head?_cons]
    exact congrArg some (h _ (List.getLast_mem _) e List.mem_cons_self)

/-- The memo holds the first effect of a source throughout a run exactly if no other effect is ever
given for the source. -/
theorem get?_eq_head?_iff (s : Source) :
    (∀ before, before <+: requests → (serveAll before).get? s = (givenFor before s).head?) ↔
      ∀ e ∈ givenFor requests s, ∀ e' ∈ givenFor requests s, e = e' := by
  constructor
  · intro h
    induction requests using List.reverseRecOn with
    | nil => exact fun e he => absurd he List.not_mem_nil
    | append_singleton requests r ih =>
      have hbefore := ih fun before hinit => h before (hinit.trans (List.prefix_append _ _))
      have hlast := h _ List.prefix_rfl
      rw [get?_serveAll, givenFor_concat] at hlast
      rw [givenFor_concat]
      cases hnew : r.given?.filter fun e => s = e.source with
      | none => rwa [Option.toList_none, List.append_nil]
      | some e =>
        rw [hnew, Option.toList_some, List.getLast?_concat] at hlast
        have heq := eq_of_head?_concat hbefore hlast.symm
        intro a ha b hb
        rw [heq a ha, heq b hb]
  · intro h before hinit
    have hsub : givenFor before s ⊆ givenFor requests s :=
      ((hinit.sublist.filterMap _).filter _).subset
    rw [get?_serveAll]
    exact getLast?_eq_head? fun a ha b hb => h a (hsub ha) b (hsub hb)

/-- **A memo holds the effect that was given last.**  For every run of requests, those at fault
included: the memo holds for each source the last of the effects that were given for it, and as many
effects as there are sources that were given any.  A further effect is at fault exactly if its
source was given one before.  It then takes the place of the one that is stored, so what the memo
holds is the same as before only if the two are equal; the other sources and the number of effects
are not affected.  Requests without an effect leave the memo as it is, and of these only one that
requires an effect of a source that was given none is at fault.  So a source keeps its first effect
through the whole run exactly if no other effect is given for it. -/
theorem serveAll_holds_last (requests : List (Request K)) :
    (∀ s, (serveAll requests).get? s = (givenFor requests s).getLast?) ∧
    (serveAll requests).size = (sourcesGiven requests).length ∧
    (∀ e, (serveAll requests).serve (.insert e) =
      (if e.source ∈ sourcesGiven requests then .error (.computedTwice e.source) else .ok .stored,
        serveAll (requests ++ [.insert e]))) ∧
    (∀ e, e.source ∈ sourcesGiven requests →
      (serveAll (requests ++ [.insert e])).size = (serveAll requests).size ∧
      (∀ s, (serveAll (requests ++ [.insert e])).get? s =
        if s = e.source then some e else (serveAll requests).get? s) ∧
      ((∀ s, (serveAll (requests ++ [.insert e])).get? s = (serveAll requests).get? s) ↔
        (serveAll requests).get? e.source = some e)) ∧
    (∀ s, (serveAll requests).serve (.get s) =
      (.ok (.found (givenFor requests s).getLast?), serveAll requests)) ∧
    (∀ s, (serveAll requests).serve (.require s) =
      ((givenFor requests s).getLast?.elim (.error (.notYetComputed s)) fun e => .ok (.effect e),
        serveAll requests)) ∧
    (∀ s, (serveAll requests).serve (.contains s) =
      (.ok (.held (decide (s ∈ sourcesGiven requests))), serveAll requests)) ∧
    ∀ s, (∀ before, before <+: requests →
        (serveAll before).get? s = (givenFor before s).head?) ↔
      ∀ e ∈ givenFor requests s, ∀ e' ∈ givenFor requests s, e = e' := by
  refine ⟨get?_serveAll requests, size_serveAll requests, serve_insert_serveAll requests,
    fun e he => ?_, fun s => ?_, serve_require_serveAll requests, fun s => ?_,
    get?_eq_head?_iff requests⟩
  · obtain ⟨hsize, hget⟩ := serveAll_concat_insert requests he
    refine ⟨hsize, hget, ?_⟩
    constructor
    · intro h
      rw [← h, hget, if_pos rfl]
    · intro h s
      rw [hget]
      split
      · next hs => rw [hs, h]
      · rfl
  · rw [serve, get?_serveAll]
  · rw [serve, contains_serveAll]

/-- A second effect of the factor between subjects of a design with two groups.  It is reported as a
fault, and the first one is lost. -/
theorem second_effect_is_held :
    let first : Effect Float := ⟨.ofBits 3, .ofFn [2, 1] fun p => if p = [0, 0] then 1 else -1⟩
    let second : Effect Float := ⟨.ofBits 3, .ofFn [2, 1] fun p => if p = [0, 0] then 2 else -2⟩
    let memo := serveAll [.insert first]
    memo.get? (.ofBits 3) = some first ∧
      (memo.serve (.insert second)).1 = .error (.computedTwice (.ofBits 3)) ∧
      (memo.serve (.insert second)).2.get? (.ofBits 3) = some second ∧
      (memo.serve (.insert second)).2.size = 1 ∧ first ≠ second := by
  intro first second memo
  obtain ⟨hget, hsize, hinsert, hsecond, -⟩ := serveAll_holds_last [.insert first]
  have hmem : second.source ∈ sourcesGiven [.insert first] := by decide
  obtain ⟨hsize', hget', -⟩ := hsecond second hmem
  refine ⟨hget _, ?_, ?_, ?_, ?_⟩
  · rw [hinsert, if_pos hmem]
  · rw [hinsert]
    exact hget' _
  · rw [hinsert, hsize', hsize]
    rfl
  · intro h
    have hentry := congrArg (fun e => e.values.entries[0]?) h
    revert hentry
    decide

end EffectMemo

end SplitPlot
