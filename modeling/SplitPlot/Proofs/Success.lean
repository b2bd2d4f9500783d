import Mathlib

/-!
# When a sequence of steps succeeds

Building a design and running an analysis are sequences of steps of which each can fail.  A sequence
succeeds exactly when each of its steps does, and then its result is the result of the last one.
These lemmas say so for the ways in which steps are put together here: one after the other
(`bind_eq_ok_iff`), one for each member of a list (`mapM_eq_ok_iff`, and `forM_eq_ok_iff` for steps
without a result), and one for each member of a list with a state carried along (`foldlM_eq_ok`).

A sequence that fails does so with the error of one of its steps, after the steps before it have
succeeded (`bind_eq_error_iff`, `exists_eq_error_of_mapM`, `exists_eq_error_of_forM`).
-/

namespace SplitPlot

variable {ε α β : Type}

theorem bind_eq_ok_iff {x : Except ε α} {f : α → Except ε β} {b : β} :
    (x >>= f) = .ok b ↔ ∃ a, x = .ok a ∧ f a = .ok b := by
  cases x with
  | error e => simp [bind, Except.bind]
  | ok a => simp [bind, Except.bind]

/-- One step after another fails when the first does, or the second on the result of the first. -/
theorem bind_eq_error_iff {x : Except ε α} {f : α → Except ε β} {e : ε} :
    (x >>= f) = .error e ↔ x = .error e ∨ ∃ a, x = .ok a ∧ f a = .error e := by
  cases x with
  | error e' => simp [bind, Except.bind]
  | ok a => simp [bind, Except.bind]

@[simp] theorem ok_bind (a : α) (f : α → Except ε β) : (Except.ok a >>= f) = f a := rfl

/-- A step for each member of a list succeeds when it succeeds on every member. -/
theorem mapM_eq_ok {f : α → Except ε β} {g : α → β} :
    ∀ {l : List α}, (∀ a ∈ l, f a = .ok (g a)) → l.mapM f = .ok (l.map g)
  | [], _ => rfl
  | a :: l, h => by
    rw [List.mapM_cons, h a List.mem_cons_self, ok_bind,
      mapM_eq_ok fun b hb => h b (List.mem_cons_of_mem a hb)]
    rfl

/-- If a step can be refused and otherwise has a known result, then a step for each member of a
list succeeds exactly when no member is refused. -/
theorem mapM_eq_ok_iff {f : α → Except ε β} {g : α → β} {P : α → Prop} {l : List α}
    (h : ∀ a ∈ l, ∀ b, f a = .ok b ↔ P a ∧ b = g a) {bs : List β} :
    l.mapM f = .ok bs ↔ (∀ a ∈ l, P a) ∧ bs = l.map g := by
  induction l generalizing bs with
  | nil => simp [pure, Except.pure, eq_comm]
  | cons a l ih =>
    have ih' := fun bs => @ih (fun b hb => h b (List.mem_cons_of_mem a hb)) bs
    rw [List.mapM_cons, bind_eq_ok_iff]
    constructor
    · rintro ⟨b, hb, hrest⟩
      obtain ⟨bs', hbs', heq⟩ := bind_eq_ok_iff.mp hrest
      obtain ⟨hP, rfl⟩ := (h a List.mem_cons_self b).mp hb
      obtain ⟨hall, rfl⟩ := (ih' bs').mp hbs'
      cases heq
      exact ⟨List.forall_mem_cons.mpr ⟨hP, hall⟩, rfl⟩
    · rintro ⟨hall, rfl⟩
      obtain ⟨hP, hall⟩ := List.forall_mem_cons.mp hall
      refine ⟨g a, (h a List.mem_cons_self _).mpr ⟨hP, rfl⟩, bind_eq_ok_iff.mpr ?_⟩
      exact ⟨l.map g, (ih' _).mpr ⟨hall, rfl⟩, rfl⟩

/-- A step for each member of a list fails with the error of one of them. -/
theorem exists_eq_error_of_mapM {f : α → Except ε β} {e : ε} :
    ∀ {l : List α}, l.mapM f = .error e → ∃ a ∈ l, f a = .error e
  | [], h => nomatch h
  | a :: l, h => by
    rw [List.mapM_cons] at h
    rcases bind_eq_error_iff.mp h with ha | ⟨b, -, hrest⟩
    · exact ⟨a, List.mem_cons_self, ha⟩
    · rcases bind_eq_error_iff.mp hrest with hl | ⟨bs, -, hpure⟩
      · obtain ⟨a', ha', herror⟩ := exists_eq_error_of_mapM hl
        exact ⟨a', List.mem_cons_of_mem a ha', herror⟩
      · cases hpure

/-- A check of each member of a list succeeds when it succeeds on every member. -/
theorem forM_eq_ok_iff {f : α → Except ε Unit} :
    ∀ {l : List α}, forM l f = .ok () ↔ ∀ a ∈ l, f a = .ok ()
  | [] => iff_of_true rfl (List.forall_mem_nil _)
  | a :: l => by
    rw [List.forM_cons, bind_eq_ok_iff, List.forall_mem_cons, ← forM_eq_ok_iff]
    exact ⟨fun ⟨_, ha, hl⟩ => ⟨ha, hl⟩, fun ⟨ha, hl⟩ => ⟨(), ha, hl⟩⟩

/-- A check of each member of a list fails with the error of one of them. -/
theorem exists_eq_error_of_forM {f : α → Except ε Unit} {e : ε} :
    ∀ {l : List α}, forM l f = .error e → ∃ a ∈ l, f a = .error e
  | [], h => nomatch h
  | a :: l, h => by
    rw [List.forM_cons] at h
    rcases bind_eq_error_iff.mp h with ha | ⟨_, -, hl⟩
    · exact ⟨a, List.mem_cons_self, ha⟩
    · obtain ⟨a', ha', herror⟩ := exists_eq_error_of_forM hl
      exact ⟨a', List.mem_cons_of_mem a ha', herror⟩

/-- Steps that carry a state along succeed when each of them does on the states that come
before it.  The invariant `P` may depend on the members that are still to come. -/
theorem foldlM_eq_ok {f : β → α → Except ε β} {g : β → α → β} {P : List α → β → Prop} :
    ∀ {l : List α} {b : β}, P l b →
      (∀ a l b, P (a :: l) b → f b a = .ok (g b a) ∧ P l (g b a)) →
      l.foldlM f b = .ok (l.foldl g b)
  | [], _, _, _ => rfl
  | a :: l, b, hb, h => by
    obtain ⟨hok, hnext⟩ := h a l b hb
    rw [List.foldlM_cons, hok, ok_bind, List.foldl_cons, foldlM_eq_ok hnext h]

end SplitPlot
