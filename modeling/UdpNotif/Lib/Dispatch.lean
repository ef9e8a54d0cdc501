import Mathlib.Tactic

/-!
Elements that are dispatched to first-in first-out queues by a class. Each queue
keeps the order in which its elements arrived, so that the elements taken off
the queues are, within each class, a prefix of those that arrived.
-/

namespace Dispatch

variable {α κ : Type*} [DecidableEq κ]

/-- Within each class, the elements that arrived are those taken off its queue,
followed by those pending in it. -/
def Ordered (cls : α → κ) (arrived taken : List α) (pending : κ → List α) : Prop :=
  ∀ k, arrived.filter (cls · = k) = taken.filter (cls · = k) ++ pending k

variable {cls : α → κ} {arrived taken : List α} {pending : κ → List α}

theorem ordered_init : Ordered cls [] [] (fun _ => []) := fun _ => rfl

/-- An element goes to the end of the queue of its class. -/
theorem Ordered.arrive (h : Ordered cls arrived taken pending) (a : α) :
    Ordered cls (arrived ++ [a]) taken
      (Function.update pending (cls a) (pending (cls a) ++ [a])) := by
  intro k
  rw [List.filter_append, h k]
  by_cases hk : cls a = k
  · subst hk
    simp
  · rw [Function.update_of_ne (Ne.symm hk)]
    simp [hk]

theorem Ordered.pending_mem (h : Ordered cls arrived taken pending) {k : κ} {a : α}
    (ha : a ∈ pending k) : a ∈ arrived ∧ cls a = k := by
  have hmem : a ∈ arrived.filter (cls · = k) := by
    rw [h k]
    exact List.mem_append_right _ ha
  simpa using hmem

/-- Taking the oldest element off a queue. -/
theorem Ordered.take (h : Ordered cls arrived taken pending) {k : κ} {a : α} {rest : List α}
    (hpending : pending k = a :: rest) :
    Ordered cls arrived (taken ++ [a]) (Function.update pending k rest) := by
  obtain ⟨_, hclass⟩ := h.pending_mem (k := k) (a := a) (by rw [hpending]; exact List.mem_cons_self)
  intro j
  rw [List.filter_append, h j]
  by_cases hj : j = k
  · subst hj
    simp [hpending, hclass]
  · have hne : ¬ cls a = j := fun heq => hj (heq.symm.trans hclass)
    rw [Function.update_of_ne hj]
    simp [hne]

/-- What arrived before the oldest element of a queue was, in its class, taken
off before it. -/
theorem Ordered.exists_before (h : Ordered cls arrived taken pending) {k : κ} {a : α}
    {rest : List α} (hpending : pending k = a :: rest) :
    ∃ before after, arrived = before ++ a :: after ∧
      before.filter (cls · = k) = taken.filter (cls · = k) := by
  have hk := h k
  rw [hpending] at hk
  obtain ⟨before, after, harrived, hbefore, hafter⟩ := List.filter_eq_append_iff.mp hk
  obtain ⟨skipped, after', rfl, hskipped, _, _⟩ := List.filter_eq_cons_iff.mp hafter
  refine ⟨before ++ skipped, after', by rw [harrived, List.append_assoc], ?_⟩
  have hnone : skipped.filter (cls · = k) = [] := by simpa using hskipped
  rw [List.filter_append, hbefore, hnone, List.append_nil]

/-- Classes of classes keep the order as well. -/
theorem filter_eq_of_class {β : Type*} [DecidableEq β] {f : α → β} {g : β → κ}
    (hclass : ∀ a, cls a = g (f a)) {left right : List α} {b : β}
    (h : left.filter (cls · = g b) = right.filter (cls · = g b)) :
    left.filter (f · = b) = right.filter (f · = b) := by
  have hrefine (l : List α) : l.filter (f · = b) = (l.filter (cls · = g b)).filter (f · = b) := by
    rw [List.filter_filter]
    refine List.filter_congr (fun a _ => ?_)
    by_cases hb : f a = b
    · simp [hb, hclass]
    · simp [hb]
  rw [hrefine, h, ← hrefine]

/-- Once all queues are empty, everything that arrived was taken. -/
theorem Ordered.taken_of_drained (h : Ordered cls arrived taken pending)
    (hdrained : ∀ k, pending k = []) {a : α} (ha : a ∈ arrived) : a ∈ taken := by
  have hmem : a ∈ arrived.filter (cls · = cls a) := by simpa using ha
  rw [h (cls a), hdrained, List.append_nil] at hmem
  exact List.mem_of_mem_filter hmem

end Dispatch
