import Mathlib.Tactic

/-!
First-in first-out channels that may lose what they are offered, but neither
reorder nor repeat it. Producers that share one such channel each see the part
of its output that is theirs.
-/

namespace Lossy

variable {α β γ κ : Type*}

/-- Of what a channel was offered it passed on `taken` and holds `held`, in the
order of the offers. -/
def Carries (offered taken held : List α) : Prop := (taken ++ held).Sublist offered

section Channel

variable {offered taken held : List α}

theorem carries_nil : Carries ([] : List α) [] [] := List.Sublist.refl _

theorem Carries.lose (h : Carries offered taken held) (a : α) :
    Carries (offered ++ [a]) taken held :=
  h.trans (List.sublist_append_left offered [a])

theorem Carries.send (h : Carries offered taken held) (as : List α) :
    Carries (offered ++ as) taken (held ++ as) := by
  rw [Carries, ← List.append_assoc]
  exact h.append_right as

theorem Carries.take {a : α} (h : Carries offered taken (a :: held)) :
    Carries offered (taken ++ [a]) held := by
  rw [Carries, List.append_assoc, List.singleton_append]
  exact h

theorem Carries.discard {a : α} (h : Carries offered taken (a :: held)) :
    Carries offered taken held :=
  ((List.sublist_cons_self a held).append_left taken).trans h

theorem Carries.held_subset (h : Carries offered taken held) {a : α} (ha : a ∈ held) :
    a ∈ offered :=
  h.subset (List.mem_append_right _ ha)

/-- A channel whose losses are listed: each offer was lost, was taken or is held. -/
structure Accounts (offered lost taken held : List α) : Prop where
  carries : Carries offered taken held
  perm : offered.Perm (lost ++ (taken ++ held))

variable {lost : List α}

theorem accounts_nil : Accounts ([] : List α) [] [] [] := ⟨carries_nil, .refl _⟩

theorem Accounts.take {a : α} (h : Accounts offered lost taken (a :: held)) :
    Accounts offered lost (taken ++ [a]) held := by
  refine ⟨h.carries.take, ?_⟩
  rw [List.append_assoc, List.singleton_append]
  exact h.perm

/-- An offer makes the channel drop the oldest elements, for which it has no place. -/
theorem Accounts.push {a : α} {dropped held' : List α} (h : Accounts offered lost taken held)
    (hheld : held ++ [a] = dropped ++ held') :
    Accounts (offered ++ [a]) (lost ++ dropped) taken held' := by
  have hsend := h.carries.send [a]
  rw [hheld] at hsend
  refine ⟨((List.sublist_append_right dropped held').append_left taken).trans hsend, ?_⟩
  have hoffered : (offered ++ [a]).Perm (lost ++ (taken ++ (dropped ++ held'))) := by
    rw [← hheld, ← List.append_assoc taken, ← List.append_assoc lost]
    exact h.perm.append_right [a]
  refine hoffered.trans ?_
  rw [List.append_assoc, ← List.append_assoc taken, ← List.append_assoc dropped]
  exact (List.perm_append_comm.append_right held').append_left lost

end Channel

/-- What explains the offers of a channel explains what it passed on of them. -/
theorem exists_sublist_of_forall₂ {R : α → β → Prop} {as : List α} {bs bs' : List β}
    (h : List.Forall₂ R as bs) (hsub : bs'.Sublist bs) :
    ∃ as', as'.Sublist as ∧ List.Forall₂ R as' bs' := by
  induction hsub generalizing as with
  | slnil => exact ⟨[], List.nil_sublist _, .nil⟩
  | cons b _ ih =>
      obtain ⟨a, as, _, hrest, rfl⟩ := List.forall₂_cons_right_iff.mp h
      obtain ⟨as', hsub, hall⟩ := ih hrest
      exact ⟨as', hsub.cons a, hall⟩
  | cons_cons b _ ih =>
      obtain ⟨a, as, hfirst, hrest, rfl⟩ := List.forall₂_cons_right_iff.mp h
      obtain ⟨as', hsub, hall⟩ := ih hrest
      exact ⟨a :: as', hsub.cons_cons a, .cons hfirst hall⟩

section Shared

variable [DecidableEq κ]

/-- A channel shared by producers: its output, restricted to those of one
producer, and what that producer is about to write come from what it made. -/
def Merges (source : α → κ) (made : κ → List α) (unwritten : κ → List α) (output : List α) :
    Prop :=
  ∀ k, Carries (made k) (output.filter (source · = k)) (unwritten k)

variable {source : α → κ} {made unwritten : κ → List α} {output : List α}

theorem merges_nil (source : α → κ) : Merges source (fun _ => []) (fun _ => []) [] :=
  fun _ => carries_nil

/-- A producer makes elements and is about to write them. -/
theorem Merges.make (h : Merges source made unwritten output) (k : κ) (as : List α) :
    Merges source (Function.update made k (made k ++ as))
      (Function.update unwritten k (unwritten k ++ as)) output := by
  intro j
  by_cases hj : j = k
  · subst hj
    rw [Function.update_self, Function.update_self]
    exact (h j).send as
  · rw [Function.update_of_ne hj, Function.update_of_ne hj]
    exact h j

/-- An element is written to the channel by its producer. -/
theorem Merges.write (h : Merges source made unwritten output) {k : κ} {a : α} {rest : List α}
    (ha : source a = k) (hunwritten : unwritten k = a :: rest) :
    Merges source made (Function.update unwritten k rest) (output ++ [a]) := by
  intro j
  have hk := h k
  rw [hunwritten] at hk
  rw [List.filter_append]
  by_cases hj : j = k
  · subst hj
    rw [Function.update_self]
    simpa [ha] using hk.take
  · have hne : ¬ source a = j := fun heq => hj (heq.symm.trans ha)
    rw [Function.update_of_ne hj]
    simpa [hne] using h j

/-- An element is lost on its way to the channel. -/
theorem Merges.lose (h : Merges source made unwritten output) {k : κ} {a : α} {rest : List α}
    (hunwritten : unwritten k = a :: rest) :
    Merges source made (Function.update unwritten k rest) output := by
  intro j
  have hk := h k
  rw [hunwritten] at hk
  by_cases hj : j = k
  · subst hj
    rw [Function.update_self]
    exact hk.discard
  · rw [Function.update_of_ne hj]
    exact h j

/-- What explains the part of each producer explains the whole output. -/
theorem exists_merge {f : α → γ} {g : β → γ} {owner : β → κ} {parts : κ → List β}
    (howner : ∀ k, ∀ b ∈ parts k, owner b = k)
    (hparts : ∀ k, (output.filter (source · = k)).map f = (parts k).map g) :
    ∃ whole : List β, output.map f = whole.map g ∧
      ∀ k, whole.filter (owner · = k) = parts k := by
  induction output generalizing parts with
  | nil =>
      have hempty (k : κ) : parts k = [] := List.map_eq_nil_iff.mp (hparts k).symm
      exact ⟨[], rfl, fun k => (hempty k).symm⟩
  | cons a output ih =>
      have hself := hparts (source a)
      rw [List.filter_cons_of_pos (by simp), List.map_cons] at hself
      obtain ⟨b, rest, hsplit, hb, hrest⟩ := List.map_eq_cons_iff.mp hself.symm
      have hown : owner b = source a := howner _ b (by rw [hsplit]; exact List.mem_cons_self)
      have howner' (k : κ) : ∀ c ∈ Function.update parts (source a) rest k, owner c = k := by
        intro c hc
        by_cases hk : k = source a
        · subst hk
          rw [Function.update_self] at hc
          exact howner _ c (by rw [hsplit]; exact List.mem_cons_of_mem _ hc)
        · rw [Function.update_of_ne hk] at hc
          exact howner k c hc
      obtain ⟨whole, hwhole, hclasses⟩ := ih howner' (fun k => by
        by_cases hk : k = source a
        · subst hk
          rw [Function.update_self, hrest]
        · have hother := hparts k
          rw [List.filter_cons_of_neg (by simpa using Ne.symm hk)] at hother
          rw [Function.update_of_ne hk, hother])
      refine ⟨b :: whole, by rw [List.map_cons, List.map_cons, hb, hwhole], fun k => ?_⟩
      by_cases hk : k = source a
      · subst hk
        rw [List.filter_cons_of_pos (by simpa using hown), hclasses, Function.update_self, hsplit]
      · have hne : ¬ owner b = k := fun heq => hk (heq.symm.trans hown)
        rw [List.filter_cons_of_neg (by simpa using hne), hclasses, Function.update_of_ne hk]

end Shared

end Lossy
