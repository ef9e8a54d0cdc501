import Mathlib.Tactic
import Mathlib.Data.Finset.Card
import Mathlib.Logic.Function.Basic

/-!
An array whose first cells carry different keys. A new cell is appended behind
them, and a cell is taken out by putting the last one in its place. The cells
behind them hold what was there before.
-/

namespace CompactIndex

variable {α κ : Type*} (key : α → κ)

/-- A cell is among the first `len`. -/
def Listed (cells : Nat → α) (len : Nat) (c : α) : Prop := ∃ i < len, cells i = c

/-- The first `len` cells carry different keys. -/
def Distinct (cells : Nat → α) (len : Nat) : Prop :=
  ∀ i < len, ∀ j < len, key (cells i) = key (cells j) → i = j

theorem not_listed_zero (cells : Nat → α) (c : α) : ¬ Listed cells 0 c :=
  fun ⟨_, hi, _⟩ => absurd hi (Nat.not_lt_zero _)

theorem distinct_zero (cells : Nat → α) : Distinct key cells 0 :=
  fun _ hi => absurd hi (Nat.not_lt_zero _)

variable {key} {cells cells' : Nat → α} {len : Nat}

theorem listed_congr (h : ∀ i < len, cells' i = cells i) (c : α) :
    Listed cells' len c ↔ Listed cells len c := by
  constructor
  · rintro ⟨i, hi, hc⟩
    exact ⟨i, hi, (h i hi).symm.trans hc⟩
  · rintro ⟨i, hi, hc⟩
    exact ⟨i, hi, (h i hi).trans hc⟩

/-- Only the keys matter. -/
theorem Distinct.congr (h : Distinct key cells len)
    (hkey : ∀ i < len, key (cells' i) = key (cells i)) : Distinct key cells' len := by
  intro i hi j hj heq
  rw [hkey i hi, hkey j hj] at heq
  exact h i hi j hj heq

/-- A key has one cell. -/
theorem Distinct.eq_of_listed (h : Distinct key cells len) {c d : α} (hc : Listed cells len c)
    (hd : Listed cells len d) (heq : key c = key d) : c = d := by
  obtain ⟨i, hi, rfl⟩ := hc
  obtain ⟨j, hj, rfl⟩ := hd
  rw [h i hi j hj heq]

/-- As many keys are listed as there are cells. -/
theorem Distinct.card_eq [DecidableEq κ] (h : Distinct key cells len) {keys : Finset κ}
    (hkeys : ∀ k, k ∈ keys ↔ ∃ c, Listed cells len c ∧ key c = k) : keys.card = len := by
  have hinj : Set.InjOn (fun i => key (cells i)) (Finset.range len : Set Nat) := by
    intro i hi j hj heq
    exact h i (Finset.mem_range.mp hi) j (Finset.mem_range.mp hj) heq
  have himage : keys = (Finset.range len).image (fun i => key (cells i)) := by
    ext k
    rw [hkeys, Finset.mem_image]
    constructor
    · rintro ⟨_, ⟨i, hi, rfl⟩, hk⟩
      exact ⟨i, Finset.mem_range.mpr hi, hk⟩
    · rintro ⟨i, hi, hk⟩
      exact ⟨_, ⟨i, Finset.mem_range.mp hi, rfl⟩, hk⟩
  rw [himage, Finset.card_image_of_injOn hinj, Finset.card_range]

section Append

variable (cells) (len) in
theorem listed_append (c d : α) :
    Listed (Function.update cells len c) (len + 1) d ↔ d = c ∨ Listed cells len d := by
  constructor
  · rintro ⟨i, hi, rfl⟩
    by_cases hlast : i = len
    · exact Or.inl (hlast ▸ Function.update_self _ _ _)
    · rw [Function.update_of_ne hlast]
      exact Or.inr ⟨i, by omega, rfl⟩
  · rintro (rfl | ⟨i, hi, rfl⟩)
    · exact ⟨len, Nat.lt_succ_self len, Function.update_self _ _ _⟩
    · exact ⟨i, Nat.lt_succ_of_lt hi, Function.update_of_ne (Nat.ne_of_lt hi) _ _⟩

/-- A cell with a new key can be appended. -/
theorem Distinct.append (h : Distinct key cells len) {c : α}
    (hfresh : ∀ d, Listed cells len d → key d ≠ key c) :
    Distinct key (Function.update cells len c) (len + 1) := by
  intro i hi j hj heq
  by_cases hlast : i = len
  · subst hlast
    by_cases hlast' : j = i
    · exact hlast'.symm
    · rw [Function.update_self, Function.update_of_ne hlast'] at heq
      exact absurd heq.symm (hfresh _ ⟨j, by omega, rfl⟩)
  · rw [Function.update_of_ne hlast] at heq
    by_cases hlast' : j = len
    · subst hlast'
      rw [Function.update_self] at heq
      exact absurd heq (hfresh _ ⟨i, by omega, rfl⟩)
    · rw [Function.update_of_ne hlast'] at heq
      exact h i (by omega) j (by omega) heq

end Append

section Replace

variable {i : Nat} {c : α}

theorem listed_replace (h : Distinct key cells len) (hi : i < len) (hkey : key c = key (cells i))
    (d : α) : Listed (Function.update cells i c) len d ↔
      d = c ∨ Listed cells len d ∧ key d ≠ key c := by
  constructor
  · rintro ⟨j, hj, rfl⟩
    by_cases hji : j = i
    · exact Or.inl (hji ▸ Function.update_self _ _ _)
    · rw [Function.update_of_ne hji]
      exact Or.inr ⟨⟨j, hj, rfl⟩, fun heq => hji (h j hj i hi (heq.trans hkey))⟩
  · rintro (rfl | ⟨⟨j, hj, rfl⟩, hne⟩)
    · exact ⟨i, hi, Function.update_self _ _ _⟩
    · have hji : j ≠ i := fun heq => hne (heq ▸ hkey.symm)
      exact ⟨j, hj, Function.update_of_ne hji _ _⟩

end Replace

section TakeOut

variable {i : Nat}

/-- What a cell holds after the last one was put in place `i` is what another cell, or
the last one, held before. -/
theorem exists_takeOut (cells : Nat → α) (hi : i < len) {j : Nat} (hj : j < len - 1) :
    ∃ j' < len, j' ≠ i ∧ Function.update cells i (cells (len - 1)) j = cells j' ∧
      j' = if j = i then len - 1 else j := by
  by_cases hji : j = i
  · subst hji
    refine ⟨len - 1, by omega, by omega, Function.update_self _ _ _, (if_pos rfl).symm⟩
  · exact ⟨j, by omega, hji, Function.update_of_ne hji _ _, (if_neg hji).symm⟩

/-- Taking a cell out keeps the others. -/
theorem listed_takeOut (h : Distinct key cells len) (hi : i < len) (d : α) :
    Listed (Function.update cells i (cells (len - 1))) (len - 1) d ↔
      Listed cells len d ∧ key d ≠ key (cells i) := by
  constructor
  · rintro ⟨j, hj, rfl⟩
    obtain ⟨j', hj', hne, hcell, _⟩ := exists_takeOut cells hi hj
    rw [hcell]
    exact ⟨⟨j', hj', rfl⟩, fun heq => hne (h j' hj' i hi heq)⟩
  · rintro ⟨⟨j, hj, rfl⟩, hne⟩
    have hji : j ≠ i := fun heq => hne (heq ▸ rfl)
    by_cases hlast : j = len - 1
    · exact ⟨i, by omega, hlast ▸ Function.update_self _ _ _⟩
    · exact ⟨j, by omega, Function.update_of_ne hji _ _⟩

theorem Distinct.takeOut (h : Distinct key cells len) (hi : i < len) :
    Distinct key (Function.update cells i (cells (len - 1))) (len - 1) := by
  intro j hj k hk heq
  obtain ⟨j', hj', _, hcell, hplace⟩ := exists_takeOut cells hi hj
  obtain ⟨k', hk', _, hcell', hplace'⟩ := exists_takeOut cells hi hk
  rw [hcell, hcell'] at heq
  have hsame := h j' hj' k' hk' heq
  split at hplace <;> split at hplace' <;> omega

end TakeOut

end CompactIndex
