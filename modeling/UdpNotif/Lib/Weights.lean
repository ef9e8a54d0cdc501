import Mathlib.Tactic

/-!
The weight of a finite family: every member weighs what it is, and changing one
member changes its weight and no other.
-/

namespace Weights

variable {T P : Type*} [Fintype T]

/-- The weights of all members of a family together. -/
def total (weight : P → Nat) (family : T → P) : Nat := ∑ t, weight (family t)

variable (weight : P → Nat) (family : T → P)

/-- A member weighs no more than the whole family. -/
theorem le_total (t : T) : weight (family t) ≤ total weight family :=
  Finset.single_le_sum (f := fun u => weight (family u)) (fun _ _ => Nat.zero_le _)
    (Finset.mem_univ t)

variable {weight family} in
theorem total_eq_zero (h : ∀ t, weight (family t) = 0) : total weight family = 0 :=
  Finset.sum_eq_zero (fun t _ => h t)

variable [DecidableEq T]

/-- One member is replaced. -/
theorem total_update (t : T) (p : P) :
    total weight (Function.update family t p) + weight (family t) =
      total weight family + weight p := by
  have hrest : ∀ u ∈ Finset.univ.erase t,
      weight (Function.update family t p u) = weight (family u) := by
    intro u hu
    rw [Function.update_of_ne (Finset.ne_of_mem_erase hu)]
  have hafter := Finset.add_sum_erase Finset.univ
    (fun u => weight (Function.update family t p u)) (Finset.mem_univ t)
  have hbefore := Finset.add_sum_erase Finset.univ
    (fun u => weight (family u)) (Finset.mem_univ t)
  simp only [Function.update_self] at hafter
  rw [Finset.sum_congr rfl hrest] at hafter
  unfold total
  omega

section Holds

variable {M : Type*} (holds : P → M) (family : T → P) (t : T) (p : P)

/-- One member is replaced, in a family whose members hold something that can be added up. -/
theorem sum_update_add [AddCommMonoid M] :
    (∑ u, holds (Function.update family t p u)) + holds (family t) =
      (∑ u, holds (family u)) + holds p := by
  have hrest : ∀ u ∈ Finset.univ.erase t,
      holds (Function.update family t p u) = holds (family u) := by
    intro u hu
    rw [Function.update_of_ne (Finset.ne_of_mem_erase hu)]
  rw [← Finset.add_sum_erase Finset.univ (fun u => holds (Function.update family t p u))
      (Finset.mem_univ t), ← Finset.add_sum_erase Finset.univ (fun u => holds (family u))
      (Finset.mem_univ t), Finset.sum_congr rfl hrest, Function.update_self]
  abel

variable {holds family t p} in
/-- What one member gains and loses, the family does. -/
theorem sum_update_of [AddCancelCommMonoid M] {lost gained : M}
    (h : holds p + lost = holds (family t) + gained) :
    (∑ u, holds (Function.update family t p u)) + lost = (∑ u, holds (family u)) + gained := by
  apply add_right_cancel (b := holds (family t))
  calc (∑ u, holds (Function.update family t p u)) + lost + holds (family t)
      = (∑ u, holds (Function.update family t p u)) + holds (family t) + lost := by abel
    _ = (∑ u, holds (family u)) + (holds p + lost) := by
        rw [sum_update_add, add_assoc]
    _ = (∑ u, holds (family u)) + gained + holds (family t) := by
        rw [h]
        abel

/-- What came in is held or gone, also after a step that balances what it adds and removes. -/
theorem account_step [AddCommMonoid M] {came held gone held' added removed : M}
    (h : came = held + gone) (hstep : held' + removed = held + added) :
    came + added = held' + (gone + removed) := by
  calc came + added = held + added + gone := by
        rw [h]
        abel
    _ = held' + (gone + removed) := by
        rw [← hstep]
        abel

end Holds

end Weights
