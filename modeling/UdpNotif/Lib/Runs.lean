import Mathlib.Tactic

/-!
Finite runs of a labelled transition relation, with the labels in the order in
which they were taken. An invariant may speak about the labels and the state.
A run whose steps all meet a condition is a run of the relation restricted to
that condition.
-/

namespace Runs

variable {σ ℓ : Type*}

/-- `Run step s ls t`: the steps labelled `ls`, in this order, lead from `s` to `t`. -/
inductive Run (step : σ → ℓ → σ → Prop) (s : σ) : List ℓ → σ → Prop where
  | nil : Run step s [] s
  | snoc {ls : List ℓ} {t : σ} {l : ℓ} {u : σ} :
      Run step s ls t → step t l u → Run step s (ls ++ [l]) u

/-- The steps of a relation that meet a condition. -/
def Restrict (step cond : σ → ℓ → σ → Prop) (s : σ) (l : ℓ) (t : σ) : Prop :=
  step s l t ∧ cond s l t

variable {step : σ → ℓ → σ → Prop} {s t : σ} {ls : List ℓ}

/-- What holds at the start and is preserved by every step holds along a run. -/
theorem Run.invariant {I : List ℓ → σ → Prop} (h : Run step s ls t) (hinit : I [] s)
    (hstep : ∀ ls t l u, Run step s ls t → I ls t → step t l u → I (ls ++ [l]) u) :
    I ls t := by
  induction h with
  | nil => exact hinit
  | snoc hrun hlast ih => exact hstep _ _ _ _ hrun ih hlast

theorem run_nil_iff : Run step s [] t ↔ s = t := by
  constructor
  · intro h
    generalize hls : ([] : List ℓ) = ls' at h
    cases h with
    | nil => rfl
    | snoc => exact absurd hls.symm (List.append_ne_nil_of_right_ne_nil _ (List.cons_ne_nil _ _))
  · rintro rfl
    exact .nil

/-- A run ends with its last step. -/
theorem run_concat_iff {l : ℓ} : Run step s (ls ++ [l]) t ↔ ∃ u, Run step s ls u ∧ step u l t := by
  constructor
  · intro h
    generalize hls : ls ++ [l] = ls' at h
    cases h with
    | nil => exact absurd hls (List.append_ne_nil_of_right_ne_nil _ (List.cons_ne_nil _ _))
    | snoc hrun hlast =>
        obtain ⟨rfl, hl⟩ := List.append_inj' hls rfl
        obtain rfl := List.head_eq_of_cons_eq hl
        exact ⟨_, hrun, hlast⟩
  · rintro ⟨u, hrun, hlast⟩
    exact .snoc hrun hlast

/-- A run of steps that a function computes is computed by its iteration. -/
theorem run_iff_foldlM {next : σ → ℓ → Option σ} :
    Run (fun s l t => next s l = some t) s ls t ↔ ls.foldlM next s = some t := by
  induction ls using List.reverseRecOn generalizing t with
  | nil =>
      rw [run_nil_iff, List.foldlM_nil]
      exact Option.some_inj.symm
  | append_singleton ls l ih =>
      rw [run_concat_iff, List.foldlM_append]
      simp only [ih, List.foldlM_cons, List.foldlM_nil, Option.bind_eq_bind,
        Option.bind_eq_some_iff, Option.pure_def, Option.some.injEq, exists_eq_right]

/-- The same for the steps that pass a test. -/
theorem run_restrict_iff_foldlM {next : σ → ℓ → Option σ} {test : σ → ℓ → σ → Bool} :
    Run (Restrict (fun s l t => next s l = some t) (fun s l t => test s l t = true)) s ls t ↔
      ls.foldlM (fun s l => (next s l).filter (test s l)) s = some t := by
  rw [← run_iff_foldlM]
  have hsame : Restrict (fun s l t => next s l = some t) (fun s l t => test s l t = true) =
      fun s l t => (next s l).filter (test s l) = some t := by
    funext s l t
    exact propext Option.filter_eq_some_iff.symm
  rw [hsame]

/-- Runs can be taken one after the other. -/
theorem Run.append {ls' : List ℓ} {u : σ} (h : Run step s ls t) (h' : Run step t ls' u) :
    Run step s (ls ++ ls') u := by
  induction h' with
  | nil => exact (List.append_nil ls).symm ▸ h
  | snoc _ hlast ih => exact List.append_assoc ls _ _ ▸ ih.snoc hlast

/-- Where every step is determined by its label, so is every run. -/
theorem Run.unique (hunique : ∀ s l t u, step s l t → step s l u → t = u) {u : σ}
    (h : Run step s ls t) (h' : Run step s ls u) : t = u := by
  induction h generalizing u with
  | nil => exact run_nil_iff.mp h'
  | snoc _ hlast ih =>
      obtain ⟨v, hrun, hlast'⟩ := run_concat_iff.mp h'
      obtain rfl := ih hrun
      exact hunique _ _ _ _ hlast hlast'

/-- Steps that an invariant allows, and that keep it, can be taken one after the other. -/
theorem exists_run {I : σ → Prop} {cond : ℓ → Prop} (hinit : I s)
    (hstep : ∀ t l, I t → cond l → ∃ u, step t l u ∧ I u) (hls : ∀ l ∈ ls, cond l) :
    ∃ t, Run step s ls t ∧ I t := by
  induction ls using List.reverseRecOn with
  | nil => exact ⟨s, .nil, hinit⟩
  | append_singleton ls l ih =>
      obtain ⟨t, hrun, ht⟩ := ih (fun l' hl' => hls l' (List.mem_append_left _ hl'))
      have hl := hls l (List.mem_append_right _ (List.mem_singleton_self l))
      obtain ⟨u, hlast, hu⟩ := hstep t l ht hl
      exact ⟨u, .snoc hrun hlast, hu⟩

theorem Run.of_restrict {cond : σ → ℓ → σ → Prop} (h : Run (Restrict step cond) s ls t) :
    Run step s ls t := by
  induction h with
  | nil => exact .nil
  | snoc _ hlast ih => exact .snoc ih hlast.1

/-- A run of some steps is a run of any relation that allows these with its labels. -/
theorem Run.imp_of_mem {step' : σ → ℓ → σ → Prop} (h : Run step s ls t)
    (himp : ∀ l ∈ ls, ∀ s t, step s l t → step' s l t) : Run step' s ls t := by
  induction h with
  | nil => exact .nil
  | @snoc ls t l u _ hlast ih =>
      have hlabel : l ∈ ls ++ [l] := List.mem_append_right _ (List.mem_singleton_self l)
      exact (ih fun l hl => himp l (List.mem_append_left _ hl)).snoc (himp l hlabel _ _ hlast)

theorem Run.imp {step' : σ → ℓ → σ → Prop} (h : Run step s ls t)
    (himp : ∀ s l t, step s l t → step' s l t) : Run step' s ls t :=
  h.imp_of_mem fun l _ s t => himp s l t

/-- A part of a system whose steps are seen in some of the labels, and that the other
steps leave alone, takes a run of its own. -/
theorem Run.project {τ κ : Type*} {part : τ → κ → τ → Prop} {f : σ → τ} {g : ℓ → Option κ}
    (h : Run step s ls t)
    (hsome : ∀ t l u k, step t l u → g l = some k → part (f t) k (f u))
    (hnone : ∀ t l u, step t l u → g l = none → f u = f t) :
    Run part (f s) (ls.filterMap g) (f t) := by
  induction h with
  | nil => exact .nil
  | @snoc ls t l u _ hlast ih =>
      rw [List.filterMap_append]
      cases hl : g l with
      | none =>
          rw [hnone t l u hlast hl, List.filterMap_cons_none hl, List.filterMap_nil,
            List.append_nil]
          exact ih
      | some k =>
          rw [List.filterMap_cons_some hl, List.filterMap_nil]
          exact ih.snoc (hsome t l u k hlast hl)

/-- Steps that lower a measure, and keep what they need for it, are no more than the
measure they start with. -/
theorem Run.length_add_le {I : σ → Prop} {measure : σ → Nat} (h : Run step s ls t) (hs : I s)
    (hstep : ∀ t l u, I t → step t l u → I u ∧ measure u < measure t) :
    I t ∧ ls.length + measure t ≤ measure s := by
  induction h with
  | nil => exact ⟨hs, (Nat.zero_add _).le⟩
  | snoc _ hlast ih =>
      obtain ⟨hkept, hle⟩ := ih
      obtain ⟨hnext, hlt⟩ := hstep _ _ _ hkept hlast
      refine ⟨hnext, ?_⟩
      rw [List.length_append, List.length_singleton]
      omega

/-- Such steps end in a state in which none of them is possible. -/
theorem exists_run_to_end {I : σ → Prop} {measure : σ → Nat} (hs : I s)
    (hstep : ∀ t l u, I t → step t l u → I u ∧ measure u < measure t) :
    ∃ ls t, Run step s ls t ∧ ∀ l u, ¬ step t l u := by
  induction hn : measure s using Nat.strong_induction_on generalizing s with
  | _ n ih =>
      by_cases hend : ∀ l u, ¬ step s l u
      · exact ⟨[], s, .nil, hend⟩
      · simp only [not_forall, not_not] at hend
        obtain ⟨l, u, hlast⟩ := hend
        obtain ⟨hnext, hlt⟩ := hstep s l u hs hlast
        obtain ⟨ls, t, hrun, hstuck⟩ := ih (measure u) (hn ▸ hlt) hnext rfl
        have hfirst : Run step s [l] u := (Run.nil : Run step s [] s).snoc hlast
        exact ⟨[l] ++ ls, t, hfirst.append hrun, hstuck⟩

/-- Where two conditions agree on every step that a run can take, the runs
whose steps all meet the one are the runs whose steps all meet the other. -/
theorem Run.restrict_iff {C P : σ → ℓ → σ → Prop}
    (hiff : ∀ ls t l u, Run step s ls t → step t l u → (C t l u ↔ P t l u)) :
    Run (Restrict step C) s ls t ↔ Run (Restrict step P) s ls t := by
  have hone {C P : σ → ℓ → σ → Prop}
      (himp : ∀ ls t l u, Run step s ls t → step t l u → C t l u → P t l u)
      (h : Run (Restrict step C) s ls t) : Run (Restrict step P) s ls t := by
    induction h with
    | nil => exact .nil
    | snoc hrun hlast ih =>
        exact .snoc ih ⟨hlast.1, himp _ _ _ _ hrun.of_restrict hlast.1 hlast.2⟩
  constructor
  · exact hone (fun ls t l u hrun hlast => (hiff ls t l u hrun hlast).mp)
  · exact hone (fun ls t l u hrun hlast => (hiff ls t l u hrun hlast).mpr)

/-- A fold of steps that a projection takes to other steps projects to a fold of these. -/
theorem foldlM_project {τ : Type*} {f : τ → ℓ → Option τ} {g : σ → ℓ → Option σ} (π : σ → τ)
    (h : ∀ s l, (g s l).map π = f (π s) l) (ls : List ℓ) (s : σ) :
    (ls.foldlM g s).map π = ls.foldlM f (π s) := by
  induction ls generalizing s with
  | nil => rfl
  | cons l ls ih =>
      rw [List.foldlM_cons, List.foldlM_cons, ← h s l]
      cases g s l with
      | none => rfl
      | some t => exact ih t

end Runs
