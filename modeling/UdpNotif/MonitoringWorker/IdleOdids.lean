import UdpNotif.MonitoringWorker.MonitoringPass

/-!
Updates and complete passes of the monitoring thread, one after the other, with
allocations that succeed. Beside the counters stands, for every odid, the number of
passes in a row that found its counters zero. A removal moves the last cell of the index
to the place of the one removed; when the loop comes to the old cell, it counts there,
behind the length of the index, and the cell that is listed falls behind.
-/

namespace UdpNotif

/-- The counters of a worker after a pass whose allocations succeed. -/
def afterPass (counters : SegCounters) : Option SegCounters :=
  (monitoringPass (fun _ => ⟨⟨true, true⟩, true⟩) counters).map Prod.snd

/-- The passes in a row that have found the counters of an odid zero, after one more. -/
def SegCounters.idleAfter (counters : SegCounters) (idle : Uint32 → Nat) (odid : Uint32) : Nat :=
  if odidCounterHasValues (counters.lookup odid) then 0 else idle odid + 1

/-- A pass comes to the cell of every odid before the cell falls behind the length of the
index, but for an odid that it removes, or whose activity is zero and stays zero. -/
def SegCounters.PassInPlace (counters : SegCounters) : Prop :=
  ∀ j < counters.activeOdidsLength.toNat, counters.InPlace j ∨ counters.removesAt j = true ∨
    counters.hasValuesAt j = true ∧ (counters.activeOdids j).active = 0

instance (counters : SegCounters) : Decidable counters.PassInPlace :=
  inferInstanceAs (Decidable (∀ _ < _, _))

/-- The index lists every odid with the passes in a row that found its counters zero. -/
structure CountsIdle (counters : SegCounters) (idle : Uint32 → Nat) : Prop where
  consistent : Consistent counters
  active : ∀ cell, counters.Lists cell → cell.active = idle cell.observationDomainId

section Worker

variable {counters counters' start finish : SegCounters} {idle : Uint32 → Nat} {odid : Uint32}

/-- What an update lists: what was listed, and its odid if it is new. -/
theorem Consistent.lists_update (h : Consistent counters) {kind : SegmentKind} {mid : Uint32}
    (hupdate : updateSegment kind ⟨true, true⟩ counters odid mid = some counters')
    {cell : ActiveOdid} (hlists : counters'.Lists cell) :
    counters.lookup odid = none ∧ cell = ⟨odid, 0⟩ ∨ counters.Lists cell := by
  obtain ⟨found, next, hget, hcase⟩ := updateSegment_cases hupdate
  have hnext : next.Lists cell := by
    rcases hcase with ⟨_, rfl⟩ | ⟨_, _, _, rfl, _⟩
    · exact hlists
    · exact hlists
  by_cases hnone : counters.lookup odid = none
  · obtain ⟨hcells, hlength, _⟩ := h.get_new hnone rfl hget
    unfold SegCounters.Lists at hnext
    rw [hcells, hlength, CompactIndex.listed_append] at hnext
    exact hnext.imp_left (fun hcell => ⟨hnone, hcell⟩)
  · rw [getOdidCounter_same (Or.inl hnone) hget] at hnext
    exact Or.inr hnext

/-- An update removes no counter. -/
theorem updateSegment_stored {kind : SegmentKind} {mallocs : CounterMallocs} {mid k : Uint32}
    (hupdate : updateSegment kind mallocs counters odid mid = some counters')
    (hstored : counters.lookup k ≠ none) : counters'.lookup k ≠ none := by
  obtain ⟨found, next, hget, hcase⟩ := updateSegment_cases hupdate
  have hnext : next.lookup k ≠ none := by
    rw [lookup_getOdidCounter hget]
    split
    · rename_i hk
      rcases getOdidCounter_cases hget with ⟨_, _, rfl, _⟩ | ⟨_, _, rfl, _⟩ | ⟨hnone, _, _, _⟩
      · exact Option.some_ne_none _
      · exact Option.some_ne_none _
      · exact absurd (hk ▸ hnone) hstored
    · exact hstored
  rcases hcase with ⟨_, rfl⟩ | ⟨_, _, _, rfl, _⟩
  · exact hnext
  · exact (SegCounters.lookup_store_ne_none _ k).mpr hnext

theorem CountsIdle.update (h : CountsIdle counters idle) {kind : SegmentKind} {mid : Uint32}
    (hupdate : updateSegment kind ⟨true, true⟩ counters odid mid = some counters') :
    CountsIdle counters'
      (if counters.lookup odid = none then Function.update idle odid 0 else idle) := by
  refine ⟨h.consistent.update hupdate, fun cell hlists => ?_⟩
  rcases h.consistent.lists_update hupdate hlists with ⟨hnone, rfl⟩ | hold
  · rw [if_pos hnone, Function.update_self]
    rfl
  · rw [h.active cell hold]
    split
    · rename_i hnone
      have hstored : counters.lookup cell.observationDomainId ≠ none :=
        (h.consistent.listed _).mpr ⟨cell.active, hold⟩
      have hne : cell.observationDomainId ≠ odid := fun heq => hstored (heq ▸ hnone)
      rw [Function.update_of_ne hne]
    · rfl

/-- A pass is defined, and leaves what its visits leave. -/
theorem Consistent.exists_afterPass (h : Consistent start) :
    ∃ log finish, afterPass start = some finish ∧
      AfterVisits start (fun _ => ⟨⟨true, true⟩, true⟩) start.activeOdidsLength.toNat log
        finish := by
  obtain ⟨log, finish, hpass, hafter⟩ := visits_afterVisits h
    (fun _ => ⟨⟨true, true⟩, true⟩) (Nat.le_refl start.activeOdidsLength.toNat)
  refine ⟨log, finish, ?_, hafter⟩
  rw [afterPass, monitoringPass, hpass]
  rfl

theorem Consistent.afterVisits (h : Consistent start) (hpass : afterPass start = some finish) :
    ∃ log, AfterVisits start (fun _ => ⟨⟨true, true⟩, true⟩) start.activeOdidsLength.toNat log
      finish := by
  obtain ⟨log, finish', hpass', hafter⟩ := h.exists_afterPass
  obtain rfl := Option.some.inj (hpass.symm.trans hpass')
  exact ⟨log, hafter⟩

/-- A stored odid has a cell of the index. -/
theorem Consistent.exists_odidAt (h : Consistent start) (hstored : start.lookup odid ≠ none) :
    ∃ j < start.activeOdidsLength.toNat, start.odidAt j = odid :=
  (start.exists_lists_iff odid).mp ((h.listed odid).mp hstored)

/-- A pass removes the odid of a cell, or keeps its counter. -/
theorem AfterVisits.lookup_eq_none_iff {mallocs : Nat → VisitMallocs} {y : Nat} {log : List Visit}
    (h : AfterVisits start mallocs y log finish) (hstart : Consistent start)
    (hy : y ≤ start.activeOdidsLength.toNat) {j : Nat} (hj : j < y) :
    finish.lookup (start.odidAt j) = none ↔ start.removesAt j = true := by
  have hstored := hstart.lookup_ne_none (hj.trans_le hy)
  rw [h.visited j hj, SegCounters.lookupAfter]
  split
  · exact iff_of_true rfl ‹_›
  · refine iff_of_false ?_ ‹_›
    split
    · rwa [Option.map_eq_none_iff]
    · exact hstored

theorem CountsIdle.active_eq (h : CountsIdle start idle) {j : Nat}
    (hj : j < start.activeOdidsLength.toNat) :
    (start.activeOdids j).active = idle (start.odidAt j) :=
  h.active _ ⟨j, hj, rfl⟩

/-- The next pass removes an odid exactly if it finds the counters zero, as it has found them
four times in a row. -/
theorem CountsIdle.removed_iff (h : CountsIdle start idle) (hpass : afterPass start = some finish)
    (hstored : start.lookup odid ≠ none) :
    finish.lookup odid = none ↔
      odidCounterHasValues (start.lookup odid) = false ∧ (idle odid : Int) = odidTimeToLive := by
  obtain ⟨j, hj, rfl⟩ := h.consistent.exists_odidAt hstored
  obtain ⟨log, hafter⟩ := h.consistent.afterVisits hpass
  rw [hafter.lookup_eq_none_iff h.consistent (Nat.le_refl _) hj, ← h.active_eq hj,
    SegCounters.removesAt, Bool.and_eq_true, Bool.not_eq_true', decide_eq_true_eq]
  rfl

/-- A cell that is listed after a pass is that of an odid that the pass has kept. -/
theorem AfterVisits.listed_cell {mallocs : Nat → VisitMallocs} {log : List Visit}
    (h : AfterVisits start mallocs start.activeOdidsLength.toNat log finish)
    (hstart : Consistent start) {cell : ActiveOdid} (hlists : finish.Lists cell) :
    ∃ j < start.activeOdidsLength.toNat, start.removesAt j = false ∧
      cell = ⟨start.odidAt j, start.listedActive start.activeOdidsLength.toNat j⟩ := by
  have hstored : finish.lookup cell.observationDomainId ≠ none :=
    (h.consistent.listed _).mpr ⟨cell.active, hlists⟩
  obtain ⟨j, hj, hodid⟩ := hstart.exists_odidAt (h.noneNew hstart (Nat.le_refl _) _ hstored)
  have hkept : ¬ start.removesAt j = true := by
    rw [← h.lookup_eq_none_iff hstart (Nat.le_refl _) hj, hodid]
    exact hstored
  refine ⟨j, hj, Bool.eq_false_iff.mpr hkept, ?_⟩
  exact h.consistent.distinct.eq_of_listed hlists (h.lists j hj (fun hnot => hkept hnot.2))
    hodid.symm

/-- A pass keeps the count of every odid exactly if it comes to their cells in time. -/
theorem CountsIdle.pass_iff (h : CountsIdle start idle) (hpass : afterPass start = some finish) :
    CountsIdle finish (start.idleAfter idle) ↔ start.PassInPlace := by
  obtain ⟨log, hafter⟩ := h.consistent.afterVisits hpass
  have hidle (j : Nat) (hj : j < start.activeOdidsLength.toNat) :
      start.activeAfter j = start.idleAfter idle (start.odidAt j) := by
    rw [SegCounters.activeAfter, SegCounters.idleAfter, SegCounters.hasValuesAt]
    split
    · rfl
    · rw [h.active_eq hj]
      rfl
  constructor
  · intro hfinish j hj
    by_cases hplace : start.InPlace j
    · exact Or.inl hplace
    · by_cases hremoves : start.removesAt j = true
      · exact Or.inr (Or.inl hremoves)
      · have hlists := hafter.lists j hj (fun hnot => hremoves hnot.2)
        have hactive : start.listedActive start.activeOdidsLength.toNat j =
            start.activeAfter j := (hfinish.active _ hlists).trans (hidle j hj).symm
        rw [SegCounters.listedActive, if_neg (fun hboth => hplace hboth.2),
          SegCounters.activeAfter] at hactive
        split at hactive
        · exact Or.inr (Or.inr ⟨‹_›, hactive⟩)
        · omega
  · intro hplace
    refine ⟨hafter.consistent, fun cell hlists => ?_⟩
    obtain ⟨j, hj, hkept, rfl⟩ := hafter.listed_cell h.consistent hlists
    change start.listedActive _ j = start.idleAfter idle (start.odidAt j)
    rw [← hidle j hj, SegCounters.listedActive]
    rcases hplace j hj with hin | hremoves | ⟨hvalues, hzero⟩
    · rw [if_pos ⟨hj, hin⟩]
    · rw [hkept] at hremoves
      cases hremoves
    · rw [SegCounters.activeAfter, if_pos hvalues, hzero, ite_self]

end Worker

/-- An update call of a worker, or a complete pass over all workers. -/
inductive IdleEvent (n : Nat) where
  | update (i : Fin n) (kind : SegmentKind) (odid mid : Uint32)
  | pass
deriving DecidableEq

/-- The counters of all workers, and for every odid the passes in a row that found its
counters zero, since it was created or a pass found values. -/
structure IdleWorkers (n : Nat) where
  counters : Fin n → SegCounters
  idle : Fin n → Uint32 → Nat

/-- A pass over all workers. -/
def passAll {n : Nat} (counters : Fin n → SegCounters) : Option (Fin n → SegCounters) :=
  if h : ∀ i, (afterPass (counters i)).isSome = true then
    some (fun i => (afterPass (counters i)).get (h i))
  else none

theorem passAll_eq_some_iff {n : Nat} {counters after : Fin n → SegCounters} :
    passAll counters = some after ↔ ∀ i, afterPass (counters i) = some (after i) := by
  unfold passAll
  constructor
  · intro hpass i
    split at hpass
    · rw [← Option.some.inj hpass, Option.some_get]
    · cases hpass
  · intro hpass
    rw [dif_pos (fun i => by rw [hpass i]; rfl)]
    exact congrArg some (funext fun i => by simp only [hpass, Option.get_some])

namespace IdleWorkers

variable {n : Nat}

/-- The counters of all threads are initialised. -/
def start (threadId : Fin n → Nat) (type : Fin n → ThreadType)
    (uninitialised : Fin n → Nat → ActiveOdid) : IdleWorkers n where
  counters := fun i => initCounters (threadId i) (type i) (uninitialised i)
  idle := fun _ _ => 0

/-- What an event leads to, unless it is undefined. -/
def next (s : IdleWorkers n) : IdleEvent n → Option (IdleWorkers n)
  | .update i kind odid mid =>
      (updateSegment kind ⟨true, true⟩ (s.counters i) odid mid).map fun counters =>
        { counters := Function.update s.counters i counters
          idle := Function.update s.idle i
            (if (s.counters i).lookup odid = none then Function.update (s.idle i) odid 0
            else s.idle i) }
  | .pass => (passAll s.counters).map fun counters =>
      { counters, idle := fun i => (s.counters i).idleAfter (s.idle i) }

/-- A step of the system. -/
def Step (s : IdleWorkers n) (event : IdleEvent n) (s' : IdleWorkers n) : Prop :=
  s.next event = some s'

/-- Every worker's index lists its odids with their counts. -/
def CountIdle (s : IdleWorkers n) : Prop := ∀ i, CountsIdle (s.counters i) (s.idle i)

/-- A pass comes to the cells of all workers in time. -/
def InPlaceStep (s : IdleWorkers n) (event : IdleEvent n) (_ : IdleWorkers n) : Prop :=
  event = .pass → ∀ i, (s.counters i).PassInPlace

instance (s : IdleWorkers n) (event : IdleEvent n) (s' : IdleWorkers n) :
    Decidable (InPlaceStep s event s') :=
  inferInstanceAs (Decidable (_ → _))

variable {s s' : IdleWorkers n} {event : IdleEvent n}

theorem start_countIdle (threadId : Fin n → Nat) (type : Fin n → ThreadType)
    (uninitialised : Fin n → Nat → ActiveOdid) :
    CountIdle (start threadId type uninitialised) := by
  refine fun i => ⟨initCounters_consistent (threadId i) (type i) (uninitialised i), ?_⟩
  intro cell hlists
  exact absurd hlists (CompactIndex.not_listed_zero _ _)

theorem step_pass_iff : Step s .pass s' ↔
    (∀ i, afterPass (s.counters i) = some (s'.counters i)) ∧
      ∀ i, s'.idle i = (s.counters i).idleAfter (s.idle i) := by
  rw [Step, next, Option.map_eq_some_iff]
  constructor
  · rintro ⟨after, hpass, rfl⟩
    exact ⟨passAll_eq_some_iff.mp hpass, fun _ => rfl⟩
  · rintro ⟨hpass, hidle⟩
    refine ⟨_, passAll_eq_some_iff.mpr hpass, ?_⟩
    cases s'
    exact congrArg _ (funext fun i => (hidle i).symm)

theorem CountIdle.exists_pass (h : CountIdle s) : ∃ s', Step s .pass s' := by
  choose _ after hpass _ using fun i => (h i).consistent.exists_afterPass
  exact ⟨⟨after, fun i => (s.counters i).idleAfter (s.idle i)⟩,
    step_pass_iff.mpr ⟨hpass, fun _ => rfl⟩⟩

/-- A pass keeps the counts of all odids exactly if it comes to their cells in time. -/
theorem CountIdle.pass_iff (h : CountIdle s) (hpass : Step s .pass s') :
    CountIdle s' ↔ InPlaceStep s .pass s' := by
  obtain ⟨hafter, hidle⟩ := step_pass_iff.mp hpass
  unfold CountIdle InPlaceStep
  simp only [hidle, (h _).pass_iff (hafter _), forall_const]

theorem CountIdle.step (h : CountIdle s) (hstep : Step s event s')
    (hcond : InPlaceStep s event s') : CountIdle s' := by
  cases event with
  | pass => exact (h.pass_iff hstep).mpr hcond
  | update i kind odid mid =>
      obtain ⟨counters, hupdate, rfl⟩ := Option.map_eq_some_iff.mp hstep
      intro j
      by_cases hj : j = i
      · subst hj
        simp only [Function.update_self]
        exact (h j).update hupdate
      · simp only [Function.update_of_ne hj]
        exact h j

theorem countIdle_run {threadId : Fin n → Nat} {type : Fin n → ThreadType}
    {uninitialised : Fin n → Nat → ActiveOdid} {events : List (IdleEvent n)}
    (hrun : Runs.Run (Runs.Restrict Step InPlaceStep) (start threadId type uninitialised)
      events s) : CountIdle s :=
  hrun.invariant (I := fun _ s => CountIdle s) (start_countIdle threadId type uninitialised)
    (fun _ _ _ _ _ h hstep => h.step hstep.1 hstep.2)

/-- A step removes an odid exactly if it is a pass that finds the counters zero, for the
fifth time in a row. -/
theorem CountIdle.removed_iff (h : CountIdle s) (hstep : Step s event s') (i : Fin n)
    {odid : Uint32} (hstored : (s.counters i).lookup odid ≠ none) :
    (s'.counters i).lookup odid = none ↔ event = .pass ∧
      odidCounterHasValues ((s.counters i).lookup odid) = false ∧
      (s.idle i odid : Int) = odidTimeToLive := by
  cases event with
  | pass =>
      rw [(h i).removed_iff ((step_pass_iff.mp hstep).1 i) hstored, and_iff_right rfl]
  | update j kind odid' mid =>
      obtain ⟨counters, hupdate, rfl⟩ := Option.map_eq_some_iff.mp hstep
      refine iff_of_false ?_ (fun hpass => by cases hpass.1)
      dsimp only
      by_cases hi : i = j
      · subst hi
        rw [Function.update_self]
        exact updateSegment_stored hupdate hstored
      · rw [Function.update_of_ne hi]
        exact hstored

/-- In a run whose passes come to all cells in time, an odid is removed exactly by the fifth
pass in a row that finds its counters zero. -/
theorem removed_when_idle {threadId : Fin n → Nat} {type : Fin n → ThreadType}
    {uninitialised : Fin n → Nat → ActiveOdid} {events : List (IdleEvent n)}
    (hrun : Runs.Run (Runs.Restrict Step InPlaceStep) (start threadId type uninitialised)
      events s) :
    (∃ s', Step s .pass s') ∧ ∀ event s', Step s event s' → ∀ i odid,
      (s.counters i).lookup odid ≠ none →
        ((s'.counters i).lookup odid = none ↔ event = .pass ∧
          odidCounterHasValues ((s.counters i).lookup odid) = false ∧
          (s.idle i odid : Int) = odidTimeToLive) :=
  ⟨(countIdle_run hrun).exists_pass, fun _ _ hstep i _ hstored =>
    (countIdle_run hrun).removed_iff hstep i hstored⟩

/-- The second of two odids in a bucket falls silent after its first segment. -/
def silentEvents : List (IdleEvent 1) :=
  let update := IdleEvent.update (Fin.last 0)
  [update .received 17 1, update .received 7 1, .pass, update .received 17 2, .pass,
    update .received 17 3, .pass, update .dropped 17 4, .pass, update .received 17 5, .pass]

/-- It is removed by the fifth pass that finds its counters zero, and the other one stays. -/
theorem removed_when_idle_fifth_pass : ∃ s s' : IdleWorkers 1,
    Runs.Run (Runs.Restrict Step InPlaceStep)
      (start (fun _ => 0) (fun _ => .parserWorker) (fun _ _ => ⟨0, 0⟩)) silentEvents s ∧
    Step s .pass s' ∧ (s.counters 0).lookup 7 ≠ none ∧ (s'.counters 0).lookup 17 ≠ none ∧
    (s'.counters 0).lookup 7 = none ∧ (s.idle 0 7 : Int) = odidTimeToLive := by
  have hcomputed : ((silentEvents.foldlM
      (fun (s : IdleWorkers 1) event =>
        (s.next event).filter fun s' => decide (InPlaceStep s event s'))
      (start (fun _ => 0) (fun _ => .parserWorker) (fun _ _ => ⟨0, 0⟩))).any fun s =>
        (s.next .pass).any fun s' => decide ((s.counters 0).lookup 7 ≠ none ∧
          (s'.counters 0).lookup 17 ≠ none ∧ (s'.counters 0).lookup 7 = none)) = true := by
    decide +kernel
  obtain ⟨s, hevents, hnext⟩ := (Option.any_eq_true _ _).mp hcomputed
  obtain ⟨s', hpass, hodids⟩ := (Option.any_eq_true _ _).mp hnext
  obtain ⟨hstored, hbusy, hremoved⟩ := of_decide_eq_true hodids
  have hrun : Runs.Run (Runs.Restrict Step InPlaceStep)
      (start (fun _ => 0) (fun _ => .parserWorker) (fun _ _ => ⟨0, 0⟩)) silentEvents s :=
    (Runs.run_restrict_iff_foldlM.mpr hevents).imp
      fun _ _ _ hstep => ⟨hstep.1, of_decide_eq_true hstep.2⟩
  obtain ⟨_, _, hidle⟩ := ((removed_when_idle hrun).2 .pass s' hpass 0 7 hstored).mp hremoved
  exact ⟨s, s', hrun, hpass, hstored, hbusy, hremoved, hidle⟩

/-- Two odids become idle together. Before the pass that removes the first, the second is
updated. That pass moves its cell, so that the listed activity stays 4, and the next pass
removes the second odid, the first time it finds its counters zero. -/
theorem removed_after_one_idle_pass :
    ¬ ∀ (n : Nat) (threadId : Fin n → Nat) (type : Fin n → ThreadType)
        (uninitialised : Fin n → Nat → ActiveOdid) (events : List (IdleEvent n)) s,
        Runs.Run Step (start threadId type uninitialised) events s →
        ∀ event s', Step s event s' → ∀ i odid, (s.counters i).lookup odid ≠ none →
          ((s'.counters i).lookup odid = none ↔ event = .pass ∧
            odidCounterHasValues ((s.counters i).lookup odid) = false ∧
            (s.idle i odid : Int) = odidTimeToLive) := by
  intro hclaim
  have hcomputed : (([.update 0 .received 1 1, .update 0 .received 2 1, .pass, .pass, .pass,
      .pass, .pass, .update 0 .received 2 2, .pass] : List (IdleEvent 1)).foldlM next
        (start (fun _ => 0) (fun _ => .parserWorker) (fun _ _ => ⟨0, 0⟩))).any
      (fun s => (s.next .pass).any fun s' => decide ((s.counters 0).lookup 2 ≠ none ∧
        s.idle 0 2 = 0 ∧ (s'.counters 0).lookup 2 = none)) = true := by decide +kernel
  obtain ⟨s, hevents, hnext⟩ := (Option.any_eq_true _ _).mp hcomputed
  obtain ⟨s', hpass, hodid⟩ := (Option.any_eq_true _ _).mp hnext
  obtain ⟨hstored, hidle, hremoved⟩ := of_decide_eq_true hodid
  have hrun := Runs.run_iff_foldlM.mpr hevents
  obtain ⟨_, _, hfour⟩ := (hclaim 1 _ _ _ _ s hrun .pass s' hpass 0 2 hstored).mp hremoved
  rw [hidle] at hfour
  exact absurd hfour (by decide)

/-- The steps of the monitoring thread through the first workers of a pass. -/
theorem run_firstWorkers {m : Monitoring n} {after : Fin n → SegCounters}
    (hposition : m.position = .asleep) (hpass : ∀ i, afterPass (m.counters i) = some (after i))
    {k : Nat} (hk : k ≤ n) :
    ∃ events m', Runs.Run Monitoring.Step m events m' ∧ m'.position = m'.enter k ∧
      ∀ i, m'.counters i = if (i : Nat) < k then after i else m.counters i := by
  induction k with
  | zero =>
      have hwake : Monitoring.Step m (.monitor ⟨true, true⟩ true)
          { m with position := m.enter 0 } := by
        simp only [Monitoring.Step, Monitoring.next, Monitoring.monitor, hposition]
      exact ⟨_, _, Runs.Run.nil.snoc hwake, rfl, fun i => rfl⟩
  | succ k ih =>
      obtain ⟨events, m₁, hrun, henter, hcounters⟩ := ih (by omega)
      obtain ⟨⟨log, finish⟩, hfinish, hafter⟩ := Option.map_eq_some_iff.mp (hpass ⟨k, hk⟩)
      have hsame : m₁.counters ⟨k, hk⟩ = m.counters ⟨k, hk⟩ :=
        (hcounters _).trans (if_neg (Nat.lt_irrefl k))
      rw [Monitoring.enter, dif_pos (Nat.lt_of_succ_le hk)] at henter
      obtain ⟨m₂, hworker, hcounters₂, henter₂, _⟩ :=
        Monitoring.run_monitoringPass henter (fun _ => ⟨⟨true, true⟩, true⟩) (hsame ▸ hfinish)
      refine ⟨_, m₂, hrun.append hworker, henter₂, fun i => ?_⟩
      rw [hcounters₂]
      by_cases hi : i = ⟨k, hk⟩
      · rw [hi, Function.update_self, if_pos (Nat.lt_succ_self k), ← hafter]
      · have hne : (i : Nat) ≠ k := fun heq => hi (Fin.ext heq)
        have hlt : (i : Nat) < k + 1 ↔ (i : Nat) < k := by omega
        rw [Function.update_of_ne hi, hcounters, if_congr hlt rfl rfl]

/-- Updates and complete passes are a run of the workers and the monitoring thread. -/
theorem exists_monitoring_run {threadId : Fin n → Nat} {type : Fin n → ThreadType}
    {uninitialised : Fin n → Nat → ActiveOdid} {events : List (IdleEvent n)}
    (hrun : Runs.Run Step (start threadId type uninitialised) events s) :
    ∃ events' m, Runs.Run Monitoring.Step (Monitoring.start threadId type uninitialised)
      events' m ∧ m.counters = s.counters ∧ m.position = .asleep := by
  induction hrun with
  | nil => exact ⟨[], _, .nil, rfl, rfl⟩
  | @snoc _ t event u _ hstep ih =>
      obtain ⟨events', m, hrun, hcounters, hposition⟩ := ih
      cases event with
      | update i kind odid mid =>
          obtain ⟨counters, hupdate, rfl⟩ := Option.map_eq_some_iff.mp hstep
          rw [← hcounters] at hupdate
          have hlast : Monitoring.Step m (.update i kind ⟨true, true⟩ odid mid) _ :=
            congrArg (Option.map _) hupdate
          exact ⟨_, _, hrun.snoc hlast, congrArg (fun c => Function.update c i counters) hcounters,
            hposition⟩
      | pass =>
          obtain ⟨hafter, _⟩ := step_pass_iff.mp hstep
          rw [← hcounters] at hafter
          obtain ⟨_, m', hpass, henter, hcounters'⟩ :=
            run_firstWorkers hposition hafter (Nat.le_refl n)
          refine ⟨_, m', hrun.append hpass, ?_, ?_⟩
          · funext i
            rw [hcounters', if_pos i.isLt]
          · rw [henter, Monitoring.enter, dif_neg (Nat.lt_irrefl n)]

end IdleWorkers

end UdpNotif
