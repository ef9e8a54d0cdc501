import UdpNotif.MonitoringWorker.ActiveIndex
import UdpNotif.MonitoringWorker.Conservation

/-!
One pass of the monitoring thread over a worker, without an update in between. The
loop runs to the length of the index array before the pass. A removal puts the last
cell in the place of the one removed, so that later cells are read behind the length;
they still hold what they held before the pass.
-/

namespace UdpNotif

/-- The allocations of one iteration: those of the lookup and that of the summary. -/
structure VisitMallocs where
  lookup : CounterMallocs
  summary : Bool

/-- What an iteration did: the odid that it read, and what it handed to the queue. -/
structure Visit where
  odid : Uint32
  summary : Option SumCounter

/-- The first iterations of the loop over a worker. -/
def visits (mallocs : Nat → VisitMallocs) (counters : SegCounters) :
    Nat → Option (List Visit × SegCounters)
  | 0 => some ([], counters)
  | y + 1 => do
      let (log, counters) ← visits mallocs counters y
      let cell ← counters.readActive y
      let (summary, counters) ←
        visitActiveOdid (mallocs y).lookup (mallocs y).summary counters y
      some (log ++ [⟨cell.observationDomainId, summary⟩], counters)

/-- One pass over a worker, to the length that its index has before. -/
def monitoringPass (mallocs : Nat → VisitMallocs) (counters : SegCounters) :
    Option (List Visit × SegCounters) :=
  visits mallocs counters counters.activeOdidsLength.toNat

section Outcome

variable (start : SegCounters)

/-- The counter of the odid in a cell has values. -/
def SegCounters.hasValuesAt (j : Nat) : Bool :=
  odidCounterHasValues (start.lookup (start.odidAt j))

/-- A pass removes the odid in a cell. -/
def SegCounters.removesAt (j : Nat) : Bool :=
  !start.hasValuesAt j && decide ((start.activeOdids j).active = odidTimeToLive)

/-- The number of removals before a pass comes to a cell. -/
def SegCounters.removedBefore (y : Nat) : Nat := (List.range y).countP start.removesAt

/-- The summary that a pass writes for a cell. -/
def SegCounters.summaryAt (mallocs : Nat → VisitMallocs) (j : Nat) : Option SumCounter :=
  if start.removesAt j then none
  else getSummary (mallocs j).summary (start.lookup (start.odidAt j)) start.threadId start.type

/-- The counter that a pass leaves to the odid in a cell. -/
def SegCounters.lookupAfter (mallocs : Nat → VisitMallocs) (j : Nat) : Option OdidCounter :=
  if start.removesAt j then none
  else if (mallocs j).summary then (start.lookup (start.odidAt j)).map reinitOdidCounters
  else start.lookup (start.odidAt j)

/-- The activity that a visit writes to a cell. -/
def SegCounters.activeAfter (j : Nat) : Int :=
  if start.hasValuesAt j then 0 else (start.activeOdids j).active + 1

/-- A visit finds its cell among the listed ones. Where it does not, the odid has moved
to the place of one that was removed before. -/
def SegCounters.InPlace (j : Nat) : Prop :=
  j + start.removedBefore j < start.activeOdidsLength.toNat

instance (j : Nat) : Decidable (start.InPlace j) :=
  inferInstanceAs (Decidable (_ < _))

/-- The activity that is listed for the odid in a cell after `y` visits. -/
def SegCounters.listedActive (y j : Nat) : Int :=
  if j < y ∧ start.InPlace j then start.activeAfter j else (start.activeOdids j).active

theorem SegCounters.removedBefore_succ (y : Nat) :
    start.removedBefore (y + 1) = start.removedBefore y + if start.removesAt y then 1 else 0 := by
  rw [SegCounters.removedBefore, List.range_succ, List.countP_append, List.countP_singleton]
  rfl

theorem SegCounters.listedActive_succ {y j : Nat} (hne : j ≠ y) :
    start.listedActive (y + 1) j = start.listedActive y j := by
  have hlt : j < y + 1 ↔ j < y := by omega
  simp only [SegCounters.listedActive, hlt]

theorem SegCounters.listedActive_self (y : Nat) :
    start.listedActive (y + 1) y =
      if start.InPlace y then start.activeAfter y else (start.activeOdids y).active := by
  simp only [SegCounters.listedActive, Nat.lt_succ_self, true_and]

end Outcome

/-- A visit of a stored odid, which the lookup finds. -/
theorem visitActiveOdid_stored {counters : SegCounters} {y : Nat} {counter : OdidCounter}
    (hy : y < counters.activeOdidsMaxLength.toNat)
    (hstored : counters.lookup (counters.odidAt y) = some counter) (mallocs : CounterMallocs)
    (malloc : Bool) :
    visitActiveOdid mallocs malloc counters y = some (
      if counters.removesAt y then (none, removeOdidCounter counters (counters.odidAt y))
      else ((sendSummary malloc counters (some counter)).1,
        { (sendSummary malloc counters (some counter)).2 with
          activeOdids := Function.update counters.activeOdids y
            ⟨counters.odidAt y, counters.activeAfter y⟩ })) := by
  have hget : getOdidCounter mallocs counters (counters.odidAt y) =
      some (some counter, counters) := by
    have hfind : ChainedTable.find OdidCounter.observationDomainId (counters.odidAt y)
        (counters.odidCounters (odidHashKey (counters.odidAt y))) = some counter := hstored
    simp only [getOdidCounter, hfind]
  have hread : counters.readActive y = some (counters.activeOdids y) := if_pos hy
  have hsent := sendSummary_activeOdids malloc counters (some counter)
  have hy' : y < (sendSummary malloc counters (some counter)).2.activeOdidsMaxLength.toNat := by
    rw [hsent.2]
    exact hy
  have hwrite (cell : ActiveOdid) :
      (sendSummary malloc counters (some counter)).2.writeActive y cell =
        some { (sendSummary malloc counters (some counter)).2 with
          activeOdids := Function.update counters.activeOdids y cell } := by
    rw [SegCounters.writeActive, if_pos hy', hsent.1]
  have hvalues : counters.hasValuesAt y = odidCounterHasValues (some counter) := by
    rw [SegCounters.hasValuesAt, hstored]
  unfold SegCounters.odidAt at hget
  simp only [visitActiveOdid, hread, Option.bind_eq_bind, Option.bind_some, hget, hwrite,
    SegCounters.removesAt, SegCounters.activeAfter, hvalues, SegCounters.odidAt]
  cases odidCounterHasValues (some counter) with
  | true => rfl
  | false =>
      by_cases hactive : (counters.activeOdids y).active = odidTimeToLive
      · simp [hactive]
      · simp [hactive]

/-- What a summary of a stored odid leaves of the counters. -/
theorem sendSummary_stored {counters : SegCounters} {odid : Uint32} {counter : OdidCounter}
    (hstored : counters.lookup odid = some counter) (malloc : Bool) :
    (sendSummary malloc counters (some counter)).1 =
        getSummary malloc (some counter) counters.threadId counters.type ∧
      (sendSummary malloc counters (some counter)).2.lookup odid =
        (if malloc then some (reinitOdidCounters counter) else some counter) ∧
      (∀ k, k ≠ odid → (sendSummary malloc counters (some counter)).2.lookup k =
        counters.lookup k) := by
  have hodid := SegCounters.lookup_odid hstored
  cases malloc with
  | false => exact ⟨rfl, hstored, fun _ _ => rfl⟩
  | true =>
      have hold := SegCounters.lookup_reinit hstored
      refine ⟨rfl, ?_, fun k hk => ?_⟩
      · exact (SegCounters.lookup_store hold odid).trans (if_pos hodid.symm)
      · exact (SegCounters.lookup_store hold k).trans (if_neg (fun heq => hk (heq.trans hodid)))

theorem sendSummary_frame (malloc : Bool) (counters : SegCounters) (found : Option OdidCounter) :
    (sendSummary malloc counters found).2.threadId = counters.threadId ∧
      (sendSummary malloc counters found).2.type = counters.type ∧
      (sendSummary malloc counters found).2.activeOdidsLength = counters.activeOdidsLength := by
  cases found with
  | none => exact ⟨rfl, rfl, rfl⟩
  | some counter => cases malloc <;> exact ⟨rfl, rfl, rfl⟩

theorem removeOdidCounter_frame (counters : SegCounters) (odid : Uint32) :
    (removeOdidCounter counters odid).threadId = counters.threadId ∧
      (removeOdidCounter counters odid).type = counters.type := by
  rw [removeOdidCounter, removeActiveOdid]
  split <;> exact ⟨rfl, rfl⟩

theorem Consistent.afterSummary {counters : SegCounters} (h : Consistent counters) (malloc : Bool)
    (found : Option OdidCounter) : Consistent (sendSummary malloc counters found).2 := by
  rcases sendSummary_cases malloc counters found with hsame | ⟨counter, _, hstored⟩
  · rw [hsame]
    exact h
  · rw [hstored]
    exact h.store _

/-- The counters after the first `y` visits of a pass, in terms of those before it. -/
structure AfterVisits (start : SegCounters) (mallocs : Nat → VisitMallocs) (y : Nat)
    (log : List Visit) (counters : SegCounters) : Prop where
  consistent : Consistent counters
  threadId : counters.threadId = start.threadId
  type : counters.type = start.type
  maxLength : counters.activeOdidsMaxLength = start.activeOdidsMaxLength
  ahead : ∀ j, y ≤ j → counters.activeOdids j = start.activeOdids j
  length : counters.activeOdidsLength.toNat + start.removedBefore y =
    start.activeOdidsLength.toNat
  visited : ∀ j < y, counters.lookup (start.odidAt j) = start.lookupAfter mallocs j
  unvisited : ∀ k, (∀ j < y, start.odidAt j ≠ k) → counters.lookup k = start.lookup k
  lists : ∀ j < start.activeOdidsLength.toNat, ¬ (j < y ∧ start.removesAt j = true) →
    counters.Lists ⟨start.odidAt j, start.listedActive y j⟩
  log : log = (List.range y).map (fun j => ⟨start.odidAt j, start.summaryAt mallocs j⟩)

section Pass

variable {start counters : SegCounters} {mallocs : Nat → VisitMallocs} {y : Nat}
  {log : List Visit}

theorem afterVisits_zero (h : Consistent start) (mallocs : Nat → VisitMallocs) :
    AfterVisits start mallocs 0 [] start where
  consistent := h
  threadId := rfl
  type := rfl
  maxLength := rfl
  ahead := fun _ _ => rfl
  length := rfl
  visited := fun _ hj => absurd hj (Nat.not_lt_zero _)
  unvisited := fun _ _ => rfl
  lists := fun j hj _ => ⟨j, hj, by
    rw [SegCounters.listedActive, if_neg (fun h => Nat.not_lt_zero j h.1)]
    rfl⟩
  log := rfl

/-- Different cells of the index have different odids. -/
theorem Consistent.odidAt_ne (h : Consistent start) {i j : Nat}
    (hi : i < start.activeOdidsLength.toNat) (hj : j < start.activeOdidsLength.toNat)
    (hne : i ≠ j) : start.odidAt i ≠ start.odidAt j :=
  fun heq => hne (h.distinct i hi j hj heq)

/-- The cell and the counter that come next are as before the pass. -/
theorem AfterVisits.odidAt_next (h : AfterVisits start mallocs y log counters) :
    counters.odidAt y = start.odidAt y :=
  congrArg ActiveOdid.observationDomainId (h.ahead y (Nat.le_refl y))

theorem AfterVisits.lookup_next (h : AfterVisits start mallocs y log counters)
    (hstart : Consistent start) (hy : y < start.activeOdidsLength.toNat) :
    counters.lookup (start.odidAt y) = start.lookup (start.odidAt y) :=
  h.unvisited _ (fun _ hj => hstart.odidAt_ne (hj.trans hy) hy (Nat.ne_of_lt hj))

/-- The visit of a cell whose odid is removed. -/
theorem AfterVisits.remove (h : AfterVisits start mallocs y log counters)
    (hstart : Consistent start) (hy : y < start.activeOdidsLength.toNat)
    (hremoves : start.removesAt y = true) :
    AfterVisits start mallocs (y + 1) (log ++ [⟨start.odidAt y, none⟩])
      (removeOdidCounter counters (start.odidAt y)) := by
  have hstored : counters.lookup (start.odidAt y) ≠ none := by
    rw [h.lookup_next hstart hy]
    exact hstart.lookup_ne_none hy
  have hexact := h.consistent.removesExactly (start.odidAt y)
  obtain ⟨hthread, htype⟩ := removeOdidCounter_frame counters (start.odidAt y)
  obtain ⟨hmax, hindex⟩ := removeOdidCounter_index counters (start.odidAt y)
  obtain ⟨i, hi, hodid, hcells, hlength⟩ :=
    hindex.resolve_left (fun ⟨hnot, _⟩ => by
      obtain ⟨i, hi, hodid⟩ := (counters.exists_lists_iff _).mp
        ((h.consistent.listed _).mp hstored)
      exact hnot i hi hodid)
  have hbefore := h.length
  -- the odid is not listed behind the cell that is visited
  have hle : i ≤ y := by
    by_contra hbehind
    have hcell := congrArg ActiveOdid.observationDomainId (h.ahead i (by omega))
    have hsame := hstart.distinct i (by omega) y hy (hcell.symm.trans hodid)
    omega
  refine ⟨h.consistent.remove _, hthread.trans h.threadId, htype.trans h.type,
    hmax.trans h.maxLength, fun j hj => ?_, ?_, fun j hj => ?_, fun k hk => ?_,
    fun j hj hnot => ?_, ?_⟩
  · rw [hcells, Function.update_of_ne (by omega)]
    exact h.ahead j (by omega)
  · rw [hlength, start.removedBefore_succ, if_pos hremoves]
    omega
  · rw [hexact.lookup]
    by_cases hjy : j = y
    · rw [hjy, if_pos rfl, SegCounters.lookupAfter, if_pos hremoves]
    · rw [if_neg (hstart.odidAt_ne (by omega) hy hjy)]
      exact h.visited j (by omega)
  · rw [hexact.lookup, if_neg (Ne.symm (hk y (Nat.lt_succ_self y)))]
    exact h.unvisited k (fun j hj => hk j (Nat.lt_succ_of_lt hj))
  · have hjy : j ≠ y := by
      rintro rfl
      exact hnot ⟨Nat.lt_succ_self j, hremoves⟩
    rw [hexact.lists, start.listedActive_succ hjy]
    exact ⟨h.lists j hj (fun hbefore => hnot ⟨Nat.lt_succ_of_lt hbefore.1, hbefore.2⟩),
      hstart.odidAt_ne hj hy hjy⟩
  · rw [h.log, List.range_succ, List.map_append, List.map_singleton, SegCounters.summaryAt,
      if_pos hremoves]

/-- The index after the activity of a visited cell was written. -/
theorem AfterVisits.lists_keep (h : AfterVisits start mallocs y log counters)
    (hstart : Consistent start) (hy : y < start.activeOdidsLength.toNat) {j : Nat}
    (hj : j < start.activeOdidsLength.toNat)
    (hnot : ¬ (j < y + 1 ∧ start.removesAt j = true)) :
    CompactIndex.Listed
      (Function.update counters.activeOdids y ⟨start.odidAt y, start.activeAfter y⟩)
      counters.activeOdidsLength.toNat ⟨start.odidAt j, start.listedActive (y + 1) j⟩ := by
  have hold := h.lists j hj (fun hbefore => hnot ⟨Nat.lt_succ_of_lt hbefore.1, hbefore.2⟩)
  have hbefore := h.length
  by_cases hplace : y < counters.activeOdidsLength.toNat
  · have hkey : (⟨start.odidAt y, start.activeAfter y⟩ : ActiveOdid).observationDomainId =
        (counters.activeOdids y).observationDomainId := h.odidAt_next.symm
    rw [CompactIndex.listed_replace h.consistent.distinct hplace hkey]
    by_cases hjy : j = y
    · rw [hjy, start.listedActive_self, if_pos (by unfold SegCounters.InPlace; omega)]
      exact Or.inl rfl
    · rw [start.listedActive_succ hjy]
      exact Or.inr ⟨hold, hstart.odidAt_ne hj hy hjy⟩
  · -- the visit writes behind the listed cells
    have hframe : ∀ i < counters.activeOdidsLength.toNat,
        Function.update counters.activeOdids y ⟨start.odidAt y, start.activeAfter y⟩ i =
          counters.activeOdids i :=
      fun i hi => Function.update_of_ne (by omega) _ _
    rw [CompactIndex.listed_congr hframe]
    by_cases hjy : j = y
    · subst hjy
      have hactive : start.listedActive j j = (start.activeOdids j).active := by
        rw [SegCounters.listedActive, if_neg (fun hlt => Nat.lt_irrefl j hlt.1)]
      rw [hactive] at hold
      rw [start.listedActive_self, if_neg (by unfold SegCounters.InPlace; omega)]
      exact hold
    · rw [start.listedActive_succ hjy]
      exact hold

/-- The visit of a cell whose odid stays. -/
theorem AfterVisits.keep (h : AfterVisits start mallocs y log counters)
    (hstart : Consistent start) (hy : y < start.activeOdidsLength.toNat)
    (hremoves : start.removesAt y = false) {counter : OdidCounter}
    (hstored : start.lookup (start.odidAt y) = some counter)
    {sent : SegCounters} (hsent : sent = (sendSummary (mallocs y).summary counters
      (some counter)).2) :
    AfterVisits start mallocs (y + 1) (log ++ [⟨start.odidAt y,
        (sendSummary (mallocs y).summary counters (some counter)).1⟩])
      { sent with
        activeOdids := Function.update counters.activeOdids y
          ⟨start.odidAt y, start.activeAfter y⟩ } := by
  have hlookup := (h.lookup_next hstart hy).trans hstored
  have hkeeps : ¬ start.removesAt y = true := by
    rw [hremoves]
    decide
  obtain ⟨hsummary, hself, hother⟩ := sendSummary_stored hlookup (mallocs y).summary
  obtain ⟨hthread, htype, hlength⟩ :=
    sendSummary_frame (mallocs y).summary counters (some counter)
  obtain ⟨hcells, hmax⟩ :=
    sendSummary_activeOdids (mallocs y).summary counters (some counter)
  rw [← hsent] at hself hother hthread htype hlength hcells hmax
  have hconsistent : Consistent sent := hsent ▸ h.consistent.afterSummary _ _
  have hbefore := h.length
  refine ⟨?_, hthread.trans h.threadId, htype.trans h.type, hmax.trans h.maxLength,
    fun j hj => ?_, ?_, fun j hj => ?_, fun k hk => ?_, fun j hj hnot => ?_, ?_⟩
  · have hset := hconsistent.setActive y (start.activeAfter y)
    rwa [hcells, SegCounters.odidAt, hcells, ← SegCounters.odidAt, h.odidAt_next] at hset
  · exact (Function.update_of_ne (by omega) _ _).trans (h.ahead j (by omega))
  · rw [start.removedBefore_succ, if_neg hkeeps, hlength]
    exact hbefore
  · change sent.lookup _ = _
    by_cases hjy : j = y
    · rw [hjy, hself, SegCounters.lookupAfter, if_neg hkeeps, hstored]
      rfl
    · rw [hother _ (hstart.odidAt_ne (by omega) hy hjy)]
      exact h.visited j (by omega)
  · change sent.lookup _ = _
    rw [hother k (Ne.symm (hk y (Nat.lt_succ_self y)))]
    exact h.unvisited k (fun j hj => hk j (Nat.lt_succ_of_lt hj))
  · change CompactIndex.Listed (Function.update counters.activeOdids y _)
      sent.activeOdidsLength.toNat _
    rw [hlength]
    exact h.lists_keep hstart hy hj hnot
  · rw [h.log, List.range_succ, List.map_append, List.map_singleton, SegCounters.summaryAt,
      if_neg hkeeps, hsummary, h.threadId, h.type, hstored]

/-- A visit goes on from the visits before it. -/
theorem AfterVisits.visit (h : AfterVisits start mallocs y log counters)
    (hstart : Consistent start) (hy : y < start.activeOdidsLength.toNat) :
    counters.readActive y = some (start.activeOdids y) ∧ ∃ summary counters',
      visitActiveOdid (mallocs y).lookup (mallocs y).summary counters y =
        some (summary, counters') ∧
      AfterVisits start mallocs (y + 1) (log ++ [⟨start.odidAt y, summary⟩]) counters' := by
  have hcell := h.ahead y (Nat.le_refl y)
  have hread : y < counters.activeOdidsMaxLength.toNat := by
    rw [h.maxLength]
    exact hy.trans_le hstart.length_le
  obtain ⟨counter, hstored⟩ := Option.ne_none_iff_exists'.mp (hstart.lookup_ne_none hy)
  have hlookup := (h.lookup_next hstart hy).trans hstored
  have hodid := h.odidAt_next
  have hvalues : counters.hasValuesAt y = start.hasValuesAt y := by
    rw [SegCounters.hasValuesAt, SegCounters.hasValuesAt, hodid, hlookup, hstored]
  have hremoves : counters.removesAt y = start.removesAt y := by
    rw [SegCounters.removesAt, SegCounters.removesAt, hvalues, hcell]
  have hactive : counters.activeAfter y = start.activeAfter y := by
    rw [SegCounters.activeAfter, SegCounters.activeAfter, hvalues, hcell]
  have hvisit := visitActiveOdid_stored hread (hodid ▸ hlookup) (mallocs y).lookup
    (mallocs y).summary
  rw [hremoves, hactive, hodid] at hvisit
  refine ⟨(if_pos hread).trans (congrArg some hcell), ?_⟩
  by_cases hr : start.removesAt y = true
  · rw [if_pos hr] at hvisit
    exact ⟨_, _, hvisit, h.remove hstart hy hr⟩
  · rw [if_neg hr] at hvisit
    exact ⟨_, _, hvisit, h.keep hstart hy (Bool.eq_false_iff.mpr hr) hstored rfl⟩

/-- The first visits of a pass, up to the length of the index before it. -/
theorem visits_afterVisits (hstart : Consistent start) (mallocs : Nat → VisitMallocs)
    (hy : y ≤ start.activeOdidsLength.toNat) :
    ∃ log counters, visits mallocs start y = some (log, counters) ∧
      AfterVisits start mallocs y log counters := by
  induction y with
  | zero => exact ⟨[], start, rfl, afterVisits_zero hstart mallocs⟩
  | succ y ih =>
      obtain ⟨log, counters, hvisits, hafter⟩ := ih (by omega)
      obtain ⟨hread, summary, counters', hvisit, hnext⟩ := hafter.visit hstart hy
      refine ⟨_, counters', ?_, hnext⟩
      rw [visits, hvisits]
      simp only [Option.bind_eq_bind, Option.bind_some, hread, hvisit]
      rfl

end Pass

/-- Every odid of the index is visited once, in the order of the index. The visit writes
one summary or removes the odid, or else the summary could not be allocated. The lookup
finds every odid that is read, and makes no new counter. -/
structure VisitsEachOnce (start : SegCounters) (mallocs : Nat → VisitMallocs)
    (log : List Visit) (finish : SegCounters) : Prop where
  order : log.map Visit.odid = (List.range start.activeOdidsLength.toNat).map start.odidAt
  once : (log.map Visit.odid).Nodup
  complete : ∀ odid, odid ∈ log.map Visit.odid ↔ start.lookup odid ≠ none
  outcome : ∀ y visit, log[y]? = some visit →
    (∃ summary, visit.summary = some summary ∧ summary.observationDomainId = visit.odid ∧
      finish.lookup visit.odid ≠ none) ∨
    (visit.summary = none ∧ finish.lookup visit.odid = none) ∨
    ((mallocs y).summary = false ∧ visit.summary = none ∧ finish.lookup visit.odid ≠ none)
  read : ∀ y < start.activeOdidsLength.toNat, ∃ log' counters,
    visits mallocs start y = some (log', counters) ∧
      counters.lookup (counters.odidAt y) ≠ none
  noneNew : ∀ y ≤ start.activeOdidsLength.toNat, ∀ log' counters,
    visits mallocs start y = some (log', counters) →
      ∀ odid, counters.lookup odid ≠ none → start.lookup odid ≠ none

section VisitsEachOnce

variable {start counters : SegCounters} {mallocs : Nat → VisitMallocs} {y : Nat}
  {log : List Visit}

theorem AfterVisits.noneNew (h : AfterVisits start mallocs y log counters)
    (hstart : Consistent start) (hy : y ≤ start.activeOdidsLength.toNat) (odid : Uint32)
    (hstored : counters.lookup odid ≠ none) : start.lookup odid ≠ none := by
  by_cases hvisited : ∃ j < y, start.odidAt j = odid
  · obtain ⟨j, hj, rfl⟩ := hvisited
    exact hstart.lookup_ne_none (hj.trans_le hy)
  · rwa [h.unvisited odid (fun j hj heq => hvisited ⟨j, hj, heq⟩)] at hstored

/-- What the visit of a cell did, seen at the end of the pass. -/
theorem AfterVisits.outcome (h : AfterVisits start mallocs y log counters)
    (hstart : Consistent start) (hy : y ≤ start.activeOdidsLength.toNat) {j : Nat} (hj : j < y) :
    (∃ summary, start.summaryAt mallocs j = some summary ∧
      summary.observationDomainId = start.odidAt j ∧
      counters.lookup (start.odidAt j) ≠ none) ∨
    (start.summaryAt mallocs j = none ∧ counters.lookup (start.odidAt j) = none) ∨
    ((mallocs j).summary = false ∧ start.summaryAt mallocs j = none ∧
      counters.lookup (start.odidAt j) ≠ none) := by
  obtain ⟨counter, hcounter⟩ :=
    Option.ne_none_iff_exists'.mp (hstart.lookup_ne_none (hj.trans_le hy))
  rw [h.visited j hj, SegCounters.lookupAfter, SegCounters.summaryAt, hcounter]
  by_cases hremoves : start.removesAt j = true
  · rw [if_pos hremoves, if_pos hremoves]
    exact Or.inr (Or.inl ⟨rfl, rfl⟩)
  · rw [if_neg hremoves, if_neg hremoves]
    cases hmalloc : (mallocs j).summary with
    | false => exact Or.inr (Or.inr ⟨rfl, rfl, Option.some_ne_none _⟩)
    | true => exact Or.inl ⟨_, rfl, SegCounters.lookup_odid hcounter, Option.some_ne_none _⟩

theorem Consistent.visitsEachOnce (hstart : Consistent start) (mallocs : Nat → VisitMallocs) :
    ∃ log finish, monitoringPass mallocs start = some (log, finish) ∧
      VisitsEachOnce start mallocs log finish := by
  obtain ⟨log, finish, hpass, hafter⟩ :=
    visits_afterVisits hstart mallocs (Nat.le_refl start.activeOdidsLength.toNat)
  have hodids : log.map Visit.odid =
      (List.range start.activeOdidsLength.toNat).map start.odidAt := by
    rw [hafter.log, List.map_map]
    rfl
  refine ⟨log, finish, hpass, hodids, ?_, fun odid => ?_, fun y visit hvisit => ?_,
    fun y hy => ?_, fun y hy log' counters hvisits => ?_⟩
  · rw [hodids]
    refine List.Nodup.map_on (fun i hi j hj heq => ?_) List.nodup_range
    exact hstart.distinct i (List.mem_range.mp hi) j (List.mem_range.mp hj) heq
  · rw [hodids, hstart.listed, start.exists_lists_iff, List.mem_map]
    simp only [List.mem_range]
  · rw [hafter.log, List.getElem?_map] at hvisit
    obtain ⟨j, hj, rfl⟩ := Option.map_eq_some_iff.mp hvisit
    obtain ⟨hlt, rfl⟩ := List.getElem?_eq_some_iff.mp hj
    rw [List.length_range] at hlt
    rw [List.getElem_range]
    exact hafter.outcome hstart (Nat.le_refl _) hlt
  · obtain ⟨log', counters, hvisits, hbefore⟩ := visits_afterVisits hstart mallocs hy.le
    refine ⟨log', counters, hvisits, ?_⟩
    have hodid : counters.odidAt y = start.odidAt y :=
      congrArg ActiveOdid.observationDomainId (hbefore.ahead y (Nat.le_refl y))
    rw [hodid, hbefore.unvisited _ (fun j hj => hstart.odidAt_ne (hj.trans hy) hy
      (Nat.ne_of_lt hj))]
    exact hstart.lookup_ne_none hy
  · obtain ⟨log'', counters', hvisits', hbefore⟩ := visits_afterVisits hstart mallocs hy
    obtain ⟨rfl, rfl⟩ := Prod.mk.inj (Option.some.inj (hvisits.symm.trans hvisits'))
    exact hbefore.noneNew hstart hy

end VisitsEachOnce

section Reachable

variable {counters counters' : SegCounters} {mallocs : CounterMallocs}

theorem Consistent.update (h : Consistent counters) {kind : SegmentKind} {odid mid : Uint32}
    (hupdate : updateSegment kind mallocs counters odid mid = some counters') :
    Consistent counters' := by
  obtain ⟨found, next, hget, hcase⟩ := updateSegment_cases hupdate
  rcases hcase with ⟨_, rfl⟩ | ⟨_, counted, _, rfl, _⟩
  · exact h.get hget
  · exact (h.get hget).store counted

/-- Any visit, also of a cell that updates have written meanwhile. -/
theorem Consistent.visit (h : Consistent counters) {malloc : Bool} {y : Nat}
    {summary : Option SumCounter}
    (hvisit : visitActiveOdid mallocs malloc counters y = some (summary, counters')) :
    Consistent counters' := by
  obtain ⟨cell, found, next, hcell, hget, hcase⟩ := visitActiveOdid_cases hvisit
  have hnext := h.get hget
  rcases hcase with ⟨active, _, rfl⟩ | ⟨_, _, rfl⟩
  · have hsent := sendSummary_activeOdids malloc next found
    have hodid : (sendSummary malloc next found).2.odidAt y = cell.observationDomainId := by
      simp only [SegCounters.readActive, Option.ite_none_right_eq_some, Option.some.injEq] at hcell
      rw [SegCounters.odidAt, hsent.1]
      rcases getOdidCounter_activeOdids hget y with hsame | hnew
      · rw [hsame, hcell.2]
      · rw [hnew]
    have hset := (hnext.afterSummary malloc found).setActive y active
    rwa [hodid] at hset
  · exact hnext.remove _

end Reachable

namespace Monitoring

variable {n : Nat} {s s' : Monitoring n}

theorem start_consistent (threadId : Fin n → Nat) (type : Fin n → ThreadType)
    (uninitialised : Fin n → Nat → ActiveOdid) (i : Fin n) :
    Consistent ((start threadId type uninitialised).counters i) :=
  initCounters_consistent (threadId i) (type i) (uninitialised i)

theorem consistent_update_counters (h : ∀ i, Consistent (s.counters i)) (i : Fin n)
    {counters : SegCounters} (hi : Consistent counters) (j : Fin n) :
    Consistent (Function.update s.counters i counters j) := by
  by_cases hj : j = i
  · rw [hj, Function.update_self]
    exact hi
  · rw [Function.update_of_ne hj]
    exact h j

theorem consistent_step {event : MonitoringEvent n} (h : ∀ i, Consistent (s.counters i))
    (hstep : Step s event s') (j : Fin n) : Consistent (s'.counters j) := by
  cases event with
  | update i kind mallocs odid mid =>
      obtain ⟨counters, hupdate, rfl⟩ := Option.map_eq_some_iff.mp hstep
      exact consistent_update_counters h i ((h i).update hupdate) j
  | monitor mallocs malloc =>
      change s.monitor mallocs malloc = some s' at hstep
      unfold Monitoring.monitor at hstep
      split at hstep
      · rw [← Option.some.inj hstep]
        exact h j
      · rename_i i activeOdids y _
        split at hstep
        · obtain ⟨⟨summary, counters⟩, hvisit, rfl⟩ := Option.map_eq_some_iff.mp hstep
          exact consistent_update_counters h i ((h i).visit hvisit) j
        · rw [← Option.some.inj hstep]
          exact h j

/-- Whatever allocations fail and however updates and visits interleave, hash lists and
index stay consistent. -/
theorem consistent_run {threadId : Fin n → Nat} {type : Fin n → ThreadType}
    {uninitialised : Fin n → Nat → ActiveOdid} {events : List (MonitoringEvent n)}
    (hrun : Runs.Run Step (start threadId type uninitialised) events s) (i : Fin n) :
    Consistent (s.counters i) :=
  hrun.invariant (I := fun _ s => ∀ i, Consistent (s.counters i))
    (start_consistent threadId type uninitialised)
    (fun _ _ _ _ _ h hstep => consistent_step h hstep) i

/-- In every reachable state, a pass over a worker visits each of its odids once. -/
theorem pass_visits_each_once {threadId : Fin n → Nat} {type : Fin n → ThreadType}
    {uninitialised : Fin n → Nat → ActiveOdid} {events : List (MonitoringEvent n)}
    (hrun : Runs.Run Step (start threadId type uninitialised) events s) (i : Fin n)
    (mallocs : Nat → VisitMallocs) :
    ∃ log finish, monitoringPass mallocs (s.counters i) = some (log, finish) ∧
      VisitsEachOnce (s.counters i) mallocs log finish :=
  (consistent_run hrun i).visitsEachOnce mallocs

/-- One update of one odid. -/
theorem one_odid_run : ∃ s : Monitoring 1,
    Runs.Run Step (start (fun _ => 0) (fun _ => .parserWorker) (fun _ _ => ⟨0, 0⟩))
      [.update 0 .received ⟨true, true⟩ 7 1] s ∧
    0 < (s.counters 0).activeOdidsLength.toNat ∧ (s.counters 0).removesAt 0 = false :=
  ⟨_, (Runs.Run.nil (ℓ := MonitoringEvent 1)).snoc rfl, by decide, by decide⟩

/-- A pass of the monitoring thread over one worker with three odids. -/
def passOverThree : List (MonitoringEvent 1) :=
  List.replicate 5 (.monitor ⟨true, true⟩ true)

/-- The first of three odids of a bucket falls silent for four passes. -/
def silentFirst : List (MonitoringEvent 1) :=
  [.update 0 .received ⟨true, true⟩ 7 1, .update 0 .received ⟨true, true⟩ 17 1,
    .update 0 .dropped ⟨true, true⟩ 27 1] ++ passOverThree ++ passOverThree ++ passOverThree ++
    [.update 0 .received ⟨true, true⟩ 17 2] ++ passOverThree ++ passOverThree

/-- The next pass removes it, visits the two others and leaves them a summary each. -/
theorem pass_visits_three_odids : ∃ s : Monitoring 1,
    Runs.Run Step (start (fun _ => 0) (fun _ => .parserWorker) (fun _ _ => ⟨0, 0⟩)) silentFirst
      s ∧
    ∃ log finish,
      monitoringPass (fun _ => ⟨⟨true, true⟩, true⟩) (s.counters 0) = some (log, finish) ∧
        log.map Visit.odid = [7, 17, 27] ∧ finish.lookup 7 = none ∧
        VisitsEachOnce (s.counters 0) (fun _ => ⟨⟨true, true⟩, true⟩) log finish := by
  have hcomputed : ((silentFirst.foldlM Monitoring.next
      (start (fun _ => 0) (fun _ => .parserWorker) (fun _ _ => ⟨0, 0⟩))).any fun s =>
        (monitoringPass (fun _ => ⟨⟨true, true⟩, true⟩) (s.counters 0)).any fun h =>
          decide (h.1.map Visit.odid = [7, 17, 27] ∧ h.2.lookup 7 = none)) = true := by
    decide +kernel
  obtain ⟨s, hevents, hpass⟩ := (Option.any_eq_true _ _).mp hcomputed
  obtain ⟨⟨log, finish⟩, hpass, hafter⟩ := (Option.any_eq_true _ _).mp hpass
  obtain ⟨hodids, hremoved⟩ := of_decide_eq_true hafter
  have hrun := Runs.run_iff_foldlM.mpr hevents
  obtain ⟨log', finish', hpass', hvisits⟩ :=
    pass_visits_each_once hrun 0 (fun _ => ⟨⟨true, true⟩, true⟩)
  obtain ⟨rfl, rfl⟩ := Prod.mk.inj (Option.some.inj (hpass.symm.trans hpass'))
  exact ⟨s, hrun, log, finish, hpass, hodids, hremoved, hvisits⟩

/-- A summary that cannot be allocated leaves an odid with neither a summary nor a
removal. -/
theorem pass_without_outcome :
    ¬ ∀ (n : Nat) (threadId : Fin n → Nat) (type : Fin n → ThreadType)
        (uninitialised : Fin n → Nat → ActiveOdid) (events : List (MonitoringEvent n)) s,
        Runs.Run Step (start threadId type uninitialised) events s →
        ∀ i mallocs, ∃ log finish, monitoringPass mallocs (s.counters i) = some (log, finish) ∧
          ∀ visit ∈ log, visit.summary.isSome = true ∨ finish.lookup visit.odid = none := by
  intro hclaim
  obtain ⟨s, hrun, hlength, hremoves⟩ := one_odid_run
  have hconsistent := consistent_run hrun 0
  obtain ⟨log, finish, hpass, houtcome⟩ :=
    hclaim 1 _ _ _ _ s hrun 0 (fun _ => ⟨⟨true, true⟩, false⟩)
  obtain ⟨log', finish', hpass', hafter⟩ := visits_afterVisits hconsistent
    (fun _ => ⟨⟨true, true⟩, false⟩) (Nat.le_refl (s.counters 0).activeOdidsLength.toNat)
  obtain ⟨rfl, rfl⟩ := Prod.mk.inj (Option.some.inj (hpass.symm.trans hpass'))
  have hkeeps : ¬ (s.counters 0).removesAt 0 = true := by
    rw [hremoves]
    decide
  have hvisit : ⟨(s.counters 0).odidAt 0, none⟩ ∈ log := by
    rw [hafter.log, List.mem_map]
    refine ⟨0, List.mem_range.mpr hlength, ?_⟩
    rw [SegCounters.summaryAt, if_neg hkeeps]
    cases (s.counters 0).lookup ((s.counters 0).odidAt 0) <;> rfl
  rcases houtcome _ hvisit with hsome | hnone
  · cases hsome
  · rw [hafter.visited 0 hlength, SegCounters.lookupAfter, if_neg hkeeps] at hnone
    exact hconsistent.lookup_ne_none hlength hnone

/-- The steps of the monitoring thread take the visits of a pass. -/
theorem run_visits {i : Fin n} {activeOdids : Uint32}
    (hposition : s.position = .visiting i activeOdids 0) (mallocs : Nat → VisitMallocs) {y : Nat}
    (hy : y ≤ activeOdids.toNat) {log : List Visit} {counters : SegCounters}
    (hvisits : visits mallocs (s.counters i) y = some (log, counters)) :
    Runs.Run Step s
      ((List.range y).map (fun j => .monitor (mallocs j).lookup (mallocs j).summary))
      { s with
        counters := Function.update s.counters i counters
        position := .visiting i activeOdids (.ofNat 32 y)
        summaries := s.summaries ++
          (log.filterMap Visit.summary).map (fun summary => (i, summary)) } := by
  induction y generalizing log counters with
  | zero =>
      obtain ⟨rfl, rfl⟩ := Prod.mk.inj (Option.some.inj hvisits)
      have hsame : s = { s with
          counters := Function.update s.counters i (s.counters i)
          position := .visiting i activeOdids (.ofNat 32 0)
          summaries := s.summaries ++ [] } := by
        rw [Function.update_eq_self, List.append_nil]
        cases s
        exact congrArg (fun position => Monitoring.mk _ position _ _) hposition
      exact hsame ▸ .nil
  | succ y ih =>
      simp only [visits, Option.bind_eq_bind, Option.bind_eq_some_iff] at hvisits
      obtain ⟨⟨before, counters₁⟩, hbefore, cell, _, ⟨summary, counters₂⟩, hvisit, heq⟩ := hvisits
      obtain ⟨rfl, rfl⟩ := Prod.mk.inj (Option.some.inj heq)
      have hbound := activeOdids.isLt
      have hnumber : (BitVec.ofNat 32 y : Uint32).toNat = y := by
        rw [BitVec.toNat_ofNat]
        omega
      have hless : (BitVec.ofNat 32 y : Uint32) < activeOdids := by
        rw [BitVec.lt_def, hnumber]
        omega
      rw [List.range_succ, List.map_append]
      refine .snoc (ih (by omega) hbefore) ?_
      simp only [Step, Monitoring.next, Monitoring.monitor, if_pos hless, hnumber,
        Function.update_self, hvisit, Option.map_some, Function.update_idem,
        List.filterMap_append, List.map_append, List.append_assoc, BitVec.ofNat_add y 1]
      cases summary <;> rfl

/-- The loop over a worker ends at the length that its index had before. -/
theorem step_enter {i : Fin n} {activeOdids : Uint32}
    (hposition : s.position = .visiting i activeOdids activeOdids) (mallocs : CounterMallocs)
    (malloc : Bool) :
    Step s (.monitor mallocs malloc) { s with position := s.enter (i + 1) } := by
  simp only [Step, Monitoring.next, Monitoring.monitor, hposition, if_neg (BitVec.lt_irrefl _)]

/-- They take a whole pass over a worker, and go on to the next one. -/
theorem run_monitoringPass {i : Fin n}
    (hposition : s.position = .visiting i (s.counters i).activeOdidsLength 0)
    (mallocs : Nat → VisitMallocs) {log : List Visit} {finish : SegCounters}
    (hpass : monitoringPass mallocs (s.counters i) = some (log, finish)) :
    ∃ s', Runs.Run Step s ((List.range ((s.counters i).activeOdidsLength.toNat + 1)).map
        (fun j => .monitor (mallocs j).lookup (mallocs j).summary)) s' ∧
      s'.counters = Function.update s.counters i finish ∧ s'.position = s'.enter (i + 1) ∧
      s'.summaries = s.summaries ++
        (log.filterMap Visit.summary).map (fun summary => (i, summary)) := by
  have hvisits := run_visits hposition mallocs (Nat.le_refl _) hpass
  rw [BitVec.ofNat_toNat, BitVec.setWidth_eq] at hvisits
  rw [List.range_succ, List.map_append]
  exact ⟨_, hvisits.snoc (step_enter rfl _ _), rfl, rfl, rfl⟩

end Monitoring

end UdpNotif
