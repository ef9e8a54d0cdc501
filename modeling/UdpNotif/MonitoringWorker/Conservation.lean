import Mathlib.Data.BitVec
import UdpNotif.Lib.Runs
import UdpNotif.MonitoringWorker.ActiveOdids

/-!
The monitoring thread visits the index arrays of all workers, one cell at a time,
while the workers go on counting. What a worker counted for an odid is what was
handed to the monitoring queue for it and what its counter holds, modulo `2 ^ 32`.
-/

namespace UdpNotif

/-- The segments that a summary reports. -/
def SumCounter.segments (summary : SumCounter) : SegmentKind → Uint32
  | .received => summary.segmentsReceived
  | .dropped => summary.segmentsDropped

/-- The segments held for an odid, 0 if it has no counter. -/
def SegCounters.held (counters : SegCounters) (kind : SegmentKind) (odid : Uint32) : Uint32 :=
  (counters.lookup odid).elim 0 (fun counter => counter.segments kind)

/-- The segments that a summary reports for an odid. -/
def SumCounter.reported (summary : SumCounter) (kind : SegmentKind) (odid : Uint32) : Uint32 :=
  if summary.observationDomainId = odid then summary.segments kind else 0

/-- A call gets a counter unless it needs a new one that cannot be allocated. -/
def SegCounters.getsCounter (counters : SegCounters) (mallocs : CounterMallocs)
    (odid : Uint32) : Bool :=
  (counters.lookup odid).isSome || mallocs.counter

section Counters

variable {counters counters' : SegCounters} {mallocs : CounterMallocs} {odid : Uint32}
  {found : Option OdidCounter}

theorem SegCounters.held_eq {counter : Option OdidCounter} (h : counters.lookup odid = counter)
    (kind : SegmentKind) :
    counters.held kind odid = counter.elim 0 (fun counter => counter.segments kind) := by
  rw [SegCounters.held, h]

/-- A lookup keeps what is held for every odid. -/
theorem getOdidCounter_held (hget : getOdidCounter mallocs counters odid = some (found, counters'))
    (kind : SegmentKind) (k : Uint32) : counters'.held kind k = counters.held kind k := by
  have hlookup := lookup_getOdidCounter hget k
  by_cases hk : k = odid
  · subst hk
    rw [if_pos rfl] at hlookup
    rcases getOdidCounter_cases hget with ⟨_, _, _, rfl⟩ | ⟨hnone, _, rfl, _⟩ | ⟨_, _, _, rfl⟩
    · rfl
    · rw [SegCounters.held_eq hlookup, SegCounters.held_eq hnone]
      cases kind <;> rfl
    · rfl
  · rw [if_neg hk] at hlookup
    rw [SegCounters.held, SegCounters.held, hlookup]

theorem getOdidCounter_isSome
    (hget : getOdidCounter mallocs counters odid = some (found, counters')) :
    found.isSome = counters.getsCounter mallocs odid := by
  rcases getOdidCounter_cases hget with ⟨_, hfound, rfl, _⟩ | ⟨_, hmalloc, rfl, _⟩ |
    ⟨hnone, hmalloc, rfl, _⟩
  · rw [SegCounters.getsCounter, hfound]
    rfl
  · rw [SegCounters.getsCounter, hmalloc, Bool.or_true]
    rfl
  · rw [SegCounters.getsCounter, hnone, hmalloc]
    rfl

/-- A counter is written back with other segments. -/
theorem SegCounters.store_held {counter old : OdidCounter}
    (hold : counters.lookup counter.observationDomainId = some old) (kind : SegmentKind)
    (k : Uint32) :
    (counters.store counter).held kind k =
      if k = counter.observationDomainId then counter.segments kind
      else counters.held kind k := by
  rw [SegCounters.held_eq (SegCounters.lookup_store hold k)]
  split <;> rfl

/-- An update that gets a counter adds one segment of its kind to its odid. -/
theorem updateSegment_held {kind : SegmentKind} {mid : Uint32}
    (hupdate : updateSegment kind mallocs counters odid mid = some counters')
    (kind' : SegmentKind) (k : Uint32) :
    counters'.held kind' k = counters.held kind' k +
      if kind' = kind ∧ k = odid ∧ counters.getsCounter mallocs odid = true then 1 else 0 := by
  obtain ⟨found, counters₁, hget, hcase⟩ := updateSegment_cases hupdate
  have hsome := getOdidCounter_isSome hget
  rw [← getOdidCounter_held hget, ← hsome]
  rcases hcase with ⟨rfl, rfl⟩ | ⟨counter, counted, rfl, rfl, hodid, hsegments⟩
  · simp
  · have hlookup := lookup_getOdidCounter hget odid
    rw [if_pos rfl] at hlookup
    have hcounter := SegCounters.lookup_odid hlookup
    rw [SegCounters.store_held (by rw [hodid, hcounter]; exact hlookup), hodid, hcounter]
    by_cases hk : k = odid
    · subst hk
      rw [if_pos rfl, hsegments, SegCounters.held_eq hlookup]
      simp
    · rw [if_neg hk]
      simp [hk]

theorem updateSegment_wellFormed (h : counters.WellFormed) {kind : SegmentKind} {mid : Uint32}
    (hupdate : updateSegment kind mallocs counters odid mid = some counters') :
    counters'.WellFormed := by
  obtain ⟨found, counters₁, hget, hcase⟩ := updateSegment_cases hupdate
  have h₁ := h.getOdidCounter hget
  rcases hcase with ⟨_, rfl⟩ | ⟨_, counted, _, rfl, _⟩
  · exact h₁
  · exact h₁.store counted

/-- A counter without values holds no segment. -/
theorem odidCounterHasValues_false {counter : OdidCounter}
    (h : odidCounterHasValues (some counter) = false) (kind : SegmentKind) :
    counter.segments kind = 0 := by
  simp only [odidCounterHasValues, Bool.not_eq_false', Bool.and_eq_true, beq_iff_eq] at h
  cases kind with
  | received => exact h.1.1.2
  | dropped => exact h.1.2

/-- A summary takes over what it reports from the counter. -/
theorem sendSummary_held (malloc : Bool) (hfound : counters.lookup odid = found)
    (kind : SegmentKind) (k : Uint32) :
    (sendSummary malloc counters found).2.held kind k +
        (sendSummary malloc counters found).1.elim 0 (fun summary => summary.reported kind k) =
      counters.held kind k := by
  cases found with
  | none => exact BitVec.add_zero _
  | some counter =>
      cases malloc with
      | false => exact BitVec.add_zero _
      | true =>
          have hcounter := SegCounters.lookup_odid hfound
          have hold := SegCounters.lookup_reinit hfound
          have hreinit : (reinitOdidCounters counter).segments kind = 0 := by cases kind <;> rfl
          change (counters.store (reinitOdidCounters counter)).held kind k + _ = _
          rw [SegCounters.store_held hold, hreinit]
          change (if k = counter.observationDomainId then 0 else counters.held kind k) +
            (if counter.observationDomainId = k then _ else _) = _
          by_cases hk : k = counter.observationDomainId
          · subst hk
            rw [if_pos rfl, if_pos rfl, SegCounters.held_eq (hcounter ▸ hfound)]
            cases kind <;> simp [SumCounter.segments, OdidCounter.segments]
          · rw [if_neg hk, if_neg (Ne.symm hk)]
            exact BitVec.add_zero _

theorem removeOdidCounter_held (h : counters.WellFormed) (hfound : counters.lookup odid = found)
    (hvalues : odidCounterHasValues found = false) (kind : SegmentKind) (k : Uint32) :
    (removeOdidCounter counters odid).held kind k = counters.held kind k := by
  rw [SegCounters.held_eq (lookup_removeOdidCounter h odid k)]
  by_cases hk : k = odid
  · subst hk
    rw [if_pos rfl, SegCounters.held_eq hfound]
    cases found with
    | none => rfl
    | some counter => exact (odidCounterHasValues_false hvalues kind).symm
  · rw [if_neg hk]
    rfl

/-- A visit moves segments from a counter to the summary it hands to the queue. -/
theorem visitActiveOdid_held (h : counters.WellFormed) {malloc : Bool} {y : Nat}
    {summary : Option SumCounter}
    (hvisit : visitActiveOdid mallocs malloc counters y = some (summary, counters'))
    (kind : SegmentKind) (k : Uint32) :
    counters'.held kind k + summary.elim 0 (fun summary => summary.reported kind k) =
      counters.held kind k := by
  obtain ⟨cell, found, counters₁, _, hget, hcase⟩ := visitActiveOdid_cases hvisit
  have hlookup := lookup_getOdidCounter hget cell.observationDomainId
  rw [if_pos rfl] at hlookup
  rw [← getOdidCounter_held hget]
  rcases hcase with ⟨active, rfl, rfl⟩ | ⟨hvalues, rfl, rfl⟩
  · exact sendSummary_held malloc hlookup kind k
  · rw [removeOdidCounter_held (h.getOdidCounter hget) hlookup hvalues]
    exact BitVec.add_zero _

theorem sendSummary_wellFormed (h : counters.WellFormed) (malloc : Bool)
    (found : Option OdidCounter) : (sendSummary malloc counters found).2.WellFormed := by
  rcases sendSummary_cases malloc counters found with hsame | ⟨counter, _, hstored⟩
  · rw [hsame]
    exact h
  · rw [hstored]
    exact h.store _

theorem visitActiveOdid_wellFormed (h : counters.WellFormed) {malloc : Bool} {y : Nat}
    {summary : Option SumCounter}
    (hvisit : visitActiveOdid mallocs malloc counters y = some (summary, counters')) :
    counters'.WellFormed := by
  obtain ⟨cell, found, counters₁, _, hget, hcase⟩ := visitActiveOdid_cases hvisit
  have h₁ := h.getOdidCounter hget
  rcases hcase with ⟨active, _, rfl⟩ | ⟨_, _, rfl⟩
  · exact sendSummary_wellFormed h₁ malloc found
  · exact removeOdidCounter_wellFormed h₁ _

end Counters

/-- Where the monitoring thread is: asleep, or at cell `y` of the index array of
worker `i`, whose length it has read before. -/
inductive MonitoringPosition (n : Nat) where
  | asleep
  | visiting (i : Fin n) (activeOdids y : Uint32)

/-- The counters of all workers, the monitoring thread, and what it has handed to
its queue. `counted` are the update calls so far that got a counter. -/
structure Monitoring (n : Nat) where
  counters : Fin n → SegCounters
  position : MonitoringPosition n
  summaries : List (Fin n × SumCounter)
  counted : List (Fin n × SegmentKind × Uint32)

/-- A worker counts a segment, or the monitoring thread takes its next step. The
allocations that succeed are those of the lookup and that of the summary. -/
inductive MonitoringEvent (n : Nat) where
  | update (i : Fin n) (kind : SegmentKind) (mallocs : CounterMallocs) (odid mid : Uint32)
  | monitor (mallocs : CounterMallocs) (malloc : Bool)

namespace MonitoringEvent

variable {n : Nat}

/-- The allocations of the lookup of an event. -/
def mallocs : MonitoringEvent n → CounterMallocs
  | .update _ _ mallocs _ _ => mallocs
  | .monitor mallocs _ => mallocs

/-- The odid that an event updates on a worker. -/
def updated (i : Fin n) : MonitoringEvent n → Option Uint32
  | .update j _ _ odid _ => if j = i then some odid else none
  | .monitor _ _ => none

/-- The resizes of an event succeed and it updates a known odid. -/
structure Allowed (known : Fin n → Finset Uint32) (event : MonitoringEvent n) : Prop where
  resize : event.mallocs.resize = true
  updated : ∀ i odid, event.updated i = some odid → odid ∈ known i

/-- An update call for an odid on a worker. -/
def isCall (i : Fin n) (kind : SegmentKind) (odid : Uint32) : MonitoringEvent n → Bool
  | .update j kind' _ odid' _ => (j, kind', odid') = (i, kind, odid)
  | .monitor _ _ => false

end MonitoringEvent

/-- The number of update calls for an odid on a worker. -/
def updateCalls {n : Nat} (events : List (MonitoringEvent n)) (i : Fin n) (kind : SegmentKind)
    (odid : Uint32) : Nat :=
  events.countP (MonitoringEvent.isCall i kind odid)

/-- The odids updated on a worker. -/
def updatedOdids {n : Nat} (events : List (MonitoringEvent n)) (i : Fin n) : Finset Uint32 :=
  (events.filterMap (MonitoringEvent.updated i)).toFinset

namespace Monitoring

variable {n : Nat}

/-- The counters of all threads are initialised and nothing is counted. -/
def start (threadId : Fin n → Nat) (type : Fin n → ThreadType)
    (uninitialised : Fin n → Nat → ActiveOdid) : Monitoring n where
  counters := fun i => initCounters (threadId i) (type i) (uninitialised i)
  position := .asleep
  summaries := []
  counted := []

/-- The monitoring thread comes to worker `i`, or has been at all of them. -/
def enter (s : Monitoring n) (i : Nat) : MonitoringPosition n :=
  if h : i < n then .visiting ⟨i, h⟩ (s.counters ⟨i, h⟩).activeOdidsLength 0 else .asleep

/-- An update call of worker `i`. -/
def update (s : Monitoring n) (i : Fin n) (kind : SegmentKind) (mallocs : CounterMallocs)
    (odid mid : Uint32) : Option (Monitoring n) :=
  (updateSegment kind mallocs (s.counters i) odid mid).map fun counters =>
    { s with
      counters := Function.update s.counters i counters
      counted := if (s.counters i).getsCounter mallocs odid then s.counted ++ [(i, kind, odid)]
        else s.counted }

/-- A step of `t_monitoring_unyte_udp`. -/
def monitor (s : Monitoring n) (mallocs : CounterMallocs) (malloc : Bool) :
    Option (Monitoring n) :=
  match s.position with
  | .asleep => some { s with position := s.enter 0 }
  | .visiting i activeOdids y =>
      if y < activeOdids then
        (visitActiveOdid mallocs malloc (s.counters i) y.toNat).map fun (summary, counters) =>
          { s with
            counters := Function.update s.counters i counters
            position := .visiting i activeOdids (y + 1)
            summaries := s.summaries ++ summary.toList.map (fun summary => (i, summary)) }
      else some { s with position := s.enter (i + 1) }

/-- What an event leads to, unless it is undefined. -/
def next (s : Monitoring n) : MonitoringEvent n → Option (Monitoring n)
  | .update i kind mallocs odid mid => s.update i kind mallocs odid mid
  | .monitor mallocs malloc => s.monitor mallocs malloc

/-- A step of the system. -/
def Step (s : Monitoring n) (event : MonitoringEvent n) (s' : Monitoring n) : Prop :=
  s.next event = some s'

/-- The segments handed to the queue for a worker and an odid. -/
def reported (s : Monitoring n) (i : Fin n) (kind : SegmentKind) (odid : Uint32) : Uint32 :=
  (s.summaries.map (fun h => if h.1 = i then h.2.reported kind odid else 0)).sum

/-- The number of update calls that got a counter. -/
def countedCalls (s : Monitoring n) (i : Fin n) (kind : SegmentKind) (odid : Uint32) : Nat :=
  s.counted.count (i, kind, odid)

/-- Every worker's table is well formed, and what was counted is in a summary or in
a counter. -/
structure Conserved (s : Monitoring n) : Prop where
  wellFormed : ∀ i, (s.counters i).WellFormed
  counts : ∀ i kind odid, .ofNat 32 (s.countedCalls i kind odid) =
    s.reported i kind odid + (s.counters i).held kind odid

theorem start_conserved (threadId : Fin n → Nat) (type : Fin n → ThreadType)
    (uninitialised : Fin n → Nat → ActiveOdid) :
    (start threadId type uninitialised).Conserved where
  wellFormed := fun i => initCounters_wellFormed (threadId i) (type i) (uninitialised i)
  counts := fun _ _ _ => rfl

theorem monitor_counted {s s' : Monitoring n} {mallocs : CounterMallocs} {malloc : Bool}
    (hmonitor : s.monitor mallocs malloc = some s') : s'.counted = s.counted := by
  unfold Monitoring.monitor at hmonitor
  split at hmonitor
  · rw [← Option.some.inj hmonitor]
  · split at hmonitor
    · obtain ⟨_, _, rfl⟩ := Option.map_eq_some_iff.mp hmonitor
      rfl
    · rw [← Option.some.inj hmonitor]

/-- A step of the monitoring thread adds to the summaries. -/
theorem monitor_summaries {s s' : Monitoring n} {mallocs : CounterMallocs} {malloc : Bool}
    (hmonitor : s.monitor mallocs malloc = some s') :
    ∃ handed, s'.summaries = s.summaries ++ handed := by
  unfold Monitoring.monitor at hmonitor
  split at hmonitor
  · rw [← Option.some.inj hmonitor]
    exact ⟨[], (List.append_nil _).symm⟩
  · split at hmonitor
    · obtain ⟨_, _, rfl⟩ := Option.map_eq_some_iff.mp hmonitor
      exact ⟨_, rfl⟩
    · rw [← Option.some.inj hmonitor]
      exact ⟨[], (List.append_nil _).symm⟩

/-- A call is counted if it gets a counter. -/
theorem update_countedCalls {s s' : Monitoring n} {i : Fin n} {kind : SegmentKind}
    {mallocs : CounterMallocs} {odid mid : Uint32}
    (hupdate : s.update i kind mallocs odid mid = some s') (j : Fin n) (kind' : SegmentKind)
    (k : Uint32) :
    s'.countedCalls j kind' k = s.countedCalls j kind' k +
      if (s.counters i).getsCounter mallocs odid = true ∧ (i, kind, odid) = (j, kind', k) then 1
      else 0 := by
  obtain ⟨counters, _, rfl⟩ := Option.map_eq_some_iff.mp hupdate
  by_cases hgets : (s.counters i).getsCounter mallocs odid = true
  · simp [countedCalls, hgets, List.count_append, List.count_singleton]
  · simp [countedCalls, hgets]

/-- What is reported grows by the summary that is handed to the queue. -/
theorem reported_append (s : Monitoring n) (i j : Fin n) (summary : Option SumCounter)
    (kind : SegmentKind) (k : Uint32) :
    reported { s with
      summaries := s.summaries ++ summary.toList.map (fun summary => (i, summary)) } j kind k =
      s.reported j kind k +
        if i = j then summary.elim 0 (fun summary => summary.reported kind k) else 0 := by
  cases summary <;> simp [reported]

/-- An event that concerns one worker only has to conserve its counts. -/
theorem Conserved.of_update {s s' : Monitoring n} (h : s.Conserved) {i : Fin n}
    {counters : SegCounters} (hcounters : s'.counters = Function.update s.counters i counters)
    (hwellFormed : counters.WellFormed)
    (hself : ∀ kind k, .ofNat 32 (s'.countedCalls i kind k) =
      s'.reported i kind k + counters.held kind k)
    (hother : ∀ j, j ≠ i → ∀ kind k, s'.countedCalls j kind k = s.countedCalls j kind k ∧
      s'.reported j kind k = s.reported j kind k) : s'.Conserved := by
  constructor
  · rw [hcounters]
    apply (Function.forall_update_iff s.counters (fun _ c => c.WellFormed)).mpr
    exact ⟨hwellFormed, fun j _ => h.wellFormed j⟩
  · rw [hcounters]
    apply (Function.forall_update_iff s.counters (fun j c => ∀ kind k,
      .ofNat 32 (s'.countedCalls j kind k) = s'.reported j kind k + c.held kind k)).mpr
    refine ⟨hself, fun j hj kind k => ?_⟩
    obtain ⟨hcalls, hreported⟩ := hother j hj kind k
    rw [hcalls, hreported]
    exact h.counts j kind k

theorem Conserved.update {s s' : Monitoring n} (h : s.Conserved) {i : Fin n} {kind : SegmentKind}
    {mallocs : CounterMallocs} {odid mid : Uint32}
    (hupdate : s.update i kind mallocs odid mid = some s') : s'.Conserved := by
  have hcalls := update_countedCalls hupdate
  obtain ⟨counters, hcounters, rfl⟩ := Option.map_eq_some_iff.mp hupdate
  apply h.of_update rfl (updateSegment_wellFormed (h.wellFormed i) hcounters)
  · intro kind' k
    have hcall : ((s.counters i).getsCounter mallocs odid = true ∧
        (i, kind, odid) = (i, kind', k)) ↔
        (kind' = kind ∧ k = odid ∧ (s.counters i).getsCounter mallocs odid = true) := by
      simp only [Prod.mk.injEq, true_and]
      constructor
      · rintro ⟨hgets, rfl, rfl⟩
        exact ⟨rfl, rfl, hgets⟩
      · rintro ⟨rfl, rfl, hgets⟩
        exact ⟨hgets, rfl, rfl⟩
    rw [hcalls, BitVec.ofNat_add, h.counts, updateSegment_held hcounters, ← BitVec.add_assoc]
    simp only [hcall]
    split <;> rfl
  · intro j hj kind' k
    have hne : (i, kind, odid) ≠ (j, kind', k) := fun heq => hj (congrArg Prod.fst heq).symm
    rw [hcalls, if_neg (fun hcall => hne hcall.2)]
    exact ⟨rfl, rfl⟩

theorem Conserved.monitor {s s' : Monitoring n} (h : s.Conserved) {mallocs : CounterMallocs}
    {malloc : Bool} (hmonitor : s.monitor mallocs malloc = some s') : s'.Conserved := by
  unfold Monitoring.monitor at hmonitor
  split at hmonitor
  · rw [← Option.some.inj hmonitor]
    exact ⟨h.wellFormed, h.counts⟩
  · rename_i i activeOdids y _
    split at hmonitor
    · obtain ⟨⟨summary, counters⟩, hvisit, rfl⟩ := Option.map_eq_some_iff.mp hmonitor
      apply h.of_update rfl (visitActiveOdid_wellFormed (h.wellFormed i) hvisit)
      · intro kind k
        have hreported := s.reported_append i i summary kind k
        have hcounts := h.counts i kind k
        rw [if_pos rfl] at hreported
        rw [← visitActiveOdid_held (h.wellFormed i) hvisit,
          BitVec.add_comm (counters.held kind k), ← BitVec.add_assoc, ← hreported] at hcounts
        exact hcounts
      · intro j hj kind k
        have hreported := s.reported_append i j summary kind k
        rw [if_neg (Ne.symm hj), add_zero] at hreported
        exact ⟨rfl, hreported⟩
    · rw [← Option.some.inj hmonitor]
      exact ⟨h.wellFormed, h.counts⟩

theorem Conserved.step {s s' : Monitoring n} {event : MonitoringEvent n} (h : s.Conserved)
    (hstep : Step s event s') : s'.Conserved := by
  cases event with
  | update i kind mallocs odid mid => exact Conserved.update h hstep
  | monitor mallocs malloc => exact Conserved.monitor h hstep

/-- Every worker lists known odids only, and the monitoring thread visits cells that
were written. -/
def Bounded (known : Fin n → Finset Uint32) (s : Monitoring n) : Prop :=
  ∃ bound : Fin n → Nat, (∀ i, Indexed (known i) (bound i) (s.counters i)) ∧
    match s.position with
    | .asleep => True
    | .visiting i activeOdids _ => activeOdids.toNat ≤ bound i

theorem start_bounded (known : Fin n → Finset Uint32) (threadId : Fin n → Nat)
    (type : Fin n → ThreadType) (uninitialised : Fin n → Nat → ActiveOdid) :
    (start threadId type uninitialised).Bounded known :=
  ⟨fun _ => 0, fun i => initCounters_indexed (known i) _ _ _, trivial⟩

variable {known : Fin n → Finset Uint32} {s : Monitoring n}

theorem Bounded.enter (h : s.Bounded known) (i : Nat) :
    Bounded known { s with position := s.enter i } := by
  obtain ⟨bound, hindexed, _⟩ := h
  refine ⟨bound, hindexed, ?_⟩
  unfold Monitoring.enter
  by_cases hi : i < n
  · simp only [dif_pos hi]
    exact (hindexed _).length_le
  · simp only [dif_neg hi]

/-- One worker's index grows. -/
theorem indexed_update {bound : Fin n → Nat} (h : ∀ i, Indexed (known i) (bound i) (s.counters i))
    {i : Fin n} {counters : SegCounters} {bound' : Nat} (hi : Indexed (known i) bound' counters)
    (j : Fin n) : Indexed (known j) (Function.update bound i bound' j)
      (Function.update s.counters i counters j) := by
  by_cases hj : j = i
  · subst hj
    rw [Function.update_self, Function.update_self]
    exact hi
  · rw [Function.update_of_ne hj, Function.update_of_ne hj]
    exact h j

theorem le_update {bound : Fin n → Nat} {i : Fin n} {bound' : Nat} (h : bound i ≤ bound')
    (j : Fin n) : bound j ≤ Function.update bound i bound' j := by
  by_cases hj : j = i
  · subst hj
    rwa [Function.update_self]
  · rw [Function.update_of_ne hj]

theorem Bounded.update (h : s.Bounded known) (hcard : ∀ i, (known i).card ≤ maxActiveOdids)
    {mallocs : CounterMallocs} (hresize : mallocs.resize = true) {i : Fin n} {odid : Uint32}
    (hodid : odid ∈ known i) (kind : SegmentKind) (mid : Uint32) :
    ∃ s', s.update i kind mallocs odid mid = some s' ∧ s'.Bounded known := by
  obtain ⟨bound, hindexed, hposition⟩ := h
  obtain ⟨counters, hcounters, bound', hbound, hi⟩ :=
    (hindexed i).update hodid (hcard i) hresize kind mid
  refine ⟨_, Option.map_eq_some_iff.mpr ⟨counters, hcounters, rfl⟩,
    Function.update bound i bound', indexed_update hindexed hi, ?_⟩
  cases hs : s.position with
  | asleep => trivial
  | visiting j activeOdids y =>
      rw [hs] at hposition
      exact Nat.le_trans hposition (le_update hbound j)

theorem Bounded.monitor (h : s.Bounded known) (hcard : ∀ i, (known i).card ≤ maxActiveOdids)
    {mallocs : CounterMallocs} (hresize : mallocs.resize = true) (malloc : Bool) :
    ∃ s', s.monitor mallocs malloc = some s' ∧ s'.Bounded known := by
  unfold Monitoring.monitor
  cases hs : s.position with
  | asleep => exact ⟨_, rfl, h.enter 0⟩
  | visiting i activeOdids y =>
      by_cases hy : y < activeOdids
      · simp only [if_pos hy]
        obtain ⟨bound, hindexed, hposition⟩ := h
        rw [hs] at hposition
        obtain ⟨summary, counters, hvisit, bound', hbound, hi⟩ :=
          (hindexed i).visit (Nat.lt_of_lt_of_le (BitVec.lt_def.mp hy) hposition) (hcard i)
            hresize malloc
        refine ⟨_, Option.map_eq_some_iff.mpr ⟨(summary, counters), hvisit, rfl⟩,
          Function.update bound i bound', indexed_update hindexed hi, ?_⟩
        exact Nat.le_trans hposition (le_update hbound i)
      · simp only [if_neg hy]
        exact ⟨_, rfl, h.enter (i + 1)⟩

theorem Bounded.step (hcard : ∀ i, (known i).card ≤ maxActiveOdids) (s : Monitoring n)
    (event : MonitoringEvent n) (h : s.Bounded known) (hevent : event.Allowed known) :
    ∃ s', Step s event s' ∧ s'.Bounded known := by
  cases event with
  | update i kind mallocs odid mid =>
      exact h.update hcard hevent.resize (hevent.updated i odid (if_pos rfl)) kind mid
  | monitor mallocs malloc => exact h.monitor hcard hevent.resize malloc

/-- While no resize fails and no worker has too many odids, every event is defined. -/
theorem exists_run (threadId : Fin n → Nat) (type : Fin n → ThreadType)
    (uninitialised : Fin n → Nat → ActiveOdid) {events : List (MonitoringEvent n)}
    (hresize : ∀ event ∈ events, event.mallocs.resize = true)
    (hcard : ∀ i, (updatedOdids events i).card ≤ maxActiveOdids) :
    ∃ s, Runs.Run Step (start threadId type uninitialised) events s := by
  have hevents : ∀ event ∈ events, event.Allowed (updatedOdids events) := by
    intro event hevent
    refine ⟨hresize event hevent, fun i odid hodid => ?_⟩
    exact List.mem_toFinset.mpr (List.mem_filterMap.mpr ⟨event, hevent, hodid⟩)
  obtain ⟨s, hrun, _⟩ := Runs.exists_run
    (start_bounded (updatedOdids events) threadId type uninitialised) (Bounded.step hcard) hevents
  exact ⟨s, hrun⟩

theorem run_conserved {threadId : Fin n → Nat} {type : Fin n → ThreadType}
    {uninitialised : Fin n → Nat → ActiveOdid} {events : List (MonitoringEvent n)}
    (hrun : Runs.Run Step (start threadId type uninitialised) events s) : s.Conserved :=
  hrun.invariant (I := fun _ s => s.Conserved) (start_conserved threadId type uninitialised)
    (fun _ _ _ _ _ h hstep => h.step hstep)

/-- If no counter fails to be allocated, every update call gets one. -/
theorem countedCalls_eq {threadId : Fin n → Nat} {type : Fin n → ThreadType}
    {uninitialised : Fin n → Nat → ActiveOdid} {events : List (MonitoringEvent n)}
    (hrun : Runs.Run Step (start threadId type uninitialised) events s)
    (hmalloc : ∀ event ∈ events, event.mallocs.counter = true) (i : Fin n) (kind : SegmentKind)
    (odid : Uint32) : s.countedCalls i kind odid = updateCalls events i kind odid := by
  induction hrun with
  | nil => rfl
  | @snoc events s event s' _ hstep ih =>
      have ih := ih (fun e he => hmalloc e (List.mem_append_left _ he))
      have hevent := hmalloc event (List.mem_append_right _ (List.mem_singleton_self event))
      rw [updateCalls, List.countP_append, List.countP_singleton, ← updateCalls, ← ih]
      cases event with
      | update j kind' mallocs k mid =>
          have hcounter : mallocs.counter = true := hevent
          have hgets : (s.counters j).getsCounter mallocs k = true := by
            rw [SegCounters.getsCounter, hcounter, Bool.or_true]
          rw [update_countedCalls hstep, hgets]
          simp [MonitoringEvent.isCall]
      | monitor mallocs malloc => rw [countedCalls, monitor_counted hstep]; rfl

/-- The update calls for an odid on a worker whose counter could not be allocated. -/
def failedCalls (events : List (MonitoringEvent n)) (i : Fin n) (kind : SegmentKind)
    (odid : Uint32) : Nat :=
  events.countP fun event => event.isCall i kind odid && !event.mallocs.counter

/-- Only calls whose counter could not be allocated are not counted. -/
theorem countedCalls_bounds {threadId : Fin n → Nat} {type : Fin n → ThreadType}
    {uninitialised : Fin n → Nat → ActiveOdid} {events : List (MonitoringEvent n)}
    (hrun : Runs.Run Step (start threadId type uninitialised) events s) (i : Fin n)
    (kind : SegmentKind) (odid : Uint32) :
    s.countedCalls i kind odid ≤ updateCalls events i kind odid ∧
      updateCalls events i kind odid ≤ s.countedCalls i kind odid +
        failedCalls events i kind odid := by
  induction hrun with
  | nil => exact ⟨Nat.le_refl 0, Nat.le_refl 0⟩
  | @snoc events s event s' _ hstep ih =>
      obtain ⟨hle, hge⟩ := ih
      rw [updateCalls, List.countP_append, List.countP_singleton, ← updateCalls, failedCalls,
        List.countP_append, List.countP_singleton, ← failedCalls]
      cases event with
      | monitor mallocs malloc =>
          have hcounted : s'.countedCalls i kind odid = s.countedCalls i kind odid := by
            rw [countedCalls, countedCalls, monitor_counted hstep]
          rw [hcounted]
          exact ⟨hle, hge⟩
      | update j kind' mallocs k mid =>
          have hcalls := update_countedCalls hstep i kind odid
          have hgets : mallocs.counter = true →
              (s.counters j).getsCounter mallocs k = true := by
            intro hcounter
            rw [SegCounters.getsCounter, hcounter, Bool.or_true]
          by_cases hcall : (j, kind', k) = (i, kind, odid)
          · simp only [MonitoringEvent.isCall, MonitoringEvent.mallocs, hcall, decide_true,
              if_true, Bool.true_and, Bool.not_eq_true', and_true] at hcalls ⊢
            cases hcounter : mallocs.counter with
            | true =>
                rw [if_pos (hgets hcounter)] at hcalls
                omega
            | false =>
                rw [if_pos rfl]
                split at hcalls <;> omega
          · simp only [MonitoringEvent.isCall, hcall, decide_false, Bool.false_and, and_false,
              if_false, Bool.false_eq_true] at hcalls ⊢
            omega

/-- Monitoring counts are conserved: the update calls of a worker for an odid that
got a counter are the segments in the summaries handed to the queue and in the
counter, modulo `2 ^ 32`. All calls get one unless its allocation fails, and while no
resize fails and no worker has too many odids, every order of events is a run. -/
theorem monitoring_counts (threadId : Fin n → Nat) (type : Fin n → ThreadType)
    (uninitialised : Fin n → Nat → ActiveOdid) (events : List (MonitoringEvent n)) :
    (∀ s, Runs.Run Step (start threadId type uninitialised) events s →
      ∀ i kind odid,
        (.ofNat 32 (s.countedCalls i kind odid) =
          s.reported i kind odid + (s.counters i).held kind odid) ∧
        ((∀ event ∈ events, event.mallocs.counter = true) →
          s.countedCalls i kind odid = updateCalls events i kind odid)) ∧
    ((∀ event ∈ events, event.mallocs.resize = true) →
      (∀ i, (updatedOdids events i).card ≤ maxActiveOdids) →
      ∃ s, Runs.Run Step (start threadId type uninitialised) events s) := by
  constructor
  · intro s hrun i kind odid
    exact ⟨(run_conserved hrun).counts i kind odid, fun hmalloc => countedCalls_eq hrun hmalloc i
      kind odid⟩
  · intro hresize hcard
    exact exists_run threadId type uninitialised hresize hcard

/-- A call whose counter cannot be allocated counts nothing. -/
theorem uncounted_call :
    ¬ ∀ (n : Nat) (threadId : Fin n → Nat) (type : Fin n → ThreadType)
        (uninitialised : Fin n → Nat → ActiveOdid) (events : List (MonitoringEvent n)) s,
        Runs.Run Step (start threadId type uninitialised) events s →
        ∀ i kind odid, .ofNat 32 (updateCalls events i kind odid) =
          s.reported i kind odid + (s.counters i).held kind odid := by
  intro h
  let s₀ : Monitoring 1 := start (fun _ => 0) (fun _ => .parserWorker) (fun _ _ => ⟨0, 0⟩)
  let call : MonitoringEvent 1 := .update 0 .received ⟨false, true⟩ 7 0
  obtain ⟨s, hstep⟩ : ∃ s, s₀.next call = some s := ⟨_, rfl⟩
  have hrun : Runs.Run Step s₀ [call] s := Runs.Run.snoc Runs.Run.nil hstep
  have hnone : s.countedCalls 0 .received 7 = 0 := by
    rw [update_countedCalls hstep]
    rfl
  have hone := h 1 _ _ _ _ s hrun 0 .received 7
  rw [← (run_conserved hrun).counts, hnone] at hone
  exact absurd hone (by decide)

end Monitoring

end UdpNotif
