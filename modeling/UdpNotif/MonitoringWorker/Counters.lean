import UdpNotif.Constants
import UdpNotif.Lib.ChainedTable

/-!
The counters of one worker, of `monitoring_worker.c`: a hash table of counters by
observation domain id and an index array of the ids in it. A call that writes
outside the index array is undefined and has no result. The lemmas below say
what each operation does to the counter of every id.
-/

namespace UdpNotif

/-- `thread_type_t` -/
inductive ThreadType where
  | parserWorker
  | listenerWorker
deriving DecidableEq, Repr

/-- `active_odid_t` -/
structure ActiveOdid where
  observationDomainId : Uint32
  active : Int
deriving DecidableEq, Repr

/-- `unyte_odid_counter_t` -/
structure OdidCounter where
  observationDomainId : Uint32
  segmentsReceived : Uint32
  segmentsDropped : Uint32
  segmentsReordered : Uint32
  lastMessageId : Uint32
deriving DecidableEq, Repr

/-- `unyte_seg_counters_t`. A bucket holds the counters behind its head cell. The
index array has `activeOdidsMaxLength` cells; what they hold before they are
written is arbitrary. -/
structure SegCounters where
  threadId : Nat
  odidCounters : Fin odidCounters → List OdidCounter
  type : ThreadType
  activeOdids : Nat → ActiveOdid
  activeOdidsLength : Uint32
  activeOdidsMaxLength : Uint32

/-- `unyte_udp_sum_counter_t` -/
structure SumCounter where
  threadId : Nat
  observationDomainId : Uint32
  lastMessageId : Uint32
  segmentsReceived : Uint32
  segmentsDropped : Uint32
  segmentsReordered : Uint32
  type : ThreadType
deriving DecidableEq, Repr

/-- Which allocations of a lookup succeed: that of a new counter and that of a
longer index array. -/
structure CounterMallocs where
  counter : Bool
  resize : Bool
deriving DecidableEq, Repr

/-- `hash_key` -/
def odidHashKey (odid : Uint32) : Fin odidCounters :=
  ⟨odid.toNat % odidCounters, Nat.mod_lt _ (by decide)⟩

/-- A counter that has counted nothing. -/
def newOdidCounter (odid : Uint32) : OdidCounter where
  observationDomainId := odid
  segmentsReceived := 0
  segmentsDropped := 0
  segmentsReordered := 0
  lastMessageId := 0

/-- Reinitialize a counter. -/
def reinitOdidCounters (counter : OdidCounter) : OdidCounter :=
  { counter with
    lastMessageId := 0
    segmentsReceived := 0
    segmentsDropped := 0
    segmentsReordered := 0 }

/-- The counters of a thread after `unyte_udp_init_counters`; `uninitialised` is
what its index array holds. -/
def initCounters (threadId : Nat) (type : ThreadType) (uninitialised : Nat → ActiveOdid) :
    SegCounters where
  threadId
  odidCounters := fun _ => []
  type
  activeOdids := uninitialised
  activeOdidsLength := 0
  activeOdidsMaxLength := activeOdids

/-- Replace the counters of a bucket. -/
def SegCounters.setBucket (counters : SegCounters) (i : Fin UdpNotif.odidCounters)
    (bucket : List OdidCounter) : SegCounters :=
  { counters with odidCounters := Function.update counters.odidCounters i bucket }

/-- A cell with the values of a counter. -/
def OdidCounter.writeTo (counter cell : OdidCounter) : OdidCounter :=
  { counter with observationDomainId := cell.observationDomainId }

/-- Write a counter back into its cell. -/
def SegCounters.store (counters : SegCounters) (counter : OdidCounter) : SegCounters :=
  let odid := counter.observationDomainId
  counters.setBucket (odidHashKey odid)
    (ChainedTable.adjust OdidCounter.observationDomainId odid counter.writeTo
      (counters.odidCounters (odidHashKey odid)))

/-- Read a cell of the index array. -/
def SegCounters.readActive (counters : SegCounters) (i : Nat) : Option ActiveOdid :=
  if i < counters.activeOdidsMaxLength.toNat then some (counters.activeOdids i) else none

/-- Write a cell of the index array. -/
def SegCounters.writeActive (counters : SegCounters) (i : Nat) (cell : ActiveOdid) :
    Option SegCounters :=
  if i < counters.activeOdidsMaxLength.toNat then
    some { counters with activeOdids := Function.update counters.activeOdids i cell }
  else none

/-- Resize active observation domain id index array. -/
def resizeActiveOdidIndex (realloc : Bool) (counters : SegCounters) : SegCounters :=
  if realloc then
    { counters with activeOdidsMaxLength := counters.activeOdidsMaxLength + activeOdids }
  else counters

/-- Resize the index array if it is full. A failed resize is reported and passed
over. -/
def resizeIfFull (realloc : Bool) (counters : SegCounters) : SegCounters :=
  if counters.activeOdidsMaxLength ≤ counters.activeOdidsLength + 1 then
    resizeActiveOdidIndex realloc counters
  else counters

/-- Add an odid to the active odids. -/
def addActiveOdid (realloc : Bool) (counters : SegCounters) (odid : Uint32) :
    Option SegCounters :=
  let counters := resizeIfFull realloc counters
  (counters.writeActive counters.activeOdidsLength.toNat ⟨odid, 0⟩).map fun counters =>
    { counters with activeOdidsLength := counters.activeOdidsLength + 1 }

/-- Returns existant odid_counter if exists, creates a new one if not existant. -/
def getOdidCounter (mallocs : CounterMallocs) (counters : SegCounters) (odid : Uint32) :
    Option (Option OdidCounter × SegCounters) :=
  let bucket := counters.odidCounters (odidHashKey odid)
  match ChainedTable.find OdidCounter.observationDomainId odid bucket with
  | some counter => some (some counter, counters)
  | none =>
      if mallocs.counter then
        (addActiveOdid mallocs.resize
          (counters.setBucket (odidHashKey odid) (bucket ++ [newOdidCounter odid])) odid).map
          fun counters => (some (newOdidCounter odid), counters)
      else some (none, counters)

/-- The first loop of `remove_odid_counter`. It stands at the cell before the
list, and moves past the cell behind the one that it frees. -/
def unlinkOdidCounters (odid : Uint32) : List OdidCounter → List OdidCounter
  | [] => []
  | [c] => if c.observationDomainId = odid then [] else [c]
  | c :: d :: rest =>
      if c.observationDomainId = odid then d :: unlinkOdidCounters odid rest
      else c :: unlinkOdidCounters odid (d :: rest)

/-- The place of an odid in the index array. -/
def activeIndex (counters : SegCounters) (odid : Uint32) : Option Nat :=
  (List.range counters.activeOdidsLength.toNat).find? fun i =>
    (counters.activeOdids i).observationDomainId = odid

/-- Reordering array to reduce size. The loop copies every later cell to cell `i`,
which then holds the last one. -/
def reorderActive (counters : SegCounters) (i : Nat) : SegCounters :=
  { counters with
    activeOdids := (List.range' (i + 1) (counters.activeOdidsLength.toNat - (i + 1))).foldl
      (fun cells o => Function.update cells i (cells o)) counters.activeOdids
    activeOdidsLength := counters.activeOdidsLength - 1 }

/-- The second loop of `remove_odid_counter`. -/
def removeActiveOdid (counters : SegCounters) (odid : Uint32) : SegCounters :=
  match activeIndex counters odid with
  | none => counters
  | some i => reorderActive counters i

/-- Removes a odid from the linked list and from indexed array. -/
def removeOdidCounter (counters : SegCounters) (odid : Uint32) : SegCounters :=
  removeActiveOdid (counters.setBucket (odidHashKey odid)
    (unlinkOdidCounters odid (counters.odidCounters (odidHashKey odid)))) odid

/-- `unyte_udp_update_dropped_segment` -/
def updateDroppedSegment (mallocs : CounterMallocs) (counters : SegCounters)
    (lastOdid lastMid : Uint32) : Option SegCounters :=
  (getOdidCounter mallocs counters lastOdid).map fun (found, counters) =>
    match found with
    | none => counters
    | some counter => counters.store { counter with
        segmentsDropped := counter.segmentsDropped + 1
        lastMessageId := lastMid }

/-- `unyte_udp_update_received_segment` -/
def updateReceivedSegment (mallocs : CounterMallocs) (counters : SegCounters)
    (lastOdid lastMid : Uint32) : Option SegCounters :=
  (getOdidCounter mallocs counters lastOdid).map fun (found, counters) =>
    match found with
    | none => counters
    | some counter =>
        let counter := { counter with segmentsReceived := counter.segmentsReceived + 1 }
        counters.store
          (if lastMid < counter.lastMessageId then
            { counter with segmentsReordered := counter.segmentsReordered + 1 }
          else { counter with lastMessageId := lastMid })

/-- Checks if a counter has valid values to clone. -/
def odidCounterHasValues (counter : Option OdidCounter) : Bool :=
  match counter with
  | none => false
  | some counter => !(counter.lastMessageId == 0 && counter.segmentsReceived == 0 &&
      counter.segmentsDropped == 0 && counter.segmentsReordered == 0)

/-- Clone a counter to send to user client. -/
def getSummary (malloc : Bool) (counter : Option OdidCounter) (thId : Nat) (type : ThreadType) :
    Option SumCounter :=
  match counter with
  | none => none
  | some counter =>
      if malloc then
        some {
          observationDomainId := counter.observationDomainId
          lastMessageId := counter.lastMessageId
          segmentsReceived := counter.segmentsReceived
          segmentsDropped := counter.segmentsDropped
          segmentsReordered := counter.segmentsReordered
          threadId := thId
          type }
      else none

/-- Send a summary of a counter, if it can be allocated, and start the counter
anew. -/
def sendSummary (malloc : Bool) (counters : SegCounters) (counter : Option OdidCounter) :
    Option SumCounter × SegCounters :=
  match counter, getSummary malloc counter counters.threadId counters.type with
  | some counter, some summary => (some summary, counters.store (reinitOdidCounters counter))
  | _, _ => (none, counters)

/-- What `t_monitoring_unyte_udp` does with cell `y` of the index array: the
summary it hands to the queue and the counters after it. -/
def visitActiveOdid (mallocs : CounterMallocs) (malloc : Bool) (counters : SegCounters)
    (y : Nat) : Option (Option SumCounter × SegCounters) := do
  let cell ← counters.readActive y
  let (counter, counters) ← getOdidCounter mallocs counters cell.observationDomainId
  let cell ← counters.readActive y
  if odidCounterHasValues counter then
    let (summary, counters) := sendSummary malloc counters counter
    let counters ← counters.writeActive y { cell with active := 0 }
    some (summary, counters)
  else if cell.active = odidTimeToLive then
    some (none, removeOdidCounter counters cell.observationDomainId)
  else
    let (summary, counters) := sendSummary malloc counters counter
    let counters ← counters.writeActive y { cell with active := cell.active + 1 }
    some (summary, counters)

/-- What an update counts. -/
inductive SegmentKind where
  | received
  | dropped
deriving DecidableEq, Repr

/-- The segments that a counter holds. -/
def OdidCounter.segments (counter : OdidCounter) : SegmentKind → Uint32
  | .received => counter.segmentsReceived
  | .dropped => counter.segmentsDropped

/-- An update call of one kind. -/
def updateSegment : SegmentKind → CounterMallocs → SegCounters → Uint32 → Uint32 →
    Option SegCounters
  | .received => updateReceivedSegment
  | .dropped => updateDroppedSegment

/-- The counter of an odid, if it has one. -/
def SegCounters.lookup (counters : SegCounters) (odid : Uint32) : Option OdidCounter :=
  ChainedTable.lookup OdidCounter.observationDomainId odidHashKey counters.odidCounters odid

/-- Every counter lies in the bucket of its odid and no odid has two. -/
def SegCounters.WellFormed (counters : SegCounters) : Prop :=
  ChainedTable.WellFormed OdidCounter.observationDomainId odidHashKey counters.odidCounters

section Table

variable {counters : SegCounters} {odid : Uint32}

theorem SegCounters.lookup_odid {counter : OdidCounter} (h : counters.lookup odid = some counter) :
    counter.observationDomainId = odid :=
  ChainedTable.key_of_find h

theorem initCounters_wellFormed (threadId : Nat) (type : ThreadType)
    (uninitialised : Nat → ActiveOdid) :
    (initCounters threadId type uninitialised).WellFormed :=
  ChainedTable.wellFormed_empty

theorem SegCounters.lookup_setBucket (counters : SegCounters) (bucket : List OdidCounter)
    (odid k : Uint32) :
    (counters.setBucket (odidHashKey odid) bucket).lookup k =
      if odidHashKey k = odidHashKey odid then
        ChainedTable.find OdidCounter.observationDomainId k bucket
      else counters.lookup k :=
  ChainedTable.lookup_update _ _ _ _

/-- A bucket changes only in the counter of one odid. -/
theorem SegCounters.lookup_setBucket_of_find (counters : SegCounters) {bucket : List OdidCounter}
    {counter : Option OdidCounter}
    (hself : ChainedTable.find OdidCounter.observationDomainId odid bucket = counter)
    (hother : ∀ k, k ≠ odid → ChainedTable.find OdidCounter.observationDomainId k bucket =
      ChainedTable.find OdidCounter.observationDomainId k
        (counters.odidCounters (odidHashKey odid))) (k : Uint32) :
    (counters.setBucket (odidHashKey odid) bucket).lookup k =
      if k = odid then counter else counters.lookup k := by
  rw [SegCounters.lookup_setBucket]
  by_cases hk : k = odid
  · subst hk
    rw [if_pos rfl, if_pos rfl, hself]
  · rw [if_neg hk]
    split
    · rename_i hbucket
      rw [hother k hk, SegCounters.lookup, ChainedTable.lookup, hbucket]
    · rfl

theorem OdidCounter.writeTo_odid (counter cell : OdidCounter) :
    (counter.writeTo cell).observationDomainId = cell.observationDomainId := rfl

theorem SegCounters.lookup_store {counter old : OdidCounter}
    (hold : counters.lookup counter.observationDomainId = some old) (k : Uint32) :
    (counters.store counter).lookup k =
      if k = counter.observationDomainId then some counter else counters.lookup k := by
  apply SegCounters.lookup_setBucket_of_find
  · rw [ChainedTable.find_adjust_self counter.writeTo_odid]
    change Option.map _ (counters.lookup counter.observationDomainId) = _
    rw [hold, Option.map_some, OdidCounter.writeTo, SegCounters.lookup_odid hold]
  · intro k hk
    exact ChainedTable.find_adjust_other counter.writeTo_odid hk _

theorem SegCounters.WellFormed.store (h : counters.WellFormed) (counter : OdidCounter) :
    (counters.store counter).WellFormed := by
  have hkeys := ChainedTable.keys_adjust (k := counter.observationDomainId) counter.writeTo_odid
    (counters.odidCounters (odidHashKey counter.observationDomainId))
  apply h.update
  · apply h.placed_of_keys
    intro k hk
    rw [hkeys] at hk
    exact Or.inl hk
  · rw [hkeys]
    exact h.unique _

/-- The loop that unlinks a counter unlinks the first of its odid, after which
there is none. -/
theorem unlinkOdidCounters_eq_remove (odid : Uint32) {chain : List OdidCounter}
    (h : (chain.map OdidCounter.observationDomainId).Nodup) :
    unlinkOdidCounters odid chain =
      ChainedTable.remove OdidCounter.observationDomainId odid chain := by
  have hfree (rest : List OdidCounter) (hnone : odid ∉ rest.map OdidCounter.observationDomainId) :
      ChainedTable.remove OdidCounter.observationDomainId odid rest = rest := by
    apply List.eraseP_of_forall_not
    intro c hc heq
    exact hnone (List.mem_map.mpr ⟨c, hc, by simpa using heq⟩)
  induction chain using unlinkOdidCounters.induct odid with
  | case1 => rfl
  | case2 c hc => simp [unlinkOdidCounters, ChainedTable.remove, hc]
  | case3 c hc => simp [unlinkOdidCounters, ChainedTable.remove, hc]
  | case4 c d rest hc ih =>
      subst hc
      have hrest : c.observationDomainId ∉ (d :: rest).map OdidCounter.observationDomainId :=
        (List.nodup_cons.mp h).1
      rw [List.map_cons, List.mem_cons, not_or] at hrest
      rw [unlinkOdidCounters, if_pos rfl, ih (List.nodup_cons.mp (List.nodup_cons.mp h).2).2,
        hfree rest hrest.2]
      simp [ChainedTable.remove]
  | case5 c d rest hc ih =>
      rw [unlinkOdidCounters, if_neg hc, ih (List.nodup_cons.mp h).2]
      exact (List.eraseP_cons_of_neg (by simpa using hc)).symm

theorem removeOdidCounter_odidCounters (counters : SegCounters) (odid : Uint32) :
    (removeOdidCounter counters odid).odidCounters =
      (counters.setBucket (odidHashKey odid)
        (unlinkOdidCounters odid (counters.odidCounters (odidHashKey odid)))).odidCounters := by
  rw [removeOdidCounter, removeActiveOdid]
  split <;> rfl

theorem lookup_removeOdidCounter (h : counters.WellFormed) (odid k : Uint32) :
    (removeOdidCounter counters odid).lookup k =
      if k = odid then none else counters.lookup k := by
  have hremoved : (removeOdidCounter counters odid).lookup k =
      (counters.setBucket (odidHashKey odid)
        (unlinkOdidCounters odid (counters.odidCounters (odidHashKey odid)))).lookup k := by
    rw [SegCounters.lookup, removeOdidCounter_odidCounters]
    rfl
  rw [hremoved, unlinkOdidCounters_eq_remove odid (h.unique _)]
  apply SegCounters.lookup_setBucket_of_find
  · exact ChainedTable.find_remove_self odid (h.unique _)
  · intro k hk
    exact ChainedTable.find_remove_other hk _

theorem removeOdidCounter_wellFormed (h : counters.WellFormed) (odid : Uint32) :
    (removeOdidCounter counters odid).WellFormed := by
  have hsublist : ((ChainedTable.remove OdidCounter.observationDomainId odid
      (counters.odidCounters (odidHashKey odid))).map OdidCounter.observationDomainId).Sublist
      ((counters.odidCounters (odidHashKey odid)).map OdidCounter.observationDomainId) :=
    ChainedTable.keys_remove_sublist odid _
  unfold SegCounters.WellFormed
  rw [removeOdidCounter_odidCounters, unlinkOdidCounters_eq_remove odid (h.unique _)]
  apply h.update
  · apply h.placed_of_keys
    intro k hk
    exact Or.inl (hsublist.subset hk)
  · exact hsublist.nodup (h.unique _)

theorem SegCounters.writeActive_eq_some {i : Nat} {cell : ActiveOdid} {counters' : SegCounters}
    (hwrite : counters.writeActive i cell = some counters') :
    i < counters.activeOdidsMaxLength.toNat ∧
      counters' = { counters with activeOdids := Function.update counters.activeOdids i cell } := by
  unfold SegCounters.writeActive at hwrite
  split at hwrite
  · exact ⟨‹_›, (Option.some.inj hwrite).symm⟩
  · cases hwrite

/-- The index array after a resize: only its length changes. -/
theorem resizeIfFull_eq (realloc : Bool) (counters : SegCounters) :
    resizeIfFull realloc counters = { counters with
      activeOdidsMaxLength := (resizeIfFull realloc counters).activeOdidsMaxLength } := by
  unfold resizeIfFull resizeActiveOdidIndex
  split
  · split <;> rfl
  · rfl

/-- An odid is added behind the others, inside the index array. -/
theorem addActiveOdid_eq {realloc : Bool} {counters' : SegCounters}
    (hadd : addActiveOdid realloc counters odid = some counters') :
    counters' = { counters with
      activeOdids := Function.update counters.activeOdids counters.activeOdidsLength.toNat
        ⟨odid, 0⟩
      activeOdidsLength := counters.activeOdidsLength + 1
      activeOdidsMaxLength := (resizeIfFull realloc counters).activeOdidsMaxLength } := by
  obtain ⟨written, hwrite, rfl⟩ := Option.map_eq_some_iff.mp hadd
  obtain ⟨_, rfl⟩ := SegCounters.writeActive_eq_some hwrite
  rw [resizeIfFull_eq]

theorem addActiveOdid_odidCounters {realloc : Bool} {counters' : SegCounters}
    (hadd : addActiveOdid realloc counters odid = some counters') :
    counters'.odidCounters = counters.odidCounters := by
  rw [addActiveOdid_eq hadd]

/-- What a lookup does: the odid has its counter, gets a new one, or gets none. -/
theorem getOdidCounter_cases {mallocs : CounterMallocs} {found : Option OdidCounter}
    {counters' : SegCounters}
    (hget : getOdidCounter mallocs counters odid = some (found, counters')) :
    (∃ counter, counters.lookup odid = some counter ∧ found = some counter ∧
      counters' = counters) ∨
    (counters.lookup odid = none ∧ mallocs.counter = true ∧ found = some (newOdidCounter odid) ∧
      addActiveOdid mallocs.resize (counters.setBucket (odidHashKey odid)
        (counters.odidCounters (odidHashKey odid) ++ [newOdidCounter odid])) odid =
          some counters') ∨
    (counters.lookup odid = none ∧ mallocs.counter = false ∧ found = none ∧
      counters' = counters) := by
  simp only [getOdidCounter] at hget
  split at hget
  · rename_i counter hfound
    obtain ⟨rfl, rfl⟩ := Prod.mk.inj (Option.some.inj hget)
    exact Or.inl ⟨counter, hfound, rfl, rfl⟩
  · rename_i hfound
    right
    split at hget
    · rename_i hmalloc
      obtain ⟨added, hadd, heq⟩ := Option.map_eq_some_iff.mp hget
      obtain ⟨rfl, rfl⟩ := Prod.mk.inj heq
      exact Or.inl ⟨hfound, hmalloc, rfl, hadd⟩
    · rename_i hmalloc
      obtain ⟨rfl, rfl⟩ := Prod.mk.inj (Option.some.inj hget)
      exact Or.inr ⟨hfound, by simpa using hmalloc, rfl, rfl⟩

/-- A lookup gives an odid its counter and changes no other. -/
theorem lookup_getOdidCounter {mallocs : CounterMallocs} {found : Option OdidCounter}
    {counters' : SegCounters}
    (hget : getOdidCounter mallocs counters odid = some (found, counters'))
    (k : Uint32) : counters'.lookup k = if k = odid then found else counters.lookup k := by
  rcases getOdidCounter_cases hget with ⟨counter, hfound, rfl, rfl⟩ | ⟨hfound, _, rfl, hadd⟩ |
    ⟨hfound, _, rfl, rfl⟩
  · split
    · rename_i hk
      rw [hk, hfound]
    · rfl
  · rw [SegCounters.lookup, addActiveOdid_odidCounters hadd]
    apply counters.lookup_setBucket_of_find
    · rw [ChainedTable.find_concat]
      change (counters.lookup odid).or _ = _
      rw [hfound]
      simp [newOdidCounter]
    · intro k hk
      have hnew : (newOdidCounter odid).observationDomainId ≠ k := Ne.symm hk
      rw [ChainedTable.find_concat, if_neg hnew, Option.or_none]
  · split
    · rename_i hk
      rw [hk, hfound]
    · rfl

theorem SegCounters.WellFormed.getOdidCounter (h : counters.WellFormed) {mallocs : CounterMallocs}
    {found : Option OdidCounter} {counters' : SegCounters}
    (hget : getOdidCounter mallocs counters odid = some (found, counters')) :
    counters'.WellFormed := by
  rcases getOdidCounter_cases hget with ⟨_, _, _, rfl⟩ | ⟨hfound, _, _, hadd⟩ | ⟨_, _, _, rfl⟩
  · exact h
  · have hnew : odid ∉ (counters.odidCounters (odidHashKey odid)).map
        OdidCounter.observationDomainId := (ChainedTable.find_eq_none_iff _ _).mp hfound
    unfold SegCounters.WellFormed
    rw [addActiveOdid_odidCounters hadd]
    apply h.update
    · apply h.placed_of_keys
      intro k hk
      rw [List.map_append, List.mem_append] at hk
      rcases hk with hk | hk
      · exact Or.inl hk
      · rw [List.map_singleton, List.mem_singleton] at hk
        exact Or.inr (congrArg odidHashKey hk)
    · rw [List.map_append, List.map_singleton]
      exact (List.perm_append_singleton _ _).nodup_iff.mpr
        (List.nodup_cons.mpr ⟨hnew, h.unique _⟩)
  · exact h

/-- A lookup writes at most the cell behind the index array, with its odid. -/
theorem getOdidCounter_activeOdids {mallocs : CounterMallocs} {found : Option OdidCounter}
    {counters' : SegCounters}
    (hget : getOdidCounter mallocs counters odid = some (found, counters'))
    (i : Nat) : counters'.activeOdids i = counters.activeOdids i ∨
      counters'.activeOdids i = ⟨odid, 0⟩ := by
  rcases getOdidCounter_cases hget with ⟨_, _, _, rfl⟩ | ⟨_, _, _, hadd⟩ | ⟨_, _, _, rfl⟩
  · exact Or.inl rfl
  · rw [addActiveOdid_eq hadd]
    by_cases hi : i = counters.activeOdidsLength.toNat
    · subst hi
      exact Or.inr (Function.update_self _ _ _)
    · exact Or.inl (Function.update_of_ne hi _ _)
  · exact Or.inl rfl

end Table

section Calls

variable {counters counters' : SegCounters} {mallocs : CounterMallocs} {odid : Uint32}

/-- What an update writes to the counter of its odid. -/
theorem updateSegment_cases {kind : SegmentKind} {mid : Uint32}
    (hupdate : updateSegment kind mallocs counters odid mid = some counters') :
    ∃ found counters₁, getOdidCounter mallocs counters odid = some (found, counters₁) ∧
      (found = none ∧ counters' = counters₁ ∨
        ∃ counter counted, found = some counter ∧ counters' = counters₁.store counted ∧
          counted.observationDomainId = counter.observationDomainId ∧
          ∀ kind', counted.segments kind' =
            counter.segments kind' + if kind' = kind then 1 else 0) := by
  cases kind with
  | received =>
      obtain ⟨⟨found, counters₁⟩, hget, rfl⟩ := Option.map_eq_some_iff.mp hupdate
      refine ⟨found, counters₁, hget, ?_⟩
      cases found with
      | none => exact Or.inl ⟨rfl, rfl⟩
      | some counter =>
          refine Or.inr ⟨counter, _, rfl, rfl, ?_, fun kind' => ?_⟩
          · split <;> rfl
          · split <;> cases kind' <;> simp [OdidCounter.segments]
  | dropped =>
      obtain ⟨⟨found, counters₁⟩, hget, rfl⟩ := Option.map_eq_some_iff.mp hupdate
      refine ⟨found, counters₁, hget, ?_⟩
      cases found with
      | none => exact Or.inl ⟨rfl, rfl⟩
      | some counter =>
          refine Or.inr ⟨counter, _, rfl, rfl, rfl, fun kind' => ?_⟩
          cases kind' <;> simp [OdidCounter.segments]

/-- The counter that a summary starts anew is the one of its odid. -/
theorem SegCounters.lookup_reinit {counter : OdidCounter}
    (hstored : counters.lookup odid = some counter) :
    counters.lookup (reinitOdidCounters counter).observationDomainId = some counter := by
  rw [← hstored, ← SegCounters.lookup_odid hstored]
  rfl

/-- A summary leaves the counters as they are, or starts its counter anew. -/
theorem sendSummary_cases (malloc : Bool) (counters : SegCounters) (found : Option OdidCounter) :
    (sendSummary malloc counters found).2 = counters ∨ ∃ counter, found = some counter ∧
      (sendSummary malloc counters found).2 = counters.store (reinitOdidCounters counter) := by
  cases found with
  | none => exact Or.inl rfl
  | some counter =>
      cases malloc with
      | false => exact Or.inl rfl
      | true => exact Or.inr ⟨counter, rfl, rfl⟩

/-- What a visit does: it sends a summary or removes a counter without values. -/
theorem visitActiveOdid_cases {malloc : Bool} {y : Nat} {summary : Option SumCounter}
    (hvisit : visitActiveOdid mallocs malloc counters y = some (summary, counters')) :
    ∃ cell found counters₁, counters.readActive y = some cell ∧
      getOdidCounter mallocs counters cell.observationDomainId = some (found, counters₁) ∧
      ((∃ active, summary = (sendSummary malloc counters₁ found).1 ∧
          counters' = { (sendSummary malloc counters₁ found).2 with
            activeOdids := Function.update (sendSummary malloc counters₁ found).2.activeOdids y
              ⟨cell.observationDomainId, active⟩ }) ∨
        (odidCounterHasValues found = false ∧ summary = none ∧
          counters' = removeOdidCounter counters₁ cell.observationDomainId)) := by
  simp only [visitActiveOdid, Option.bind_eq_bind, Option.bind_eq_some_iff] at hvisit
  obtain ⟨cell, hcell, ⟨found, counters₁⟩, hget, cell', hcell', hvisit⟩ := hvisit
  refine ⟨cell, found, counters₁, hcell, hget, ?_⟩
  have hodid : cell'.observationDomainId = cell.observationDomainId := by
    simp only [SegCounters.readActive, Option.ite_none_right_eq_some, Option.some.injEq]
      at hcell hcell'
    rcases getOdidCounter_activeOdids hget y with hsame | hnew
    · rw [← hcell'.2, hsame, hcell.2]
    · rw [← hcell'.2, hnew]
  simp only [hodid] at hvisit
  split at hvisit
  · obtain ⟨written, hwrite, heq⟩ := Option.bind_eq_some_iff.mp hvisit
    obtain ⟨_, rfl⟩ := SegCounters.writeActive_eq_some hwrite
    obtain ⟨rfl, rfl⟩ := Prod.mk.inj (Option.some.inj heq)
    exact Or.inl ⟨_, rfl, rfl⟩
  · rename_i hvalues
    split at hvisit
    · obtain ⟨rfl, rfl⟩ := Prod.mk.inj (Option.some.inj hvisit)
      exact Or.inr ⟨by simpa using hvalues, rfl, rfl⟩
    · obtain ⟨written, hwrite, heq⟩ := Option.bind_eq_some_iff.mp hvisit
      obtain ⟨_, rfl⟩ := SegCounters.writeActive_eq_some hwrite
      obtain ⟨rfl, rfl⟩ := Prod.mk.inj (Option.some.inj heq)
      exact Or.inl ⟨_, rfl, rfl⟩

end Calls

end UdpNotif
