import UdpNotif.MonitoringWorker.ActiveIndex

/-!
Sequences of calls on the counters of one worker. While allocations succeed, the hash
lists and the index array are those of the set of odids that the calls leave. When
they fail, an odid is still added to the array, which holds its memory as it was.
-/

namespace UdpNotif

/-- A call on the counters of a worker, or what is written between two calls: the
values of a counter, or the activity of a listed odid. -/
inductive IndexCall where
  | get (odid : Uint32)
  | remove (odid : Uint32)
  | write (counter : OdidCounter)
  | mark (odid : Uint32) (active : Int)

/-- Set the activity of an odid, where it is listed. -/
def markActive (counters : SegCounters) (odid : Uint32) (active : Int) : SegCounters :=
  match activeIndex counters odid with
  | none => counters
  | some i => { counters with
      activeOdids := Function.update counters.activeOdids i ⟨counters.odidAt i, active⟩ }

/-- What a call leads to, `none` where it writes outside the index array. -/
def SegCounters.call (counters : SegCounters) (mallocs : CounterMallocs) :
    IndexCall → Option SegCounters
  | .get odid => (getOdidCounter mallocs counters odid).map Prod.snd
  | .remove odid => some (removeOdidCounter counters odid)
  | .write counter => some (counters.store counter)
  | .mark odid active => some (markActive counters odid active)

/-- A call with the allocations that succeed for it. -/
def IndexStep (counters : SegCounters) (call : IndexCall × CounterMallocs)
    (counters' : SegCounters) : Prop :=
  counters.call call.2 call.1 = some counters'

/-- Calls whose allocations all succeed. -/
def allocated (calls : List IndexCall) : List (IndexCall × CounterMallocs) :=
  calls.map (fun call => (call, ⟨true, true⟩))

/-- The odids that are stored after a call. -/
def IndexCall.after (stored : Finset Uint32) : IndexCall → Finset Uint32
  | .get odid => insert odid stored
  | .remove odid => stored.erase odid
  | .write _ => stored
  | .mark _ _ => stored

/-- The odids that are stored after a sequence of calls. -/
def storedAfter (calls : List IndexCall) : Finset Uint32 := calls.foldl IndexCall.after ∅

/-- The hash lists and the index array describe a set of odids. -/
structure IndexDescribes (counters : SegCounters) (stored : Finset Uint32) : Prop where
  placed : ∀ b, ∀ counter ∈ counters.odidCounters b, odidHashKey counter.observationDomainId = b
  unique : ∀ b, ((counters.odidCounters b).map OdidCounter.observationDomainId).Nodup
  stores : ∀ odid, odid ∈ stored ↔
    ∃ b, ∃ counter ∈ counters.odidCounters b, counter.observationDomainId = odid
  distinct : ∀ i < counters.activeOdidsLength.toNat, ∀ j < counters.activeOdidsLength.toNat,
    counters.odidAt i = counters.odidAt j → i = j
  lists : ∀ odid, odid ∈ stored ↔
    ∃ i < counters.activeOdidsLength.toNat, counters.odidAt i = odid
  length_lt : counters.activeOdidsLength.toNat < counters.activeOdidsMaxLength.toNat

/-- No odid is added to as many as the size of the array allows for. -/
def HistoryFits (calls : List IndexCall) : Prop :=
  ∀ pre odid, pre ++ [.get odid] <+: calls →
    odid ∈ storedAfter pre ∨ (storedAfter pre).card < maxActiveOdids

theorem storedAfter_concat (calls : List IndexCall) (call : IndexCall) :
    storedAfter (calls ++ [call]) = call.after (storedAfter calls) :=
  List.foldl_concat _ _ _ _

theorem indexStep_unique (counters : SegCounters) (call : IndexCall × CounterMallocs)
    (t u : SegCounters) (ht : IndexStep counters call t) (hu : IndexStep counters call u) :
    t = u :=
  Option.some.inj (ht.symm.trans hu)

section Calls

variable {counters counters' : SegCounters}

theorem Consistent.mark (h : Consistent counters) (odid : Uint32) (active : Int) :
    Consistent (markActive counters odid active) := by
  unfold markActive
  split
  · exact h
  · exact h.setActive _ active

theorem Consistent.call (h : Consistent counters) {mallocs : CounterMallocs} {call : IndexCall}
    (hcall : counters.call mallocs call = some counters') : Consistent counters' := by
  cases call with
  | get odid =>
      obtain ⟨⟨found, next⟩, hget, rfl⟩ := Option.map_eq_some_iff.mp hcall
      exact h.get hget
  | remove odid =>
      obtain rfl := Option.some.inj hcall
      exact h.remove odid
  | write counter =>
      obtain rfl := Option.some.inj hcall
      exact h.store counter
  | mark odid active =>
      obtain rfl := Option.some.inj hcall
      exact h.mark odid active

theorem run_consistent {threadId : Nat} {type : ThreadType} {uninitialised : Nat → ActiveOdid}
    {calls : List (IndexCall × CounterMallocs)}
    (hrun : Runs.Run IndexStep (initCounters threadId type uninitialised) calls counters) :
    Consistent counters :=
  hrun.invariant (I := fun _ counters => Consistent counters)
    (initCounters_consistent threadId type uninitialised) (fun _ _ _ _ _ h hstep => h.call hstep)

/-- A lookup returns unless it adds an odid for which there is no room. -/
theorem Consistent.getOdidCounter_isSome_iff (h : Consistent counters) (mallocs : CounterMallocs)
    (odid : Uint32) : (getOdidCounter mallocs counters odid).isSome = true ↔
      (counters.lookup odid = none → mallocs.counter = true → HasRoom mallocs.resize counters) := by
  have hadd : (addActiveOdid mallocs.resize (counters.setBucket (odidHashKey odid)
      (counters.odidCounters (odidHashKey odid) ++ [newOdidCounter odid])) odid).isSome = true ↔
      HasRoom mallocs.resize counters :=
    addActiveOdid_isSome_iff mallocs.resize h.length_le h.maxLength
  simp only [getOdidCounter]
  split
  · rename_i counter hfound
    exact iff_of_true rfl (fun hnone => absurd (hfound.symm.trans hnone) (Option.some_ne_none _))
  · rename_i hnone
    split
    · rename_i hmalloc
      rw [Option.isSome_map, hadd]
      exact ⟨fun hroom _ _ => hroom, fun hroom => hroom hnone hmalloc⟩
    · rename_i hmalloc
      exact iff_of_true rfl (fun _ hsucceeds => absurd hsucceeds hmalloc)

/-- The two structures follow a set, with a cell to spare in the array. -/
structure IndexTracks (counters : SegCounters) (stored : Finset Uint32) : Prop where
  consistent : Consistent counters
  stored_iff : ∀ odid, odid ∈ stored ↔ counters.lookup odid ≠ none
  length_lt : counters.activeOdidsLength.toNat < counters.activeOdidsMaxLength.toNat

variable {stored : Finset Uint32}

theorem Consistent.card_eq (h : Consistent counters)
    (hstored : ∀ odid, odid ∈ stored ↔ counters.lookup odid ≠ none) :
    stored.card = counters.activeOdidsLength.toNat := by
  refine h.distinct.card_eq (fun odid => ?_)
  rw [hstored, h.listed]
  constructor
  · rintro ⟨active, hlists⟩
    exact ⟨_, hlists, rfl⟩
  · rintro ⟨⟨_, active⟩, hlists, rfl⟩
    exact ⟨active, hlists⟩

theorem initCounters_tracks (threadId : Nat) (type : ThreadType)
    (uninitialised : Nat → ActiveOdid) :
    IndexTracks (initCounters threadId type uninitialised) ∅ where
  consistent := initCounters_consistent threadId type uninitialised
  stored_iff := fun odid => iff_of_false (Finset.notMem_empty odid) (fun hne => hne rfl)
  length_lt := (by decide : 0 < activeOdids.toNat)

theorem IndexTracks.describes (h : IndexTracks counters stored) :
    IndexDescribes counters stored where
  placed := h.consistent.wellFormed.placed
  unique := h.consistent.wellFormed.unique
  stores := by
    intro odid
    rw [h.stored_iff]
    constructor
    · intro hne
      obtain ⟨counter, hcounter⟩ := Option.ne_none_iff_exists'.mp hne
      exact ⟨_, counter, ChainedTable.mem_of_find hcounter, SegCounters.lookup_odid hcounter⟩
    · rintro ⟨b, counter, hcounter, rfl⟩
      have hlookup : counters.lookup counter.observationDomainId = some counter :=
        h.consistent.wellFormed.lookup_of_mem hcounter
      rw [hlookup]
      exact Option.some_ne_none _
  distinct := h.consistent.distinct
  lists := by
    intro odid
    rw [h.stored_iff, h.consistent.listed, counters.exists_lists_iff]
  length_lt := h.length_lt

/-- While fewer odids are stored than the size of the array allows for, one more can be
added. -/
theorem IndexTracks.get (h : IndexTracks counters stored) {odid : Uint32}
    (hfits : odid ∈ stored ∨ stored.card < maxActiveOdids) :
    ∃ counters', counters.call ⟨true, true⟩ (.get odid) = some counters' ∧
      IndexTracks counters' (insert odid stored) := by
  have hcard := h.consistent.card_eq h.stored_iff
  have hlt := h.length_lt
  have hmod := h.consistent.maxLength
  have hbound := counters.activeOdidsMaxLength.isLt
  by_cases hstored : odid ∈ stored
  · have hsome := (h.stored_iff odid).mp hstored
    obtain ⟨⟨found, next⟩, hget⟩ := Option.isSome_iff_exists.mp
      ((h.consistent.getOdidCounter_isSome_iff ⟨true, true⟩ odid).mpr
        (fun hnone => absurd hnone hsome))
    obtain rfl := getOdidCounter_same (Or.inl hsome) hget
    rw [Finset.insert_eq_of_mem hstored]
    exact ⟨next, Option.map_eq_some_iff.mpr ⟨_, hget, rfl⟩, h⟩
  · have hnone : counters.lookup odid = none :=
      not_not.mp (fun hsome => hstored ((h.stored_iff odid).mpr hsome))
    have hless : counters.activeOdidsLength.toNat < 4294966999 :=
      hcard ▸ hfits.resolve_left hstored
    have hroom : HasRoom true counters := by
      unfold HasRoom
      split <;> omega
    obtain ⟨⟨found, next⟩, hget⟩ := Option.isSome_iff_exists.mp
      ((h.consistent.getOdidCounter_isSome_iff ⟨true, true⟩ odid).mpr (fun _ _ => hroom))
    obtain ⟨_, hlength, hsize, _⟩ := h.consistent.get_new hnone rfl hget
    refine ⟨next, Option.map_eq_some_iff.mpr ⟨_, hget, rfl⟩, h.consistent.get hget, ?_, ?_⟩
    · intro k
      have hfound : found ≠ none := by
        rcases getOdidCounter_cases hget with ⟨_, _, rfl, _⟩ | ⟨_, _, rfl, _⟩ | ⟨_, hfails, _⟩
        · exact Option.some_ne_none _
        · exact Option.some_ne_none _
        · cases hfails
      rw [Finset.mem_insert, h.stored_iff, lookup_getOdidCounter hget]
      split
      · rename_i hk
        exact iff_of_true (Or.inl hk) hfound
      · rename_i hk
        exact or_iff_right hk
    · rw [hlength, hsize]
      simp only [true_and]
      split <;> omega

theorem IndexTracks.remove (h : IndexTracks counters stored) (odid : Uint32) :
    IndexTracks (removeOdidCounter counters odid) (stored.erase odid) := by
  refine ⟨h.consistent.remove odid, fun k => ?_, ?_⟩
  · rw [Finset.mem_erase, h.stored_iff, lookup_removeOdidCounter h.consistent.wellFormed]
    split
    · rename_i hk
      exact iff_of_false (fun hne => hne.1 hk) (fun hne => hne rfl)
    · rename_i hk
      exact and_iff_right hk
  · have hlt := h.length_lt
    obtain ⟨hmax, ⟨_, _, hlength⟩ | ⟨_, _, _, _, hlength⟩⟩ := removeOdidCounter_index counters odid
    · rw [hmax, hlength]
      exact hlt
    · rw [hmax, hlength]
      omega

/-- What a call does to the set. -/
theorem IndexTracks.call (h : IndexTracks counters stored) {call : IndexCall}
    (hfits : ∀ odid, call = .get odid → odid ∈ stored ∨ stored.card < maxActiveOdids) :
    ∃ counters', counters.call ⟨true, true⟩ call = some counters' ∧
      IndexTracks counters' (call.after stored) := by
  cases call with
  | get odid => exact h.get (hfits odid rfl)
  | remove odid => exact ⟨_, rfl, h.remove odid⟩
  | write counter =>
      refine ⟨_, rfl, h.consistent.store counter, fun k => ?_, h.length_lt⟩
      rw [SegCounters.lookup_store_ne_none]
      exact h.stored_iff k
  | mark odid active =>
      refine ⟨_, rfl, h.consistent.mark odid active, ?_, ?_⟩
      · unfold markActive
        split <;> exact h.stored_iff
      · unfold markActive
        split <;> exact h.length_lt

end Calls

section Histories

variable {threadId : Nat} {type : ThreadType} {uninitialised : Nat → ActiveOdid}
  {calls : List IndexCall}

theorem HistoryFits.of_prefix {pre : List IndexCall} (h : HistoryFits calls)
    (hpre : pre <+: calls) : HistoryFits pre :=
  fun q odid hq => h q odid (hq.trans hpre)

/-- A history that fits can be run, and the two structures follow its set. -/
theorem HistoryFits.tracks (h : HistoryFits calls) :
    ∃ counters, Runs.Run IndexStep (initCounters threadId type uninitialised) (allocated calls)
      counters ∧ IndexTracks counters (storedAfter calls) := by
  induction calls using List.reverseRecOn with
  | nil => exact ⟨_, .nil, initCounters_tracks threadId type uninitialised⟩
  | append_singleton calls call ih =>
      obtain ⟨counters, hrun, htracks⟩ := ih (h.of_prefix (List.prefix_append calls [call]))
      have hfits : ∀ odid, call = .get odid →
          odid ∈ storedAfter calls ∨ (storedAfter calls).card < maxActiveOdids := by
        rintro odid rfl
        exact h calls odid (List.prefix_refl _)
      obtain ⟨next, hcall, hnext⟩ := htracks.call hfits
      rw [allocated, List.map_append, storedAfter_concat]
      exact ⟨next, .snoc hrun hcall, hnext⟩

/-- No lookup adds an odid to as many as the size of the array allows for. -/
theorem HistoryFits.of_describes (threadId : Nat) (type : ThreadType)
    (uninitialised : Nat → ActiveOdid)
    (h : ∀ pre, pre <+: calls → ∃ counters,
      Runs.Run IndexStep (initCounters threadId type uninitialised) (allocated pre) counters ∧
        IndexDescribes counters (storedAfter pre)) : HistoryFits calls := by
  intro pre odid hpre
  by_contra hfull
  rw [not_or, Nat.not_lt] at hfull
  obtain ⟨hnew, hcard⟩ := hfull
  obtain ⟨counters, hrun, hdescribes⟩ := h pre ((List.prefix_append _ _).trans hpre)
  obtain ⟨next, hrun', _⟩ := h _ hpre
  rw [allocated, List.map_append] at hrun'
  obtain ⟨counters', hbefore, hstep⟩ := Runs.run_concat_iff.mp hrun'
  obtain rfl := hrun.unique indexStep_unique hbefore
  have hconsistent := run_consistent hrun
  have hstored (k : Uint32) : k ∈ storedAfter pre ↔ counters.lookup k ≠ none := by
    rw [hdescribes.lists, hconsistent.listed, counters.exists_lists_iff]
  have hnone : counters.lookup odid = none :=
    not_not.mp (fun hsome => hnew ((hstored odid).mpr hsome))
  have hget : (getOdidCounter ⟨true, true⟩ counters odid).isSome = true := by
    obtain ⟨_, hget, _⟩ := Option.map_eq_some_iff.mp hstep
    rw [hget]
    rfl
  have hroom := (hconsistent.getOdidCounter_isSome_iff _ _).mp hget hnone rfl
  have hlength := hconsistent.card_eq hstored
  have hlt := hdescribes.length_lt
  have hmod := hconsistent.maxLength
  have hbound := counters.activeOdidsMaxLength.isLt
  unfold HasRoom at hroom
  unfold maxActiveOdids at hcard
  simp only [true_and] at hroom
  split at hroom <;> omega

end Histories

/-- The hash lists and the index array describe the set of odids that the calls leave,
and a removal deletes exactly its odid, at every point of a history exactly if no odid
is ever added to as many as the size of the array allows for. -/
theorem index_describes_iff (threadId : Nat) (type : ThreadType)
    (uninitialised : Nat → ActiveOdid) (calls : List IndexCall) :
    (∀ pre, pre <+: calls → ∃ counters,
      Runs.Run IndexStep (initCounters threadId type uninitialised) (allocated pre) counters ∧
        IndexDescribes counters (storedAfter pre) ∧ ∀ odid, RemovesExactly counters odid) ↔
      HistoryFits calls := by
  constructor
  · intro h
    refine HistoryFits.of_describes threadId type uninitialised (fun pre hpre => ?_)
    obtain ⟨counters, hrun, hdescribes, _⟩ := h pre hpre
    exact ⟨counters, hrun, hdescribes⟩
  · intro h pre hpre
    obtain ⟨counters, hrun, htracks⟩ := (h.of_prefix hpre).tracks
    exact ⟨counters, hrun, htracks.describes, htracks.consistent.removesExactly⟩

/-- Lookups of the odids below `n`. -/
def lookups (n : Nat) : List IndexCall := (List.range n).map (fun i => .get (.ofNat 32 i))

theorem lookups_succ (n : Nat) : lookups (n + 1) = lookups n ++ [.get (.ofNat 32 n)] := by
  rw [lookups, List.range_succ, List.map_append]
  rfl

theorem mem_storedAfter_lookups {n : Nat} (hn : n ≤ 2 ^ 32) (odid : Uint32) :
    odid ∈ storedAfter (lookups n) ↔ odid.toNat < n := by
  induction n with
  | zero => exact iff_of_false (Finset.notMem_empty odid) (Nat.not_lt_zero _)
  | succ n ih =>
      rw [lookups_succ, storedAfter_concat, IndexCall.after, Finset.mem_insert, ih (by omega),
        ← BitVec.toNat_inj, BitVec.toNat_ofNat, Nat.mod_eq_of_lt (by omega)]
      omega

theorem card_storedAfter_lookups {n : Nat} (hn : n ≤ 2 ^ 32) :
    (storedAfter (lookups n)).card = n := by
  induction n with
  | zero => rfl
  | succ n ih =>
      rw [lookups_succ, storedAfter_concat, IndexCall.after, Finset.card_insert_of_notMem,
        ih (by omega)]
      rw [mem_storedAfter_lookups (by omega), BitVec.toNat_ofNat, Nat.mod_eq_of_lt (by omega)]
      exact Nat.lt_irrefl n

theorem not_historyFits_lookups {n : Nat} (hmany : maxActiveOdids ≤ n) (hn : n < 2 ^ 32) :
    ¬ HistoryFits (lookups (n + 1)) := by
  intro h
  have hlast : lookups n ++ [.get (.ofNat 32 n)] <+: lookups (n + 1) :=
    lookups_succ n ▸ List.prefix_refl _
  rcases h (lookups n) (.ofNat 32 n) hlast with hold | hfew
  · rw [mem_storedAfter_lookups (by omega), BitVec.toNat_ofNat, Nat.mod_eq_of_lt hn] at hold
    exact Nat.lt_irrefl n hold
  · rw [card_storedAfter_lookups (by omega)] at hfew
    exact Nat.not_lt.mpr hmany hfew

/-- With 4294966999 odids stored, one more wraps the size of the index array. -/
theorem index_wraps :
    ¬ ∀ (threadId : Nat) (type : ThreadType) (uninitialised : Nat → ActiveOdid)
      (calls pre : List IndexCall), pre <+: calls → ∃ counters,
        Runs.Run IndexStep (initCounters threadId type uninitialised) (allocated pre) counters ∧
          IndexDescribes counters (storedAfter pre) ∧ ∀ odid, RemovesExactly counters odid := by
  intro hclaim
  obtain ⟨n, hn⟩ : ∃ n, n = maxActiveOdids := ⟨_, rfl⟩
  have hlt : n < 2 ^ 32 := hn ▸ (by decide : maxActiveOdids < 2 ^ 32)
  refine not_historyFits_lookups hn.ge hlt ?_
  refine HistoryFits.of_describes 0 .parserWorker (fun _ => ⟨0, 0⟩) (fun pre hpre => ?_)
  obtain ⟨counters, hrun, hdescribes, _⟩ := hclaim 0 .parserWorker (fun _ => ⟨0, 0⟩) _ pre hpre
  exact ⟨counters, hrun, hdescribes⟩

end UdpNotif
