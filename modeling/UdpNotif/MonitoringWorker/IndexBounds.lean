import UdpNotif.MonitoringWorker.IndexCalls

/-!
Which cell of the index array a lookup writes, whatever resizes fail. A resize that
fails is reported and passed over, and the odid is added to the array as it is: once
that is tolerated, the next time it is not. How many odids are stored and how many
cells are held is counted along the calls and their allocations, without the counters.
-/

namespace UdpNotif

/-- The cell that a call writes to add an odid to the index array, and the number of
cells that memory is held for then. -/
def SegCounters.writtenCell (counters : SegCounters) (mallocs : CounterMallocs) :
    IndexCall → Option (Nat × Nat)
  | .get odid =>
      if counters.lookup odid = none ∧ mallocs.counter = true then
        let grown := resizeIfFull mallocs.resize counters
        some (grown.activeOdidsLength.toNat, grown.activeOdidsMaxLength.toNat)
      else none
  | .remove _ => none
  | .write _ => none
  | .mark _ _ => none

/-- A call writes no cell outside the index array. -/
def WritesInside (counters : SegCounters) (mallocs : CounterMallocs) (call : IndexCall) : Prop :=
  ∀ index size, counters.writtenCell mallocs call = some (index, size) → index < size

/-- There is room for the odid that a call adds. -/
def RoomFor (counters : SegCounters) (mallocs : CounterMallocs) : IndexCall → Prop
  | .get odid => counters.lookup odid = none → mallocs.counter = true →
      HasRoom mallocs.resize counters
  | .remove _ => True
  | .write _ => True
  | .mark _ _ => True

/-- The resizes that can succeed before the size of the index array wraps. -/
def maxResizes : Nat := 8589933

/-- What calls and the allocations that succeed for them come to: the odids that have a
counter, and how many resizes of the index array succeeded. -/
structure IndexHistory where
  stored : Finset Uint32
  resized : Nat

namespace IndexHistory

/-- The cells that memory is held for. -/
def cells (history : IndexHistory) : Nat := activeOdids.toNat * (1 + history.resized)

theorem cells_eq (history : IndexHistory) : history.cells = 500 * (1 + history.resized) := rfl

/-- A lookup adds its odid if that is new and its counter is allocated. -/
def Adds (history : IndexHistory) (odid : Uint32) (mallocs : CounterMallocs) : Prop :=
  odid ∉ history.stored ∧ mallocs.counter = true

instance (history : IndexHistory) (odid : Uint32) (mallocs : CounterMallocs) :
    Decidable (history.Adds odid mallocs) := inferInstanceAs (Decidable (_ ∧ _))

/-- The array is resized where at most one of its cells is free. -/
def Resizes (history : IndexHistory) (mallocs : CounterMallocs) : Prop :=
  mallocs.resize = true ∧ history.cells ≤ history.stored.card + 1

instance (history : IndexHistory) (mallocs : CounterMallocs) :
    Decidable (history.Resizes mallocs) := inferInstanceAs (Decidable (_ ∧ _))

/-- One more call. -/
def after (history : IndexHistory) (call : IndexCall × CounterMallocs) : IndexHistory :=
  match call.1 with
  | .get odid =>
      if history.Adds odid call.2 then
        { stored := insert odid history.stored
          resized := if history.Resizes call.2 then history.resized + 1 else history.resized }
      else history
  | .remove odid => { history with stored := history.stored.erase odid }
  | .write _ => history
  | .mark _ _ => history

/-- A call adds an odid only while fewer are stored than there are cells, or with a resize
of its own that succeeds and whose size does not wrap. -/
def KeepsUp (history : IndexHistory) (call : IndexCall × CounterMallocs) : Prop :=
  match call.1 with
  | .get odid => history.Adds odid call.2 →
      if history.Resizes call.2 then history.resized < maxResizes
      else history.stored.card < history.cells
  | .remove _ => True
  | .write _ => True
  | .mark _ _ => True

end IndexHistory

/-- The history of a sequence of calls on new counters. -/
def indexHistory (calls : List (IndexCall × CounterMallocs)) : IndexHistory :=
  calls.foldl IndexHistory.after ⟨∅, 0⟩

/-- In a sequence of calls the resizes that succeed keep up with the odids. -/
def ResizesKeepUp (calls : List (IndexCall × CounterMallocs)) : Prop :=
  ∀ pre call, pre ++ [call] <+: calls → (indexHistory pre).KeepsUp call

/-- What holds of every call of a sequence in the counters that it finds. -/
def OfEveryCall (property : SegCounters → CounterMallocs → IndexCall → Prop)
    (start : SegCounters) (calls : List (IndexCall × CounterMallocs)) : Prop :=
  ∀ pre call counters, pre ++ [call] <+: calls → Runs.Run IndexStep start pre counters →
    property counters call.2 call.1

section Bounds

variable {counters : SegCounters} {mallocs : CounterMallocs} {call : IndexCall}

theorem Consistent.writesInside_iff (h : Consistent counters) :
    WritesInside counters mallocs call ↔ RoomFor counters mallocs call := by
  cases call with
  | get odid =>
      unfold WritesInside RoomFor SegCounters.writtenCell
      dsimp only
      by_cases hnew : counters.lookup odid = none ∧ mallocs.counter = true
      · have hlength : (resizeIfFull mallocs.resize counters).activeOdidsLength =
            counters.activeOdidsLength := by rw [resizeIfFull_eq]
        rw [if_pos hnew, hlength, ← resizeIfFull_lt_iff mallocs.resize h.length_le h.maxLength]
        constructor
        · exact fun hinside _ _ => hinside _ _ rfl
        · intro hroom index size hwritten
          obtain ⟨rfl, rfl⟩ := Prod.mk.inj (Option.some.inj hwritten)
          exact hroom hnew.1 hnew.2
      · refine iff_of_true (fun index size hwritten => ?_)
          (fun hnone hmalloc => absurd ⟨hnone, hmalloc⟩ hnew)
        rw [if_neg hnew] at hwritten
        cases hwritten
  | remove odid => exact iff_of_true (fun _ _ hwritten => nomatch hwritten) trivial
  | write counter => exact iff_of_true (fun _ _ hwritten => nomatch hwritten) trivial
  | mark odid active => exact iff_of_true (fun _ _ hwritten => nomatch hwritten) trivial

/-- A call whose write is inside the array returns, and no other. -/
theorem Consistent.call_isSome_iff (h : Consistent counters) :
    (counters.call mallocs call).isSome = true ↔ WritesInside counters mallocs call := by
  rw [h.writesInside_iff]
  cases call with
  | get odid => exact Option.isSome_map.symm ▸ h.getOdidCounter_isSome_iff mallocs odid
  | remove odid => exact iff_of_true rfl trivial
  | write counter => exact iff_of_true rfl trivial
  | mark odid active => exact iff_of_true rfl trivial

end Bounds

/-- The counters hold the odids and the cells that a history counts. -/
structure FollowsHistory (counters : SegCounters) (history : IndexHistory) : Prop where
  consistent : Consistent counters
  stored_iff : ∀ odid, odid ∈ history.stored ↔ counters.lookup odid ≠ none
  cells_eq : counters.activeOdidsMaxLength.toNat = history.cells

theorem initCounters_followsHistory (threadId : Nat) (type : ThreadType)
    (uninitialised : Nat → ActiveOdid) :
    FollowsHistory (initCounters threadId type uninitialised) (indexHistory []) where
  consistent := initCounters_consistent threadId type uninitialised
  stored_iff := fun odid => iff_of_false (Finset.notMem_empty odid) (fun hne => hne rfl)
  cells_eq := rfl

namespace FollowsHistory

variable {counters counters' : SegCounters} {history : IndexHistory}
  (h : FollowsHistory counters history)
include h

theorem card_eq : history.stored.card = counters.activeOdidsLength.toNat :=
  h.consistent.card_eq h.stored_iff

theorem adds_iff (odid : Uint32) (mallocs : CounterMallocs) :
    history.Adds odid mallocs ↔ counters.lookup odid = none ∧ mallocs.counter = true := by
  rw [IndexHistory.Adds, h.stored_iff, not_not]

theorem resizes_iff (mallocs : CounterMallocs) :
    history.Resizes mallocs ↔ mallocs.resize = true ∧
      counters.activeOdidsMaxLength.toNat ≤ counters.activeOdidsLength.toNat + 1 := by
  rw [IndexHistory.Resizes, h.card_eq, h.cells_eq]

/-- What the history tells of a call is whether there is room for its odid. -/
theorem keepsUp_iff (call : IndexCall × CounterMallocs) :
    history.KeepsUp call ↔ RoomFor counters call.2 call.1 := by
  obtain ⟨call, mallocs⟩ := call
  cases call with
  | remove odid => exact Iff.rfl
  | write counter => exact Iff.rfl
  | mark odid active => exact Iff.rfl
  | get odid =>
      have hsize : history.resized < maxResizes ↔
          counters.activeOdidsMaxLength.toNat + 500 < 2 ^ 32 := by
        rw [h.cells_eq, IndexHistory.cells_eq, maxResizes]
        omega
      unfold IndexHistory.KeepsUp RoomFor HasRoom
      dsimp only
      rw [h.adds_iff, and_imp, h.card_eq, ← h.cells_eq]
      refine imp_congr_right fun _ => imp_congr_right fun _ => ?_
      by_cases hresizes : history.Resizes mallocs
      · rw [if_pos hresizes, if_pos ((h.resizes_iff mallocs).mp hresizes), hsize]
      · rw [if_neg hresizes, if_neg (fun hgrows => hresizes ((h.resizes_iff mallocs).mpr hgrows))]

/-- A lookup that returns does to the counters what it does to the history. -/
theorem get {odid : Uint32} {mallocs : CounterMallocs} {found : Option OdidCounter}
    (hget : getOdidCounter mallocs counters odid = some (found, counters')) :
    FollowsHistory counters' (history.after (.get odid, mallocs)) := by
  refine ⟨h.consistent.get hget, ?_, ?_⟩
  all_goals unfold IndexHistory.after; dsimp only
  · intro k
    rw [lookup_getOdidCounter hget]
    rcases getOdidCounter_cases hget with ⟨counter, hfound, rfl, _⟩ | ⟨hnone, hmalloc, rfl, _⟩ |
      ⟨hnone, hfails, rfl, _⟩
    · rw [if_neg (fun hadds => hadds.1 ((h.stored_iff odid).mpr (by simp [hfound]))), h.stored_iff]
      split
      · rename_i hk
        rw [hk, hfound]
      · rfl
    · rw [if_pos ((h.adds_iff odid mallocs).mpr ⟨hnone, hmalloc⟩), Finset.mem_insert, h.stored_iff]
      split
      · rename_i hk
        exact iff_of_true (Or.inl hk) (Option.some_ne_none _)
      · rename_i hk
        exact or_iff_right hk
    · rw [if_neg (fun hadds => by simp [hadds.2] at hfails), h.stored_iff]
      split
      · rename_i hk
        rw [hk, hnone]
      · rfl
  · by_cases hadds : history.Adds odid mallocs
    · obtain ⟨hnone, hmalloc⟩ := (h.adds_iff odid mallocs).mp hadds
      obtain ⟨_, _, hsize, _⟩ := h.consistent.get_new hnone hmalloc hget
      rw [if_pos hadds, hsize]
      by_cases hresizes : history.Resizes mallocs
      · rw [if_pos hresizes, if_pos ((h.resizes_iff mallocs).mp hresizes), h.cells_eq,
          IndexHistory.cells_eq, IndexHistory.cells_eq]
        dsimp only
        omega
      · have hgrows := (h.resizes_iff mallocs).not.mp hresizes
        rw [if_neg hresizes, if_neg hgrows, h.cells_eq]
        rfl
    · have hsame : counters.lookup odid ≠ none ∨ mallocs.counter = false := by
        rw [h.adds_iff, not_and_or, Bool.not_eq_true] at hadds
        exact hadds
      rw [if_neg hadds, getOdidCounter_same hsame hget, h.cells_eq]

theorem remove (odid : Uint32) (mallocs : CounterMallocs) :
    FollowsHistory (removeOdidCounter counters odid) (history.after (.remove odid, mallocs)) := by
  refine ⟨h.consistent.remove odid, fun k => ?_, ?_⟩
  · have hstored : (history.after (.remove odid, mallocs)).stored = history.stored.erase odid := rfl
    rw [hstored, Finset.mem_erase, h.stored_iff,
      lookup_removeOdidCounter h.consistent.wellFormed]
    split
    · rename_i hk
      exact iff_of_false (fun hne => hne.1 hk) (fun hne => hne rfl)
    · rename_i hk
      exact and_iff_right hk
  · rw [(removeOdidCounter_index counters odid).1, h.cells_eq]
    rfl

/-- Every call that returns follows the history. -/
theorem call {call : IndexCall × CounterMallocs}
    (hstep : IndexStep counters call counters') :
    FollowsHistory counters' (history.after call) := by
  obtain ⟨call, mallocs⟩ := call
  cases call with
  | get odid =>
      obtain ⟨⟨found, next⟩, hget, rfl⟩ := Option.map_eq_some_iff.mp hstep
      exact h.get hget
  | remove odid =>
      obtain rfl := Option.some.inj hstep
      exact h.remove odid mallocs
  | write counter =>
      obtain rfl := Option.some.inj hstep
      refine ⟨h.consistent.store counter, fun k => ?_, h.cells_eq⟩
      rw [SegCounters.lookup_store_ne_none]
      exact h.stored_iff k
  | mark odid active =>
      obtain rfl := Option.some.inj hstep
      refine ⟨h.consistent.mark odid active, ?_, ?_⟩
      · unfold markActive
        split <;> exact h.stored_iff
      · unfold markActive
        split <;> exact h.cells_eq

end FollowsHistory

section Sequences

variable {threadId : Nat} {type : ThreadType} {uninitialised : Nat → ActiveOdid}
  {calls : List (IndexCall × CounterMallocs)} {counters : SegCounters}

/-- Calls that return one after the other follow their history. -/
theorem run_followsHistory
    (hrun : Runs.Run IndexStep (initCounters threadId type uninitialised) calls counters) :
    FollowsHistory counters (indexHistory calls) := by
  refine hrun.invariant (I := fun calls counters => FollowsHistory counters (indexHistory calls))
    (initCounters_followsHistory threadId type uninitialised) (fun pre call _ _ _ h hstep => ?_)
  rw [indexHistory, List.foldl_concat]
  exact h.call hstep

/-- Whether a call writes inside the array is told by the history before it. -/
theorem writesInside_iff_keepsUp {call : IndexCall × CounterMallocs}
    (hrun : Runs.Run IndexStep (initCounters threadId type uninitialised) calls counters) :
    WritesInside counters call.2 call.1 ↔ (indexHistory calls).KeepsUp call := by
  have hfollows := run_followsHistory hrun
  rw [hfollows.keepsUp_iff, hfollows.consistent.writesInside_iff]

theorem ResizesKeepUp.of_prefix {pre : List (IndexCall × CounterMallocs)}
    (h : ResizesKeepUp calls) (hpre : pre <+: calls) : ResizesKeepUp pre :=
  fun front call hfront => h front call (hfront.trans hpre)

/-- Calls for which the resizes keep up can be made one after the other. -/
theorem ResizesKeepUp.exists_run (h : ResizesKeepUp calls) : ∃ counters,
    Runs.Run IndexStep (initCounters threadId type uninitialised) calls counters := by
  induction calls using List.reverseRecOn with
  | nil => exact ⟨_, .nil⟩
  | append_singleton calls call ih =>
      obtain ⟨counters, hrun⟩ := ih (h.of_prefix (List.prefix_append calls [call]))
      have hinside := (writesInside_iff_keepsUp hrun).mpr (h calls call (List.prefix_refl _))
      obtain ⟨next, hnext⟩ := Option.isSome_iff_exists.mp
        ((run_consistent hrun).call_isSome_iff.mpr hinside)
      exact ⟨next, .snoc hrun hnext⟩

/-- A first call whose resizes do not keep up writes outside the array. -/
theorem ResizesKeepUp.of_writesInside
    (h : OfEveryCall WritesInside (initCounters threadId type uninitialised) calls) :
    ResizesKeepUp calls := by
  induction calls using List.reverseRecOn with
  | nil =>
      intro pre call hpre
      exact absurd (List.prefix_nil.mp hpre) (List.append_ne_nil_of_right_ne_nil pre (by simp))
  | append_singleton calls call ih =>
      have hbefore : ResizesKeepUp calls := by
        refine ih (fun pre c counters hpre hrun => ?_)
        exact h pre c counters (hpre.trans (List.prefix_append calls [call])) hrun
      obtain ⟨counters, hrun⟩ : ∃ counters,
          Runs.Run IndexStep (initCounters threadId type uninitialised) calls counters :=
        hbefore.exists_run
      intro pre c hpre
      rcases List.prefix_concat_iff.mp hpre with heq | hshorter
      · obtain ⟨rfl, hlast⟩ := List.append_inj' heq rfl
        obtain rfl := List.singleton_inj.mp hlast
        exact (writesInside_iff_keepsUp hrun).mp (h pre c counters (List.prefix_refl _) hrun)
      · exact hbefore pre c hshorter

end Sequences

/-- Whatever allocations fail, the index array is written inside its memory exactly as
long as the resizes that succeed keep up with the odids; then every call returns. -/
theorem index_writes_inside_iff (threadId : Nat) (type : ThreadType)
    (uninitialised : Nat → ActiveOdid) (calls : List (IndexCall × CounterMallocs)) :
    (OfEveryCall WritesInside (initCounters threadId type uninitialised) calls ↔
      ResizesKeepUp calls) ∧
    (ResizesKeepUp calls → ∃ counters,
      Runs.Run IndexStep (initCounters threadId type uninitialised) calls counters) := by
  refine ⟨⟨ResizesKeepUp.of_writesInside, ?_⟩, ResizesKeepUp.exists_run⟩
  exact fun h pre call _ hpre hrun => (writesInside_iff_keepsUp hrun).mpr (h pre call hpre)

/-- Lookups of the odids below `n`, for which no resize succeeds. -/
def unresized (n : Nat) : List (IndexCall × CounterMallocs) :=
  (lookups n).map (fun call => (call, ⟨true, false⟩))

/-- They fill the index array that was allocated first. -/
theorem unresized_run (threadId : Nat) (type : ThreadType) (uninitialised : Nat → ActiveOdid)
    {n : Nat} (hn : n ≤ 500) :
    ∃ counters, Runs.Run IndexStep (initCounters threadId type uninitialised) (unresized n)
        counters ∧
      counters.activeOdidsLength.toNat = n ∧ counters.activeOdidsMaxLength.toNat = 500 ∧
        ∀ odid, counters.lookup odid ≠ none ↔ odid.toNat < n := by
  induction n with
  | zero =>
      refine ⟨_, .nil, rfl, rfl, fun odid => ?_⟩
      exact iff_of_false (fun hne => hne rfl) (Nat.not_lt_zero _)
  | succ n ih =>
      obtain ⟨counters, hrun, hlength, hmax, hlookup⟩ := ih (by omega)
      have hconsistent := run_consistent hrun
      have hodid : (BitVec.ofNat 32 n).toNat = n := by
        rw [BitVec.toNat_ofNat]
        omega
      have hnone : counters.lookup (.ofNat 32 n) = none := by
        by_contra hne
        have := (hlookup _).mp hne
        omega
      have hroom : HasRoom false counters := by
        unfold HasRoom
        rw [if_neg (fun hresize => by cases hresize.1)]
        omega
      obtain ⟨⟨found, next⟩, hget⟩ := Option.isSome_iff_exists.mp
        ((hconsistent.getOdidCounter_isSome_iff ⟨true, false⟩ _).mpr (fun _ _ => hroom))
      obtain ⟨_, hlength', hmax', _⟩ := hconsistent.get_new hnone rfl hget
      have hstep : IndexStep counters (.get (.ofNat 32 n), ⟨true, false⟩) next :=
        Option.map_eq_some_iff.mpr ⟨_, hget, rfl⟩
      refine ⟨next, ?_, by omega, ?_, fun odid => ?_⟩
      · rw [unresized, lookups_succ, List.map_append]
        exact .snoc hrun hstep
      · rw [hmax', if_neg (fun hresize => by cases hresize.1)]
        exact hmax
      · have hfound : found ≠ none := by
          rcases getOdidCounter_cases hget with ⟨_, _, rfl, _⟩ | ⟨_, _, rfl, _⟩ | ⟨_, hfails, _⟩
          · exact Option.some_ne_none _
          · exact Option.some_ne_none _
          · cases hfails
        rw [lookup_getOdidCounter hget]
        split
        · rename_i hself
          rw [hself, hodid]
          exact iff_of_true hfound (Nat.lt_succ_self n)
        · rename_i hother
          rw [hlookup]
          have hne : odid.toNat ≠ n := by
            intro heq
            exact hother (BitVec.eq_of_toNat_eq (heq.trans hodid.symm))
          omega

/-- With no resize that succeeds, the lookup of a 501st odid writes behind the 500
cells of the index array. -/
theorem index_written_beyond_500 :
    ¬ ∀ (threadId : Nat) (type : ThreadType) (uninitialised : Nat → ActiveOdid)
      (calls : List (IndexCall × CounterMallocs)),
      OfEveryCall WritesInside (initCounters threadId type uninitialised) calls := by
  intro hclaim
  obtain ⟨counters, hrun, hlength, hmax, hlookup⟩ :=
    unresized_run 0 .parserWorker (fun _ => ⟨0, 0⟩) (Nat.le_refl 500)
  have hinside := hclaim 0 .parserWorker (fun _ => ⟨0, 0⟩) (unresized 500 ++
    [(.get (.ofNat 32 500), ⟨true, false⟩)]) (unresized 500) _ counters (List.prefix_refl _) hrun
  have hnone : counters.lookup (.ofNat 32 500) = none := by
    by_contra hne
    exact absurd ((hlookup _).mp hne) (by decide)
  have hroom := (run_consistent hrun).writesInside_iff.mp hinside hnone rfl
  unfold HasRoom at hroom
  rw [if_neg (fun hresize => by cases hresize.1)] at hroom
  omega

end UdpNotif
