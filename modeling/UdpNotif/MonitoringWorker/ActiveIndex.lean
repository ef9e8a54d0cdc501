import UdpNotif.Lib.Runs
import UdpNotif.MonitoringWorker.ActiveOdids

/-!
The hash lists and the index array of a worker describe the same set of odids. The
abstract state is that set: a lookup puts an odid into it and a removal takes it out.
The two structures follow it as long as the size of the array does not wrap.
-/

namespace UdpNotif

/-- The index array lists an odid with its activity. -/
def SegCounters.Lists (counters : SegCounters) (cell : ActiveOdid) : Prop :=
  CompactIndex.Listed counters.activeOdids counters.activeOdidsLength.toNat cell

/-- Every odid with a counter is listed once, and no other, inside the array. -/
structure Consistent (counters : SegCounters) : Prop where
  wellFormed : counters.WellFormed
  distinct : CompactIndex.Distinct ActiveOdid.observationDomainId counters.activeOdids
    counters.activeOdidsLength.toNat
  listed : ∀ odid, counters.lookup odid ≠ none ↔ ∃ active, counters.Lists ⟨odid, active⟩
  length_le : counters.activeOdidsLength.toNat ≤ counters.activeOdidsMaxLength.toNat
  maxLength : counters.activeOdidsMaxLength.toNat % 500 = 0

/-- There is a cell for one more odid: a free one, or those of a resize that succeeds
and whose size does not wrap. -/
def HasRoom (realloc : Bool) (counters : SegCounters) : Prop :=
  if realloc = true ∧
    counters.activeOdidsMaxLength.toNat ≤ counters.activeOdidsLength.toNat + 1 then
    counters.activeOdidsMaxLength.toNat + 500 < 2 ^ 32
  else counters.activeOdidsLength.toNat < counters.activeOdidsMaxLength.toNat

theorem initCounters_consistent (threadId : Nat) (type : ThreadType)
    (uninitialised : Nat → ActiveOdid) : Consistent (initCounters threadId type uninitialised) where
  wellFormed := initCounters_wellFormed threadId type uninitialised
  distinct := CompactIndex.distinct_zero _ _
  listed := fun _ => iff_of_false (fun h => h rfl)
    (fun ⟨_, hlists⟩ => CompactIndex.not_listed_zero _ _ hlists)
  length_le := Nat.zero_le _
  maxLength := (by decide : activeOdids.toNat % 500 = 0)

section Room

variable {counters counters' : SegCounters} {odid : Uint32}

/-- The cell behind the listed ones is inside the array exactly if there is room. -/
theorem resizeIfFull_lt_iff (realloc : Bool)
    (hlength : counters.activeOdidsLength.toNat ≤ counters.activeOdidsMaxLength.toNat)
    (hmax : counters.activeOdidsMaxLength.toNat % 500 = 0) :
    counters.activeOdidsLength.toNat <
        (resizeIfFull realloc counters).activeOdidsMaxLength.toNat ↔ HasRoom realloc counters := by
  rw [resizeIfFull_size realloc counters hlength hmax, HasRoom]
  have hbound := counters.activeOdidsMaxLength.isLt
  split
  · rename_i hfull
    by_cases hwrap : counters.activeOdidsMaxLength.toNat + 500 < 2 ^ 32
    · rw [Nat.mod_eq_of_lt hwrap]
      exact iff_of_true (by omega) hwrap
    · exact iff_of_false (by omega) hwrap
  · exact Iff.rfl

theorem addActiveOdid_isSome_iff (realloc : Bool)
    (hlength : counters.activeOdidsLength.toNat ≤ counters.activeOdidsMaxLength.toNat)
    (hmax : counters.activeOdidsMaxLength.toNat % 500 = 0) :
    (addActiveOdid realloc counters odid).isSome = true ↔ HasRoom realloc counters := by
  rw [← resizeIfFull_lt_iff realloc hlength hmax, addActiveOdid, Option.isSome_map,
    resizeIfFull_eq, SegCounters.writeActive]
  dsimp only
  split <;> simp_all

/-- An odid was added where there was room, to an array that has grown if it was full. -/
theorem addActiveOdid_size {realloc : Bool}
    (hlength : counters.activeOdidsLength.toNat ≤ counters.activeOdidsMaxLength.toNat)
    (hmax : counters.activeOdidsMaxLength.toNat % 500 = 0)
    (hadd : addActiveOdid realloc counters odid = some counters') :
    counters'.activeOdidsLength.toNat = counters.activeOdidsLength.toNat + 1 ∧
      counters'.activeOdidsMaxLength.toNat =
        counters.activeOdidsMaxLength.toNat + (if realloc = true ∧
          counters.activeOdidsMaxLength.toNat ≤ counters.activeOdidsLength.toNat + 1 then 500
        else 0) ∧
      HasRoom realloc counters := by
  have hsome : (addActiveOdid realloc counters odid).isSome = true := by
    rw [hadd]
    rfl
  have hroom := (addActiveOdid_isSome_iff realloc hlength hmax).mp hsome
  have hsize := resizeIfFull_size realloc counters hlength hmax
  have hbound := counters.activeOdidsMaxLength.isLt
  have hone : (1 : Uint32).toNat = 1 := rfl
  rw [addActiveOdid_eq hadd]
  refine ⟨?_, ?_, hroom⟩
  · change (counters.activeOdidsLength + 1).toNat = _
    rw [BitVec.toNat_add]
    omega
  · change (resizeIfFull realloc counters).activeOdidsMaxLength.toNat = _
    unfold HasRoom at hroom
    rw [hsize]
    split
    · rename_i hfull
      rw [if_pos hfull] at hroom
      exact Nat.mod_eq_of_lt hroom
    · rfl

end Room

/-- Removing an odid deletes its counter and its cell, and keeps those of every other. -/
structure RemovesExactly (counters : SegCounters) (odid : Uint32) : Prop where
  lookup : ∀ k, (removeOdidCounter counters odid).lookup k =
    if k = odid then none else counters.lookup k
  lists : ∀ cell, (removeOdidCounter counters odid).Lists cell ↔
    counters.Lists cell ∧ cell.observationDomainId ≠ odid

section Consistent

variable {counters counters' : SegCounters} {odid : Uint32}

theorem SegCounters.exists_lists_iff (counters : SegCounters) (odid : Uint32) :
    (∃ active, counters.Lists ⟨odid, active⟩) ↔
      ∃ i < counters.activeOdidsLength.toNat, counters.odidAt i = odid := by
  constructor
  · rintro ⟨_, i, hi, hcell⟩
    exact ⟨i, hi, congrArg ActiveOdid.observationDomainId hcell⟩
  · rintro ⟨i, hi, rfl⟩
    exact ⟨(counters.activeOdids i).active, i, hi, rfl⟩

theorem Consistent.lookup_ne_none (h : Consistent counters) {i : Nat}
    (hi : i < counters.activeOdidsLength.toNat) : counters.lookup (counters.odidAt i) ≠ none :=
  (h.listed _).mpr ((counters.exists_lists_iff _).mpr ⟨i, hi, rfl⟩)

/-- Values of counters and the activity of cells do not matter. -/
theorem Consistent.congr (h : Consistent counters) (hwellFormed : counters'.WellFormed)
    (hodid : counters'.odidAt = counters.odidAt)
    (hlength : counters'.activeOdidsLength = counters.activeOdidsLength)
    (hmaxLength : counters'.activeOdidsMaxLength = counters.activeOdidsMaxLength)
    (hlookup : ∀ k, counters'.lookup k ≠ none ↔ counters.lookup k ≠ none) :
    Consistent counters' where
  wellFormed := hwellFormed
  distinct := by
    rw [hlength]
    exact h.distinct.congr (fun i _ => congrFun hodid i)
  listed := by
    intro odid
    rw [hlookup, h.listed, counters.exists_lists_iff, counters'.exists_lists_iff, hlength, hodid]
  length_le := by rw [hlength, hmaxLength]; exact h.length_le
  maxLength := by rw [hmaxLength]; exact h.maxLength

theorem SegCounters.lookup_store_ne_none (counter : OdidCounter) (k : Uint32) :
    (counters.store counter).lookup k ≠ none ↔ counters.lookup k ≠ none := by
  by_cases hold : counters.lookup counter.observationDomainId = none
  · have hself : ChainedTable.find OdidCounter.observationDomainId counter.observationDomainId
        (ChainedTable.adjust OdidCounter.observationDomainId counter.observationDomainId
          counter.writeTo
          (counters.odidCounters (odidHashKey counter.observationDomainId))) = none := by
      rw [ChainedTable.find_adjust_self counter.writeTo_odid]
      exact congrArg (Option.map _) hold
    have hother : (counters.store counter).lookup k = counters.lookup k := by
      rw [SegCounters.store, counters.lookup_setBucket_of_find hself]
      · split
        · rename_i hk
          rw [hk, hold]
        · rfl
      · intro k hk
        exact ChainedTable.find_adjust_other counter.writeTo_odid hk _
    rw [hother]
  · obtain ⟨old, hold'⟩ := Option.ne_none_iff_exists'.mp hold
    rw [SegCounters.lookup_store hold']
    split
    · rename_i hk
      rw [hk]
      exact iff_of_true (Option.some_ne_none _) hold
    · exact Iff.rfl

theorem Consistent.store (h : Consistent counters) (counter : OdidCounter) :
    Consistent (counters.store counter) :=
  h.congr (h.wellFormed.store counter) rfl rfl rfl (SegCounters.lookup_store_ne_none counter)

/-- A cell keeps its odid when its activity changes. -/
theorem Consistent.setActive (h : Consistent counters) (i : Nat) (active : Int) :
    Consistent { counters with
      activeOdids := Function.update counters.activeOdids i ⟨counters.odidAt i, active⟩ } := by
  refine h.congr h.wellFormed ?_ rfl rfl (fun _ => Iff.rfl)
  funext j
  by_cases hj : j = i
  · simp only [SegCounters.odidAt, hj, Function.update_self]
  · simp only [SegCounters.odidAt, Function.update_of_ne hj]

/-- What an odid that has no counter adds to the index. -/
theorem Consistent.get_new (h : Consistent counters) {mallocs : CounterMallocs}
    {found : Option OdidCounter} (hnone : counters.lookup odid = none)
    (hmalloc : mallocs.counter = true)
    (hget : getOdidCounter mallocs counters odid = some (found, counters')) :
    counters'.activeOdids = Function.update counters.activeOdids
        counters.activeOdidsLength.toNat ⟨odid, 0⟩ ∧
      counters'.activeOdidsLength.toNat = counters.activeOdidsLength.toNat + 1 ∧
      counters'.activeOdidsMaxLength.toNat =
        counters.activeOdidsMaxLength.toNat + (if mallocs.resize = true ∧
          counters.activeOdidsMaxLength.toNat ≤ counters.activeOdidsLength.toNat + 1 then 500
        else 0) ∧
      HasRoom mallocs.resize counters := by
  rcases getOdidCounter_cases hget with ⟨_, hsome, _⟩ | ⟨_, _, _, hadd⟩ | ⟨_, hfails, _⟩
  · rw [hnone] at hsome
    cases hsome
  · obtain ⟨stored, hstored⟩ : ∃ stored, stored = counters.setBucket (odidHashKey odid)
      (counters.odidCounters (odidHashKey odid) ++ [newOdidCounter odid]) := ⟨_, rfl⟩
    rw [← hstored] at hadd
    have hcells : stored.activeOdids = counters.activeOdids := by rw [hstored]; rfl
    have hlen : stored.activeOdidsLength = counters.activeOdidsLength := by rw [hstored]; rfl
    have hmax : stored.activeOdidsMaxLength = counters.activeOdidsMaxLength := by
      rw [hstored]; rfl
    have hle := h.length_le
    have hmod := h.maxLength
    rw [← hlen, ← hmax] at hle
    rw [← hmax] at hmod
    obtain ⟨hlength, hsize, hroom⟩ := addActiveOdid_size hle hmod hadd
    unfold HasRoom at hroom ⊢
    rw [hlen, hmax] at hroom hsize
    rw [hlen] at hlength
    refine ⟨?_, hlength, hsize, hroom⟩
    rw [addActiveOdid_eq hadd, hcells, hlen]
  · rw [hmalloc] at hfails
    cases hfails

/-- A lookup changes nothing unless it makes a new counter. -/
theorem getOdidCounter_same {mallocs : CounterMallocs} {found : Option OdidCounter}
    (hsame : counters.lookup odid ≠ none ∨ mallocs.counter = false)
    (hget : getOdidCounter mallocs counters odid = some (found, counters')) :
    counters' = counters := by
  rcases getOdidCounter_cases hget with ⟨_, _, _, rfl⟩ | ⟨hnone, hmalloc, _⟩ | ⟨_, _, _, rfl⟩
  · rfl
  · rcases hsame with hsome | hfails
    · exact absurd hnone hsome
    · rw [hmalloc] at hfails
      cases hfails
  · rfl

theorem Consistent.get (h : Consistent counters) {mallocs : CounterMallocs}
    {found : Option OdidCounter}
    (hget : getOdidCounter mallocs counters odid = some (found, counters')) :
    Consistent counters' := by
  by_cases hsame : counters.lookup odid ≠ none ∨ mallocs.counter = false
  · rw [getOdidCounter_same hsame hget]
    exact h
  · rw [not_or, not_not, Bool.not_eq_false] at hsame
    obtain ⟨hnone, hmalloc⟩ := hsame
    obtain ⟨hcells, hlength, hsize, hroom⟩ := h.get_new hnone hmalloc hget
    have hlookup := lookup_getOdidCounter hget
    have hfound : found ≠ none := by
      rcases getOdidCounter_cases hget with ⟨_, _, rfl, _⟩ | ⟨_, _, rfl, _⟩ | ⟨_, hfails, _⟩
      · exact Option.some_ne_none _
      · exact Option.some_ne_none _
      · rw [hmalloc] at hfails
        cases hfails
    have hle := h.length_le
    have hmax := h.maxLength
    refine ⟨h.wellFormed.getOdidCounter hget, ?_, fun k => ?_, ?_, ?_⟩
    · rw [hcells, hlength]
      refine h.distinct.append ?_
      rintro _ ⟨i, hi, rfl⟩ heq
      refine h.lookup_ne_none hi ?_
      rw [SegCounters.odidAt, heq]
      exact hnone
    · unfold SegCounters.Lists
      rw [hcells, hlength, hlookup]
      simp only [CompactIndex.listed_append]
      split
      · rename_i hk
        rw [hk]
        exact iff_of_true hfound ⟨0, Or.inl rfl⟩
      · rename_i hk
        rw [h.listed]
        constructor
        · rintro ⟨active, hlists⟩
          exact ⟨active, Or.inr hlists⟩
        · rintro ⟨active, heq | hlists⟩
          · exact absurd (congrArg ActiveOdid.observationDomainId heq) hk
          · exact ⟨active, hlists⟩
    · unfold HasRoom at hroom
      rw [hlength, hsize]
      split at hroom
      · rename_i hfull
        rw [if_pos hfull]
        omega
      · rename_i hfull
        rw [if_neg hfull]
        exact hroom
    · rw [hsize]
      split <;> omega

theorem Consistent.removesExactly (h : Consistent counters) (odid : Uint32) :
    RemovesExactly counters odid := by
  refine ⟨lookup_removeOdidCounter h.wellFormed odid, fun cell => ?_⟩
  unfold SegCounters.Lists
  obtain ⟨_, ⟨hnot, hcells, hlength⟩ | ⟨i, hi, rfl, hcells, hlength⟩⟩ :=
    removeOdidCounter_index counters odid
  · rw [hcells, hlength]
    refine ⟨fun hlists => ⟨hlists, ?_⟩, fun hlists => hlists.1⟩
    obtain ⟨i, hi, rfl⟩ := hlists
    exact hnot i hi
  · rw [hcells, hlength]
    exact CompactIndex.listed_takeOut h.distinct hi cell

theorem Consistent.remove (h : Consistent counters) (odid : Uint32) :
    Consistent (removeOdidCounter counters odid) := by
  have hexact := h.removesExactly odid
  have hle := h.length_le
  obtain ⟨hmax, hindex⟩ := removeOdidCounter_index counters odid
  refine ⟨removeOdidCounter_wellFormed h.wellFormed odid, ?_, fun k => ?_, ?_, hmax ▸ h.maxLength⟩
  · rcases hindex with ⟨_, hcells, hlength⟩ | ⟨i, hi, _, hcells, hlength⟩
    · rw [hcells, hlength]
      exact h.distinct
    · rw [hcells, hlength]
      exact h.distinct.takeOut hi
  · simp only [hexact.lookup, hexact.lists]
    split
    · rename_i hk
      exact iff_of_false (fun hne => hne rfl) (fun ⟨_, _, hne⟩ => hne hk)
    · rename_i hk
      rw [h.listed]
      exact exists_congr (fun _ => (and_iff_left hk).symm)
  · rw [hmax]
    rcases hindex with ⟨_, _, hlength⟩ | ⟨_, _, _, _, hlength⟩
    · rw [hlength]
      exact hle
    · omega

end Consistent

end UdpNotif
