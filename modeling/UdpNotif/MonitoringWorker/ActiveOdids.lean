import UdpNotif.Lib.CompactIndex
import UdpNotif.MonitoringWorker.Counters

/-!
The index array of a worker. It lists every active odid once, so that it is never
longer than the number of odids, and as long as its resizes succeed no access lies
outside it. The thread that visits it may come to cells behind its length, which
hold odids of earlier counters.
-/

namespace UdpNotif

/-- The most odids for which the size of the index array fits in 32 bits. -/
abbrev maxActiveOdids : Nat := 4294966999

/-- The odid in a cell of the index array. -/
def SegCounters.odidAt (counters : SegCounters) (i : Nat) : Uint32 :=
  (counters.activeOdids i).observationDomainId

/-- The index array lists different odids that have counters; its first `bound`
cells have been written, with odids of `known`. -/
structure Indexed (known : Finset Uint32) (bound : Nat) (counters : SegCounters) : Prop where
  wellFormed : counters.WellFormed
  length_lt : counters.activeOdidsLength.toNat < counters.activeOdidsMaxLength.toNat
  length_le : counters.activeOdidsLength.toNat ≤ bound
  bound_le : bound ≤ counters.activeOdidsMaxLength.toNat
  maxLength : counters.activeOdidsMaxLength.toNat % 500 = 0
  cells : ∀ i < bound, counters.odidAt i ∈ known
  distinct : ∀ i < counters.activeOdidsLength.toNat, ∀ j < counters.activeOdidsLength.toNat,
    counters.odidAt i = counters.odidAt j → i = j
  live : ∀ i < counters.activeOdidsLength.toNat, counters.lookup (counters.odidAt i) ≠ none

theorem initCounters_indexed (known : Finset Uint32) (threadId : Nat) (type : ThreadType)
    (uninitialised : Nat → ActiveOdid) :
    Indexed known 0 (initCounters threadId type uninitialised) where
  wellFormed := initCounters_wellFormed threadId type uninitialised
  length_lt := (by decide : 0 < activeOdids.toNat)
  length_le := Nat.le_refl _
  bound_le := Nat.zero_le _
  maxLength := (by decide : activeOdids.toNat % 500 = 0)
  cells := fun _ hi => absurd hi (Nat.not_lt_zero _)
  distinct := fun _ hi => absurd hi (Nat.not_lt_zero _)
  live := fun _ hi => absurd hi (Nat.not_lt_zero _)

section Indexed

variable {counters counters' : SegCounters} {known : Finset Uint32} {bound : Nat}

theorem Indexed.odidAt_ne (h : Indexed known bound counters) {odid : Uint32}
    (hnone : counters.lookup odid = none) {i : Nat}
    (hi : i < counters.activeOdidsLength.toNat) : counters.odidAt i ≠ odid := by
  rintro rfl
  exact h.live i hi hnone

/-- Every active odid is a known one and is listed once, so that there is room for
a known one that is not listed. -/
theorem Indexed.length_lt_card (h : Indexed known bound counters) {odid : Uint32}
    (hodid : odid ∈ known) (hnone : counters.lookup odid = none) :
    counters.activeOdidsLength.toNat < known.card := by
  have hcard := Finset.card_le_card_of_injOn (s := Finset.range counters.activeOdidsLength.toNat)
    (t := known.erase odid) counters.odidAt
    (fun i hi => Finset.mem_erase.mpr ⟨h.odidAt_ne hnone (Finset.mem_range.mp hi),
      h.cells i (Nat.lt_of_lt_of_le (Finset.mem_range.mp hi) h.length_le)⟩)
    (fun i hi j hj heq => h.distinct i (Finset.mem_range.mp hi) j (Finset.mem_range.mp hj) heq)
  rw [Finset.card_range, Finset.card_erase_of_mem hodid] at hcard
  have hpos := Finset.card_pos.mpr ⟨odid, hodid⟩
  omega

/-- Changes to the values of counters and to the activity of cells keep the index. -/
theorem Indexed.congr (h : Indexed known bound counters)
    (hwellFormed : counters'.WellFormed) (hodid : counters'.odidAt = counters.odidAt)
    (hlength : counters'.activeOdidsLength = counters.activeOdidsLength)
    (hmaxLength : counters'.activeOdidsMaxLength = counters.activeOdidsMaxLength)
    (hlive : ∀ odid, counters.lookup odid ≠ none → counters'.lookup odid ≠ none) :
    Indexed known bound counters' where
  wellFormed := hwellFormed
  length_lt := by rw [hlength, hmaxLength]; exact h.length_lt
  length_le := by rw [hlength]; exact h.length_le
  bound_le := by rw [hmaxLength]; exact h.bound_le
  maxLength := by rw [hmaxLength]; exact h.maxLength
  cells := by rw [hodid]; exact h.cells
  distinct := by rw [hodid, hlength]; exact h.distinct
  live := by
    rw [hodid, hlength]
    exact fun i hi => hlive _ (h.live i hi)

theorem Indexed.store (h : Indexed known bound counters) {counter old : OdidCounter}
    (hold : counters.lookup counter.observationDomainId = some old) :
    Indexed known bound (counters.store counter) := by
  apply h.congr (h.wellFormed.store counter) rfl rfl rfl
  intro odid hodid
  rw [SegCounters.lookup_store hold]
  split
  · exact Option.some_ne_none _
  · exact hodid

/-- A visited cell keeps its odid. -/
theorem Indexed.setActive (h : Indexed known bound counters) (i : Nat) (active : Int) :
    Indexed known bound { counters with
      activeOdids := Function.update counters.activeOdids i ⟨counters.odidAt i, active⟩ } := by
  refine h.congr h.wellFormed ?_ rfl rfl (fun _ hodid => hodid)
  funext j
  by_cases hj : j = i
  · subst hj
    simp only [SegCounters.odidAt, Function.update_self]
  · simp only [SegCounters.odidAt, Function.update_of_ne hj]

/-- The size of the index array after a resize, in 32 bits. -/
theorem resizeIfFull_size (realloc : Bool) (counters : SegCounters)
    (hlength : counters.activeOdidsLength.toNat ≤ counters.activeOdidsMaxLength.toNat)
    (hmax : counters.activeOdidsMaxLength.toNat % 500 = 0) :
    (resizeIfFull realloc counters).activeOdidsMaxLength.toNat =
      if realloc = true ∧
        counters.activeOdidsMaxLength.toNat ≤ counters.activeOdidsLength.toNat + 1 then
        (counters.activeOdidsMaxLength.toNat + 500) % 2 ^ 32
      else counters.activeOdidsMaxLength.toNat := by
  have hone : (1 : Uint32).toNat = 1 := rfl
  have hbound := counters.activeOdidsMaxLength.isLt
  have hnext : (counters.activeOdidsLength + 1).toNat = counters.activeOdidsLength.toNat + 1 := by
    rw [BitVec.toNat_add]
    omega
  have hfull : counters.activeOdidsMaxLength ≤ counters.activeOdidsLength + 1 ↔
      counters.activeOdidsMaxLength.toNat ≤ counters.activeOdidsLength.toNat + 1 := by
    rw [BitVec.le_def, hnext]
  unfold resizeIfFull resizeActiveOdidIndex
  cases realloc with
  | false => simp
  | true =>
      by_cases h : counters.activeOdidsMaxLength ≤ counters.activeOdidsLength + 1
      · simp only [if_pos h, if_pos (hfull.mp h), if_true, true_and]
        exact BitVec.toNat_add _ _
      · simp only [if_neg h, if_neg (mt hfull.mpr h), true_and]

/-- A resize that succeeds makes room for one more odid. -/
theorem resizeIfFull_room (counters : SegCounters)
    (hlength : counters.activeOdidsLength.toNat < counters.activeOdidsMaxLength.toNat)
    (hmax : counters.activeOdidsMaxLength.toNat % 500 = 0)
    (hroom : counters.activeOdidsLength.toNat < maxActiveOdids) :
    counters.activeOdidsLength.toNat + 1 <
        (resizeIfFull true counters).activeOdidsMaxLength.toNat ∧
      counters.activeOdidsMaxLength.toNat ≤
        (resizeIfFull true counters).activeOdidsMaxLength.toNat ∧
      (resizeIfFull true counters).activeOdidsMaxLength.toNat % 500 = 0 := by
  have hsize := resizeIfFull_size true counters hlength.le hmax
  unfold maxActiveOdids at hroom
  rw [hsize]
  split
  · rename_i hfull
    rw [Nat.mod_eq_of_lt (by omega)]
    omega
  · rename_i hfull
    simp only [true_and] at hfull
    omega

theorem SegCounters.writeActive_isSome {i : Nat} (hi : i < counters.activeOdidsMaxLength.toNat)
    (cell : ActiveOdid) : (counters.writeActive i cell).isSome = true := by
  rw [SegCounters.writeActive, if_pos hi]
  rfl

/-- A lookup of a known odid stays inside the index array. -/
theorem Indexed.getOdidCounter_isSome (h : Indexed known bound counters) {odid : Uint32}
    (hodid : odid ∈ known) (hcard : known.card ≤ maxActiveOdids) {mallocs : CounterMallocs}
    (hresize : mallocs.resize = true) :
    (getOdidCounter mallocs counters odid).isSome = true := by
  simp only [getOdidCounter]
  split
  · rfl
  · rename_i hnone
    split
    · have hlength := h.length_lt_card hodid hnone
      rw [Option.isSome_map, addActiveOdid, Option.isSome_map, hresize]
      apply SegCounters.writeActive_isSome
      have hroom := resizeIfFull_room (counters.setBucket (odidHashKey odid)
        (counters.odidCounters (odidHashKey odid) ++ [newOdidCounter odid])) h.length_lt
        h.maxLength (Nat.lt_of_lt_of_le hlength hcard)
      rw [resizeIfFull_eq]
      exact Nat.lt_of_succ_lt hroom.1
    · rfl

/-- An odid is added to the index behind the others. -/
theorem Indexed.append (h : Indexed known bound counters) {odid : Uint32}
    (hodid : odid ∈ known) (hnone : counters.lookup odid = none)
    (hwellFormed : counters'.WellFormed)
    (hodidAt : counters'.odidAt =
      Function.update counters.odidAt counters.activeOdidsLength.toNat odid)
    (hlength : counters'.activeOdidsLength.toNat = counters.activeOdidsLength.toNat + 1)
    (hroom : counters.activeOdidsLength.toNat + 1 < counters'.activeOdidsMaxLength.toNat)
    (hgrown : counters.activeOdidsMaxLength.toNat ≤ counters'.activeOdidsMaxLength.toNat)
    (hmax : counters'.activeOdidsMaxLength.toNat % 500 = 0)
    (hlookup : ∀ k, counters.lookup k ≠ none ∨ k = odid → counters'.lookup k ≠ none) :
    Indexed known (max bound (counters.activeOdidsLength.toNat + 1)) counters' := by
  have hself : counters'.odidAt counters.activeOdidsLength.toNat = odid := by
    rw [hodidAt, Function.update_self]
  have hother (i : Nat) (hi : i ≠ counters.activeOdidsLength.toNat) :
      counters'.odidAt i = counters.odidAt i := by
    rw [hodidAt, Function.update_of_ne hi]
  have hbound := h.bound_le
  refine ⟨hwellFormed, by omega, by omega, by omega, hmax, ?_, ?_, ?_⟩
  · intro i hi
    by_cases hlast : i = counters.activeOdidsLength.toNat
    · rw [hlast, hself]
      exact hodid
    · rw [hother i hlast]
      exact h.cells i (by have := h.length_le; omega)
  · have hdistinct : CompactIndex.Distinct id counters.odidAt counters.activeOdidsLength.toNat :=
      h.distinct
    rw [hodidAt, hlength]
    refine hdistinct.append ?_
    rintro _ ⟨i, hi, rfl⟩
    exact h.odidAt_ne hnone hi
  · intro i hi
    rw [hlength] at hi
    by_cases hlast : i = counters.activeOdidsLength.toNat
    · rw [hlast, hself]
      exact hlookup odid (Or.inr rfl)
    · rw [hother i hlast]
      exact hlookup _ (Or.inl (h.live i (by omega)))

/-- A lookup of a known odid keeps the index, in which it may write one more cell. -/
theorem Indexed.afterLookup (h : Indexed known bound counters) {odid : Uint32}
    (hodid : odid ∈ known) (hcard : known.card ≤ maxActiveOdids) {mallocs : CounterMallocs}
    (hresize : mallocs.resize = true) {found : Option OdidCounter}
    (hget : getOdidCounter mallocs counters odid = some (found, counters')) :
    ∃ bound', bound ≤ bound' ∧ Indexed known bound' counters' := by
  have hwellFormed := h.wellFormed.getOdidCounter hget
  have hlookup := lookup_getOdidCounter hget
  rcases getOdidCounter_cases hget with ⟨_, _, _, rfl⟩ | ⟨hnone, _, rfl, hadd⟩ | ⟨_, _, _, rfl⟩
  · exact ⟨bound, Nat.le_refl _, h⟩
  · have hlength := Nat.lt_of_lt_of_le (h.length_lt_card hodid hnone) hcard
    have hroom := resizeIfFull_room (counters.setBucket (odidHashKey odid)
      (counters.odidCounters (odidHashKey odid) ++ [newOdidCounter odid])) h.length_lt
      h.maxLength hlength
    rw [hresize] at hadd
    have heq := addActiveOdid_eq hadd
    have hcells : counters'.activeOdids = Function.update counters.activeOdids
        counters.activeOdidsLength.toNat ⟨odid, 0⟩ := by
      rw [heq]
      rfl
    have hodidAt : counters'.odidAt =
        Function.update counters.odidAt counters.activeOdidsLength.toNat odid := by
      funext i
      rw [SegCounters.odidAt, hcells]
      by_cases hi : i = counters.activeOdidsLength.toNat
      · subst hi
        rw [Function.update_self, Function.update_self]
      · rw [Function.update_of_ne hi, Function.update_of_ne hi]
        rfl
    have hnext : counters'.activeOdidsLength.toNat = counters.activeOdidsLength.toNat + 1 := by
      rw [heq]
      change (counters.activeOdidsLength + 1).toNat = _
      rw [BitVec.toNat_add]
      have hlt := h.length_lt
      have hone : (1 : Uint32).toNat = 1 := rfl
      omega
    refine ⟨_, Nat.le_max_left _ _, h.append hodid hnone hwellFormed hodidAt hnext ?_ ?_ ?_ ?_⟩
    · rw [heq]
      exact hroom.1
    · rw [heq]
      exact hroom.2.1
    · rw [heq]
      exact hroom.2.2
    · intro k hk
      rw [hlookup k]
      split
      · exact Option.some_ne_none _
      · exact hk.resolve_right ‹_›
  · exact ⟨bound, Nat.le_refl _, h⟩

/-- The loop that closes a gap puts the last cell there. -/
theorem foldl_copy_eq (cells : Nat → ActiveOdid) (i count : Nat) :
    (List.range' (i + 1) count).foldl (fun cells o => Function.update cells i (cells o)) cells =
      Function.update cells i (cells (i + count)) := by
  induction count with
  | zero => exact (Function.update_eq_self i cells).symm
  | succ count ih =>
      have hne : i + 1 + count ≠ i := by omega
      rw [List.range'_1_concat, List.foldl_append, ih, List.foldl_cons, List.foldl_nil,
        Function.update_of_ne hne, Function.update_idem]
      congr 2
      omega

/-- What removing an odid does to the index: nothing if it is not listed, and
otherwise the last cell takes its place. -/
theorem removeOdidCounter_index (counters : SegCounters) (odid : Uint32) :
    (removeOdidCounter counters odid).activeOdidsMaxLength = counters.activeOdidsMaxLength ∧
      (((∀ i < counters.activeOdidsLength.toNat, counters.odidAt i ≠ odid) ∧
        (removeOdidCounter counters odid).activeOdids = counters.activeOdids ∧
        (removeOdidCounter counters odid).activeOdidsLength = counters.activeOdidsLength) ∨
      ∃ i < counters.activeOdidsLength.toNat, counters.odidAt i = odid ∧
        (removeOdidCounter counters odid).activeOdids = Function.update counters.activeOdids i
          (counters.activeOdids (counters.activeOdidsLength.toNat - 1)) ∧
        (removeOdidCounter counters odid).activeOdidsLength.toNat =
          counters.activeOdidsLength.toNat - 1) := by
  rw [removeOdidCounter, removeActiveOdid]
  cases hindex : activeIndex (counters.setBucket (odidHashKey odid)
      (unlinkOdidCounters odid (counters.odidCounters (odidHashKey odid)))) odid with
  | none =>
      refine ⟨rfl, Or.inl ⟨fun i hi heq => ?_, rfl, rfl⟩⟩
      have hnot := List.find?_eq_none.mp hindex i (List.mem_range.mpr hi)
      exact hnot (decide_eq_true heq)
  | some i =>
      have hi : i < counters.activeOdidsLength.toNat :=
        List.mem_range.mp (List.mem_of_find?_eq_some hindex)
      have hfound := List.find?_some hindex
      have hcells := foldl_copy_eq counters.activeOdids i
        (counters.activeOdidsLength.toNat - (i + 1))
      have hlast : i + (counters.activeOdidsLength.toNat - (i + 1)) =
          counters.activeOdidsLength.toNat - 1 := by omega
      rw [hlast] at hcells
      have hshorter : (counters.activeOdidsLength - 1).toNat =
          counters.activeOdidsLength.toNat - 1 := by bv_omega
      exact ⟨rfl, Or.inr ⟨i, hi, of_decide_eq_true hfound, hcells, hshorter⟩⟩

/-- A removed odid leaves the index. -/
theorem Indexed.remove (h : Indexed known bound counters) (odid : Uint32) :
    Indexed known bound (removeOdidCounter counters odid) := by
  have hwellFormed := removeOdidCounter_wellFormed h.wellFormed odid
  have hlive (k : Uint32) (hk : k ≠ odid) (hstored : counters.lookup k ≠ none) :
      (removeOdidCounter counters odid).lookup k ≠ none := by
    rw [lookup_removeOdidCounter h.wellFormed, if_neg hk]
    exact hstored
  have hlt := h.length_lt
  have hle := h.length_le
  obtain ⟨hmax, ⟨hnot, hcells, hlength⟩ | ⟨i, hi, hodid, hcells, hlength⟩⟩ :=
    removeOdidCounter_index counters odid
  · refine ⟨hwellFormed, by rwa [hlength, hmax], by rwa [hlength], hmax ▸ h.bound_le,
      hmax ▸ h.maxLength, ?_, ?_, ?_⟩
    · unfold SegCounters.odidAt
      rw [hcells]
      exact h.cells
    · unfold SegCounters.odidAt
      rw [hcells, hlength]
      exact h.distinct
    · unfold SegCounters.odidAt
      rw [hcells, hlength]
      exact fun i hi => hlive _ (hnot i hi) (h.live i hi)
  · refine ⟨hwellFormed, by rw [hlength, hmax]; omega, by omega, hmax ▸ h.bound_le,
      hmax ▸ h.maxLength, ?_, ?_, ?_⟩
    · intro j hj
      rw [SegCounters.odidAt, hcells]
      by_cases hji : j = i
      · rw [hji, Function.update_self]
        exact h.cells _ (by omega)
      · rw [Function.update_of_ne hji]
        exact h.cells j hj
    · unfold SegCounters.odidAt
      rw [hcells, hlength]
      exact CompactIndex.Distinct.takeOut h.distinct hi
    · rw [hlength]
      intro j hj
      obtain ⟨j', hj', hne, hcell, _⟩ := CompactIndex.exists_takeOut counters.activeOdids hi hj
      rw [SegCounters.odidAt, hcells, hcell]
      exact hlive _ (fun heq => hne (h.distinct j' hj' i hi (heq.trans hodid.symm)))
        (h.live j' hj')

theorem Indexed.afterSummary (h : Indexed known bound counters) (malloc : Bool) {odid : Uint32}
    {found : Option OdidCounter} (hfound : counters.lookup odid = found) :
    Indexed known bound (sendSummary malloc counters found).2 := by
  rcases sendSummary_cases malloc counters found with hsame | ⟨counter, rfl, hstored⟩
  · rw [hsame]
    exact h
  · rw [hstored]
    exact h.store (SegCounters.lookup_reinit hfound)

theorem sendSummary_activeOdids (malloc : Bool) (counters : SegCounters)
    (found : Option OdidCounter) :
    (sendSummary malloc counters found).2.activeOdids = counters.activeOdids ∧
      (sendSummary malloc counters found).2.activeOdidsMaxLength =
        counters.activeOdidsMaxLength := by
  cases found with
  | none => exact ⟨rfl, rfl⟩
  | some counter => cases malloc <;> exact ⟨rfl, rfl⟩

/-- An update of a known odid stays inside the index array and keeps the index. -/
theorem Indexed.update (h : Indexed known bound counters) {odid : Uint32} (hodid : odid ∈ known)
    (hcard : known.card ≤ maxActiveOdids) {mallocs : CounterMallocs}
    (hresize : mallocs.resize = true) (kind : SegmentKind) (mid : Uint32) :
    ∃ counters', updateSegment kind mallocs counters odid mid = some counters' ∧
      ∃ bound', bound ≤ bound' ∧ Indexed known bound' counters' := by
  have hsome := h.getOdidCounter_isSome hodid hcard hresize
  have hupdate : (updateSegment kind mallocs counters odid mid).isSome = true := by
    cases kind with
    | received => exact Option.isSome_map.trans hsome
    | dropped => exact Option.isSome_map.trans hsome
  obtain ⟨counters', hcounters⟩ := Option.isSome_iff_exists.mp hupdate
  obtain ⟨found, counters₁, hget, hcase⟩ := updateSegment_cases hcounters
  obtain ⟨bound', hbound, h₁⟩ := h.afterLookup hodid hcard hresize hget
  refine ⟨counters', hcounters, bound', hbound, ?_⟩
  rcases hcase with ⟨_, rfl⟩ | ⟨counter, counted, rfl, rfl, hcounted, _⟩
  · exact h₁
  · have hlookup := lookup_getOdidCounter hget odid
    rw [if_pos rfl] at hlookup
    have hold : counters₁.lookup counted.observationDomainId = some counter := by
      rw [hcounted, SegCounters.lookup_odid hlookup]
      exact hlookup
    exact h₁.store hold

/-- A visit of a written cell stays inside the index array and keeps the index. -/
theorem Indexed.visit (h : Indexed known bound counters) {y : Nat} (hy : y < bound)
    (hcard : known.card ≤ maxActiveOdids) {mallocs : CounterMallocs}
    (hresize : mallocs.resize = true) (malloc : Bool) :
    ∃ summary counters', visitActiveOdid mallocs malloc counters y = some (summary, counters') ∧
      ∃ bound', bound ≤ bound' ∧ Indexed known bound' counters' := by
  have hread {c : SegCounters} {b : Nat} (hc : Indexed known b c) (hb : bound ≤ b) :
      y < c.activeOdidsMaxLength.toNat :=
    Nat.lt_of_lt_of_le hy (Nat.le_trans hb hc.bound_le)
  have hodid := h.cells y hy
  obtain ⟨⟨found, counters₁⟩, hget⟩ :=
    Option.isSome_iff_exists.mp (h.getOdidCounter_isSome hodid hcard hresize)
  obtain ⟨bound', hbound, h₁⟩ := h.afterLookup hodid hcard hresize hget
  have hlookup := lookup_getOdidCounter hget (counters.odidAt y)
  rw [if_pos rfl] at hlookup
  have hsent := sendSummary_activeOdids malloc counters₁ found
  have hwrite (cell : ActiveOdid) :
      ((sendSummary malloc counters₁ found).2.writeActive y cell).isSome = true := by
    apply SegCounters.writeActive_isSome
    rw [hsent.2]
    exact hread h₁ hbound
  have hvisit : (visitActiveOdid mallocs malloc counters y).isSome = true := by
    unfold visitActiveOdid SegCounters.readActive
    rw [if_pos (hread h (Nat.le_refl _))]
    change (Option.bind (getOdidCounter mallocs counters (counters.odidAt y)) _).isSome = _
    rw [hget, Option.bind_some]
    simp only [if_pos (hread h₁ hbound)]
    simp only [Option.bind_eq_bind, Option.bind_some]
    split
    · obtain ⟨written, hwritten⟩ := Option.isSome_iff_exists.mp
        (hwrite ⟨(counters₁.activeOdids y).observationDomainId, 0⟩)
      rw [hwritten]
      rfl
    · split
      · rfl
      · obtain ⟨written, hwritten⟩ := Option.isSome_iff_exists.mp
          (hwrite ⟨(counters₁.activeOdids y).observationDomainId,
            (counters₁.activeOdids y).active + 1⟩)
        rw [hwritten]
        rfl
  obtain ⟨⟨summary, counters'⟩, hcounters⟩ := Option.isSome_iff_exists.mp hvisit
  refine ⟨summary, counters', hcounters, bound', hbound, ?_⟩
  obtain ⟨cell, found', counters₂, hcell, hget', hcase⟩ := visitActiveOdid_cases hcounters
  have hcell' : cell.observationDomainId = counters.odidAt y := by
    rw [SegCounters.readActive, if_pos (hread h (Nat.le_refl _))] at hcell
    rw [← Option.some.inj hcell]
    rfl
  rw [hcell', hget] at hget'
  obtain ⟨rfl, rfl⟩ := Prod.mk.inj (Option.some.inj hget')
  rcases hcase with ⟨active, _, rfl⟩ | ⟨_, _, rfl⟩
  · have hsummary := h₁.afterSummary malloc hlookup
    have hplace : (sendSummary malloc counters₁ found).2.odidAt y = cell.observationDomainId := by
      rw [SegCounters.odidAt, hsent.1, hcell']
      rcases getOdidCounter_activeOdids hget y with hsame | hnew
      · rw [hsame]
        rfl
      · rw [hnew]
    rw [← hplace]
    exact hsummary.setActive y active
  · exact h₁.remove _

end Indexed

end UdpNotif
