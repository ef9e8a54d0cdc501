import UdpNotif.SegmentationBuffer.Completeness

/-!
Reassembly of a well-formed message. A set of segments numbered `0, …, n - 1`
with the last flag on the last one, offered in any order and with repetitions,
makes a complete list exactly once all numbers have been offered; the cells are
then the segments in the order of their numbers.
-/

namespace UdpNotif

open SortedKeys

/-- The segments of one message, in the order of their numbers. -/
structure SegmentSet (segs : List InsertCall) : Prop where
  nonempty : segs ≠ []
  bound : segs.length < 2 ^ 32
  numbers : segs.map InsertCall.number = List.range segs.length
  last : ∀ c ∈ segs, c.last = 1 ↔ c.number + 1 = segs.length
  options : ∀ c ∈ segs, c.options ≠ none

/-- Every segment of the set was offered. -/
def AllOffered (segs calls : List InsertCall) : Prop :=
  ∀ i < segs.length, i ∈ calls.map InsertCall.number

/-- With an option list at hand, a call reports completeness exactly if the list
is complete after it. -/
theorem Describes.insert_code {calls : List InsertCall} {head : MessageSegmentList}
    (h : Describes calls head) (c : InsertCall) (hc : c.options ≠ none) :
    ((c.apply head).1 = 1 ∨ (c.apply head).1 = -2) ↔ (c.apply head).2.complete = true := by
  rw [h.reports_iff c]
  exact and_iff_left (fun hnull => hc hnull.1)

namespace SegmentSet

variable {segs calls : List InsertCall}

theorem number_lt (h : SegmentSet segs) {c : InsertCall} (hc : c ∈ segs) :
    c.number < segs.length := by
  have hmem : c.number ∈ segs.map InsertCall.number := List.mem_map_of_mem hc
  rwa [h.numbers, List.mem_range] at hmem

theorem numbers_nodup (h : SegmentSet segs) : (segs.map InsertCall.number).Nodup := by
  rw [h.numbers]
  exact List.nodup_range

theorem eq_of_number (h : SegmentSet segs) {c d : InsertCall} (hc : c ∈ segs) (hd : d ∈ segs)
    (heq : c.number = d.number) : c = d :=
  List.inj_on_of_nodup_map h.numbers_nodup hc hd heq

/-- The total is announced exactly once the last segment was offered. -/
theorem announcedTotal_eq (h : SegmentSet segs) (hcalls : ∀ c ∈ calls, c ∈ segs) :
    (InsertCall.announcedTotal calls).toNat =
      if segs.length - 1 ∈ calls.map InsertCall.number then segs.length else 0 := by
  have hpos : 0 < segs.length := List.length_pos_of_ne_nil h.nonempty
  induction calls using List.reverseRecOn with
  | nil => rfl
  | append_singleton calls c ih =>
      have hc : c ∈ segs := hcalls c (by simp)
      have ih := ih (fun d hd => hcalls d (List.mem_append_left [c] hd))
      have hlast := h.last c hc
      have hbound := h.bound
      rw [InsertCall.announcedTotal_concat, List.map_append, List.map_singleton]
      by_cases hflag : c.last = 1
      · have hnumber : c.seqnum.toNat + 1 = segs.length := hlast.mp hflag
        have hmem : segs.length - 1 ∈ calls.map InsertCall.number ++ [c.number] :=
          List.mem_append_right _ (List.mem_singleton.mpr (by unfold InsertCall.number; omega))
        rw [if_pos hflag, if_pos hmem]
        bv_omega
      · have hnumber : c.number + 1 ≠ segs.length := fun heq => hflag (hlast.mpr heq)
        rw [if_neg hflag, ih]
        refine if_congr ?_ rfl rfl
        rw [List.mem_append, List.mem_singleton]
        exact (or_iff_left (by omega)).symm

/-- The list is complete exactly if every segment was offered. -/
theorem complete_iff (h : SegmentSet segs) (hcalls : ∀ c ∈ calls, c ∈ segs)
    {head : MessageSegmentList} (hdesc : Describes calls head) :
    head.complete = true ↔ AllOffered segs calls := by
  have hpos : 0 < segs.length := List.length_pos_of_ne_nil h.nonempty
  have hsub : (calls.map InsertCall.number).toFinset ⊆ Finset.range segs.length := by
    intro k hk
    obtain ⟨c, hc, rfl⟩ := List.mem_map.mp (List.mem_toFinset.mp hk)
    exact Finset.mem_range.mpr (h.number_lt (hcalls c hc))
  rw [hdesc.complete_iff, hdesc.cells_length, h.announcedTotal_eq hcalls]
  constructor
  · rintro ⟨hzero, hcard⟩ i hi
    split at hcard
    · have hall := Finset.eq_of_subset_of_card_le hsub (by rw [hcard, Finset.card_range])
      rw [← List.mem_toFinset, hall]
      exact Finset.mem_range.mpr hi
    · rename_i hmissing
      exact absurd (if_neg hmissing) hzero
  · intro hall
    rw [if_pos (hall _ (by omega))]
    refine ⟨by omega, le_antisymm ?_ ?_⟩
    · simpa using Finset.card_le_card hsub
    · have hsup : Finset.range segs.length ⊆ (calls.map InsertCall.number).toFinset :=
        fun i hi => List.mem_toFinset.mpr (hall i (Finset.mem_range.mp hi))
      simpa using Finset.card_le_card hsup

/-- Once every segment was offered, the accepted calls are the segments. -/
theorem accepted_perm (h : SegmentSet segs) (hcalls : ∀ c ∈ calls, c ∈ segs)
    (hall : AllOffered segs calls) : (InsertCall.accepted calls).Perm segs := by
  have hnodup : (InsertCall.accepted calls).Nodup :=
    (firsts_keys_nodup InsertCall.number calls).of_map
  refine (List.perm_ext_iff_of_nodup hnodup h.numbers_nodup.of_map).mpr (fun c => ?_)
  constructor
  · exact fun hc => hcalls c ((firsts_sublist _ _).subset hc)
  · intro hc
    have hnumber := (mem_keys_firsts InsertCall.number calls c.number).mpr
      (hall c.number (h.number_lt hc))
    obtain ⟨d, hd, heq⟩ := List.mem_map.mp hnumber
    rwa [← h.eq_of_number (hcalls d ((firsts_sublist _ _).subset hd)) hc heq]

/-- The cells of a complete list are the segments in order. -/
theorem cells_eq (h : SegmentSet segs) (hcalls : ∀ c ∈ calls, c ∈ segs)
    (hall : AllOffered segs calls) {head : MessageSegmentList} (hdesc : Describes calls head) :
    head.cells = segs.map InsertCall.cell := by
  refine hdesc.ascending.eq_of_perm ?_
    (hdesc.stored.trans ((h.accepted_perm hcalls hall).map InsertCall.cell))
  have hsorted : (segs.map InsertCall.number).Pairwise (· < ·) := by
    rw [h.numbers]
    exact List.pairwise_lt_range
  rw [List.pairwise_map] at hsorted
  exact List.pairwise_map.mpr hsorted

/-- Its payload is the concatenation of the contents. -/
theorem reassemblePayload_eq (h : SegmentSet segs) (hcalls : ∀ c ∈ calls, c ∈ segs)
    (hall : AllOffered segs calls) (hcontent : ∀ c ∈ segs, c.content.length = c.payloadSize.toNat)
    {head : MessageSegmentList} (hdesc : Describes calls head) (malloc : Nat → Bool) :
    head.totalPayloadByteSize = .ofNat 32 (segs.flatMap InsertCall.content).length ∧
    reassemblePayload malloc head =
      if malloc head.totalPayloadByteSize.toNat then some (segs.flatMap InsertCall.content)
      else none := by
  have hcells := h.cells_eq hcalls hall hdesc
  constructor
  · rw [hdesc.totalPayload, hcells, List.map_map, List.length_flatMap]
    congr 2
    exact List.map_congr_left (fun c hc => (hcontent c hc).symm)
  · rw [reassemblePayload, hcells, List.flatMap_map]
    congr 2
    refine List.flatMap_congr (fun c hc => ?_)
    rw [InsertCall.cell, ← hcontent c hc, List.take_length]

end SegmentSet

end UdpNotif
