import UdpNotif.SegmentationBuffer.MessageListInvariant

/-!
When `insert_into_msl` reports a complete message. The report compares the
number of stored segments with the total announced by the latest segment with
the last flag, so it is right exactly as long as no stored number lies beyond
that total at a moment where the two agree.
-/

namespace UdpNotif

open SortedKeys

/-- The message list after the calls `pre` on a fresh list. -/
abbrev listAfter (odid mid : Uint32) (pre : List InsertCall) : MessageSegmentList :=
  InsertCall.applyAll (createMessageSegmentList odid mid) pre

/-- The numbers of the stored segments, in list order. -/
def MessageSegmentList.numbers (head : MessageSegmentList) : List Nat :=
  head.cells.map (fun c => c.seqnum.toNat)

/-- If the call `c` after `pre` reports a complete message, then the stored
numbers are `0, …, total_size - 1`. -/
def CompleteWithoutHole (odid mid : Uint32) (pre : List InsertCall) (c : InsertCall) : Prop :=
  let result := c.apply (listAfter odid mid pre)
  result.1 = 1 ∨ result.1 = -2 → result.2.numbers = List.range result.2.totalSize.toNat

/-- The segments offered up to and including `c` do not make the count of
distinct numbers agree with the announced total while one of them lies beyond
it. A new segment without an option list is stored but never reported. -/
def NumbersWithinTotal (pre : List InsertCall) (c : InsertCall) : Prop :=
  let offered := pre ++ [c]
  let total := (InsertCall.announcedTotal offered).toNat
  (c.options = none ∧ c.number ∉ pre.map InsertCall.number) ∨
    total = 0 ∨ (offered.map InsertCall.number).toFinset.card ≠ total ∨
    ∀ d ∈ offered, d.number < total

/-- The cells are as many as there are distinct numbers among the calls. -/
theorem Describes.cells_length {calls : List InsertCall} {head : MessageSegmentList}
    (h : Describes calls head) :
    head.cells.length = (calls.map InsertCall.number).toFinset.card := by
  have hset : head.numbers.toFinset = (calls.map InsertCall.number).toFinset := by
    ext k
    rw [List.mem_toFinset, List.mem_toFinset]
    exact h.mem_numbers k
  rw [← hset, MessageSegmentList.numbers, List.toFinset_card_of_nodup h.ascending.keys_nodup,
    List.length_map]

/-- There are no more cells than segment numbers. -/
theorem Describes.cells_length_le {calls : List InsertCall} {head : MessageSegmentList}
    (h : Describes calls head) : head.cells.length ≤ 2 ^ 32 := by
  have hsub : (calls.map InsertCall.number).toFinset ⊆ Finset.range (2 ^ 32) := by
    intro k hk
    obtain ⟨c, _, rfl⟩ := List.mem_map.mp (List.mem_toFinset.mp hk)
    exact Finset.mem_range.mpr c.seqnum.isLt
  rw [h.cells_length]
  simpa using Finset.card_le_card hsub

/-- The completeness test in terms of the calls. -/
theorem Describes.complete_iff {calls : List InsertCall} {head : MessageSegmentList}
    (h : Describes calls head) :
    head.complete = true ↔
      (InsertCall.announcedTotal calls).toNat ≠ 0 ∧
        head.cells.length = (InsertCall.announcedTotal calls).toNat := by
  have hle := h.cells_length_le
  simp only [MessageSegmentList.complete, Bool.and_eq_true, decide_eq_true_eq, beq_iff_eq,
    h.currentSize, h.totalSize]
  constructor
  · rintro ⟨hpos, heq⟩
    have := congrArg BitVec.toNat heq
    simp only [BitVec.toNat_ofNat] at this
    bv_omega
  · rintro ⟨hpos, heq⟩
    refine ⟨by bv_omega, ?_⟩
    rw [heq, BitVec.ofNat_toNat, BitVec.setWidth_eq]

/-- A complete list has no hole exactly if no stored number exceeds its total. -/
theorem Describes.numbers_eq_range_iff {calls : List InsertCall} {head : MessageSegmentList}
    (h : Describes calls head) (hcomplete : head.complete = true) :
    head.numbers = List.range head.totalSize.toNat ↔
      ∀ d ∈ calls, d.number < (InsertCall.announcedTotal calls).toNat := by
  have hlen := (h.complete_iff.mp hcomplete).2
  rw [h.totalSize]
  constructor
  · intro heq d hd
    have hmem := (h.mem_numbers d.number).mpr (List.mem_map_of_mem hd)
    change d.number ∈ head.numbers at hmem
    rwa [heq, List.mem_range] at hmem
  · intro hlt
    refine h.ascending.keys_eq_range_of_length _ (fun a ha => ?_) hlen
    obtain ⟨d, hd, hk⟩ := List.mem_map.mp
      ((h.mem_numbers a.seqnum.toNat).mp (List.mem_map_of_mem ha))
    rw [← hk]
    exact hlt d hd

/-- A call reports a complete message exactly if the list is complete after it
and the call did not fail for want of an option list. -/
theorem Describes.reports_iff {calls : List InsertCall} {head : MessageSegmentList}
    (h : Describes calls head) (c : InsertCall) :
    ((c.apply head).1 = 1 ∨ (c.apply head).1 = -2) ↔
      (c.apply head).2.complete = true ∧
        ¬ (c.options = none ∧ c.number ∉ calls.map InsertCall.number) := by
  rw [(h.insert c).2]
  by_cases hcomplete : (c.apply head).2.complete = true <;>
    by_cases hold : c.number ∈ calls.map InsertCall.number <;>
      by_cases hnull : c.options = none <;>
        simp [hcomplete, hold, hnull]

/-- One call reports a hole-free message exactly under the condition on the
segments offered so far. -/
theorem completeWithoutHole_iff (odid mid : Uint32) (pre : List InsertCall) (c : InsertCall) :
    CompleteWithoutHole odid mid pre c ↔ NumbersWithinTotal pre c := by
  have hpre := describes_applyAll odid mid pre
  have hdesc := (hpre.insert c).1
  have hcomplete := hdesc.complete_iff
  rw [hdesc.cells_length] at hcomplete
  simp only [CompleteWithoutHole, NumbersWithinTotal, hpre.reports_iff c]
  constructor
  · intro h
    by_cases hnull : c.options = none ∧ c.number ∉ pre.map InsertCall.number
    · exact Or.inl hnull
    by_cases hreport : (c.apply (listAfter odid mid pre)).2.complete = true
    · exact Or.inr (Or.inr (Or.inr
        ((hdesc.numbers_eq_range_iff hreport).mp (h ⟨hreport, hnull⟩))))
    · rw [hcomplete, not_and] at hreport
      by_cases hzero : (InsertCall.announcedTotal (pre ++ [c])).toNat = 0
      · exact Or.inr (Or.inl hzero)
      · exact Or.inr (Or.inr (Or.inl (hreport hzero)))
  · rintro h ⟨hreport, hnull⟩
    obtain ⟨hpos, hcount⟩ := hcomplete.mp hreport
    refine (hdesc.numbers_eq_range_iff hreport).mpr ?_
    rcases h with h | h | h | h
    · exact absurd h hnull
    · exact absurd h hpos
    · exact absurd hcount h
    · exact h

/-- In a sequence of calls on a fresh list whose allocations succeed, all reports of
completeness are free of holes exactly if all calls meet the condition. -/
theorem insertIntoMsl_complete_iff (odid mid : Uint32) (calls : List InsertCall) :
    (∀ pre c post, calls = pre ++ c :: post → CompleteWithoutHole odid mid pre c) ↔
      ∀ pre c post, calls = pre ++ c :: post → NumbersWithinTotal pre c := by
  simp only [completeWithoutHole_iff]

/-- Segment 5, then segment 1 with the last flag: two segments, announced total
two, and the message is reported complete without segment 0. -/
theorem insertIntoMsl_reports_hole :
    ¬ CompleteWithoutHole 1 2 [⟨5, 0, 1, [0xaa], some []⟩] ⟨1, 1, 1, [0xbb], some []⟩ := by
  intro h
  have hrange := h (Or.inl (by decide))
  revert hrange
  decide

end UdpNotif
