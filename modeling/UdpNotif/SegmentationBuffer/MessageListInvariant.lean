import UdpNotif.SegmentationBuffer.MessageList

/-!
What a message list is after any sequence of `insert_into_msl` calls on a fresh
list. `Describes calls head` gives every field of the list as a function of the
calls: the cells are the accepted segments in the order of their numbers, the
counters count them, and the options are spliced in the order of acceptance.
-/

namespace UdpNotif

open SortedKeys

/-- `head` is the list built by `calls`, apart from the clean up marks. -/
structure Describes (calls : List InsertCall) (head : MessageSegmentList) : Prop where
  ascending : Ascending (fun c : MessageSegmentCell => c.seqnum.toNat) head.cells
  stored : head.cells.Perm ((InsertCall.accepted calls).map InsertCall.cell)
  currentSize : head.currentSize = .ofNat 32 head.cells.length
  totalSize : head.totalSize = InsertCall.announcedTotal calls
  totalPayload : head.totalPayloadByteSize =
    .ofNat 32 (head.cells.map (fun c => c.contentSize.toNat)).sum
  optionsHead : head.optionsHead =
    if InsertCall.spliced calls = [] then none else some (InsertCall.spliced calls).flatten
  optionsTail : head.optionsTail = (InsertCall.spliced calls).flatten.length
  optionsLength : head.optionsLength = optionsTotalBytes (InsertCall.spliced calls).flatten

theorem describes_nil (odid mid : Uint32) :
    Describes [] (createMessageSegmentList odid mid) where
  ascending := List.Pairwise.nil
  stored := List.Perm.nil
  currentSize := rfl
  totalSize := rfl
  totalPayload := rfl
  optionsHead := rfl
  optionsTail := rfl
  optionsLength := rfl

/-- The calls of a sequence decide which numbers are stored. -/
theorem Describes.mem_numbers {calls : List InsertCall} {head : MessageSegmentList}
    (h : Describes calls head) (k : Nat) :
    k ∈ head.cells.map (fun c => c.seqnum.toNat) ↔ k ∈ calls.map InsertCall.number := by
  rw [(h.stored.map _).mem_iff, List.map_map]
  exact mem_keys_firsts InsertCall.number calls k

/-- An append touches only the option fields. -/
theorem appendOptions_frame (head : MessageSegmentList)
    (options : Option (List UnyteOption)) :
    (appendOptions head options).2 = { head with
      optionsHead := (appendOptions head options).2.optionsHead
      optionsTail := (appendOptions head options).2.optionsTail
      optionsLength := (appendOptions head options).2.optionsLength } := by
  cases options <;> rfl

section Link

variable (head : MessageSegmentList) (cells : List MessageSegmentCell)
  (payloadSize : Uint32) (options : Option (List UnyteOption))

/-- Linking a cell fails only for missing options, after everything but the
options has been updated. -/
theorem linkSegment_code :
    (linkSegment head cells payloadSize options).1 =
      if options = none then -4
      else if (linkSegment head cells payloadSize options).2.complete then 1 else 0 := by
  cases options with
  | none => rfl
  | some added => simp [linkSegment, appendOptions]

theorem linkSegment_fields :
    (linkSegment head cells payloadSize options).2 =
      { (appendOptions head options).2 with
        cells
        currentSize := head.currentSize + 1
        totalPayloadByteSize := head.totalPayloadByteSize + payloadSize } := by
  cases options <;> rfl

end Link

/-- What one call can do: the number is already stored and only the announced
total may change, or a new cell is linked at its place. -/
theorem insertIntoMsl_cases (head : MessageSegmentList) (c : InsertCall)
    (h : Ascending (fun c : MessageSegmentCell => c.seqnum.toNat) head.cells) :
    (c.number ∈ head.cells.map (fun c => c.seqnum.toNat) ∧
      (c.apply head).2 =
        { head with totalSize := if c.last = 1 then c.seqnum + 1 else head.totalSize } ∧
      (c.apply head).1 = if (c.apply head).2.complete then -2 else -1) ∨
    (c.number ∉ head.cells.map (fun c => c.seqnum.toNat) ∧
      c.apply head = linkSegment
        { head with totalSize := if c.last = 1 then c.seqnum + 1 else head.totalSize }
        (head.cells.takeWhile (fun d => d.seqnum.toNat < c.number) ++
          c.cell :: head.cells.dropWhile (fun d => d.seqnum.toNat < c.number))
        c.payloadSize c.options) := by
  have hlt : (fun d : MessageSegmentCell => decide (d.seqnum < c.seqnum)) =
      (fun d => decide (d.seqnum.toNat < c.number)) := rfl
  have hmem := h.mem_keys_iff c.number
  simp only [InsertCall.apply, insertIntoMsl, c.announce_eq, hlt]
  cases hdrop : head.cells.dropWhile (fun d => decide (d.seqnum.toNat < c.number)) with
  | nil =>
      right
      refine ⟨fun hin => ?_, rfl⟩
      obtain ⟨d, rest, heq, _⟩ := hmem.mp hin
      simp [hdrop] at heq
  | cons d rest =>
      by_cases hd : d.seqnum = c.seqnum
      · left
        refine ⟨hmem.mpr ⟨d, rest, hdrop, congrArg BitVec.toNat hd⟩, ?_, ?_⟩
        · simp only [if_pos hd]
        · simp only [if_pos hd]
      · right
        refine ⟨fun hin => ?_, ?_⟩
        · obtain ⟨d', rest', heq, hk⟩ := hmem.mp hin
          rw [hdrop] at heq
          obtain ⟨rfl, _⟩ := List.cons.inj heq
          exact hd (BitVec.eq_of_toNat_eq hk)
        · simp only [if_neg hd]
          rfl

/-- The options after an append, from those before it. -/
theorem appendOptions_spliced {head : MessageSegmentList} {lists : List (List UnyteOption)}
    (hhead : head.optionsHead = if lists = [] then none else some lists.flatten)
    (htail : head.optionsTail = lists.flatten.length)
    (hlength : head.optionsLength = optionsTotalBytes lists.flatten)
    (options : Option (List UnyteOption)) :
    (appendOptions head options).2.optionsHead =
      (if lists ++ options.toList = [] then none else some (lists ++ options.toList).flatten) ∧
    (appendOptions head options).2.optionsTail = (lists ++ options.toList).flatten.length ∧
    (appendOptions head options).2.optionsLength =
      optionsTotalBytes (lists ++ options.toList).flatten := by
  cases options with
  | none =>
      rw [Option.toList_none, List.append_nil]
      exact ⟨hhead, htail, hlength⟩
  | some added =>
      by_cases hnil : lists = []
      · subst hnil
        simp only [if_true] at hhead
        simp only [List.flatten_nil, optionsTotalBytes_nil] at hlength
        by_cases hadded : added = [] <;>
          simp [appendOptions, hhead, hlength, hadded]
      · simp only [if_neg hnil] at hhead
        by_cases hadded : added = [] <;>
          simp [appendOptions, hhead, htail, hlength, hadded, hnil, optionsTotalBytes_append]

/-- One call keeps the description, and its return code tells whether the
number was new and whether the list is complete after it. -/
theorem Describes.insert {calls : List InsertCall} {head : MessageSegmentList}
    (h : Describes calls head) (c : InsertCall) :
    Describes (calls ++ [c]) (c.apply head).2 ∧
    (c.apply head).1 =
      if c.number ∈ calls.map InsertCall.number then
        (if (c.apply head).2.complete then -2 else -1)
      else if c.options = none then -4
      else if (c.apply head).2.complete then 1 else 0 := by
  have htotal : (if c.last = 1 then c.seqnum + 1 else head.totalSize) =
      InsertCall.announcedTotal (calls ++ [c]) := by
    rw [InsertCall.announcedTotal_concat, h.totalSize]
  rcases insertIntoMsl_cases head c h.ascending with ⟨hold, hlist, hcode⟩ | ⟨hnew, hlink⟩
  · rw [h.mem_numbers] at hold
    refine ⟨?_, by rw [if_pos hold, hcode]⟩
    have hacc := InsertCall.accepted_concat_old hold
    have hspl : InsertCall.spliced (calls ++ [c]) = InsertCall.spliced calls := by
      rw [InsertCall.spliced, hacc, InsertCall.spliced]
    rw [hlist]
    exact {
      ascending := h.ascending
      stored := by rw [hacc]; exact h.stored
      currentSize := h.currentSize
      totalSize := htotal
      totalPayload := h.totalPayload
      optionsHead := by rw [hspl]; exact h.optionsHead
      optionsTail := by rw [hspl]; exact h.optionsTail
      optionsLength := by rw [hspl]; exact h.optionsLength }
  · have hperm := insert_perm (fun d : MessageSegmentCell =>
      decide (d.seqnum.toNat < c.number)) head.cells c.cell
    have hasc := h.ascending.insert (a := c.cell) hnew
    have hfresh : c.number ∉ calls.map InsertCall.number := by
      rwa [← h.mem_numbers]
    have hacc := InsertCall.accepted_concat_new hfresh
    have hspl : InsertCall.spliced (calls ++ [c]) =
        InsertCall.spliced calls ++ c.options.toList := by
      rw [InsertCall.spliced, hacc, List.filterMap_append, InsertCall.spliced]
      cases hopt : c.options <;> simp [hopt]
    obtain ⟨hhead, htail, hlen⟩ := @appendOptions_spliced
      { head with totalSize := if c.last = 1 then c.seqnum + 1 else head.totalSize }
      (InsertCall.spliced calls) h.optionsHead h.optionsTail h.optionsLength c.options
    refine ⟨?_, by rw [if_neg hfresh, hlink]; exact linkSegment_code _ _ _ _⟩
    rw [hlink, linkSegment_fields, appendOptions_frame]
    exact {
      ascending := hasc
      stored := by
        rw [hacc, List.map_append, List.map_singleton]
        exact hperm.trans (h.stored.append_right _)
      currentSize := by
        simp only [hperm.length_eq, h.currentSize, List.length_append, List.length_singleton]
        bv_omega
      totalSize := htotal
      totalPayload := by
        change head.totalPayloadByteSize + c.payloadSize = _
        rw [(hperm.map _).sum_nat, h.totalPayload, List.map_append, List.sum_append,
          BitVec.ofNat_add]
        simp [InsertCall.cell]
      optionsHead := by rw [hspl]; exact hhead
      optionsTail := by rw [hspl]; exact htail
      optionsLength := by rw [hspl]; exact hlen }

/-- The list after a sequence of calls on `head`. -/
def InsertCall.applyAll (head : MessageSegmentList) (calls : List InsertCall) :
    MessageSegmentList :=
  calls.foldl (fun head c => (c.apply head).2) head

theorem InsertCall.applyAll_concat (head : MessageSegmentList) (calls : List InsertCall)
    (c : InsertCall) : applyAll head (calls ++ [c]) = (c.apply (applyAll head calls)).2 := by
  rw [applyAll, List.foldl_append]
  rfl

/-- Every sequence of calls on a fresh list builds the list it describes. -/
theorem describes_applyAll (odid mid : Uint32) (calls : List InsertCall) :
    Describes calls (InsertCall.applyAll (createMessageSegmentList odid mid) calls) := by
  induction calls using List.reverseRecOn with
  | nil => exact describes_nil odid mid
  | append_singleton calls c ih =>
      rw [InsertCall.applyAll_concat]
      exact (ih.insert c).1

end UdpNotif
