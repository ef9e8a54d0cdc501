import UdpNotif.ParsingWorker.PayloadOwners
import UdpNotif.ParsingWorker.ReassemblySize
import UdpNotif.SegmentationBuffer.TimedBuffer

/-!
Lists whose counters are those of what they store, whichever allocations fail. A head
node of options that cannot be allocated leaves them exact: the segment is linked and
counted, its options are neither linked nor counted. A cell in the middle that cannot be
allocated does not: the segments behind it are lost and stay counted.
-/

namespace UdpNotif

namespace MessageSegmentList

/-- The bytes of the stored segments. -/
def storedBytes (head : MessageSegmentList) : Nat :=
  (head.cells.map fun d => d.contentSize.toNat).sum

/-- The bytes of the stored options. -/
def optionBytes (head : MessageSegmentList) : Nat :=
  ((head.optionsHead.getD []).map fun o => o.length.toNat).sum

/-- What a segment adds to its message: nothing where its number is stored. -/
def gain (head : MessageSegmentList) (c : InsertCall) (n : Nat) : Nat :=
  if c.number ∈ head.numbers then 0 else n

/-- The counters of a list are those of its segments and its options. -/
structure Counted (head : MessageSegmentList) : Prop where
  ascending : SortedKeys.Ascending (fun d : MessageSegmentCell => d.seqnum.toNat) head.cells
  small : ∀ d ∈ head.cells, d.seqnum.toNat < 2 ^ 15 ∧ d.contentSize.toNat < 2 ^ 16 ∧
    d.content.length = d.contentSize.toNat
  currentSize : head.currentSize = .ofNat 32 head.cells.length
  totalPayload : head.totalPayloadByteSize = .ofNat 32 head.storedBytes
  optionsTail : head.optionsTail = (head.optionsHead.getD []).length
  optionsLength : head.optionsLength = optionsTotalBytes (head.optionsHead.getD [])

/-- A call leaves a list that stores what it stored and what the call adds. -/
structure Extends (head : MessageSegmentList) (c : InsertCall) (head' : MessageSegmentList) :
    Prop where
  length : head'.cells.length = head.cells.length + head.gain c 1
  storedBytes : head'.storedBytes = head.storedBytes + head.gain c c.payloadSize.toNat
  optionBytes : head'.optionBytes = head.optionBytes +
    head.gain c ((c.options.getD []).map fun o => o.length.toNat).sum
  totalSize : head'.totalSize = if c.last = 1 then c.seqnum + 1 else head.totalSize

end MessageSegmentList

theorem counted_create (odid mid : Uint32) : (createMessageSegmentList odid mid).Counted where
  ascending := List.Pairwise.nil
  small := fun _ hd => absurd hd List.not_mem_nil
  currentSize := rfl
  totalPayload := rfl
  optionsTail := rfl
  optionsLength := rfl

section List

variable {head : MessageSegmentList} (h : head.Counted)
include h

/-- The numbers have 15 bits, so that neither counter wraps. -/
theorem MessageSegmentList.Counted.lengths :
    head.cells.length ≤ 2 ^ 15 ∧ head.storedBytes < 2 ^ 32 := by
  have hlength : head.cells.length ≤ 2 ^ 15 := h.ascending.length_le fun d hd => (h.small d hd).1
  have hsum : head.storedBytes ≤ (head.cells.map fun d => d.contentSize.toNat).length • 65535 := by
    apply List.sum_le_card_nsmul
    intro size hsize
    obtain ⟨d, hd, rfl⟩ := List.mem_map.mp hsize
    exact Nat.le_of_lt_succ (h.small d hd).2.1
  rw [List.length_map, smul_eq_mul] at hsum
  exact ⟨hlength, by omega⟩

theorem MessageSegmentList.Counted.payload_length :
    (head.cells.flatMap fun d => d.content.take d.contentSize.toNat).length =
      head.storedBytes := by
  rw [List.length_flatMap]
  refine congrArg List.sum (List.map_congr_left fun d hd => ?_)
  rw [← (h.small d hd).2.2, List.take_length]

/-- Whether a list is complete, by what it stores. -/
theorem MessageSegmentList.Counted.complete_iff :
    head.complete = true ↔
      0 < head.totalSize.toNat ∧ head.cells.length = head.totalSize.toNat := by
  have hlength := h.lengths.1
  have hsize : head.currentSize.toNat = head.cells.length := by
    rw [h.currentSize, BitVec.toNat_ofNat, Nat.mod_eq_of_lt (by omega)]
  rw [MessageSegmentList.complete, Bool.and_eq_true, decide_eq_true_eq, beq_iff_eq,
    BitVec.lt_def, ← BitVec.toNat_inj, hsize]
  rfl

theorem MessageSegmentList.Counted.announce (totalSize : Uint32) :
    MessageSegmentList.Counted { head with totalSize } := { h with }

theorem MessageSegmentList.Counted.cleanedUp (now : Int) : (head.cleanedUp now).Counted := by
  unfold MessageSegmentList.cleanedUp
  split
  · exact { h with }
  · split
    · exact { h with }
    · exact h

/-- The options of a linked segment, where their head node is there or can be allocated. -/
theorem MessageSegmentList.Counted.appendOptions (added : List UnyteOption) :
    (UdpNotif.appendOptions head (some added)).2.optionsHead =
      some (head.optionsHead.getD [] ++ added) ∧
    (UdpNotif.appendOptions head (some added)).2.optionsTail =
      (head.optionsHead.getD [] ++ added).length ∧
    (UdpNotif.appendOptions head (some added)).2.optionsLength =
      optionsTotalBytes (head.optionsHead.getD [] ++ added) := by
  have htail : (if head.optionsHead = none then 0 else head.optionsTail) =
      (head.optionsHead.getD []).length := by
    cases hhead : head.optionsHead with
    | none => rfl
    | some options =>
        rw [if_neg (Option.some_ne_none _), h.optionsTail, hhead]
  simp only [UdpNotif.appendOptions, htail, List.take_length, List.length_append,
    optionsTotalBytes_append, h.optionsLength, and_true]
  by_cases hadded : added = []
  · rw [if_pos hadded, hadded, List.append_nil]
  · rw [if_neg hadded]

end List

section Link

variable {head : MessageSegmentList} (h : head.Counted) {c : InsertCall} (hc : c.Small)
  {cells : List MessageSegmentCell} (hperm : cells.Perm (head.cells ++ [c.cell]))
  (hascending : SortedKeys.Ascending (fun d : MessageSegmentCell => d.seqnum.toNat) cells)
include hperm

theorem stored_of_perm :
    cells.length = head.cells.length + 1 ∧
      (cells.map fun d => d.contentSize.toNat).sum =
        head.storedBytes + c.payloadSize.toNat := by
  refine ⟨hperm.length_eq.trans List.length_append, ?_⟩
  rw [(hperm.map _).sum_nat, List.map_append, List.sum_append]
  rfl

include h hc hascending

/-- A list with a new cell, counted, and with options that are counted. -/
theorem MessageSegmentList.Counted.withCells {optionsHead : Option (List UnyteOption)}
    {optionsTail : Nat} {optionsLength : Uint32}
    (htail : optionsTail = (optionsHead.getD []).length)
    (hlength : optionsLength = optionsTotalBytes (optionsHead.getD [])) :
    MessageSegmentList.Counted { head with
      cells
      currentSize := head.currentSize + 1
      totalPayloadByteSize := head.totalPayloadByteSize + c.payloadSize
      optionsHead, optionsTail, optionsLength } := by
  obtain ⟨hcells, hbytes⟩ := stored_of_perm hperm
  refine ⟨hascending, fun d hd => ?_, ?_, ?_, htail, hlength⟩
  · rcases List.mem_append.mp (hperm.subset hd) with hd | hd
    · exact h.small d hd
    · rw [List.mem_singleton.mp hd]
      exact ⟨hc.number_lt, hc.payloadSize_lt, hc.fromParser.content⟩
  · simp only [hcells, h.currentSize, BitVec.ofNat_add]
    rfl
  · simp only [MessageSegmentList.storedBytes, hbytes, h.totalPayload, BitVec.ofNat_add,
      BitVec.ofNat_toNat, BitVec.setWidth_eq]

/-- The list after a new cell is linked, its options with it unless their head node fails. -/
theorem MessageSegmentList.Counted.linkSegmentWith (malloc : Bool) :
    let head' := (UdpNotif.linkSegmentWith malloc head cells c.payloadSize c.options).2
    head'.Counted ∧ head'.cells = cells ∧ head'.totalSize = head.totalSize ∧
      (¬ (head.optionsHead = none ∧ malloc = false) →
        head'.optionBytes = head.optionBytes +
          ((c.options.getD []).map fun o => o.length.toNat).sum) := by
  obtain ⟨added, hadded⟩ := Option.ne_none_iff_exists'.mp hc.fromParser.options
  simp only [UdpNotif.linkSegmentWith, appendOptionsWith, hadded]
  by_cases hfailed : head.optionsHead = none ∧ malloc = false
  · rw [if_pos hfailed]
    exact ⟨h.withCells hc hperm hascending h.optionsTail h.optionsLength, rfl, rfl,
      fun hgiven => absurd hfailed hgiven⟩
  · rw [if_neg hfailed]
    obtain ⟨hhead, htail, hlength⟩ := h.appendOptions added
    refine ⟨h.withCells hc hperm hascending ?_ ?_, rfl, rfl, fun _ => ?_⟩
    · exact htail.trans (by rw [← Option.some.inj hhead]; rfl)
    · exact hlength.trans (by rw [← Option.some.inj hhead]; rfl)
    · change ((Option.getD (UdpNotif.appendOptions head (some added)).2.optionsHead []).map
        fun o => o.length.toNat).sum = _
      rw [hhead, Option.getD_some, Option.getD_some, List.map_append, List.sum_append]
      rfl

end Link

section Insert

variable {head : MessageSegmentList} {c : InsertCall} {mallocs : InsertMallocs}

/-- A segment whose cell fails goes behind all others, if none of them is lost. -/
theorem takeWhile_of_lostSegments (hnew : ¬ head.StopsAt c) (hcell : mallocs.segmentCell = false)
    (hlost : lostSegments mallocs head c = []) :
    head.cells.takeWhile (fun d => d.seqnum.toNat < c.number) = head.cells := by
  have hlt : (fun d : MessageSegmentCell => decide (d.seqnum < c.seqnum)) =
      (fun d => decide (d.seqnum.toNat < c.number)) := rfl
  have hsplit := List.takeWhile_append_dropWhile
    (p := fun d : MessageSegmentCell => decide (d.seqnum.toNat < c.number)) (l := head.cells)
  rw [lostSegments, hlt] at hlost
  rw [MessageSegmentList.StopsAt, hlt] at hnew
  cases hdrop : head.cells.dropWhile (fun d => decide (d.seqnum.toNat < c.number)) with
  | nil => rwa [hdrop, List.append_nil] at hsplit
  | cons d rest =>
      rw [hdrop] at hlost hnew
      have hd : ¬ d.seqnum = c.seqnum := fun hsame => hnew (congrArg some hsame)
      simp only [hd, hcell, Bool.false_eq_true, or_self, if_false, reduceCtorEq] at hlost

/-- Linking a cell fails, or its code says whether the list is complete then. -/
theorem linkSegmentWith_complete (malloc : Bool) (head : MessageSegmentList)
    (cells : List MessageSegmentCell) (payloadSize : Uint32) (options : Option (List UnyteOption)) :
    (linkSegmentWith malloc head cells payloadSize options).1 = -4 ∨
      (linkSegmentWith malloc head cells payloadSize options).1 =
        if (linkSegmentWith malloc head cells payloadSize options).2.complete then 1 else 0 := by
  unfold linkSegmentWith
  dsimp only
  split
  · exact Or.inl rfl
  · exact Or.inr rfl

/-- Where a call does not fail, its code says whether the list is complete then. -/
theorem insertIntoMslWith_complete_iff
    (hsucceeds : ¬ ((insertIntoMslWith mallocs head c).1 = -3 ∨
      (insertIntoMslWith mallocs head c).1 = -4)) :
    (insertIntoMslWith mallocs head c).1 = 1 ∨ (insertIntoMslWith mallocs head c).1 = -2 ↔
      (insertIntoMslWith mallocs head c).2.complete = true := by
  rcases insertIntoMslWith_eq mallocs head c rfl with ⟨_, heq⟩ | ⟨_, _, heq⟩ | ⟨_, _, heq⟩
  · have hcode : ∀ complete : Bool, ((if complete then (-2 : Int) else -1) = 1 ∨
        (if complete then (-2 : Int) else -1) = -2) ↔ complete = true := by decide
    rw [heq]
    exact hcode _
  · exact absurd (Or.inl (congrArg Prod.fst heq)) hsucceeds
  · have hcode : ∀ complete : Bool, ((if complete then (1 : Int) else 0) = 1 ∨
        (if complete then (1 : Int) else 0) = -2) ↔ complete = true := by decide
    have hlinked := linkSegmentWith_complete mallocs.optionsHead
      { head with totalSize := if c.last = 1 then c.seqnum + 1 else head.totalSize }
      (head.cells.takeWhile (fun d => d.seqnum.toNat < c.number) ++
        c.cell :: head.cells.dropWhile (fun d => d.seqnum.toNat < c.number))
      c.payloadSize c.options
    rw [← heq] at hlinked
    rw [hlinked.resolve_left (fun hfailed => hsucceeds (Or.inr hfailed))]
    exact hcode _

variable (h : head.Counted) (hc : c.Small)
include h hc

/-- A call that loses no segment leaves the counters exact. -/
theorem MessageSegmentList.Counted.insertIntoMslWith (hlost : lostSegments mallocs head c = []) :
    (UdpNotif.insertIntoMslWith mallocs head c).2.Counted := by
  have hcounted := h.announce (if c.last = 1 then c.seqnum + 1 else head.totalSize)
  rcases insertIntoMslWith_eq mallocs head c rfl with
    ⟨_, heq⟩ | ⟨hnew, hcell, heq⟩ | ⟨hnew, _, heq⟩
  · rw [heq]
    exact hcounted
  · rw [heq, takeWhile_of_lostSegments hnew hcell hlost]
    exact hcounted
  · rw [heq]
    exact (hcounted.linkSegmentWith hc (SortedKeys.insert_perm _ _ _)
      (h.ascending.insert (mt (MessageSegmentList.stopsAt_iff h.ascending).mpr hnew)) _).1

/-- A call that does not fail leaves what was stored and what it adds. -/
theorem MessageSegmentList.Counted.extends
    (hsucceeds : ¬ ((UdpNotif.insertIntoMslWith mallocs head c).1 = -3 ∨
      (UdpNotif.insertIntoMslWith mallocs head c).1 = -4)) :
    head.Extends c (UdpNotif.insertIntoMslWith mallocs head c).2 := by
  have hcounted := h.announce (if c.last = 1 then c.seqnum + 1 else head.totalSize)
  have hstops := MessageSegmentList.stopsAt_iff (c := c) h.ascending
  rcases insertIntoMslWith_eq mallocs head c rfl with
    ⟨hold, heq⟩ | ⟨_, _, heq⟩ | ⟨hnew, hcell, heq⟩
  · have hgain (n : Nat) : head.gain c n = 0 := if_pos (hstops.mp hold)
    rw [heq]
    exact ⟨by rw [hgain]; rfl, by rw [hgain]; rfl, by rw [hgain]; rfl, rfl⟩
  · exact absurd (Or.inl (congrArg Prod.fst heq)) hsucceeds
  · have hgain (n : Nat) : head.gain c n = n := if_neg (mt hstops.mpr hnew)
    have hperm := SortedKeys.insert_perm
      (fun d : MessageSegmentCell => decide (d.seqnum.toNat < c.number)) head.cells c.cell
    obtain ⟨_, hcells, htotal, hoptions⟩ := hcounted.linkSegmentWith hc hperm
      (h.ascending.insert (a := c.cell) (mt hstops.mpr hnew)) mallocs.optionsHead
    obtain ⟨hlength, hbytes⟩ := stored_of_perm hperm
    have hgiven : ¬ (head.optionsHead = none ∧ mallocs.optionsHead = false) := by
      intro hfailed
      refine hsucceeds ((insertIntoMslWith_code_iff mallocs head hc.fromParser.options).mpr ?_)
      exact ⟨hnew, Or.inr hfailed.symm⟩
    rw [heq]
    refine ⟨?_, ?_, ?_, htotal⟩
    · rw [hcells, hgain, hlength]
    · rw [MessageSegmentList.storedBytes, hcells, hgain, hbytes]
    · rw [hgain]
      exact hoptions hgiven

end Insert

/-- The counters of all lists are exact. -/
def RawBuffer.AllCounted (buf : RawBuffer) : Prop :=
  ∀ k cell head, buf.lookup k = some cell → cell.head = some head → head.Counted

/-- The list that a segment is inserted into. -/
def RawBuffer.messageOf (buf : RawBuffer) (k : MessageKey) : MessageSegmentList :=
  (buf.listOf? k).getD (createMessageSegmentList k.1 k.2)

section Buffer

variable {buf after : RawBuffer} (h : buf.AllCounted)
include h

theorem RawBuffer.AllCounted.messageOf (k : MessageKey) : (buf.messageOf k).Counted := by
  unfold RawBuffer.messageOf RawBuffer.listOf?
  cases hfound : buf.lookup k with
  | none => exact counted_create k.1 k.2
  | some cell =>
      rw [Option.bind_some]
      cases hhead : cell.head with
      | none => exact counted_create k.1 k.2
      | some head => exact h k cell head hfound hhead

theorem RawBuffer.AllCounted.insertWith {mallocs : InsertMallocs} {k : MessageKey}
    {c : InsertCall} (hc : c.Small) (hlost : buf.lostSegments mallocs k c = []) {code : Int}
    (hresult : buf.insertWith mallocs k c = some (code, after)) : after.AllCounted := by
  intro j cell head hfound hhead
  rcases RawBuffer.insertWith_lookup hresult hfound hhead with
    hold | ⟨rfl, cell, old, hcell, hlist, rfl⟩ | ⟨rfl, _, rfl⟩
  · exact h j cell head hold hhead
  · refine (h j cell old hcell hlist).insertIntoMslWith hc ?_
    rwa [RawBuffer.lostSegments, hcell, Option.bind_some, hlist] at hlost
  · exact (counted_create j.1 j.2).insertIntoMslWith hc rfl

theorem RawBuffer.AllCounted.clear (hsound : buf.Sound) {k : MessageKey} {code : Int}
    (hresult : buf.clear k = some (code, after)) : after.AllCounted :=
  fun j cell head hfound hhead => h j cell head (hsound.lookup_of_clear hresult hfound) hhead

theorem RawBuffer.AllCounted.cleanupSegBuff (hsound : buf.Sound) {now : Int}
    (hresult : buf.cleanupSegBuff now cleanUpPassSize = some after) : after.AllCounted := by
  intro k cell head hfound hhead
  rw [hsound.cleanupSegBuff_lookup hresult] at hfound
  split at hfound
  · obtain ⟨old, hold, hvisit⟩ := Option.bind_eq_some_iff.mp hfound
    rw [RawCell.visit, Option.ite_none_left_eq_some, Option.some_inj] at hvisit
    obtain ⟨_, rfl⟩ := hvisit
    obtain ⟨list, hlist, rfl⟩ := Option.map_eq_some_iff.mp hhead
    exact (h k old list hold hlist).cleanedUp now
  · exact h k cell head hfound hhead

end Buffer

/-- The segments that a buffer loses are lost from the list of the message. -/
theorem RawBuffer.lostSegments_eq (mallocs : InsertMallocs) (buf : RawBuffer) (k : MessageKey)
    (c : InsertCall) :
    buf.lostSegments mallocs k c = UdpNotif.lostSegments mallocs (buf.messageOf k) c := by
  have hlists : (buf.lookup k).bind RawCell.head = buf.listOf? k := rfl
  unfold RawBuffer.lostSegments RawBuffer.messageOf
  rw [hlists]
  cases buf.listOf? k <;> rfl

/-- The counter of a list that counts its segments is the number of their bytes. -/
theorem MessageSegmentList.Counted.total_toNat {head : MessageSegmentList} (h : head.Counted) :
    head.totalPayloadByteSize.toNat = head.storedBytes := by
  rw [h.totalPayload, BitVec.toNat_ofNat, Nat.mod_eq_of_lt h.lengths.2]

/-- What an insert that does not fail does to its list. -/
theorem RawBuffer.insertWith_messageOf {buf after : RawBuffer} {mallocs : InsertMallocs}
    {k : MessageKey} {c : InsertCall} {code : Int}
    (hresult : buf.insertWith mallocs k c = some (code, after)) (hcode : code ≠ -3) :
    code = (insertIntoMslWith mallocs (buf.messageOf k) c).1 ∧
      after.listOf? k = some (insertIntoMslWith mallocs (buf.messageOf k) c).2 := by
  unfold RawBuffer.messageOf RawBuffer.listOf?
  rcases RawBuffer.insertWith_eq_some hresult with ⟨_, rfl, _⟩ | ⟨_, hcase⟩
  · exact absurd rfl hcode
  · rcases hcase with ⟨cell, head, hfound, hhead, rfl, rfl⟩ | ⟨hnone, _, hcase⟩
    · have hfind : ChainedTable.find RawCell.key k (buf.chain k.bucket) = some cell := hfound
      rw [hfound, Option.bind_some, hhead, RawBuffer.lookup_setChain, if_pos rfl,
        ChainedTable.find_adjust_self (RawCell.withHead_key _), hfind]
      exact ⟨rfl, rfl⟩
    · rcases hcase with ⟨_, rfl, _⟩ | ⟨_, _, rfl, _⟩ | ⟨_, _, rfl, rfl⟩
      · exact absurd rfl hcode
      · exact absurd rfl hcode
      · rw [hnone]
        refine ⟨rfl, ?_⟩
        change (RawBuffer.lookup (RawBuffer.setChain _ _ _) k).bind _ = _
        rw [RawBuffer.lookup_concat hnone, if_pos rfl]
        rfl

end UdpNotif
