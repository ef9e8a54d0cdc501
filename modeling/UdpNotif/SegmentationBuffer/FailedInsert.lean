import UdpNotif.SegmentationBuffer.Completeness
import UdpNotif.SegmentationBuffer.EntryCount

/-!
`insert_segment` when one of its allocations fails. Some of them are made after a
size or a link was already overwritten, so a call that returns `-3` or `-4` can
leave a message without cells it had, with another size, or an entry without a
list, which later calls then come across. The calls that leave the messages alone
are characterised below.
-/

namespace UdpNotif

/-- Which allocations of a call succeed: the head cell of the bucket, the
collision cell, the list of the message, the cell of the segment, and the head
node of its options. -/
structure InsertMallocs where
  bucket : Bool
  collisionCell : Bool
  messageList : Bool
  segmentCell : Bool
  optionsHead : Bool

/-- No allocation fails. -/
def InsertMallocs.all : InsertMallocs := ⟨true, true, true, true, true⟩

/-- `append_options`; `malloc` tells whether a new head node can be allocated. -/
def appendOptionsWith (malloc : Bool) (head : MessageSegmentList)
    (options : Option (List UnyteOption)) : Int × MessageSegmentList :=
  match options with
  | none => (-2, head)
  | some added =>
      if head.optionsHead = none ∧ malloc = false then (-3, head)
      else appendOptions head (some added)

/-- What `insert_into_msl` does once the new cell is linked. -/
def linkSegmentWith (malloc : Bool) (head : MessageSegmentList)
    (cells : List MessageSegmentCell) (payloadSize : Uint32)
    (options : Option (List UnyteOption)) : Int × MessageSegmentList :=
  let (res, head) := appendOptionsWith malloc { head with
    cells
    currentSize := head.currentSize + 1
    totalPayloadByteSize := head.totalPayloadByteSize + payloadSize } options
  (if res < 0 then -4 else if head.complete then 1 else 0, head)

/-- `insert_into_msl` -/
def insertIntoMslWith (mallocs : InsertMallocs) (head : MessageSegmentList) (c : InsertCall) :
    Int × MessageSegmentList :=
  let head := if c.last = 1 then { head with totalSize := c.seqnum + 1 } else head
  let passed := head.cells.takeWhile (fun d => d.seqnum < c.seqnum)
  match head.cells.dropWhile (fun d => d.seqnum < c.seqnum) with
  | [] =>
      if mallocs.segmentCell then
        linkSegmentWith mallocs.optionsHead head (passed ++ [c.cell]) c.payloadSize c.options
      else (-3, head)
  | d :: rest =>
      if d.seqnum = c.seqnum then
        (if head.complete then -2 else -1, head)
      else if mallocs.segmentCell then
        linkSegmentWith mallocs.optionsHead head (passed ++ c.cell :: d :: rest) c.payloadSize
          c.options
      -- the failed allocation has overwritten the link to the cells behind
      else (-3, { head with cells := passed })

/-- The codes of an insert that has linked its segment. -/
def linksSegment (code : Int) : Bool := code = 0 || code = 1 || code = -4

/-- A collision cell, whose list may be `NULL`. -/
structure RawCell where
  odid : Uint32
  mid : Uint32
  head : Option MessageSegmentList

/-- A segment buffer whose entries need not have a list. A bucket is `none` for
`NULL` and otherwise the cells behind its head cell; `linked` tells whether the
last of them has its `next` set. -/
structure RawBuffer where
  count : Uint32
  hashArray : Fin sizeBuf → Option (List RawCell)
  linked : Fin sizeBuf → Bool
  cleanup : Bool
  cleanupStartIndex : Uint8

/-- The key of a cell. -/
def RawCell.key (c : RawCell) : MessageKey := (c.odid, c.mid)

/-- A cell with its list. -/
def CollisionListCell.raw (c : CollisionListCell) : RawCell := ⟨c.odid, c.mid, some c.head⟩

/-- A buffer in which every entry has its list. -/
def SegmentBuffer.raw (buf : SegmentBuffer) : RawBuffer where
  count := buf.count
  hashArray := fun i => (buf.hashArray i).map (List.map CollisionListCell.raw)
  linked := fun _ => true
  cleanup := buf.cleanup
  cleanupStartIndex := buf.cleanupStartIndex

/-- The cells behind the head cell of a bucket, if it has one. -/
def RawBuffer.chain (buf : RawBuffer) (i : Fin sizeBuf) : List RawCell := (buf.hashArray i).getD []

/-- The number of messages over all buckets. -/
def RawBuffer.entries (buf : RawBuffer) : Nat := Weights.total List.length buf.chain

/-- The cell of a key. -/
def RawBuffer.lookup (buf : RawBuffer) (k : MessageKey) : Option RawCell :=
  ChainedTable.lookup RawCell.key MessageKey.bucket buf.chain k

/-- Replace the cells behind the head cell of a bucket. -/
def RawBuffer.setChain (buf : RawBuffer) (i : Fin sizeBuf) (chain : List RawCell) : RawBuffer :=
  { buf with hashArray := Function.update buf.hashArray i (some chain) }

/-- A cell gets a list. -/
def RawCell.withHead (head : MessageSegmentList) (c : RawCell) : RawCell :=
  { c with head := some head }

/-- A new collision cell whose list could not be allocated: it is linked, but its
`next` is not set and it is not counted. -/
def RawBuffer.withoutList (buf : RawBuffer) (k : MessageKey) : RawBuffer :=
  { buf.setChain k.bucket (buf.chain k.bucket ++ [⟨k.1, k.2, none⟩]) with
    linked := Function.update buf.linked k.bucket false }

/-- `insert_segment`. It has no result where it goes through a list that is `NULL`
or past a cell whose `next` is not set. -/
def RawBuffer.insertWith (mallocs : InsertMallocs) (buf : RawBuffer) (k : MessageKey)
    (c : InsertCall) : Option (Int × RawBuffer) :=
  let chain := buf.chain k.bucket
  if buf.hashArray k.bucket = none ∧ mallocs.bucket = false then some (-3, buf)
  else
    match ChainedTable.find RawCell.key k chain with
    | some cell =>
        cell.head.map fun head =>
          let inserted := insertIntoMslWith mallocs head c
          (inserted.1, buf.setChain k.bucket
            (ChainedTable.adjust RawCell.key k (RawCell.withHead inserted.2) chain))
    | none =>
        if buf.linked k.bucket = false then none
        else if mallocs.collisionCell = false then some (-3, buf.setChain k.bucket chain)
        else if mallocs.messageList = false then some (-3, buf.withoutList k)
        else
          let inserted := insertIntoMslWith mallocs (createMessageSegmentList k.1 k.2) c
          some (inserted.1, { buf.setChain k.bucket (chain ++ [⟨k.1, k.2, some inserted.2⟩]) with
            count := buf.count + 1 })

/-- `insert_segment` where every entry has its list. -/
def SegmentBuffer.insertWith (mallocs : InsertMallocs) (buf : SegmentBuffer) (k : MessageKey)
    (c : InsertCall) : Int × RawBuffer :=
  if buf.hashArray k.bucket = none ∧ mallocs.bucket = false then (-3, buf.raw)
  else
    -- the bucket has its head cell
    let buf := buf.setChain k.bucket (buf.chain k.bucket)
    match buf.lookup k with
    | some head =>
        let inserted := insertIntoMslWith mallocs head c
        (inserted.1, (buf.store k inserted.2).raw)
    | none =>
        if mallocs.collisionCell = false then (-3, buf.raw)
        else if mallocs.messageList = false then (-3, buf.raw.withoutList k)
        else
          let inserted := insertIntoMslWith mallocs (createMessageSegmentList k.1 k.2) c
          (inserted.1, ({ buf with count := buf.count + 1 }.store k inserted.2).raw)

/-- A message keeps its segments, its options and its sizes. -/
structure MessageKept (head head' : MessageSegmentList) : Prop where
  cells : head'.cells = head.cells
  optionsHead : head'.optionsHead = head.optionsHead
  optionsTail : head'.optionsTail = head.optionsTail
  optionsLength : head'.optionsLength = head.optionsLength
  currentSize : head'.currentSize = head.currentSize
  totalSize : head'.totalSize = head.totalSize
  totalPayloadByteSize : head'.totalPayloadByteSize = head.totalPayloadByteSize

/-- An entry has no list. -/
def RawBuffer.LacksList (buf : RawBuffer) : Prop := ∃ i, ∃ cell ∈ buf.chain i, cell.head = none

/-- What a failed call is to leave behind: all messages as they were, a counter
of all entries in 32 bits, and a list in every entry. -/
structure Intact (before after : RawBuffer) : Prop where
  kept : ∀ k cell head, before.lookup k = some cell → cell.head = some head →
    ∃ cell' head', after.lookup k = some cell' ∧ cell'.head = some head' ∧ MessageKept head head'
  count : after.count = .ofNat 32 after.entries
  usable : ¬ after.LacksList

/-- The walk through a list stops at a cell with the number of the call. -/
def MessageSegmentList.StopsAt (head : MessageSegmentList) (c : InsertCall) : Prop :=
  ((head.cells.dropWhile (fun d => d.seqnum < c.seqnum)).head?.map MessageSegmentCell.seqnum) =
    some c.seqnum

/-- An allocation that a call comes to fails. -/
def RawBuffer.Fails (mallocs : InsertMallocs) (buf : RawBuffer) (k : MessageKey)
    (c : InsertCall) : Prop :=
  match (buf.lookup k).map RawCell.head with
  | none => (buf.hashArray k.bucket = none ∧ mallocs.bucket = false) ∨
      (buf.linked k.bucket = true ∧ (mallocs.collisionCell = false ∨
        mallocs.messageList = false ∨ mallocs.segmentCell = false ∨ mallocs.optionsHead = false))
  | some none => False
  | some (some head) => ¬ head.StopsAt c ∧
      (mallocs.segmentCell = false ∨ (mallocs.optionsHead = false ∧ head.optionsHead = none))

/-- A call that fails does so where nothing was changed yet, or in a message that
it has just entered. -/
def RawBuffer.FailsHarmlessly (mallocs : InsertMallocs) (buf : RawBuffer) (k : MessageKey)
    (c : InsertCall) : Prop :=
  match (buf.lookup k).map RawCell.head with
  | none => (buf.hashArray k.bucket = none ∧ mallocs.bucket = false) ∨
      mallocs.collisionCell = false ∨ mallocs.messageList = true
  | some none => False
  | some (some head) => c.number ∈ head.numbers ∨
      (mallocs.segmentCell = true ∧ (mallocs.optionsHead = true ∨ head.optionsHead ≠ none)) ∨
      (mallocs.segmentCell = false ∧ (∀ number ∈ head.numbers, number < c.number) ∧
        (c.last = 1 → head.totalSize = c.seqnum + 1))

/-- The segment buffers in which every entry has its list, after any operations
with any allocations failing. The callers of `clear_segment_list` count for it. -/
inductive ReachableBuffer : SegmentBuffer → Prop where
  | create : ReachableBuffer createSegmentBuffer
  | insert {buf buf' : SegmentBuffer} (mallocs : InsertMallocs) (k : MessageKey) (c : InsertCall)
      (h : ReachableBuffer buf) (hafter : (buf.insertWith mallocs k c).2 = buf'.raw) :
      ReachableBuffer buf'
  | clear {buf : SegmentBuffer} (k : MessageKey) (h : ReachableBuffer buf)
      (hstored : buf.lookup k ≠ none) :
      ReachableBuffer { (clearSegmentList buf k.1 k.2).2 with count := buf.count - 1 }
  | cleanup {buf : SegmentBuffer} (now size : Int) (h : ReachableBuffer buf) :
      ReachableBuffer (cleanupSegBuff now buf size)
  | requestCleanup {buf : SegmentBuffer} (h : ReachableBuffer buf) :
      ReachableBuffer buf.requestCleanup

/-- The segment buffers that a call may meet: the reachable ones in which every
entry has its list, and all in which one has not. -/
def RawBuffer.MayOccur (raw : RawBuffer) : Prop :=
  raw.LacksList ∨ ∃ buf, ReachableBuffer buf ∧ raw = buf.raw

/-! Calls that do not fail -/

theorem appendOptionsWith_true (head : MessageSegmentList) (options : Option (List UnyteOption)) :
    appendOptionsWith true head options = appendOptions head options := by
  cases options with
  | none => rfl
  | some added => simp [appendOptionsWith]

theorem linkSegmentWith_true (head : MessageSegmentList) (cells : List MessageSegmentCell)
    (payloadSize : Uint32) (options : Option (List UnyteOption)) :
    linkSegmentWith true head cells payloadSize options =
      linkSegment head cells payloadSize options := by
  rw [linkSegmentWith, appendOptionsWith_true, linkSegment]

theorem insertIntoMslWith_all (head : MessageSegmentList) (c : InsertCall) :
    insertIntoMslWith .all head c = c.apply head := by
  simp only [insertIntoMslWith, InsertMallocs.all, linkSegmentWith_true, if_true, InsertCall.apply,
    insertIntoMsl]
  rfl

section Bucket

variable (buf : SegmentBuffer) (k : MessageKey)

/-- A bucket that gets its head cell holds what it held. -/
theorem SegmentBuffer.chain_setChain_self (i : Fin sizeBuf) :
    (buf.setChain i (buf.chain i)).chain = buf.chain := by
  rw [SegmentBuffer.chain_setChain, Function.update_eq_self]

theorem SegmentBuffer.lookup_setChain_self (i : Fin sizeBuf) (j : MessageKey) :
    (buf.setChain i (buf.chain i)).lookup j = buf.lookup j := by
  rw [SegmentBuffer.lookup, SegmentBuffer.chain_setChain_self]
  rfl

theorem SegmentBuffer.store_setChain_self (head : MessageSegmentList) :
    (buf.setChain k.bucket (buf.chain k.bucket)).store k head = buf.store k head := by
  rw [SegmentBuffer.store, SegmentBuffer.chain_setChain_self, SegmentBuffer.store]
  simp only [SegmentBuffer.setChain, Function.update_idem]

/-- A bucket that is `NULL` holds no message. -/
theorem SegmentBuffer.lookup_of_null (hnull : buf.hashArray k.bucket = none) :
    buf.lookup k = none := by
  rw [SegmentBuffer.lookup, ChainedTable.lookup, SegmentBuffer.chain, hnull]
  rfl

end Bucket

/-- Without a failing allocation the call is the one modelled above. -/
theorem SegmentBuffer.insertWith_all (buf : SegmentBuffer) (k : MessageKey) (c : InsertCall) :
    buf.insertWith .all k c =
      ((insertSegment buf k.1 k.2 c.seqnum c.last c.payloadSize c.content c.options).1,
        (insertSegment buf k.1 k.2 c.seqnum c.last c.payloadSize c.content c.options).2.raw) := by
  have hbucket : ¬ (buf.hashArray k.bucket = none ∧ InsertMallocs.all.bucket = false) := by
    rintro ⟨_, hfailed⟩
    cases hfailed
  rw [insertSegment_code, insertSegment_buffer, insertSegmentCall, Prod.mk.eta]
  simp only [SegmentBuffer.insertWith, if_neg hbucket, SegmentBuffer.lookup_setChain_self,
    insertIntoMslWith_all]
  cases hfound : buf.lookup k with
  | some head =>
      simp only [SegmentBuffer.store_setChain_self, Option.getD_some, reduceCtorEq, if_false]
      rfl
  | none =>
      simp only [Option.getD_none, if_true]
      exact congrArg (fun b : SegmentBuffer => (_, b.raw))
        (SegmentBuffer.store_setChain_self { buf with count := buf.count + 1 } k _)

/-! What a call leaves in the list of its message -/

section List

variable {mallocs : InsertMallocs} {head : MessageSegmentList} {c : InsertCall}

theorem linkSegmentWith_fields (malloc : Bool) (head : MessageSegmentList)
    (cells : List MessageSegmentCell) (payloadSize : Uint32) (options : Option (List UnyteOption)) :
    (linkSegmentWith malloc head cells payloadSize options).2.cells = cells ∧
      (linkSegmentWith malloc head cells payloadSize options).2.currentSize =
        head.currentSize + 1 := by
  cases options with
  | none => exact ⟨rfl, rfl⟩
  | some added =>
      by_cases hfailed : head.optionsHead = none ∧ malloc = false
      · simp only [linkSegmentWith, appendOptionsWith, if_pos hfailed, and_self]
      · simp only [linkSegmentWith, appendOptionsWith, if_neg hfailed, appendOptions, and_self]

/-- Linking a cell fails where the head node of the options does. -/
theorem linkSegmentWith_code (malloc : Bool) (head : MessageSegmentList)
    (cells : List MessageSegmentCell) (payloadSize : Uint32) {options : Option (List UnyteOption)}
    (hoptions : options ≠ none) :
    ((linkSegmentWith malloc head cells payloadSize options).1 = -4 ↔
        head.optionsHead = none ∧ malloc = false) ∧
      (linkSegmentWith malloc head cells payloadSize options).1 ≠ -3 := by
  obtain ⟨added, rfl⟩ := Option.ne_none_iff_exists'.mp hoptions
  by_cases hfailed : head.optionsHead = none ∧ malloc = false
  · simp [linkSegmentWith, appendOptionsWith, hfailed]
  · have hcode : ∀ complete : Bool, (if complete then (1 : Int) else 0) ≠ -4 ∧
        (if complete then (1 : Int) else 0) ≠ -3 := by decide
    simp only [linkSegmentWith, appendOptionsWith, appendOptions, hfailed, iff_false]
    exact hcode _

/-- The walk through an ordered list stops at the cell of a duplicate. -/
theorem MessageSegmentList.stopsAt_iff
    (h : SortedKeys.Ascending (fun d : MessageSegmentCell => d.seqnum.toNat) head.cells) :
    head.StopsAt c ↔ c.number ∈ head.numbers := by
  have hlt : (fun d : MessageSegmentCell => decide (d.seqnum < c.seqnum)) =
      (fun d => decide (d.seqnum.toNat < c.number)) := rfl
  have hmem : c.number ∈ head.numbers ↔ _ := h.mem_keys_iff c.number
  rw [hmem, MessageSegmentList.StopsAt, hlt]
  constructor
  · intro hstops
    obtain ⟨d, hhead, hd⟩ := Option.map_eq_some_iff.mp hstops
    obtain ⟨rest, hdrop⟩ := List.head?_eq_some_iff.mp hhead
    exact ⟨d, rest, hdrop, congrArg BitVec.toNat hd⟩
  · rintro ⟨d, rest, hdrop, hk⟩
    rw [hdrop]
    exact congrArg some (BitVec.eq_of_toNat_eq hk)

/-- What a call does to its list: it stops at its number, the cell of the segment fails,
or the cell is linked. -/
theorem insertIntoMslWith_eq (mallocs : InsertMallocs) (head : MessageSegmentList)
    (c : InsertCall) {announced : MessageSegmentList}
    (hannounced : { head with totalSize := if c.last = 1 then c.seqnum + 1 else head.totalSize } =
      announced) :
    (head.StopsAt c ∧
      insertIntoMslWith mallocs head c = (if announced.complete then -2 else -1, announced)) ∨
    (¬ head.StopsAt c ∧ mallocs.segmentCell = false ∧
      insertIntoMslWith mallocs head c = (-3, { announced with
        cells := head.cells.takeWhile (fun d => d.seqnum.toNat < c.number) })) ∨
    (¬ head.StopsAt c ∧ mallocs.segmentCell = true ∧
      insertIntoMslWith mallocs head c = linkSegmentWith mallocs.optionsHead announced
        (head.cells.takeWhile (fun d => d.seqnum.toNat < c.number) ++
          c.cell :: head.cells.dropWhile (fun d => d.seqnum.toNat < c.number))
        c.payloadSize c.options) := by
  have hlt : (fun d : MessageSegmentCell => decide (d.seqnum < c.seqnum)) =
      (fun d => decide (d.seqnum.toNat < c.number)) := rfl
  have hsplit := List.takeWhile_append_dropWhile
    (p := fun d : MessageSegmentCell => decide (d.seqnum.toNat < c.number)) (l := head.cells)
  have hcells : announced.cells = head.cells := by rw [← hannounced]
  simp only [insertIntoMslWith, MessageSegmentList.StopsAt, c.announce_eq, hlt, hannounced, hcells]
  cases hdrop : head.cells.dropWhile (fun d => decide (d.seqnum.toNat < c.number)) with
  | nil =>
      have hnew : ¬ (List.head? ([] : List MessageSegmentCell)).map MessageSegmentCell.seqnum =
          some c.seqnum := fun h => by cases h
      rw [hdrop, List.append_nil] at hsplit
      right
      cases hcell : mallocs.segmentCell with
      | true => exact Or.inr ⟨hnew, rfl, rfl⟩
      | false =>
          refine Or.inl ⟨hnew, rfl, ?_⟩
          rw [hsplit, ← hcells]
          rfl
  | cons d rest =>
      by_cases hd : d.seqnum = c.seqnum
      · exact Or.inl ⟨congrArg some hd, if_pos hd⟩
      · have hnew : ¬ (List.head? (d :: rest)).map MessageSegmentCell.seqnum = some c.seqnum :=
          fun h => hd (Option.some.inj h)
        right
        cases hcell : mallocs.segmentCell with
        | true => exact Or.inr ⟨hnew, rfl, if_neg hd⟩
        | false => exact Or.inl ⟨hnew, rfl, if_neg hd⟩

/-- The same in what later calls look at, the head node of the options failing or not. -/
theorem insertIntoMslWith_cases (mallocs : InsertMallocs) (head : MessageSegmentList)
    (c : InsertCall) :
    (head.StopsAt c ∧ (insertIntoMslWith mallocs head c).2.cells = head.cells ∧
      (insertIntoMslWith mallocs head c).1 ≠ -3 ∧ (insertIntoMslWith mallocs head c).1 ≠ -4) ∨
    (¬ head.StopsAt c ∧ mallocs.segmentCell = false ∧
      insertIntoMslWith mallocs head c = (-3, { head with
        totalSize := if c.last = 1 then c.seqnum + 1 else head.totalSize
        cells := head.cells.takeWhile (fun d => d.seqnum.toNat < c.number) })) ∨
    (¬ head.StopsAt c ∧ mallocs.segmentCell = true ∧
      (insertIntoMslWith mallocs head c).2.cells =
        head.cells.takeWhile (fun d => d.seqnum.toNat < c.number) ++
          c.cell :: head.cells.dropWhile (fun d => d.seqnum.toNat < c.number) ∧
      (insertIntoMslWith mallocs head c).2.currentSize = head.currentSize + 1 ∧
      (c.options ≠ none → ((insertIntoMslWith mallocs head c).1 = -4 ↔
        head.optionsHead = none ∧ mallocs.optionsHead = false) ∧
        (insertIntoMslWith mallocs head c).1 ≠ -3)) := by
  rcases insertIntoMslWith_eq mallocs head c rfl with
    ⟨hstops, heq⟩ | ⟨hnew, hcell, heq⟩ | ⟨hnew, hcell, heq⟩
  · have hcode : ∀ complete : Bool, (if complete then (-2 : Int) else -1) ≠ -3 ∧
        (if complete then (-2 : Int) else -1) ≠ -4 := by decide
    rw [heq]
    exact Or.inl ⟨hstops, rfl, hcode _⟩
  · exact Or.inr (Or.inl ⟨hnew, hcell, heq⟩)
  · obtain ⟨hcells, hsize⟩ := linkSegmentWith_fields mallocs.optionsHead
      { head with totalSize := if c.last = 1 then c.seqnum + 1 else head.totalSize }
      (head.cells.takeWhile (fun d => d.seqnum.toNat < c.number) ++
        c.cell :: head.cells.dropWhile (fun d => d.seqnum.toNat < c.number))
      c.payloadSize c.options
    rw [heq]
    exact Or.inr (Or.inr ⟨hnew, hcell, hcells, hsize, linkSegmentWith_code _ _ _ _⟩)

/-- A call on a list fails unless it stops at its number or gets what it allocates. -/
theorem insertIntoMslWith_code_iff (mallocs : InsertMallocs) (head : MessageSegmentList)
    (hoptions : c.options ≠ none) :
    ((insertIntoMslWith mallocs head c).1 = -3 ∨ (insertIntoMslWith mallocs head c).1 = -4) ↔
      ¬ head.StopsAt c ∧ (mallocs.segmentCell = false ∨
        (mallocs.optionsHead = false ∧ head.optionsHead = none)) := by
  rcases insertIntoMslWith_cases mallocs head c with
    ⟨hstops, _, hnot3, hnot4⟩ | ⟨hnew, hcell, hresult⟩ | ⟨hnew, hcell, _, _, hlinked⟩
  · exact iff_of_false (not_or.mpr ⟨hnot3, hnot4⟩) (fun hfails => hfails.1 hstops)
  · rw [hresult]
    exact iff_of_true (Or.inl rfl) ⟨hnew, Or.inl hcell⟩
  · obtain ⟨hcode, hnot3⟩ := hlinked hoptions
    rw [or_iff_right hnot3, hcode, hcell]
    simp [hnew, and_comm]

/-- The cells of a list stay in order, whatever fails. -/
theorem insertIntoMslWith_ascending (mallocs : InsertMallocs)
    (h : SortedKeys.Ascending (fun d : MessageSegmentCell => d.seqnum.toNat) head.cells) :
    SortedKeys.Ascending (fun d : MessageSegmentCell => d.seqnum.toNat)
      (insertIntoMslWith mallocs head c).2.cells := by
  rcases insertIntoMslWith_cases mallocs head c with
    ⟨_, hcells, _⟩ | ⟨_, _, hresult⟩ | ⟨hnew, _, hcells, _⟩
  · rw [hcells]
    exact h
  · rw [hresult]
    exact h.sublist (List.takeWhile_sublist _)
  · rw [hcells]
    exact h.insert (a := c.cell) (mt (MessageSegmentList.stopsAt_iff h).mpr hnew)

/-- A call on a stored message fails harmlessly exactly if it leaves the message
as it was. -/
theorem insertIntoMslWith_kept_iff (mallocs : InsertMallocs)
    (h : SortedKeys.Ascending (fun d : MessageSegmentCell => d.seqnum.toNat) head.cells)
    (hoptions : c.options ≠ none) :
    ((insertIntoMslWith mallocs head c).1 = -3 ∨ (insertIntoMslWith mallocs head c).1 = -4 →
        MessageKept head (insertIntoMslWith mallocs head c).2) ↔
      (c.number ∈ head.numbers ∨
        (mallocs.segmentCell = true ∧ (mallocs.optionsHead = true ∨ head.optionsHead ≠ none)) ∨
        (mallocs.segmentCell = false ∧ (∀ number ∈ head.numbers, number < c.number) ∧
          (c.last = 1 → head.totalSize = c.seqnum + 1))) := by
  rw [← MessageSegmentList.stopsAt_iff h]
  rcases insertIntoMslWith_cases mallocs head c with
    ⟨hold, _, hnot3, hnot4⟩ | ⟨hnew, hcell, hresult⟩ | ⟨hnew, hcell, hcells, hsize, hlinked⟩
  · refine iff_of_true (fun hfailed => ?_) (Or.inl hold)
    rcases hfailed with hfailed | hfailed
    · exact absurd hfailed hnot3
    · exact absurd hfailed hnot4
  · rw [hresult]
    constructor
    · intro hkept
      have hkept := hkept (Or.inl rfl)
      refine Or.inr (Or.inr ⟨hcell, fun number hnumber => ?_, fun hlast => ?_⟩)
      · obtain ⟨d, hd, rfl⟩ := List.mem_map.mp hnumber
        have hcells : head.cells.takeWhile (fun d => d.seqnum.toNat < c.number) = head.cells :=
          hkept.cells
        rw [← hcells] at hd
        simpa using List.mem_takeWhile_imp hd
      · have htotal := hkept.totalSize
        simp only [if_pos hlast] at htotal
        exact htotal.symm
    · rintro (hold | ⟨hlinked, _⟩ | ⟨_, habove, htotal⟩) _
      · exact absurd hold hnew
      · rw [hcell] at hlinked
        cases hlinked
      · have hcells : head.cells.takeWhile (fun d => d.seqnum.toNat < c.number) = head.cells := by
          rw [List.takeWhile_eq_self_iff]
          intro d hd
          simpa using habove _ (List.mem_map_of_mem hd)
        refine ⟨hcells, rfl, rfl, rfl, rfl, ?_, rfl⟩
        simp only
        split
        · rename_i hlast
          exact (htotal hlast).symm
        · rfl
  · obtain ⟨hcode, hnot3⟩ := hlinked hoptions
    have hsizes : ¬ MessageKept head (insertIntoMslWith mallocs head c).2 := by
      intro hkept
      have hsame := hkept.currentSize
      rw [hsize] at hsame
      bv_omega
    constructor
    · intro hkept
      refine Or.inr (Or.inl ⟨hcell, ?_⟩)
      by_contra hneither
      rw [not_or, not_not, Bool.not_eq_true] at hneither
      exact hsizes (hkept (Or.inr (hcode.mpr ⟨hneither.2, hneither.1⟩)))
    · rintro (hold | ⟨_, hheads⟩ | ⟨hfailed, _⟩) hfails
      · exact absurd hold hnew
      · rcases hfails with hfails | hfails
        · exact absurd hfails hnot3
        · obtain ⟨hnull, hmalloc⟩ := hcode.mp hfails
          rcases hheads with hhead | hhead
          · rw [hmalloc] at hhead
            cases hhead
          · exact absurd hnull hhead
      · rw [hcell] at hfailed
        cases hfailed

end List

/-! What a call leaves in the buffer -/

section Raw

variable (buf : SegmentBuffer)

theorem SegmentBuffer.raw_chain (i : Fin sizeBuf) :
    buf.raw.chain i = (buf.chain i).map CollisionListCell.raw := by
  simp only [RawBuffer.chain, SegmentBuffer.chain, SegmentBuffer.raw]
  cases buf.hashArray i <;> rfl

theorem SegmentBuffer.raw_lookup (k : MessageKey) :
    (buf.raw.lookup k).map RawCell.head = (buf.lookup k).map some := by
  unfold RawBuffer.lookup SegmentBuffer.lookup ChainedTable.lookup ChainedTable.find
  rw [SegmentBuffer.raw_chain, List.find?_map, Option.map_map, Option.map_map]
  rfl

theorem SegmentBuffer.raw_find (k : MessageKey) :
    ChainedTable.find RawCell.key k (buf.raw.chain k.bucket) =
      (ChainedTable.find CollisionListCell.key k (buf.chain k.bucket)).map
        CollisionListCell.raw := by
  rw [SegmentBuffer.raw_chain, ChainedTable.find, List.find?_map]
  rfl

theorem SegmentBuffer.raw_entries : buf.raw.entries = buf.entries := by
  unfold RawBuffer.entries SegmentBuffer.entries Weights.total
  refine Finset.sum_congr rfl (fun i _ => ?_)
  rw [SegmentBuffer.raw_chain, List.length_map]

theorem SegmentBuffer.raw_lists : ¬ buf.raw.LacksList := by
  rintro ⟨i, cell, hcell, hnull⟩
  rw [SegmentBuffer.raw_chain] at hcell
  obtain ⟨c, _, rfl⟩ := List.mem_map.mp hcell
  cases hnull

end Raw

/-- A buffer of lists is intact if it is counted and holds the messages. -/
theorem intact_raw_iff {buf buf' : SegmentBuffer} (hcounted : buf'.Counted) :
    Intact buf.raw buf'.raw ↔ ∀ k head, buf.lookup k = some head →
      ∃ head', buf'.lookup k = some head' ∧ MessageKept head head' := by
  have hlookup (b : SegmentBuffer) (k : MessageKey) (head : MessageSegmentList) :
      (∃ cell, b.raw.lookup k = some cell ∧ cell.head = some head) ↔ b.lookup k = some head := by
    rw [← Option.map_eq_some_iff, SegmentBuffer.raw_lookup, Option.map_eq_some_iff]
    simp
  constructor
  · intro h k head hstored
    obtain ⟨cell, hcell, hhead⟩ := (hlookup buf k head).mpr hstored
    obtain ⟨cell', head', hcell', hhead', hkept⟩ := h.kept k cell head hcell hhead
    exact ⟨head', (hlookup buf' k head').mp ⟨cell', hcell', hhead'⟩, hkept⟩
  · intro h
    refine ⟨fun k cell head hcell hhead => ?_, ?_, buf'.raw_lists⟩
    · obtain ⟨head', hfound, hkept⟩ := h k head ((hlookup buf k head).mp ⟨cell, hcell, hhead⟩)
      obtain ⟨cell', hcell', hhead'⟩ := (hlookup buf' k head').mpr hfound
      exact ⟨cell', head', hcell', hhead', hkept⟩
    · rw [SegmentBuffer.raw_entries]
      exact hcounted

theorem CollisionListCell.raw_injective : Function.Injective CollisionListCell.raw := by
  rintro ⟨odid, mid, head⟩ ⟨odid', mid', head'⟩ h
  simp only [CollisionListCell.raw, RawCell.mk.injEq, Option.some.injEq] at h
  obtain ⟨rfl, rfl, rfl⟩ := h
  rfl

theorem SegmentBuffer.raw_injective : Function.Injective SegmentBuffer.raw := by
  rintro ⟨count, hashArray, cleanup, start⟩ ⟨count', hashArray', cleanup', start'⟩ h
  simp only [SegmentBuffer.raw, RawBuffer.mk.injEq] at h
  obtain ⟨rfl, hbuckets, _, rfl, rfl⟩ := h
  obtain rfl : hashArray = hashArray' := by
    funext i
    exact Option.map_injective (List.map_injective_iff.mpr CollisionListCell.raw_injective)
      (congrFun hbuckets i)
  rfl

/-- An entry without a list is left behind. -/
theorem RawBuffer.withoutList_lacksList (buf : RawBuffer) (k : MessageKey) :
    (buf.withoutList k).LacksList := by
  refine ⟨k.bucket, ⟨k.1, k.2, none⟩, ?_, rfl⟩
  simp only [RawBuffer.chain, RawBuffer.withoutList, RawBuffer.setChain, Function.update_self,
    Option.getD_some]
  exact List.mem_append_right _ (List.mem_singleton_self _)

/-- What holds of the reachable buffers. -/
structure SegmentBuffer.Sound (buf : SegmentBuffer) : Prop where
  wellFormed : buf.WellFormed
  counted : buf.Counted
  ascending : buf.All (fun head =>
    SortedKeys.Ascending (fun d : MessageSegmentCell => d.seqnum.toNat) head.cells)

section Sound

variable {buf : SegmentBuffer} (h : buf.Sound) {k : MessageKey} {head : MessageSegmentList}
include h

/-- A bucket that gets its head cell. -/
theorem SegmentBuffer.Sound.setChain_self (i : Fin sizeBuf) :
    (buf.setChain i (buf.chain i)).Sound := by
  have hchain := buf.chain_setChain_self i
  have hentries : (buf.setChain i (buf.chain i)).entries = buf.entries :=
    congrArg (Weights.total List.length) hchain
  refine ⟨?_, ?_, fun j head' hlookup => ?_⟩
  · unfold SegmentBuffer.WellFormed
    rw [hchain]
    exact h.wellFormed
  · unfold SegmentBuffer.Counted
    rw [hentries]
    exact h.counted
  · rw [buf.lookup_setChain_self] at hlookup
    exact h.ascending j head' hlookup

variable (hcells : SortedKeys.Ascending (fun d : MessageSegmentCell => d.seqnum.toNat) head.cells)
include hcells

/-- Another list for a message that is stored. -/
theorem SegmentBuffer.Sound.store_old (hstored : buf.lookup k ≠ none) :
    (buf.store k head).Sound := by
  refine ⟨h.wellFormed.store k head, ?_, h.ascending.store k hcells⟩
  unfold SegmentBuffer.Counted
  rw [SegmentBuffer.store_entries, BitVec.ofNat_add, ← h.counted, if_neg hstored]
  exact (BitVec.add_zero _).symm

/-- A new message, which is counted. -/
theorem SegmentBuffer.Sound.store_new (hnew : buf.lookup k = none) :
    ({ buf with count := buf.count + 1 }.store k head).Sound := by
  have hentries : ({ buf with count := buf.count + 1 }.store k head).entries = buf.entries + 1 := by
    have hadd := buf.store_entries k head
    rw [if_pos hnew] at hadd
    exact hadd
  have hwell : SegmentBuffer.WellFormed { buf with count := buf.count + 1 } :=
    ⟨h.wellFormed.placed, h.wellFormed.unique⟩
  have hall : SegmentBuffer.All (fun head =>
      SortedKeys.Ascending (fun d : MessageSegmentCell => d.seqnum.toNat) head.cells)
      { buf with count := buf.count + 1 } := h.ascending
  refine ⟨hwell.store k head, ?_, hall.store k hcells⟩
  unfold SegmentBuffer.Counted
  rw [hentries, BitVec.ofNat_add, ← h.counted]
  rfl

end Sound

/-- What a call does to the buffer: it changes nothing, it leaves an entry
without a list, or it stores a list. -/
theorem SegmentBuffer.insertWith_cases (mallocs : InsertMallocs) (buf : SegmentBuffer)
    (k : MessageKey) (c : InsertCall) :
    (buf.hashArray k.bucket = none ∧ mallocs.bucket = false ∧
      buf.insertWith mallocs k c = (-3, buf.raw)) ∨
    (buf.lookup k = none ∧ mallocs.collisionCell = false ∧
      buf.insertWith mallocs k c = (-3, (buf.setChain k.bucket (buf.chain k.bucket)).raw)) ∨
    (buf.lookup k = none ∧ ¬ (buf.hashArray k.bucket = none ∧ mallocs.bucket = false) ∧
      mallocs.collisionCell = true ∧ mallocs.messageList = false ∧
      buf.insertWith mallocs k c =
        (-3, (buf.setChain k.bucket (buf.chain k.bucket)).raw.withoutList k)) ∨
    (buf.lookup k = none ∧ mallocs.messageList = true ∧
      let inserted := insertIntoMslWith mallocs (createMessageSegmentList k.1 k.2) c
      buf.insertWith mallocs k c =
        (inserted.1, ({ buf with count := buf.count + 1 }.store k inserted.2).raw)) ∨
    ∃ head, buf.lookup k = some head ∧
      buf.insertWith mallocs k c = ((insertIntoMslWith mallocs head c).1,
        (buf.store k (insertIntoMslWith mallocs head c).2).raw) := by
  unfold SegmentBuffer.insertWith
  by_cases hbucket : buf.hashArray k.bucket = none ∧ mallocs.bucket = false
  · rw [if_pos hbucket]
    exact Or.inl ⟨hbucket.1, hbucket.2, rfl⟩
  · right
    simp only [if_neg hbucket, SegmentBuffer.lookup_setChain_self,
      SegmentBuffer.store_setChain_self]
    cases hfound : buf.lookup k with
    | some head => exact Or.inr (Or.inr (Or.inr ⟨head, rfl, rfl⟩))
    | none =>
        by_cases hcell : mallocs.collisionCell = false
        · exact Or.inl ⟨rfl, hcell, by simp only [if_pos hcell]⟩
        · right
          by_cases hlist : mallocs.messageList = false
          · simp only [if_neg hcell, if_pos hlist]
            exact Or.inl ⟨trivial, hbucket, by simpa using hcell, hlist, trivial⟩
          · simp only [if_neg hcell, if_neg hlist]
            refine Or.inr (Or.inl ⟨trivial, by simpa using hlist, ?_⟩)
            exact congrArg (fun b : SegmentBuffer => (_, b.raw))
              (SegmentBuffer.store_setChain_self { buf with count := buf.count + 1 } k _)

theorem createMessageSegmentList_ascending (odid mid : Uint32) :
    SortedKeys.Ascending (fun d : MessageSegmentCell => d.seqnum.toNat)
      (createMessageSegmentList odid mid).cells := List.Pairwise.nil

/-- Every call keeps a buffer sound, unless it leaves an entry without a list. -/
theorem SegmentBuffer.Sound.insertWith {buf buf' : SegmentBuffer} (h : buf.Sound)
    {mallocs : InsertMallocs} {k : MessageKey} {c : InsertCall}
    (hafter : (buf.insertWith mallocs k c).2 = buf'.raw) : buf'.Sound := by
  rcases SegmentBuffer.insertWith_cases mallocs buf k c with ⟨_, _, hresult⟩ | ⟨_, _, hresult⟩ |
    ⟨_, _, _, _, hresult⟩ | ⟨hnew, _, hresult⟩ | ⟨head, hfound, hresult⟩
  · rw [hresult] at hafter
    rwa [← SegmentBuffer.raw_injective hafter]
  · rw [hresult] at hafter
    rw [← SegmentBuffer.raw_injective hafter]
    exact h.setChain_self _
  · rw [hresult] at hafter
    have hlacks :=
      (buf.setChain k.bucket (buf.chain k.bucket)).raw.withoutList_lacksList k
    simp only at hafter
    rw [hafter] at hlacks
    exact absurd hlacks buf'.raw_lists
  · rw [hresult] at hafter
    rw [← SegmentBuffer.raw_injective hafter]
    exact h.store_new (insertIntoMslWith_ascending mallocs
      (createMessageSegmentList_ascending _ _)) hnew
  · rw [hresult] at hafter
    rw [← SegmentBuffer.raw_injective hafter]
    exact h.store_old (insertIntoMslWith_ascending mallocs (h.ascending k head hfound))
      (by rw [hfound]; exact Option.some_ne_none _)

theorem visitHead_cells {now : Int} {head head' : MessageSegmentList}
    (hvisit : visitHead now head = some head') : head'.cells = head.cells := by
  obtain ⟨_, rfl⟩ | ⟨_, _, rfl⟩ := visitHead_cases hvisit <;> rfl

theorem ReachableBuffer.sound {buf : SegmentBuffer} (h : ReachableBuffer buf) : buf.Sound := by
  induction h with
  | create => exact ⟨createSegmentBuffer_wellFormed, createSegmentBuffer_counted,
      fun _ _ hlookup => nomatch hlookup⟩
  | insert mallocs k c _ hafter ih => exact ih.insertWith hafter
  | @clear buf k _ hstored ih =>
      obtain ⟨_, hentries, _⟩ := clearSegmentList_entries buf k.1 k.2 hstored
      have hwell := clearSegmentList_wellFormed buf k.1 k.2 ih.wellFormed
      have hremoves : Removes buf
          { (clearSegmentList buf k.1 k.2).2 with count := buf.count - 1 } :=
        ih.counted.removes hentries rfl
      exact ⟨⟨hwell.placed, hwell.unique⟩, hremoves.counted ih.counted,
        SegmentBuffer.All.clearSegmentList ih.wellFormed ih.ascending k.1 k.2⟩
  | cleanup now size _ ih =>
      refine ⟨cleanupSegBuff_wellFormed ih.wellFormed now size,
        cleanupSegBuff_counted ih.wellFormed ih.counted now size,
        SegmentBuffer.All.cleanupSegBuff ih.wellFormed ih.ascending ?_ now size⟩
      intro now head head' hcells hvisit
      simp only [visitHead_cells hvisit]
      exact hcells
  | requestCleanup _ ih => exact ⟨⟨ih.wellFormed.placed, ih.wellFormed.unique⟩, ih.counted,
      ih.ascending⟩

theorem MessageKept.refl (head : MessageSegmentList) : MessageKept head head :=
  ⟨rfl, rfl, rfl, rfl, rfl, rfl, rfl⟩

theorem SegmentBuffer.raw_setChain (buf : SegmentBuffer) (i : Fin sizeBuf)
    (chain : List CollisionListCell) :
    buf.raw.setChain i (chain.map CollisionListCell.raw) = (buf.setChain i chain).raw := by
  unfold RawBuffer.setChain SegmentBuffer.setChain SegmentBuffer.raw
  congr 1
  funext j
  by_cases hj : j = i
  · subst hj
    simp only [Function.update_self, Option.map_some]
  · simp only [Function.update_of_ne hj]

/-- The list of a stored message is written into its cell. -/
theorem SegmentBuffer.raw_store_old (buf : SegmentBuffer) {k : MessageKey}
    (hfound : ChainedTable.find CollisionListCell.key k (buf.chain k.bucket) ≠ none)
    (head : MessageSegmentList) :
    buf.raw.setChain k.bucket (ChainedTable.adjust RawCell.key k (RawCell.withHead head)
      (buf.raw.chain k.bucket)) = (buf.store k head).raw := by
  rw [SegmentBuffer.store, storeHead, ChainedTable.upsert_of_find_some hfound,
    ← SegmentBuffer.raw_setChain, SegmentBuffer.raw_chain]
  congr 1
  exact (ChainedTable.map_adjust CollisionListCell.raw (fun _ => rfl) (fun _ => rfl) _).symm

/-- A new message gets a cell at the end. -/
theorem SegmentBuffer.raw_store_new (buf : SegmentBuffer) {k : MessageKey}
    (hnone : ChainedTable.find CollisionListCell.key k (buf.chain k.bucket) = none)
    (head : MessageSegmentList) :
    buf.raw.setChain k.bucket (buf.raw.chain k.bucket ++ [⟨k.1, k.2, some head⟩]) =
      (buf.store k head).raw := by
  rw [SegmentBuffer.store, storeHead, ChainedTable.upsert_of_find_none hnone,
    ← SegmentBuffer.raw_setChain, SegmentBuffer.raw_chain, List.map_append]
  rfl

/-- The call on a buffer in which every entry has its list. -/
theorem SegmentBuffer.raw_insertWith (mallocs : InsertMallocs) (buf : SegmentBuffer)
    (k : MessageKey) (c : InsertCall) :
    buf.raw.insertWith mallocs k c = some (buf.insertWith mallocs k c) := by
  have hbucket : (buf.raw.hashArray k.bucket = none ∧ mallocs.bucket = false) ↔
      (buf.hashArray k.bucket = none ∧ mallocs.bucket = false) := by
    simp only [SegmentBuffer.raw, Option.map_eq_none_iff]
  have hfind := buf.raw_find k
  have hlookup : buf.lookup k =
      (ChainedTable.find CollisionListCell.key k (buf.chain k.bucket)).map
        CollisionListCell.head := rfl
  simp only [RawBuffer.insertWith, SegmentBuffer.insertWith, hbucket]
  by_cases hnull : buf.hashArray k.bucket = none ∧ mallocs.bucket = false
  · rw [if_pos hnull, if_pos hnull]
  · rw [if_neg hnull, if_neg hnull, SegmentBuffer.lookup_setChain_self, hlookup, hfind]
    cases hfound : ChainedTable.find CollisionListCell.key k (buf.chain k.bucket) with
    | some cell =>
        have hstored : ChainedTable.find CollisionListCell.key k (buf.chain k.bucket) ≠ none := by
          rw [hfound]
          exact Option.some_ne_none _
        simp only [Option.map_some, CollisionListCell.raw, buf.raw_store_old hstored,
          SegmentBuffer.store_setChain_self]
    | none =>
        have hlinked : ¬ buf.raw.linked k.bucket = false := fun h => by cases h
        have hsame : buf.raw.setChain k.bucket (buf.raw.chain k.bucket) =
            (buf.setChain k.bucket (buf.chain k.bucket)).raw := by
          rw [SegmentBuffer.raw_chain, SegmentBuffer.raw_setChain]
        simp only [Option.map_none, if_neg hlinked]
        by_cases hcell : mallocs.collisionCell = false
        · rw [if_pos hcell, if_pos hcell, hsame]
        · rw [if_neg hcell, if_neg hcell]
          by_cases hlist : mallocs.messageList = false
          · rw [if_pos hlist, if_pos hlist, ← hsame]
            simp only [RawBuffer.withoutList, RawBuffer.setChain, RawBuffer.chain,
              Function.update_self, Option.getD_some, Function.update_idem]
          · have hstore : ({ buf.setChain k.bucket (buf.chain k.bucket) with
                count := buf.count + 1 } : SegmentBuffer).store k
                (insertIntoMslWith mallocs (createMessageSegmentList k.1 k.2) c).2 =
                { buf with count := buf.count + 1 }.store k
                  (insertIntoMslWith mallocs (createMessageSegmentList k.1 k.2) c).2 :=
              SegmentBuffer.store_setChain_self { buf with count := buf.count + 1 } k _
            rw [if_neg hlist, if_neg hlist, buf.raw_store_new hfound]
            exact congrArg (fun b : SegmentBuffer => some (_, b.raw)) hstore.symm

/-- What a call does to any buffer, if it has a result. -/
theorem RawBuffer.insertWith_eq_some {mallocs : InsertMallocs} {buf after : RawBuffer}
    {k : MessageKey} {c : InsertCall} {code : Int}
    (hresult : buf.insertWith mallocs k c = some (code, after)) :
    ((buf.hashArray k.bucket = none ∧ mallocs.bucket = false) ∧ code = -3 ∧ after = buf) ∨
    ¬ (buf.hashArray k.bucket = none ∧ mallocs.bucket = false) ∧
      ((∃ cell head, buf.lookup k = some cell ∧ cell.head = some head ∧
        code = (insertIntoMslWith mallocs head c).1 ∧
        after = buf.setChain k.bucket (ChainedTable.adjust RawCell.key k
          (RawCell.withHead (insertIntoMslWith mallocs head c).2) (buf.chain k.bucket))) ∨
      (buf.lookup k = none ∧ buf.linked k.bucket = true ∧
        ((mallocs.collisionCell = false ∧ code = -3 ∧
          after = buf.setChain k.bucket (buf.chain k.bucket)) ∨
        (mallocs.collisionCell = true ∧ mallocs.messageList = false ∧ code = -3 ∧
          after = buf.withoutList k) ∨
        (mallocs.collisionCell = true ∧ mallocs.messageList = true ∧
          code = (insertIntoMslWith mallocs (createMessageSegmentList k.1 k.2) c).1 ∧
          after = { buf.setChain k.bucket (buf.chain k.bucket ++ [⟨k.1, k.2,
            some (insertIntoMslWith mallocs (createMessageSegmentList k.1 k.2) c).2⟩]) with
            count := buf.count + 1 })))) := by
  simp only [RawBuffer.insertWith] at hresult
  by_cases hbucket : buf.hashArray k.bucket = none ∧ mallocs.bucket = false
  · rw [if_pos hbucket] at hresult
    obtain ⟨rfl, rfl⟩ := Prod.mk.inj (Option.some.inj hresult)
    exact Or.inl ⟨hbucket, rfl, rfl⟩
  · rw [if_neg hbucket] at hresult
    refine Or.inr ⟨hbucket, ?_⟩
    cases hfound : buf.lookup k with
    | some cell =>
        left
        have hfind : ChainedTable.find RawCell.key k (buf.chain k.bucket) = some cell := hfound
        rw [hfind] at hresult
        obtain ⟨head, hhead, heq⟩ := Option.map_eq_some_iff.mp hresult
        obtain ⟨rfl, rfl⟩ := Prod.mk.inj heq
        exact ⟨cell, head, rfl, hhead, rfl, rfl⟩
    | none =>
        right
        have hfind : ChainedTable.find RawCell.key k (buf.chain k.bucket) = none := hfound
        rw [hfind] at hresult
        simp only at hresult
        by_cases hlinked : buf.linked k.bucket = false
        · rw [if_pos hlinked] at hresult
          cases hresult
        · rw [if_neg hlinked] at hresult
          refine ⟨rfl, by simpa using hlinked, ?_⟩
          by_cases hcell : mallocs.collisionCell = false
          · rw [if_pos hcell] at hresult
            obtain ⟨rfl, rfl⟩ := Prod.mk.inj (Option.some.inj hresult)
            exact Or.inl ⟨hcell, rfl, rfl⟩
          · rw [if_neg hcell] at hresult
            right
            by_cases hlist : mallocs.messageList = false
            · rw [if_pos hlist] at hresult
              obtain ⟨rfl, rfl⟩ := Prod.mk.inj (Option.some.inj hresult)
              exact Or.inl ⟨by simpa using hcell, hlist, rfl, rfl⟩
            · rw [if_neg hlist] at hresult
              obtain ⟨rfl, rfl⟩ := Prod.mk.inj (Option.some.inj hresult)
              exact Or.inr ⟨by simpa using hcell, by simpa using hlist, rfl, rfl⟩

/-- A call fails exactly if an allocation that it comes to does. -/
theorem RawBuffer.insertWith_code_iff {mallocs : InsertMallocs} {buf after : RawBuffer}
    {k : MessageKey} {c : InsertCall} (hoptions : c.options ≠ none) {code : Int}
    (hresult : buf.insertWith mallocs k c = some (code, after)) :
    (code = -3 ∨ code = -4) ↔ buf.Fails mallocs k c := by
  unfold RawBuffer.Fails
  rcases RawBuffer.insertWith_eq_some hresult with ⟨hbucket, rfl, _⟩ | ⟨hbucket, hcase⟩
  · have hnone : buf.lookup k = none := by
      rw [RawBuffer.lookup, ChainedTable.lookup, RawBuffer.chain, hbucket.1]
      rfl
    rw [hnone]
    exact iff_of_true (Or.inl rfl) (Or.inl hbucket)
  · rcases hcase with ⟨cell, head, hfound, hhead, rfl, _⟩ | ⟨hnone, hlinked, hcase⟩
    · rw [insertIntoMslWith_code_iff mallocs head hoptions, hfound, Option.map_some, hhead]
    · rw [hnone]
      rcases hcase with ⟨hcell, rfl, _⟩ | ⟨_, hlist, rfl, _⟩ | ⟨hcell, hlist, rfl, _⟩
      · exact iff_of_true (Or.inl rfl) (Or.inr ⟨hlinked, Or.inl hcell⟩)
      · exact iff_of_true (Or.inl rfl) (Or.inr ⟨hlinked, Or.inr (Or.inl hlist)⟩)
      · rw [insertIntoMslWith_code_iff mallocs _ hoptions]
        have hnew : ¬ (createMessageSegmentList k.1 k.2).StopsAt c := fun h => by cases h
        have hnull : (createMessageSegmentList k.1 k.2).optionsHead = none := rfl
        simp [hnew, hnull, hbucket, hlinked, hcell, hlist]

/-- A call that comes to a failing allocation has a result. -/
theorem RawBuffer.Fails.insertWith_isSome {mallocs : InsertMallocs} {buf : RawBuffer}
    {k : MessageKey} {c : InsertCall} (h : buf.Fails mallocs k c) :
    (buf.insertWith mallocs k c).isSome = true := by
  unfold RawBuffer.Fails at h
  simp only [RawBuffer.insertWith]
  by_cases hbucket : buf.hashArray k.bucket = none ∧ mallocs.bucket = false
  · rw [if_pos hbucket]
    rfl
  · rw [if_neg hbucket]
    cases hfound : buf.lookup k with
    | some cell =>
        have hfind : ChainedTable.find RawCell.key k (buf.chain k.bucket) = some cell := hfound
        rw [hfound, Option.map_some] at h
        cases hhead : cell.head with
        | none =>
            rw [hhead] at h
            exact h.elim
        | some head =>
            rw [hfind]
            simp only [hhead, Option.map_some, Option.isSome_some]
    | none =>
        have hfind : ChainedTable.find RawCell.key k (buf.chain k.bucket) = none := hfound
        rw [hfound] at h
        have hlinked := (h.resolve_left hbucket).1
        rw [hfind]
        simp only [hlinked, reduceCtorEq, if_false]
        split
        · rfl
        · split <;> rfl

/-- No call gives an entry its missing list. -/
theorem RawBuffer.LacksList.insertWith {mallocs : InsertMallocs} {buf after : RawBuffer}
    (h : buf.LacksList) {k : MessageKey} {c : InsertCall} {code : Int}
    (hresult : buf.insertWith mallocs k c = some (code, after)) : after.LacksList := by
  obtain ⟨i, cell, hcell, hnull⟩ := h
  have hother (chain : List RawCell) (hi : i = k.bucket → cell ∈ chain) :
      (buf.setChain k.bucket chain).LacksList := by
    refine ⟨i, cell, ?_, hnull⟩
    by_cases heq : i = k.bucket
    · subst heq
      simp only [RawBuffer.chain, RawBuffer.setChain, Function.update_self, Option.getD_some]
      exact hi rfl
    · simp only [RawBuffer.chain, RawBuffer.setChain, Function.update_of_ne heq]
      exact hcell
  rcases RawBuffer.insertWith_eq_some hresult with ⟨_, _, rfl⟩ | ⟨_, hcase⟩
  · exact ⟨i, cell, hcell, hnull⟩
  · rcases hcase with ⟨found, head, hfound, hhead, _, rfl⟩ | ⟨_, _, hcase⟩
    · apply hother
      rintro rfl
      apply ChainedTable.mem_adjust_of_find_ne hcell
      intro hsame
      have heq : found = cell := Option.some.inj (hfound.symm.trans hsame)
      rw [← heq, hhead] at hnull
      cases hnull
    · rcases hcase with ⟨_, _, rfl⟩ | ⟨_, _, _, rfl⟩ | ⟨_, _, _, rfl⟩
      · exact hother _ (fun heq => heq ▸ hcell)
      · exact buf.withoutList_lacksList k
      · exact hother _ (fun heq => List.mem_append_left _ (heq ▸ hcell))

/-- Where every entry has its list, a call that returns `-3` or `-4` leaves the
messages, the counter and the entries intact exactly if it fails harmlessly. -/
theorem SegmentBuffer.insertWith_intact_iff {buf : SegmentBuffer} (hreachable : ReachableBuffer buf)
    (mallocs : InsertMallocs) (k : MessageKey) (c : InsertCall) (hoptions : c.options ≠ none) :
    ((buf.insertWith mallocs k c).1 = -3 ∨ (buf.insertWith mallocs k c).1 = -4 →
        Intact buf.raw (buf.insertWith mallocs k c).2) ↔
      buf.raw.FailsHarmlessly mallocs k c := by
  have h := hreachable.sound
  have hnull : buf.raw.hashArray k.bucket = none ↔ buf.hashArray k.bucket = none := by
    simp only [SegmentBuffer.raw, Option.map_eq_none_iff]
  unfold RawBuffer.FailsHarmlessly
  rw [buf.raw_lookup, hnull]
  rcases SegmentBuffer.insertWith_cases mallocs buf k c with ⟨hnull, hmalloc, hresult⟩ |
    ⟨hnew, hmalloc, hresult⟩ | ⟨hnew, hbucket, hcell, hlist, hresult⟩ |
    ⟨hnew, hlist, hresult⟩ | ⟨head, hfound, hresult⟩
  · have hnew := buf.lookup_of_null k hnull
    rw [hresult, hnew]
    refine iff_of_true (fun _ => (intact_raw_iff h.counted).mpr ?_) (Or.inl ⟨hnull, hmalloc⟩)
    exact fun j head hstored => ⟨head, hstored, MessageKept.refl head⟩
  · rw [hresult, hnew]
    refine iff_of_true (fun _ => (intact_raw_iff (h.setChain_self _).counted).mpr ?_)
      (Or.inr (Or.inl hmalloc))
    exact fun j head hstored =>
      ⟨head, (buf.lookup_setChain_self _ j).trans hstored, MessageKept.refl head⟩
  · rw [hresult, hnew]
    refine iff_of_false (fun hintact => ?_) ?_
    · exact (hintact (Or.inl rfl)).usable
        ((buf.setChain k.bucket (buf.chain k.bucket)).raw.withoutList_lacksList k)
    · rintro (hfailed | hfailed | hfailed)
      · exact hbucket hfailed
      · rw [hcell] at hfailed
        cases hfailed
      · rw [hlist] at hfailed
        cases hfailed
  · have hsound := h.store_new (k := k) (insertIntoMslWith_ascending (c := c) mallocs
      (createMessageSegmentList_ascending k.1 k.2)) hnew
    rw [hresult, hnew]
    refine iff_of_true (fun _ => (intact_raw_iff hsound.counted).mpr ?_) (Or.inr (Or.inr hlist))
    intro j head hstored
    have hother : j ≠ k := by
      rintro rfl
      rw [hnew] at hstored
      cases hstored
    refine ⟨head, ?_, MessageKept.refl head⟩
    rw [SegmentBuffer.store_lookup, if_neg hother]
    exact hstored
  · have hcells := h.ascending k head hfound
    have hsound := h.store_old (k := k) (insertIntoMslWith_ascending (c := c) mallocs hcells)
      (by rw [hfound]; exact Option.some_ne_none _)
    rw [hresult, hfound]
    refine Iff.trans (imp_congr_right (fun _ => (intact_raw_iff hsound.counted).trans ?_))
      (insertIntoMslWith_kept_iff mallocs hcells hoptions)
    constructor
    · intro hkept
      obtain ⟨head', hstored, hsame⟩ := hkept k head hfound
      rw [SegmentBuffer.store_lookup, if_pos rfl] at hstored
      rwa [Option.some.inj hstored]
    · intro hkept j other hstored
      rw [SegmentBuffer.store_lookup]
      by_cases hj : j = k
      · subst hj
        rw [if_pos rfl]
        obtain rfl := Option.some.inj (hfound.symm.trans hstored)
        exact ⟨_, rfl, hkept⟩
      · rw [if_neg hj]
        exact ⟨other, hstored, MessageKept.refl other⟩

/-- A call that returns `-3` or `-4` leaves the messages, the counter and the
entries intact exactly if every entry has its list and the call fails harmlessly.
Where an entry lacks its list, no call that fails does. -/
theorem insert_intact_iff {raw : RawBuffer} (hraw : raw.MayOccur) (mallocs : InsertMallocs)
    (k : MessageKey) (c : InsertCall) (hoptions : c.options ≠ none) :
    (∀ code after, raw.insertWith mallocs k c = some (code, after) →
      code = -3 ∨ code = -4 → Intact raw after) ↔
    (raw.LacksList → ¬ raw.Fails mallocs k c) ∧
      (¬ raw.LacksList → raw.FailsHarmlessly mallocs k c) := by
  rcases hraw with hlacks | ⟨buf, hreachable, rfl⟩
  · constructor
    · intro hintact
      refine ⟨fun _ hfails => ?_, fun hnot => absurd hlacks hnot⟩
      obtain ⟨⟨code, after⟩, hresult⟩ := Option.isSome_iff_exists.mp hfails.insertWith_isSome
      have hcode := (RawBuffer.insertWith_code_iff hoptions hresult).mpr hfails
      exact (hintact code after hresult hcode).usable (hlacks.insertWith hresult)
    · rintro ⟨hnot, _⟩ code after hresult hcode
      exact absurd ((RawBuffer.insertWith_code_iff hoptions hresult).mp hcode) (hnot hlacks)
  · have hintact := SegmentBuffer.insertWith_intact_iff hreachable mallocs k c hoptions
    constructor
    · intro h
      refine ⟨fun hlacks => absurd hlacks buf.raw_lists, fun _ => hintact.mp ?_⟩
      exact h _ _ (buf.raw_insertWith mallocs k c)
    · rintro ⟨_, hharmless⟩ code after hresult hcode
      rw [SegmentBuffer.raw_insertWith] at hresult
      have heq := Option.some.inj hresult
      have hafter := hintact.mpr (hharmless buf.raw_lists)
      rw [heq] at hafter
      exact hafter hcode

/-- A first segment of one byte. -/
def oneByteSegment : InsertCall := ⟨0, 0, 1, [7], some []⟩

/-- A first segment that fails in the options of its new message. -/
theorem insert_intact_iff_first_segment :
    let raw := createSegmentBuffer.raw
    let mallocs := { InsertMallocs.all with optionsHead := false }
    (∀ code after, raw.insertWith mallocs (0, 0) oneByteSegment = some (code, after) →
      code = -3 ∨ code = -4 → Intact raw after) ↔
    (raw.LacksList → ¬ raw.Fails mallocs (0, 0) oneByteSegment) ∧
      (¬ raw.LacksList → raw.FailsHarmlessly mallocs (0, 0) oneByteSegment) :=
  insert_intact_iff (Or.inr ⟨createSegmentBuffer, ReachableBuffer.create, rfl⟩) _ (0, 0)
    oneByteSegment (Option.some_ne_none _)

/-- A message whose list cannot be allocated stays behind as an entry without one. -/
theorem insert_without_list :
    ¬ ∀ buf, ReachableBuffer buf → ∀ (mallocs : InsertMallocs) (k : MessageKey) (c : InsertCall),
      c.options ≠ none →
      ∀ code after, buf.raw.insertWith mallocs k c = some (code, after) →
        code = -3 ∨ code = -4 → Intact buf.raw after := by
  intro hintact
  have hfailed := hintact createSegmentBuffer .create
    { InsertMallocs.all with messageList := false } (0, 0) oneByteSegment
    (Option.some_ne_none _) _ _ rfl (Or.inl rfl)
  exact hfailed.usable (createSegmentBuffer.raw.withoutList_lacksList (0, 0))

end UdpNotif
