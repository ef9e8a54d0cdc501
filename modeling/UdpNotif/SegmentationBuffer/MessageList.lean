import UdpNotif.Utils.Types
import UdpNotif.Lib.SortedKeys

/-!
The list of received segments of one message: `append_options`,
`insert_into_msl`, `create_message_segment_list` and `reassemble_payload` of
`segmentation_buffer.c`.

`struct message_segment_list_cell` serves the source twice, for the header cell
of a message and for the cells behind it; here these are two structures, each
with the fields the source uses in that role. Allocations succeed, except where
a size is not bounded: the allocation of a reassembled payload is left to the
caller.
-/

namespace UdpNotif

/-- A cell behind the header cell: one stored segment. -/
structure MessageSegmentCell where
  seqnum : Uint32
  content : List Uint8
  contentSize : Uint32
deriving DecidableEq, Repr

/-- The header cell of a message and the cells behind it. `optionsHead` is
`none` for `NULL` and otherwise the nodes behind the empty head node;
`optionsTail` points at the head node or at one of these nodes, counted from
the head node. -/
structure MessageSegmentList where
  totalSize : Uint32
  currentSize : Uint32
  totalPayloadByteSize : Uint32
  odid : Uint32
  mid : Uint32
  cells : List MessageSegmentCell
  optionsHead : Option (List UnyteOption)
  optionsTail : Nat
  optionsLength : Uint32
  toCleanUp : Bool
  timestamp : Int
deriving DecidableEq, Repr

/-- `create_message_segment_list` -/
def createMessageSegmentList (odid mid : Uint32) : MessageSegmentList where
  totalSize := 0
  currentSize := 0
  totalPayloadByteSize := 0
  odid := odid
  mid := mid
  cells := []
  optionsHead := none
  optionsTail := 0
  optionsLength := 0
  toCleanUp := false
  timestamp := 0

/-- Append a list of options behind the tail of `head`; `none` is `NULL`. -/
def appendOptions (head : MessageSegmentList) (options : Option (List UnyteOption)) :
    Int × MessageSegmentList :=
  match options with
  | none => (-2, head)
  | some added =>
      -- a new empty head node becomes head and tail where there was none
      let chain := head.optionsHead.getD []
      let tail := if head.optionsHead = none then 0 else head.optionsTail
      (0, { head with
        -- writing the tail's `next` drops whatever came after the tail
        optionsHead := some (if added = [] then chain else chain.take tail ++ added)
        optionsTail := tail + added.length
        optionsLength := head.optionsLength + optionsTotalBytes added })

/-- The test for completeness at every exit of `insert_into_msl`. -/
def MessageSegmentList.complete (head : MessageSegmentList) : Bool :=
  0 < head.totalSize && head.currentSize == head.totalSize

/-- What `insert_into_msl` does once the new cell is linked, the same at the
end and in the middle of the list. -/
def linkSegment (head : MessageSegmentList) (cells : List MessageSegmentCell)
    (payloadSize : Uint32) (options : Option (List UnyteOption)) :
    Int × MessageSegmentList :=
  let (res, head) := appendOptions { head with
    cells
    currentSize := head.currentSize + 1
    totalPayloadByteSize := head.totalPayloadByteSize + payloadSize } options
  (if res < 0 then -4 else if head.complete then 1 else 0, head)

/-- Insert a content in a message segment list, maintaining order among the
contents based on `seqnum`. -/
def insertIntoMsl (head : MessageSegmentList) (seqnum : Uint32) (last : Int)
    (payloadSize : Uint32) (content : List Uint8)
    (options : Option (List UnyteOption)) : Int × MessageSegmentList :=
  let head := if last = 1 then { head with totalSize := seqnum + 1 } else head
  -- the cells passed by the search for the insert location, and those left
  let passed := head.cells.takeWhile (fun c => c.seqnum < seqnum)
  let cell : MessageSegmentCell := { seqnum, content, contentSize := payloadSize }
  match head.cells.dropWhile (fun c => c.seqnum < seqnum) with
  | [] => linkSegment head (passed ++ [cell]) payloadSize options
  | c :: rest =>
      if c.seqnum = seqnum then
        (if head.complete then -2 else -1, head)
      else linkSegment head (passed ++ cell :: c :: rest) payloadSize options

/-- Reassemble the payload of a segment list; `malloc` tells whether the buffer
of that many bytes could be allocated. -/
def reassemblePayload (malloc : Nat → Bool) (msgSegList : MessageSegmentList) :
    Option (List Uint8) :=
  if malloc msgSegList.totalPayloadByteSize.toNat then
    some (msgSegList.cells.flatMap (fun c => c.content.take c.contentSize.toNat))
  else none

/-- The arguments of one call of `insert_into_msl`. -/
structure InsertCall where
  seqnum : Uint32
  last : Int
  payloadSize : Uint32
  content : List Uint8
  options : Option (List UnyteOption)
deriving DecidableEq, Repr

namespace InsertCall

/-- The number of the segment a call offers. -/
def number (c : InsertCall) : Nat := c.seqnum.toNat

/-- The cell a call stores if it is accepted. -/
def cell (c : InsertCall) : MessageSegmentCell := ⟨c.seqnum, c.content, c.payloadSize⟩

/-- The call on a message list: its return code and the list after it. -/
def apply (head : MessageSegmentList) (c : InsertCall) : Int × MessageSegmentList :=
  insertIntoMsl head c.seqnum c.last c.payloadSize c.content c.options

/-- The accepted calls of a sequence: the first one with every number. -/
def accepted (calls : List InsertCall) : List InsertCall := SortedKeys.firsts number calls

/-- The option lists handed over by the accepted calls, in their order. -/
def spliced (calls : List InsertCall) : List (List UnyteOption) :=
  (accepted calls).filterMap options

/-- The message size told by the latest call with the last flag, 0 if none. -/
def announcedTotal (calls : List InsertCall) : Uint32 :=
  calls.foldl (fun total c => if c.last = 1 then c.seqnum + 1 else total) 0

@[simp] theorem number_cell (c : InsertCall) : c.cell.seqnum.toNat = c.number := rfl

/-- The list once the last flag has told its total size. -/
theorem announce_eq (c : InsertCall) (head : MessageSegmentList) :
    (if c.last = 1 then { head with totalSize := c.seqnum + 1 } else head) =
      { head with totalSize := if c.last = 1 then c.seqnum + 1 else head.totalSize } := by
  split <;> rfl

/-- A call does not look at the marks and leaves them as they are. -/
theorem apply_marks (c : InsertCall) (head : MessageSegmentList) (toCleanUp : Bool)
    (timestamp : Int) :
    c.apply { head with toCleanUp, timestamp } =
      ((c.apply head).1, { (c.apply head).2 with toCleanUp, timestamp }) := by
  have hlink (head : MessageSegmentList) (cells : List MessageSegmentCell) :
      linkSegment { head with toCleanUp, timestamp } cells c.payloadSize c.options =
        ((linkSegment head cells c.payloadSize c.options).1,
          { (linkSegment head cells c.payloadSize c.options).2 with toCleanUp, timestamp }) := by
    cases c.options <;> rfl
  unfold apply insertIntoMsl
  by_cases hlast : c.last = 1
  · simp only [if_pos hlast]
    split
    · exact hlink { head with totalSize := c.seqnum + 1 } _
    · split
      · rfl
      · exact hlink { head with totalSize := c.seqnum + 1 } _
  · simp only [if_neg hlast]
    split
    · exact hlink head _
    · split
      · rfl
      · exact hlink head _

theorem announcedTotal_concat (calls : List InsertCall) (c : InsertCall) :
    announcedTotal (calls ++ [c]) = if c.last = 1 then c.seqnum + 1 else announcedTotal calls := by
  rw [announcedTotal, List.foldl_append]
  rfl

/-- No total is known before a call with the last flag. -/
theorem announcedTotal_eq_zero {calls : List InsertCall} (h : ∀ c ∈ calls, c.last ≠ 1) :
    announcedTotal calls = 0 := by
  induction calls using List.reverseRecOn with
  | nil => rfl
  | append_singleton calls c ih =>
      rw [announcedTotal_concat, if_neg (h c (by simp))]
      exact ih (fun d hd => h d (List.mem_append_left [c] hd))

theorem accepted_concat_old {calls : List InsertCall} {c : InsertCall}
    (h : c.number ∈ calls.map number) : accepted (calls ++ [c]) = accepted calls := by
  rw [accepted, SortedKeys.firsts_concat,
    if_pos ((SortedKeys.mem_keys_firsts number calls _).mpr h), accepted]

theorem accepted_concat_new {calls : List InsertCall} {c : InsertCall}
    (h : c.number ∉ calls.map number) : accepted (calls ++ [c]) = accepted calls ++ [c] := by
  rw [accepted, SortedKeys.firsts_concat,
    if_neg (fun hmem => h ((SortedKeys.mem_keys_firsts number calls _).mp hmem)), accepted]

end InsertCall

end UdpNotif
