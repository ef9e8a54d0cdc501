import UdpNotif.Utils.Parse
import UdpNotif.SegmentationBuffer.Cleanup
import UdpNotif.Lib.Runs

/-!
The parser worker: `create_assembled_msg` and one iteration of the loop of
`parser` in `parsing_worker.c`. Writing to the output queue is left to the
caller; an iteration names the message it hands to that queue. A payload of
more than 65535 bytes may fail to be allocated, which `malloc` decides.
-/

namespace UdpNotif

/-- `copy_unyte_seg_met_headers` -/
def copyUnyteSegMetHeaders (dest src : UnyteHeader) : UnyteHeader :=
  { dest with
    mediaType := src.mediaType
    observationDomainId := src.observationDomainId
    headerLength := src.headerLength
    messageId := src.messageId
    messageLength := src.messageLength
    space := src.space
    version := src.version }

/-- A header in fresh memory. -/
def UnyteHeader.allocated : UnyteHeader where
  version := 0
  space := 0
  mediaType := 0
  headerLength := 0
  messageLength := 0
  observationDomainId := 0
  messageId := 0
  segmentation := none
  options := []

/-- The message assembled from a payload and a list of options. Its header and
metadata are those of the segment that completed it, with new lengths. -/
def assembledMsg (payload : List Uint8) (srcParsedSegment : UnyteSegMet)
    (totalPayloadByteSize : Uint16) (options : List UnyteOption)
    (optionsLength : Uint32) : UnyteSegMet where
  header := { copyUnyteSegMetHeaders .allocated srcParsedSegment.header with
    -- both lengths are sums in 32 bits, cut to their fields
    headerLength := (BitVec.ofNat 32 headerBytes + optionsLength).setWidth 8
    messageLength := (BitVec.ofNat 32 headerBytes + optionsLength +
      totalPayloadByteSize.setWidth 32).setWidth 16
    options }
  payload
  metadata := srcParsedSegment.metadata

/-- Assembles a message from all segments. The result is `null` if the payload
could not be allocated, and `undefined` if there is no list of options to take
over. -/
def createAssembledMsg (completeMsg : Option (List Uint8)) (srcParsedSegment : UnyteSegMet)
    (totalPayloadByteSize : Uint16) (optionsHead : Option (List UnyteOption))
    (optionsLength : Uint32) : ParseResult :=
  match completeMsg, optionsHead with
  | none, _ => .null
  | some _, none => .undefined
  | some payload, some options =>
      .ok (assembledMsg payload srcParsedSegment totalPayloadByteSize options optionsLength)

/-- What the parser keeps between iterations. -/
structure ParserState where
  segmentBuff : SegmentBuffer
  maxMallocErrs : Int

/-- The state in which a parser starts. -/
def ParserState.init : ParserState := ⟨createSegmentBuffer, 3⟩

/-- How one iteration of the parser ends: it hangs in the parse function, it
reads what it must not, it takes the `return -1` exit, or it goes on to the
next element, having handed over at most one message. -/
inductive ParserOutcome where
  | diverges
  | undefined
  | stopped
  | continued (state : ParserState) (written : Option UnyteSegMet)

/-- The clean up at the end of an iteration. -/
def cleanupIfDue (now : Int) (buf : SegmentBuffer) : SegmentBuffer :=
  if buf.cleanup && BitVec.ofNat 32 cleanCountMax < buf.count then
    cleanupSegBuff now buf cleanUpPassSize
  else buf

/-- The buffer behind the label `clear_and_cleanup_buffer`. -/
def clearMessage (buf : SegmentBuffer) (odid mid : Uint32) : SegmentBuffer :=
  let buf := (clearSegmentList buf odid mid).2
  { buf with count := buf.count - 1 }

/-- `message_length - header_length`, as the `uint32_t` handed to `insert_segment`. -/
def UnyteHeader.payloadSize (header : UnyteHeader) : Uint32 :=
  header.messageLength.setWidth 32 - header.headerLength.setWidth 32

/-- The call of `insert_into_msl` for a parsed segment. -/
def segmentCall (parsed : UnyteSegMet) (seg : UnyteSegmentation) : InsertCall where
  seqnum := seg.fNum.setWidth 32
  last := seg.fLast.toNat
  payloadSize := parsed.header.payloadSize
  content := parsed.payload
  options := some parsed.header.options

/-- The branch of the parser for a segmented message, from the return code of
`insert_segment` on. -/
def finishSegment (malloc : Nat → Bool) (now : Int) (st : ParserState) (parsed : UnyteSegMet)
    (insertRes : Int) (buf : SegmentBuffer) : ParserOutcome :=
  let odid := parsed.header.observationDomainId
  let mid := parsed.header.messageId
  let maxMallocErrs := if insertRes = -3 then st.maxMallocErrs - 1 else st.maxMallocErrs
  if insertRes = -1 then
    -- content was already present for this seqnum
    .continued { st with segmentBuff := buf } none
  else if insertRes = -3 ∧ maxMallocErrs ≤ 0 then .stopped
  else
    let st : ParserState := { segmentBuff := buf, maxMallocErrs }
    if insertRes = 1 ∨ insertRes = -2 then
      match getSegmentList buf odid mid with
      | none => .undefined
      | some msgSegList =>
          match createAssembledMsg (reassemblePayload malloc msgSegList) parsed
            (msgSegList.totalPayloadByteSize.setWidth 16) msgSegList.optionsHead
            msgSegList.optionsLength with
          | .ok parsedMsg => .continued { st with
              segmentBuff := cleanupIfDue now (clearMessage buf odid mid) } (some parsedMsg)
          | .null => .continued { st with
              segmentBuff := cleanupIfDue now (clearMessage buf odid mid) } none
          | .undefined | .diverges => .undefined
    else .continued { st with segmentBuff := cleanupIfDue now buf } none

/-- The branch of the parser for a segmented message. -/
def parseSegmented (malloc : Nat → Bool) (now : Int) (st : ParserState)
    (parsed : UnyteSegMet) (seg : UnyteSegmentation) : ParserOutcome :=
  let call := segmentCall parsed seg
  let inserted := insertSegment st.segmentBuff parsed.header.observationDomainId
    parsed.header.messageId call.seqnum call.last call.payloadSize call.content call.options
  finishSegment malloc now st parsed inserted.1 inserted.2

/-- What an iteration does with a parsed segment. -/
def handleParsed (malloc : Nat → Bool) (now : Int) (st : ParserState)
    (parsed : UnyteSegMet) : ParserOutcome :=
  if isSegmented parsed.header then
    match parsed.header.segmentation with
    | none => .undefined
    | some seg => parseSegmented malloc now st parsed seg
  else .continued st (some parsed)

/-- The function a parser parses with. -/
def parseFunc (legacyProto : Bool) : List Uint8 → UnyteMin → ParseResult :=
  if legacyProto then parseWithMetadataLegacy else parseWithMetadata

/-- One iteration of the loop of `parser`. -/
def parserIteration (legacyProto : Bool) (malloc : Nat → Bool) (now : Int) (st : ParserState)
    (queueData : UnyteMin) : ParserOutcome :=
  match parseFunc legacyProto queueData.buffer.val queueData with
  | .diverges => .diverges
  | .undefined => .undefined
  | .null => .stopped
  | .ok parsed => handleParsed malloc now st parsed

theorem parserIteration_ok {legacyProto : Bool} {malloc : Nat → Bool} {now : Int}
    {st : ParserState} {queueData : UnyteMin} {parsed : UnyteSegMet}
    (h : parseFunc legacyProto queueData.buffer.val queueData = .ok parsed) :
    parserIteration legacyProto malloc now st queueData = handleParsed malloc now st parsed := by
  rw [parserIteration, h]

/-- What happens to a parser: it takes an element off its queue, or the clean up
thread asks it for a pass. -/
inductive ParserEvent where
  | packet (queueData : UnyteMin) (malloc : Nat → Bool) (now : Int)
  | requestCleanup

/-- The steps of a parser that goes on. -/
def ParserStep (legacyProto : Bool) (s : ParserState) (l : ParserEvent) (s' : ParserState) :
    Prop :=
  match l with
  | .packet queueData malloc now =>
      ∃ written, parserIteration legacyProto malloc now s queueData = .continued s' written
  | .requestCleanup => s' = { s with segmentBuff := s.segmentBuff.requestCleanup }

/-- The state of a parser that goes on. -/
def ParserState.next (legacyProto : Bool) (s : ParserState) : ParserEvent → Option ParserState
  | .packet queueData malloc now =>
      match parserIteration legacyProto malloc now s queueData with
      | .continued s' _ => some s'
      | .diverges | .undefined | .stopped => none
  | .requestCleanup => some { s with segmentBuff := s.segmentBuff.requestCleanup }

theorem ParserState.step_of_next {legacyProto : Bool} {s s' : ParserState} {l : ParserEvent}
    (h : s.next legacyProto l = some s') : ParserStep legacyProto s l s' := by
  cases l with
  | requestCleanup => exact (Option.some.inj h).symm
  | packet queueData malloc now =>
      rw [ParserState.next] at h
      split at h
      · rename_i state written hiteration
        obtain rfl := Option.some.inj h
        exact ⟨written, hiteration⟩
      · cases h
      · cases h
      · cases h

/-- The states a parser can be in. -/
def ParserState.Reachable (legacyProto : Bool) (s : ParserState) : Prop :=
  ∃ ls, Runs.Run (ParserStep legacyProto) .init ls s

end UdpNotif
