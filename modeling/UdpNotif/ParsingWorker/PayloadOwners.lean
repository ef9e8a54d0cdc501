import UdpNotif.ParsingWorker.FailedMallocs
import UdpNotif.SegmentationBuffer.StoredPayloads

/-!
What becomes of the blocks of payloads in the loop of `parser`, where any of its
allocations may fail. A block is held by the segment buffer, handed to the output queue,
freed, or out of reach: the parser frees neither the payload of a repeated segment of a
complete message nor, where an allocation has failed, what was not linked.
-/

namespace UdpNotif

open Runs

/-- What becomes of the payloads of parsed segments and of reassembled messages. -/
structure PayloadFlow where
  allocated : Payloads := 0
  freed : Payloads := 0
  /-- The payloads of messages that are handed to the output queue. -/
  written : Payloads := 0
  /-- The payloads of segments that repeat one of a complete message. -/
  repeated : Payloads := 0
  /-- What is lost because an allocation failed. -/
  lost : Payloads := 0

instance : Zero PayloadFlow := ⟨{}⟩

instance : Add PayloadFlow :=
  ⟨fun f g => ⟨f.allocated + g.allocated, f.freed + g.freed, f.written + g.written,
    f.repeated + g.repeated, f.lost + g.lost⟩⟩

/-- The blocks that the parser is done with. -/
def PayloadFlow.gone (f : PayloadFlow) : Payloads := f.freed + f.written + f.repeated + f.lost

/-- The payloads that the clean up at the end of an iteration frees. -/
def RawBuffer.cleanupIfDueFrees (now : Int) (buf : RawBuffer) : Payloads :=
  if buf.cleanup && BitVec.ofNat 32 cleanCountMax < buf.count then
    buf.cleanupFrees now cleanUpPassSize
  else 0

/-- What becomes of payloads from the return code of `insert_segment` on. -/
def finishSegmentFlow (mallocs : ParserMallocs) (now : Int) (st : RawParserState)
    (parsed : UnyteSegMet) (insertRes : Int) (buf : RawBuffer) : PayloadFlow :=
  let maxMallocErrs := if insertRes = -3 then st.maxMallocErrs - 1 else st.maxMallocErrs
  if insertRes = -1 ∨ (insertRes = -3 ∧ maxMallocErrs ≤ 0) then
    -- `unyte_udp_free_all`
    { freed := {parsed.payload} }
  else
    -- the segment is freed without its payload
    let repeated : Payloads := if insertRes = -2 then {parsed.payload} else 0
    let unlinked : Payloads := if insertRes = -3 then {parsed.payload} else 0
    if insertRes = 1 ∨ insertRes = -2 then
      match buf.listOf? parsed.key with
      | none => 0
      | some msgSegList =>
          let completeMsg : Payloads :=
            (reassemblePayload mallocs.payload msgSegList).elim 0 singleton
          { allocated := completeMsg
            freed := buf.clearFrees parsed.key +
              (buf.clearMessage parsed.key).elim 0 (RawBuffer.cleanupIfDueFrees now)
            written := if mallocs.message then completeMsg else 0
            repeated
            lost := unlinked + if mallocs.message then 0 else completeMsg }
    else
      { freed := buf.cleanupIfDueFrees now, repeated, lost := unlinked }

/-- The segments that an insertion loses. -/
def RawParserState.lostSegments (mallocs : ParserMallocs) (st : RawParserState)
    (parsed : UnyteSegMet) : List MessageSegmentCell :=
  parsed.header.segmentation.elim [] fun seg =>
    st.segmentBuff.lostSegments mallocs.insert parsed.key (segmentCall parsed seg)

/-- What becomes of the payload of a parsed segment, and of those before it. -/
def handleParsedFlow (mallocs : ParserMallocs) (now : Int) (st : RawParserState)
    (parsed : UnyteSegMet) : PayloadFlow :=
  if isSegmented parsed.header then
    match st.insertParsed mallocs parsed with
    | none => 0
    | some (insertRes, buf) =>
        ({ lost := segmentPayloads (st.lostSegments mallocs parsed) } : PayloadFlow) +
          finishSegmentFlow mallocs now st parsed insertRes buf
  else { written := {parsed.payload} }

/-- The payload that a parse function has allocated where it returns `NULL` because the
parsed segment cannot be allocated. -/
def unreturnedPayload (legacyProto : Bool) (mallocs : ParserMallocs) (queueData : UnyteMin) :
    Payloads :=
  if mallocs.parse.header && mallocs.parse.payload && !mallocs.parse.segment then
    match parseFunc legacyProto queueData.buffer.val queueData with
    | .ok parsed => {parsed.payload}
    | .diverges | .undefined | .null => 0
  else 0

/-- What becomes of payloads in an iteration. -/
def iterationFlow (legacyProto : Bool) (mallocs : ParserMallocs) (now : Int)
    (st : RawParserState) (queueData : UnyteMin) : PayloadFlow :=
  match parseFuncWith mallocs legacyProto queueData with
  | .ok parsed =>
      ({ allocated := {parsed.payload} } : PayloadFlow) +
        handleParsedFlow mallocs now st parsed
  | .null =>
      -- what was allocated is not freed
      let payload := unreturnedPayload legacyProto mallocs queueData
      { allocated := payload, lost := payload }
  | .diverges | .undefined => 0

/-- A parsed segment can be allocated, all that an insertion needs for it to be linked, and
all that an assembled message needs besides its payload. -/
structure ParserMallocs.SparesSegments (mallocs : ParserMallocs) : Prop where
  segment : mallocs.parse.segment = true
  bucket : mallocs.insert.bucket = true
  collisionCell : mallocs.insert.collisionCell = true
  messageList : mallocs.insert.messageList = true
  segmentCell : mallocs.insert.segmentCell = true
  message : mallocs.message = true

/-- What becomes of payloads at an event. -/
def RawParser.flow (legacyProto : Bool) (p : RawParser) : RawParserEvent → PayloadFlow
  | .packet queueData mallocs now => iterationFlow legacyProto mallocs now p.state queueData
  | .requestCleanup => 0

/-- A parser with what has become of payloads so far. -/
structure AccountedParser where
  parser : RawParser
  flow : PayloadFlow

namespace AccountedParser

def init : AccountedParser := ⟨.init, 0⟩

/-- What an event does to a parser and to payloads. -/
def step (legacyProto : Bool) (a : AccountedParser) (l : RawParserEvent) :
    Option AccountedParser :=
  (a.parser.step legacyProto l).map fun parser =>
    { parser, flow := a.flow + a.parser.flow legacyProto l }

/-- The steps of a parser. -/
def Step (legacyProto : Bool) (a : AccountedParser) (l : RawParserEvent)
    (a' : AccountedParser) : Prop :=
  a.step legacyProto l = some a'

end AccountedParser

theorem PayloadFlow.gone_add (f g : PayloadFlow) : (f + g).gone = f.gone + g.gone := by
  change f.freed + g.freed + (f.written + g.written) + (f.repeated + g.repeated) +
    (f.lost + g.lost) = _
  unfold PayloadFlow.gone
  abel

theorem PayloadFlow.gone_lost (block : Payloads) :
    PayloadFlow.gone { lost := block } = block := by
  change 0 + 0 + 0 + block = block
  simp only [zero_add]

theorem PayloadFlow.gone_zero : (0 : PayloadFlow).gone = 0 := rfl

theorem PayloadFlow.gone_freed (block : Payloads) :
    PayloadFlow.gone { freed := block } = block := by
  change block + 0 + 0 + 0 = block
  simp only [add_zero]

theorem PayloadFlow.allocated_add (f g : PayloadFlow) :
    (f + g).allocated = f.allocated + g.allocated := rfl

theorem PayloadFlow.written_add (f g : PayloadFlow) :
    (f + g).written = f.written + g.written := rfl

theorem PayloadFlow.lost_add (f g : PayloadFlow) : (f + g).lost = f.lost + g.lost := rfl

/-- The codes of `insert_segment`. -/
theorem RawBuffer.insertWith_codes {buf after : RawBuffer} {mallocs : InsertMallocs}
    {k : MessageKey} {c : InsertCall} {code : Int}
    (hresult : buf.insertWith mallocs k c = some (code, after)) :
    linksSegment code = true ∨ code = -1 ∨ code = -2 ∨ code = -3 := by
  have hlist (head : MessageSegmentList) :
      linksSegment (insertIntoMslWith mallocs head c).1 = true ∨
        (insertIntoMslWith mallocs head c).1 = -1 ∨ (insertIntoMslWith mallocs head c).1 = -2 ∨
        (insertIntoMslWith mallocs head c).1 = -3 := by
    have hduplicate (complete : Bool) :
        (if complete = true then (-2 : Int) else -1) = -1 ∨
          (if complete = true then (-2 : Int) else -1) = -2 ∨
          (if complete = true then (-2 : Int) else -1) = -3 := by
      cases complete <;> decide
    simp only [insertIntoMslWith, c.announce_eq]
    split
    · split
      · exact Or.inl (linkSegmentWith_cells _ _ _ _ _).2
      · exact Or.inr (Or.inr (Or.inr rfl))
    · split
      · exact Or.inr (hduplicate _)
      · split
        · exact Or.inl (linkSegmentWith_cells _ _ _ _ _).2
        · exact Or.inr (Or.inr (Or.inr rfl))
  rcases RawBuffer.insertWith_eq_some hresult with ⟨_, rfl, _⟩ | ⟨_, hcase⟩
  · exact Or.inr (Or.inr (Or.inr rfl))
  · rcases hcase with ⟨_, head, _, _, rfl, _⟩ | ⟨_, _, hcase⟩
    · exact hlist head
    · rcases hcase with ⟨_, rfl, _⟩ | ⟨_, _, rfl, _⟩ | ⟨_, _, rfl, _⟩
      · exact Or.inr (Or.inr (Or.inr rfl))
      · exact Or.inr (Or.inr (Or.inr rfl))
      · exact hlist _

section Spared

variable {mallocs : ParserMallocs} (hspares : mallocs.SparesSegments)
include hspares

/-- An insertion that can allocate a cell loses no segment and does not fail. -/
theorem ParserMallocs.SparesSegments.insertWith {buf after : RawBuffer} {k : MessageKey}
    {c : InsertCall} {code : Int}
    (hresult : buf.insertWith mallocs.insert k c = some (code, after)) :
    code ≠ -3 ∧ buf.lostSegments mallocs.insert k c = [] := by
  have hlost (head : MessageSegmentList) : UdpNotif.lostSegments mallocs.insert head c = [] := by
    unfold UdpNotif.lostSegments
    split
    · rfl
    · exact if_pos (Or.inr hspares.segmentCell)
  have hlist (head : MessageSegmentList) : (insertIntoMslWith mallocs.insert head c).1 ≠ -3 := by
    have hlink (head : MessageSegmentList) (cells : List MessageSegmentCell) :
        (linkSegmentWith mallocs.insert.optionsHead head cells c.payloadSize c.options).1 ≠ -3 := by
      intro hfailed
      have hlinks := (linkSegmentWith_cells head mallocs.insert.optionsHead cells c.payloadSize
        c.options).2
      rw [hfailed] at hlinks
      cases hlinks
    have hduplicate (complete : Bool) : (if complete = true then (-2 : Int) else -1) ≠ -3 := by
      cases complete <;> decide
    simp only [insertIntoMslWith, c.announce_eq, hspares.segmentCell, if_true]
    split
    · exact hlink _ _
    · split
      · exact hduplicate _
      · exact hlink _ _
  refine ⟨?_, ?_⟩
  · rcases RawBuffer.insertWith_eq_some hresult with ⟨⟨_, hnull⟩, _⟩ | ⟨_, hcase⟩
    · cases hspares.bucket.symm.trans hnull
    · rcases hcase with ⟨_, head, _, _, rfl, _⟩ | ⟨_, _, hcase⟩
      · exact hlist head
      · rcases hcase with ⟨hnull, _⟩ | ⟨_, hnull, _⟩ | ⟨_, _, rfl, _⟩
        · cases hspares.collisionCell.symm.trans hnull
        · cases hspares.messageList.symm.trans hnull
        · exact hlist _
  · unfold RawBuffer.lostSegments
    cases (buf.lookup k).bind RawCell.head with
    | none => rfl
    | some head => exact hlost head

theorem ParserMallocs.SparesSegments.finishSegmentFlow (now : Int) (st : RawParserState)
    (parsed : UnyteSegMet) {insertRes : Int} (hcode : insertRes ≠ -3) (buf : RawBuffer) :
    (finishSegmentFlow mallocs now st parsed insertRes buf).lost = 0 := by
  unfold UdpNotif.finishSegmentFlow
  simp only [hcode, hspares.message, false_and, or_false, if_true, if_false, add_zero]
  split
  · rfl
  · split
    · split <;> rfl
    · rfl

/-- Nothing is lost in an iteration whose allocations for segments all succeed. -/
theorem ParserMallocs.SparesSegments.iterationFlow (legacyProto : Bool) (now : Int)
    (st : RawParserState) (queueData : UnyteMin) :
    (iterationFlow legacyProto mallocs now st queueData).lost = 0 := by
  unfold UdpNotif.iterationFlow
  cases parseFuncWith mallocs legacyProto queueData with
  | diverges | undefined => rfl
  | null =>
      simp only [unreturnedPayload, hspares.segment, Bool.not_true, Bool.and_false,
        Bool.false_eq_true, if_false]
  | ok parsed =>
      have hparsed : (handleParsedFlow mallocs now st parsed).lost = 0 := by
        unfold handleParsedFlow
        split
        · cases hinsert : st.insertParsed mallocs parsed with
          | none => rfl
          | some inserted =>
              obtain ⟨insertRes, buf⟩ := inserted
              obtain ⟨seg, hseg, hresult⟩ := Option.bind_eq_some_iff.mp hinsert
              obtain ⟨hcode, hnone⟩ := hspares.insertWith hresult
              have hsegments : st.lostSegments mallocs parsed = [] := by
                rw [RawParserState.lostSegments, hseg]
                exact hnone
              simp only [PayloadFlow.lost_add, hsegments,
                hspares.finishSegmentFlow now st parsed hcode buf]
              rfl
        · rfl
      simp only [PayloadFlow.lost_add, hparsed]
      rfl

end Spared

section Finish

variable {mallocs : ParserMallocs} {now : Int} {st st' : RawParserState} {parsed : UnyteSegMet}
  {insertRes : Int} {buf after : RawBuffer} {written : Option UnyteSegMet}

theorem RawBuffer.clearMessage_payloads (h : buf.Freeable) {k : MessageKey}
    (hresult : buf.clearMessage k = some after) :
    after.payloads + buf.clearFrees k = buf.payloads ∧ after.Freeable := by
  obtain ⟨⟨code, cleared⟩, hclear, rfl⟩ := Option.map_eq_some_iff.mp hresult
  have hafter := h.clear hclear
  have hpayloads := RawBuffer.clear_payloads hclear
  exact ⟨hpayloads, ⟨hafter.sound.wellFormed, hafter.sound.linked⟩, hafter.named⟩

theorem RawBuffer.cleanupIfDue_payloads (h : buf.Freeable)
    (hresult : buf.cleanupIfDue now = some after) :
    after.payloads + buf.cleanupIfDueFrees now = buf.payloads ∧ after.Freeable := by
  unfold RawBuffer.cleanupIfDue at hresult
  unfold RawBuffer.cleanupIfDueFrees
  split at hresult
  · next hdue =>
      rw [if_pos hdue]
      exact ⟨h.sound.cleanupSegBuff_payloads hresult, h.cleanupSegBuff hresult⟩
  · next hidle =>
      obtain rfl := Option.some.inj hresult
      rw [if_neg hidle]
      exact ⟨add_zero _, h⟩

/-- A payload that was not linked is the caller's to free. -/
theorem repeated_add_unlinked
    (hcodes : linksSegment insertRes = true ∨ insertRes = -1 ∨ insertRes = -2 ∨ insertRes = -3)
    (hnew : insertRes ≠ -1) (block : Payloads) :
    (if insertRes = -2 then block else 0) + (if insertRes = -3 then block else 0) =
      if linksSegment insertRes then 0 else block := by
  rcases hcodes with hlinks | rfl | rfl | rfl
  · have htwo : insertRes ≠ -2 := by
      rintro rfl
      cases hlinks
    have hthree : insertRes ≠ -3 := by
      rintro rfl
      cases hlinks
    rw [if_neg htwo, if_neg hthree, if_pos hlinks, add_zero]
  · exact absurd rfl hnew
  · exact add_zero block
  · exact zero_add block

/-- The payloads of an iteration after its insertion: what the buffer then holds, and what
is gone, was held before or is allocated, or it is the payload that was not linked. -/
theorem finishSegmentFlow_continued (h : buf.Freeable)
    (hcodes : linksSegment insertRes = true ∨ insertRes = -1 ∨ insertRes = -2 ∨ insertRes = -3)
    (hend : finishSegmentWith mallocs now st parsed insertRes buf = .continued st' written) :
    st'.segmentBuff.payloads + (finishSegmentFlow mallocs now st parsed insertRes buf).gone =
        buf.payloads + (finishSegmentFlow mallocs now st parsed insertRes buf).allocated +
          (if linksSegment insertRes then 0 else {parsed.payload}) ∧
      st'.segmentBuff.Freeable := by
  have hgoes := finishSegmentWith_goes hend
  unfold finishSegmentFlow PayloadFlow.gone
  rcases finishSegmentWith_continued hend with
    ⟨hpresent, rfl, _⟩ | ⟨hreports, head, cleared, hlist, hclear, hclean, _⟩ |
      ⟨hpresent, hreports, hclean, _⟩
  · rw [if_pos (Or.inl hpresent), hpresent]
    refine ⟨?_, h⟩
    change st'.segmentBuff.payloads + ({parsed.payload} + 0 + 0 + 0) =
      st'.segmentBuff.payloads + 0 + {parsed.payload}
    simp only [add_zero]
  · have hpresent : insertRes ≠ -1 := by omega
    obtain ⟨hone, hmid⟩ := RawBuffer.clearMessage_payloads h hclear
    obtain ⟨htwo, hafter⟩ := RawBuffer.cleanupIfDue_payloads hmid hclean
    refine ⟨?_, hafter⟩
    simp only [if_neg (not_or.mpr ⟨hpresent, hgoes⟩), if_pos hreports, hlist, hclear,
      Option.elim_some]
    rw [← repeated_add_unlinked hcodes hpresent {parsed.payload}, ← hone, ← htwo]
    generalize (if insertRes = -2 then ({parsed.payload} : Payloads) else 0) = repeated
    generalize (if insertRes = -3 then ({parsed.payload} : Payloads) else 0) = unlinked
    generalize (reassemblePayload mallocs.payload head).elim (0 : Payloads) singleton = completeMsg
    cases mallocs.message with
    | true =>
        simp only [if_true]
        abel
    | false =>
        simp only [Bool.false_eq_true, if_false]
        abel
  · obtain ⟨hone, hafter⟩ := RawBuffer.cleanupIfDue_payloads h hclean
    refine ⟨?_, hafter⟩
    simp only [if_neg (not_or.mpr ⟨hpresent, hgoes⟩), if_neg hreports]
    rw [← repeated_add_unlinked hcodes hpresent {parsed.payload}, ← hone]
    generalize (if insertRes = -2 then ({parsed.payload} : Payloads) else 0) = repeated
    generalize (if insertRes = -3 then ({parsed.payload} : Payloads) else 0) = unlinked
    abel

/-- What is written after an insertion is what becomes of the payload it writes. -/
theorem finishSegmentFlow_written
    (hend : finishSegmentWith mallocs now st parsed insertRes buf = .continued st' written) :
    (finishSegmentFlow mallocs now st parsed insertRes buf).written =
      written.elim 0 fun msg => {msg.payload} := by
  have hgoes := finishSegmentWith_goes hend
  unfold finishSegmentFlow
  rcases finishSegmentWith_continued hend with
    ⟨hpresent, _, rfl⟩ | ⟨hreports, head, cleared, hlist, _, _, rfl⟩ |
      ⟨hpresent, hreports, _, rfl⟩
  · rw [if_pos (Or.inl hpresent)]
    rfl
  · have hpresent : insertRes ≠ -1 := by omega
    simp only [if_neg (not_or.mpr ⟨hpresent, hgoes⟩), if_pos hreports, hlist]
    unfold reassemblePayload
    cases mallocs.message with
    | false => rfl
    | true =>
        cases mallocs.payload head.totalPayloadByteSize.toNat <;> rfl
  · simp only [if_neg (not_or.mpr ⟨hpresent, hgoes⟩), if_neg hreports]
    rfl

/-- A parser returns at a segment only where its last allowed insertion has failed. -/
theorem finishSegmentWith_stopped
    (hend : finishSegmentWith mallocs now st parsed insertRes buf = .stopped) :
    finishSegmentFlow mallocs now st parsed insertRes buf =
      { freed := {parsed.payload} } ∧ insertRes = -3 := by
  have hnever (segmentBuff : Option RawBuffer) (maxMallocErrs : Int)
      (written : Option UnyteSegMet) :
        RawOutcome.ofBuffer segmentBuff maxMallocErrs written ≠ .stopped := by
    cases segmentBuff <;> exact fun h => by cases h
  unfold finishSegmentWith at hend
  unfold finishSegmentFlow
  simp only at hend ⊢
  generalize (if insertRes = -3 then st.maxMallocErrs - 1 else st.maxMallocErrs) = mallocErrs
    at hend ⊢
  by_cases hpresent : insertRes = -1
  · rw [if_pos hpresent] at hend
    cases hend
  · rw [if_neg hpresent] at hend
    by_cases hreturns : insertRes = -3 ∧ mallocErrs ≤ 0
    · exact ⟨if_pos (Or.inr hreturns), hreturns.1⟩
    · rw [if_neg hreturns] at hend
      split at hend
      · split at hend
        · cases hend
        · split at hend
          · exact absurd hend (hnever _ _ _)
          · exact absurd hend (hnever _ _ _)
          · cases hend
          · cases hend
      · exact absurd hend (hnever _ _ _)

end Finish

section Iteration

variable {mallocs : ParserMallocs} {now : Int} {st : RawParserState} {parsed : UnyteSegMet}

/-- An insertion of the parser: what is held then and what is lost was held before, or it is
the payload that was linked. -/
theorem insertParsed_payloads (h : st.segmentBuff.Freeable) {insertRes : Int} {buf : RawBuffer}
    (hresult : st.insertParsed mallocs parsed = some (insertRes, buf)) :
    (buf.payloads + segmentPayloads (st.lostSegments mallocs parsed) =
      st.segmentBuff.payloads + if linksSegment insertRes then {parsed.payload} else 0) ∧
    (linksSegment insertRes = true ∨ insertRes = -1 ∨ insertRes = -2 ∨ insertRes = -3) ∧
    buf.Freeable := by
  obtain ⟨seg, hseg, hinsert⟩ := Option.bind_eq_some_iff.mp hresult
  refine ⟨?_, RawBuffer.insertWith_codes hinsert, h.insertWith hinsert⟩
  rw [RawParserState.lostSegments, hseg, Option.elim_some]
  exact RawBuffer.insertWith_payloads hinsert

/-- The payloads of an iteration that goes on. -/
theorem handleParsedFlow_continued {st' : RawParserState} {written : Option UnyteSegMet}
    (h : st.segmentBuff.Freeable)
    (hend : handleParsedWith mallocs now st parsed = .continued st' written) :
    st'.segmentBuff.payloads + (handleParsedFlow mallocs now st parsed).gone =
        st.segmentBuff.payloads + ((handleParsedFlow mallocs now st parsed).allocated +
          {parsed.payload}) ∧ st'.segmentBuff.Freeable := by
  unfold handleParsedWith at hend
  unfold handleParsedFlow
  split at hend
  · next hsegmented =>
      rw [if_pos hsegmented]
      cases hinsert : st.insertParsed mallocs parsed with
      | none =>
          rw [hinsert] at hend
          cases hend
      | some inserted =>
          obtain ⟨insertRes, buf⟩ := inserted
          rw [hinsert] at hend
          obtain ⟨hinserted, hcodes, hbuf⟩ := insertParsed_payloads h hinsert
          obtain ⟨hfinished, hafter⟩ := finishSegmentFlow_continued hbuf hcodes hend
          refine ⟨?_, hafter⟩
          have hlinked : (if linksSegment insertRes then ({parsed.payload} : Payloads) else 0) +
              (if linksSegment insertRes then 0 else {parsed.payload}) = {parsed.payload} := by
            split
            · exact add_zero _
            · exact zero_add _
          simp only [PayloadFlow.gone_add, PayloadFlow.allocated_add, PayloadFlow.gone_lost,
            zero_add]
          calc st'.segmentBuff.payloads + (segmentPayloads (st.lostSegments mallocs parsed) +
                (finishSegmentFlow mallocs now st parsed insertRes buf).gone)
              = st'.segmentBuff.payloads +
                  (finishSegmentFlow mallocs now st parsed insertRes buf).gone +
                  segmentPayloads (st.lostSegments mallocs parsed) := by abel
            _ = buf.payloads + segmentPayloads (st.lostSegments mallocs parsed) +
                  (finishSegmentFlow mallocs now st parsed insertRes buf).allocated +
                  (if linksSegment insertRes then 0 else {parsed.payload}) := by
                rw [hfinished]
                abel
            _ = st.segmentBuff.payloads +
                  ((finishSegmentFlow mallocs now st parsed insertRes buf).allocated +
                    ((if linksSegment insertRes then {parsed.payload} else 0) +
                      (if linksSegment insertRes then 0 else {parsed.payload}))) := by
                rw [hinserted]
                abel
            _ = st.segmentBuff.payloads +
                  ((finishSegmentFlow mallocs now st parsed insertRes buf).allocated +
                    {parsed.payload}) := by
                rw [hlinked]
  · next hwhole =>
      obtain ⟨rfl, _⟩ := RawOutcome.continued.inj hend
      rw [if_neg hwhole]
      refine ⟨?_, h⟩
      change st.segmentBuff.payloads + (0 + {parsed.payload} + 0 + 0) =
        st.segmentBuff.payloads + (0 + {parsed.payload})
      simp only [zero_add, add_zero]

/-- The payloads of an iteration that returns at a segment. -/
theorem handleParsedFlow_stopped (h : st.segmentBuff.Freeable)
    (hend : handleParsedWith mallocs now st parsed = .stopped) :
    ∃ insertRes buf, st.insertParsed mallocs parsed = some (insertRes, buf) ∧
      buf.payloads + (handleParsedFlow mallocs now st parsed).gone =
        st.segmentBuff.payloads + ((handleParsedFlow mallocs now st parsed).allocated +
          {parsed.payload}) ∧ buf.Freeable := by
  unfold handleParsedWith at hend
  unfold handleParsedFlow
  split at hend
  · next hsegmented =>
      rw [if_pos hsegmented]
      cases hinsert : st.insertParsed mallocs parsed with
      | none =>
          rw [hinsert] at hend
          cases hend
      | some inserted =>
          obtain ⟨insertRes, buf⟩ := inserted
          rw [hinsert] at hend
          obtain ⟨hinserted, _, hbuf⟩ := insertParsed_payloads h hinsert
          obtain ⟨hflow, rfl⟩ := finishSegmentWith_stopped hend
          refine ⟨-3, buf, rfl, ?_, hbuf⟩
          have hnone : (if linksSegment (-3) then ({parsed.payload} : Payloads) else 0) = 0 := rfl
          rw [hnone, add_zero] at hinserted
          simp only [hflow, PayloadFlow.gone_add, PayloadFlow.allocated_add,
            PayloadFlow.gone_lost, PayloadFlow.gone_freed, zero_add]
          rw [← add_assoc, hinserted]
  · cases hend

theorem handleParsedFlow_written {st' : RawParserState} {written : Option UnyteSegMet}
    (hend : handleParsedWith mallocs now st parsed = .continued st' written) :
    (handleParsedFlow mallocs now st parsed).written =
      written.elim 0 fun msg => {msg.payload} := by
  unfold handleParsedWith at hend
  unfold handleParsedFlow
  split at hend
  · next hsegmented =>
      rw [if_pos hsegmented]
      cases hinsert : st.insertParsed mallocs parsed with
      | none =>
          rw [hinsert] at hend
          cases hend
      | some inserted =>
          rw [hinsert] at hend
          simp only [PayloadFlow.written_add, zero_add]
          exact finishSegmentFlow_written hend
  · next hwhole =>
      obtain ⟨_, rfl⟩ := RawOutcome.continued.inj hend
      rw [if_neg hwhole]
      rfl

/-- What an iteration writes is what becomes of the payload it writes. -/
theorem iterationFlow_written {legacyProto : Bool} {queueData : UnyteMin} {st' : RawParserState}
    {written : Option UnyteSegMet}
    (hend : parserIterationWith legacyProto mallocs now st queueData = .continued st' written) :
    (iterationFlow legacyProto mallocs now st queueData).written =
      written.elim 0 fun msg => {msg.payload} := by
  unfold parserIterationWith at hend
  unfold iterationFlow
  cases hparse : parseFuncWith mallocs legacyProto queueData with
  | diverges | undefined | null =>
      rw [hparse] at hend
      cases hend
  | ok parsed =>
      simp only [hparse] at hend
      simp only [PayloadFlow.written_add, zero_add]
      exact handleParsedFlow_written hend

end Iteration

/-- The payloads of an event: what the buffer holds then and what is gone was held before
or is allocated. -/
theorem RawParser.flow_payloads {legacyProto : Bool} {p p' : RawParser} {l : RawParserEvent}
    (h : p.state.segmentBuff.Freeable) (hstep : p.step legacyProto l = some p') :
    p'.state.segmentBuff.payloads + (p.flow legacyProto l).gone =
        p.state.segmentBuff.payloads + (p.flow legacyProto l).allocated ∧
      p'.state.segmentBuff.Freeable := by
  cases l with
  | requestCleanup =>
      obtain rfl := Option.some.inj hstep
      exact ⟨rfl, ⟨h.sound.wellFormed, h.sound.linked⟩, h.named⟩
  | packet queueData mallocs now =>
      have hreturned : p.returned = false := by
        cases hreturned : p.returned with
        | false => rfl
        | true =>
            simp only [RawParser.step, hreturned, if_true] at hstep
            cases hstep
      simp only [RawParser.step, hreturned, Bool.false_eq_true, if_false] at hstep
      simp only [RawParser.flow, iterationFlow]
      unfold parserIterationWith at hstep
      cases hparse : parseFuncWith mallocs legacyProto queueData with
      | diverges | undefined =>
          simp only [hparse] at hstep
          cases hstep
      | null =>
          simp only [hparse] at hstep
          obtain rfl := Option.some.inj hstep
          simp only [RawParserState.left, hparse]
          refine ⟨?_, h⟩
          change _ + (0 + 0 + 0 + unreturnedPayload legacyProto mallocs queueData) = _
          simp only [zero_add]
      | ok parsed =>
          simp only [hparse] at hstep
          simp only [PayloadFlow.gone_add, PayloadFlow.allocated_add]
          have hnone : PayloadFlow.gone { allocated := {parsed.payload} } = 0 := rfl
          rw [hnone, zero_add]
          cases hend : handleParsedWith mallocs now p.state parsed with
          | diverges | undefined =>
              rw [hend] at hstep
              cases hstep
          | continued state written =>
              rw [hend] at hstep
              obtain rfl := Option.some.inj hstep
              obtain ⟨hsame, hafter⟩ := handleParsedFlow_continued h hend
              refine ⟨?_, hafter⟩
              rw [hsame, add_comm (PayloadFlow.allocated _)]
          | stopped =>
              rw [hend] at hstep
              obtain rfl := Option.some.inj hstep
              obtain ⟨insertRes, buf, hinsert, hsame, hafter⟩ :=
                handleParsedFlow_stopped h hend
              have hleft : p.state.left legacyProto mallocs queueData = buf := by
                rw [RawParserState.left, hparse]
                simp only [hinsert, Option.elim_some]
              simp only [hleft]
              refine ⟨?_, hafter⟩
              rw [hsame, add_comm (PayloadFlow.allocated _)]

namespace AccountedParser

/-- The buffer can be freed, and every block that was allocated is held or gone. -/
structure Sound (a : AccountedParser) : Prop where
  buffer : a.parser.state.segmentBuff.Freeable
  blocks : a.flow.allocated = a.parser.state.segmentBuff.payloads + a.flow.gone

theorem init_sound : init.Sound where
  buffer := RawBuffer.Freeable.create
  blocks := by
    have hempty : createSegmentBuffer.raw.payloads = 0 := by
      refine Finset.sum_eq_zero fun i _ => ?_
      rw [createSegmentBuffer.raw_chain]
      rfl
    change 0 = createSegmentBuffer.raw.payloads + PayloadFlow.gone 0
    rw [hempty, PayloadFlow.gone_zero, add_zero]

theorem Sound.step {legacyProto : Bool} {a a' : AccountedParser} {l : RawParserEvent}
    (h : a.Sound) (hstep : Step legacyProto a l a') : a'.Sound := by
  obtain ⟨parser, hparser, rfl⟩ := Option.map_eq_some_iff.mp hstep
  obtain ⟨hsame, hbuffer⟩ := RawParser.flow_payloads h.buffer hparser
  refine ⟨hbuffer, ?_⟩
  rw [PayloadFlow.allocated_add, PayloadFlow.gone_add]
  exact Weights.account_step h.blocks hsame

theorem Sound.run {legacyProto : Bool} {events : List RawParserEvent} {a : AccountedParser}
    (hrun : Run (Step legacyProto) init events a) : a.Sound :=
  hrun.invariant (I := fun _ a => a.Sound) init_sound fun _ _ _ _ _ h hstep => h.step hstep

theorem lost_run {legacyProto : Bool} {events : List RawParserEvent} {a : AccountedParser}
    (hrun : Run (Step legacyProto) init events a)
    (hspares : ∀ queueData mallocs now, .packet queueData mallocs now ∈ events →
      mallocs.SparesSegments) : a.flow.lost = 0 := by
  induction hrun with
  | nil => rfl
  | @snoc events a l a' _ hlast ih =>
      obtain ⟨parser, _, rfl⟩ := Option.map_eq_some_iff.mp hlast
      have hbefore := ih fun queueData mallocs now hmem =>
        hspares queueData mallocs now (List.mem_append_left _ hmem)
      have hnow : (a.parser.flow legacyProto l).lost = 0 := by
        cases l with
        | requestCleanup => rfl
        | packet queueData mallocs now =>
            have hmallocs := hspares queueData mallocs now
              (List.mem_append_right _ (List.mem_singleton_self _))
            exact hmallocs.iterationFlow legacyProto now a.parser.state queueData
      change a.flow.lost + (a.parser.flow legacyProto l).lost = 0
      rw [hbefore, hnow, add_zero]

/-- In every run of a parser, whichever of its allocations fail, the blocks of the payloads
that were allocated are those that the buffer holds, which `clear_buffer` frees wherever it
comes to its end, and those that were freed, written, repeated or lost, each once. No payload
is lost to a failed allocation as long as those for segments succeed, and what an iteration is said
to write is the payload of the message that it hands over. -/
theorem payloads_accounted {legacyProto : Bool} {events : List RawParserEvent}
    {a : AccountedParser} (hrun : Run (Step legacyProto) init events a) :
    a.flow.allocated = a.parser.state.segmentBuff.payloads +
      (a.flow.freed + a.flow.written + a.flow.repeated + a.flow.lost) ∧
    (∀ cleared, clearBuffer a.parser.state.segmentBuff = some cleared →
      entryPayloads cleared.freed = a.parser.state.segmentBuff.payloads) ∧
    ((∀ queueData mallocs now, .packet queueData mallocs now ∈ events →
      mallocs.SparesSegments) → a.flow.lost = 0) ∧
    ∀ queueData mallocs now st' written,
      parserIterationWith legacyProto mallocs now a.parser.state queueData =
        .continued st' written →
      (iterationFlow legacyProto mallocs now a.parser.state queueData).written =
        written.elim 0 fun msg => {msg.payload} := by
  have hsound := Sound.run hrun
  refine ⟨hsound.blocks, fun cleared hresult => hsound.buffer.clearBuffer_payloads hresult,
    lost_run hrun, ?_⟩
  intro queueData mallocs now st' written hend
  exact iterationFlow_written hend

/-- The first segment of a message with one byte, and what its flags say. -/
def oneBytePacket (flags : Uint8) : RawParserEvent :=
  .packet (minimalParse (RecvBuffer.zeroed.receive
    [0, 16, 0, 17, 0, 0, 0, 1, 0, 0, 0, 7, 1, 4, 0, flags, 9]
    (show 17 ≤ udpSize by decide)) ⟨[]⟩ none) (.ofPayload fun _ => true) 0

/-- A segment that comes again as the last one completes its message, and its payload is
not freed. -/
theorem repeated_payload_accounted :
    ∃ a, Run (Step false) init [oneBytePacket 0, oneBytePacket 1] a ∧
      a.flow.repeated = {[9]} ∧ a.flow.lost = 0 ∧
      a.flow.allocated = a.parser.state.segmentBuff.payloads +
        (a.flow.freed + a.flow.written + a.flow.repeated + a.flow.lost) := by
  have hafter : ([oneBytePacket 0, oneBytePacket 1].foldlM (step false) init).map
      (fun a => a.flow.repeated) = some {[9]} := by decide
  obtain ⟨a, hfold, hrepeated⟩ := Option.map_eq_some_iff.mp hafter
  have hrun : Run (Step false) init [oneBytePacket 0, oneBytePacket 1] a :=
    run_iff_foldlM.mpr hfold
  obtain ⟨hblocks, _, hlost, _⟩ := payloads_accounted hrun
  refine ⟨a, hrun, hrepeated, hlost ?_, hblocks⟩
  intro queueData mallocs now hmem
  have hevent : ∃ flags, RawParserEvent.packet queueData mallocs now = oneBytePacket flags := by
    rcases List.mem_cons.mp hmem with hfirst | hsecond
    · exact ⟨0, hfirst⟩
    · exact ⟨1, List.mem_singleton.mp hsecond⟩
  obtain ⟨_, hevent⟩ := hevent
  obtain ⟨_, rfl, _⟩ := RawParserEvent.packet.inj hevent
  exact ⟨rfl, rfl, rfl, rfl, rfl, rfl⟩

end AccountedParser

end UdpNotif
