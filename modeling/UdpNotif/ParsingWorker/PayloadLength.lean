import UdpNotif.ParsingWorker.CountedLists
import UdpNotif.ParsingWorker.Legacy

/-!
The payload length a written message advertises, whichever allocations fail. Its header
fields are the ones received for an unsegmented message, and sums cut to 16 and 8 bits
for a reassembled one.
-/

namespace UdpNotif

open Runs

/-- `unyte_udp_get_payload_length` tells the number of payload bytes. -/
def AdvertisesPayload (w : UnyteSegMet) : Prop :=
  (unyteUdpGetPayloadLength w).toNat = w.payload.length

/-- What a parser writes at an event. -/
def RawParser.writes (legacyProto : Bool) (p : RawParser) : RawParserEvent → Option UnyteSegMet
  | .packet queueData mallocs now =>
      (parserIterationWith legacyProto mallocs now p.state queueData).written
  | .requestCleanup => none

/-- Every message written in a step advertises its payload. -/
def WritesAdvertised (legacyProto : Bool) (p : RawParser) (l : RawParserEvent)
    (_ : RawParser) : Prop :=
  ∀ w ∈ p.writes legacyProto l, AdvertisesPayload w

/-- With a segment as many are stored as the last one tells. -/
def MessageSegmentList.CompletedBy (head : MessageSegmentList) (c : InsertCall) : Prop :=
  head.cells.length + head.gain c 1 = if c.last = 1 then c.number + 1 else head.totalSize.toNat

/-- The stored segments and the one that comes have less than 2^16 bytes, and their options
fit the header length up to a multiple of 2^16. -/
structure MessageSegmentList.FitsWith (head : MessageSegmentList) (c : InsertCall) : Prop where
  payload : head.storedBytes + head.gain c c.payloadSize.toNat < 2 ^ 16
  options : (headerBytes + head.optionBytes +
    head.gain c ((c.options.getD []).map fun o => o.length.toNat).sum) % 2 ^ 16 < 2 ^ 8

/-- No allocation that a segment needs to complete its message fails. -/
structure RawParserState.CanAssemble (st : RawParserState) (mallocs : ParserMallocs)
    (k : MessageKey) (c : InsertCall) : Prop where
  insert : ¬ st.segmentBuff.Fails mallocs.insert k c
  payload : mallocs.payload ((st.segmentBuff.messageOf k).storedBytes +
    (st.segmentBuff.messageOf k).gain c c.payloadSize.toNat) = true
  message : mallocs.message = true

/-- A segment that completes its message, with all it needs for that, fits with those that
are stored. -/
def ReassemblyFits (legacyProto : Bool) (p : RawParser) (l : RawParserEvent)
    (_ : RawParser) : Prop :=
  match l with
  | .packet queueData mallocs _ => ∀ parsed,
      parseFuncWith mallocs legacyProto queueData = .ok parsed →
      isSegmented parsed.header = true →
      p.state.CanAssemble mallocs parsed.key parsed.call →
      (p.state.segmentBuff.messageOf parsed.key).CompletedBy parsed.call →
      (p.state.segmentBuff.messageOf parsed.key).FitsWith parsed.call
  | .requestCleanup => True

/-- The cell of no segment fails that comes before a stored one of its message. -/
def LosesNoSegment (legacyProto : Bool) (p : RawParser) (l : RawParserEvent)
    (_ : RawParser) : Prop :=
  match l with
  | .packet queueData mallocs _ => ∀ parsed,
      parseFuncWith mallocs legacyProto queueData = .ok parsed →
      isSegmented parsed.header = true → p.state.lostSegments mallocs parsed = []
  | .requestCleanup => True

theorem advertised_of_none : ∀ w ∈ (none : Option UnyteSegMet), AdvertisesPayload w :=
  fun w h => absurd h (Option.not_mem_none w)

/-- A received message advertises the payload it was parsed with. -/
theorem Parsed.advertisesPayload {p : UnyteSegMet} (h : Parsed p) : AdvertisesPayload p := by
  have hlengths := h.lengths
  have hml := p.header.messageLength.isLt
  rw [AdvertisesPayload, h.payload, unyteUdpGetPayloadLength, BitVec.toNat_sub,
    BitVec.toNat_setWidth]
  omega

section List

variable {head head' : MessageSegmentList} {c : InsertCall}

/-- A reassembled message advertises its payload exactly if the sums fit. -/
theorem MessageSegmentList.Counted.advertises_iff (h : head.Counted) (p : UnyteSegMet) :
    AdvertisesPayload (assembledMsg
        (head.cells.flatMap (fun d => d.content.take d.contentSize.toNat)) p
        (head.totalPayloadByteSize.setWidth 16) (head.optionsHead.getD [])
        head.optionsLength) ↔
      head.storedBytes < 2 ^ 16 ∧ (headerBytes + head.optionBytes) % 2 ^ 16 < 2 ^ 8 := by
  have hoptions : head.optionsLength.toNat = head.optionBytes % 2 ^ 32 := by
    rw [h.optionsLength, optionsTotalBytes_toNat, MessageSegmentList.optionBytes]
  rw [AdvertisesPayload]
  simp only [unyteUdpGetPayloadLength, assembledMsg, h.payload_length, h.totalPayload,
    BitVec.toNat_sub, BitVec.toNat_setWidth, BitVec.toNat_add, BitVec.toNat_ofNat, hoptions,
    headerBytes]
  generalize head.storedBytes = size
  generalize head.optionBytes = options
  omega

/-- The list is complete then exactly if the segment completes it. -/
theorem MessageSegmentList.Extends.complete_iff (h : head.Extends c head')
    (hcounted : head'.Counted) (hc : c.Small) :
    head'.complete = true ↔ head.CompletedBy c := by
  have htotal : head'.totalSize.toNat =
      if c.last = 1 then c.number + 1 else head.totalSize.toNat := by
    have hnumber := hc.number_lt
    rw [h.totalSize]
    split
    · change (c.number + 1) % 2 ^ 32 = c.number + 1
      exact Nat.mod_eq_of_lt (by omega)
    · rfl
  have hpos : 0 < head.cells.length + head.gain c 1 := by
    by_cases hstored : c.number ∈ head.numbers
    · have hne : head.cells ≠ [] := by
        rintro hnil
        rw [MessageSegmentList.numbers, hnil] at hstored
        exact List.not_mem_nil hstored
      have := List.length_pos_iff.mpr hne
      omega
    · rw [MessageSegmentList.gain, if_neg hstored]
      omega
  rw [hcounted.complete_iff, h.length, htotal, MessageSegmentList.CompletedBy]
  omega

theorem MessageSegmentList.Extends.fits_iff (h : head.Extends c head') :
    (head'.storedBytes < 2 ^ 16 ∧ (headerBytes + head'.optionBytes) % 2 ^ 16 < 2 ^ 8) ↔
      head.FitsWith c := by
  rw [h.storedBytes, h.optionBytes, ← Nat.add_assoc]
  exact ⟨fun ⟨hpayload, hoptions⟩ => ⟨hpayload, hoptions⟩,
    fun hfits => ⟨hfits.payload, hfits.options⟩⟩

end List

section Iteration

variable {mallocs : ParserMallocs} {now : Int} {st st' : RawParserState} {parsed : UnyteSegMet}
  {insertRes : Int} {buf after : RawBuffer} {written : Option UnyteSegMet}

/-- A segment that the parser inserts has a small number and size. -/
theorem parseFunc_small {legacyProto : Bool} {um : UnyteMin}
    (h : parseFunc legacyProto um.buffer.val um = .ok parsed)
    (hsegmented : isSegmented parsed.header = true) : parsed.call.Small := by
  obtain ⟨seg, hseg, hcall⟩ := (parseFunc_parsed h).call_eq hsegmented
  rw [hcall]
  cases legacyProto with
  | false => exact segmentCall_small h hseg
  | true => cases (legacy_not_segmented h).symm.trans hsegmented

theorem RawBuffer.AllCounted.clearMessage (hall : buf.AllCounted) (h : buf.Freeable)
    {k : MessageKey} (hresult : buf.clearMessage k = some after) : after.AllCounted := by
  obtain ⟨⟨code, cleared⟩, hclear, rfl⟩ := Option.map_eq_some_iff.mp hresult
  intro j cell head hfound hhead
  exact hall.clear h.sound hclear j cell head hfound hhead

theorem RawBuffer.AllCounted.cleanupIfDue (hall : buf.AllCounted) (h : buf.Freeable)
    (hresult : buf.cleanupIfDue now = some after) : after.AllCounted := by
  unfold RawBuffer.cleanupIfDue at hresult
  split at hresult
  · exact hall.cleanupSegBuff h.sound hresult
  · obtain rfl := Option.some.inj hresult
    exact hall

/-- The counters are exact at the end of an iteration that goes on. -/
theorem finishSegmentWith_counted (h : buf.Freeable) (hall : buf.AllCounted)
    (hend : finishSegmentWith mallocs now st parsed insertRes buf = .continued st' written) :
    st'.segmentBuff.AllCounted := by
  rcases finishSegmentWith_continued hend with
    ⟨_, rfl, _⟩ | ⟨_, _, cleared, _, hclear, hclean, _⟩ | ⟨_, _, hclean, _⟩
  · exact hall
  · exact (hall.clearMessage h hclear).cleanupIfDue
      (RawBuffer.clearMessage_payloads h hclear).2 hclean
  · exact hall.cleanupIfDue h hclean

variable (hall : st.segmentBuff.AllCounted) (hsmall : parsed.call.Small)
  (hlost : st.segmentBuff.lostSegments mallocs.insert parsed.key parsed.call = [])
  (hinsert : st.segmentBuff.insertWith mallocs.insert parsed.key parsed.call =
    some (insertRes, buf))
include hall hsmall hlost hinsert

/-- What an iteration writes advertises its payload exactly if a segment that completes its
message fits with the stored ones. -/
theorem finishSegmentWith_advertised_iff
    (hend : finishSegmentWith mallocs now st parsed insertRes buf = .continued st' written) :
    (∀ w ∈ written, AdvertisesPayload w) ↔
      (st.CanAssemble mallocs parsed.key parsed.call →
        (st.segmentBuff.messageOf parsed.key).CompletedBy parsed.call →
        (st.segmentBuff.messageOf parsed.key).FitsWith parsed.call) := by
  have hfails := RawBuffer.insertWith_code_iff hsmall.fromParser.options hinsert
  by_cases hfailed : insertRes = -3 ∨ insertRes = -4
  · have hnone : written = none := by
      rcases finishSegmentWith_continued hend with
        ⟨_, _, hnone⟩ | ⟨hreports, _⟩ | ⟨_, _, _, hnone⟩
      · exact hnone
      · omega
      · exact hnone
    rw [hnone]
    exact iff_of_true advertised_of_none
      (fun hcan => absurd (hfails.mp hfailed) hcan.insert)
  · have hcounted := hall.messageOf parsed.key
    obtain ⟨hcode, hlist⟩ := RawBuffer.insertWith_messageOf hinsert fun h => hfailed (Or.inl h)
    rw [hcode] at hfailed
    rw [RawBuffer.lostSegments_eq] at hlost
    have hextends := hcounted.extends hsmall hfailed
    have hexact := hcounted.insertIntoMslWith hsmall hlost
    have hcomplete : insertRes = 1 ∨ insertRes = -2 ↔
        (st.segmentBuff.messageOf parsed.key).CompletedBy parsed.call := by
      rw [hcode, insertIntoMslWith_complete_iff hfailed]
      exact hextends.complete_iff hexact hsmall
    have hadvertises := (hexact.advertises_iff parsed).trans hextends.fits_iff
    have htotal := hexact.total_toNat.trans hextends.storedBytes
    have hquiet (hreports : ¬ (insertRes = 1 ∨ insertRes = -2)) (hnone : written = none) :
        (∀ w ∈ written, AdvertisesPayload w) ↔
          (st.CanAssemble mallocs parsed.key parsed.call →
            (st.segmentBuff.messageOf parsed.key).CompletedBy parsed.call →
            (st.segmentBuff.messageOf parsed.key).FitsWith parsed.call) := by
      rw [hnone]
      exact iff_of_true advertised_of_none
        (fun _ hcompleted => absurd (hcomplete.mpr hcompleted) hreports)
    rcases finishSegmentWith_continued hend with
      ⟨hpresent, _, hnone⟩ | ⟨hreports, head, _, hfound, _, _, hwritten⟩ |
        ⟨_, hreports, _, hnone⟩
    · exact hquiet (by omega) hnone
    · obtain rfl := Option.some.inj (hlist.symm.trans hfound)
      rw [htotal] at hwritten
      rw [hwritten]
      split
      · next hmallocs =>
          simp only [Option.mem_some_iff, forall_eq']
          rw [hadvertises]
          exact ⟨fun hfits _ _ => hfits, fun hfits => hfits
            ⟨fun h => hfailed (hcode ▸ hfails.mpr h), hmallocs.2, hmallocs.1⟩
            (hcomplete.mp hreports)⟩
      · next hmallocs =>
          exact iff_of_true advertised_of_none
            (fun hcan => absurd ⟨hcan.message, hcan.payload⟩ hmallocs)
    · exact hquiet hreports hnone

end Iteration

/-- A segment that is inserted, by its call. -/
theorem insertParsed_call {mallocs : ParserMallocs} {legacyProto : Bool} {queueData : UnyteMin}
    {parsed : UnyteSegMet} (st : RawParserState)
    (hparse : parseFuncWith mallocs legacyProto queueData = .ok parsed)
    (hsegmented : isSegmented parsed.header = true) :
    parsed.call.Small ∧
      st.insertParsed mallocs parsed =
        st.segmentBuff.insertWith mallocs.insert parsed.key parsed.call ∧
      st.lostSegments mallocs parsed =
        st.segmentBuff.lostSegments mallocs.insert parsed.key parsed.call := by
  have hok := parseFuncWith_eq_ok hparse
  obtain ⟨seg, hseg, hcall⟩ := (parseFunc_parsed hok).call_eq hsegmented
  refine ⟨parseFunc_small hok hsegmented, ?_, ?_⟩
  · rw [RawParserState.insertParsed, hseg, hcall]
    rfl
  · rw [RawParserState.lostSegments, hseg, hcall]
    rfl

/-- An iteration that parses a segment and returns could not insert it. -/
theorem fails_of_stopped {mallocs : ParserMallocs} {now : Int} {legacyProto : Bool}
    {queueData : UnyteMin} {parsed : UnyteSegMet} {st : RawParserState}
    (hend : parserIterationWith legacyProto mallocs now st queueData = .stopped)
    (hparse : parseFuncWith mallocs legacyProto queueData = .ok parsed)
    (hsegmented : isSegmented parsed.header = true) :
    st.segmentBuff.Fails mallocs.insert parsed.key parsed.call := by
  obtain ⟨hsmall, hcall, _⟩ := insertParsed_call st hparse hsegmented
  rw [parserIterationWith, hparse] at hend
  simp only [handleParsedWith, hsegmented, if_true] at hend
  cases hinsert : st.insertParsed mallocs parsed with
  | none =>
      rw [hinsert] at hend
      cases hend
  | some inserted =>
      rw [hinsert] at hend
      have hcode := RawBuffer.insertWith_code_iff hsmall.fromParser.options
        (hcall.symm.trans hinsert)
      exact hcode.mp (Or.inl (finishSegmentWith_stopped hend).2)

/-- As long as a parser has not returned the counters of all lists are exact. -/
structure RawParser.Exact (p : RawParser) : Prop where
  freeable : p.state.segmentBuff.Freeable
  counted : p.returned = false → p.state.segmentBuff.AllCounted

section Step

variable {legacyProto : Bool} {p p' : RawParser} {l : RawParserEvent} (h : p.Exact)
  (hstep : RawParser.Step legacyProto p l p') (hloses : LosesNoSegment legacyProto p l p')
include h hstep hloses

theorem RawParser.Exact.step : p'.Exact := by
  refine ⟨(RawParser.flow_payloads h.freeable hstep).2, fun hgoes => ?_⟩
  cases l with
  | requestCleanup =>
      obtain rfl := Option.some.inj hstep
      exact h.counted hgoes
  | packet queueData mallocs now =>
      obtain ⟨hbefore, hend⟩ := RawParser.step_packet hstep
      rcases hend with ⟨_, written, hend⟩ | ⟨hreturned, _, _⟩
      · obtain ⟨parsed, hparse, hcase⟩ := parserIterationWith_eq_continued hend
        rcases hcase with ⟨_, hsame, _⟩ | ⟨hsegmented, insertRes, buf, hinsert, hfinish⟩
        · rw [hsame]
          exact h.counted hbefore
        · obtain ⟨hsmall, hcall, hlist⟩ := insertParsed_call p.state hparse hsegmented
          have hlost := hlist.symm.trans (hloses parsed hparse hsegmented)
          have hinserted := hcall.symm.trans hinsert
          exact finishSegmentWith_counted (h.freeable.insertWith hinserted)
            ((h.counted hbefore).insertWith hsmall hlost hinserted) hfinish
      · cases hgoes.symm.trans hreturned

/-- One step writes an advertised message exactly if what it reassembles fits. -/
theorem writesAdvertised_iff :
    WritesAdvertised legacyProto p l p' ↔ ReassemblyFits legacyProto p l p' := by
  cases l with
  | requestCleanup => exact iff_of_true advertised_of_none trivial
  | packet queueData mallocs now =>
      obtain ⟨hbefore, hend⟩ := RawParser.step_packet hstep
      simp only [WritesAdvertised, RawParser.writes, ReassemblyFits]
      rcases hend with ⟨_, written, hend⟩ | ⟨_, hend, _⟩
      · rw [hend, RawOutcome.written]
        obtain ⟨parsed, hparse, hcase⟩ := parserIterationWith_eq_continued hend
        simp only [hparse, ParseResult.ok.injEq, forall_eq']
        rcases hcase with ⟨hwhole, _, rfl⟩ | ⟨hsegmented, insertRes, buf, hinsert, hfinish⟩
        · simp only [hwhole, Bool.false_eq_true, false_implies, iff_true, Option.mem_some_iff,
            forall_eq']
          exact (parseFuncWith_parsed hparse).advertisesPayload
        · obtain ⟨hsmall, hcall, hlist⟩ := insertParsed_call p.state hparse hsegmented
          rw [finishSegmentWith_advertised_iff (h.counted hbefore) hsmall
            (hlist.symm.trans (hloses parsed hparse hsegmented)) (hcall.symm.trans hinsert) hfinish]
          simp only [hsegmented, true_implies]
      · rw [hend, RawOutcome.written]
        exact iff_of_true advertised_of_none fun parsed hparse hsegmented hcan =>
          absurd (fails_of_stopped hend hparse hsegmented) hcan.insert

end Step

/-- What holds of a parser in every run that loses no segment. -/
theorem RawParser.Exact.run {legacyProto : Bool} {ls : List RawParserEvent} {p : RawParser}
    (hrun : Run (Restrict (RawParser.Step legacyProto) (LosesNoSegment legacyProto)) .init ls p) :
    p.Exact := by
  refine hrun.invariant (I := fun _ p => p.Exact) ⟨RawBuffer.Freeable.create, fun _ => ?_⟩
    (fun _ _ _ _ _ hexact hlast => hexact.step hlast.1 hlast.2)
  intro k cell head hfound _
  cases hfound

/-- The runs of a parser that lose no segment and in which every written message advertises
its payload are those that lose no segment and in which all that is reassembled fits. -/
theorem payload_length_advertised_iff (legacyProto : Bool) (ls : List RawParserEvent)
    (p : RawParser) :
    Run (Restrict (Restrict (RawParser.Step legacyProto) (LosesNoSegment legacyProto))
        (WritesAdvertised legacyProto)) .init ls p ↔
      Run (Restrict (Restrict (RawParser.Step legacyProto) (LosesNoSegment legacyProto))
        (ReassemblyFits legacyProto)) .init ls p :=
  Run.restrict_iff fun _ _ _ _ hrun hlast =>
    writesAdvertised_iff (RawParser.Exact.run hrun) hlast.1 hlast.2

/-- A segment of message (7, 9) without payload and with a custom option of 130 bytes;
`number` is the low byte of its segment number and last flag. -/
def longOptionPacket (number : Uint8) : RawParserEvent :=
  .packet (minimalParse (RecvBuffer.zeroed.receive
    ([0x21, 146, 0, 146, 0, 0, 0, 7, 0, 0, 0, 9, 1, 4, 0, number, 2, 130] ++
      List.replicate 128 0) (by simp [udpSize])) ⟨[]⟩ none) (.ofPayload fun _ => true) 0

/-- Two segments with 260 bytes of options advertise 256 bytes of payload in a message that
has none. -/
theorem payload_length_of_long_options :
    ¬ ∀ ls p l p', Run (RawParser.Step false) .init ls p → RawParser.Step false p l p' →
      WritesAdvertised false p l p' := by
  intro hclaim
  have hafter : ((RawParser.step false .init (longOptionPacket 0)).bind fun p =>
      (p.step false (longOptionPacket 3)).bind fun _ => (p.writes false (longOptionPacket 3)).map
        fun w => ((unyteUdpGetPayloadLength w).toNat, w.payload.length)) = some (256, 0) := by
    decide +kernel
  obtain ⟨p, hfirst, hafter⟩ := Option.bind_eq_some_iff.mp hafter
  obtain ⟨p', hsecond, hafter⟩ := Option.bind_eq_some_iff.mp hafter
  obtain ⟨w, hwritten, hlengths⟩ := Option.map_eq_some_iff.mp hafter
  obtain ⟨hadvertised, hpayload⟩ := Prod.mk.inj hlengths
  have hsame : AdvertisesPayload w := hclaim [longOptionPacket 0] p (longOptionPacket 3) p'
    (.snoc .nil hfirst) hsecond w hwritten
  rw [AdvertisesPayload, hadvertised, hpayload] at hsame
  cases hsame

end UdpNotif
