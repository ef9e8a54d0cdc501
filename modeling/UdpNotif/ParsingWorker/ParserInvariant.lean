import UdpNotif.ParsingWorker.Parser
import UdpNotif.SegmentationBuffer.MessageListInvariant

/-!
What holds of a parser in every reachable state: its buffer is well formed, and
every stored list was built by calls with an option list and as many bytes of
content as they claim. `parseSegmented_cases` says what one iteration can do in
such a state; it leaves the undefined outcomes out.
-/

namespace UdpNotif

open Runs

/-- A segment as the parse functions return it. -/
structure Parsed (parsed : UnyteSegMet) : Prop where
  lengths : parsed.header.headerLength.toNat ≤ parsed.header.messageLength.toNat
  payload : parsed.payload.length =
    parsed.header.messageLength.toNat - parsed.header.headerLength.toNat
  segmented : isSegmented parsed.header = true → parsed.header.segmentation ≠ none

theorem bytesAt_length {segment : List Uint8} {offset size : Nat}
    (h : offset + size ≤ segment.length) : (bytesAt segment offset size).length = size := by
  rw [bytesAt, List.length_take, List.length_drop, Int.toNat_natCast]
  omega

theorem ntohs_le_udpSize (u : Uint16) : (ntohs u).toNat ≤ udpSize := by
  have := (ntohs u).isLt
  simp only [udpSize]
  omega

theorem parseWithMetadata_parsed {buffer : RecvBuffer} {um : UnyteMin} {parsed : UnyteSegMet}
    (h : parseWithMetadata buffer.val um = .ok parsed) : Parsed parsed := by
  obtain ⟨s, hloop, hsize, rfl⟩ := (parseWithMetadata_eq_ok_iff _ _ _).mp h
  have hlengths : (charAt buffer.val 1).toNat ≤
      (ntohs (deserializeUint16 buffer.val 2)).toNat := by
    unfold payloadSizeOf at hsize
    omega
  have hint : payloadSizeOf buffer.val = (((ntohs (deserializeUint16 buffer.val 2)).toNat -
      (charAt buffer.val 1).toNat : Nat) : Int) := by
    unfold payloadSizeOf
    omega
  refine ⟨hlengths, ?_, fun hseg hnone => ?_⟩
  · have hbuffer := buffer.property
    have hmessage := ntohs_le_udpSize (deserializeUint16 buffer.val 2)
    simp only [parsedSegment, hint]
    exact bytesAt_length (by omega)
  · obtain ⟨hfill, hbound⟩ := optionLoop_options_fill hloop hnone
    rw [isSegmented_iff] at hseg
    simp only [parsedSegment, headerBytes] at hseg hfill
    omega

theorem parseWithMetadataLegacy_parsed {buffer : RecvBuffer} {um : UnyteMin}
    {parsed : UnyteSegMet} (h : parseWithMetadataLegacy buffer.val um = .ok parsed) :
    Parsed parsed := by
  obtain ⟨mediaType, _, hsize, rfl⟩ := (parseWithMetadataLegacy_eq_ok_iff _ _ _).mp h
  have hlengths : headerBytes ≤ (ntohs (deserializeUint16 buffer.val 2)).toNat := by
    unfold legacyPayloadSizeOf at hsize
    omega
  have hint : legacyPayloadSizeOf buffer.val =
      (((ntohs (deserializeUint16 buffer.val 2)).toNat - headerBytes : Nat) : Int) := by
    unfold legacyPayloadSizeOf
    omega
  refine ⟨hlengths, ?_, fun hseg => ?_⟩
  · have hbuffer := buffer.property
    have hmessage := ntohs_le_udpSize (deserializeUint16 buffer.val 2)
    simp only [parsedLegacySegment, hint]
    exact bytesAt_length (by omega)
  · have hfill : ¬ (12 + (optionsTotalBytes []).toNat) % 2 ^ 32 <
        (BitVec.ofNat 8 headerBytes).toNat := by decide
    exact absurd ((isSegmented_iff _).mp hseg) hfill

/-- What a parser parses is a segment with its payload. -/
theorem parseFunc_parsed {legacyProto : Bool} {um : UnyteMin} {parsed : UnyteSegMet}
    (h : parseFunc legacyProto um.buffer.val um = .ok parsed) : Parsed parsed := by
  cases legacyProto with
  | false => exact parseWithMetadata_parsed h
  | true => exact parseWithMetadataLegacy_parsed h

theorem Parsed.payloadSize {parsed : UnyteSegMet} (h : Parsed parsed) :
    parsed.header.payloadSize.toNat = parsed.payload.length := by
  have hlengths := h.lengths
  have hhl := parsed.header.headerLength.isLt
  have hml := parsed.header.messageLength.isLt
  rw [h.payload, UnyteHeader.payloadSize, BitVec.toNat_sub, BitVec.toNat_setWidth,
    BitVec.toNat_setWidth]
  omega

/-- A call as the parser makes it. -/
structure InsertCall.FromParser (c : InsertCall) : Prop where
  options : c.options ≠ none
  content : c.content.length = c.payloadSize.toNat

theorem segmentCall_fromParser {parsed : UnyteSegMet} (h : Parsed parsed)
    (seg : UnyteSegmentation) : (segmentCall parsed seg).FromParser :=
  ⟨Option.some_ne_none _, h.payloadSize.symm⟩

/-- A list built by calls of the parser. -/
def MessageSegmentList.Built (head : MessageSegmentList) : Prop :=
  ∃ calls, calls ≠ [] ∧ (∀ c ∈ calls, c.FromParser) ∧ Describes calls head

/-- What holds of the buffer of a parser at all times. -/
structure SegmentBuffer.Built (buf : SegmentBuffer) : Prop where
  wellFormed : buf.WellFormed
  lists : ∀ k head, buf.lookup k = some head → head.Built

theorem createSegmentBuffer_built : createSegmentBuffer.Built :=
  ⟨createSegmentBuffer_wellFormed, fun _ _ h => nomatch h⟩

/-- A visit of a clean up pass changes only the marks of a list. -/
theorem visitHead_describes {calls : List InsertCall} {now : Int}
    {head head' : MessageSegmentList} (h : Describes calls head)
    (hvisit : visitHead now head = some head') : Describes calls head' := by
  obtain ⟨_, rfl⟩ | ⟨_, _, rfl⟩ := visitHead_cases hvisit
  · exact { h with }
  · exact { h with }

/-- A list built by calls that meet a condition. -/
def MessageSegmentList.BuiltBy (Q : InsertCall → Prop) (head : MessageSegmentList) : Prop :=
  ∃ calls, calls ≠ [] ∧ (∀ c ∈ calls, Q c) ∧ Describes calls head

theorem builtBy_keptByVisits (Q : InsertCall → Prop) :
    KeptByVisits (MessageSegmentList.BuiltBy Q) := by
  rintro now head head' ⟨calls, hne, hcalls, hdesc⟩ hvisit
  exact ⟨calls, hne, hcalls, visitHead_describes hdesc hvisit⟩

section All

variable {P : MessageSegmentList → Prop} {buf : SegmentBuffer} (hwell : buf.WellFormed)
  (h : buf.All P)
include hwell h

theorem SegmentBuffer.All.cleanupIfDue (hkept : KeptByVisits P) (now : Int) :
    (cleanupIfDue now buf).All P := by
  unfold UdpNotif.cleanupIfDue
  split
  · exact All.cleanupSegBuff hwell h hkept now _
  · exact h

theorem SegmentBuffer.All.clearMessage (odid mid : Uint32) : (clearMessage buf odid mid).All P :=
  All.clearSegmentList hwell h odid mid

end All

theorem cleanupSegBuff_built {buf : SegmentBuffer} (h : buf.Built) (now : Int) :
    (cleanupSegBuff now buf cleanUpPassSize).Built :=
  ⟨cleanupSegBuff_wellFormed h.wellFormed now _,
    SegmentBuffer.All.cleanupSegBuff h.wellFormed h.lists (builtBy_keptByVisits _) now _⟩

theorem cleanupIfDue_built {buf : SegmentBuffer} (h : buf.Built) (now : Int) :
    (cleanupIfDue now buf).Built := by
  unfold cleanupIfDue
  split
  · exact cleanupSegBuff_built h now
  · exact h

theorem clearMessage_lookup {buf : SegmentBuffer} (h : buf.WellFormed) (odid mid : Uint32)
    (k : MessageKey) :
    (clearMessage buf odid mid).lookup k = if k = (odid, mid) then none else buf.lookup k :=
  clearSegmentList_lookup buf odid mid h k

theorem clearMessage_built {buf : SegmentBuffer} (h : buf.Built) (odid mid : Uint32) :
    (clearMessage buf odid mid).Built :=
  ⟨clearSegmentList_wellFormed buf odid mid h.wellFormed,
    SegmentBuffer.All.clearMessage h.wellFormed h.lists odid mid⟩

/-- The list a segment with key `k` is inserted into. -/
def SegmentBuffer.listOf (buf : SegmentBuffer) (k : MessageKey) : MessageSegmentList :=
  (buf.lookup k).getD (createMessageSegmentList k.1 k.2)

theorem SegmentBuffer.All.listOf {Q : InsertCall → Prop} {buf : SegmentBuffer}
    (h : buf.All (MessageSegmentList.BuiltBy Q)) (k : MessageKey) :
    ∃ calls, (∀ c ∈ calls, Q c) ∧ Describes calls (buf.listOf k) := by
  unfold SegmentBuffer.listOf
  cases hfound : buf.lookup k with
  | none => exact ⟨[], fun c hc => absurd hc List.not_mem_nil, describes_nil k.1 k.2⟩
  | some head =>
      obtain ⟨calls, _, hcalls, hdesc⟩ := h k head hfound
      exact ⟨calls, hcalls, hdesc⟩

theorem SegmentBuffer.Built.listOf {buf : SegmentBuffer} (h : buf.Built) (k : MessageKey) :
    ∃ calls, (∀ c ∈ calls, c.FromParser) ∧ Describes calls (buf.listOf k) :=
  SegmentBuffer.All.listOf h.lists k

/-- Inserting a call of the parser. -/
def SegmentBuffer.insertCall (buf : SegmentBuffer) (k : MessageKey) (c : InsertCall) :
    Int × SegmentBuffer :=
  insertSegment buf k.1 k.2 c.seqnum c.last c.payloadSize c.content c.options

theorem SegmentBuffer.insertCall_code (buf : SegmentBuffer) (k : MessageKey) (c : InsertCall) :
    (buf.insertCall k c).1 = (c.apply (buf.listOf k)).1 :=
  insertSegment_code _ _ _ _ _ _ _ _

theorem SegmentBuffer.insertCall_lookup (buf : SegmentBuffer) (k j : MessageKey)
    (c : InsertCall) :
    (buf.insertCall k c).2.lookup j =
      if j = k then some (c.apply (buf.listOf k)).2 else buf.lookup j :=
  insertSegment_lookup _ _ _ _ _ _ _ _ j

/-- An insert leaves all lists but its own as they are. -/
theorem SegmentBuffer.All.insertCall {P : MessageSegmentList → Prop} {buf : SegmentBuffer}
    (h : buf.All P) {k : MessageKey} {c : InsertCall} (hlist : P (c.apply (buf.listOf k)).2) :
    (buf.insertCall k c).2.All P := by
  intro j head hlookup
  rw [SegmentBuffer.insertCall_lookup] at hlookup
  split at hlookup
  · obtain rfl := Option.some.inj hlookup
    exact hlist
  · exact h j head hlookup

/-- A list that one more call is made on. -/
theorem SegmentBuffer.All.apply {Q : InsertCall → Prop} {buf : SegmentBuffer}
    (h : buf.All (MessageSegmentList.BuiltBy Q)) (k : MessageKey) {c : InsertCall} (hc : Q c) :
    (c.apply (buf.listOf k)).2.BuiltBy Q := by
  obtain ⟨calls, hcalls, hdesc⟩ := h.listOf k
  refine ⟨calls ++ [c], by simp, fun d hd => ?_, (hdesc.insert c).1⟩
  rcases List.mem_append.mp hd with hd | hd
  · exact hcalls d hd
  · rwa [List.mem_singleton.mp hd]

theorem SegmentBuffer.Built.insertCall {buf : SegmentBuffer} (h : buf.Built) (k : MessageKey)
    {c : InsertCall} (hc : c.FromParser) : (buf.insertCall k c).2.Built :=
  ⟨insertSegment_wellFormed _ _ _ _ _ _ _ _ h.wellFormed,
    SegmentBuffer.All.insertCall h.lists (SegmentBuffer.All.apply h.lists k hc)⟩

/-- Calls of the parser leave a list of options. -/
theorem Describes.optionsHead_of_fromParser {calls : List InsertCall}
    {head : MessageSegmentList} (h : Describes calls head) (hne : calls ≠ [])
    (hcalls : ∀ c ∈ calls, c.FromParser) :
    head.optionsHead = some (InsertCall.spliced calls).flatten := by
  obtain ⟨c, rest, rfl⟩ := List.exists_cons_of_ne_nil hne
  have hnumber : c.number ∈ (InsertCall.accepted (c :: rest)).map InsertCall.number :=
    (SortedKeys.mem_keys_firsts _ _ _).mpr List.mem_cons_self
  obtain ⟨d, hd, _⟩ := List.mem_map.mp hnumber
  have hd' : d ∈ c :: rest := (SortedKeys.firsts_sublist _ _).subset hd
  obtain ⟨options, hoptions⟩ := Option.ne_none_iff_exists'.mp (hcalls d hd').options
  have hmem : options ∈ InsertCall.spliced (c :: rest) :=
    List.mem_filterMap.mpr ⟨d, hd, hoptions⟩
  rw [h.optionsHead, if_neg (List.ne_nil_of_mem hmem)]

/-- The message assembled from a complete list, if its payload is allocated. -/
def assembleList (malloc : Nat → Bool) (parsed : UnyteSegMet) (head : MessageSegmentList) :
    Option UnyteSegMet :=
  (reassemblePayload malloc head).map (fun payload =>
    assembledMsg payload parsed (head.totalPayloadByteSize.setWidth 16)
      (head.optionsHead.getD []) head.optionsLength)

/-- The key of a parsed segment. -/
def UnyteSegMet.key (parsed : UnyteSegMet) : MessageKey :=
  (parsed.header.observationDomainId, parsed.header.messageId)

section Segmented

variable (malloc : Nat → Bool) (now : Int) {st : ParserState} {parsed : UnyteSegMet}
  (seg : UnyteSegmentation)

/-- What an iteration can do with a segment: drop a duplicate, store a new
segment, or deliver and clear a complete message. -/
theorem parseSegmented_cases (hbuilt : st.segmentBuff.Built) (hparsed : Parsed parsed) :
    let call := segmentCall parsed seg
    let result := call.apply (st.segmentBuff.listOf parsed.key)
    let buf := (st.segmentBuff.insertCall parsed.key call).2
    (result.1 = -1 ∧ parseSegmented malloc now st parsed seg =
        .continued { st with segmentBuff := buf } none) ∨
    (result.1 = 0 ∧ parseSegmented malloc now st parsed seg =
        .continued { st with segmentBuff := cleanupIfDue now buf } none) ∨
    ((result.1 = 1 ∨ result.1 = -2) ∧ parseSegmented malloc now st parsed seg =
        .continued { st with segmentBuff := cleanupIfDue now (clearMessage buf
          parsed.header.observationDomainId parsed.header.messageId) }
          (assembleList malloc parsed result.2)) := by
  intro call result buf
  obtain ⟨calls, hcalls, hdesc⟩ := hbuilt.listOf parsed.key
  have hfrom : call.FromParser := segmentCall_fromParser hparsed seg
  obtain ⟨hdesc', hcode⟩ := hdesc.insert call
  change result.1 = _ at hcode
  rw [if_neg hfrom.options] at hcode
  have hres : (st.segmentBuff.insertCall parsed.key call).1 = result.1 :=
    SegmentBuffer.insertCall_code _ _ _
  have hfinish : parseSegmented malloc now st parsed seg =
      finishSegment malloc now st parsed result.1 buf := by
    rw [← hres]
    rfl
  have hlist : getSegmentList buf parsed.header.observationDomainId parsed.header.messageId =
      some result.2 :=
    (SegmentBuffer.insertCall_lookup _ _ _ _).trans (if_pos rfl)
  have hhead : result.2.optionsHead = some (InsertCall.spliced (calls ++ [call])).flatten :=
    hdesc'.optionsHead_of_fromParser (by simp) (fun d hd => by
      rcases List.mem_append.mp hd with hd | hd
      · exact hcalls d hd
      · rwa [List.mem_singleton.mp hd])
  -- a complete message is assembled from the list that was just inserted into
  have hdeliver (hres : result.1 = 1 ∨ result.1 = -2) :
      finishSegment malloc now st parsed result.1 buf =
        .continued { st with segmentBuff := cleanupIfDue now (clearMessage buf
          parsed.header.observationDomainId parsed.header.messageId) }
          (assembleList malloc parsed result.2) := by
    have hfailed : ¬ result.1 = -3 := by omega
    have hduplicate : ¬ result.1 = -1 := by omega
    simp only [finishSegment, hfailed, hduplicate, false_and, if_false, if_pos hres, hlist,
      assembleList]
    cases hpayload : reassemblePayload malloc result.2 with
    | none => rfl
    | some payload => simp only [createAssembledMsg, hhead, Option.map_some, Option.getD_some]
  rw [hfinish]
  by_cases hold : call.number ∈ calls.map InsertCall.number
  · rw [if_pos hold] at hcode
    split at hcode
    · exact Or.inr (Or.inr ⟨Or.inr hcode, hdeliver (Or.inr hcode)⟩)
    · refine Or.inl ⟨hcode, ?_⟩
      rw [hcode]
      rfl
  · rw [if_neg hold] at hcode
    split at hcode
    · exact Or.inr (Or.inr ⟨Or.inl hcode, hdeliver (Or.inl hcode)⟩)
    · refine Or.inr (Or.inl ⟨hcode, ?_⟩)
      rw [hcode]
      rfl

end Segmented

/-- `insert_segment` returned one of the codes for a complete message. -/
def reportsComplete (res : Int) : Bool := res == 1 || res == -2

/-- A pass takes the flag back, so it did not run where the flag is unchanged. -/
theorem cleanupIfDue_of_flag {buf : SegmentBuffer} {now : Int}
    (h : (cleanupIfDue now buf).cleanup = buf.cleanup) : cleanupIfDue now buf = buf := by
  unfold cleanupIfDue at h ⊢
  split
  · rename_i hdue
    rw [if_pos hdue] at h
    have hflag : buf.cleanup = false := h.symm
    rw [hflag] at hdue
    cases hdue
  · rfl

theorem cleanupIfDue_cleanup {buf : SegmentBuffer} (now : Int) (h : buf.cleanup = false) :
    (cleanupIfDue now buf).cleanup = false := by
  unfold cleanupIfDue
  split
  · rfl
  · exact h

/-- An iteration with a segment in which no clean up pass runs changes the list
of its message only, and removes it when the message is complete. -/
theorem handleParsed_segmented (malloc : Nat → Bool) (now : Int) {st : ParserState}
    {parsed : UnyteSegMet} (hbuilt : st.segmentBuff.Built) (hparsed : Parsed parsed)
    (hsegmented : isSegmented parsed.header = true) {seg : UnyteSegmentation}
    (hseg : parsed.header.segmentation = some seg) :
    let result := (segmentCall parsed seg).apply (st.segmentBuff.listOf parsed.key)
    ∃ st', handleParsed malloc now st parsed = .continued st'
        (if reportsComplete result.1 then assembleList malloc parsed result.2 else none) ∧
      (st.segmentBuff.cleanup = false → st'.segmentBuff.cleanup = false) ∧
      (st'.segmentBuff.cleanup = st.segmentBuff.cleanup → st'.segmentBuff.Built ∧
        ∀ k, st'.segmentBuff.lookup k =
          if k = parsed.key then (if reportsComplete result.1 then none else some result.2)
          else st.segmentBuff.lookup k) := by
  intro result
  have hinserted := hbuilt.insertCall parsed.key (segmentCall_fromParser hparsed seg)
  have hflag : (st.segmentBuff.insertCall parsed.key (segmentCall parsed seg)).2.cleanup =
      st.segmentBuff.cleanup :=
    insertSegment_cleanup _ _ _ _ _ _ _ _
  have hlookup := st.segmentBuff.insertCall_lookup parsed.key (c := segmentCall parsed seg)
  have hhandle : handleParsed malloc now st parsed = parseSegmented malloc now st parsed seg := by
    rw [handleParsed, if_pos hsegmented, hseg]
  rw [hhandle]
  rcases parseSegmented_cases malloc now seg hbuilt hparsed with
    ⟨hcode, h⟩ | ⟨hcode, h⟩ | ⟨hcode, h⟩
  · have hnot : reportsComplete result.1 = false := by
      have hresult : result.1 = -1 := hcode
      rw [hresult]
      rfl
    rw [hnot]
    exact ⟨_, h, hflag.trans, fun _ => ⟨hinserted, hlookup⟩⟩
  · have hnot : reportsComplete result.1 = false := by
      have hresult : result.1 = 0 := hcode
      rw [hresult]
      rfl
    rw [hnot]
    refine ⟨_, h, fun hidle => cleanupIfDue_cleanup now (hflag.trans hidle), fun hquiet => ?_⟩
    simp only [cleanupIfDue_of_flag (hquiet.trans hflag.symm)]
    exact ⟨hinserted, hlookup⟩
  · have hdone : reportsComplete result.1 = true := by
      rcases hcode with hcode | hcode
      · have hresult : result.1 = 1 := hcode
        rw [hresult]
        rfl
      · have hresult : result.1 = -2 := hcode
        rw [hresult]
        rfl
    have hcleared : (clearMessage (st.segmentBuff.insertCall parsed.key
        (segmentCall parsed seg)).2 parsed.header.observationDomainId
        parsed.header.messageId).cleanup = st.segmentBuff.cleanup :=
      (clearSegmentList_cleanup _ _ _).trans hflag
    rw [hdone]
    refine ⟨_, h, fun hidle => cleanupIfDue_cleanup now (hcleared.trans hidle), fun hquiet => ?_⟩
    simp only [cleanupIfDue_of_flag (hquiet.trans hcleared.symm)]
    refine ⟨clearMessage_built hinserted _ _, fun k => ?_⟩
    refine (clearMessage_lookup hinserted.wellFormed _ _ k).trans ?_
    change (if k = parsed.key then none else _) = _
    by_cases hk : k = parsed.key
    · rw [if_pos hk, if_pos hk, if_pos trivial]
    · rw [if_neg hk, if_neg hk, hlookup, if_neg hk]

section Iteration

variable (malloc : Nat → Bool) (now : Int) {st : ParserState}

/-- In every built state an iteration goes on once it has a parsed segment, and
leaves a built state. -/
theorem handleParsed_goes_on (hbuilt : st.segmentBuff.Built) {parsed : UnyteSegMet}
    (hparsed : Parsed parsed) :
    ∃ st' written, handleParsed malloc now st parsed = .continued st' written ∧
      st'.segmentBuff.Built := by
  unfold handleParsed
  by_cases hseg : isSegmented parsed.header = true
  · rw [if_pos hseg]
    obtain ⟨seg, hsegmentation⟩ := Option.ne_none_iff_exists'.mp (hparsed.segmented hseg)
    rw [hsegmentation]
    have hinserted := hbuilt.insertCall parsed.key (segmentCall_fromParser hparsed seg)
    rcases parseSegmented_cases malloc now seg hbuilt hparsed with
      ⟨_, h⟩ | ⟨_, h⟩ | ⟨_, h⟩
    · exact ⟨_, _, h, hinserted⟩
    · exact ⟨_, _, h, cleanupIfDue_built hinserted now⟩
    · exact ⟨_, _, h, cleanupIfDue_built (clearMessage_built hinserted _ _) now⟩
  · rw [if_neg hseg]
    exact ⟨st, _, rfl, hbuilt⟩

end Iteration

/-- Every step keeps the buffer built. -/
theorem ParserStep.built {legacyProto : Bool} {s s' : ParserState} {l : ParserEvent}
    (h : s.segmentBuff.Built) (hstep : ParserStep legacyProto s l s') : s'.segmentBuff.Built := by
  cases l with
  | requestCleanup =>
      have hs : s' = _ := hstep
      rw [hs]
      exact ⟨h.wellFormed, h.lists⟩
  | packet queueData malloc now =>
      obtain ⟨written, hstep⟩ := hstep
      unfold parserIteration at hstep
      cases hparse : parseFunc legacyProto queueData.buffer.val queueData with
      | ok parsed =>
          rw [hparse] at hstep
          obtain ⟨st', written', hgoes, hbuilt⟩ :=
            handleParsed_goes_on malloc now h (parseFunc_parsed hparse)
          simp only [hgoes] at hstep
          obtain ⟨rfl, _⟩ := ParserOutcome.continued.inj hstep
          exact hbuilt
      | diverges | undefined | null =>
          rw [hparse] at hstep
          cases hstep

theorem ParserState.Reachable.built {legacyProto : Bool} {s : ParserState}
    (h : s.Reachable legacyProto) : s.segmentBuff.Built := by
  obtain ⟨ls, hrun⟩ := h
  exact hrun.invariant (I := fun _ s => s.segmentBuff.Built) createSegmentBuffer_built
    (fun _ _ _ _ _ hbuilt hstep => ParserStep.built hbuilt hstep)

section Calls

variable {legacyProto : Bool} {Q : InsertCall → Prop}
  (hcalls : ∀ um parsed seg, parseFunc legacyProto um.buffer.val um = .ok parsed →
    isSegmented parsed.header = true → parsed.header.segmentation = some seg →
      Q (segmentCall parsed seg))
include hcalls

end Calls

end UdpNotif
