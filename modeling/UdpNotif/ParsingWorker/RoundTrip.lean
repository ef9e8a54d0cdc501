import UdpNotif.ParsingWorker.ArrivalOrder
import UdpNotif.Utils.Build

/-!
From `build_message` at a sender to the message a parser hands over. A message
comes back if it takes at most 128 packets: the segment with number 128 goes
over the wire with number 0, and is dropped as a duplicate.
-/

namespace UdpNotif

/-- `p` is what the packet of `seg` is parsed to. -/
def Transmitted (seg : UnyteSeg) (p : UnyteSegMet) : Prop :=
  ∃ bytes rest um, serializeMessage seg = some bytes ∧ parseWithMetadata (bytes ++ rest) um = .ok p

/-- The packet of a segment is parsed, whatever follows it in the buffer. -/
def Transmittable (seg : UnyteSeg) : Prop :=
  ∃ bytes, serializeMessage seg = some bytes ∧
    ∀ rest um, ∃ p, parseWithMetadata (bytes ++ rest) um = .ok p

/-- `out` has the payload, the custom options and the identifiers of a message. -/
structure CarriesMessage (out : UnyteSegMet) (message : UnyteMessage) : Prop where
  payload : out.payload = message.buffer
  options : out.header.options.map (fun o => (o.type, o.data)) =
    message.options.map (fun o => (o.type, o.data))
  observationDomainId : out.header.observationDomainId = message.observationDomainId
  messageId : out.header.messageId = message.messageId

/-- The packets of a message, in any order, lead a new parser to write that
message and nothing else. -/
def RoundTrips (message : UnyteMessage) (mtu : Uint32) : Prop :=
  ∃ segs, buildMessage message mtu = some segs ∧ (∀ seg ∈ segs, Transmittable seg) ∧
    ∀ arrivals parsed, arrivals.Perm segs → List.Forall₂ Transmitted arrivals parsed →
      ∀ malloc now, malloc message.buffer.length = true →
        ∃ out, written malloc now parsed = some [out] ∧ CarriesMessage out message

theorem Serializable.transmittable {seg : UnyteSeg} (h : Serializable seg) :
    Transmittable seg := by
  obtain ⟨bytes, hserial, _, hparse⟩ := serializeMessage_parsed h
  exact ⟨bytes, hserial, fun rest um => ⟨_, hparse rest um⟩⟩

theorem Serializable.transmitted_iff {seg : UnyteSeg} (h : Serializable seg) (p : UnyteSegMet) :
    Transmitted seg p ↔ ∃ um, p = decodedSegment seg um := by
  obtain ⟨bytes, hserial, _, hparse⟩ := serializeMessage_parsed h
  constructor
  · rintro ⟨bytes', rest, um, hserial', hp⟩
    obtain rfl := Option.some.inj (hserial'.symm.trans hserial)
    exact ⟨um, (ParseResult.ok.inj ((hparse rest um).symm.trans hp)).symm⟩
  · rintro ⟨um, rfl⟩
    exact ⟨bytes, [], um, hserial, hparse [] um⟩

/-- The length fields of a decoded segment fit its payload. -/
theorem Serializable.decoded_parsed {seg : UnyteSeg} (h : Serializable seg) (um : UnyteMin) :
    Parsed (decodedSegment seg um) := by
  have hsize := h.size
  simp only [udpSize] at hsize
  have hlength : (decodedSegment seg um).header.messageLength.toNat =
      seg.header.headerLength.toNat + seg.payload.length := by
    rw [decodedSegment, BitVec.toNat_ofNat, Nat.mod_eq_of_lt (by omega)]
  refine ⟨?_, ?_, fun hsegmented => ?_⟩
  · rw [hlength]
    exact Nat.le_add_right _ _
  · rw [hlength]
    exact (Nat.add_sub_cancel_left _ _).symm
  · have hsome := h.wellSized.isSegmented_eq.symm.trans hsegmented
    obtain ⟨s, hs⟩ := Option.isSome_iff_exists.mp hsome
    rw [decodedSegment, hs]
    exact Option.some_ne_none _

/-- A message whose options come behind no other option of the segmentation type,
and are no longer than its buffer. -/
structure FitsMtu (message : UnyteMessage) (mtu : Uint32) : Prop extends
    OptionsFit message mtu where
  type_ne : ∀ o ∈ message.options, o.type ≠ unyteTypeSegmentation
  optionBytes_le_buffer : message.optionBytes ≤ message.buffer.length

/-- What the receiver knows of segment `i` of a message split into `total`. -/
structure Piece (message : UnyteMessage) (total i : Nat) (p : UnyteSegMet) : Prop where
  parsed : Parsed p
  key : p.key = (message.observationDomainId, message.messageId)
  segmented : isSegmented p.header = true
  number : p.call.number = i / 2 ^ 8 * 2 ^ 7 + i % 2 ^ 7
  last : p.call.last = 1 ↔ i + 1 = total
  options : p.header.options = if i = 0 then buildMessageOptions message.options else []
  nonempty : i ≠ 0 → p.payload ≠ []

section Segments

variable {message : UnyteMessage} {mtu : Uint32} (h : FitsMtu message mtu)
include h

theorem FitsMtu.buildMessageOptions_type_ne :
    ∀ o ∈ buildMessageOptions message.options, o.type ≠ unyteTypeSegmentation := by
  intro o ho
  obtain ⟨option, hmem, rfl⟩ := List.mem_map.mp ho
  exact h.type_ne option hmem

theorem FitsMtu.wholeMessage_serializable
    (hwhole : message.optionBytes + message.buffer.length + headerBytes ≤ mtu.toNat) :
    Serializable (wholeMessage message (buildMessageOptions message.options)) :=
  (h.counted.wholeMessage_wellSized h.data_le (h.optionBytes_le.trans (by decide))
    (hwhole.trans h.mtu_le)).serializable h.buildMessageOptions_type_ne (fun _ hs => nomatch hs)

/-- A segment as the loop of the sender builds it. -/
theorem FitsMtu.segmentOf_serializable {total i copyIt size : Nat} (htotal : total ≤ 2 ^ 15)
    (hi : i < total) (hcopy : copyIt + size ≤ message.buffer.length)
    (husable : size + (if i = 0 then message.optionBytes else 0) ≤ mtu.toNat - 16) :
    Serializable (segmentOf message (buildMessageOptions message.options) (.ofNat 32 total)
      (.ofNat 32 i) (.ofNat 32 copyIt) (.ofNat 32 size)) := by
  have hsized := h.counted.segmentOf_wellSized h.mtu_le h.data_le h.optionBytes_le (by omega) hi
    hcopy husable
  rw [h.counted.segmentOf_eq (by omega) hi hcopy] at hsized ⊢
  refine hsized.serializable (fun o ho => ?_) (fun s hs => ?_)
  · dsimp only at ho
    split at ho
    · exact h.buildMessageOptions_type_ne o ho
    · exact absurd ho List.not_mem_nil
  · obtain rfl := Option.some.inj hs
    refine ⟨rfl, rfl, ?_⟩
    rw [BitVec.toNat_ofNat]
    omega

theorem FitsMtu.pieces_serializable {total i copyIt : Nat} {segs : List UnyteSeg}
    (htotal : total ≤ 2 ^ 15) (hs : Slices message (mtu.toNat - 16) total i copyIt segs) :
    ∀ seg ∈ segs, Serializable seg := by
  intro seg hseg
  obtain ⟨j, hj⟩ := List.mem_iff_getElem?.mp hseg
  obtain ⟨hnumber, start, size, hcopy, husable, rfl⟩ := hs.exists_segmentOf hj
  exact h.segmentOf_serializable htotal hnumber hcopy husable

/-- What the packet of a segment is parsed to. -/
theorem FitsMtu.piece {total i copyIt size : Nat} (htotal : total ≤ 2 ^ 15)
    (hi : i < total) (hcopy : copyIt + size ≤ message.buffer.length)
    (husable : size + (if i = 0 then message.optionBytes else 0) ≤ mtu.toNat - 16)
    (hpos : i ≠ 0 → 0 < size) {p : UnyteSegMet}
    (hp : Transmitted (segmentOf message (buildMessageOptions message.options) (.ofNat 32 total)
      (.ofNat 32 i) (.ofNat 32 copyIt) (.ofNat 32 size)) p) :
    Piece message total i p ∧ p.payload = (message.buffer.drop copyIt).take size := by
  have hserial := h.segmentOf_serializable htotal hi hcopy husable
  obtain ⟨um, rfl⟩ := (hserial.transmitted_iff p).mp hp
  have hparsed := hserial.decoded_parsed um
  have hsegmented := hserial.wellSized.isSegmented_eq
  rw [h.counted.segmentOf_eq (by omega) hi hcopy] at hparsed hsegmented ⊢
  refine ⟨⟨hparsed, rfl, hsegmented, ?_, ?_, rfl, fun hne => ?_⟩, rfl⟩
  · change (((wireNumber (.ofNat 31 i)).setWidth 31).setWidth 32).toNat = _
    rw [wireNumber, BitVec.toNat_setWidth, BitVec.toNat_setWidth, BitVec.toNat_ofNat,
      BitVec.toNat_ofNat]
    omega
  · change ((if i + 1 = total then (1 : BitVec 1) else 0).toNat : Int) = 1 ↔ _
    by_cases hlast : i + 1 = total
    · rw [if_pos hlast]
      exact iff_of_true rfl hlast
    · rw [if_neg hlast]
      exact iff_of_false (by decide) hlast
  · have hsize := hpos hne
    refine List.ne_nil_of_length_pos ?_
    change 0 < ((message.buffer.drop copyIt).take size).length
    rw [List.length_take, List.length_drop]
    omega

/-- What the packets from number `i` on are parsed to, in their order. -/
theorem FitsMtu.pieces {total i copyIt : Nat} {segs : List UnyteSeg} (htotal : total ≤ 2 ^ 15)
    (hs : Slices message (mtu.toNat - 16) total i copyIt segs) {parsed : List UnyteSegMet}
    (hp : List.Forall₂ Transmitted segs parsed) :
    List.Forall₂ (Piece message total) (List.range' i segs.length) parsed ∧
      messagePayload parsed = message.buffer.drop copyIt := by
  induction hs generalizing parsed with
  | done =>
      cases hp
      exact ⟨.nil, List.drop_length.symm⟩
  | @next i copyIt size segs hcopy husable hpos hrest ih =>
      obtain - | ⟨hfirst, hrest'⟩ := hp
      have hlength := hrest.length
      obtain ⟨hpiece, hpayload⟩ := h.piece htotal (by omega) hcopy husable hpos hfirst
      obtain ⟨hpieces, hpayloads⟩ := ih hrest'
      refine ⟨.cons hpiece hpieces, ?_⟩
      rw [messagePayload, List.flatMap_cons, ← messagePayload, hpayload, hpayloads,
        ← List.drop_drop, List.take_append_drop]

end Segments

section Pieces

variable {message : UnyteMessage} {total : Nat} {parsed : List UnyteSegMet}
  (h : List.Forall₂ (Piece message total) (List.range' 0 total) parsed)
include h

theorem pieces_length : parsed.length = total := by
  rw [← h.length_eq, List.length_range']

theorem pieces_getElem (i : Nat) (hi : i < parsed.length) : Piece message total i parsed[i] := by
  have hrange : i < (List.range' 0 total).length := h.length_eq.symm ▸ hi
  have hpiece := h.get hrange hi
  rw [List.get_eq_getElem, List.get_eq_getElem, List.getElem_range', Nat.zero_add,
    Nat.one_mul] at hpiece
  exact hpiece

theorem pieces_mem {p : UnyteSegMet} (hp : p ∈ parsed) : ∃ i < total, Piece message total i p := by
  obtain ⟨i, hi, rfl⟩ := List.getElem_of_mem hp
  exact ⟨i, pieces_length h ▸ hi, pieces_getElem h i hi⟩

/-- Up to 128 segments keep their numbers. -/
theorem pieces_messageSegments (hpos : 0 < total) (hfew : total ≤ 2 ^ 7) :
    MessageSegments (message.observationDomainId, message.messageId) parsed := by
  have hlength := pieces_length h
  have hnumber (i : Nat) (hi : i < parsed.length) : parsed[i].call.number = i := by
    rw [(pieces_getElem h i hi).number]
    omega
  have hnumbers : (parsed.map UnyteSegMet.call).map InsertCall.number =
      List.range (parsed.map UnyteSegMet.call).length := by
    refine List.ext_getElem (by simp) (fun i hi _ => ?_)
    rw [List.length_map, List.length_map] at hi
    rw [List.getElem_map, List.getElem_map, List.getElem_range, hnumber i hi]
  refine ⟨fun p hp => ?_, fun p hp => ?_, fun p hp => ?_, ?_, ?_, hnumbers, ?_, ?_⟩
  · obtain ⟨i, _, hpiece⟩ := pieces_mem h hp
    exact hpiece.parsed
  · obtain ⟨i, _, hpiece⟩ := pieces_mem h hp
    exact hpiece.key
  · obtain ⟨i, _, hpiece⟩ := pieces_mem h hp
    exact hpiece.segmented
  · refine List.ne_nil_of_length_pos ?_
    rw [List.length_map]
    omega
  · rw [List.length_map]
    omega
  · intro c hc
    obtain ⟨p, hp, rfl⟩ := List.mem_map.mp hc
    obtain ⟨i, hi, rfl⟩ := List.getElem_of_mem hp
    rw [(pieces_getElem h i hi).last, hnumber i hi, List.length_map, hlength]
  · intro c hc
    obtain ⟨p, _, rfl⟩ := List.mem_map.mp hc
    exact Option.some_ne_none _

/-- Only the first segment has options, so they come out the same for any order. -/
theorem pieces_arrivalOptions (hpos : 0 < total) {arrivals : List UnyteSegMet}
    (harr : arrivals.Perm parsed) :
    arrivalOptions arrivals = buildMessageOptions message.options := by
  have hlength := pieces_length h
  obtain ⟨first, rest, rfl⟩ : ∃ first rest, parsed = first :: rest :=
    List.exists_cons_of_length_pos (hlength.symm ▸ hpos)
  have hfirst : first.header.options = buildMessageOptions message.options :=
    (pieces_getElem h 0 (Nat.succ_pos _)).options
  have hrest : ∀ p ∈ rest, p.header.options = [] := by
    intro p hp
    obtain ⟨i, hi, rfl⟩ := List.getElem_of_mem hp
    exact (pieces_getElem h (i + 1) (Nat.succ_lt_succ hi)).options
  obtain ⟨before, after, rfl⟩ := List.append_of_mem (harr.symm.subset List.mem_cons_self)
  have hothers : (before ++ after).Perm rest := (List.perm_middle.symm.trans harr).cons_inv
  have hnone : (before ++ after).flatMap (fun p => p.header.options) = [] :=
    List.flatMap_eq_nil_iff.mpr (fun p hp => hrest p (hothers.subset hp))
  rw [List.flatMap_append, List.append_eq_nil_iff] at hnone
  rw [arrivalOptions, List.flatMap_append, List.flatMap_cons, hnone.1, hnone.2, hfirst,
    List.nil_append, List.append_nil]

/-- A message of up to 128 segments is written, whatever their order. -/
theorem pieces_carried (hpos : 0 < total) (hfew : total ≤ 2 ^ 7)
    (hpayload : messagePayload parsed = message.buffer) {arrivals : List UnyteSegMet}
    (harr : arrivals.Perm parsed) {malloc : Nat → Bool} (now : Int)
    (hmalloc : malloc message.buffer.length = true) :
    ∃ out, written malloc now arrivals = some [out] ∧ CarriesMessage out message := by
  obtain ⟨last, hlast, hwritten⟩ := (pieces_messageSegments h hpos hfew).written_eq harr
  obtain ⟨i, _, hpiece⟩ := pieces_mem h hlast
  obtain ⟨hodid, hmid⟩ := Prod.mk.inj hpiece.key
  have hwritten := hwritten malloc now
  rw [hpayload, Nat.mod_eq_of_lt message.buffer_lt, if_pos hmalloc] at hwritten
  refine ⟨_, hwritten, hpayload, ?_, hodid, hmid⟩
  change (arrivalOptions arrivals).map (fun o => (o.type, o.data)) = _
  rw [pieces_arrivalOptions h hpos harr, buildMessageOptions, List.map_map]
  rfl

/-- With more segments, number 128 is taken for a duplicate of number 0. -/
theorem pieces_accepted_lt (hmany : 2 ^ 7 < total) :
    ((InsertCall.accepted (parsed.map UnyteSegMet.call)).map
      (fun c => c.payloadSize.toNat)).sum < (messagePayload parsed).length := by
  have hlength := pieces_length h
  have hsplit : parsed = parsed.take 128 ++ parsed[128] :: parsed.drop 129 := by
    rw [List.getElem_cons_drop, List.take_append_drop]
  obtain ⟨before, hbefore⟩ : ∃ before, before = parsed.take 128 := ⟨_, rfl⟩
  obtain ⟨after, hafter⟩ : ∃ after, after = parsed.drop 129 := ⟨_, rfl⟩
  obtain ⟨lost, hlost⟩ : ∃ lost, lost = parsed[128] := ⟨_, rfl⟩
  have hpiece : Piece message total 128 lost := hlost ▸ pieces_getElem h 128 (by omega)
  have hfirst : parsed[0] ∈ before := by
    rw [hbefore, List.mem_take_iff_getElem]
    exact ⟨0, by omega, rfl⟩
  have hduplicate : lost.call.number ∈ (before.map UnyteSegMet.call).map InsertCall.number := by
    rw [hpiece.number, List.map_map]
    exact List.mem_map.mpr ⟨parsed[0], hfirst, (pieces_getElem h 0 (by omega)).number⟩
  have hsize : ∀ p ∈ parsed, p.call.payloadSize.toNat = p.payload.length := by
    intro p hp
    obtain ⟨i, _, hpiece⟩ := pieces_mem h hp
    exact hpiece.parsed.call_fromParser.content.symm
  have hpos : 0 < lost.payload.length :=
    List.length_pos_of_ne_nil (hpiece.nonempty (by decide))
  rw [← hbefore, ← hafter, ← hlost] at hsplit
  have hsum : ((before ++ after).map (fun p => p.call.payloadSize.toNat)).sum +
      lost.payload.length = (messagePayload parsed).length := by
    rw [messagePayload, List.length_flatMap, ← List.map_congr_left hsize, ← hsize lost
      (by rw [hsplit]; simp), hsplit]
    simp only [List.map_append, List.map_cons, List.sum_append, List.sum_cons]
    omega
  have haccepted : (InsertCall.accepted (parsed.map UnyteSegMet.call)).Sublist
      ((before ++ after).map UnyteSegMet.call) := by
    rw [hsplit, List.map_append, List.map_cons, InsertCall.accepted,
      SortedKeys.firsts_skip _ _ _ _ hduplicate, ← List.map_append]
    exact SortedKeys.firsts_sublist _ _
  have hle := (haccepted.map (fun c => c.payloadSize.toNat)).sum_le_sum (fun _ _ => Nat.zero_le _)
  rw [List.map_map] at hle
  have hsame : ((before ++ after).map ((fun c => c.payloadSize.toNat) ∘ UnyteSegMet.call)).sum =
      ((before ++ after).map (fun p => p.call.payloadSize.toNat)).sum := rfl
  omega

/-- What is written for so many segments in their order, if anything, lacks the
payload of one of them. -/
theorem pieces_lost (hmany : 2 ^ 7 < total) (hpayload : messagePayload parsed = message.buffer)
    (malloc : Nat → Bool) (now : Int) {out : UnyteSegMet}
    (hout : written malloc now parsed = some [out]) : out.payload ≠ message.buffer := by
  have hlength := pieces_length h
  have hfrom : ∀ c ∈ parsed.map UnyteSegMet.call, c.FromParser := by
    intro c hc
    obtain ⟨p, hp, rfl⟩ := List.mem_map.mp hc
    obtain ⟨i, _, hpiece⟩ := pieces_mem h hp
    exact hpiece.parsed.call_fromParser
  obtain ⟨init, last, hinit⟩ : ∃ init last, parsed = init ++ [last] :=
    (List.eq_nil_or_concat' parsed).resolve_left
      (List.ne_nil_of_length_pos (by omega))
  have hshort : init.length + 1 = total := by
    rw [← hlength, hinit, List.length_append, List.length_singleton]
  -- no list is complete before the last segment has come
  have hflag : ∀ p ∈ init, p.call.last ≠ 1 := by
    intro p hp
    obtain ⟨i, hi, rfl⟩ := List.getElem_of_mem hp
    have hpiece := pieces_getElem h i (by omega)
    have hsame : parsed[i] = init[i] := by
      simp only [hinit, List.getElem_append_left hi]
    rw [hsame] at hpiece
    exact fun hlast => absurd (hpiece.last.mp hlast) (by omega)
  have hincomplete : ∀ first, first <+: [] ++ init → ∀ head,
      Describes (first.map UnyteSegMet.call) head → head.complete = false := by
    intro first hfirst head hdesc
    rw [Bool.eq_false_iff, Ne, hdesc.complete_iff]
    rintro ⟨hannounced, _⟩
    refine hannounced ?_
    rw [InsertCall.announcedTotal_eq_zero (fun c hc => ?_)]
    · rfl
    · obtain ⟨p, hp, rfl⟩ := List.mem_map.mp hc
      exact hflag p (hfirst.subset hp)
  obtain ⟨st, hstored, hst, hdesc⟩ := handleAll_stored malloc now ParserState.init_idle
    (k := (message.observationDomainId, message.messageId)) [] init
    (fun p hp => by
      obtain ⟨i, _, hpiece⟩ := pieces_mem h (hinit ▸ List.mem_append_left [last] hp)
      exact ⟨hpiece.parsed, hpiece.key, hpiece.segmented⟩)
    (describes_nil _ _) hincomplete
  obtain ⟨i, _, hpiece⟩ := pieces_mem h
    (hinit ▸ List.mem_append_right init (List.mem_singleton_self last))
  rw [← hpiece.key] at hdesc
  obtain ⟨st', head, hdesc', _, hhandle, _, _⟩ :=
    handleParsed_describes malloc now hst hpiece.parsed hpiece.segmented hdesc
  rw [List.nil_append, ← List.map_singleton, ← List.map_append, ← hinit] at hdesc'
  rw [written, hinit, handleAll_append, hstored] at hout
  simp only [Option.bind_some, handleAll, hhandle, Option.map_some, List.nil_append,
    List.append_nil, Option.some.injEq] at hout
  have hassembled : assembleList malloc last head = some out := by
    split at hout
    · cases hlist : assembleList malloc last head with
      | none => rw [hlist] at hout; exact absurd hout (by simp)
      | some w => rw [hlist] at hout; exact congrArg some (List.singleton_inj.mp hout)
    · exact absurd hout (by simp)
  intro heq
  have hlost := pieces_accepted_lt h hmany
  rw [← hdesc'.assembled_length hfrom hassembled, hpayload, heq] at hlost
  exact absurd hlost (Nat.lt_irrefl _)

end Pieces

/-- A packet is refused if its size, cut to the length field, is less than its
header length. -/
theorem not_transmittable_of_size {seg : UnyteSeg}
    (hsize : (packetSize seg.header).toNat % 2 ^ 16 < seg.header.headerLength.toNat) :
    ¬ Transmittable seg := by
  rintro ⟨bytes, hserial, hparse⟩
  obtain ⟨p, hp⟩ := hparse [] ⟨0, 0, .zeroed, ⟨[]⟩, none⟩
  rw [List.append_nil, parseWithMetadata_eq_ok_iff] at hp
  obtain ⟨_, _, hpayload, _⟩ := hp
  obtain ⟨hheader, hmessage⟩ := serializeMessage_lengths hserial
  rw [payloadSizeOf, hheader, hmessage] at hpayload
  omega

section Main

variable {message : UnyteMessage} {mtu : Uint32} (h : FitsMtu message mtu)
include h

/-- A message of one packet comes back. -/
theorem FitsMtu.roundTrips_whole
    (hwhole : message.optionBytes + message.buffer.length + headerBytes ≤ mtu.toNat) :
    RoundTrips message mtu := by
  have hserial := h.wholeMessage_serializable hwhole
  refine ⟨_, h.counted.buildMessage_whole (Or.inl hwhole), ?_, ?_⟩
  · intro seg hseg
    rw [List.mem_singleton.mp hseg]
    exact hserial.transmittable
  · intro arrivals parsed harr hp malloc now _
    rw [List.perm_singleton.mp harr] at hp
    obtain - | ⟨hfirst, hnil⟩ := hp
    obtain - | _ := hnil
    obtain ⟨um, rfl⟩ := (hserial.transmitted_iff _).mp hfirst
    have hsegmented : isSegmented (decodedSegment
        (wholeMessage message (buildMessageOptions message.options)) um).header = false :=
      hserial.wellSized.isSegmented_eq
    refine ⟨decodedSegment (wholeMessage message (buildMessageOptions message.options)) um,
      ?_, rfl, ?_, rfl, rfl⟩
    · simp only [written, handleAll, handleParsed, hsegmented, Bool.false_eq_true, if_false,
        Option.map_some, Option.toList_some, List.append_nil]
    · change (buildMessageOptions message.options).map (fun o => (o.type, o.data)) = _
      rw [buildMessageOptions, List.map_map]
      rfl

/-- A message that is segmented comes back exactly if it has at most 128 segments. -/
theorem FitsMtu.roundTrips_segmented_iff
    (hsegs : ∀ segs, buildMessage message mtu = some segs → segs.length ≤ 2 ^ 15)
    (hlarge : mtu.toNat < message.optionBytes + message.buffer.length + headerBytes)
    (hwrap : message.optionBytes + message.buffer.length + headerBytes < 2 ^ 32) :
    RoundTrips message mtu ↔
      packetCount (message.optionBytes + message.buffer.length) (mtu.toNat - 16) ≤ 2 ^ 7 := by
  obtain ⟨segs, hbuild, hslices⟩ :=
    h.counted.buildMessage_slices h.optionBytes_le_buffer hlarge hwrap
  obtain ⟨total, htotal⟩ : ∃ total, total =
    packetCount (message.optionBytes + message.buffer.length) (mtu.toNat - 16) := ⟨_, rfl⟩
  have hmtu := h.mtu_gt
  simp only [headerBytes, unyteSegmentationOptionLen] at hmtu hlarge
  have husable : 0 < mtu.toNat - 16 := by omega
  rw [← htotal] at hslices ⊢
  have hlength := hslices.length
  rw [Nat.zero_add] at hlength
  have hbound := hsegs segs hbuild
  have hserial := h.pieces_serializable (by omega) hslices
  constructor
  · rintro ⟨segs', hbuild', _, hround⟩
    obtain rfl := Option.some.inj (hbuild'.symm.trans hbuild)
    by_contra hmany
    -- the packets in their order
    have hp : List.Forall₂ Transmitted segs'
        (segs'.map (fun seg => decodedSegment seg ⟨0, 0, .zeroed, ⟨[]⟩, none⟩)) := by
      rw [List.forall₂_map_right_iff, List.forall₂_same]
      exact fun seg hseg => ((hserial seg hseg).transmitted_iff _).mpr ⟨_, rfl⟩
    obtain ⟨hpieces, hpayload⟩ := h.pieces (by omega) hslices hp
    rw [hlength] at hpieces
    obtain ⟨out, hout, hcarries⟩ := hround segs' _ (List.Perm.refl _) hp (fun _ => true) 0 rfl
    exact pieces_lost hpieces (by omega) hpayload _ _ hout hcarries.payload
  · intro hfew
    refine ⟨segs, hbuild, fun seg hseg => (hserial seg hseg).transmittable, ?_⟩
    intro arrivals parsed harr hp malloc now hmalloc
    obtain ⟨sorted, hsorted, hperm⟩ := List.perm_comp_forall₂ harr.symm hp
    obtain ⟨hpieces, hpayload⟩ := h.pieces (by omega) hslices hsorted
    rw [hlength] at hpieces
    have hpos : 0 < total := by
      by_contra hzero
      have hbytes : 0 < message.optionBytes + message.buffer.length := by omega
      have hnone := (packetCount_le_iff hbytes husable 0).mp (by omega)
      omega
    exact pieces_carried hpieces hpos hfew hpayload hperm.symm now hmalloc

/-- A message whose size wraps is sent in one packet, which is refused. -/
theorem FitsMtu.not_roundTrips_of_wrap
    (hwrap : 2 ^ 32 ≤ message.optionBytes + message.buffer.length + headerBytes) :
    ¬ RoundTrips message mtu := by
  rintro ⟨segs, hbuild, htransmit, _⟩
  obtain rfl := Option.some.inj (hbuild.symm.trans (h.counted.buildMessage_whole (Or.inr hwrap)))
  refine not_transmittable_of_size ?_ (htransmit _ (List.mem_singleton_self _))
  have hopts := h.counted.total
  have hoption := h.optionBytes_le
  have hlt := message.buffer_lt
  simp only [headerBytes] at hwrap
  have hheader : (wholeMessage message
      (buildMessageOptions message.options)).header.headerLength.toNat =
      12 + message.optionBytes := by
    simp only [wholeMessage, headerBytes, BitVec.toNat_setWidth, BitVec.toNat_add,
      BitVec.toNat_ofNat, hopts]
    omega
  have hwhole : isSegmented (wholeMessage message
      (buildMessageOptions message.options)).header = false := by
    rw [Bool.eq_false_iff, Ne, isSegmented_iff, hheader]
    change ¬ (12 + (optionsTotalBytes (buildMessageOptions message.options)).toNat) % 2 ^ 32 < _
    rw [hopts]
    omega
  have hzero : (0 : Uint32).toNat = 0 := rfl
  rw [hheader, packetSize, hwhole]
  simp only [wholeMessage, headerBytes, Bool.false_eq_true, if_false, BitVec.toNat_add,
    BitVec.toNat_ofNat, BitVec.toNat_setWidth, hopts, message.bufferLen_toNat, hzero]
  omega

/-- A message comes back from its packets exactly if these are at most 128. -/
theorem roundTrips_iff
    (hsegs : ∀ segs, buildMessage message mtu = some segs → segs.length ≤ 2 ^ 15) :
    RoundTrips message mtu ↔
      message.optionBytes + message.buffer.length ≤ 2 ^ 7 * (mtu.toNat - 16) := by
  have hmtu := h.mtu_gt
  have hmtu_le := h.mtu_le
  simp only [headerBytes, unyteSegmentationOptionLen, udpSize] at hmtu hmtu_le
  by_cases hwhole : message.optionBytes + message.buffer.length + headerBytes ≤ mtu.toNat
  · refine iff_of_true (h.roundTrips_whole hwhole) ?_
    simp only [headerBytes] at hwhole
    omega
  by_cases hwrap : 2 ^ 32 ≤ message.optionBytes + message.buffer.length + headerBytes
  · refine iff_of_false (h.not_roundTrips_of_wrap hwrap) ?_
    simp only [headerBytes] at hwrap
    omega
  · rw [h.roundTrips_segmented_iff hsegs (by omega) (by omega)]
    simp only [headerBytes] at hwhole
    exact packetCount_le_iff (by omega) (by omega) _

end Main

/-- With an MTU of 17 every segment carries one byte. -/
theorem plainMessage_fitsMtu (buffer : List Uint8) (h : buffer.length < 2 ^ 32) :
    FitsMtu (plainMessage buffer h) 17 where
  data_le := fun o ho => absurd ho List.not_mem_nil
  optionBytes_le := Nat.zero_le _
  mtu_gt := (by decide : 16 < 17)
  mtu_le := by decide
  type_ne := fun o ho => absurd ho List.not_mem_nil
  optionBytes_le_buffer := Nat.zero_le _

theorem plainMessage_segments {buffer : List Uint8} (h : buffer.length < 2 ^ 32)
    (hlarge : 5 < buffer.length) (hsmall : buffer.length ≤ 2 ^ 15) {segs : List UnyteSeg}
    (hbuild : buildMessage (plainMessage buffer h) 17 = some segs) : segs.length ≤ 2 ^ 15 := by
  have hfits := plainMessage_fitsMtu buffer h
  have hbytes : (plainMessage buffer h).optionBytes + (plainMessage buffer h).buffer.length =
      buffer.length := Nat.zero_add _
  have hmtu : (17 : Uint32).toNat = 17 := rfl
  obtain ⟨segs', hbuild', hslices⟩ := hfits.counted.buildMessage_slices (Nat.zero_le _)
    (by rw [hbytes, hmtu]; simp only [headerBytes]; omega)
    (by rw [hbytes]; simp only [headerBytes]; omega)
  obtain rfl := Option.some.inj (hbuild.symm.trans hbuild')
  have hlength := hslices.length
  rw [hbytes, Nat.zero_add] at hlength
  rw [hlength, packetCount_le_iff (by omega) (by decide), hmtu]
  omega

/-- Six segments of one byte. -/
theorem roundTrips_six_segments : RoundTrips (plainMessage [1, 2, 3, 4, 5, 6] (by decide)) 17 :=
  (roundTrips_iff (plainMessage_fitsMtu _ _)
    (fun _ => plainMessage_segments _ (by decide) (by decide))).mpr (by decide)

/-- A message of 129 segments does not come back. -/
theorem roundTrip_fails_129_segments :
    ¬ ∀ message mtu, FitsMtu message mtu →
      (∀ segs, buildMessage message mtu = some segs → segs.length ≤ 2 ^ 15) →
      RoundTrips message mtu := by
  intro hclaim
  obtain ⟨buffer, hbuffer⟩ : ∃ buffer, buffer = List.replicate 129 (0 : Uint8) := ⟨_, rfl⟩
  have hlength : buffer.length = 129 := hbuffer ▸ List.length_replicate
  have h : buffer.length < 2 ^ 32 := by omega
  have hfits := plainMessage_fitsMtu buffer h
  have hsegs : ∀ segs, buildMessage (plainMessage buffer h) 17 = some segs →
      segs.length ≤ 2 ^ 15 := fun _ => plainMessage_segments h (by omega) (by omega)
  have hbytes : (plainMessage buffer h).optionBytes + (plainMessage buffer h).buffer.length =
      129 := (Nat.zero_add _).trans hlength
  have hmtu : (17 : Uint32).toNat = 17 := rfl
  have hround := hclaim _ 17 hfits hsegs
  rw [hfits.roundTrips_segmented_iff hsegs
    (by rw [hbytes, hmtu]; simp only [headerBytes]; omega)
    (by rw [hbytes]; simp only [headerBytes]; omega), hbytes, hmtu] at hround
  exact absurd hround (by decide)

end UdpNotif
