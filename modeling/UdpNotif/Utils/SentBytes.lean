import UdpNotif.Utils.Send

/-!
The bytes that `unyte_send` hands to `send` are the packet that `serialize_message`
wrote, as long as the sizes fit the fields that they are kept in: the length byte of
an option, the header length and the message length.
-/

namespace UdpNotif

/-- An option on the wire: `data_length + 2` bytes. -/
def UnyteSendOption.bytes (o : UnyteSendOption) : List Uint8 :=
  o.type :: .ofNat 8 (o.data.length + 2) :: o.data

/-- The offset at which the payload starts. -/
def payloadOffset (segmented : Bool) (options : List UnyteSendOption) : Nat :=
  headerBytes + (if segmented then unyteSegmentationOptionLen else 0) +
    (options.map (fun o => o.data.length + 2)).sum

/-- The bytes of a packet are what its sizes say, wherever they are counted. -/
structure SentPacket (segmented : Bool) (options : List UnyteSendOption) (seg : UnyteSeg)
    (bytes : List Uint8) : Prop where
  sent : seg.header.headerLength.toNat + seg.header.messageLength.toNat = bytes.length
  allocated : (packetSize seg.header).toNat = bytes.length
  lengthField : (ntohs (deserializeUint16 bytes 2)).toNat = bytes.length
  payloadStart : (charAt bytes 1).toNat = payloadOffset segmented options
  segmentation : isSegmented seg.header = segmented
  layout : ∃ fixed segmentation, fixed.length = headerBytes ∧
    segmentation.length = (if segmented then unyteSegmentationOptionLen else 0) ∧
      bytes = fixed ++ segmentation ++ options.flatMap UnyteSendOption.bytes ++ seg.payload

/-- Every segment is sent as it was serialized. The custom options are in the first,
and there is more than one where `build_message` took the segmented branch. -/
def SentAsSerialized (message : UnyteMessage) (mtu : Uint32) : Prop :=
  ∃ segs, buildMessage message mtu = some segs ∧ ∀ i seg, segs[i]? = some seg →
    ∃ bytes, serializeMessage seg = some bytes ∧
      SentPacket (segs.length ≠ 1) (if i = 0 then message.options else []) seg bytes

/-- The sizes fit their fields: the length byte of each option, the header length
with the segmentation option if there is one, and the count of the bytes. -/
structure SizesFit (message : UnyteMessage) (mtu : Uint32) : Prop where
  data_le : ∀ o ∈ message.options, o.data.length ≤ 253
  header_le : message.optionBytes ≤
    if message.optionBytes + message.buffer.length + headerBytes ≤ mtu.toNat then 243 else 239
  size_lt : message.optionBytes + message.buffer.length + headerBytes < 2 ^ 32

theorem buildMessageOptions_bytes (options : List UnyteSendOption) :
    (buildMessageOptions options).flatMap (fun o => o.type :: o.length :: o.data) =
      options.flatMap UnyteSendOption.bytes := by
  rw [buildMessageOptions, List.flatMap_map]
  refine List.flatMap_congr (fun o _ => ?_)
  rw [buildMessageOption, UnyteSendOption.bytes, BitVec.ofNat_add]
  rfl

/-- A segment whose sizes agree is sent as it was serialized. -/
theorem WellSized.sentPacket {seg : UnyteSeg} (h : WellSized seg)
    {options : List UnyteSendOption} (hoptions : seg.header.options = buildMessageOptions options)
    (hdata : ∀ o ∈ options, o.data.length ≤ 253) :
    ∃ bytes, serializeMessage seg = some bytes ∧
      SentPacket seg.header.segmentation.isSome options seg bytes := by
  obtain ⟨fixed, hfixed, hserial⟩ := h.serializeMessage_eq
  obtain ⟨hbyte, hfield⟩ := serializeMessage_lengths hserial
  have hpacket := h.packetSize_toNat
  have hsize := h.size
  have hmessage := h.messageLength
  have hsegmentation : (seg.header.segmentation.elim [] serializeSegmentation).length =
      if seg.header.segmentation.isSome then unyteSegmentationOptionLen else 0 := by
    cases seg.header.segmentation <;> rfl
  have hsum : ((buildMessageOptions options).map (fun o => o.length.toNat)).sum =
      (options.map (fun o => o.data.length + 2)).sum := by
    rw [buildMessageOptions, List.map_map]
    exact congrArg List.sum (List.map_congr_left
      (fun o ho => buildMessageOption_length (hdata o ho)))
  have hstart : seg.header.headerLength.toNat =
      payloadOffset seg.header.segmentation.isSome options := by
    rw [h.headerLength, hoptions, hsum, payloadOffset]
    cases seg.header.segmentation with
    | none => rfl
    | some s =>
        rw [if_neg (Option.some_ne_none s)]
        exact Nat.add_right_comm _ _ _
  have hbytes : (options.flatMap UnyteSendOption.bytes).length =
      (options.map (fun o => o.data.length + 2)).sum := List.length_flatMap
  rw [hoptions, buildMessageOptions_bytes] at hserial
  have hlength : (fixed ++ seg.header.segmentation.elim [] serializeSegmentation ++
      options.flatMap UnyteSendOption.bytes ++ seg.payload).length =
        seg.header.headerLength.toNat + seg.payload.length := by
    rw [List.length_append, List.length_append, List.length_append, hfixed, hsegmentation, hbytes,
      hstart, payloadOffset]
  refine ⟨_, hserial, ?_⟩
  rw [hoptions, buildMessageOptions_bytes] at hbyte hfield
  constructor
  · rw [hlength, hmessage]
  · rw [hlength, hpacket]
  · rw [hlength, hfield, hpacket]
    simp only [udpSize] at hsize
    omega
  · rw [hbyte, hstart]
  · exact h.isSegmented_eq
  · exact ⟨fixed, _, hfixed, hsegmentation, rfl⟩

/-- An option that `memcpy` can copy has a length byte with room for its head. -/
theorem length_of_mapM_serializeOption {options : List UnyteOption} {bytes : List (List Uint8)}
    (h : options.mapM serializeOption = some bytes) : ∀ o ∈ options, 2 ≤ o.length.toNat := by
  induction options generalizing bytes with
  | nil => exact fun o ho => absurd ho List.not_mem_nil
  | cons o options ih =>
      simp only [List.mapM_cons, Option.bind_eq_bind, Option.bind_eq_some_iff] at h
      obtain ⟨first, hfirst, rest, hrest, _⟩ := h
      intro p hp
      rcases List.mem_cons.mp hp with rfl | hp
      · unfold serializeOption at hfirst
        split at hfirst
        · rename_i hroom
          exact hroom.1
        · cases hfirst
      · exact ih hrest p hp

/-- The length byte of 254 or 255 bytes of data has wrapped. -/
theorem data_le_of_serialized {seg : UnyteSeg} {bytes : List Uint8}
    (h : serializeMessage seg = some bytes) {options : List UnyteSendOption}
    (hoptions : seg.header.options = buildMessageOptions options) :
    ∀ o ∈ options, o.data.length ≤ 253 := by
  simp only [serializeMessage, Option.bind_eq_bind, Option.bind_eq_some_iff] at h
  obtain ⟨_, _, _, hmap, _⟩ := h
  intro o ho
  have hlength := length_of_mapM_serializeOption hmap (buildMessageOption o)
    (hoptions ▸ List.mem_map_of_mem ho)
  have htwo : (2 : Uint8).toNat = 2 := rfl
  rw [buildMessageOption, BitVec.toNat_add, BitVec.toNat_ofNat, htwo] at hlength
  have hlt := o.data_lt
  omega

theorem segmentLoop_head {message : UnyteMessage} {options : List UnyteOption} {n : Nat}
    {usable segmentsLen i copyIt : Uint32} {segs : List UnyteSeg}
    (h : segmentLoop message options usable segmentsLen (n + 1) i copyIt = some segs) :
    ∃ bytesToSend rest,
      segs = segmentOf message options segmentsLen i copyIt bytesToSend :: rest := by
  rw [segmentLoop, Option.ite_none_right_eq_some] at h
  obtain ⟨rest, _, rfl⟩ := Option.map_eq_some_iff.mp h.2
  exact ⟨_, rest, rfl⟩

/-- There is a first segment, and it has the custom options. -/
theorem buildMessage_first {message : UnyteMessage} {mtu : Uint32} {segs : List UnyteSeg}
    (hmtu : headerBytes + unyteSegmentationOptionLen < mtu.toNat)
    (hbuild : buildMessage message mtu = some segs) :
    ∃ seg, segs[0]? = some seg ∧ seg.header.options = buildMessageOptions message.options := by
  obtain ⟨total, htotal⟩ : ∃ total, total =
    optionsTotalBytes (buildMessageOptions message.options) + message.bufferLen := ⟨_, rfl⟩
  obtain ⟨usable, husable⟩ : ∃ usable, usable =
    mtu - BitVec.ofNat 32 headerBytes - BitVec.ofNat 32 unyteSegmentationOptionLen := ⟨_, rfl⟩
  by_cases hcond : mtu < total + BitVec.ofNat 32 headerBytes
  · have hpackets : ∃ k, packetsToSend total usable mtu = some k ∧ 0 < k.toNat := by
      have hbound := mtu.isLt
      have hlt := total.isLt
      simp only [headerBytes, unyteSegmentationOptionLen] at hmtu husable hcond
      rw [BitVec.lt_def, BitVec.toNat_add, BitVec.toNat_ofNat] at hcond
      have hpos : 0 < usable.toNat := by
        rw [husable]
        simp only [BitVec.toNat_sub, BitVec.toNat_ofNat]
        omega
      have hsome : packetsToSend total usable mtu =
          some (.ofNat 32 (packetCount total.toNat usable.toNat)) :=
        packetsToSend_eq (by rw [headerBytes]; omega) (by rw [headerBytes]; omega) hpos
      refine ⟨_, hsome, ?_⟩
      have hlower := packetCount_le_iff (by omega : 0 < total.toNat) hpos 0
      have hupper := (packetCount_le_iff (by omega : 0 < total.toNat) hpos total.toNat).mpr
        (Nat.le_mul_of_pos_right _ hpos)
      rw [Nat.zero_mul] at hlower
      rw [BitVec.toNat_ofNat, Nat.mod_eq_of_lt (by omega)]
      omega
    obtain ⟨k, hk, hpos⟩ := hpackets
    simp only [buildMessage, ← htotal, ← husable, hk] at hbuild
    split at hbuild
    · obtain rfl := Option.some.inj hbuild
      exact ⟨_, rfl, rfl⟩
    · obtain ⟨n, hn⟩ := Nat.exists_eq_succ_of_ne_zero (Nat.ne_of_gt hpos)
      rw [hn] at hbuild
      obtain ⟨bytesToSend, rest, rfl⟩ := segmentLoop_head hbuild
      exact ⟨_, rfl, rfl⟩
  · rw [htotal] at hcond
    obtain rfl := Option.some.inj (hbuild.symm.trans (buildMessage_of_not_lt hcond))
    exact ⟨_, rfl, rfl⟩

section Sent

variable {message : UnyteMessage} {mtu : Uint32}

/-- What fits its fields is sent as it was serialized. -/
theorem SizesFit.sentAsSerialized (h : SizesFit message mtu)
    (hbuffer : message.optionBytes ≤ message.buffer.length)
    (hcounted : OptionsCounted message mtu) (hmtu : mtu.toNat ≤ udpSize) :
    SentAsSerialized message mtu := by
  have hheader := h.header_le
  by_cases hwhole : message.optionBytes + message.buffer.length + headerBytes ≤ mtu.toNat
  · rw [if_pos hwhole] at hheader
    refine ⟨_, hcounted.buildMessage_whole (Or.inl hwhole), fun i seg hseg => ?_⟩
    obtain ⟨hi, rfl⟩ := List.getElem?_eq_some_iff.mp hseg
    obtain rfl : i = 0 := Nat.lt_one_iff.mp hi
    exact (hcounted.wholeMessage_wellSized h.data_le hheader (hwhole.trans hmtu)).sentPacket rfl
      h.data_le
  · rw [if_neg hwhole] at hheader
    obtain ⟨segs, hbuild, hslices⟩ :=
      hcounted.buildMessage_slices hbuffer (Nat.not_le.mp hwhole) h.size_lt
    obtain ⟨n, hcount, hn, _⟩ :=
      hcounted.buildMessage_segmented (Nat.not_le.mp hwhole) h.size_lt
    have hlength := hslices.length
    rw [hcount] at hslices hlength
    refine ⟨segs, hbuild, fun i seg hseg => ?_⟩
    obtain ⟨hi, start, size, hcopy, husable, rfl⟩ := hslices.exists_segmentOf hseg
    rw [Nat.zero_add] at hi husable ⊢
    have hsized := hcounted.segmentOf_wellSized hmtu h.data_le hheader hn hi hcopy husable
    have hmany : decide (segs.length ≠ 1) = true := decide_eq_true (by omega)
    rw [hmany]
    have hoptions : (segmentOf message (buildMessageOptions message.options) (.ofNat 32 (n + 2))
        (.ofNat 32 i) (.ofNat 32 start) (.ofNat 32 size)).header.options =
          buildMessageOptions (if i = 0 then message.options else []) := by
      rw [hcounted.segmentOf_eq hn hi hcopy]
      split <;> rfl
    refine hsized.sentPacket hoptions ?_
    split
    · exact h.data_le
    · exact fun o ho => absurd ho List.not_mem_nil

/-- One packet that is sent as it was serialized has its header length in a byte, and
its size in two. -/
theorem SentPacket.whole_bounds (hcounted : OptionsCounted message mtu) {bytes : List Uint8}
    (h : SentPacket false message.options
      (wholeMessage message (buildMessageOptions message.options)) bytes) :
    message.optionBytes ≤ 243 ∧
      headerBytes + message.optionBytes + message.buffer.length % 2 ^ 16 < 2 ^ 16 := by
  have hstart := h.payloadStart
  have hbyte := (charAt bytes 1).isLt
  change (charAt bytes 1).toNat = 12 + 0 + message.optionBytes at hstart
  have hoption : message.optionBytes ≤ 243 := by omega
  have hmessage : (wholeMessage message
      (buildMessageOptions message.options)).header.messageLength.toNat =
      message.buffer.length % 2 ^ 16 := by
    simp only [wholeMessage, BitVec.toNat_setWidth, message.bufferLen_toNat]
  have hsent := h.sent
  rw [hcounted.wholeMessage_headerLength hoption, hmessage, ← h.lengthField] at hsent
  exact ⟨hoption, hsent.trans_lt (ntohs (deserializeUint16 bytes 2)).isLt⟩

/-- What is sent as it was serialized fits its fields. -/
theorem SentAsSerialized.sizesFit (h : SentAsSerialized message mtu)
    (hbuffer : message.optionBytes ≤ message.buffer.length)
    (hroom : headerBytes + unyteSegmentationOptionLen + message.optionBytes < mtu.toNat) :
    SizesFit message mtu := by
  obtain ⟨segs, hbuild, hsent⟩ := h
  obtain ⟨seg, hseg, hoptions⟩ := buildMessage_first (Nat.lt_of_le_of_lt (Nat.le_add_right _ _)
    hroom) hbuild
  obtain ⟨bytes, hserial, hpacket⟩ := hsent 0 seg hseg
  rw [if_pos rfl] at hpacket
  have hdata := data_le_of_serialized hserial hoptions
  have hcounted := OptionsCounted.of_data_le hdata hroom
  have hone (hwhole : message.optionBytes + message.buffer.length + headerBytes ≤ mtu.toNat ∨
      2 ^ 32 ≤ message.optionBytes + message.buffer.length + headerBytes) :
      message.optionBytes ≤ 243 ∧
        headerBytes + message.optionBytes + message.buffer.length % 2 ^ 16 < 2 ^ 16 := by
    obtain rfl := Option.some.inj (hbuild.symm.trans (hcounted.buildMessage_whole hwhole))
    obtain rfl := Option.some.inj hseg
    exact hpacket.whole_bounds hcounted
  -- a size that wraps leaves a length behind that does not fit two bytes
  have hsize : message.optionBytes + message.buffer.length + headerBytes < 2 ^ 32 := by
    by_contra hwrap
    obtain ⟨hoption, hlength⟩ := hone (Or.inr (Nat.not_lt.mp hwrap))
    have hlt := message.buffer_lt
    simp only [headerBytes] at hwrap hlength
    omega
  refine ⟨hdata, ?_, hsize⟩
  split
  · rename_i hwhole
    exact (hone (Or.inl hwhole)).1
  · rename_i hlarge
    obtain ⟨segs', hbuild', hslices⟩ :=
      hcounted.buildMessage_slices hbuffer (Nat.not_le.mp hlarge) hsize
    obtain ⟨n, hcount, _, _⟩ := hcounted.buildMessage_segmented (Nat.not_le.mp hlarge) hsize
    obtain rfl := Option.some.inj (hbuild.symm.trans hbuild')
    have hlength := hslices.length
    rw [hcount] at hlength
    have hmany : decide (segs.length ≠ 1) = true := decide_eq_true (by omega)
    have hstart := hpacket.payloadStart
    have hbyte := (charAt bytes 1).isLt
    rw [hmany] at hstart
    change (charAt bytes 1).toNat = 12 + 4 + message.optionBytes at hstart
    omega

end Sent

/-- The bytes sent are the packet that was serialized exactly if its sizes fit the
fields that count them. -/
theorem sent_bytes_iff {message : UnyteMessage} {mtu : Uint32}
    (hbuffer : message.optionBytes ≤ message.buffer.length)
    (hroom : headerBytes + unyteSegmentationOptionLen + message.optionBytes < mtu.toNat)
    (hmtu : mtu.toNat ≤ udpSize) :
    SentAsSerialized message mtu ↔ SizesFit message mtu := by
  constructor
  · exact fun h => h.sizesFit hbuffer hroom
  · exact fun h => h.sentAsSerialized hbuffer (.of_data_le h.data_le hroom) hmtu

/-- A message of `bufferLen` zero bytes with one custom option of `dataLength`. -/
def zeroMessage (bufferLen dataLength : Nat) (hbuffer : bufferLen < 2 ^ 32)
    (hdata : dataLength < 2 ^ 8) : UnyteMessage where
  buffer := List.replicate bufferLen 0
  version := 1
  space := 0
  mediaType := 1
  observationDomainId := 7
  messageId := 9
  options := [⟨2, List.replicate dataLength 0, by rwa [List.length_replicate]⟩]
  buffer_lt := by rwa [List.length_replicate]

theorem zeroMessage_optionBytes (bufferLen dataLength : Nat) (hbuffer : bufferLen < 2 ^ 32)
    (hdata : dataLength < 2 ^ 8) :
    (zeroMessage bufferLen dataLength hbuffer hdata).optionBytes = dataLength + 2 := by
  change (List.replicate dataLength (0 : Uint8)).length + 2 + 0 = dataLength + 2
  rw [List.length_replicate]

/-- An option of three bytes before a hundred bytes, in packets of sixty. -/
theorem sent_bytes_hundred : SentAsSerialized (zeroMessage 100 1 (by decide) (by decide)) 60 :=
  (sent_bytes_iff (by decide) (by decide) (by decide)).mpr
    ⟨by decide, by decide, by decide⟩

/-- The length byte of an option with 254 bytes of data wraps to zero, and is then
the size of a copy. -/
theorem sent_bytes_fails_long_option :
    ¬ ∀ (message : UnyteMessage) (mtu : Uint32), message.optionBytes ≤ message.buffer.length →
      headerBytes + unyteSegmentationOptionLen + message.optionBytes < mtu.toNat →
      mtu.toNat ≤ udpSize → SentAsSerialized message mtu := by
  intro hclaim
  obtain ⟨message, hmessage⟩ : ∃ message, message = zeroMessage 300 254 (by decide) (by decide) :=
    ⟨_, rfl⟩
  have hbytes : message.optionBytes = 256 := by
    rw [hmessage]
    exact zeroMessage_optionBytes 300 254 _ _
  have hlength : message.buffer.length = 300 := by
    rw [hmessage]
    exact List.length_replicate
  have hroom : headerBytes + unyteSegmentationOptionLen + message.optionBytes <
      (1500 : Uint32).toNat := by
    rw [hbytes]
    decide
  have hsent := hclaim message 1500 (by omega) hroom (by decide)
  have hdata := (hsent.sizesFit (by omega) hroom).data_le
  rw [hmessage] at hdata
  have hlong := hdata _ List.mem_cons_self
  rw [List.length_replicate] at hlong
  omega

end UdpNotif
