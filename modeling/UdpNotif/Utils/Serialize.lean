import UdpNotif.Utils.WireFormat

/-!
`serialize_message` of `unyte_udp_utils.c`, and what its packets are parsed to.
The sender keeps the number of payload bytes in `message_length`; the packet
carries the number of all its bytes there.
-/

namespace UdpNotif

/-- One custom option, `none` where `memcpy` is given a negative size or reads
beyond the data. -/
def serializeOption (cur : UnyteOption) : Option (List Uint8) :=
  if 2 ≤ cur.length.toNat ∧ cur.length.toNat - 2 ≤ cur.data.length then
    some (cur.type :: cur.length :: cur.data.take (cur.length.toNat - 2))
  else none

/-- The segmentation option. -/
def serializeSegmentation (s : UnyteSegmentation) : List Uint8 :=
  [s.fType, s.fLen, (s.fNum >>> 8).setWidth 8,
    (s.fNum.setWidth 32 <<< 1 + s.fLast.setWidth 32).setWidth 8]

/-- The segmentation option, if there is one: `none` where its fields were never
written. -/
def segmentationBytes (header : UnyteHeader) : Option (List Uint8) :=
  if isSegmented header then header.segmentation.map serializeSegmentation else some []

/-- The size of the packet written for a message. -/
def packetSize (header : UnyteHeader) : Uint32 :=
  BitVec.ofNat 32 headerBytes + optionsTotalBytes header.options +
    header.messageLength.setWidth 32 +
    (if isSegmented header then BitVec.ofNat 32 unyteSegmentationOptionLen else 0)

/-- Serialize a message to its packet, `none` where it reads beyond its data or
fields that were never written. -/
def serializeMessage (msg : UnyteSeg) : Option (List Uint8) := do
  let header := msg.header
  let size := packetSize header
  let segmentation ← segmentationBytes header
  let options ← header.options.mapM serializeOption
  if header.messageLength.toNat ≤ msg.payload.length then
    some ([header.version.setWidth 8 <<< 5 + header.space.setWidth 8 <<< 4 +
        header.mediaType.setWidth 8, header.headerLength,
        (size >>> 8).setWidth 8, size.setWidth 8] ++
      networkBytes32 header.observationDomainId ++ networkBytes32 header.messageId ++
      segmentation ++ options.flatten ++ msg.payload.take header.messageLength.toNat)
  else none

/-- The length fields of a packet. -/
theorem serializeMessage_lengths {msg : UnyteSeg} {bytes : List Uint8}
    (h : serializeMessage msg = some bytes) :
    charAt bytes 1 = msg.header.headerLength ∧
      (ntohs (deserializeUint16 bytes 2)).toNat = (packetSize msg.header).toNat % 2 ^ 16 := by
  simp only [serializeMessage, Option.bind_eq_bind, Option.bind_eq_some_iff] at h
  obtain ⟨segmentation, _, options, _, h⟩ := h
  split at h
  · obtain rfl := Option.some.inj h
    refine ⟨rfl, ?_⟩
    rw [ntohs_deserializeUint16]
    change ((packetSize msg.header >>> 8).setWidth 8).toNat * 2 ^ 8 +
      ((packetSize msg.header).setWidth 8).toNat = _
    rw [BitVec.toNat_setWidth, BitVec.toNat_setWidth, BitVec.toNat_ushiftRight,
      Nat.shiftRight_eq_div_pow]
    omega
  · exact nomatch h

/-- A message whose sizes agree: the length byte of each option is that of its data,
the header length covers the options, and `message_length` is the size of the
payload. -/
structure WellSized (seg : UnyteSeg) : Prop where
  options : ∀ o ∈ seg.header.options, o.data.length + 2 = o.length.toNat
  headerLength : seg.header.headerLength.toNat =
    headerBytes + (seg.header.options.map (fun o => o.length.toNat)).sum +
      (if seg.header.segmentation = none then 0 else unyteSegmentationOptionLen)
  messageLength : seg.header.messageLength.toNat = seg.payload.length
  size : seg.header.headerLength.toNat + seg.payload.length ≤ udpSize

/-- A message as the sender builds it: its options fit their length bytes, its
header length covers them, and `message_length` is the size of the payload. -/
structure Serializable (seg : UnyteSeg) : Prop where
  options : ∀ o ∈ seg.header.options,
    o.type ≠ unyteTypeSegmentation ∧ o.data.length + 2 = o.length.toNat
  segmentation : ∀ s, seg.header.segmentation = some s →
    s.fType = unyteTypeSegmentation ∧ s.fLen.toNat = unyteSegmentationOptionLen ∧
      s.fNum.toNat < 2 ^ 15
  headerLength : seg.header.headerLength.toNat =
    headerBytes + (seg.header.options.map (fun o => o.length.toNat)).sum +
      (if seg.header.segmentation = none then 0 else unyteSegmentationOptionLen)
  messageLength : seg.header.messageLength.toNat = seg.payload.length
  size : seg.header.headerLength.toNat + seg.payload.length ≤ udpSize

theorem Serializable.wellSized {seg : UnyteSeg} (h : Serializable seg) : WellSized seg where
  options := fun o ho => (h.options o ho).2
  headerLength := h.headerLength
  messageLength := h.messageLength
  size := h.size

theorem WellSized.serializable {seg : UnyteSeg} (h : WellSized seg)
    (htype : ∀ o ∈ seg.header.options, o.type ≠ unyteTypeSegmentation)
    (hsegmentation : ∀ s, seg.header.segmentation = some s →
      s.fType = unyteTypeSegmentation ∧ s.fLen.toNat = unyteSegmentationOptionLen ∧
        s.fNum.toNat < 2 ^ 15) : Serializable seg where
  options := fun o ho => ⟨htype o ho, h.options o ho⟩
  segmentation := hsegmentation
  headerLength := h.headerLength
  messageLength := h.messageLength
  size := h.size

/-- Whether a message counts as segmented is whether it has segmentation fields. -/
theorem WellSized.isSegmented_eq {seg : UnyteSeg} (h : WellSized seg) :
    isSegmented seg.header = seg.header.segmentation.isSome := by
  have hheader := h.headerLength
  have hlen := seg.header.headerLength.isLt
  rw [Bool.eq_iff_iff, isSegmented_iff, optionsTotalBytes_toNat, Option.isSome_iff_ne_none]
  by_cases hnone : seg.header.segmentation = none
  · rw [if_pos hnone] at hheader
    simp only [headerBytes] at hheader
    simp only [hnone, ne_eq, not_true, iff_false]
    omega
  · rw [if_neg hnone] at hheader
    simp only [headerBytes, unyteSegmentationOptionLen] at hheader
    simp only [hnone, ne_eq, not_false_eq_true, iff_true]
    omega

/-- The packet size is the size of header and payload. -/
theorem WellSized.packetSize_toNat {seg : UnyteSeg} (h : WellSized seg) :
    (packetSize seg.header).toNat = seg.header.headerLength.toNat + seg.payload.length := by
  have hheader := h.headerLength
  have hlen := seg.header.headerLength.isLt
  have hmessage := h.messageLength
  have hml := seg.header.messageLength.isLt
  have hsum := optionsTotalBytes_toNat seg.header.options
  rw [packetSize, h.isSegmented_eq]
  cases hseg : seg.header.segmentation with
  | none =>
      rw [hseg, if_pos rfl] at hheader
      simp only [headerBytes] at hheader ⊢
      have hzero : (0 : Uint32).toNat = 0 := rfl
      simp only [Option.isSome_none, Bool.false_eq_true, if_false, BitVec.toNat_add,
        BitVec.toNat_ofNat, BitVec.toNat_setWidth, hzero]
      omega
  | some s =>
      rw [hseg, if_neg (Option.some_ne_none s)] at hheader
      simp only [headerBytes, unyteSegmentationOptionLen] at hheader ⊢
      simp only [Option.isSome_some, if_true, BitVec.toNat_add, BitVec.toNat_ofNat,
        BitVec.toNat_setWidth]
      omega

/-- The bytes of an option whose length byte is that of its data. -/
theorem serializeOption_eq {o : UnyteOption} (h : o.data.length + 2 = o.length.toNat) :
    serializeOption o = some (o.type :: o.length :: o.data) := by
  rw [serializeOption, if_pos (by omega), ← h, Nat.add_sub_cancel, List.take_length]

theorem mapM_serializeOption {options : List UnyteOption}
    (h : ∀ o ∈ options, o.data.length + 2 = o.length.toNat) :
    options.mapM serializeOption = some (options.map (fun o => o.type :: o.length :: o.data)) := by
  induction options with
  | nil => rfl
  | cons o options ih =>
      rw [List.mapM_cons, serializeOption_eq (h o List.mem_cons_self),
        ih (fun p hp => h p (List.mem_cons_of_mem o hp))]
      rfl

/-- The packet of a message: twelve bytes, the segmentation option if it has one, the
custom options and the payload. -/
theorem WellSized.serializeMessage_eq {seg : UnyteSeg} (h : WellSized seg) :
    ∃ fixed, fixed.length = headerBytes ∧
      serializeMessage seg = some (fixed ++ seg.header.segmentation.elim [] serializeSegmentation ++
        seg.header.options.flatMap (fun o => o.type :: o.length :: o.data) ++ seg.payload) := by
  have hsegmentation : segmentationBytes seg.header =
      some (seg.header.segmentation.elim [] serializeSegmentation) := by
    rw [segmentationBytes, h.isSegmented_eq]
    cases seg.header.segmentation <;> rfl
  have htake : seg.payload.take seg.header.messageLength.toNat = seg.payload := by
    rw [h.messageLength, List.take_length]
  simp only [serializeMessage, hsegmentation, mapM_serializeOption h.options,
    Option.bind_eq_bind, Option.bind_some, htake, h.messageLength.le, if_true]
  exact ⟨_, rfl, rfl⟩

/-- The segment number that the two bytes written for `fNum` stand for. The high
byte starts at bit 8 of the number, the low byte holds its bits 0 to 6. -/
def wireNumber (fNum : BitVec 31) : BitVec 15 :=
  .ofNat 15 (fNum.toNat / 2 ^ 8 * 2 ^ 7 + fNum.toNat % 2 ^ 7)

/-- A number keeps its value on the wire exactly if it fits seven bits. -/
theorem wireNumber_eq_iff {fNum : BitVec 31} (h : fNum.toNat < 2 ^ 15) :
    (wireNumber fNum).setWidth 31 = fNum ↔ fNum.toNat < 2 ^ 7 := by
  rw [← BitVec.toNat_inj, wireNumber, BitVec.toNat_setWidth, BitVec.toNat_ofNat]
  omega

/-- The option is not a segmentation option. -/
def WireOption.IsCustom : WireOption → Prop
  | custom _ _ _ _ => True
  | segmentation _ _ _ _ => False

/-- The options of a message as options on the wire. -/
theorem exists_wireOptions (options : List UnyteOption)
    (h : ∀ o ∈ options, o.type ≠ unyteTypeSegmentation ∧ o.data.length + 2 = o.length.toNat) :
    ∃ wire bytes, options.mapM serializeOption = some bytes ∧
      bytes.flatten = optionBytes wire ∧
      (optionBytes wire).length = (options.map (fun o => o.length.toNat)).sum ∧
      (∀ o ∈ wire, o.IsCustom) ∧
      ∀ s : OptionLoopState, (wire.foldl WireOption.read s).segmentation = s.segmentation ∧
        (wire.foldl WireOption.read s).options = s.options ++ options := by
  induction options with
  | nil =>
      exact ⟨[], [], rfl, rfl, rfl, fun _ ho => absurd ho List.not_mem_nil,
        fun s => ⟨rfl, (List.append_nil _).symm⟩⟩
  | cons o options ih =>
      obtain ⟨wire, bytes, hmap, hflat, hsum, hcustom, hread⟩ :=
        ih (fun p hp => h p (List.mem_cons_of_mem o hp))
      obtain ⟨htype, hdata⟩ := h o List.mem_cons_self
      have hlength := o.length.isLt
      let w := WireOption.custom o.type o.data htype (by omega)
      have hw : w.length = o.length := by
        refine BitVec.eq_of_toNat_eq ?_
        rw [WireOption.length, BitVec.toNat_ofNat]
        omega
      have hbytes : w.bytes = o.type :: o.length :: o.data := by
        rw [WireOption.bytes, hw]
      have hserial : serializeOption o = some w.bytes := by
        rw [hbytes, serializeOption_eq hdata]
      refine ⟨w :: wire, w.bytes :: bytes, ?_, ?_, ?_,
        List.forall_mem_cons.mpr ⟨trivial, hcustom⟩, fun s => ?_⟩
      · rw [List.mapM_cons, hserial, hmap]
        rfl
      · rw [List.flatten_cons, hflat]
        rfl
      · have hsplit : optionBytes (w :: wire) = w.bytes ++ optionBytes wire := rfl
        rw [hsplit, List.length_append, hsum, ← w.length_toNat, hw]
        rfl
      · obtain ⟨hseg, hopts⟩ := hread (w.read s)
        refine ⟨hseg, ?_⟩
        rw [List.foldl_cons, hopts]
        have ho : (w.read s).options = s.options ++ [o] := by
          change s.options ++ [(⟨o.type, w.length, o.data⟩ : UnyteOption)] = _
          rw [hw]
        rw [ho, List.append_assoc]
        rfl

/-- The segmentation option of a message as an option on the wire. -/
def wireSegmentation (s : UnyteSegmentation) : WireOption :=
  .segmentation (wireNumber s.fNum) (s.fLast = 1) [] WireOption.no_extra_le

theorem wireSegmentation_bytes {s : UnyteSegmentation} (htype : s.fType = unyteTypeSegmentation)
    (hlen : s.fLen.toNat = unyteSegmentationOptionLen) (hnum : s.fNum.toNat < 2 ^ 15) :
    (wireSegmentation s).bytes = serializeSegmentation s := by
  have hlast := s.fLast.isLt
  have hflag : (decide (s.fLast = 1)).toNat = s.fLast.toNat := by
    by_cases hone : s.fLast = 1
    · rw [hone]
      rfl
    · have hzero : s.fLast.toNat ≠ 1 := fun heq => hone (BitVec.eq_of_toNat_eq heq)
      have hflag : s.fLast.toNat = 0 := by omega
      rw [decide_eq_false hone, hflag]
      rfl
  have hword : (WireOption.word (wireNumber s.fNum) (s.fLast = 1)).toNat =
      s.fNum.toNat / 2 ^ 8 * 2 ^ 8 + s.fNum.toNat % 2 ^ 7 * 2 + s.fLast.toNat := by
    rw [WireOption.word, hflag, wireNumber, BitVec.toNat_ofNat, BitVec.toNat_ofNat]
    omega
  have hbyte : (wireSegmentation s).length = s.fLen := BitVec.eq_of_toNat_eq hlen.symm
  have hhigh : (WireOption.word (wireNumber s.fNum) (s.fLast = 1) >>> 8).setWidth 8 =
      (s.fNum >>> 8).setWidth 8 := by
    refine BitVec.eq_of_toNat_eq ?_
    simp only [BitVec.toNat_setWidth, BitVec.toNat_ushiftRight, Nat.shiftRight_eq_div_pow, hword]
    omega
  have hlow : (WireOption.word (wireNumber s.fNum) (s.fLast = 1)).setWidth 8 =
      (s.fNum.setWidth 32 <<< 1 + s.fLast.setWidth 32).setWidth 8 := by
    refine BitVec.eq_of_toNat_eq ?_
    simp only [BitVec.toNat_setWidth, BitVec.toNat_add, BitVec.toNat_shiftLeft,
      Nat.shiftLeft_eq, hword]
    omega
  unfold wireSegmentation at hbyte ⊢
  rw [WireOption.bytes, hbyte, networkBytes16, hhigh, hlow, serializeSegmentation, htype]
  rfl

theorem wireSegmentation_read (s : UnyteSegmentation) (htype : s.fType = unyteTypeSegmentation)
    (hlen : s.fLen.toNat = unyteSegmentationOptionLen) (state : OptionLoopState) :
    ((wireSegmentation s).read state).segmentation =
      some { s with fNum := (wireNumber s.fNum).setWidth 31 } ∧
    ((wireSegmentation s).read state).options = state.options := by
  have hbyte : (wireSegmentation s).length = s.fLen := BitVec.eq_of_toNat_eq hlen.symm
  have hlast : BitVec.ofBool (s.fLast = 1) = s.fLast := by
    have := s.fLast.isLt
    by_cases hone : s.fLast = 1
    · rw [hone]
      rfl
    · have hzero : s.fLast = 0 := BitVec.eq_of_toNat_eq (by
        have hne : s.fLast.toNat ≠ 1 := fun heq => hone (BitVec.eq_of_toNat_eq heq)
        exact (by omega : s.fLast.toNat = 0))
      rw [hzero]
      rfl
  refine ⟨?_, rfl⟩
  unfold wireSegmentation at hbyte ⊢
  rw [WireOption.read, hbyte, hlast, htype]

/-- What the receiver makes of a serialized message. -/
def decodedSegment (seg : UnyteSeg) (um : UnyteMin) : UnyteSegMet where
  header := { seg.header with
    space := 0
    messageLength := .ofNat 16 (seg.header.headerLength.toNat + seg.payload.length)
    segmentation := seg.header.segmentation.map
      (fun s => { s with fNum := (wireNumber s.fNum).setWidth 31 }) }
  payload := seg.payload
  metadata := { src := um.src, dest := um.dest }

/-- The options of a serializable message, its segmentation option first. -/
theorem Serializable.exists_wireOptions {seg : UnyteSeg} (h : Serializable seg) :
    ∃ wire segmentation options,
      segmentationBytes seg.header = some segmentation ∧
      seg.header.options.mapM serializeOption = some options ∧
      segmentation ++ options.flatten = optionBytes wire ∧
      headerBytes + (optionBytes wire).length = seg.header.headerLength.toNat ∧
      (∃ customs, (∀ o ∈ customs, WireOption.IsCustom o) ∧
        wire = (seg.header.segmentation.map wireSegmentation).toList ++ customs) ∧
      (wire.foldl WireOption.read .init).segmentation = seg.header.segmentation.map
        (fun s => { s with fNum := (wireNumber s.fNum).setWidth 31 }) ∧
      (wire.foldl WireOption.read .init).options = seg.header.options := by
  obtain ⟨wire, bytes, hmap, hflat, hsum, hcustom, hread⟩ :=
    UdpNotif.exists_wireOptions seg.header.options h.options
  have hheader := h.headerLength
  rw [segmentationBytes, h.wellSized.isSegmented_eq]
  cases hseg : seg.header.segmentation with
  | none =>
      rw [hseg, if_pos rfl] at hheader
      obtain ⟨hs, ho⟩ := hread .init
      exact ⟨wire, [], bytes, rfl, hmap, hflat, by omega, ⟨wire, hcustom, rfl⟩, hs, ho⟩
  | some s =>
      obtain ⟨htype, hlen, hnum⟩ := h.segmentation s hseg
      have hbytes := wireSegmentation_bytes htype hlen hnum
      obtain ⟨hs, ho⟩ := hread ((wireSegmentation s).read .init)
      obtain ⟨hs', ho'⟩ := wireSegmentation_read s htype hlen .init
      have hsplit : optionBytes (wireSegmentation s :: wire) =
          serializeSegmentation s ++ optionBytes wire := by
        rw [← hbytes]
        rfl
      rw [hseg, if_neg (Option.some_ne_none s)] at hheader
      refine ⟨wireSegmentation s :: wire, serializeSegmentation s, bytes, rfl, hmap,
        by rw [hflat, hsplit], ?_, ⟨wire, hcustom, rfl⟩, hs.trans hs', ?_⟩
      · have hfour : (serializeSegmentation s).length = 4 := rfl
        rw [hsplit, List.length_append, hsum, hfour, hheader]
        simp only [unyteSegmentationOptionLen]
        omega
      · exact ho.trans (by rw [ho']; rfl)

private theorem firstByte_sum (version : BitVec 3) (space : BitVec 1) (mediaType : BitVec 4) :
    (version.setWidth 8 <<< 5 + space.setWidth 8 <<< 4 + mediaType.setWidth 8 : Uint8) =
      version.setWidth 8 <<< 5 ||| space.setWidth 8 <<< 4 ||| mediaType.setWidth 8 := by
  revert version space mediaType
  decide

/-- A serialized message is a well-formed packet, with its segmentation option before
its custom options. -/
theorem Serializable.exists_datagram {seg : UnyteSeg} (h : Serializable seg) :
    ∃ d : Datagram, serializeMessage seg = some d.encode ∧
      d.size = seg.header.headerLength.toNat + seg.payload.length ∧
      (∃ customs, (∀ o ∈ customs, WireOption.IsCustom o) ∧
        d.options = (seg.header.segmentation.map wireSegmentation).toList ++ customs) ∧
      ∀ um, d.parsed um = decodedSegment seg um := by
  obtain ⟨wire, segmentation, options, hsegmentation, hoptions, hbytes, hheader, hcustoms, hseg,
    hopts⟩ := h.exists_wireOptions
  have hlen := seg.header.headerLength.isLt
  let d : Datagram := {
    version := seg.header.version
    space := seg.header.space
    mediaType := seg.header.mediaType
    observationDomainId := seg.header.observationDomainId
    messageId := seg.header.messageId
    options := wire
    payload := seg.payload
    header_le := by omega
    size_le := by
      have hsize := h.size
      omega }
  have hdheader : d.headerLength = seg.header.headerLength.toNat := hheader
  have hdsize : d.size = seg.header.headerLength.toNat + seg.payload.length :=
    congrArg (· + seg.payload.length) hdheader
  have hsize : (packetSize seg.header).toNat = d.size :=
    h.wellSized.packetSize_toNat.trans hdsize.symm
  have hbound : d.size ≤ udpSize := d.size_le
  have hword : [(packetSize seg.header >>> 8).setWidth 8, (packetSize seg.header).setWidth 8] =
      networkBytes16 (.ofNat 16 d.size) := by
    simp only [udpSize] at hbound
    rw [networkBytes16]
    congr 1
    · refine BitVec.eq_of_toNat_eq ?_
      simp only [BitVec.toNat_setWidth, BitVec.toNat_ushiftRight, Nat.shiftRight_eq_div_pow,
        BitVec.toNat_ofNat, hsize]
      omega
    · congr 1
      refine BitVec.eq_of_toNat_eq ?_
      simp only [BitVec.toNat_setWidth, BitVec.toNat_ofNat, hsize]
      omega
  have hlength : seg.header.headerLength = .ofNat 8 d.headerLength := by
    rw [hdheader, BitVec.ofNat_toNat, BitVec.setWidth_eq]
  have hserial : serializeMessage seg = some d.encode := by
    have htake : seg.payload.take seg.header.messageLength.toNat = seg.payload := by
      rw [h.messageLength, List.take_length]
    simp only [serializeMessage, hsegmentation, hoptions, Option.bind_eq_bind, Option.bind_some,
      htake, h.messageLength.le, if_true, firstByte_sum, Option.some.injEq]
    rw [Datagram.encode, Datagram.fixedHeader, ← hbytes, ← hword, ← hlength]
    simp only [List.append_assoc]
    rfl
  refine ⟨d, hserial, hdsize, hcustoms, fun um => ?_⟩
  rw [Datagram.parsed, Datagram.header, ← hlength, hdsize, Datagram.loopState, hseg, hopts]
  rfl

/-- A serialized message parses to the message but for the space bit, the message
length and the segment number. -/
theorem serializeMessage_parsed {seg : UnyteSeg} (h : Serializable seg) :
    ∃ bytes, serializeMessage seg = some bytes ∧
      bytes.length = seg.header.headerLength.toNat + seg.payload.length ∧
      ∀ rest um, parseWithMetadata (bytes ++ rest) um = .ok (decodedSegment seg um) := by
  obtain ⟨d, hserial, hsize, _, hparsed⟩ := h.exists_datagram
  refine ⟨d.encode, hserial, d.encode_length.trans hsize, fun rest um => ?_⟩
  rw [d.parseWithMetadata_encode rest um, hparsed]

/-- Parsing the packet of a message gives the message back, whatever follows the
packet in the buffer, with the packet's size as message length. -/
def DecodeUndoesEncode (seg : UnyteSeg) : Prop :=
  ∃ bytes, serializeMessage seg = some bytes ∧ ∀ rest um, ∃ out,
    parseWithMetadata (bytes ++ rest) um = .ok out ∧ out.payload = seg.payload ∧
      out.header = { seg.header with messageLength := .ofNat 16 bytes.length }

/-- Decoding undoes encoding exactly if the space bit is clear and the segment
number fits seven bits. -/
theorem decode_undoes_encode_iff {seg : UnyteSeg} (h : Serializable seg) :
    DecodeUndoesEncode seg ↔
      seg.header.space = 0 ∧ ∀ s, seg.header.segmentation = some s → s.fNum.toNat < 2 ^ 7 := by
  obtain ⟨bytes, hserial, hlength, hparse⟩ := serializeMessage_parsed h
  have hnumbers : (seg.header.segmentation.map
        (fun s => { s with fNum := (wireNumber s.fNum).setWidth 31 })) =
          seg.header.segmentation ↔
      ∀ s, seg.header.segmentation = some s → s.fNum.toNat < 2 ^ 7 := by
    cases hseg : seg.header.segmentation with
    | none => simp
    | some s =>
        have hnum := wireNumber_eq_iff (h.segmentation s hseg).2.2
        simp only [Option.map_some, Option.some.injEq, forall_eq']
        rw [← hnum]
        constructor
        · exact fun heq => congrArg UnyteSegmentation.fNum heq
        · intro heq
          rw [heq]
  rw [← hnumbers]
  constructor
  · rintro ⟨bytes', hserial', hdecode⟩
    obtain ⟨out, hout, _, hheader⟩ := hdecode [] ⟨0, 0, .zeroed, ⟨[]⟩, none⟩
    obtain rfl := Option.some.inj (hserial'.symm.trans hserial)
    obtain rfl := ParseResult.ok.inj ((hparse _ _).symm.trans hout)
    exact ⟨(congrArg UnyteHeader.space hheader).symm,
      congrArg UnyteHeader.segmentation hheader⟩
  · rintro ⟨hspace, hsegmentation⟩
    refine ⟨bytes, hserial, fun rest um => ⟨_, hparse rest um, rfl, ?_⟩⟩
    rw [decodedSegment, hsegmentation, hlength, ← hspace]

/-- A segment with number 5 and one option comes back. -/
theorem decode_undoes_encode_segment_5 :
    DecodeUndoesEncode ⟨⟨1, 0, 1, 19, 2, 7, 9, some ⟨1, 4, 5, 0⟩, [⟨2, 3, [0xaa]⟩]⟩, [1, 2]⟩ :=
  (decode_undoes_encode_iff
    ⟨by decide, by simp [unyteTypeSegmentation], by decide, by decide, by decide⟩).mpr (by simp)

/-- A message with the space bit set comes back with the bit clear. -/
theorem decode_loses_space : ¬ ∀ seg, Serializable seg → DecodeUndoesEncode seg := by
  intro hclaim
  have h : Serializable ⟨⟨1, 1, 1, 12, 0, 7, 9, none, []⟩, []⟩ :=
    ⟨by simp, by simp, by decide, by decide, by decide⟩
  obtain ⟨bytes, hserial, _, hparse⟩ := serializeMessage_parsed h
  obtain ⟨bytes', hserial', hdecode⟩ := hclaim _ h
  obtain ⟨out, hout, _, hheader⟩ := hdecode [] ⟨0, 0, .zeroed, ⟨[]⟩, none⟩
  obtain rfl := Option.some.inj (hserial'.symm.trans hserial)
  obtain rfl := ParseResult.ok.inj ((hparse _ _).symm.trans hout)
  have hspace : (0 : BitVec 1) = 1 := congrArg UnyteHeader.space hheader
  exact absurd hspace (by decide)

end UdpNotif
