import UdpNotif.Utils.Serialize

/-!
`build_message` of `unyte_udp_utils.c`: the packets a sender splits a message
into. `Slices` describes such a list of segments; `buildMessage_slices` says
that one is built for every message that does not fit one packet, as long as
the number of its bytes does not wrap.
-/

namespace UdpNotif

/-- `unyte_send_option_t`, with as many bytes of data as `data_length` says. -/
structure UnyteSendOption where
  type : Uint8
  data : List Uint8
  data_lt : data.length < 2 ^ 8

/-- `unyte_message_t`, with as many bytes in the buffer as `buffer_len` says. The
MTU is an argument of `build_message`. -/
structure UnyteMessage where
  buffer : List Uint8
  version : BitVec 3
  space : BitVec 1
  mediaType : BitVec 4
  observationDomainId : Uint32
  messageId : Uint32
  options : List UnyteSendOption
  buffer_lt : buffer.length < 2 ^ 32

/-- `buffer_len` -/
def UnyteMessage.bufferLen (message : UnyteMessage) : Uint32 := .ofNat 32 message.buffer.length

/-- One option of `build_message_options`. -/
def buildMessageOption (o : UnyteSendOption) : UnyteOption where
  type := o.type
  -- length of user data and one byte each for type and length of the TLV
  length := .ofNat 8 o.data.length + 2
  data := o.data

/-- `build_message_options` -/
def buildMessageOptions (options : List UnyteSendOption) : List UnyteOption :=
  options.map buildMessageOption

/-- The packet of a message that is not segmented. Its segmentation fields are
never written. -/
def wholeMessage (message : UnyteMessage) (optionsHeader : List UnyteOption) : UnyteSeg where
  header := {
    version := message.version
    space := message.space
    mediaType := message.mediaType
    headerLength := (BitVec.ofNat 32 headerBytes + optionsTotalBytes optionsHeader).setWidth 8
    messageLength := message.bufferLen.setWidth 16
    observationDomainId := message.observationDomainId
    messageId := message.messageId
    segmentation := none
    options := optionsHeader }
  payload := message.buffer

/-- The packet with number `i`. The first packet has the custom options. -/
def segmentOf (message : UnyteMessage) (optionsHeader : List UnyteOption)
    (segmentsLen i copyIt bytesToSend : Uint32) : UnyteSeg where
  header := {
    version := message.version
    space := message.space
    mediaType := message.mediaType
    headerLength := .ofNat 8 (headerBytes + unyteSegmentationOptionLen) +
      if i = 0 then (optionsTotalBytes optionsHeader).setWidth 8 else 0
    messageLength := bytesToSend.setWidth 16
    observationDomainId := message.observationDomainId
    messageId := message.messageId
    segmentation := some {
      fType := unyteTypeSegmentation
      fLen := .ofNat 8 unyteSegmentationOptionLen
      fNum := i.setWidth 31
      fLast := if i = segmentsLen - 1 then 1 else 0 }
    options := if i = 0 then optionsHeader else [] }
  payload := (message.buffer.drop copyIt.toNat).take bytesToSend.toNat

/-- The loop over the segmented packets, for the last `n` of `segmentsLen`.
The result is `none` where `memcpy` reads beyond the buffer. -/
def segmentLoop (message : UnyteMessage) (optionsHeader : List UnyteOption)
    (actualUsableBytes segmentsLen : Uint32) : Nat → Uint32 → Uint32 → Option (List UnyteSeg)
  | 0, _, _ => some []
  | n + 1, i, copyIt =>
      let optionsHeaderBytes := optionsTotalBytes optionsHeader
      let left := message.bufferLen - copyIt
      let bytesToSend := if left < actualUsableBytes then left else actualUsableBytes
      let bytesToSend :=
        if i = 0 ∧ 0 < optionsHeaderBytes then bytesToSend - optionsHeaderBytes else bytesToSend
      if copyIt.toNat + bytesToSend.toNat ≤ message.buffer.length then
        (segmentLoop message optionsHeader actualUsableBytes segmentsLen n (i + 1)
          (copyIt + bytesToSend)).map
          (segmentOf message optionsHeader segmentsLen i copyIt bytesToSend :: ·)
      else none

/-- The number of packets, `none` where it divides by zero. -/
def packetsToSend (messageLen actualUsableBytes mtu : Uint32) : Option Uint32 :=
  if mtu < messageLen + BitVec.ofNat 32 headerBytes then
    if actualUsableBytes = 0 then none
    else some (messageLen / actualUsableBytes +
      if messageLen % actualUsableBytes ≠ 0 then 1 else 0)
  else some 1

/-- The segments of a message for an MTU. -/
def buildMessage (message : UnyteMessage) (mtu : Uint32) : Option (List UnyteSeg) :=
  let optionsHeader := buildMessageOptions message.options
  let actualUsableBytes :=
    mtu - BitVec.ofNat 32 headerBytes - BitVec.ofNat 32 unyteSegmentationOptionLen
  let messageLen := optionsTotalBytes optionsHeader + message.bufferLen
  match packetsToSend messageLen actualUsableBytes mtu with
  | none => none
  | some segmentsLen =>
      if segmentsLen = 1 then some [wholeMessage message optionsHeader]
      else segmentLoop message optionsHeader actualUsableBytes segmentsLen segmentsLen.toNat 0 0

/-- The bytes of the custom options of a message. -/
def UnyteMessage.optionBytes (message : UnyteMessage) : Nat :=
  (message.options.map (fun o => o.data.length + 2)).sum

/-- A message of the given bytes without custom options. -/
def plainMessage (buffer : List Uint8) (h : buffer.length < 2 ^ 32) : UnyteMessage where
  buffer
  version := 1
  space := 0
  mediaType := 1
  observationDomainId := 7
  messageId := 9
  options := []
  buffer_lt := h

/-- Options that fit their length bytes and the header, and an MTU that leaves
room for payload behind them. -/
structure OptionsFit (message : UnyteMessage) (mtu : Uint32) : Prop where
  data_le : ∀ o ∈ message.options, o.data.length ≤ 253
  optionBytes_le : message.optionBytes ≤ 239
  mtu_gt : headerBytes + unyteSegmentationOptionLen + message.optionBytes < mtu.toNat
  mtu_le : mtu.toNat ≤ udpSize

theorem buildMessageOption_length {o : UnyteSendOption} (h : o.data.length ≤ 253) :
    (buildMessageOption o).length.toNat = o.data.length + 2 := by
  rw [buildMessageOption, BitVec.toNat_add, BitVec.toNat_ofNat]
  have htwo : (2 : Uint8).toNat = 2 := rfl
  omega

theorem buildMessageOptions_length {options : List UnyteSendOption}
    (hdata : ∀ o ∈ options, o.data.length ≤ 253) :
    ∀ o ∈ buildMessageOptions options, o.data.length + 2 = o.length.toNat := by
  intro o ho
  obtain ⟨option, hmem, rfl⟩ := List.mem_map.mp ho
  exact (buildMessageOption_length (hdata option hmem)).symm

theorem UnyteMessage.bufferLen_toNat (message : UnyteMessage) :
    message.bufferLen.toNat = message.buffer.length := by
  rw [UnyteMessage.bufferLen, BitVec.toNat_ofNat, Nat.mod_eq_of_lt message.buffer_lt]

/-- The segments that carry the buffer from `copyIt` on, numbered from `i` to
`total`. All but the first carry at least one byte. -/
inductive Slices (message : UnyteMessage) (usable total : Nat) :
    Nat → Nat → List UnyteSeg → Prop where
  | done : Slices message usable total total message.buffer.length []
  | next {i copyIt size : Nat} {segs : List UnyteSeg}
      (hcopy : copyIt + size ≤ message.buffer.length)
      (husable : size + (if i = 0 then message.optionBytes else 0) ≤ usable)
      (hpos : i ≠ 0 → 0 < size)
      (hrest : Slices message usable total (i + 1) (copyIt + size) segs) :
      Slices message usable total i copyIt
        (segmentOf message (buildMessageOptions message.options) (.ofNat 32 total) (.ofNat 32 i)
          (.ofNat 32 copyIt) (.ofNat 32 size) :: segs)

/-- There are as many segments as numbers from `i` to `total`. -/
theorem Slices.length {message : UnyteMessage} {usable total i copyIt : Nat} {segs : List UnyteSeg}
    (h : Slices message usable total i copyIt segs) : i + segs.length = total := by
  induction h with
  | done => rfl
  | next _ _ _ _ ih =>
      rw [List.length_cons]
      omega

/-- Each of them carries some bytes of the buffer. -/
theorem Slices.exists_segmentOf {message : UnyteMessage} {usable total i copyIt : Nat}
    {segs : List UnyteSeg} (h : Slices message usable total i copyIt segs) {j : Nat}
    {seg : UnyteSeg} (hseg : segs[j]? = some seg) :
    i + j < total ∧ ∃ start size, start + size ≤ message.buffer.length ∧
      size + (if i + j = 0 then message.optionBytes else 0) ≤ usable ∧
      seg = segmentOf message (buildMessageOptions message.options) (.ofNat 32 total)
        (.ofNat 32 (i + j)) (.ofNat 32 start) (.ofNat 32 size) := by
  induction h generalizing j with
  | done =>
      rw [List.getElem?_nil] at hseg
      cases hseg
  | @next i copyIt size segs hcopy husable hpos hrest ih =>
      have hlength := hrest.length
      cases j with
      | zero =>
          rw [List.getElem?_cons_zero, Option.some.injEq] at hseg
          exact ⟨by omega, copyIt, size, hcopy, husable, hseg.symm⟩
      | succ j =>
          rw [List.getElem?_cons_succ] at hseg
          have hshift : i + (j + 1) = i + 1 + j := by omega
          rw [hshift]
          exact ih hseg

theorem ofNat_min {a b : Nat} (ha : a < 2 ^ 32) (hb : b < 2 ^ 32) :
    (if (.ofNat 32 a : Uint32) < .ofNat 32 b then (.ofNat 32 a : Uint32) else .ofNat 32 b) =
      .ofNat 32 (min a b) := by
  have hlt : (.ofNat 32 a : Uint32) < .ofNat 32 b ↔ a < b := by
    rw [BitVec.lt_def, BitVec.toNat_ofNat, BitVec.toNat_ofNat, Nat.mod_eq_of_lt ha,
      Nat.mod_eq_of_lt hb]
  by_cases hab : a < b
  · rw [if_pos (hlt.mpr hab), Nat.min_eq_left hab.le]
  · rw [if_neg (fun h => hab (hlt.mp h)), Nat.min_eq_right (Nat.not_lt.mp hab)]

/-- The loop behind the first packet. -/
theorem segmentLoop_slices (message : UnyteMessage) {usable total : Nat} (hpos : 0 < usable)
    (husable : usable < 2 ^ 32) (htotal : total < 2 ^ 32) {n : Nat} (i copyIt : Nat) (hi : i ≠ 0)
    (hn : i + n = total) (hcopy : copyIt ≤ message.buffer.length)
    (hle : message.buffer.length ≤ copyIt + n * usable)
    (hgt : n ≠ 0 → copyIt + (n - 1) * usable < message.buffer.length) :
    ∃ segs, segmentLoop message (buildMessageOptions message.options) (.ofNat 32 usable)
        (.ofNat 32 total) n (.ofNat 32 i) (.ofNat 32 copyIt) = some segs ∧
      Slices message usable total i copyIt segs := by
  have hlt := message.buffer_lt
  have hbuf := message.bufferLen_toNat
  induction n generalizing i copyIt with
  | zero =>
      obtain rfl : i = total := hn
      obtain rfl : copyIt = message.buffer.length := by omega
      exact ⟨[], rfl, .done⟩
  | succ n ih =>
      have hgt := hgt (Nat.succ_ne_zero n)
      rw [Nat.add_sub_cancel] at hgt
      rw [Nat.succ_mul] at hle
      have hleft : message.bufferLen - .ofNat 32 copyIt =
          .ofNat 32 (message.buffer.length - copyIt) := by
        refine BitVec.eq_of_toNat_eq ?_
        rw [BitVec.toNat_sub, hbuf, BitVec.toNat_ofNat, BitVec.toNat_ofNat]
        omega
      obtain ⟨size, hsize⟩ : ∃ size, size = min (message.buffer.length - copyIt) usable :=
        ⟨_, rfl⟩
      have hbytes := ofNat_min (by omega : message.buffer.length - copyIt < 2 ^ 32) husable
      rw [← hleft, ← hsize] at hbytes
      have hfirst : ¬ ((BitVec.ofNat 32 i : Uint32) = 0 ∧
          0 < optionsTotalBytes (buildMessageOptions message.options)) := by
        rintro ⟨hzero, _⟩
        have hzero := congrArg BitVec.toNat hzero
        rw [BitVec.toNat_ofNat, Nat.mod_eq_of_lt (by omega)] at hzero
        exact hi hzero
      have hsucc : (BitVec.ofNat 32 i : Uint32) + 1 = .ofNat 32 (i + 1) :=
        (BitVec.ofNat_add i 1).symm
      have hadd : (BitVec.ofNat 32 copyIt : Uint32) + .ofNat 32 size = .ofNat 32 (copyIt + size) :=
        (BitVec.ofNat_add copyIt size).symm
      have hroom : copyIt + size ≤ message.buffer.length := by omega
      obtain ⟨segs, hloop, hslices⟩ := ih (i + 1) (copyIt + size)
        (Nat.succ_ne_zero i) (by omega) hroom (by omega) (fun hne => by
          obtain ⟨k, rfl⟩ := Nat.exists_eq_succ_of_ne_zero hne
          rw [Nat.succ_mul] at hgt hle
          rw [Nat.succ_sub_one]
          omega)
      refine ⟨_ :: segs, ?_, .next hroom (by rw [if_neg hi]; omega) (fun _ => by omega) hslices⟩
      simp only [segmentLoop, hbytes, if_neg hfirst, hsucc, hadd, hloop, Option.map_some]
      rw [if_pos]
      rw [BitVec.toNat_ofNat, BitVec.toNat_ofNat, Nat.mod_eq_of_lt (by omega),
        Nat.mod_eq_of_lt (by omega)]
      exact hroom

/-- The number of packets that `len` bytes fill. -/
def packetCount (len usable : Nat) : Nat := len / usable + if len % usable ≠ 0 then 1 else 0

theorem packetCount_bounds {len usable : Nat} (hlen : 0 < len) (husable : 0 < usable) :
    (packetCount len usable - 1) * usable < len ∧ len ≤ packetCount len usable * usable := by
  have hdiv := Nat.div_add_mod len usable
  have hmod := Nat.mod_lt len husable
  rw [Nat.mul_comm] at hdiv
  unfold packetCount
  split
  · rw [Nat.add_sub_cancel, Nat.add_mul]
    omega
  · rw [Nat.add_zero, Nat.sub_mul]
    omega

theorem packetCount_le_iff {len usable : Nat} (hlen : 0 < len) (husable : 0 < usable) (n : Nat) :
    packetCount len usable ≤ n ↔ len ≤ n * usable := by
  obtain ⟨hlower, hupper⟩ := packetCount_bounds hlen husable
  constructor
  · exact fun hle => hupper.trans (Nat.mul_le_mul_right usable hle)
  · intro hle
    have hlt := Nat.lt_of_mul_lt_mul_right (hlower.trans_le hle)
    omega

theorem packetsToSend_eq {messageLen usable mtu : Uint32}
    (hlarge : mtu.toNat < messageLen.toNat + headerBytes)
    (hwrap : messageLen.toNat + headerBytes < 2 ^ 32) (hpos : 0 < usable.toNat) :
    packetsToSend messageLen usable mtu =
      some (.ofNat 32 (packetCount messageLen.toNat usable.toNat)) := by
  simp only [headerBytes] at hlarge hwrap
  have hcond : mtu < messageLen + BitVec.ofNat 32 headerBytes := by
    rw [BitVec.lt_def, BitVec.toNat_add, BitVec.toNat_ofNat]
    simp only [headerBytes]
    omega
  have hnonzero : usable ≠ 0 := by
    rintro rfl
    exact absurd hpos (Nat.lt_irrefl 0)
  have hrest : messageLen % usable ≠ 0 ↔ messageLen.toNat % usable.toNat ≠ 0 := by
    rw [Ne, ← BitVec.toNat_inj, BitVec.toNat_umod]
    rfl
  have hquot : messageLen / usable = .ofNat 32 (messageLen.toNat / usable.toNat) := by
    refine BitVec.eq_of_toNat_eq ?_
    have hle := Nat.div_le_self messageLen.toNat usable.toNat
    rw [BitVec.toNat_udiv, BitVec.toNat_ofNat, Nat.mod_eq_of_lt (by omega)]
  rw [packetsToSend, if_pos hcond, if_neg hnonzero, packetCount, BitVec.ofNat_add, hquot]
  congr 2
  by_cases hzero : messageLen.toNat % usable.toNat = 0
  · rw [if_neg (fun hne => hrest.mp hne hzero), if_neg (not_not.mpr hzero)]
    rfl
  · rw [if_pos (hrest.mpr hzero), if_pos hzero]
    rfl

theorem UnyteMessage.sum_lengths {message : UnyteMessage}
    (hdata : ∀ o ∈ message.options, o.data.length ≤ 253) :
    ((buildMessageOptions message.options).map (fun o => o.length.toNat)).sum =
      message.optionBytes := by
  rw [buildMessageOptions, UnyteMessage.optionBytes, List.map_map]
  exact congrArg List.sum (List.map_congr_left
    (fun o ho => buildMessageOption_length (hdata o ho)))

/-- The bytes of the custom options are counted right, and the MTU leaves room for
payload behind them. -/
structure OptionsCounted (message : UnyteMessage) (mtu : Uint32) : Prop where
  total : (optionsTotalBytes (buildMessageOptions message.options)).toNat = message.optionBytes
  mtu_gt : headerBytes + unyteSegmentationOptionLen + message.optionBytes < mtu.toNat

theorem OptionsCounted.of_data_le {message : UnyteMessage} {mtu : Uint32}
    (hdata : ∀ o ∈ message.options, o.data.length ≤ 253)
    (hmtu : headerBytes + unyteSegmentationOptionLen + message.optionBytes < mtu.toNat) :
    OptionsCounted message mtu := by
  have hbound := mtu.isLt
  refine ⟨?_, hmtu⟩
  rw [optionsTotalBytes_toNat, message.sum_lengths hdata, Nat.mod_eq_of_lt (by omega)]

theorem OptionsFit.counted {message : UnyteMessage} {mtu : Uint32} (h : OptionsFit message mtu) :
    OptionsCounted message mtu :=
  .of_data_le h.data_le h.mtu_gt

/-- A message that is not compared to be larger than the MTU goes out in one packet. -/
theorem buildMessage_of_not_lt {message : UnyteMessage} {mtu : Uint32}
    (h : ¬ mtu < optionsTotalBytes (buildMessageOptions message.options) + message.bufferLen +
      BitVec.ofNat 32 headerBytes) :
    buildMessage message mtu =
      some [wholeMessage message (buildMessageOptions message.options)] := by
  simp only [buildMessage, packetsToSend, if_neg h, if_true]

section Build

variable {message : UnyteMessage} {mtu : Uint32} (h : OptionsCounted message mtu)
include h

/-- The fields of a segment, as numbers. -/
theorem OptionsCounted.segmentOf_eq {total i copyIt size : Nat} (htotal : total < 2 ^ 32)
    (hi : i < total) (hcopy : copyIt + size ≤ message.buffer.length) :
    segmentOf message (buildMessageOptions message.options) (.ofNat 32 total) (.ofNat 32 i)
      (.ofNat 32 copyIt) (.ofNat 32 size) =
    { header := {
        version := message.version
        space := message.space
        mediaType := message.mediaType
        headerLength := .ofNat 8 (16 + if i = 0 then message.optionBytes else 0)
        messageLength := .ofNat 16 size
        observationDomainId := message.observationDomainId
        messageId := message.messageId
        segmentation := some ⟨unyteTypeSegmentation, 4, .ofNat 31 i,
          if i + 1 = total then 1 else 0⟩
        options := if i = 0 then buildMessageOptions message.options else [] }
      payload := (message.buffer.drop copyIt).take size } := by
  have hlt := message.buffer_lt
  have hzero : (BitVec.ofNat 32 i : Uint32) = 0 ↔ i = 0 := by
    rw [← BitVec.toNat_inj, BitVec.toNat_ofNat, Nat.mod_eq_of_lt (by omega)]
    rfl
  have hlast : (BitVec.ofNat 32 i : Uint32) = .ofNat 32 total - 1 ↔ i + 1 = total := by
    have hone : (1 : Uint32).toNat = 1 := rfl
    rw [← BitVec.toNat_inj, BitVec.toNat_sub, BitVec.toNat_ofNat, BitVec.toNat_ofNat, hone]
    omega
  have hlength : (.ofNat 8 (headerBytes + unyteSegmentationOptionLen) +
      if i = 0 then (optionsTotalBytes (buildMessageOptions message.options)).setWidth 8 else 0 :
        Uint8) = .ofNat 8 (16 + if i = 0 then message.optionBytes else 0) := by
    have hopts := h.total
    refine BitVec.eq_of_toNat_eq ?_
    by_cases hfirst : i = 0
    · simp only [hfirst, if_true, headerBytes, unyteSegmentationOptionLen, BitVec.toNat_add,
        BitVec.toNat_ofNat, BitVec.toNat_setWidth, hopts]
      omega
    · simp only [hfirst, if_false]
      rfl
  have hsize : (BitVec.ofNat 32 size : Uint32).setWidth 16 = .ofNat 16 size :=
    BitVec.setWidth_ofNat_of_le (by decide) size
  have hnumber : (BitVec.ofNat 32 i : Uint32).setWidth 31 = .ofNat 31 i :=
    BitVec.setWidth_ofNat_of_le (by decide) i
  have hbytes : (message.buffer.drop (BitVec.ofNat 32 copyIt : Uint32).toNat).take
      (BitVec.ofNat 32 size : Uint32).toNat = (message.buffer.drop copyIt).take size := by
    rw [BitVec.toNat_ofNat, BitVec.toNat_ofNat, Nat.mod_eq_of_lt (by omega),
      Nat.mod_eq_of_lt (by omega)]
  simp only [segmentOf, hzero, hlast, hlength, hsize, hnumber, hbytes]
  rfl

/-- The message goes out in one packet if it fits, and if the number of its
bytes wraps. -/
theorem OptionsCounted.buildMessage_whole
    (hwhole : message.optionBytes + message.buffer.length + headerBytes ≤ mtu.toNat ∨
      2 ^ 32 ≤ message.optionBytes + message.buffer.length + headerBytes) :
    buildMessage message mtu =
      some [wholeMessage message (buildMessageOptions message.options)] := by
  have hopts := h.total
  have hbuf := message.bufferLen_toNat
  have hlt := message.buffer_lt
  have hmtu := h.mtu_gt
  have hbound := mtu.isLt
  simp only [headerBytes, unyteSegmentationOptionLen] at hwhole hmtu
  have hcond : ¬ mtu < optionsTotalBytes (buildMessageOptions message.options) +
      message.bufferLen + BitVec.ofNat 32 headerBytes := by
    rw [BitVec.lt_def, BitVec.toNat_add, BitVec.toNat_add, BitVec.toNat_ofNat, hopts, hbuf]
    simp only [headerBytes]
    omega
  exact buildMessage_of_not_lt hcond

theorem OptionsCounted.wholeMessage_headerLength (hoption : message.optionBytes ≤ 243) :
    (wholeMessage message (buildMessageOptions message.options)).header.headerLength.toNat =
      headerBytes + message.optionBytes := by
  have hopts := h.total
  simp only [wholeMessage, headerBytes, BitVec.toNat_setWidth, BitVec.toNat_add,
    BitVec.toNat_ofNat, hopts]
  omega

/-- The sizes in a packet agree, where the options fit the header and the message
fits a datagram. -/
theorem OptionsCounted.wholeMessage_wellSized
    (hdata : ∀ o ∈ message.options, o.data.length ≤ 253) (hoption : message.optionBytes ≤ 243)
    (hwhole : message.optionBytes + message.buffer.length + headerBytes ≤ udpSize) :
    WellSized (wholeMessage message (buildMessageOptions message.options)) := by
  have hheader := h.wholeMessage_headerLength hoption
  simp only [headerBytes, udpSize] at hwhole
  constructor
  · exact buildMessageOptions_length hdata
  · rw [hheader]
    exact congrArg (headerBytes + ·) (message.sum_lengths hdata).symm
  · simp only [wholeMessage, BitVec.toNat_setWidth, message.bufferLen_toNat]
    omega
  · rw [hheader]
    simp only [wholeMessage, headerBytes, udpSize]
    omega

theorem OptionsCounted.segmentOf_wellSized (hmtu : mtu.toNat ≤ udpSize)
    (hdata : ∀ o ∈ message.options, o.data.length ≤ 253) (hoption : message.optionBytes ≤ 239)
    {total i copyIt size : Nat} (htotal : total < 2 ^ 32) (hi : i < total)
    (hcopy : copyIt + size ≤ message.buffer.length)
    (husable : size + (if i = 0 then message.optionBytes else 0) ≤ mtu.toNat - 16) :
    WellSized (segmentOf message (buildMessageOptions message.options) (.ofNat 32 total)
      (.ofNat 32 i) (.ofNat 32 copyIt) (.ofNat 32 size)) := by
  have hgt := h.mtu_gt
  simp only [udpSize, headerBytes, unyteSegmentationOptionLen] at hmtu hgt
  have hpayload : ((message.buffer.drop copyIt).take size).length = size := by
    rw [List.length_take, List.length_drop]
    omega
  have hheader : (BitVec.ofNat 8 (16 + if i = 0 then message.optionBytes else 0)).toNat =
      16 + if i = 0 then message.optionBytes else 0 := by
    rw [BitVec.toNat_ofNat]
    split <;> omega
  rw [h.segmentOf_eq htotal hi hcopy]
  constructor
  · intro o ho
    dsimp only at ho
    split at ho
    · exact buildMessageOptions_length hdata o ho
    · exact absurd ho List.not_mem_nil
  · dsimp only
    rw [hheader, if_neg (Option.some_ne_none _)]
    split
    · rw [message.sum_lengths hdata]
      simp only [headerBytes, unyteSegmentationOptionLen]
      omega
    · rfl
  · dsimp only
    rw [hpayload, BitVec.toNat_ofNat]
    omega
  · dsimp only
    rw [hheader, hpayload]
    simp only [udpSize]
    omega

/-- The loop from the first packet on, which has the custom options. -/
theorem OptionsCounted.segmentLoop_first {usable n : Nat}
    (hfit : message.optionBytes ≤ message.buffer.length) (hroom : message.optionBytes < usable)
    (husable : usable < 2 ^ 32) (hn : n + 2 < 2 ^ 32)
    (hlower : (n + 1) * usable < message.optionBytes + message.buffer.length)
    (hupper : message.optionBytes + message.buffer.length ≤ (n + 2) * usable) :
    ∃ segs, segmentLoop message (buildMessageOptions message.options) (.ofNat 32 usable)
        (.ofNat 32 (n + 2)) (n + 2) 0 0 = some segs ∧
      Slices message usable (n + 2) 0 0 segs := by
  have hopts := h.total
  have hlt := message.buffer_lt
  have hsplit : (n + 2) * usable = n * usable + usable + usable := by
    rw [Nat.add_mul, Nat.two_mul, Nat.add_assoc]
  rw [Nat.succ_mul] at hlower
  obtain ⟨first, hfirst⟩ :
      ∃ first, first = min message.buffer.length usable - message.optionBytes := ⟨_, rfl⟩
  -- a buffer smaller than a packet leaves the bytes of the options to the second packet
  have hsmall : message.buffer.length < usable → n = 0 := by
    intro hless
    by_contra hne
    have hmul : 1 * usable ≤ n * usable := Nat.mul_le_mul_right usable (by omega)
    omega
  have hrest : message.buffer.length ≤ 0 + first + (n + 1) * usable := by
    rw [Nat.succ_mul]
    omega
  have hmore : 0 + first + (n + 1 - 1) * usable < message.buffer.length := by
    rw [Nat.add_sub_cancel]
    by_cases hless : message.buffer.length < usable
    · rw [hsmall hless] at hlower ⊢
      omega
    · omega
  obtain ⟨segs, hloop, hslices⟩ := segmentLoop_slices message (by omega) husable hn 1 (0 + first)
    Nat.one_ne_zero (Nat.add_comm 1 (n + 1)) (by omega) hrest (fun _ => hmore)
  have hbytes : (if (0 : Uint32) = 0 ∧ 0 < optionsTotalBytes (buildMessageOptions message.options)
      then .ofNat 32 (min message.buffer.length usable) -
        optionsTotalBytes (buildMessageOptions message.options)
      else .ofNat 32 (min message.buffer.length usable)) = (.ofNat 32 first : Uint32) := by
    have hzero : 0 < optionsTotalBytes (buildMessageOptions message.options) ↔
        0 < message.optionBytes := by
      rw [BitVec.lt_def, hopts]
      rfl
    refine BitVec.eq_of_toNat_eq ?_
    split
    · rw [BitVec.toNat_sub, hopts, BitVec.toNat_ofNat, BitVec.toNat_ofNat]
      omega
    · rename_i hnone
      have hnone : message.optionBytes = 0 := by
        by_contra hne
        exact hnone ⟨rfl, hzero.mpr (by omega)⟩
      rw [hfirst, hnone, Nat.sub_zero]
  have hmin := ofNat_min hlt husable
  have hwhole : message.bufferLen - 0 = .ofNat 32 message.buffer.length := BitVec.sub_zero _
  have hstart : (0 : Uint32) + .ofNat 32 first = .ofNat 32 (0 + first) :=
    (BitVec.ofNat_add 0 first).symm
  have hone : (0 : Uint32) + 1 = .ofNat 32 1 := rfl
  have hroom : (0 : Uint32).toNat + (BitVec.ofNat 32 first : Uint32).toNat ≤
      message.buffer.length := by
    rw [BitVec.toNat_ofNat, Nat.mod_eq_of_lt (by omega)]
    exact (Nat.zero_add first).trans_le (by omega)
  refine ⟨_, ?_, .next (by omega) (by rw [if_pos rfl]; omega) (absurd rfl) hslices⟩
  rw [segmentLoop, hwhole, hmin, hbytes, if_pos hroom, hstart, hone, hloop]
  rfl

/-- Any other message goes through the loop, for at least two packets. -/
theorem OptionsCounted.buildMessage_segmented
    (hlarge : mtu.toNat < message.optionBytes + message.buffer.length + headerBytes)
    (hwrap : message.optionBytes + message.buffer.length + headerBytes < 2 ^ 32) :
    ∃ n, packetCount (message.optionBytes + message.buffer.length) (mtu.toNat - 16) = n + 2 ∧
      n + 2 < 2 ^ 32 ∧
      buildMessage message mtu = segmentLoop message (buildMessageOptions message.options)
        (.ofNat 32 (mtu.toNat - 16)) (.ofNat 32 (n + 2)) (n + 2) 0 0 := by
  have hopts := h.total
  have hbuf := message.bufferLen_toNat
  have hmtu := h.mtu_gt
  have hbound := mtu.isLt
  simp only [headerBytes, unyteSegmentationOptionLen] at hlarge hwrap hmtu
  obtain ⟨usable, husable⟩ : ∃ usable, usable = mtu.toNat - 16 := ⟨_, rfl⟩
  obtain ⟨bytes, hbytes⟩ : ∃ bytes, bytes = message.optionBytes + message.buffer.length :=
    ⟨_, rfl⟩
  obtain ⟨total, htotal⟩ : ∃ total, total = packetCount bytes usable := ⟨_, rfl⟩
  have hlower := (packetCount_bounds (by omega : 0 < bytes) (by omega : 0 < usable)).1
  rw [← husable, ← hbytes, ← htotal]
  rw [← htotal] at hlower
  have hactual : mtu - BitVec.ofNat 32 headerBytes - BitVec.ofNat 32 unyteSegmentationOptionLen =
      .ofNat 32 usable := by
    refine BitVec.eq_of_toNat_eq ?_
    simp only [BitVec.toNat_sub, BitVec.toNat_ofNat, headerBytes, unyteSegmentationOptionLen]
    omega
  have hmessage : (optionsTotalBytes (buildMessageOptions message.options) +
      message.bufferLen).toNat = bytes := by
    rw [BitVec.toNat_add, hopts, hbuf]
    omega
  have husable' : (BitVec.ofNat 32 usable : Uint32).toNat = usable := by
    rw [BitVec.toNat_ofNat]
    omega
  have hpackets : packetsToSend (optionsTotalBytes (buildMessageOptions message.options) +
      message.bufferLen) (.ofNat 32 usable) mtu = some (.ofNat 32 total) := by
    rw [packetsToSend_eq (by simp only [headerBytes]; omega) (by simp only [headerBytes]; omega)
      (by omega), hmessage, husable', htotal]
  -- the message does not fit one packet
  obtain ⟨n, rfl⟩ : ∃ n, total = n + 2 := by
    refine ⟨total - 2, ?_⟩
    by_contra hfew
    have hone := (packetCount_le_iff (by omega : 0 < bytes) (by omega : 0 < usable) 1).mp
      (by omega)
    omega
  have hcount : n + 1 ≤ (n + 1) * usable := Nat.le_mul_of_pos_right _ (by omega)
  have hlast : n + 2 - 1 = n + 1 := by omega
  rw [hlast] at hlower
  have htotal' : (BitVec.ofNat 32 (n + 2) : Uint32).toNat = n + 2 := by
    rw [BitVec.toNat_ofNat]
    omega
  have hmany : (BitVec.ofNat 32 (n + 2) : Uint32) ≠ 1 := by
    intro hone
    have hone := congrArg BitVec.toNat hone
    rw [htotal'] at hone
    exact absurd hone (by omega : n + 2 ≠ 1)
  refine ⟨n, rfl, by omega, ?_⟩
  simp only [buildMessage, hactual, hpackets, if_neg hmany, htotal']

/-- Options no longer than the buffer leave room for it: the packets carry it. -/
theorem OptionsCounted.buildMessage_slices
    (hfit : message.optionBytes ≤ message.buffer.length)
    (hlarge : mtu.toNat < message.optionBytes + message.buffer.length + headerBytes)
    (hwrap : message.optionBytes + message.buffer.length + headerBytes < 2 ^ 32) :
    ∃ segs, buildMessage message mtu = some segs ∧ Slices message (mtu.toNat - 16)
      (packetCount (message.optionBytes + message.buffer.length) (mtu.toNat - 16)) 0 0 segs := by
  have hmtu := h.mtu_gt
  have hbound := mtu.isLt
  obtain ⟨n, hcount, hn, hbuild⟩ := h.buildMessage_segmented hlarge hwrap
  simp only [headerBytes, unyteSegmentationOptionLen] at hlarge hmtu
  obtain ⟨hlower, hupper⟩ := packetCount_bounds
    (by omega : 0 < message.optionBytes + message.buffer.length)
    (by omega : 0 < mtu.toNat - 16)
  rw [hcount] at hlower hupper ⊢
  rw [hbuild]
  exact h.segmentLoop_first hfit (by omega) (by omega) hn hlower hupper

/-- Options longer than the buffer make the number of bytes to send wrap in the
first packet, and `memcpy` reads beyond the buffer. -/
theorem OptionsCounted.buildMessage_overread
    (hlong : message.buffer.length < message.optionBytes)
    (hlarge : mtu.toNat < message.optionBytes + message.buffer.length + headerBytes)
    (hwrap : message.optionBytes + message.buffer.length + headerBytes < 2 ^ 32) :
    buildMessage message mtu = none := by
  have hopts := h.total
  have hbuf := message.bufferLen_toNat
  have hmtu := h.mtu_gt
  have hbound := mtu.isLt
  obtain ⟨n, _, _, hbuild⟩ := h.buildMessage_segmented hlarge hwrap
  simp only [headerBytes, unyteSegmentationOptionLen] at hmtu
  have hmin := ofNat_min message.buffer_lt (by omega : mtu.toNat - 16 < 2 ^ 32)
  rw [Nat.min_eq_left (by omega)] at hmin
  have hfirst : (0 : Uint32) = 0 ∧ 0 < optionsTotalBytes (buildMessageOptions message.options) := by
    refine ⟨rfl, ?_⟩
    rw [BitVec.lt_def, hopts]
    exact Nat.zero_lt_of_lt hlong
  have hwhole : message.bufferLen - 0 = .ofNat 32 message.buffer.length := BitVec.sub_zero _
  have hwraps : ¬ (0 : Uint32).toNat + ((BitVec.ofNat 32 message.buffer.length : Uint32) -
      optionsTotalBytes (buildMessageOptions message.options)).toNat ≤ message.buffer.length := by
    have hlt := message.buffer_lt
    rw [BitVec.toNat_sub, hopts, BitVec.toNat_ofNat]
    omega
  rw [hbuild, segmentLoop, hwhole, hmin, if_pos hfirst, if_neg hwraps]

end Build

end UdpNotif
