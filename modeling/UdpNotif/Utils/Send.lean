import UdpNotif.Utils.Build

/-!
`unyte_send` of `unyte_sender.c`: the MTU it chooses, the packets of a message and
the bytes of each of them. The sender counts the bytes of a packet in four places,
in fields of eight, sixteen and thirty-two bits.
-/

namespace UdpNotif

/-- `DEFAULT_MTU` -/
abbrev senderDefaultMtu : Uint32 := 1500

/-- The MTU that `unyte_send` hands to `build_message`. -/
def sendMtu (usedMtu defaultMtu : Uint32) : Uint32 :=
  if usedMtu ≤ 0 then
    if 0 < defaultMtu then defaultMtu else senderDefaultMtu
  else usedMtu

/-- The bytes of a packet that are handed to `send`, `none` where it reads beyond the
serialized packet. -/
def sendPacket (currentSeg : UnyteSeg) : Option (List Uint8) := do
  let parsedPacket ← serializeMessage currentSeg
  let size := currentSeg.header.headerLength.toNat + currentSeg.header.messageLength.toNat
  if size ≤ parsedPacket.length then some (parsedPacket.take size) else none

/-- `unyte_send`: the datagrams of a message. A `send` that fails is not noticed. -/
def unyteSend (message : UnyteMessage) (usedMtu defaultMtu : Uint32) :
    Option (List (List Uint8)) := do
  let packets ← buildMessage message (sendMtu usedMtu defaultMtu)
  packets.mapM sendPacket

/-- `build_message` computes with the MTU as it is, and no packet is larger. -/
structure MtuRespected (message : UnyteMessage) (mtu : Uint32) : Prop where
  difference : (mtu - BitVec.ofNat 32 headerBytes -
    BitVec.ofNat 32 unyteSegmentationOptionLen).toNat +
      (headerBytes + unyteSegmentationOptionLen) = mtu.toNat
  division : packetsToSend
    (optionsTotalBytes (buildMessageOptions message.options) + message.bufferLen)
    (mtu - BitVec.ofNat 32 headerBytes - BitVec.ofNat 32 unyteSegmentationOptionLen) mtu ≠ none
  packets : ∀ segs, buildMessage message mtu = some segs → ∀ seg ∈ segs,
    seg.header.headerLength.toNat + seg.header.messageLength.toNat ≤ mtu.toNat

/-- The MTU has room for the headers, and for payload if the buffer needs a second
packet. A buffer whose size wraps with the header is not split at all. -/
def MtuSuffices (bufferLen mtu : Nat) : Prop :=
  headerBytes + unyteSegmentationOptionLen ≤ mtu ∧
    (mtu = headerBytes + unyteSegmentationOptionLen → bufferLen + headerBytes ≤ mtu) ∧
    (2 ^ 32 ≤ bufferLen + headerBytes → 2 ^ 16 + (bufferLen + headerBytes - 2 ^ 32) ≤ mtu)

section Mtu

variable {message : UnyteMessage} {mtu : Uint32} (hoptions : message.options = [])
include hoptions

theorem optionBytes_eq_zero : message.optionBytes = 0 := by
  rw [UnyteMessage.optionBytes, hoptions]
  rfl

theorem messageLen_toNat : (optionsTotalBytes (buildMessageOptions message.options) +
    message.bufferLen).toNat = message.buffer.length := by
  rw [hoptions]
  exact (congrArg BitVec.toNat (BitVec.zero_add _)).trans message.bufferLen_toNat

/-- One packet is compared to be large enough. -/
theorem not_mtu_lt_iff : (¬ mtu < optionsTotalBytes (buildMessageOptions message.options) +
      message.bufferLen + BitVec.ofNat 32 headerBytes) ↔
    (message.buffer.length + headerBytes) % 2 ^ 32 ≤ mtu.toNat := by
  rw [BitVec.lt_def, BitVec.toNat_add, messageLen_toNat hoptions, BitVec.toNat_ofNat, Nat.not_lt]
  rfl

theorem wholeMessage_size :
    (wholeMessage message (buildMessageOptions message.options)).header.headerLength.toNat +
      (wholeMessage message (buildMessageOptions message.options)).header.messageLength.toNat =
        headerBytes + message.buffer.length % 2 ^ 16 := by
  rw [hoptions]
  simp only [wholeMessage, BitVec.toNat_setWidth, message.bufferLen_toNat]
  rfl

/-- A segment with no custom options has sixteen bytes of header. -/
theorem segmentOf_size_le (h : OptionsCounted message mtu) {total i start size : Nat}
    (htotal : total < 2 ^ 32) (hi : i < total) (hcopy : start + size ≤ message.buffer.length) :
    (segmentOf message (buildMessageOptions message.options) (.ofNat 32 total) (.ofNat 32 i)
      (.ofNat 32 start) (.ofNat 32 size)).header.headerLength.toNat +
    (segmentOf message (buildMessageOptions message.options) (.ofNat 32 total) (.ofNat 32 i)
      (.ofNat 32 start) (.ofNat 32 size)).header.messageLength.toNat ≤ 16 + size := by
  rw [h.segmentOf_eq htotal hi hcopy, optionBytes_eq_zero hoptions, ite_self]
  dsimp only
  rw [BitVec.toNat_ofNat, BitVec.toNat_ofNat]
  omega

/-- Where one packet is enough, its size is all there is to it. -/
theorem mtuRespected_whole (husable : headerBytes + unyteSegmentationOptionLen ≤ mtu.toNat)
    (hwhole : (message.buffer.length + headerBytes) % 2 ^ 32 ≤ mtu.toNat) :
    MtuRespected message mtu ↔ headerBytes + message.buffer.length % 2 ^ 16 ≤ mtu.toNat := by
  have hcond := (not_mtu_lt_iff hoptions).mpr hwhole
  rw [← wholeMessage_size hoptions]
  constructor
  · intro h
    exact h.packets _ (buildMessage_of_not_lt hcond) _ (List.mem_singleton.mpr rfl)
  · intro hsize
    refine ⟨?_, ?_, fun segs hsegs seg hseg => ?_⟩
    · simp only [headerBytes, unyteSegmentationOptionLen, BitVec.toNat_sub,
        BitVec.toNat_ofNat] at husable ⊢
      have hbound := mtu.isLt
      omega
    · rw [packetsToSend, if_neg hcond]
      exact Option.some_ne_none _
    · obtain rfl := Option.some.inj (hsegs.symm.trans (buildMessage_of_not_lt hcond))
      rw [List.mem_singleton.mp hseg]
      exact hsize

/-- Where more packets are needed, there must be a byte of payload in each. -/
theorem mtuRespected_segmented (husable : headerBytes + unyteSegmentationOptionLen ≤ mtu.toNat)
    (hlarge : mtu.toNat < (message.buffer.length + headerBytes) % 2 ^ 32) :
    MtuRespected message mtu ↔ mtu.toNat ≠ headerBytes + unyteSegmentationOptionLen := by
  have hbuf := message.buffer_lt
  have hbound := mtu.isLt
  have hlen := messageLen_toNat hoptions
  have hzero := optionBytes_eq_zero hoptions
  have hcond : mtu < optionsTotalBytes (buildMessageOptions message.options) +
      message.bufferLen + BitVec.ofNat 32 headerBytes :=
    not_not.mp (fun hnot => Nat.not_le.mpr hlarge ((not_mtu_lt_iff hoptions).mp hnot))
  simp only [headerBytes, unyteSegmentationOptionLen] at husable hlarge
  have hactual : (mtu - BitVec.ofNat 32 headerBytes -
      BitVec.ofNat 32 unyteSegmentationOptionLen).toNat + 16 = mtu.toNat := by
    simp only [headerBytes, unyteSegmentationOptionLen, BitVec.toNat_sub, BitVec.toNat_ofNat]
    omega
  constructor
  · intro h hsixteen
    refine h.division ?_
    have hdivisor : mtu - BitVec.ofNat 32 headerBytes -
        BitVec.ofNat 32 unyteSegmentationOptionLen = 0 := by
      refine BitVec.eq_of_toNat_eq ?_
      rw [hsixteen] at hactual
      exact Nat.add_right_cancel hactual
    rw [packetsToSend, if_pos hcond, if_pos hdivisor]
  · intro hne
    simp only [headerBytes, unyteSegmentationOptionLen] at hne
    have hcounted : OptionsCounted message mtu :=
      .of_data_le (by rw [hoptions]; exact fun o ho => absurd ho List.not_mem_nil)
        (by rw [hzero]; simp only [headerBytes, unyteSegmentationOptionLen]; omega)
    refine ⟨hactual, ?_, fun segs hsegs seg hseg => ?_⟩
    · rw [packetsToSend_eq (by rw [hlen, headerBytes]; omega) (by rw [hlen, headerBytes]; omega)
        (by omega)]
      exact Option.some_ne_none _
    · obtain ⟨segs', hbuild, hslices⟩ := hcounted.buildMessage_slices (by omega)
        (by rw [headerBytes]; omega) (by rw [headerBytes]; omega)
      obtain rfl := Option.some.inj (hsegs.symm.trans hbuild)
      obtain ⟨n, _, hn, _⟩ := hcounted.buildMessage_segmented
        (by rw [headerBytes]; omega) (by rw [headerBytes]; omega)
      obtain ⟨i, hi⟩ := List.mem_iff_getElem?.mp hseg
      obtain ⟨hnumber, start, size, hcopy, hsize, rfl⟩ := hslices.exists_segmentOf hi
      have hle := segmentOf_size_le hoptions hcounted (by omega) hnumber hcopy
      omega

end Mtu

/-- Without custom options the MTU is respected exactly if it leaves room for the
headers and for payload that a second packet is needed for, and the buffer is not so
long that its size with the header wraps. -/
theorem mtu_respected_iff (message : UnyteMessage) (hoptions : message.options = [])
    (usedMtu defaultMtu : Uint32) :
    MtuRespected message (sendMtu usedMtu defaultMtu) ↔
      MtuSuffices message.buffer.length (sendMtu usedMtu defaultMtu).toNat := by
  obtain ⟨mtu, hmtu⟩ : ∃ mtu, mtu = sendMtu usedMtu defaultMtu := ⟨_, rfl⟩
  rw [← hmtu]
  have hbuf := message.buffer_lt
  by_cases husable : headerBytes + unyteSegmentationOptionLen ≤ mtu.toNat
  · by_cases hwhole : (message.buffer.length + headerBytes) % 2 ^ 32 ≤ mtu.toNat
    · rw [mtuRespected_whole hoptions husable hwhole]
      simp only [MtuSuffices, headerBytes, unyteSegmentationOptionLen] at husable hwhole ⊢
      omega
    · rw [mtuRespected_segmented hoptions husable (Nat.not_le.mp hwhole)]
      simp only [MtuSuffices, headerBytes, unyteSegmentationOptionLen] at husable hwhole ⊢
      omega
  · refine iff_of_false (fun h => husable ?_) (fun h => husable h.1)
    exact (Nat.le_add_left _ _).trans_eq h.difference

/-- Five bytes and the default MTU. -/
theorem mtu_respected_five_bytes :
    MtuRespected (plainMessage [1, 2, 3, 4, 5] (by decide)) (sendMtu 0 0) :=
  (mtu_respected_iff _ rfl 0 0).mpr (by unfold MtuSuffices; decide)

/-- With an MTU of ten the usable size wraps, and five bytes go out in a packet of
seventeen. With an MTU of sixteen they are divided by zero. -/
theorem mtu_exceeded_five_bytes :
    (∃ seg, buildMessage (plainMessage [1, 2, 3, 4, 5] (by decide)) (sendMtu 10 0) = some [seg] ∧
      seg.header.headerLength.toNat + seg.header.messageLength.toNat = 17) ∧
    buildMessage (plainMessage [1, 2, 3, 4, 5] (by decide)) (sendMtu 16 0) = none ∧
    ¬ ∀ message : UnyteMessage, message.options = [] → ∀ usedMtu defaultMtu,
      MtuRespected message (sendMtu usedMtu defaultMtu) := by
  refine ⟨⟨_, rfl, by decide⟩, by decide, fun hclaim => ?_⟩
  have hrespected := hclaim (plainMessage [1, 2, 3, 4, 5] (by decide)) rfl 10 0
  exact absurd hrespected.difference (by decide)

end UdpNotif
