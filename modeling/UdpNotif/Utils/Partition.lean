import UdpNotif.Utils.Build

/-!
The segments that `build_message` returns are a partition of the buffer: their
payloads are the buffer, their lengths agree with their payloads and fit the
MTU, and their numbers, last flags and options are as the receiver expects.
-/

namespace UdpNotif

/-- The fields of the packet with number `i` out of `total`. -/
structure FieldsAt (message : UnyteMessage) (mtu : Uint32) (total i : Nat) (seg : UnyteSeg) :
    Prop where
  messageLength : seg.header.messageLength.toNat = seg.payload.length
  size : seg.header.headerLength.toNat + seg.header.messageLength.toNat ≤ mtu.toNat
  options : seg.header.options.map (fun o => (o.type, o.data)) =
    if i = 0 then message.options.map (fun o => (o.type, o.data)) else []
  numbered : 1 < total → ∃ s, seg.header.segmentation = some s ∧ s.fNum.toNat = i ∧
    s.fLast = if i + 1 = total then 1 else 0

/-- The packets carry the buffer from one end to the other. -/
structure Partition (message : UnyteMessage) (mtu : Uint32) (segs : List UnyteSeg) : Prop where
  payloads : segs.flatMap (fun seg => seg.payload) = message.buffer
  fields : ∀ i seg, segs[i]? = some seg → FieldsAt message mtu segs.length i seg

theorem buildMessageOptions_contents (options : List UnyteSendOption) :
    (buildMessageOptions options).map (fun o => (o.type, o.data)) =
      options.map (fun o => (o.type, o.data)) := by
  rw [buildMessageOptions, List.map_map]
  rfl

section Partition

variable {message : UnyteMessage} {mtu : Uint32} (h : OptionsFit message mtu)
include h

/-- One packet that fits the MTU is a partition. -/
theorem OptionsFit.partition_whole
    (hwhole : message.optionBytes + message.buffer.length + headerBytes ≤ mtu.toNat) :
    Partition message mtu [wholeMessage message (buildMessageOptions message.options)] := by
  have hoption : message.optionBytes ≤ 243 := h.optionBytes_le.trans (by decide)
  have hheader := h.counted.wholeMessage_headerLength hoption
  have hsized := h.counted.wholeMessage_wellSized h.data_le hoption (hwhole.trans h.mtu_le)
  have hmessage : (wholeMessage message
      (buildMessageOptions message.options)).header.messageLength.toNat =
      message.buffer.length := hsized.messageLength
  constructor
  · exact List.append_nil _
  · intro i seg hseg
    obtain ⟨hi, rfl⟩ := List.getElem?_eq_some_iff.mp hseg
    obtain rfl : i = 0 := Nat.lt_one_iff.mp hi
    change FieldsAt message mtu 1 0 (wholeMessage message (buildMessageOptions message.options))
    constructor
    · exact hmessage
    · rw [hmessage, hheader]
      omega
    · exact buildMessageOptions_contents _
    · exact fun hone => absurd hone (Nat.lt_irrefl 1)

/-- The fields of a segment of the loop. -/
theorem OptionsFit.segmentOf_fields {total i copyIt size : Nat} (htotal : total ≤ 2 ^ 31)
    (hi : i < total) (hcopy : copyIt + size ≤ message.buffer.length)
    (husable : size + (if i = 0 then message.optionBytes else 0) ≤ mtu.toNat - 16) :
    FieldsAt message mtu total i (segmentOf message (buildMessageOptions message.options)
      (.ofNat 32 total) (.ofNat 32 i) (.ofNat 32 copyIt) (.ofNat 32 size)) := by
  have hgt := h.mtu_gt
  have hsized := h.counted.segmentOf_wellSized h.mtu_le h.data_le h.optionBytes_le (by omega) hi
    hcopy husable
  have hmessage := hsized.messageLength
  simp only [headerBytes, unyteSegmentationOptionLen] at hgt
  rw [h.counted.segmentOf_eq (by omega) hi hcopy] at hmessage ⊢
  constructor
  · exact hmessage
  · rw [hmessage]
    dsimp only
    rw [List.length_take, List.length_drop, BitVec.toNat_ofNat]
    split at husable <;> rename_i hfirst
    · rw [if_pos hfirst]
      omega
    · rw [if_neg hfirst]
      omega
  · dsimp only
    split
    · exact buildMessageOptions_contents _
    · rfl
  · refine fun _ => ⟨_, rfl, ?_, rfl⟩
    rw [BitVec.toNat_ofNat]
    omega

/-- The segments from number `i` on carry the buffer from `copyIt` on. -/
theorem OptionsFit.slices_payloads {total i copyIt : Nat} {segs : List UnyteSeg}
    (htotal : total ≤ 2 ^ 31) (hs : Slices message (mtu.toNat - 16) total i copyIt segs) :
    segs.flatMap (fun seg => seg.payload) = message.buffer.drop copyIt := by
  induction hs with
  | done => exact List.drop_length.symm
  | next hcopy _ _ hrest ih =>
      have hlength := hrest.length
      rw [List.flatMap_cons, ih, h.counted.segmentOf_eq (by omega) (by omega) hcopy,
        ← List.drop_drop, List.take_append_drop]

theorem OptionsFit.slices_fields {total : Nat} {segs : List UnyteSeg} (htotal : total ≤ 2 ^ 31)
    (hs : Slices message (mtu.toNat - 16) total 0 0 segs) {i : Nat} {seg : UnyteSeg}
    (hseg : segs[i]? = some seg) : FieldsAt message mtu total i seg := by
  obtain ⟨hi, start, size, hcopy, husable, rfl⟩ := hs.exists_segmentOf hseg
  rw [Nat.zero_add] at hi husable ⊢
  exact h.segmentOf_fields htotal hi hcopy husable

end Partition

/-- A message is partitioned exactly if it fits one packet, or its options are no
longer than its buffer. -/
theorem buildMessage_partition_iff {message : UnyteMessage} {mtu : Uint32}
    (h : OptionsFit message mtu)
    (hsize : message.optionBytes + message.buffer.length + headerBytes < 2 ^ 31) :
    (∃ segs, buildMessage message mtu = some segs ∧ Partition message mtu segs) ↔
      message.optionBytes + message.buffer.length + headerBytes ≤ mtu.toNat ∨
        message.optionBytes ≤ message.buffer.length := by
  by_cases hwhole : message.optionBytes + message.buffer.length + headerBytes ≤ mtu.toNat
  · exact iff_of_true ⟨_, h.counted.buildMessage_whole (Or.inl hwhole), h.partition_whole hwhole⟩
      (Or.inl hwhole)
  rw [or_iff_right hwhole]
  constructor
  · rintro ⟨segs, hbuild, _⟩
    by_contra hlong
    rw [h.counted.buildMessage_overread (Nat.not_le.mp hlong) (Nat.not_le.mp hwhole)
      (by omega)] at hbuild
    cases hbuild
  · intro hfit
    obtain ⟨segs, hbuild, hslices⟩ :=
      h.counted.buildMessage_slices hfit (Nat.not_le.mp hwhole) (by omega)
    have hlength := hslices.length
    rw [Nat.zero_add] at hlength
    have hcount : packetCount (message.optionBytes + message.buffer.length) (mtu.toNat - 16) ≤
        message.optionBytes + message.buffer.length := by
      have hgt := h.mtu_gt
      simp only [headerBytes, unyteSegmentationOptionLen] at hgt hwhole
      apply (packetCount_le_iff (by omega) (by omega) _).mpr
      exact Nat.le_mul_of_pos_right _ (by omega)
    rw [← hlength] at hslices hcount
    exact ⟨segs, hbuild, h.slices_payloads (by omega) hslices,
      fun i seg hseg => h.slices_fields (by omega) hslices hseg⟩

/-- A message of `buffer`, with one custom option of `data`. -/
def optionMessage (buffer data : List Uint8) (hbuffer : buffer.length < 2 ^ 32)
    (hdata : data.length < 2 ^ 8) : UnyteMessage where
  buffer
  version := 1
  space := 0
  mediaType := 1
  observationDomainId := 7
  messageId := 9
  options := [⟨2, data, hdata⟩]
  buffer_lt := hbuffer

/-- Ten bytes and an option of three, in packets of four bytes. -/
theorem buildMessage_partition_ten_bytes :
    ∃ segs, buildMessage (optionMessage [1, 2, 3, 4, 5, 6, 7, 8, 9, 10] [0xaa] (by decide)
      (by decide)) 20 = some segs ∧ Partition (optionMessage [1, 2, 3, 4, 5, 6, 7, 8, 9, 10] [0xaa]
        (by decide) (by decide)) 20 segs := by
  apply (buildMessage_partition_iff ⟨by decide, by decide, by decide, by decide⟩ (by decide)).mpr
  exact Or.inr (by decide)

/-- An option of seven bytes and a buffer of six do not fit a packet of 24 bytes,
and the first segment reads beyond the buffer. -/
theorem buildMessage_overreads_short_buffer :
    ¬ ∀ message mtu, OptionsFit message mtu →
      message.optionBytes + message.buffer.length + headerBytes < 2 ^ 31 →
      ∃ segs, buildMessage message mtu = some segs ∧ Partition message mtu segs := by
  intro hclaim
  obtain ⟨message, hmessage⟩ : ∃ message, message = optionMessage [1, 2, 3, 4, 5, 6]
    [0xaa, 0xbb, 0xcc, 0xdd, 0xee] (by decide) (by decide) := ⟨_, rfl⟩
  have h : OptionsFit message 24 := by
    rw [hmessage]
    exact ⟨by decide, by decide, by decide, by decide⟩
  obtain ⟨segs, hbuild, _⟩ := hclaim message 24 h (by rw [hmessage]; decide)
  rw [h.counted.buildMessage_overread (by rw [hmessage]; decide) (by rw [hmessage]; decide)
    (by rw [hmessage]; decide)] at hbuild
  cases hbuild

end UdpNotif
