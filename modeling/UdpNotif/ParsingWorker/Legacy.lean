import UdpNotif.ParsingWorker.Fragments
import UdpNotif.ParsingWorker.ParserExit

/-!
What `parse_with_metadata_legacy` makes of a datagram. The encoding of a legacy
header is looked up in a table of four media types, and the comparison that
guards the table lets one encoding past its end.
-/

namespace UdpNotif

/-- The encoding in a legacy header. -/
def legacyEncoding (segment : List Uint8) : Nat := (charAt segment 1 &&& etMask).toNat

/-- A segment has what a legacy datagram says: the media type of its encoding,
reserved for the unknown ones, no options, the ids and the message length at the
offsets of the new header, and the bytes behind the header. -/
structure LegacyDecoded (um : UnyteMin) (seg : UnyteSegMet) : Prop where
  mediaType : seg.header.mediaType.toNat = legacyEtToIana.getD (legacyEncoding um.buffer.val) 0
  options : seg.header.options = []
  fields : ∀ s, seg.header.observationDomainId =
      (parsedSegment um.buffer.val um s).header.observationDomainId ∧
    seg.header.messageId = (parsedSegment um.buffer.val um s).header.messageId ∧
    seg.header.messageLength = (parsedSegment um.buffer.val um s).header.messageLength
  payload : seg.payload =
    (um.buffer.val.drop headerBytes).take (seg.header.messageLength.toNat - headerBytes)
  payload_length : seg.payload.length + headerBytes = seg.header.messageLength.toNat

/-- The parser decodes a legacy datagram and hands it to the output queue, without
a look at its segment buffer. -/
def LegacyFaithful (um : UnyteMin) : Prop :=
  ∃ seg, parseFunc true um.buffer.val um = .ok seg ∧ LegacyDecoded um seg ∧
    ∀ malloc now st, parserIteration true malloc now st um = .continued st (some seg)

/-- The media type that the guarded lookup finds. -/
theorem getEncodingIanaEtFromLegacy_eq {et : Uint8} {mediaType : Nat}
    (h : getEncodingIanaEtFromLegacy et = some mediaType) :
    mediaType = legacyEtToIana.getD et.toNat 0 ∧ mediaType < 2 ^ 4 := by
  have htable : ∀ i, legacyEtToIana.getD i 0 < 2 ^ 4 := by
    intro i
    by_cases hi : i < 4
    · interval_cases i <;> decide
    · have hnone : legacyEtToIana[i]? = none := List.getElem?_eq_none (Nat.le_of_not_lt hi)
      rw [List.getD_eq_getElem?_getD, hnone]
      decide
  have heq : mediaType = legacyEtToIana.getD et.toNat 0 := by
    unfold getEncodingIanaEtFromLegacy at h
    split at h
    · rename_i hbeyond
      have hnone : legacyEtToIana[et.toNat]? = none :=
        List.getElem?_eq_none (Nat.le_of_lt hbeyond)
      rw [List.getD_eq_getElem?_getD, hnone]
      exact (Option.some.inj h).symm
    · rw [List.getD_eq_getElem?_getD, h, Option.getD_some]
  exact ⟨heq, heq ▸ htable _⟩

/-- The lookup leaves the table for the encoding just behind it. -/
theorem getEncodingIanaEtFromLegacy_eq_none_iff (et : Uint8) :
    getEncodingIanaEtFromLegacy et = none ↔ et.toNat = supportedEtLen := by
  unfold getEncodingIanaEtFromLegacy
  split
  · rename_i hbeyond
    exact iff_of_false (Option.some_ne_none 0) (Nat.ne_of_gt hbeyond)
  · rename_i hwithin
    rw [List.getElem?_eq_none_iff, supportedEtLen]
    rw [supportedEtLen] at hwithin
    omega

/-- A segment parsed from a legacy header is what the datagram says. -/
theorem legacyDecoded_of_parsed {um : UnyteMin} {seg : UnyteSegMet}
    (h : parseWithMetadataLegacy um.buffer.val um = .ok seg) : LegacyDecoded um seg := by
  obtain ⟨mediaType, hmedia, hsize, rfl⟩ := (parseWithMetadataLegacy_eq_ok_iff _ _ _).mp h
  obtain ⟨htable, hbits⟩ := getEncodingIanaEtFromLegacy_eq hmedia
  have hbuffer := um.buffer.property
  have hlength := (ntohs (deserializeUint16 um.buffer.val 2)).isLt
  unfold legacyPayloadSizeOf at hsize
  have htoNat : (legacyPayloadSizeOf um.buffer.val).toNat =
      (ntohs (deserializeUint16 um.buffer.val 2)).toNat - headerBytes := by
    unfold legacyPayloadSizeOf
    omega
  have hpayload : (parsedLegacySegment um.buffer.val um mediaType).payload =
      (um.buffer.val.drop headerBytes).take
        ((ntohs (deserializeUint16 um.buffer.val 2)).toNat - headerBytes) := by
    rw [← htoNat]
    rfl
  refine ⟨?_, rfl, fun _ => ⟨rfl, rfl, rfl⟩, hpayload, ?_⟩
  · have hwidth : (BitVec.ofNat 4 mediaType).toNat = mediaType := by
      rw [BitVec.toNat_ofNat, Nat.mod_eq_of_lt hbits]
    exact hwidth.trans htable
  · rw [hpayload, List.length_take, List.length_drop, hbuffer]
    change _ = (ntohs (deserializeUint16 um.buffer.val 2)).toNat
    simp only [headerBytes, udpSize] at hsize ⊢
    omega

/-- A header of twelve bytes without options is not that of a segment. -/
theorem legacy_not_segmented {segment : List Uint8} {um : UnyteMin} {seg : UnyteSegMet}
    (h : parseWithMetadataLegacy segment um = .ok seg) : isSegmented seg.header = false := by
  obtain ⟨_, _, _, rfl⟩ := (parseWithMetadataLegacy_eq_ok_iff _ _ _).mp h
  rfl

/-- A legacy datagram with a whole header is decoded faithfully exactly if its
encoding is not the one just behind the table. -/
theorem legacy_faithful_iff (um : UnyteMin)
    (hlength : headerBytes ≤ (ntohs (deserializeUint16 um.buffer.val 2)).toNat) :
    LegacyFaithful um ↔ legacyEncoding um.buffer.val ≠ supportedEtLen := by
  have hparsed := parseFunc_ok_iff true um.buffer.val um (fun h => by cases h)
  have hacceptable : Acceptable true um.buffer.val ↔
      legacyEncoding um.buffer.val ≠ supportedEtLen := by
    simp only [Acceptable, if_true, hlength, true_and]
    rfl
  rw [← hacceptable, ← hparsed]
  constructor
  · rintro ⟨seg, hseg, _⟩
    exact ⟨seg, hseg⟩
  · rintro ⟨seg, hseg⟩
    refine ⟨seg, hseg, legacyDecoded_of_parsed hseg, fun malloc now st => ?_⟩
    rw [parserIteration_ok hseg, handleParsed, legacy_not_segmented hseg]
    rfl

/-- A legacy header with the JSON encoding and no payload. -/
theorem legacy_faithful_json :
    LegacyFaithful (receivedMin [0x10, 2, 0, 12, 0, 0, 0, 7, 0, 0, 0, 9] (by decide)) :=
  (legacy_faithful_iff _ (by decide)).mpr (by decide)

/-- Encoding 4 is read behind the end of the table. -/
theorem legacy_reads_beyond_table :
    ¬ ∀ um : UnyteMin, headerBytes ≤ (ntohs (deserializeUint16 um.buffer.val 2)).toNat →
      LegacyFaithful um := by
  intro hclaim
  obtain ⟨seg, hseg, _⟩ := hclaim
    (receivedMin [0x10, 4, 0, 12, 0, 0, 0, 7, 0, 0, 0, 9] (by decide)) (by decide)
  rw [(by decide : parseFunc true _ _ = .undefined)] at hseg
  cases hseg

end UdpNotif
