import UdpNotif.ParsingWorker.Fragments
import UdpNotif.ParsingWorker.Delivery

/-!
What is allocated for a reassembled payload and what is copied into it. The
number of a segment has 15 bits on the wire and its payload less than 2^16
bytes, and a list holds a number once, so that the sum of the sizes stays below
2^32 and the counter of a list is that sum.
-/

namespace UdpNotif

/-- The segment was read from an option that the loop met in the packet, and its
number and size are small. -/
structure ReadFromPacket (segment : List Uint8) (parsed : UnyteSegMet)
    (seg : UnyteSegmentation) : Prop where
  option : ∃ n, OptionMet segment n ∧ optionType segment n = unyteTypeSegmentation ∧
    seg = readSegmentation segment (optionOffset segment n)
  fNum_le : seg.fNum.toNat ≤ 32767
  payloadSize_le : parsed.header.payloadSize.toNat ≤ 65535

/-- A call that the parser makes for a segment with a small number and size. -/
structure InsertCall.Small (c : InsertCall) : Prop where
  fromParser : c.FromParser
  number_lt : c.number < 2 ^ 15
  payloadSize_lt : c.payloadSize.toNat < 2 ^ 16

theorem readSegmentation_fNum_le (segment : List Uint8) (offset : Nat) :
    (readSegmentation segment offset).fNum.toNat ≤ 32767 := by
  have hword := (ntohs (deserializeUint16 segment (offset + 2))).isLt
  simp only [readSegmentation, BitVec.toNat_setWidth, BitVec.toNat_ushiftRight,
    Nat.shiftRight_eq_div_pow]
  omega

/-- The segmentation fields left by the option loop are those of an option it met. -/
theorem optionLoop_segmentation {segment : List Uint8} {s : OptionLoopState}
    (h : optionLoop segment (charAt segment 1) optionLoopFuel .init = .done s)
    {seg : UnyteSegmentation} (hseg : s.segmentation = some seg) :
    ∃ n, OptionMet segment n ∧ optionType segment n = unyteTypeSegmentation ∧
      seg = readSegmentation segment (optionOffset segment n) := by
  have hkeep := optionLoop_done (I := fun s => ∃ n,
    headerBytes + s.optionsLength = optionOffset segment n ∧
      (∀ m < n, OptionAccepted segment m) ∧
      ∀ seg, s.segmentation = some seg → ∃ m, OptionMet segment m ∧
        optionType segment m = unyteTypeSegmentation ∧
        seg = readSegmentation segment (optionOffset segment m)) ?_
      ⟨0, rfl, fun m hm => absurd hm (Nat.not_lt_zero m), fun seg hnone => by cases hnone⟩ h
  · obtain ⟨⟨n, _, _, hread⟩, _⟩ := hkeep
    exact hread seg hseg
  · rintro s next hcond ⟨n, hoffset, haccepted, hread⟩ hbody
    have hnext : optionOffset segment (n + 1) =
        optionOffset segment n + optionLength segment n := rfl
    have hlength : (charAt segment (headerBytes + s.optionsLength + 1)).toNat =
        optionLength segment n := by
      rw [hoffset]
      rfl
    have hadvance := optionLoopBody_optionsLength hbody
    have hmore (hn : OptionAccepted segment n) : ∀ m < n + 1, OptionAccepted segment m := by
      intro m hm
      rcases Nat.eq_or_lt_of_le (Nat.le_of_lt_succ hm) with rfl | hm
      · exact hn
      · exact haccepted m hm
    rcases optionLoopBody_cases segment s with ⟨htype, hb⟩ | ⟨_, hlen, hb⟩ | ⟨_, _, hb⟩
    · rw [hoffset] at htype
      rw [hb, Option.some.injEq] at hbody
      refine ⟨n + 1, by omega, hmore (Or.inl htype), fun seg hlatest => ?_⟩
      rw [← hbody, hoffset] at hlatest
      exact ⟨n, ⟨by omega, haccepted⟩, htype, (Option.some.inj hlatest).symm⟩
    · rw [hlength] at hlen
      rw [hb, Option.some.injEq] at hbody
      refine ⟨n + 1, by omega, hmore (Or.inr hlen), fun seg hlatest => ?_⟩
      rw [← hbody] at hlatest
      exact hread seg hlatest
    · rw [hb] at hbody
      cases hbody

/-- What a parser reads from a segmented packet. -/
theorem parseWithMetadata_readFromPacket {um : UnyteMin} {parsed : UnyteSegMet}
    (h : parseWithMetadata um.buffer.val um = .ok parsed) {seg : UnyteSegmentation}
    (hseg : parsed.header.segmentation = some seg) :
    ReadFromPacket um.buffer.val parsed seg := by
  have hsize := (parseWithMetadata_parsed h).payloadSize
  have hpayload := (parseWithMetadata_parsed h).payload
  have hlength := parsed.header.messageLength.isLt
  obtain ⟨s, hloop, _, rfl⟩ := (parseWithMetadata_eq_ok_iff _ _ _).mp h
  have hoption := optionLoop_segmentation hloop hseg
  refine ⟨hoption, ?_, by omega⟩
  obtain ⟨n, _, _, rfl⟩ := hoption
  exact readSegmentation_fNum_le _ _

theorem segmentCall_small {um : UnyteMin} {parsed : UnyteSegMet}
    (h : parseWithMetadata um.buffer.val um = .ok parsed) {seg : UnyteSegmentation}
    (hseg : parsed.header.segmentation = some seg) : (segmentCall parsed seg).Small := by
  have hread := parseWithMetadata_readFromPacket h hseg
  have hnumber := hread.fNum_le
  refine ⟨segmentCall_fromParser (parseWithMetadata_parsed h) seg, ?_,
    Nat.lt_succ_of_le hread.payloadSize_le⟩
  change (seg.fNum.setWidth 32).toNat < 2 ^ 15
  rw [BitVec.toNat_setWidth]
  omega

end UdpNotif
