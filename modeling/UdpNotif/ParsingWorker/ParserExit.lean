import UdpNotif.ParsingWorker.ParserInvariant
import UdpNotif.Utils.OptionWalk

/-!
Which packets a parser survives. A parse function returns `NULL` only where an
allocation is refused, and the sizes of two allocations come from the packet:
the data of a custom option and the payload. A `NULL` makes the parser return.
-/

namespace UdpNotif

/-- The loop meets no custom option whose length is smaller than two. -/
def CustomOptionsLongEnough (segment : List Uint8) : Prop :=
  ∀ n, optionOffset segment n < (charAt segment 1).toNat →
    charAt segment (optionOffset segment n) = unyteTypeSegmentation ∨
      2 ≤ (charAt segment (optionOffset segment n + 1)).toNat

/-- The packets that do not stop a parser: the sizes they ask for are not
negative, and a legacy media type is not read past its table. -/
def Acceptable (legacyProto : Bool) (segment : List Uint8) : Prop :=
  let messageLength := ntohs (deserializeUint16 segment 2)
  if legacyProto then
    headerBytes ≤ messageLength.toNat ∧
      (charAt segment 1 &&& etMask).toNat ≠ supportedEtLen
  else
    (charAt segment 1).toNat ≤ messageLength.toNat ∧ CustomOptionsLongEnough segment

/-- A loop that ends fails exactly on the first short custom option it meets. -/
theorem optionLoop_mallocFailed_iff (segment : List Uint8) (headerLength : Uint8) (fuel : Nat)
    (s : OptionLoopState) (n : Nat)
    (hoffset : headerBytes + s.optionsLength = optionOffset segment n)
    (hends : optionLoop segment headerLength fuel s ≠ .running) :
    optionLoop segment headerLength fuel s = .mallocFailed ↔
      ∃ m, n ≤ m ∧ optionOffset segment m < headerLength.toNat ∧
        charAt segment (optionOffset segment m) ≠ unyteTypeSegmentation ∧
        (charAt segment (optionOffset segment m + 1)).toNat < 2 := by
  induction fuel generalizing s n with
  | zero => exact absurd rfl hends
  | succ fuel ih =>
      rw [optionLoop] at hends ⊢
      by_cases hcond : s.optionsLength + headerBytes < headerLength.toNat
      · rw [if_pos hcond] at hends ⊢
        -- an iteration that succeeds moves on and rules out its own option
        have hmove (next : OptionLoopState) (hbody : optionLoopBody segment s = some next)
            (hgood : charAt segment (optionOffset segment n) = unyteTypeSegmentation ∨
              2 ≤ (charAt segment (optionOffset segment n + 1)).toNat)
            (hnext : optionLoop segment headerLength fuel next ≠ .running) :
            optionLoop segment headerLength fuel next = .mallocFailed ↔
              ∃ m, n ≤ m ∧ optionOffset segment m < headerLength.toNat ∧
                charAt segment (optionOffset segment m) ≠ unyteTypeSegmentation ∧
                (charAt segment (optionOffset segment m + 1)).toNat < 2 := by
          have hlen := optionLoopBody_optionsLength hbody
          rw [ih next (n + 1) (by rw [hlen, ← Nat.add_assoc, hoffset]; rfl) hnext]
          constructor
          · rintro ⟨m, hm, hbad⟩
            exact ⟨m, by omega, hbad⟩
          · rintro ⟨m, hm, hlt, htype, hshort⟩
            refine ⟨m, Nat.lt_of_le_of_ne hm ?_, hlt, htype, hshort⟩
            rintro rfl
            rcases hgood with hgood | hgood
            · exact htype hgood
            · omega
        rcases optionLoopBody_cases segment s with ⟨htype, hb⟩ | ⟨_, hlen, hb⟩ | ⟨htype, hlen, hb⟩
        · rw [hoffset] at htype
          rw [hb] at hends ⊢
          exact hmove _ hb (Or.inl htype) hends
        · rw [hoffset] at hlen
          rw [hb] at hends ⊢
          exact hmove _ hb (Or.inr hlen) hends
        · rw [hoffset] at htype hlen
          rw [hb]
          exact iff_of_true rfl ⟨n, Nat.le_refl n, by omega, htype, hlen⟩
      · rw [if_neg hcond]
        refine iff_of_false (by simp) ?_
        rintro ⟨m, hm, hlt, _⟩
        have := optionOffset_le segment hm
        omega

theorem getEncodingIanaEtFromLegacy_isSome_iff (et : Uint8) :
    (∃ mediaType, getEncodingIanaEtFromLegacy et = some mediaType) ↔
      et.toNat ≠ supportedEtLen := by
  unfold getEncodingIanaEtFromLegacy
  by_cases hbeyond : supportedEtLen < et.toNat
  · rw [if_pos hbeyond]
    exact iff_of_true ⟨0, rfl⟩ (by omega)
  · have hlen : supportedEtLen = legacyEtToIana.length := rfl
    rw [if_neg hbeyond, ← Option.isSome_iff_exists, isSome_getElem?]
    omega

/-- The parse function of a parser returns a segment exactly for acceptable
packets. -/
theorem parseFunc_ok_iff (legacyProto : Bool) (segment : List Uint8) (um : UnyteMin)
    (hends : legacyProto = false → OptionLoopEnds segment) :
    (∃ parsed, parseFunc legacyProto segment um = .ok parsed) ↔
      Acceptable legacyProto segment := by
  cases legacyProto with
  | true =>
      simp only [parseFunc, if_true, parseWithMetadataLegacy_eq_ok_iff, Acceptable]
      rw [← getEncodingIanaEtFromLegacy_isSome_iff]
      unfold legacyPayloadSizeOf
      constructor
      · rintro ⟨_, mediaType, hmedia, hsize, _⟩
        exact ⟨by omega, mediaType, hmedia⟩
      · rintro ⟨hsize, mediaType, hmedia⟩
        exact ⟨_, mediaType, hmedia, by omega, rfl⟩
  | false =>
      have hfuel := (optionLoopEnds_iff segment).mp (hends rfl)
      have hfailed := optionLoop_mallocFailed_iff segment (charAt segment 1) optionLoopFuel
        .init 0 rfl hfuel
      have hlong : optionLoop segment (charAt segment 1) optionLoopFuel .init ≠ .mallocFailed ↔
          CustomOptionsLongEnough segment := by
        rw [Ne, hfailed]
        constructor
        · intro hnone n hlt
          by_contra hbad
          rw [not_or, Nat.not_le] at hbad
          exact hnone ⟨n, Nat.zero_le n, hlt, hbad.1, hbad.2⟩
        · rintro hlong ⟨n, _, hlt, htype, hshort⟩
          rcases hlong n hlt with hgood | hgood
          · exact htype hgood
          · omega
      simp only [parseFunc, Bool.false_eq_true, if_false, parseWithMetadata_eq_ok_iff, Acceptable]
      rw [← hlong]
      unfold payloadSizeOf
      constructor
      · rintro ⟨_, s, hloop, hsize, _⟩
        exact ⟨by omega, by rw [hloop]; simp⟩
      · rintro ⟨hsize, hloop⟩
        cases hresult : optionLoop segment (charAt segment 1) optionLoopFuel .init with
        | running => exact absurd hresult hfuel
        | mallocFailed => exact absurd hresult hloop
        | done s => exact ⟨_, s, rfl, by omega, rfl⟩

/-- In every reachable state an iteration of the parser goes on to the next
element exactly for acceptable packets. -/
theorem parser_goes_on_iff {legacyProto : Bool} {s : ParserState}
    (hreach : s.Reachable legacyProto) (malloc : Nat → Bool) (now : Int) (queueData : UnyteMin)
    (hends : legacyProto = false → OptionLoopEnds queueData.buffer.val) :
    (∃ s' written,
      parserIteration legacyProto malloc now s queueData = .continued s' written) ↔
      Acceptable legacyProto queueData.buffer.val := by
  rw [← parseFunc_ok_iff legacyProto queueData.buffer.val queueData hends]
  unfold parserIteration
  constructor
  · rintro ⟨s', written, h⟩
    cases hparse : parseFunc legacyProto queueData.buffer.val queueData with
    | ok parsed => exact ⟨parsed, rfl⟩
    | diverges | undefined | null =>
        rw [hparse] at h
        cases h
  · rintro ⟨parsed, hparse⟩
    obtain ⟨s', written, hgoes, _⟩ := handleParsed_goes_on malloc now
      hreach.built (parseFunc_parsed hparse)
    exact ⟨s', written, by rw [hparse]; exact hgoes⟩

/-- The first segment of a message, and the second one, with a custom option. -/
def firstOfTwo : UnyteMin :=
  minimalParse (RecvBuffer.zeroed.receive
    [33, 16, 0, 17, 0, 0, 0, 7, 0, 0, 0, 9, 1, 4, 0, 0, 104] (by decide)) ⟨[]⟩ none

def secondOfTwo : UnyteMin :=
  minimalParse (RecvBuffer.zeroed.receive
    [33, 21, 0, 22, 0, 0, 0, 7, 0, 0, 0, 9, 1, 4, 0, 3, 2, 5, 1, 2, 3, 105] (by decide)) ⟨[]⟩ none

/-- A parser with a segment stored goes on after the one with a custom option. -/
theorem parser_goes_on_after_stored_segment : ∃ s : ParserState,
    Runs.Run (ParserStep false) .init [.packet firstOfTwo (fun _ => true) 0] s ∧
      s.segmentBuff.lookup (7, 9) ≠ none ∧
      ∃ s' written, parserIteration false (fun _ => true) 0 s secondOfTwo =
        .continued s' written := by
  have hcomputed : (ParserState.init.next false (.packet firstOfTwo (fun _ => true) 0)).any
      (fun s => decide (s.segmentBuff.lookup (7, 9) ≠ none)) = true := by decide +kernel
  obtain ⟨s, hnext, hstored⟩ := (Option.any_eq_true _ _).mp hcomputed
  have hrun := Runs.Run.nil.snoc (ParserState.step_of_next hnext)
  -- the options are those at the offsets 12 and 16
  have hlong : CustomOptionsLongEnough secondOfTwo.buffer.val := by
    intro n hlt
    match n with
    | 0 => decide
    | 1 => decide
    | n + 2 =>
        have hend := optionOffset_le secondOfTwo.buffer.val (Nat.le_add_left 2 n)
        exact absurd hend (Nat.not_le.mpr hlt)
  exact ⟨s, hrun, of_decide_eq_true hstored, (parser_goes_on_iff ⟨_, hrun⟩ _ _ _
    (fun _ => ⟨3, by decide⟩)).mpr ⟨by decide, hlong⟩⟩

/-- A datagram of twelve bytes whose message length is zero stops the parser. -/
theorem parser_stops_on_zero_message_length :
    ¬ ∀ s malloc now (heap : RecvBuffer) datagram (h : datagram.length ≤ udpSize) src dest,
      ParserState.Reachable false s → datagram ≠ [] → OptionLoopEnds (heap.receive datagram h).val →
      ∃ s' written, parserIteration false malloc now s
        (minimalParse (heap.receive datagram h) src dest) = .continued s' written := by
  intro hclaim
  obtain ⟨s', written, hgoes⟩ := hclaim .init (fun _ => true) 0 .zeroed
    [0, 12, 0, 0, 0, 0, 0, 0, 0, 0, 0, 0] (by decide) ⟨[]⟩ none ⟨[], .nil⟩ (by simp)
    ⟨1, by decide⟩
  rw [parserIteration, (by decide : parseFunc false _ _ = .null)] at hgoes
  cases hgoes

end UdpNotif
