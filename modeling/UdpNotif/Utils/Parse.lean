import UdpNotif.Utils.Types

/-!
`minimal_parse`, `parse_with_metadata` and `parse_with_metadata_legacy` of
`unyte_udp_utils.c`.

Allocations of up to 65535 bytes succeed here. A negative `int` handed to
`malloc` becomes a `size_t` no allocator can serve, so it is refused. The
option loop advances by a byte of the packet and need not end, which is why it
runs on fuel; `optionLoop_running_forever` shows that the fuel given to it by
`parseWithMetadata` is spent only where the loop of the source never ends.
-/

namespace UdpNotif

/-- `segment[i]` -/
def charAt (segment : List Uint8) (i : Nat) : Uint8 := segment.getD i 0

/-- Four bytes copied into a `uint32_t` of a little-endian host. -/
def deserializeUint32 (c : List Uint8) (p : Nat) : Uint32 :=
  .ofNat 32 ((charAt c p).toNat + (charAt c (p + 1)).toNat * 2 ^ 8 +
    (charAt c (p + 2)).toNat * 2 ^ 16 + (charAt c (p + 3)).toNat * 2 ^ 24)

/-- Two bytes copied into a `uint16_t` of a little-endian host. -/
def deserializeUint16 (c : List Uint8) (p : Nat) : Uint16 :=
  .ofNat 16 ((charAt c p).toNat + (charAt c (p + 1)).toNat * 2 ^ 8)

/-- Byte swap of `ntohl` on a little-endian host. -/
def ntohl (u : Uint32) : Uint32 :=
  .ofNat 32 (u.toNat % 2 ^ 8 * 2 ^ 24 + u.toNat / 2 ^ 8 % 2 ^ 8 * 2 ^ 16 +
    u.toNat / 2 ^ 16 % 2 ^ 8 * 2 ^ 8 + u.toNat / 2 ^ 24)

/-- Byte swap of `ntohs` on a little-endian host. -/
def ntohs (u : Uint16) : Uint16 :=
  .ofNat 16 (u.toNat % 2 ^ 8 * 2 ^ 8 + u.toNat / 2 ^ 8)

/-- The pair of copy and swap reads a big-endian word, on any host. -/
theorem ntohl_deserializeUint32 (c : List Uint8) (p : Nat) :
    (ntohl (deserializeUint32 c p)).toNat =
      (charAt c p).toNat * 2 ^ 24 + (charAt c (p + 1)).toNat * 2 ^ 16 +
        (charAt c (p + 2)).toNat * 2 ^ 8 + (charAt c (p + 3)).toNat := by
  have hword : (deserializeUint32 c p).toNat =
      (charAt c p).toNat + (charAt c (p + 1)).toNat * 2 ^ 8 +
        (charAt c (p + 2)).toNat * 2 ^ 16 + (charAt c (p + 3)).toNat * 2 ^ 24 := by
    rw [deserializeUint32, BitVec.toNat_ofNat, Nat.mod_eq_of_lt (by omega)]
  have h0 : (deserializeUint32 c p).toNat % 2 ^ 8 = (charAt c p).toNat := by omega
  have h1 : (deserializeUint32 c p).toNat / 2 ^ 8 % 2 ^ 8 = (charAt c (p + 1)).toNat := by omega
  have h2 : (deserializeUint32 c p).toNat / 2 ^ 16 % 2 ^ 8 = (charAt c (p + 2)).toNat := by omega
  have h3 : (deserializeUint32 c p).toNat / 2 ^ 24 = (charAt c (p + 3)).toNat := by omega
  rw [ntohl, BitVec.toNat_ofNat, h0, h1, h2, h3, Nat.mod_eq_of_lt (by omega)]

theorem ntohs_deserializeUint16 (c : List Uint8) (p : Nat) :
    (ntohs (deserializeUint16 c p)).toNat =
      (charAt c p).toNat * 2 ^ 8 + (charAt c (p + 1)).toNat := by
  have hword : (deserializeUint16 c p).toNat =
      (charAt c p).toNat + (charAt c (p + 1)).toNat * 2 ^ 8 := by
    rw [deserializeUint16, BitVec.toNat_ofNat, Nat.mod_eq_of_lt (by omega)]
  have h0 : (deserializeUint16 c p).toNat % 2 ^ 8 = (charAt c p).toNat := by omega
  have h1 : (deserializeUint16 c p).toNat / 2 ^ 8 = (charAt c (p + 1)).toNat := by omega
  rw [ntohs, BitVec.toNat_ofNat, h0, h1, Nat.mod_eq_of_lt (by omega)]

/-- `malloc` of an `int` size of at most 65535 bytes. -/
def mallocSucceeds (size : Int) : Bool := 0 ≤ size

/-- `memcpy(dest, segment + offset, size)` of a non-negative size. -/
def bytesAt (segment : List Uint8) (offset : Nat) (size : Int) : List Uint8 :=
  (segment.drop offset).take size.toNat

/-- Return unyte_min_t data out of a receive buffer. -/
def minimalParse (segment : RecvBuffer) (source : SockaddrStorage)
    (destAddr : Option SockaddrStorage) : UnyteMin where
  observationDomainId := ntohl (deserializeUint32 segment.val 4)
  messageId := ntohl (deserializeUint32 segment.val 8)
  buffer := segment
  src := source
  dest := destAddr

/-- The variables the option loop of `parse_with_metadata` writes. -/
structure OptionLoopState where
  optionsLength : Nat
  segmentation : Option UnyteSegmentation
  options : List UnyteOption
deriving DecidableEq, Repr

/-- The values before the first iteration. -/
def OptionLoopState.init : OptionLoopState := ⟨0, none, []⟩

/-- The segmentation fields read from the option at `offset`. -/
def readSegmentation (segment : List Uint8) (offset : Nat) : UnyteSegmentation where
  fType := charAt segment offset
  fLen := charAt segment (offset + 1)
  fNum := (ntohs (deserializeUint16 segment (offset + 2)) >>> 1).setWidth 31
  fLast := if charAt segment (offset + 3) &&& 0b00000001 = 1 then 1 else 0

/-- The custom option read at `offset`. -/
def readCustomOption (segment : List Uint8) (offset : Nat) : UnyteOption where
  type := charAt segment offset
  length := charAt segment (offset + 1)
  data := bytesAt segment (offset + 2) ((charAt segment (offset + 1)).toNat - 2)

/-- One iteration of the option loop, `none` where it returns because the
option's data could not be allocated. -/
def optionLoopBody (segment : List Uint8) (s : OptionLoopState) :
    Option OptionLoopState :=
  let offset := headerBytes + s.optionsLength
  let length := charAt segment (offset + 1)
  if charAt segment offset = unyteTypeSegmentation then
    some { s with
      optionsLength := s.optionsLength + length.toNat
      segmentation := some (readSegmentation segment offset) }
  else if mallocSucceeds (length.toNat - 2) then
    some { s with
      optionsLength := s.optionsLength + length.toNat
      options := s.options ++ [readCustomOption segment offset] }
  else none

/-- How the option loop ends within a number of iterations. -/
inductive OptionLoopResult where
  | running
  | mallocFailed
  | done (s : OptionLoopState)
deriving DecidableEq, Repr

/-- `while ((options_length + HEADER_BYTES) < header->header_length)`, for at
most `fuel` tests of the condition. -/
def optionLoop (segment : List Uint8) (headerLength : Uint8) :
    Nat → OptionLoopState → OptionLoopResult
  | 0, _ => .running
  | fuel + 1, s =>
      if s.optionsLength + headerBytes < headerLength.toNat then
        match optionLoopBody segment s with
        | none => .mallocFailed
        | some next => optionLoop segment headerLength fuel next
      else .done s

/-- Fuel that suffices for every option loop that ends. -/
abbrev optionLoopFuel : Nat := 256

/-- The option loop of a packet ends after finitely many iterations. -/
def OptionLoopEnds (segment : List Uint8) : Prop :=
  ∃ fuel, optionLoop segment (charAt segment 1) fuel .init ≠ .running

/-- What a parse function does: it never returns, it reads outside an object
of the program, it returns `NULL`, or it returns a segment. -/
inductive ParseResult where
  | diverges
  | undefined
  | null
  | ok (seg : UnyteSegMet)
deriving DecidableEq, Repr

/-- The number of payload bytes, an `int`. -/
def payloadSizeOf (segment : List Uint8) : Int :=
  (ntohs (deserializeUint16 segment 2)).toNat - (charAt segment 1).toNat

/-- The segment filled in from the header bytes and the values of the loop. -/
def parsedSegment (segment : List Uint8) (um : UnyteMin) (s : OptionLoopState) :
    UnyteSegMet where
  header := {
    -- the sign of `char` does not reach the three bits that are kept
    version := (charAt segment 0 >>> 5).setWidth 3
    -- a one-bit field keeps the lowest bit of the masked byte
    space := (charAt segment 0 &&& spaceMask).setWidth 1
    mediaType := (charAt segment 0 &&& etMask).setWidth 4
    headerLength := charAt segment 1
    messageLength := ntohs (deserializeUint16 segment 2)
    observationDomainId := ntohl (deserializeUint32 segment 4)
    messageId := ntohl (deserializeUint32 segment 8)
    segmentation := s.segmentation
    options := s.options }
  payload := bytesAt segment (charAt segment 1).toNat (payloadSizeOf segment)
  metadata := { src := um.src, dest := um.dest }

/-- Parse udp-notif segment out of `segment`. -/
def parseWithMetadata (segment : List Uint8) (um : UnyteMin) : ParseResult :=
  match optionLoop segment (charAt segment 1) optionLoopFuel .init with
  | .running => .diverges
  | .mallocFailed => .null
  | .done s =>
      if mallocSucceeds (payloadSizeOf segment) then .ok (parsedSegment segment um s)
      else .null

/-- `LEGACY_ET_TO_IANA`: reserved, CBOR, JSON and XML of IANA. -/
def legacyEtToIana : List Nat := [0, 3, 1, 2]

/-- `SUPPORTED_ET_LEN` -/
def supportedEtLen : Nat := legacyEtToIana.length

/-- The media type of a legacy encoding, `none` where the table is read
outside its bounds. -/
def getEncodingIanaEtFromLegacy (legacyEt : Uint8) : Option Nat :=
  if supportedEtLen < legacyEt.toNat then some 0 else legacyEtToIana[legacyEt.toNat]?

/-- The number of payload bytes behind a legacy header. -/
def legacyPayloadSizeOf (segment : List Uint8) : Int :=
  (ntohs (deserializeUint16 segment 2)).toNat - headerBytes

/-- The segment filled in from a legacy header. -/
def parsedLegacySegment (segment : List Uint8) (um : UnyteMin) (mediaType : Nat) :
    UnyteSegMet where
  header := {
    version := (charAt segment 0 >>> 4).setWidth 3
    space := 0
    mediaType := .ofNat 4 mediaType
    headerLength := .ofNat 8 headerBytes
    messageLength := ntohs (deserializeUint16 segment 2)
    observationDomainId := ntohl (deserializeUint32 segment 4)
    messageId := ntohl (deserializeUint32 segment 8)
    segmentation := none
    options := [] }
  payload := bytesAt segment headerBytes (legacyPayloadSizeOf segment)
  metadata := { src := um.src, dest := um.dest }

/-- Parse udp-notif segment with legacy headers. -/
def parseWithMetadataLegacy (segment : List Uint8) (um : UnyteMin) : ParseResult :=
  match getEncodingIanaEtFromLegacy (charAt segment 1 &&& etMask) with
  | none => .undefined
  | some mediaType =>
      if mallocSucceeds (legacyPayloadSizeOf segment) then
        .ok (parsedLegacySegment segment um mediaType)
      else .null

/-- What one iteration can do: skip a segmentation option after reading its
fields, append a custom option, or fail on a custom option too short to have a
type and a length byte. -/
theorem optionLoopBody_cases (segment : List Uint8) (s : OptionLoopState) :
    (charAt segment (headerBytes + s.optionsLength) = unyteTypeSegmentation ∧
      optionLoopBody segment s = some { s with
        optionsLength := s.optionsLength +
          (charAt segment (headerBytes + s.optionsLength + 1)).toNat
        segmentation := some (readSegmentation segment (headerBytes + s.optionsLength)) }) ∨
    (charAt segment (headerBytes + s.optionsLength) ≠ unyteTypeSegmentation ∧
      2 ≤ (charAt segment (headerBytes + s.optionsLength + 1)).toNat ∧
      optionLoopBody segment s = some { s with
        optionsLength := s.optionsLength +
          (charAt segment (headerBytes + s.optionsLength + 1)).toNat
        options := s.options ++ [readCustomOption segment (headerBytes + s.optionsLength)] }) ∨
    (charAt segment (headerBytes + s.optionsLength) ≠ unyteTypeSegmentation ∧
      (charAt segment (headerBytes + s.optionsLength + 1)).toNat < 2 ∧
      optionLoopBody segment s = none) := by
  unfold optionLoopBody
  by_cases htype : charAt segment (headerBytes + s.optionsLength) = unyteTypeSegmentation
  · exact Or.inl ⟨htype, by simp only [htype, if_true]⟩
  · by_cases hlen : 2 ≤ (charAt segment (headerBytes + s.optionsLength + 1)).toNat
    · refine Or.inr (Or.inl ⟨htype, hlen, ?_⟩)
      have hmalloc : mallocSucceeds
          ((charAt segment (headerBytes + s.optionsLength + 1)).toNat - 2) = true := by
        simp only [mallocSucceeds, decide_eq_true_eq]
        omega
      simp only [if_neg htype, hmalloc, if_true]
    · refine Or.inr (Or.inr ⟨htype, by omega, ?_⟩)
      have hmalloc : ¬ mallocSucceeds
          ((charAt segment (headerBytes + s.optionsLength + 1)).toNat - 2) = true := by
        simp only [mallocSucceeds, decide_eq_true_eq]
        omega
      simp only [if_neg htype, if_neg hmalloc]

/-- An iteration advances by the length byte it reads. -/
theorem optionLoopBody_optionsLength {segment : List Uint8} {s next : OptionLoopState}
    (h : optionLoopBody segment s = some next) :
    next.optionsLength =
      s.optionsLength + (charAt segment (headerBytes + s.optionsLength + 1)).toNat := by
  rcases optionLoopBody_cases segment s with ⟨_, hb⟩ | ⟨_, _, hb⟩ | ⟨_, _, hb⟩
  · rw [← Option.some.inj (hb.symm.trans h)]
  · rw [← Option.some.inj (hb.symm.trans h)]
  · rw [hb] at h
    cases h

/-- A segmentation option of length zero is met again in every later
iteration. -/
theorem optionLoop_stuck (segment : List Uint8) (headerLength : Uint8)
    (s : OptionLoopState)
    (hcond : s.optionsLength + headerBytes < headerLength.toNat)
    (htype : charAt segment (headerBytes + s.optionsLength) = unyteTypeSegmentation)
    (hzero : (charAt segment (headerBytes + s.optionsLength + 1)).toNat = 0) (fuel : Nat) :
    optionLoop segment headerLength fuel s = .running := by
  induction fuel generalizing s with
  | zero => rfl
  | succ fuel ih =>
      rcases optionLoopBody_cases segment s with ⟨_, hb⟩ | ⟨hne, _⟩ | ⟨hne, _⟩
      · simp only [optionLoop, if_pos hcond, hb, hzero, Nat.add_zero]
        exact ih _ hcond htype hzero
      · exact absurd htype hne
      · exact absurd htype hne

/-- A loop still running after more iterations than header bytes were left
never ends. -/
theorem optionLoop_running_forever (segment : List Uint8) (headerLength : Uint8)
    (fuel : Nat) (s : OptionLoopState)
    (hfuel : headerLength.toNat ≤ s.optionsLength + headerBytes + fuel)
    (hrun : optionLoop segment headerLength (fuel + 1) s = .running) (n : Nat) :
    optionLoop segment headerLength n s = .running := by
  induction fuel generalizing s n with
  | zero =>
      simp only [optionLoop] at hrun
      rw [if_neg (by omega)] at hrun
      cases hrun
  | succ fuel ih =>
      rw [optionLoop] at hrun
      split at hrun
      · rename_i hcond
        cases n with
        | zero => rfl
        | succ n =>
            rcases optionLoopBody_cases segment s with ⟨htype, hb⟩ | ⟨_, hlen, hb⟩ | ⟨_, _, hb⟩
            · by_cases hzero :
                (charAt segment (headerBytes + s.optionsLength + 1)).toNat = 0
              · exact optionLoop_stuck segment headerLength s hcond htype hzero (n + 1)
              · simp only [hb] at hrun
                simp only [optionLoop, if_pos hcond, hb]
                exact ih _ (by simp only; omega) hrun n
            · simp only [hb] at hrun
              simp only [optionLoop, if_pos hcond, hb]
              exact ih _ (by simp only; omega) hrun n
            · simp only [hb] at hrun
              cases hrun
      · cases hrun

/-- The fuel of `parseWithMetadata` is spent only where the loop never ends. -/
theorem optionLoopEnds_iff (segment : List Uint8) :
    OptionLoopEnds segment ↔
      optionLoop segment (charAt segment 1) optionLoopFuel .init ≠ .running := by
  constructor
  · rintro ⟨n, hn⟩ hrun
    exact hn (optionLoop_running_forever segment _ 255 .init
      (by have := (charAt segment 1).isLt; omega) hrun n)
  · exact fun h => ⟨optionLoopFuel, h⟩

theorem optionLoopEnds_of_done {segment : List Uint8} {t : OptionLoopState}
    (h : optionLoop segment (charAt segment 1) optionLoopFuel .init = .done t) :
    OptionLoopEnds segment := by
  rw [optionLoopEnds_iff, h]
  exact OptionLoopResult.noConfusion

/-- What every iteration keeps holds when the loop is done. -/
theorem optionLoop_done {segment : List Uint8} {headerLength : Uint8}
    {I : OptionLoopState → Prop}
    (hbody : ∀ s next, s.optionsLength + headerBytes < headerLength.toNat → I s →
      optionLoopBody segment s = some next → I next)
    {fuel : Nat} {s t : OptionLoopState} (hinit : I s)
    (h : optionLoop segment headerLength fuel s = .done t) :
    I t ∧ headerLength.toNat ≤ t.optionsLength + headerBytes := by
  induction fuel generalizing s with
  | zero => cases h
  | succ fuel ih =>
      rw [optionLoop] at h
      split at h
      · rename_i hcond
        cases hnext : optionLoopBody segment s with
        | none =>
            rw [hnext] at h
            cases h
        | some next =>
            rw [hnext] at h
            exact ih (hbody s next hcond hinit hnext) h
      · rename_i hcond
        cases h
        exact ⟨hinit, by omega⟩

/-- A parse that returns a segment ran its option loop to the end and found the
header within the message. -/
theorem parseWithMetadata_eq_ok_iff (segment : List Uint8) (um : UnyteMin) (seg : UnyteSegMet) :
    parseWithMetadata segment um = .ok seg ↔
      ∃ s, optionLoop segment (charAt segment 1) optionLoopFuel .init = .done s ∧
        0 ≤ payloadSizeOf segment ∧ seg = parsedSegment segment um s := by
  unfold parseWithMetadata
  cases hloop : optionLoop segment (charAt segment 1) optionLoopFuel .init with
  | running => simp
  | mallocFailed => simp
  | done s =>
      by_cases hsize : 0 ≤ payloadSizeOf segment
      · simp [mallocSucceeds, hsize, eq_comm]
      · simp [mallocSucceeds, hsize]

theorem parseWithMetadataLegacy_eq_ok_iff (segment : List Uint8) (um : UnyteMin)
    (seg : UnyteSegMet) :
    parseWithMetadataLegacy segment um = .ok seg ↔
      ∃ mediaType, getEncodingIanaEtFromLegacy (charAt segment 1 &&& etMask) = some mediaType ∧
        0 ≤ legacyPayloadSizeOf segment ∧ seg = parsedLegacySegment segment um mediaType := by
  unfold parseWithMetadataLegacy
  cases hmedia : getEncodingIanaEtFromLegacy (charAt segment 1 &&& etMask) with
  | none => simp
  | some mediaType =>
      by_cases hsize : 0 ≤ legacyPayloadSizeOf segment
      · simp [mallocSucceeds, hsize, eq_comm]
      · simp [mallocSucceeds, hsize]

/-- Without a segmentation option the custom options fill the header. -/
theorem optionLoop_options_fill {segment : List Uint8} {s : OptionLoopState}
    (h : optionLoop segment (charAt segment 1) optionLoopFuel .init = .done s)
    (hnone : s.segmentation = none) :
    (charAt segment 1).toNat ≤ (optionsTotalBytes s.options).toNat + headerBytes ∧
      (optionsTotalBytes s.options).toNat < 512 := by
  have hkeep := optionLoop_done (I := fun s => s.optionsLength < 512 ∧
    (s.segmentation = none →
      (s.options.map (fun o => o.length.toNat)).sum = s.optionsLength)) ?_
      ⟨by decide, fun _ => rfl⟩ h
  · obtain ⟨⟨hbound, hsum⟩, hfill⟩ := hkeep
    rw [optionsTotalBytes_toNat, hsum hnone]
    omega
  · rintro s next hcond ⟨_, hsum⟩ hbody
    have hlen := optionLoopBody_optionsLength hbody
    refine ⟨by simp only [headerBytes] at hcond hlen; omega, fun hseg => ?_⟩
    rcases optionLoopBody_cases segment s with ⟨_, hb⟩ | ⟨_, _, hb⟩ | ⟨_, _, hb⟩
    · rw [hb, Option.some.injEq] at hbody
      rw [← hbody] at hseg
      cases hseg
    · rw [hb, Option.some.injEq] at hbody
      rw [← hbody] at hseg ⊢
      simp only [List.map_append, List.map_cons, List.map_nil, List.sum_append, List.sum_cons,
        List.sum_nil, hsum hseg]
      rfl
    · rw [hb] at hbody
      cases hbody

end UdpNotif
