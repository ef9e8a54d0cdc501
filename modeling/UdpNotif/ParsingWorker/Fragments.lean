import UdpNotif.ParsingWorker.ParserInvariant
import UdpNotif.Utils.OptionWalk

/-!
Which branch a parser takes for a fragment. The parser asks whether the header
is longer than its custom options; an option list that overruns the header can
hide the segmentation options from that question.
-/

namespace UdpNotif

/-- The bytes that the segmentation options among the first `n` options declare. -/
def segmentationLengths (segment : List Uint8) : Nat → Nat
  | 0 => 0
  | n + 1 => segmentationLengths segment n +
      if optionType segment n = unyteTypeSegmentation then optionLength segment n else 0

/-- The loop meets exactly `n` options. -/
def OptionCount (segment : List Uint8) (n : Nat) : Prop :=
  (∀ m < n, optionOffset segment m < (charAt segment 1).toNat) ∧
    (charAt segment 1).toNat ≤ optionOffset segment n

/-- The loop meets a segmentation option. -/
def MeetsSegmentation (segment : List Uint8) : Prop :=
  ∃ n, OptionMet segment n ∧ optionType segment n = unyteTypeSegmentation

/-- The options end in the header, or overrun it by fewer bytes than the
segmentation options declare. -/
def OverrunWithin (segment : List Uint8) : Prop :=
  ∀ n, OptionCount segment n →
    optionOffset segment n < (charAt segment 1).toNat + segmentationLengths segment n

/-- The parser inserts what it parsed from a fragment into its buffer. -/
def HandledAsSegment (parsed : UnyteSegMet) : Prop :=
  isSegmented parsed.header = true ∧
    ∃ seg, parsed.header.segmentation = some seg ∧ ∀ malloc now st,
      handleParsed malloc now st parsed = parseSegmented malloc now st parsed seg

/-- What the loop knows of the options it has read. -/
theorem optionLoop_walk {segment : List Uint8} {s : OptionLoopState}
    (h : optionLoop segment (charAt segment 1) optionLoopFuel .init = .done s) :
    ∃ n, OptionCount segment n ∧ optionOffset segment n < 2 ^ 9 ∧
      headerBytes + (s.options.map (fun o => o.length.toNat)).sum +
        segmentationLengths segment n = optionOffset segment n := by
  have hkeep := optionLoop_done (I := fun s => ∃ n,
    (∀ m < n, optionOffset segment m < (charAt segment 1).toNat) ∧
      headerBytes + s.optionsLength = optionOffset segment n ∧ optionOffset segment n < 2 ^ 9 ∧
      headerBytes + (s.options.map (fun o => o.length.toNat)).sum +
        segmentationLengths segment n = optionOffset segment n) ?_
      ⟨0, fun m hm => absurd hm (Nat.not_lt_zero m), rfl, (by decide : 12 < 2 ^ 9), rfl⟩ h
  · obtain ⟨⟨n, hbefore, hoffset, hbound, hsum⟩, hfill⟩ := hkeep
    exact ⟨n, ⟨hbefore, by omega⟩, hbound, hsum⟩
  · rintro s next hcond ⟨n, hbefore, hoffset, hbound, hsum⟩ hbody
    have hnext : optionOffset segment (n + 1) =
        optionOffset segment n + optionLength segment n := rfl
    have hlength : (charAt segment (headerBytes + s.optionsLength + 1)).toNat =
        optionLength segment n := by
      rw [hoffset]
      rfl
    have hbyte : optionLength segment n < 2 ^ 8 := (charAt segment _).isLt
    have hheader := (charAt segment 1).isLt
    have hadvance := optionLoopBody_optionsLength hbody
    refine ⟨n + 1, fun m hm => ?_, by omega, by omega, ?_⟩
    · rcases Nat.eq_or_lt_of_le (Nat.le_of_lt_succ hm) with rfl | hm
      · omega
      · exact hbefore m hm
    · rcases optionLoopBody_cases segment s with ⟨htype, hb⟩ | ⟨htype, _, hb⟩ | ⟨_, _, hb⟩
      · rw [hoffset] at htype
        rw [hb, Option.some.injEq] at hbody
        have hpos : optionType segment n = unyteTypeSegmentation := htype
        rw [← hbody, segmentationLengths, if_pos hpos, hnext, ← Nat.add_assoc, hsum]
      · rw [hoffset] at htype
        rw [hb, Option.some.injEq] at hbody
        have hneg : ¬ optionType segment n = unyteTypeSegmentation := htype
        rw [← hbody, segmentationLengths, if_neg hneg, hnext]
        simp only [List.map_append, List.map_cons, List.map_nil, List.sum_append, List.sum_cons,
          List.sum_nil, readCustomOption, hlength]
        omega
      · rw [hb] at hbody
        cases hbody

theorem OptionCount.unique {segment : List Uint8} {n m : Nat} (hn : OptionCount segment n)
    (hm : OptionCount segment m) : n = m := by
  rcases Nat.lt_trichotomy n m with hlt | heq | hgt
  · have hinside := hm.1 n hlt
    have hend := hn.2
    omega
  · exact heq
  · have hinside := hn.1 m hgt
    have hend := hm.2
    omega

/-- A parsed packet counts as segmented exactly if its options do not overrun the
header by as many bytes as its segmentation options declare. -/
theorem isSegmented_iff_overrunWithin {segment : List Uint8} {um : UnyteMin}
    {parsed : UnyteSegMet} (h : parseWithMetadata segment um = .ok parsed) :
    isSegmented parsed.header = true ↔ OverrunWithin segment := by
  obtain ⟨s, hloop, _, rfl⟩ := (parseWithMetadata_eq_ok_iff _ _ _).mp h
  obtain ⟨n, hcount, hbound, hsum⟩ := optionLoop_walk hloop
  have hheader : (parsedSegment segment um s).header.headerLength = charAt segment 1 := rfl
  have hoptions : (parsedSegment segment um s).header.options = s.options := rfl
  rw [isSegmented_iff, hheader, hoptions, optionsTotalBytes_toNat]
  simp only [headerBytes] at hsum
  rw [Nat.mod_eq_of_lt (a := (s.options.map (fun o => o.length.toNat)).sum) (by omega),
    Nat.mod_eq_of_lt (by omega)]
  constructor
  · intro hlt m hm
    obtain rfl := hcount.unique hm
    omega
  · intro hwithin
    have hlt := hwithin n hcount
    omega

/-- A fragment is handled as a segment exactly if its options do not overrun the
header by as many bytes as its segmentation options declare. -/
theorem fragment_handled_iff {um : UnyteMin} {parsed : UnyteSegMet}
    (h : parseWithMetadata um.buffer.val um = .ok parsed) :
    (MeetsSegmentation um.buffer.val → HandledAsSegment parsed) ↔
      (MeetsSegmentation um.buffer.val → OverrunWithin um.buffer.val) := by
  have hsegmented := isSegmented_iff_overrunWithin h
  constructor
  · exact fun hhandled hmeets => hsegmented.mp (hhandled hmeets).1
  · intro hwithin hmeets
    have hbranch := hsegmented.mpr (hwithin hmeets)
    obtain ⟨seg, hseg⟩ := Option.ne_none_iff_exists'.mp
      ((parseWithMetadata_parsed h).segmented hbranch)
    refine ⟨hbranch, seg, hseg, fun malloc now st => ?_⟩
    simp only [handleParsed, hbranch, if_true, hseg]

/-- A received datagram whose sender does not matter. -/
def receivedMin (datagram : List Uint8) (h : datagram.length ≤ udpSize) : UnyteMin :=
  minimalParse (RecvBuffer.zeroed.receive datagram h) ⟨[]⟩ none

/-- Segment 0 of a message, without payload. -/
theorem fragment_handled_segment_0 :
    ∃ parsed, HandledAsSegment parsed ∧
      parsed.header.segmentation = some ⟨unyteTypeSegmentation, 4, 0, 0⟩ := by
  obtain ⟨um, hum⟩ : ∃ um, um = receivedMin [0x21, 16, 0, 16, 0, 0, 0, 7, 0, 0, 0, 9, 1, 4, 0, 0]
    (by decide) := ⟨_, rfl⟩
  have hparse : parseWithMetadata um.buffer.val um = .ok
      ⟨⟨⟨1, 0, 1, 16, 16, 7, 9, some ⟨unyteTypeSegmentation, 4, 0, 0⟩, []⟩, []⟩, ⟨[]⟩, none⟩ := by
    rw [hum]
    decide
  have hcount : OptionCount um.buffer.val 1 := by
    rw [hum, OptionCount]
    decide
  refine ⟨_, (fragment_handled_iff hparse).mpr (fun _ n hn => ?_) ?_, rfl⟩
  · obtain rfl := hn.unique hcount
    rw [hum]
    decide
  · rw [hum]
    exact ⟨0, ⟨by decide, fun m hm => absurd hm (Nat.not_lt_zero m)⟩, by decide⟩

/-- A segmentation option followed by an option that overruns the header: the
fragment is written as a whole message. -/
theorem fragment_written_as_message :
    ¬ ∀ (um : UnyteMin) parsed, parseWithMetadata um.buffer.val um = .ok parsed →
      MeetsSegmentation um.buffer.val → HandledAsSegment parsed := by
  intro hclaim
  obtain ⟨um, hum⟩ : ∃ um, um = receivedMin [0x21, 20, 0, 20, 0, 0, 0, 7, 0, 0, 0, 9,
    1, 4, 0, 0, 2, 8, 0, 0] (by decide) := ⟨_, rfl⟩
  have hparse : parseWithMetadata um.buffer.val um = .ok
      ⟨⟨⟨1, 0, 1, 20, 20, 7, 9, some ⟨unyteTypeSegmentation, 4, 0, 0⟩,
        [⟨2, 8, [0, 0, 0, 0, 0, 0]⟩]⟩, []⟩, ⟨[]⟩, none⟩ := by
    rw [hum]
    decide
  have hmeets : MeetsSegmentation um.buffer.val := by
    rw [hum]
    exact ⟨0, ⟨by decide, fun m hm => absurd hm (Nat.not_lt_zero m)⟩, by decide⟩
  exact absurd (hclaim um _ hparse hmeets).1 (by decide)

end UdpNotif
