import UdpNotif.Utils.Parse

/-!
The walk of the option loop over a packet: where it stands, when it ends, and
what the options it met declare. The loop moves on by a length byte of the
packet, so it ends unless it meets a segmentation option whose length is zero.
-/

namespace UdpNotif

/-- Where the option loop stands in its n-th iteration. -/
def optionOffset (segment : List Uint8) : Nat → Nat
  | 0 => headerBytes
  | n + 1 => optionOffset segment n + (charAt segment (optionOffset segment n + 1)).toNat

/-- The type byte of the n-th option. -/
def optionType (segment : List Uint8) (n : Nat) : Uint8 :=
  charAt segment (optionOffset segment n)

/-- The length byte of the n-th option. -/
def optionLength (segment : List Uint8) (n : Nat) : Nat :=
  (charAt segment (optionOffset segment n + 1)).toNat

/-- The loop gets past an option, but for a custom one too short for its two
first bytes. -/
def OptionAccepted (segment : List Uint8) (n : Nat) : Prop :=
  optionType segment n = unyteTypeSegmentation ∨ 2 ≤ optionLength segment n

/-- The loop meets an n-th option. -/
def OptionMet (segment : List Uint8) (n : Nat) : Prop :=
  optionOffset segment n < (charAt segment 1).toNat ∧ ∀ m < n, OptionAccepted segment m

/-- Every segmentation option that the loop meets has a length. -/
def SegmentationOptionsAdvance (segment : List Uint8) : Prop :=
  ∀ n, OptionMet segment n → optionType segment n = unyteTypeSegmentation →
    0 < optionLength segment n

theorem optionOffset_le (segment : List Uint8) {n m : Nat} (h : n ≤ m) :
    optionOffset segment n ≤ optionOffset segment m := by
  induction h with
  | refl => exact Nat.le_refl _
  | step _ ih => exact ih.trans (Nat.le_add_right _ _)

/-- From the n-th option on the loop gets to a segmentation option of length zero. -/
def StuckFrom (segment : List Uint8) (headerLength : Uint8) (n : Nat) : Prop :=
  ∃ m, n ≤ m ∧ (∀ k, n ≤ k → k < m → OptionAccepted segment k) ∧
    optionOffset segment m < headerLength.toNat ∧
    optionType segment m = unyteTypeSegmentation ∧ optionLength segment m = 0

section Stuck

variable {segment : List Uint8} {headerLength : Uint8} {n : Nat}

/-- An option behind the header is not met. -/
theorem not_stuckFrom_of_end (hend : headerLength.toNat ≤ optionOffset segment n) :
    ¬ StuckFrom segment headerLength n := by
  rintro ⟨m, hm, _, hlt, _⟩
  have hle := optionOffset_le segment hm
  omega

/-- Behind an option that is too short nothing is met. -/
theorem not_stuckFrom_of_short (htype : optionType segment n ≠ unyteTypeSegmentation)
    (hshort : optionLength segment n < 2) : ¬ StuckFrom segment headerLength n := by
  rintro ⟨m, hm, hbefore, _, hseg, _⟩
  rcases Nat.eq_or_lt_of_le hm with rfl | hm
  · exact htype hseg
  · rcases hbefore n (Nat.le_refl n) hm with hseg | hlong
    · exact htype hseg
    · omega

/-- An option that is accepted and advances the loop is not the one it hangs on. -/
theorem stuckFrom_succ_iff (haccepted : OptionAccepted segment n)
    (hpos : 0 < optionLength segment n) :
    StuckFrom segment headerLength (n + 1) ↔ StuckFrom segment headerLength n := by
  constructor
  · rintro ⟨m, hm, hbefore, hstuck⟩
    refine ⟨m, by omega, fun k hk hkm => ?_, hstuck⟩
    rcases Nat.eq_or_lt_of_le hk with rfl | hk
    · exact haccepted
    · exact hbefore k hk hkm
  · rintro ⟨m, hm, hbefore, hlt, htype, hzero⟩
    have hne : n ≠ m := by
      rintro rfl
      omega
    exact ⟨m, Nat.lt_of_le_of_ne hm hne, fun k hk => hbefore k (by omega), hlt, htype, hzero⟩

end Stuck

/-- A loop with enough fuel is still running exactly if it has met a segmentation
option of length zero. -/
theorem optionLoop_running_iff (segment : List Uint8) (headerLength : Uint8) (fuel : Nat)
    (s : OptionLoopState) (n : Nat)
    (hoffset : headerBytes + s.optionsLength = optionOffset segment n)
    (hfuel : headerLength.toNat ≤ optionOffset segment n + fuel) :
    optionLoop segment headerLength (fuel + 1) s = .running ↔
      StuckFrom segment headerLength n := by
  induction fuel generalizing s n with
  | zero =>
      rw [optionLoop, if_neg (by omega)]
      exact iff_of_false (by simp) (not_stuckFrom_of_end hfuel)
  | succ fuel ih =>
      rw [optionLoop]
      split
      · rename_i hcond
        have hoption : charAt segment (headerBytes + s.optionsLength) = optionType segment n := by
          rw [hoffset]
          rfl
        have hlength : (charAt segment (headerBytes + s.optionsLength + 1)).toNat =
            optionLength segment n := by
          rw [hoffset]
          rfl
        have hmove (next : OptionLoopState) (hbody : optionLoopBody segment s = some next)
            (haccepted : OptionAccepted segment n) (hpos : 0 < optionLength segment n) :
            optionLoop segment headerLength (fuel + 1) next = .running ↔
              StuckFrom segment headerLength n := by
          have hnext : optionOffset segment (n + 1) =
              optionOffset segment n + optionLength segment n := rfl
          have hadvance := optionLoopBody_optionsLength hbody
          rw [ih next (n + 1) (by omega) (by omega)]
          exact stuckFrom_succ_iff haccepted hpos
        rcases optionLoopBody_cases segment s with ⟨htype, hb⟩ | ⟨_, hlen, hb⟩ | ⟨htype, hlen, hb⟩
        · rw [hoption] at htype
          rcases Nat.eq_zero_or_pos (optionLength segment n) with hzero | hpos
          · rw [hb]
            refine iff_of_true ?_ ⟨n, Nat.le_refl n, fun k hk hkn => by omega, by omega, htype,
              hzero⟩
            rw [hlength, hzero, Nat.add_zero]
            apply optionLoop_stuck
            · exact hcond
            · exact hoption.trans htype
            · exact hlength.trans hzero
          · rw [hb]
            exact hmove _ hb (Or.inl htype) hpos
        · rw [hlength] at hlen
          rw [hb]
          exact hmove _ hb (Or.inr hlen) (by omega)
        · rw [hb]
          exact iff_of_false (by simp)
            (not_stuckFrom_of_short (hoption ▸ htype) (hlength ▸ hlen))
      · exact iff_of_false (by simp) (not_stuckFrom_of_end (by omega))

/-- The option loop ends exactly on the packets whose segmentation options, as
far as it meets them, do not have length zero. -/
theorem optionLoopEnds_iff_advance (segment : List Uint8) :
    OptionLoopEnds segment ↔ SegmentationOptionsAdvance segment := by
  have hlt := (charAt segment 1).isLt
  have hstart : optionOffset segment 0 = headerBytes := rfl
  rw [optionLoopEnds_iff, Ne, optionLoop_running_iff segment _ 255 .init 0 rfl (by omega)]
  constructor
  · rintro hnone n ⟨hoffset, hbefore⟩ htype
    by_contra hzero
    exact hnone ⟨n, Nat.zero_le n, fun k _ hk => hbefore k hk, hoffset, htype, by omega⟩
  · rintro hadvance ⟨n, _, hbefore, hoffset, htype, hzero⟩
    have hpos := hadvance n ⟨hoffset, fun k hk => hbefore k (Nat.zero_le k) hk⟩ htype
    omega

/-- A segmentation option of length zero makes the loop run forever. -/
theorem optionLoop_hangs : ¬ ∀ segment : RecvBuffer, OptionLoopEnds segment.val := by
  intro hclaim
  obtain ⟨fuel, hends⟩ := hclaim (RecvBuffer.zeroed.receive
    [0, 16, 0, 16, 0, 0, 0, 0, 0, 0, 0, 0, 1, 0, 0, 0] (by decide))
  exact hends (optionLoop_stuck _ _ _ (by decide) (by decide) (by decide) fuel)

end UdpNotif
