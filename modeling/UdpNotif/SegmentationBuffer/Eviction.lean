import UdpNotif.SegmentationBuffer.TimedBuffer

/-!
Which messages a clean up pass evicts. The second visit of a message stamps it, and
nothing changes the stamp after that, in particular not `insert_segment`: a later visit
evicts the message by the time of the second one alone, also while its segments still
arrive.
-/

namespace UdpNotif

open Runs

/-- A clean up pass drops no message that got a new segment within the last
`expireMsg` seconds. -/
def KeepsReceiving (s : TimedBuffer) (l : Int × BufferOp) (s' : TimedBuffer) : Prop :=
  l.2 = .cleanup → ∀ k, s.buf.lookup k ≠ none → s'.buf.lookup k = none →
    ∀ t ∈ s.inserted k, ¬ l.1 - t ≤ expireMsg

/-- No pass comes to a message more than `expireMsg` seconds after its second visit and
within that time of a segment that arrived after that visit. -/
def NoLateVisits (s : TimedBuffer) (l : Int × BufferOp) (_ : TimedBuffer) : Prop :=
  l.2 = .cleanup → ∀ k, InWindow s.buf.cleanupStartIndex k.bucket →
    ∀ second, stampOf (s.visits k) = some second → expireMsg < l.1 - second →
      ∀ t ∈ s.inserted k, second < t → ¬ l.1 - t ≤ expireMsg

/-- A pass drops exactly the messages in its window whose second visit is overdue. -/
theorem cleanup_evicts_iff {s : TimedBuffer} (h : s.Invariant) {now : Int} {after : RawBuffer}
    (hpass : s.buf.cleanupSegBuff now cleanUpPassSize = some after) {k : MessageKey} :
    s.buf.lookup k ≠ none ∧ after.lookup k = none ↔
      InWindow s.buf.cleanupStartIndex k.bucket ∧
        ∃ second, stampOf (s.visits k) = some second ∧ expireMsg < now - second := by
  rw [h.sound.cleanupSegBuff_lookup hpass]
  by_cases hwindow : InWindow s.buf.cleanupStartIndex k.bucket
  · rw [if_pos hwindow, and_iff_right hwindow]
    cases hfound : s.buf.lookup k with
    | none =>
        rw [h.absent k hfound]
        exact iff_of_false (fun hstored => hstored.1 rfl) (by rintro ⟨_, hstamp, _⟩; cases hstamp)
    | some c =>
        have hlists := (h.sound.cleanupSegBuff_eq_some_iff.mp hpass).1 _ hwindow
        have hmem : c ∈ s.buf.chain k.bucket := ChainedTable.mem_of_find hfound
        obtain ⟨head, hhead⟩ := Option.ne_none_iff_exists'.mp (hlists c hmem)
        rw [← (h.marks k c head hfound hhead).expired_iff now, Option.bind_some,
          and_iff_right (Option.some_ne_none c), RawCell.visit, RawCell.expired, hhead,
          Option.any_some, ite_eq_left_iff]
        cases head.expired now <;> simp
  · rw [if_neg hwindow]
    exact iff_of_false (fun hdropped => hdropped.1 hdropped.2) (fun hevicts => hwindow hevicts.1)

/-- One step meets the property exactly if it meets the condition. -/
theorem keepsReceiving_iff {s s' : TimedBuffer} {l : Int × BufferOp} (h : s.Invariant)
    (hstep : BufferStep s l s') : KeepsReceiving s l s' ↔ NoLateVisits s l s' := by
  obtain ⟨_, after, hrun, rfl⟩ := TimedBuffer.bufferStep_iff.mp hstep
  have hevicts (hop : l.2 = .cleanup) (k : MessageKey) :
      s.buf.lookup k ≠ none ∧ after.lookup k = none ↔
        InWindow s.buf.cleanupStartIndex k.bucket ∧
          ∃ second, stampOf (s.visits k) = some second ∧ expireMsg < l.1 - second := by
    rw [hop] at hrun
    exact cleanup_evicts_iff h hrun
  constructor
  · intro hkeep hop k hwindow second hstamp hoverdue t ht _
    obtain ⟨hstored, hdropped⟩ := (hevicts hop k).mpr ⟨hwindow, second, hstamp, hoverdue⟩
    exact hkeep hop k hstored hdropped t ht
  · intro hlate hop k hstored hdropped t ht
    obtain ⟨hwindow, second, hstamp, hoverdue⟩ := (hevicts hop k).mp ⟨hstored, hdropped⟩
    -- a segment that arrived before the second visit is at least as old as that visit
    by_cases hafter : second < t
    · exact hlate hop k hwindow second hstamp hoverdue t ht hafter
    · omega

/-- The runs in which no pass evicts a message that is still receiving segments are the
runs in which no pass comes late to such a message. -/
theorem cleanup_keeps_receiving_iff (clock : Int) (ls : List (Int × BufferOp))
    (s : TimedBuffer) :
    Run (Restrict BufferStep KeepsReceiving) (.initial clock) ls s ↔
      Run (Restrict BufferStep NoLateVisits) (.initial clock) ls s :=
  Run.restrict_iff (fun _ _ _ _ hrun hstep =>
    keepsReceiving_iff (TimedBuffer.invariant_of_run hrun) hstep)

/-- Segment 0 of message (300, 0) at 100, two passes at 100 that mark and stamp
the message, its segment 1 at 104, and a pass at 104 that evicts it. -/
theorem cleanup_evicts_receiving :
    ¬ ∀ clock ls s l s', Run BufferStep (.initial clock) ls s → BufferStep s l s' →
      KeepsReceiving s l s' := by
  intro hclaim
  have hrun : (([(100, .insert .all (300, 0) ⟨0, 0, 1, [0xaa], some []⟩), (100, .cleanup),
      (100, .cleanup), (104, .insert .all (300, 0) ⟨1, 0, 1, [0xbb], some []⟩)].foldlM
        TimedBuffer.next (.initial 100)).bind fun s => (s.next (104, .cleanup)).map fun s' =>
          (s.inserted (300, 0), (s.buf.lookup (300, 0)).isNone,
            (s'.buf.lookup (300, 0)).isNone)) = some ([104, 100], false, true) := by
    decide +kernel
  obtain ⟨s, hbefore, hlast⟩ := Option.bind_eq_some_iff.mp hrun
  obtain ⟨s', hpass, hafter⟩ := Option.map_eq_some_iff.mp hlast
  obtain ⟨htimes, hstored, hdropped⟩ :
      s.inserted (300, 0) = [104, 100] ∧ (s.buf.lookup (300, 0)).isNone = false ∧
        (s'.buf.lookup (300, 0)).isNone = true := by
    simpa only [Prod.mk.injEq] using hafter
  refine hclaim 100 _ s (104, .cleanup) s' (run_iff_foldlM.mpr hbefore) hpass rfl (300, 0) ?_
    (Option.isNone_iff_eq_none.mp hdropped) 104 ?_ (by decide)
  · intro hnone
    rw [hnone] at hstored
    cases hstored
  · rw [htimes]
    exact List.mem_cons_self

end UdpNotif
