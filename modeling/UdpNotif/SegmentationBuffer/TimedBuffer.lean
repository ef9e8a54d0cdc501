import UdpNotif.SegmentationBuffer.CleanupPass

/-!
Runs of a segment buffer in time: inserts of which any allocation may fail, clears,
requests of the clean up thread and clean up passes, in any order, with a clock that
never goes back. For every message the times of its new segments and of the passes
that visited it are recorded beside the buffer; no operation reads them. What a pass
writes into a list is told by the visits alone.
-/

namespace UdpNotif

open Runs

/-- A segment buffer, the latest clock reading, and for every stored message the times
at which new segments were inserted into it and at which passes visited it, the latest
segment and the first visit first. -/
structure TimedBuffer where
  clock : Int
  buf : RawBuffer
  inserted : MessageKey → List Int
  visits : MessageKey → List Int

/-- The operations on a segment buffer. The caller that clears a message counts for it. -/
inductive BufferOp where
  | insert (mallocs : InsertMallocs) (k : MessageKey) (c : InsertCall)
  | clear (k : MessageKey)
  | request
  | cleanup

namespace BufferOp

/-- The buffer after an operation at the clock reading `now`, unless it is undefined. -/
def run (now : Int) (buf : RawBuffer) : BufferOp → Option RawBuffer
  | .insert mallocs k c => (buf.insertWith mallocs k c).map Prod.snd
  | .clear k => (buf.clear k).map fun (_, buf) => { buf with count := buf.count - 1 }
  | .request => some { buf with cleanup := true }
  | .cleanup => buf.cleanupSegBuff now cleanUpPassSize

/-- The time that an operation adds to those of the new segments of a message. -/
def inserts (now : Int) (buf : RawBuffer) (k : MessageKey) : BufferOp → List Int
  | .insert mallocs j c =>
      if k = j ∧ (buf.insertWith mallocs j c).any (fun (code, _) => linksSegment code) then [now]
      else []
  | .clear _ => []
  | .request => []
  | .cleanup => []

/-- The time that an operation adds to those of the visits of a message. -/
def visits (now : Int) (buf : RawBuffer) (k : MessageKey) : BufferOp → List Int
  | .insert _ _ _ => []
  | .clear _ => []
  | .request => []
  | .cleanup => if InWindow buf.cleanupStartIndex k.bucket then [now] else []

end BufferOp

namespace TimedBuffer

/-- An empty buffer. -/
def initial (clock : Int) : TimedBuffer :=
  ⟨clock, createSegmentBuffer.raw, fun _ => [], fun _ => []⟩

/-- An operation at the clock reading `now`. The record of a message ends with the
message. -/
def apply (s : TimedBuffer) (now : Int) (op : BufferOp) : Option TimedBuffer :=
  (op.run now s.buf).map fun buf =>
    { clock := now
      buf
      inserted := fun k =>
        if buf.lookup k = none then [] else op.inserts now s.buf k ++ s.inserted k
      visits := fun k =>
        if buf.lookup k = none then [] else s.visits k ++ op.visits now s.buf k }

/-- Operations happen at clock readings that do not decrease. -/
def next (s : TimedBuffer) (l : Int × BufferOp) : Option TimedBuffer :=
  if s.clock ≤ l.1 then s.apply l.1 l.2 else none

end TimedBuffer

/-- A step of a segment buffer in time. -/
def BufferStep (s : TimedBuffer) (l : Int × BufferOp) (s' : TimedBuffer) : Prop :=
  s.next l = some s'

/-- `s` is reached by operations on an empty buffer at positive clock readings. -/
def TimedBuffer.Reachable (s : TimedBuffer) : Prop :=
  ∃ clock ls, 0 < clock ∧ Run BufferStep (.initial clock) ls s

/-- The stamp that visits at these times leave: the reading of the second, or of a later
one where the clock stood at zero. -/
def stampOf (visits : List Int) : Option Int := (visits.drop 1).find? (· ≠ 0)

/-- A list has the mark and the stamp that visits leave in it. -/
structure MessageSegmentList.MarkedBy (visits : List Int) (head : MessageSegmentList) : Prop where
  toCleanUp : head.toCleanUp = !visits.isEmpty
  timestamp : head.timestamp = (stampOf visits).getD 0

section Visit

variable {visits : List Int} {head : MessageSegmentList} (h : head.MarkedBy visits) (now : Int)

theorem visitHead_eq (now : Int) (head : MessageSegmentList) :
    visitHead now head = if head.expired now then none else some (head.cleanedUp now) := by
  by_cases hmark : head.toCleanUp = false
  · rw [visitHead, if_pos hmark, head.expired_unmarked now hmark, MessageSegmentList.cleanedUp,
      if_pos hmark]
    rfl
  · rw [visitHead, if_neg hmark, head.expired_marked now hmark, head.cleanedUp_marked now hmark]
    simp only [decide_eq_true_eq]

include h

/-- A visit expires a list exactly if it comes late after the one that stamped it. -/
theorem MessageSegmentList.MarkedBy.expired_iff :
    head.expired now = true ↔
      ∃ second, stampOf visits = some second ∧ expireMsg < now - second := by
  rw [MessageSegmentList.expired, h.toCleanUp, h.timestamp, Bool.and_eq_true, decide_eq_true_eq]
  cases hstamp : stampOf visits with
  | none => simp
  | some second =>
      have hne : second ≠ 0 := by simpa using List.find?_some hstamp
      have hvisited : visits ≠ [] := by
        rintro rfl
        cases hstamp
      simp [hne, hvisited]

omit now in
theorem MessageSegmentList.MarkedBy.unstamped (hmark : head.toCleanUp = false) :
    head.timestamp = 0 := by
  have hempty : visits.isEmpty = true := by simpa using h.toCleanUp.symm.trans hmark
  rw [h.timestamp, List.isEmpty_iff.mp hempty]
  rfl

omit now in
/-- A stamp is no later than the visits. -/
theorem MessageSegmentList.MarkedBy.timestamp_le {clock : Int} (hpos : 0 < clock)
    (hpast : ∀ t ∈ visits, t ≤ clock) : head.timestamp ≤ clock := by
  rw [h.timestamp]
  cases hstamp : stampOf visits with
  | none => exact hpos.le
  | some second => exact hpast second (List.mem_of_mem_drop (List.mem_of_find?_eq_some hstamp))

/-- A visit that keeps a list leaves the mark and the stamp of one more visit. -/
theorem MessageSegmentList.MarkedBy.cleanedUp :
    (head.cleanedUp now).MarkedBy (visits ++ [now]) := by
  unfold MessageSegmentList.cleanedUp
  cases visits with
  | nil =>
      have hmark : head.toCleanUp = false := h.toCleanUp
      rw [if_pos hmark]
      exact ⟨rfl, h.timestamp⟩
  | cons first rest =>
      have hstamp : head.timestamp = (rest.find? (· ≠ 0)).getD 0 := h.timestamp
      have hmark : ¬ head.toCleanUp = false := by
        rw [h.toCleanUp]
        simp
      have hnext : stampOf ((first :: rest) ++ [now]) =
          (rest.find? (· ≠ 0)).or ([now].find? (· ≠ 0)) := List.find?_append
      rw [if_neg hmark]
      cases hfound : rest.find? (· ≠ 0) with
      | none =>
          rw [hfound, Option.getD_none] at hstamp
          rw [hfound] at hnext
          rw [if_pos hstamp]
          refine ⟨h.toCleanUp, ?_⟩
          rw [hnext, Option.none_or, List.find?_singleton]
          by_cases hzero : now = 0 <;> simp [hzero]
      | some second =>
          rw [hfound] at hstamp hnext
          have hne : second ≠ 0 := by simpa using List.find?_some hfound
          rw [if_neg (by rw [hstamp]; exact hne)]
          exact ⟨h.toCleanUp, by rw [hnext]; exact hstamp⟩

end Visit

/-- What a visit leaves of an entry: nothing of one that is expired. -/
def RawCell.visit (now : Int) (c : RawCell) : Option RawCell :=
  if c.expired now then none else some (c.cleanedUp now)

theorem RawCell.visit_eq (now : Int) {c : RawCell} {head : MessageSegmentList}
    (hhead : c.head = some head) :
    c.visit now = (visitHead now head).map fun head => c.withHead head := by
  rw [RawCell.visit, visitHead_eq, RawCell.expired, RawCell.cleanedUp, hhead, Option.any_some]
  split <;> rfl

/-- What a pass resets at its end. -/
def RawBuffer.endPass (start : Uint8) (buf : RawBuffer) : RawBuffer :=
  { buf with cleanup := false, cleanupStartIndex := start }

/-- A buffer after a pass that finds a list in every entry. -/
def RawBuffer.passed (now : Int) (buf : RawBuffer) : RawBuffer :=
  (buf.swept now (visitedBuckets buf.cleanupStartIndex cleanUpPassSize)).endPass
    (nextStartIndex buf.cleanupStartIndex)

theorem RawBuffer.endPass_chain (start : Uint8) (buf : RawBuffer) :
    (buf.endPass start).chain = buf.chain := rfl

theorem RawBuffer.endPass_lookup (start : Uint8) (buf : RawBuffer) (k : MessageKey) :
    (buf.endPass start).lookup k = buf.lookup k := rfl

theorem RawBuffer.Sound.endPass {buf : RawBuffer} (h : buf.Sound) (start : Uint8) :
    (buf.endPass start).Sound := ⟨h.wellFormed, h.linked⟩

section Pass

variable {buf after : RawBuffer} {now : Int}

theorem RawBuffer.passed_chain (i : Fin sizeBuf) :
    (buf.passed now).chain i =
      if InWindow buf.cleanupStartIndex i then sweep now (buf.chain i) else buf.chain i := by
  rw [RawBuffer.passed, RawBuffer.endPass_chain, RawBuffer.swept_chain]
  exact if_congr (mem_visitedBuckets_iff_inWindow i) rfl rfl

/-- The window of a pass, where all entries in it have their list. -/
theorem RawBuffer.hasLists_visited
    (hlists : ∀ i, InWindow buf.cleanupStartIndex i → buf.HasLists i) :
    ∀ i ∈ visitedBuckets buf.cleanupStartIndex cleanUpPassSize, buf.HasLists i :=
  fun i hi => hlists i ((mem_visitedBuckets_iff_inWindow i).mp hi)

variable (h : buf.Sound)
include h

/-- A pass has a result exactly if every entry in its window has its list. -/
theorem RawBuffer.Sound.cleanupSegBuff_eq_some_iff :
    buf.cleanupSegBuff now cleanUpPassSize = some after ↔
      (∀ i, InWindow buf.cleanupStartIndex i → buf.HasLists i) ∧ after = buf.passed now := by
  have hloop (swept : RawBuffer) : buf.cleanupLoop now cleanUpPassSize = some swept ↔ _ :=
    h.cleanupLoop_eq_some_iff now (by decide)
  rw [RawBuffer.cleanupSegBuff, Option.map_eq_some_iff, Int.toNat_natCast]
  constructor
  · rintro ⟨swept, hresult, rfl⟩
    obtain ⟨hlists, rfl⟩ := (hloop swept).mp hresult
    exact ⟨fun i hi => hlists i ((mem_visitedBuckets_iff_inWindow i).mpr hi), rfl⟩
  · rintro ⟨hlists, rfl⟩
    exact ⟨_, (hloop _).mpr ⟨RawBuffer.hasLists_visited hlists, rfl⟩, rfl⟩

section Result

variable (hresult : buf.cleanupSegBuff now cleanUpPassSize = some after)
include hresult

theorem RawBuffer.Sound.cleanupSegBuff_sound : after.Sound := by
  obtain ⟨hlists, rfl⟩ := h.cleanupSegBuff_eq_some_iff.mp hresult
  exact (h.swept (RawBuffer.hasLists_visited hlists)).endPass _

theorem RawBuffer.Sound.cleanupSegBuff_startIndex :
    after.cleanupStartIndex = nextStartIndex buf.cleanupStartIndex := by
  obtain ⟨_, rfl⟩ := h.cleanupSegBuff_eq_some_iff.mp hresult
  rfl

/-- A pass gives no entry a list and takes none from one that it keeps. -/
theorem RawBuffer.Sound.cleanupSegBuff_hasLists (i : Fin sizeBuf) :
    after.HasLists i ↔ buf.HasLists i := by
  obtain ⟨hlists, rfl⟩ := h.cleanupSegBuff_eq_some_iff.mp hresult
  rw [RawBuffer.HasLists, RawBuffer.passed_chain]
  by_cases hi : InWindow buf.cleanupStartIndex i
  · refine iff_of_true (fun c hc => ?_) (hlists i hi)
    rw [if_pos hi] at hc
    obtain ⟨d, hd, _, rfl⟩ := (mem_sweep_iff now).mp hc
    simpa [RawCell.cleanedUp] using hlists i hi d hd
  · rw [if_neg hi, RawBuffer.HasLists]

/-- A pass visits every entry in its window and leaves all others alone. -/
theorem RawBuffer.Sound.cleanupSegBuff_lookup (k : MessageKey) :
    after.lookup k =
      if InWindow buf.cleanupStartIndex k.bucket then (buf.lookup k).bind (RawCell.visit now)
      else buf.lookup k := by
  obtain ⟨hlists, rfl⟩ := h.cleanupSegBuff_eq_some_iff.mp hresult
  refine Option.ext fun c' => ?_
  rw [RawBuffer.passed, RawBuffer.endPass_lookup,
    h.swept_lookup now (RawBuffer.hasLists_visited hlists)]
  by_cases hwindow : InWindow buf.cleanupStartIndex k.bucket
  · rw [if_pos ((mem_visitedBuckets_iff_inWindow k.bucket).mpr hwindow), if_pos hwindow,
      Option.bind_eq_some_iff]
    refine exists_congr fun c => and_congr_right fun _ => ?_
    rw [RawCell.visit]
    cases c.expired now <;> simp
  · rw [if_neg (mt (mem_visitedBuckets_iff_inWindow k.bucket).mp hwindow), if_neg hwindow]

end Result

end Pass

theorem BufferOp.run_sound {now : Int} (op : BufferOp) {buf after : RawBuffer} (h : buf.Sound)
    (hrun : op.run now buf = some after) : after.Sound := by
  cases op with
  | insert mallocs j call =>
      obtain ⟨⟨code, buf⟩, hresult, rfl⟩ := Option.map_eq_some_iff.mp hrun
      exact h.insertWith hresult
  | clear j =>
      obtain ⟨⟨code, buf⟩, hresult, rfl⟩ := Option.map_eq_some_iff.mp hrun
      have hsound := h.clear hresult
      exact ⟨hsound.wellFormed, hsound.linked⟩
  | request =>
      obtain rfl := Option.some.inj hrun
      exact ⟨h.wellFormed, h.linked⟩
  | cleanup => exact h.cleanupSegBuff_sound hrun

/-- What holds of a buffer at all times. -/
structure TimedBuffer.Invariant (s : TimedBuffer) : Prop where
  sound : s.buf.Sound
  marks : ∀ k c head, s.buf.lookup k = some c → c.head = some head → head.MarkedBy (s.visits k)
  past : ∀ k, ∀ t ∈ s.visits k, t ≤ s.clock
  absent : ∀ k, s.buf.lookup k = none → s.visits k = []

namespace TimedBuffer

variable {s s' : TimedBuffer} {clock : Int} {ls : List (Int × BufferOp)}

theorem bufferStep_iff {l : Int × BufferOp} : BufferStep s l s' ↔
    s.clock ≤ l.1 ∧ ∃ buf, l.2.run l.1 s.buf = some buf ∧
      { clock := l.1
        buf
        inserted := fun k =>
          if buf.lookup k = none then [] else l.2.inserts l.1 s.buf k ++ s.inserted k
        visits := fun k =>
          if buf.lookup k = none then [] else s.visits k ++ l.2.visits l.1 s.buf k } = s' := by
  rw [BufferStep, next, Option.ite_none_right_eq_some, apply, Option.map_eq_some_iff]

theorem initial_invariant (clock : Int) : (initial clock).Invariant where
  sound := VisitedBuffer.initial_invariant.sound
  marks := by
    intro k c head hfound
    cases hfound
  past := fun k t ht => absurd ht List.not_mem_nil
  absent := fun _ _ => rfl

/-- The marks of a list after an operation on the buffer, if it was stored before. -/
theorem Invariant.markedBy (h : s.Invariant) {now : Int} {op : BufferOp} {after : RawBuffer}
    (hrun : op.run now s.buf = some after) {k : MessageKey} {c : RawCell}
    {head : MessageSegmentList} (hfound : after.lookup k = some c) (hhead : c.head = some head) :
    head.MarkedBy (s.visits k ++ op.visits now s.buf k) := by
  cases op with
  | insert mallocs j call =>
      obtain ⟨⟨code, buf⟩, hresult, rfl⟩ := Option.map_eq_some_iff.mp hrun
      rw [BufferOp.visits, List.append_nil]
      rcases RawBuffer.insertWith_lookup hresult hfound hhead with
        hold | ⟨rfl, cell, old, hcell, hlist, rfl⟩ | ⟨rfl, hnone, rfl⟩
      · exact h.marks k c head hold hhead
      · obtain ⟨hmark, hstamp⟩ := insertIntoMslWith_marks mallocs old call
        have hmarked := h.marks k cell old hcell hlist
        exact ⟨hmark.trans hmarked.toCleanUp, hstamp.trans hmarked.timestamp⟩
      · obtain ⟨hmark, hstamp⟩ :=
          insertIntoMslWith_marks mallocs (createMessageSegmentList k.1 k.2) call
        rw [h.absent k hnone]
        exact ⟨hmark, hstamp⟩
  | clear j =>
      obtain ⟨⟨code, buf⟩, hresult, rfl⟩ := Option.map_eq_some_iff.mp hrun
      rw [BufferOp.visits, List.append_nil]
      exact h.marks k c head (h.sound.lookup_of_clear hresult hfound) hhead
  | request =>
      obtain rfl := Option.some.inj hrun
      rw [BufferOp.visits, List.append_nil]
      exact h.marks k c head hfound hhead
  | cleanup =>
      rw [h.sound.cleanupSegBuff_lookup hrun] at hfound
      rw [BufferOp.visits]
      split at hfound
      · next hwindow =>
          obtain ⟨old, hold, hvisit⟩ := Option.bind_eq_some_iff.mp hfound
          rw [RawCell.visit, Option.ite_none_left_eq_some, Option.some_inj] at hvisit
          obtain ⟨_, rfl⟩ := hvisit
          obtain ⟨list, hlist, rfl⟩ := Option.map_eq_some_iff.mp hhead
          rw [if_pos hwindow]
          exact (h.marks k old list hold hlist).cleanedUp now
      · next hwindow =>
          rw [if_neg hwindow, List.append_nil]
          exact h.marks k c head hfound hhead

theorem Invariant.step {l : Int × BufferOp} (h : s.Invariant) (hstep : BufferStep s l s') :
    s'.Invariant := by
  obtain ⟨now, op⟩ := l
  obtain ⟨hle, buf, hrun, rfl⟩ := bufferStep_iff.mp hstep
  refine ⟨op.run_sound h.sound hrun, fun k c head hfound hhead => ?_, fun k t ht => ?_,
    fun k hnone => if_pos hnone⟩
  · have hstored : ¬ buf.lookup k = none := by
      rw [hfound]
      exact Option.some_ne_none c
    simp only [if_neg hstored]
    exact h.markedBy hrun hfound hhead
  · simp only at ht hle ⊢
    split at ht
    · exact absurd ht List.not_mem_nil
    · rcases List.mem_append.mp ht with hold | hnew
      · exact (h.past k t hold).trans hle
      · cases op with
        | insert mallocs j call => exact absurd hnew List.not_mem_nil
        | clear j => exact absurd hnew List.not_mem_nil
        | request => exact absurd hnew List.not_mem_nil
        | cleanup =>
            rw [BufferOp.visits] at hnew
            split at hnew
            · exact (List.mem_singleton.mp hnew).le
            · exact absurd hnew List.not_mem_nil

theorem invariant_of_run (hrun : Run BufferStep (initial clock) ls s) : s.Invariant :=
  hrun.invariant (I := fun _ s => s.Invariant) (initial_invariant clock)
    (fun _ _ _ _ _ hinv hstep => hinv.step hstep)

/-- The clock does not go back. -/
theorem clock_le_of_run (hrun : Run BufferStep (initial clock) ls s) : clock ≤ s.clock := by
  refine hrun.invariant (I := fun _ s => clock ≤ s.clock) (Int.le_refl clock) ?_
  intro _ t l u _ hle hstep
  obtain ⟨hnow, buf, _, rfl⟩ := bufferStep_iff.mp hstep
  exact hle.trans hnow

end TimedBuffer

end UdpNotif
