import UdpNotif.Lib.Weights
import UdpNotif.SegmentationBuffer.Cleanup

/-!
The counter of a segment buffer and its entries. An insert under a new key adds
an entry and counts it; the callers of `clear_segment_list` count an entry less,
and do so exactly where one was removed.
-/

namespace UdpNotif

/-- The number of messages over all buckets. -/
def SegmentBuffer.entries (buf : SegmentBuffer) : Nat := Weights.total List.length buf.chain

/-- The counter is the number of entries, in 32 bits. -/
def SegmentBuffer.Counted (buf : SegmentBuffer) : Prop := buf.count = .ofNat 32 buf.entries

/-- An entry was removed and counted, and the counter was not zero unless there
were 2^32 entries. -/
structure Removes (buf buf' : SegmentBuffer) : Prop where
  entries : buf'.entries + 1 = buf.entries
  count : buf'.count = buf.count - 1
  noUnderflow : buf.entries < 2 ^ 32 → 0 < buf.count.toNat

/-- No entry was removed and none was counted. -/
structure Keeps (buf buf' : SegmentBuffer) : Prop where
  entries : buf'.entries = buf.entries
  count : buf'.count = buf.count

theorem createSegmentBuffer_counted : createSegmentBuffer.Counted := by
  have hentries : createSegmentBuffer.entries = 0 := Weights.total_eq_zero (fun _ => rfl)
  rw [SegmentBuffer.Counted, hentries]
  rfl

theorem SegmentBuffer.entries_setChain (buf : SegmentBuffer) (i : Fin sizeBuf)
    (chain : List CollisionListCell) :
    (buf.setChain i chain).entries + (buf.chain i).length = buf.entries + chain.length := by
  unfold SegmentBuffer.entries
  rw [SegmentBuffer.chain_setChain]
  exact Weights.total_update _ _ _ _

theorem Removes.counted {buf buf' : SegmentBuffer} (h : Removes buf buf') (hbuf : buf.Counted) :
    buf'.Counted := by
  have hcount := h.count
  have hentries := h.entries
  unfold SegmentBuffer.Counted at hbuf ⊢
  rw [hcount, hbuf, ← hentries, BitVec.ofNat_add]
  exact BitVec.add_sub_cancel _ _

theorem Keeps.counted {buf buf' : SegmentBuffer} (h : Keeps buf buf') (hbuf : buf.Counted) :
    buf'.Counted := by
  unfold SegmentBuffer.Counted at hbuf ⊢
  rw [h.count, h.entries, hbuf]

/-- A counter of few entries is exact. -/
theorem SegmentBuffer.Counted.toNat {buf : SegmentBuffer} (h : buf.Counted)
    (hfew : buf.entries < 2 ^ 32) : buf.count.toNat = buf.entries := by
  rw [h, BitVec.toNat_ofNat, Nat.mod_eq_of_lt hfew]

/-- One entry less, counted by the caller. -/
theorem SegmentBuffer.Counted.removes {buf buf' : SegmentBuffer} (h : buf.Counted)
    (hentries : buf'.entries + 1 = buf.entries) (hcount : buf'.count = buf.count - 1) :
    Removes buf buf' := by
  refine ⟨hentries, hcount, fun hfew => ?_⟩
  rw [h.toNat hfew]
  omega

/-- Storing a list adds an entry for a new message only. -/
theorem SegmentBuffer.store_entries (buf : SegmentBuffer) (k : MessageKey)
    (head : MessageSegmentList) :
    (buf.store k head).entries = buf.entries + if buf.lookup k = none then 1 else 0 := by
  have hset := buf.entries_setChain k.bucket (storeHead k.1 k.2 head (buf.chain k.bucket))
  have hlength : (storeHead k.1 k.2 head (buf.chain k.bucket)).length =
      (buf.chain k.bucket).length + if buf.lookup k = none then 1 else 0 := by
    rw [length_storeHead]
    simp [SegmentBuffer.lookup, ChainedTable.lookup]
  rw [hlength] at hset
  unfold SegmentBuffer.store
  omega

section Insert

variable (buf : SegmentBuffer) (odid mid seqnum : Uint32) (last : Int)
  (payloadSize : Uint32) (content : List Uint8) (options : Option (List UnyteOption))

theorem insertSegment_entries :
    (insertSegment buf odid mid seqnum last payloadSize content options).2.entries =
      buf.entries + if buf.lookup (odid, mid) = none then 1 else 0 := by
  have hentries (count : Uint32) : ({ buf with count } : SegmentBuffer).entries = buf.entries := rfl
  have hlookup (count : Uint32) (k : MessageKey) :
      ({ buf with count } : SegmentBuffer).lookup k = buf.lookup k := rfl
  rw [insertSegment_buffer, SegmentBuffer.store_entries, hentries, hlookup]

theorem insertSegment_count :
    (insertSegment buf odid mid seqnum last payloadSize content options).2.count =
      if buf.lookup (odid, mid) = none then buf.count + 1 else buf.count := by
  rw [insertSegment_buffer]
  rfl

theorem insertSegment_counted (h : buf.Counted) :
    (insertSegment buf odid mid seqnum last payloadSize content options).2.Counted := by
  unfold SegmentBuffer.Counted at h ⊢
  rw [insertSegment_count, insertSegment_entries, BitVec.ofNat_add, ← h]
  by_cases hnew : buf.lookup (odid, mid) = none
  · rw [if_pos hnew, if_pos hnew]
    rfl
  · rw [if_neg hnew, if_neg hnew]
    exact (BitVec.add_zero _).symm

end Insert

/-- Clearing a stored message removes one entry and leaves the counter to the
caller. -/
theorem clearSegmentList_entries (buf : SegmentBuffer) (odid mid : Uint32)
    (hstored : buf.lookup (odid, mid) ≠ none) :
    (clearSegmentList buf odid mid).1 = 0 ∧
      (clearSegmentList buf odid mid).2.entries + 1 = buf.entries ∧
      (clearSegmentList buf odid mid).2.count = buf.count := by
  have hfound : ChainedTable.find CollisionListCell.key (odid, mid)
      (buf.chain (hashKey odid mid)) ≠ none := by
    simpa [SegmentBuffer.lookup, ChainedTable.lookup, MessageKey.bucket] using hstored
  have hset := SegmentBuffer.entries_setChain buf (hashKey odid mid)
    (ChainedTable.remove CollisionListCell.key (odid, mid) (buf.chain (hashKey odid mid)))
  have hlength := ChainedTable.length_remove hfound
  simp only [clearSegmentList, if_neg hfound, SegmentBuffer.setChain_count, true_and, and_true]
  omega

/-- A visit counts an entry less where it drops the list. -/
theorem cleanupCell_count (now : Int) (i : Fin sizeBuf) (buf : SegmentBuffer)
    (c : CollisionListCell) :
    (cleanupCell now i c buf).count =
      if visitHead now c.head = none then buf.count - 1 else buf.count := by
  unfold cleanupCell visitHead
  by_cases hmark : c.head.toCleanUp = false
  · simp only [if_pos hmark]
    rfl
  · simp only [if_neg hmark, ← MessageSegmentList.stamp.eq_1]
    by_cases hexpired : expireMsg < now - c.head.stamp now
    · simp only [if_pos hexpired, if_true, clearSegmentList]
      split <;> rfl
    · simp only [if_neg hexpired]
      rfl

section Visit

variable (now : Int) {i : Fin sizeBuf} {buf : SegmentBuffer} {p s : List CollisionListCell}
  {c : CollisionListCell} (hchain : buf.chain i = p ++ c :: s)
  (hfree : c.key ∉ p.map CollisionListCell.key) (hplaced : c.key.bucket = i)
include hchain hfree hplaced

/-- The entry of a list that a visit drops is removed. -/
theorem cleanupCell_length : (cleanupCell now i c buf).entries + (p ++ c :: s).length =
    buf.entries + (p ++ (visitCell now c).toList ++ s).length := by
  have hset := Weights.total_update List.length buf.chain i (p ++ (visitCell now c).toList ++ s)
  rwa [← cleanupCell_chain hchain hfree hplaced, hchain] at hset

/-- A visit of a clean up pass removes the entry of a list it drops, and counts
it. -/
theorem cleanupCell_entries (hbuf : buf.Counted) :
    if visitHead now c.head = none then Removes buf (cleanupCell now i c buf)
    else Keeps buf (cleanupCell now i c buf) := by
  have hlength := cleanupCell_length now hchain hfree hplaced
  have hcount := cleanupCell_count now i buf c
  rw [visitCell] at hlength
  simp only [List.length_append, List.length_cons] at hlength
  cases hvisit : visitHead now c.head with
  | none =>
      rw [hvisit] at hlength
      rw [if_pos hvisit] at hcount
      rw [if_pos rfl]
      apply hbuf.removes ?_ hcount
      simp only [Option.map_none, Option.toList_none, List.length_nil] at hlength
      omega
  | some head =>
      rw [hvisit] at hlength
      rw [if_neg (hvisit ▸ Option.some_ne_none head)] at hcount
      rw [if_neg (Option.some_ne_none head)]
      refine ⟨?_, hcount⟩
      simp only [Option.map_some, Option.toList_some, List.length_singleton] at hlength
      omega

end Visit

theorem cleanupCell_counted (now : Int) {i : Fin sizeBuf} (buf : SegmentBuffer)
    (p : List CollisionListCell) (c : CollisionListCell) (s : List CollisionListCell)
    (hchain : buf.chain i = p ++ c :: s) (hfree : c.key ∉ p.map CollisionListCell.key)
    (hplaced : c.key.bucket = i) (hbuf : buf.Counted) : (cleanupCell now i c buf).Counted := by
  have hone := cleanupCell_entries now hchain hfree hplaced hbuf
  split at hone
  · exact hone.counted hbuf
  · exact hone.counted hbuf

theorem cleanupLoop_counted {buf : SegmentBuffer} (h : buf.WellFormed) (hbuf : buf.Counted)
    (now : Int) (n : Nat) : (cleanupLoop now n buf).Counted := by
  induction n with
  | zero => exact hbuf
  | succ n ih =>
      rw [cleanupLoop_succ]
      exact (cleanupBucket_walk (cleanupLoop_wellFormed h now n).1 now _
        (cleanupCell_counted now) ih).2

theorem cleanupSegBuff_counted {buf : SegmentBuffer} (h : buf.WellFormed) (hbuf : buf.Counted)
    (now : Int) (size : Int) : (cleanupSegBuff now buf size).Counted :=
  cleanupLoop_counted h hbuf now size.toNat

/-- A pass that started with `start` stands at the cell `next` of the bucket `i`
with the buffer `buf`. -/
def PassVisits (now : Int) (start : SegmentBuffer) (i : Fin sizeBuf) (next : CollisionListCell)
    (buf : SegmentBuffer) : Prop :=
  ∃ n < cleanUpPassSize, i = cleanupIndex start.cleanupStartIndex n ∧
    ∃ before behind, (cleanupLoop now n start).chain i = before ++ next :: behind ∧
      buf = cleanupChain now i before (cleanupLoop now n start)

/-- Every visit of a pass counts what it removes. -/
theorem PassVisits.entries {now : Int} {start buf : SegmentBuffer} {i : Fin sizeBuf}
    {next : CollisionListCell} (h : PassVisits now start i next buf) (hwell : start.WellFormed)
    (hstart : start.Counted) :
    if visitHead now next.head = none then Removes buf (cleanupCell now i next buf)
    else Keeps buf (cleanupCell now i next buf) := by
  obtain ⟨n, _, _, before, behind, hchain, rfl⟩ := h
  have hloop := (cleanupLoop_wellFormed hwell now n).1
  have hunique := hloop.unique i
  have hplaced := hloop.placed i
  rw [hchain] at hunique hplaced
  obtain ⟨hwalk, hcounted⟩ := cleanupChain_walk (cleanupCell_counted now) before []
    (next :: behind) (cleanupLoop now n start) hchain hunique
    (fun c hc => hplaced c (List.mem_append_left _ hc)) (cleanupLoop_counted hwell hstart now n)
  have hhere : (cleanupChain now i before (cleanupLoop now n start)).chain i =
      before.filterMap (visitCell now) ++ next :: behind := by
    rw [hwalk, Function.update_self, List.nil_append]
  apply cleanupCell_entries now hhere ?_ ?_ hcounted
  · intro hmem
    exact (visited_nodup now hunique).1
      ((ChainedTable.keys_filterMap_sublist (visitCell_key now) before).subset hmem)
  · exact hplaced next (List.mem_append_right _ List.mem_cons_self)

end UdpNotif
