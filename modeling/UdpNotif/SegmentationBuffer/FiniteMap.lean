import UdpNotif.Lib.Machines
import UdpNotif.SegmentationBuffer.Cleanup
import UdpNotif.SegmentationBuffer.MessageListInvariant

/-!
The segment buffer as a map from keys to messages. For every key that is present
the map knows the calls made on it since its last removal, and the marks that
clean up passes left on it. The chained buckets answer every sequence of
operations as the map does.
-/

namespace UdpNotif

/-- What the map holds for a key: the calls since its last removal and the marks
of clean up passes. -/
structure MessageEntry where
  calls : List InsertCall
  toCleanUp : Bool
  timestamp : Int

/-- The list that the calls of an entry build, with its marks. -/
def MessageEntry.list (k : MessageKey) (e : MessageEntry) : MessageSegmentList :=
  { InsertCall.applyAll (createMessageSegmentList k.1 k.2) e.calls with
    toCleanUp := e.toCleanUp
    timestamp := e.timestamp }

/-- One more call on the list of an entry. -/
def MessageEntry.add (e : MessageEntry) (c : InsertCall) : MessageEntry :=
  { e with calls := e.calls ++ [c] }

/-- One visit of a clean up pass to an entry. -/
def MessageEntry.visit (now : Int) (e : MessageEntry) : Option MessageEntry :=
  if e.toCleanUp = false then some { e with toCleanUp := true }
  else
    let timestamp := if e.timestamp = 0 then now else e.timestamp
    if expireMsg < now - timestamp then none else some { e with timestamp }

/-- An operation of a segment buffer. The index of a clean up pass stays within
an `int`. -/
inductive BufferCall where
  | insertSegment (k : MessageKey) (call : InsertCall)
  | getSegmentList (k : MessageKey)
  | clearSegmentList (k : MessageKey)
  | cleanupSegBuff (now : Int) (cleanupPassSize : Int)

/-- What an operation returns. -/
inductive BufferAnswer where
  | code (res : Int)
  | list (found : Option MessageSegmentList)
  | nothing

/-- An operation on the buckets. -/
def SegmentBuffer.step (buf : SegmentBuffer) : BufferCall → BufferAnswer × SegmentBuffer
  | .insertSegment k c =>
      let inserted := insertSegment buf k.1 k.2 c.seqnum c.last c.payloadSize c.content c.options
      (.code inserted.1, inserted.2)
  | .getSegmentList k => (.list (getSegmentList buf k.1 k.2), buf)
  | .clearSegmentList k =>
      let cleared := clearSegmentList buf k.1 k.2
      (.code cleared.1, cleared.2)
  | .cleanupSegBuff now size => (.nothing, cleanupSegBuff now buf size)

/-- A map of messages, and the bucket at which the next clean up pass starts. -/
structure MessageMap where
  entries : MessageKey → Option MessageEntry
  cleanupStartIndex : Uint8

namespace MessageMap

/-- The map without messages. -/
def empty : MessageMap := ⟨fun _ => none, 0⟩

/-- The entry of a key, one without calls where it is absent. -/
def entryOf (m : MessageMap) (k : MessageKey) : MessageEntry :=
  (m.entries k).getD ⟨[], false, 0⟩

/-- One more call on a key, which is then present. -/
def insert (m : MessageMap) (k : MessageKey) (c : InsertCall) : MessageMap :=
  { m with entries := Function.update m.entries k (some ((m.entryOf k).add c)) }

/-- Remove a key. -/
def remove (m : MessageMap) (k : MessageKey) : MessageMap :=
  { m with entries := Function.update m.entries k none }

/-- The entries after a pass has come to `n` buckets. -/
def sweep (now : Int) (m : MessageMap) : Nat → MessageKey → Option MessageEntry
  | 0 => m.entries
  | n + 1 => fun k =>
      if k.bucket = cleanupIndex m.cleanupStartIndex n then
        (sweep now m n k).bind (MessageEntry.visit now)
      else sweep now m n k

/-- An operation on the map. -/
def step (m : MessageMap) : BufferCall → BufferAnswer × MessageMap
  | .insertSegment k c => (.code (c.apply ((m.entryOf k).list k)).1, m.insert k c)
  | .getSegmentList k => (.list ((m.entries k).map (MessageEntry.list k)), m)
  | .clearSegmentList k => (.code (if m.entries k = none then -1 else 0), m.remove k)
  | .cleanupSegBuff now size => (.nothing,
      ⟨sweep now m size.toNat, nextStartIndex m.cleanupStartIndex⟩)

theorem insert_entries (m : MessageMap) (k j : MessageKey) (c : InsertCall) :
    (m.insert k c).entries j = if j = k then some ((m.entryOf k).add c) else m.entries j := by
  by_cases hj : j = k
  · subst hj
    rw [if_pos rfl]
    exact Function.update_self _ _ _
  · rw [if_neg hj]
    exact Function.update_of_ne hj _ _

theorem remove_entries (m : MessageMap) (k j : MessageKey) :
    (m.remove k).entries j = if j = k then none else m.entries j := by
  by_cases hj : j = k
  · subst hj
    rw [if_pos rfl]
    exact Function.update_self _ _ _
  · rw [if_neg hj]
    exact Function.update_of_ne hj _ _

end MessageMap

/-- The buckets hold every key at most once, in the bucket that it hashes to, and
the list of every key is the one of its entry. -/
structure Represents (buf : SegmentBuffer) (m : MessageMap) : Prop where
  wellFormed : buf.WellFormed
  lookup : ∀ k, buf.lookup k = (m.entries k).map (MessageEntry.list k)
  start : buf.cleanupStartIndex = m.cleanupStartIndex

/-- One more call of an entry is made on its list. -/
theorem MessageEntry.list_concat (k : MessageKey) (e : MessageEntry) (c : InsertCall) :
    (c.apply (e.list k)).2 = (e.add c).list k := by
  have hadd : (e.add c).list k =
      { (c.apply (InsertCall.applyAll (createMessageSegmentList k.1 k.2) e.calls)).2 with
        toCleanUp := e.toCleanUp
        timestamp := e.timestamp } := by
    rw [MessageEntry.list, MessageEntry.add, InsertCall.applyAll_concat]
  rw [hadd, MessageEntry.list, InsertCall.apply_marks]

theorem MessageEntry.visit_list (now : Int) (k : MessageKey) (e : MessageEntry) :
    visitHead now (e.list k) = (e.visit now).map (MessageEntry.list k) := by
  have hmark : (e.list k).toCleanUp = e.toCleanUp := rfl
  have hstamp : (e.list k).stamp now = if e.timestamp = 0 then now else e.timestamp := rfl
  unfold visitHead MessageEntry.visit
  rw [hmark, hstamp]
  by_cases hunmarked : e.toCleanUp = false
  · rw [if_pos hunmarked, if_pos hunmarked]
    rfl
  · rw [if_neg hunmarked, if_neg hunmarked]
    by_cases hexpired : expireMsg < now - if e.timestamp = 0 then now else e.timestamp
    · simp only [if_pos hexpired, Option.map_none]
    · simp only [if_neg hexpired, Option.map_some]
      rfl

theorem clearSegmentList_code (buf : SegmentBuffer) (odid mid : Uint32) :
    (clearSegmentList buf odid mid).1 = if buf.lookup (odid, mid) = none then -1 else 0 := by
  have hfound : ChainedTable.find CollisionListCell.key (odid, mid)
      (buf.chain (hashKey odid mid)) = none ↔ buf.lookup (odid, mid) = none := by
    simp [SegmentBuffer.lookup, ChainedTable.lookup, MessageKey.bucket]
  unfold clearSegmentList
  by_cases habsent : buf.lookup (odid, mid) = none
  · simp only [if_pos (hfound.mpr habsent), if_pos habsent]
  · simp only [if_neg (fun h => habsent (hfound.mp h)), if_neg habsent]

section Simulation

variable {buf : SegmentBuffer} {m : MessageMap} (h : Represents buf m)
include h

/-- The list that a call on a key is made on. -/
theorem Represents.listOf (k : MessageKey) :
    (buf.lookup k).getD (createMessageSegmentList k.1 k.2) = (m.entryOf k).list k := by
  rw [h.lookup, MessageMap.entryOf]
  cases m.entries k <;> rfl

theorem Represents.insert (k : MessageKey) (c : InsertCall) :
    (insertSegment buf k.1 k.2 c.seqnum c.last c.payloadSize c.content c.options).1 =
        (c.apply ((m.entryOf k).list k)).1 ∧
      Represents
        (insertSegment buf k.1 k.2 c.seqnum c.last c.payloadSize c.content c.options).2
        (m.insert k c) := by
  have hcall : insertSegmentCall buf k.1 k.2 c.seqnum c.last c.payloadSize c.content c.options =
      c.apply ((m.entryOf k).list k) := by
    rw [← h.listOf]
    rfl
  refine ⟨(insertSegment_code _ _ _ _ _ _ _ _).trans (congrArg Prod.fst hcall), ?_, ?_, ?_⟩
  · exact insertSegment_wellFormed _ _ _ _ _ _ _ _ h.wellFormed
  · intro j
    rw [insertSegment_lookup, hcall, MessageEntry.list_concat, MessageMap.insert_entries, h.lookup]
    change (if j = k then _ else _) = _
    by_cases hj : j = k
    · subst hj
      rw [if_pos rfl, if_pos rfl]
      rfl
    · rw [if_neg hj, if_neg hj]
  · exact (insertSegment_cleanupStartIndex _ _ _ _ _ _ _ _).trans h.start

theorem Represents.clear (k : MessageKey) :
    (clearSegmentList buf k.1 k.2).1 = (if m.entries k = none then -1 else 0) ∧
      Represents (clearSegmentList buf k.1 k.2).2 (m.remove k) := by
  have habsent : buf.lookup k = none ↔ m.entries k = none := by
    rw [h.lookup, Option.map_eq_none_iff]
  refine ⟨?_, ?_, fun j => ?_, ?_⟩
  · rw [clearSegmentList_code]
    exact if_congr habsent rfl rfl
  · exact clearSegmentList_wellFormed _ _ _ h.wellFormed
  · rw [clearSegmentList_lookup _ _ _ h.wellFormed, MessageMap.remove_entries, h.lookup]
    change (if j = k then _ else _) = _
    split <;> rfl
  · exact (clearSegmentList_cleanupStartIndex _ _ _).trans h.start

/-- A pass that has come to `n` buckets has visited the entries of these. -/
theorem Represents.cleanupLoop_lookup (now : Int) (n : Nat) (k : MessageKey) :
    (cleanupLoop now n buf).lookup k = (m.sweep now n k).map (MessageEntry.list k) := by
  induction n generalizing k with
  | zero => exact h.lookup k
  | succ n ih =>
      obtain ⟨hwell, hstart⟩ := cleanupLoop_wellFormed h.wellFormed now n
      rw [cleanupLoop_succ, cleanupBucket_lookup hwell, hstart, h.start, ih]
      simp only [MessageMap.sweep]
      split
      · cases m.sweep now n k with
        | none => rfl
        | some e => exact e.visit_list now k
      · rfl

theorem Represents.cleanup (now size : Int) :
    Represents (cleanupSegBuff now buf size)
      ⟨m.sweep now size.toNat, nextStartIndex m.cleanupStartIndex⟩ where
  wellFormed := cleanupSegBuff_wellFormed h.wellFormed now size
  lookup := h.cleanupLoop_lookup now size.toNat
  start := by
    rw [← h.start]
    exact congrArg nextStartIndex (cleanupLoop_wellFormed h.wellFormed now size.toNat).2

end Simulation

theorem createSegmentBuffer_represents : Represents createSegmentBuffer MessageMap.empty :=
  ⟨createSegmentBuffer_wellFormed, fun _ => rfl, rfl⟩

/-- Every operation on the buckets is the operation on the map. -/
theorem represents_simulates :
    Machines.Simulates SegmentBuffer.step MessageMap.step Represents where
  answers := by
    intro buf m op h
    cases op with
    | insertSegment k c => exact congrArg BufferAnswer.code (h.insert k c).1
    | getSegmentList k => exact congrArg BufferAnswer.list (h.lookup k)
    | clearSegmentList k => exact congrArg BufferAnswer.code (h.clear k).1
    | cleanupSegBuff now size => rfl
  states := by
    intro buf m op h
    cases op with
    | insertSegment k c => exact (h.insert k c).2
    | getSegmentList k => exact h
    | clearSegmentList k => exact (h.clear k).2
    | cleanupSegBuff now size => exact h.cleanup now size

/-- Every sequence of operations on a new segment buffer is answered as the map
answers it, and the buckets then represent the map. Of the buckets reached this
says that clearing a key removes it, with `-1` exactly if it was absent, and that
operations on one key leave the lists of the others alone. -/
theorem segmentBuffer_refines_map (ops : List BufferCall) :
    let buckets := Machines.run SegmentBuffer.step createSegmentBuffer ops
    let map := Machines.run MessageMap.step MessageMap.empty ops
    buckets.1 = map.1 ∧ Represents buckets.2 map.2 ∧
      ∀ k : MessageKey,
        ((clearSegmentList buckets.2 k.1 k.2).1 = -1 ↔
          getSegmentList buckets.2 k.1 k.2 = none) ∧
        (∀ j : MessageKey, getSegmentList (clearSegmentList buckets.2 k.1 k.2).2 j.1 j.2 =
          if j = k then none else getSegmentList buckets.2 j.1 j.2) ∧
        ∀ c (j : MessageKey), j ≠ k →
          getSegmentList (buckets.2.step (.insertSegment k c)).2 j.1 j.2 =
            getSegmentList buckets.2 j.1 j.2 := by
  intro buckets map
  obtain ⟨hanswers, hrepresents⟩ :=
    represents_simulates.run ops createSegmentBuffer_represents
  refine ⟨hanswers, hrepresents, fun k => ⟨?_, fun j => ?_, fun c j hj => ?_⟩⟩
  · rw [clearSegmentList_code, getSegmentList_eq_lookup]
    split
    · rename_i habsent
      exact iff_of_true rfl habsent
    · rename_i hpresent
      exact iff_of_false (by decide) hpresent
  · exact clearSegmentList_lookup _ _ _ hrepresents.wellFormed j
  · exact (insertSegment_lookup _ _ _ _ _ _ _ _ j).trans (if_neg hj)

end UdpNotif
