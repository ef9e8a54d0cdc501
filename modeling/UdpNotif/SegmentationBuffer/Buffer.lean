import UdpNotif.SegmentationBuffer.MessageList
import UdpNotif.Lib.ChainedTable

/-!
The segment buffer of a parser: `create_segment_buffer`, `hashKey`,
`insert_segment`, `get_segment_list`, `clear_segment_list` and
`cleanup_seg_buff` of `segmentation_buffer.c`. A bucket is `none` for `NULL` and
otherwise the cells behind its empty head cell. The lemmas below say what each
operation does to the message list stored under any key.
-/

namespace UdpNotif

/-- `struct collision_list_cell` -/
structure CollisionListCell where
  odid : Uint32
  mid : Uint32
  head : MessageSegmentList
deriving DecidableEq, Repr

/-- Observation domain id and message id. -/
abbrev MessageKey := Uint32 × Uint32

/-- The key of a cell. -/
def CollisionListCell.key (c : CollisionListCell) : MessageKey := (c.odid, c.mid)

/-- `struct segment_buffer` -/
structure SegmentBuffer where
  count : Uint32
  hashArray : Fin sizeBuf → Option (List CollisionListCell)
  cleanup : Bool
  cleanupStartIndex : Uint8

/-- `create_segment_buffer` -/
def createSegmentBuffer : SegmentBuffer where
  count := 0
  hashArray := fun _ => none
  cleanup := false
  cleanupStartIndex := 0

/-- Hash function used on segmentation buffer hashmap. -/
def hashKey (odid mid : Uint32) : Fin sizeBuf :=
  ⟨(odid ^^^ mid).toNat % sizeBuf, Nat.mod_lt _ (by decide)⟩

/-- The bucket of a key. -/
def MessageKey.bucket (k : MessageKey) : Fin sizeBuf := hashKey k.1 k.2

/-- The cells behind the head cell of a bucket, if it has one. -/
def SegmentBuffer.chain (buf : SegmentBuffer) (i : Fin sizeBuf) : List CollisionListCell :=
  (buf.hashArray i).getD []

/-- Replace the cells behind the head cell of a bucket. -/
def SegmentBuffer.setChain (buf : SegmentBuffer) (i : Fin sizeBuf)
    (chain : List CollisionListCell) : SegmentBuffer :=
  { buf with hashArray := Function.update buf.hashArray i (some chain) }

/-- Write the list of a message into its collision list; a message not found
gets a cell at the end. -/
def storeHead (odid mid : Uint32) (head : MessageSegmentList)
    (chain : List CollisionListCell) : List CollisionListCell :=
  ChainedTable.upsert CollisionListCell.key (odid, mid)
    (fun cell => { cell with head }) { odid, mid, head } chain

/-- Insert a message segment inside a segment buffer. -/
def insertSegment (buf : SegmentBuffer) (odid mid seqnum : Uint32) (last : Int)
    (payloadSize : Uint32) (content : List Uint8)
    (options : Option (List UnyteOption)) : Int × SegmentBuffer :=
  let hk := hashKey odid mid
  let found := ChainedTable.find CollisionListCell.key (odid, mid) (buf.chain hk)
  let head := match found with
    | none => createMessageSegmentList odid mid
    | some cell => cell.head
  let (res, head) := insertIntoMsl head seqnum last payloadSize content options
  let buf := if found = none then { buf with count := buf.count + 1 } else buf
  (res, buf.setChain hk (storeHead odid mid head (buf.chain hk)))

/-- Retrieve the header cell of a segment list for a given message. -/
def getSegmentList (buf : SegmentBuffer) (odid mid : Uint32) : Option MessageSegmentList :=
  (ChainedTable.find CollisionListCell.key (odid, mid) (buf.chain (hashKey odid mid))).map
    CollisionListCell.head

/-- Clear a list of segments. -/
def clearSegmentList (buf : SegmentBuffer) (odid mid : Uint32) : Int × SegmentBuffer :=
  let hk := hashKey odid mid
  if ChainedTable.find CollisionListCell.key (odid, mid) (buf.chain hk) = none then (-1, buf)
  else (0, buf.setChain hk
    (ChainedTable.remove CollisionListCell.key (odid, mid) (buf.chain hk)))

/-- Write the header cell of the message the clean up pass stands at. -/
def SegmentBuffer.writeHead (buf : SegmentBuffer) (i : Fin sizeBuf) (key : MessageKey)
    (f : MessageSegmentList → MessageSegmentList) : SegmentBuffer :=
  buf.setChain i (ChainedTable.adjust CollisionListCell.key key
    (fun cell => { cell with head := f cell.head }) (buf.chain i))

/-- What `cleanup_seg_buff` does at the cell `next` of a bucket. -/
def cleanupCell (now : Int) (i : Fin sizeBuf) (next : CollisionListCell)
    (buf : SegmentBuffer) : SegmentBuffer :=
  if next.head.toCleanUp = false then
    buf.writeHead i next.key (fun head => { head with toCleanUp := true })
  else
    let timestamp := if next.head.timestamp = 0 then now else next.head.timestamp
    let buf := buf.writeHead i next.key (fun head => { head with timestamp })
    if expireMsg < now - timestamp then
      let buf := (clearSegmentList buf next.odid next.mid).2
      { buf with count := buf.count - 1 }
    else buf

/-- The walk of `cleanup_seg_buff` along one collision list, given as the list
from `next` on: visiting a cell changes no cell behind it. -/
def cleanupChain (now : Int) (i : Fin sizeBuf) (chain : List CollisionListCell)
    (buf : SegmentBuffer) : SegmentBuffer :=
  chain.foldl (fun buf next => cleanupCell now i next buf) buf

/-- The bucket visited in iteration `count` of a pass. -/
def cleanupIndex (start : Uint8) (count : Nat) : Fin sizeBuf :=
  ⟨(start.toNat + count) % sizeBuf, Nat.mod_lt _ (by decide)⟩

/-- One clean up pass over `cleanupPassSize` buckets at the clock reading `now`. -/
def cleanupSegBuff (now : Int) (buf : SegmentBuffer) (cleanupPassSize : Int) :
    SegmentBuffer :=
  let buf := (List.range cleanupPassSize.toNat).foldl (fun buf count =>
    let i := cleanupIndex buf.cleanupStartIndex count
    cleanupChain now i (buf.chain i) buf) buf
  { buf with
    cleanup := false
    -- the new start index is stored in eight bits
    cleanupStartIndex :=
      .ofNat 8 ((buf.cleanupStartIndex.toNat + cleanUpPassSize) % sizeBuf) }

/-- `cleanup_in->seg_buff->cleanup = 1` in the clean up thread. -/
def SegmentBuffer.requestCleanup (buf : SegmentBuffer) : SegmentBuffer :=
  { buf with cleanup := true }

section Chains

variable (buf : SegmentBuffer) (i : Fin sizeBuf) (chain : List CollisionListCell)

theorem SegmentBuffer.chain_setChain :
    (buf.setChain i chain).chain = Function.update buf.chain i chain := by
  funext j
  by_cases h : j = i
  · subst h
    simp [SegmentBuffer.chain, SegmentBuffer.setChain]
  · simp [SegmentBuffer.chain, SegmentBuffer.setChain, h]

@[simp] theorem SegmentBuffer.setChain_count : (buf.setChain i chain).count = buf.count := rfl

@[simp] theorem SegmentBuffer.setChain_cleanup :
    (buf.setChain i chain).cleanup = buf.cleanup := rfl

@[simp] theorem SegmentBuffer.setChain_cleanupStartIndex :
    (buf.setChain i chain).cleanupStartIndex = buf.cleanupStartIndex := rfl

end Chains

/-- Every message lies in the bucket of its key and no key is stored twice. -/
abbrev SegmentBuffer.WellFormed (buf : SegmentBuffer) : Prop :=
  ChainedTable.WellFormed CollisionListCell.key MessageKey.bucket buf.chain

/-- The message list stored under a key. -/
def SegmentBuffer.lookup (buf : SegmentBuffer) (k : MessageKey) : Option MessageSegmentList :=
  (ChainedTable.lookup CollisionListCell.key MessageKey.bucket buf.chain k).map
    CollisionListCell.head

theorem createSegmentBuffer_wellFormed : createSegmentBuffer.WellFormed :=
  ChainedTable.wellFormed_empty

theorem getSegmentList_eq_lookup (buf : SegmentBuffer) (odid mid : Uint32) :
    getSegmentList buf odid mid = buf.lookup (odid, mid) := rfl

theorem SegmentBuffer.lookup_setChain (buf : SegmentBuffer) (i : Fin sizeBuf)
    (chain : List CollisionListCell) (k : MessageKey) :
    (buf.setChain i chain).lookup k =
      if k.bucket = i then (ChainedTable.find CollisionListCell.key k chain).map
        CollisionListCell.head
      else buf.lookup k := by
  simp only [SegmentBuffer.lookup, SegmentBuffer.chain_setChain, ChainedTable.lookup_update]
  split <;> rfl

section Store

variable (odid mid : Uint32) (head : MessageSegmentList) (chain : List CollisionListCell)

private theorem write_key (cell : CollisionListCell) :
    CollisionListCell.key { cell with head } = cell.key := rfl

private theorem fresh_key : CollisionListCell.key { odid, mid, head } = (odid, mid) := rfl

theorem find_storeHead_self :
    (ChainedTable.find CollisionListCell.key (odid, mid)
      (storeHead odid mid head chain)).map CollisionListCell.head = some head := by
  rw [storeHead, ChainedTable.find_upsert_self (write_key head) (fresh_key odid mid head)]
  cases ChainedTable.find CollisionListCell.key (odid, mid) chain <;> rfl

theorem find_storeHead_other {k : MessageKey} (hk : k ≠ (odid, mid)) :
    ChainedTable.find CollisionListCell.key k (storeHead odid mid head chain) =
      ChainedTable.find CollisionListCell.key k chain :=
  ChainedTable.find_upsert_other (write_key head) (fresh_key odid mid head) hk chain

theorem mem_keys_storeHead {k : MessageKey}
    (h : k ∈ (storeHead odid mid head chain).map CollisionListCell.key) :
    k ∈ chain.map CollisionListCell.key ∨ k = (odid, mid) := by
  rw [storeHead, ChainedTable.keys_upsert (write_key head) (fresh_key odid mid head)] at h
  split at h
  · exact Or.inl h
  · exact (List.mem_append.mp h).imp id List.mem_singleton.mp

theorem length_storeHead :
    (storeHead odid mid head chain).length = chain.length +
      if ChainedTable.find CollisionListCell.key (odid, mid) chain = none then 1 else 0 :=
  ChainedTable.length_upsert (write_key head) (fresh_key odid mid head) chain

theorem nodup_keys_storeHead {chain : List CollisionListCell}
    (h : (chain.map CollisionListCell.key).Nodup) :
    ((storeHead odid mid head chain).map CollisionListCell.key).Nodup :=
  ChainedTable.nodup_keys_upsert (write_key head) (fresh_key odid mid head) h

end Store

/-- Store the list of a key in its bucket. -/
def SegmentBuffer.store (buf : SegmentBuffer) (k : MessageKey) (head : MessageSegmentList) :
    SegmentBuffer :=
  buf.setChain k.bucket (storeHead k.1 k.2 head (buf.chain k.bucket))

/-- Storing changes the list of its key only. -/
theorem SegmentBuffer.store_lookup (buf : SegmentBuffer) (k j : MessageKey)
    (head : MessageSegmentList) :
    (buf.store k head).lookup j = if j = k then some head else buf.lookup j := by
  rw [SegmentBuffer.store, SegmentBuffer.lookup_setChain]
  by_cases hj : j = k
  · subst hj
    rw [if_pos rfl, if_pos rfl]
    exact find_storeHead_self _ _ _ _
  · rw [if_neg hj, find_storeHead_other _ _ _ _ hj]
    split
    · rename_i hb
      rw [← hb]
      rfl
    · rfl

theorem SegmentBuffer.WellFormed.store {buf : SegmentBuffer} (h : buf.WellFormed)
    (k : MessageKey) (head : MessageSegmentList) : (buf.store k head).WellFormed := by
  unfold SegmentBuffer.WellFormed SegmentBuffer.store
  rw [SegmentBuffer.chain_setChain]
  refine h.update k.bucket (h.placed_of_keys _ (fun j hj => ?_))
    (nodup_keys_storeHead _ _ _ (h.unique _))
  rcases mem_keys_storeHead _ _ _ _ hj with hold | rfl
  · exact Or.inl hold
  · exact Or.inr rfl

section Insert

variable (buf : SegmentBuffer) (odid mid seqnum : Uint32) (last : Int)
  (payloadSize : Uint32) (content : List Uint8) (options : Option (List UnyteOption))

/-- The call `insert_segment` makes of `insert_into_msl`. -/
def insertSegmentCall : Int × MessageSegmentList :=
  insertIntoMsl ((buf.lookup (odid, mid)).getD (createMessageSegmentList odid mid))
    seqnum last payloadSize content options

private theorem insertSegment_head :
    (match ChainedTable.find CollisionListCell.key (odid, mid) (buf.chain (hashKey odid mid)) with
      | none => createMessageSegmentList odid mid
      | some cell => cell.head) =
      (buf.lookup (odid, mid)).getD (createMessageSegmentList odid mid) := by
  unfold SegmentBuffer.lookup ChainedTable.lookup MessageKey.bucket
  cases ChainedTable.find CollisionListCell.key (odid, mid) (buf.chain (hashKey odid mid)) <;> rfl

private theorem insertSegment_found :
    ChainedTable.find CollisionListCell.key (odid, mid) (buf.chain (hashKey odid mid)) = none ↔
      buf.lookup (odid, mid) = none := by
  simp [SegmentBuffer.lookup, ChainedTable.lookup, MessageKey.bucket]

theorem insertSegment_code :
    (insertSegment buf odid mid seqnum last payloadSize content options).1 =
      (insertSegmentCall buf odid mid seqnum last payloadSize content options).1 := by
  simp only [insertSegment, insertSegmentCall, ← insertSegment_head]

theorem insertSegment_buffer :
    (insertSegment buf odid mid seqnum last payloadSize content options).2 =
      { buf with count := if buf.lookup (odid, mid) = none then buf.count + 1 else buf.count
      }.store (odid, mid)
        (insertSegmentCall buf odid mid seqnum last payloadSize content options).2 := by
  simp only [insertSegment, insertSegmentCall, ← insertSegment_head, insertSegment_found]
  by_cases h : buf.lookup (odid, mid) = none
  · simp only [if_pos h]
    rfl
  · simp only [if_neg h]
    rfl

/-- An insert changes the list of its own key only. -/
theorem insertSegment_lookup (k : MessageKey) :
    (insertSegment buf odid mid seqnum last payloadSize content options).2.lookup k =
      if k = (odid, mid) then
        some (insertSegmentCall buf odid mid seqnum last payloadSize content options).2
      else buf.lookup k := by
  rw [insertSegment_buffer, SegmentBuffer.store_lookup]
  rfl

theorem insertSegment_wellFormed (h : buf.WellFormed) :
    (insertSegment buf odid mid seqnum last payloadSize content options).2.WellFormed := by
  rw [insertSegment_buffer]
  apply SegmentBuffer.WellFormed.store
  exact ⟨h.placed, h.unique⟩

@[simp] theorem insertSegment_cleanup :
    (insertSegment buf odid mid seqnum last payloadSize content options).2.cleanup =
      buf.cleanup := by
  rw [insertSegment_buffer]
  rfl

@[simp] theorem insertSegment_cleanupStartIndex :
    (insertSegment buf odid mid seqnum last payloadSize content options).2.cleanupStartIndex =
      buf.cleanupStartIndex := by
  rw [insertSegment_buffer]
  rfl

end Insert

section Clear

variable (buf : SegmentBuffer) (odid mid : Uint32)

/-- Clearing removes the list of its key and no other. -/
theorem clearSegmentList_lookup (h : buf.WellFormed) (k : MessageKey) :
    (clearSegmentList buf odid mid).2.lookup k =
      if k = (odid, mid) then none else buf.lookup k := by
  unfold clearSegmentList
  by_cases hfound : ChainedTable.find CollisionListCell.key (odid, mid)
      (buf.chain (hashKey odid mid)) = none
  · simp only [if_pos hfound]
    split
    · rename_i hk
      rw [hk]
      exact (insertSegment_found buf odid mid).mp hfound
    · rfl
  · simp only [if_neg hfound, SegmentBuffer.lookup_setChain]
    by_cases hk : k = (odid, mid)
    · subst hk
      have hbucket : MessageKey.bucket (odid, mid) = hashKey odid mid := rfl
      rw [if_pos hbucket, if_pos rfl,
        ChainedTable.find_remove_self _ (h.unique _)]
      rfl
    · rw [if_neg hk, ChainedTable.find_remove_other hk]
      split
      · rename_i hb
        rw [← hb]
        rfl
      · rfl

theorem clearSegmentList_wellFormed (h : buf.WellFormed) :
    (clearSegmentList buf odid mid).2.WellFormed := by
  simp only [clearSegmentList]
  split
  · exact h
  · unfold SegmentBuffer.WellFormed
    rw [SegmentBuffer.chain_setChain]
    have hsub : ((ChainedTable.remove CollisionListCell.key (odid, mid)
        (buf.chain (hashKey odid mid))).map CollisionListCell.key).Sublist
        ((buf.chain (hashKey odid mid)).map CollisionListCell.key) :=
      ChainedTable.keys_remove_sublist _ _
    exact h.update _ (h.placed_of_keys _ (fun k hk => Or.inl (hsub.subset hk)))
      (hsub.nodup (h.unique _))

@[simp] theorem clearSegmentList_cleanup :
    (clearSegmentList buf odid mid).2.cleanup = buf.cleanup := by
  simp only [clearSegmentList]
  split <;> rfl

@[simp] theorem clearSegmentList_cleanupStartIndex :
    (clearSegmentList buf odid mid).2.cleanupStartIndex = buf.cleanupStartIndex := by
  simp only [clearSegmentList]
  split <;> rfl

end Clear

end UdpNotif
