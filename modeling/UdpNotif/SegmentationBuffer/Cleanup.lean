import UdpNotif.SegmentationBuffer.Buffer

/-!
What a clean up pass does to a well-formed segment buffer. A pass acts on every
message list by itself: the lists in the buckets of its window are visited once,
all others are left alone. Visits mark a list, then stamp it, then drop it once
the stamp is more than `expireMsg` seconds old.
-/

namespace UdpNotif

/-- The time stamp of a list after a visit at `now` that finds it marked. -/
def MessageSegmentList.stamp (head : MessageSegmentList) (now : Int) : Int :=
  if head.timestamp = 0 then now else head.timestamp

/-- One visit of a clean up pass to a message list, `none` where the list is
dropped. -/
def visitHead (now : Int) (head : MessageSegmentList) : Option MessageSegmentList :=
  if head.toCleanUp = false then some { head with toCleanUp := true }
  else if expireMsg < now - head.stamp now then none
  else some { head with timestamp := head.stamp now }

/-- A visit that keeps a list marks it, or stamps it if it was marked before. -/
theorem visitHead_cases {now : Int} {head head' : MessageSegmentList}
    (hvisit : visitHead now head = some head') :
    head.toCleanUp = false ∧ head' = { head with toCleanUp := true } ∨
      head.toCleanUp = true ∧ ¬ expireMsg < now - head.stamp now ∧
        head' = { head with timestamp := head.stamp now } := by
  unfold visitHead at hvisit
  split at hvisit
  · rename_i hmark
    exact .inl ⟨hmark, (Option.some.inj hvisit).symm⟩
  · rename_i hmark
    split at hvisit
    · cases hvisit
    · rename_i hfresh
      exact .inr ⟨Bool.not_eq_false _ ▸ hmark, hfresh, (Option.some.inj hvisit).symm⟩

/-- A visit to the cell of a message list. -/
def visitCell (now : Int) (cell : CollisionListCell) : Option CollisionListCell :=
  (visitHead now cell.head).map (fun head => { cell with head })

/-- The buckets a pass started at `start` visits. -/
def InWindow (start : Uint8) (i : Fin sizeBuf) : Prop :=
  start.toNat ≤ i.val ∧ i.val < start.toNat + cleanUpPassSize

instance (start : Uint8) (i : Fin sizeBuf) : Decidable (InWindow start i) :=
  inferInstanceAs (Decidable (_ ∧ _))

/-- The start index after a pass. -/
def nextStartIndex (start : Uint8) : Uint8 :=
  .ofNat 8 ((start.toNat + cleanUpPassSize) % sizeBuf)

theorem visitCell_key (now : Int) (c c' : CollisionListCell) (h : visitCell now c = some c') :
    c'.key = c.key := by
  obtain ⟨head, _, rfl⟩ := Option.map_eq_some_iff.mp h
  rfl

theorem visitCell_unmarked {now : Int} {c : CollisionListCell} (h : c.head.toCleanUp = false) :
    visitCell now c = some { c with head := { c.head with toCleanUp := true } } := by
  simp [visitCell, visitHead, h]

theorem visitCell_marked {now : Int} {c : CollisionListCell} (h : ¬ c.head.toCleanUp = false) :
    visitCell now c =
      if expireMsg < now - c.head.stamp now then none
      else some { c with head := { c.head with timestamp := c.head.stamp now } } := by
  simp only [visitCell, visitHead, if_neg h]
  by_cases hexpired : expireMsg < now - c.head.stamp now
  · rw [if_pos hexpired, if_pos hexpired, Option.map_none]
  · rw [if_neg hexpired, if_neg hexpired, Option.map_some]

section Walk

variable {now : Int} {i : Fin sizeBuf}

/-- Writing the list of a cell whose place in its bucket is known. -/
theorem writeHead_chain {buf : SegmentBuffer} {p s : List CollisionListCell}
    {c : CollisionListCell} (hchain : buf.chain i = p ++ c :: s)
    (hfree : c.key ∉ p.map CollisionListCell.key)
    (f : MessageSegmentList → MessageSegmentList) :
    (buf.writeHead i c.key f).chain =
      Function.update buf.chain i (p ++ { c with head := f c.head } :: s) := by
  rw [SegmentBuffer.writeHead, SegmentBuffer.chain_setChain, hchain,
    ChainedTable.adjust_at p s c hfree]

/-- Clearing a message whose place in its bucket is known. -/
theorem clearSegmentList_chain {buf : SegmentBuffer} {p s : List CollisionListCell}
    {c : CollisionListCell} (hchain : buf.chain i = p ++ c :: s)
    (hfree : c.key ∉ p.map CollisionListCell.key) (hplaced : c.key.bucket = i) :
    (clearSegmentList buf c.odid c.mid).2.chain = Function.update buf.chain i (p ++ s) := by
  subst hplaced
  have hfound : ¬ ChainedTable.find CollisionListCell.key (c.odid, c.mid)
      (buf.chain (hashKey c.odid c.mid)) = none := by
    have hbucket : buf.chain (hashKey c.odid c.mid) = p ++ c :: s := hchain
    rw [ChainedTable.find_eq_none_iff, hbucket, not_not]
    exact List.mem_map.mpr ⟨c, List.mem_append_right p List.mem_cons_self, rfl⟩
  have hremove := ChainedTable.remove_at p s c hfree
  rw [← hchain] at hremove
  simp only [clearSegmentList, if_neg hfound, SegmentBuffer.chain_setChain]
  exact congrArg (Function.update buf.chain _) hremove

/-- One iteration of the walk replaces its cell by the visited one, or by none. -/
theorem cleanupCell_chain {buf : SegmentBuffer} {p s : List CollisionListCell}
    {c : CollisionListCell} (hchain : buf.chain i = p ++ c :: s)
    (hfree : c.key ∉ p.map CollisionListCell.key) (hplaced : c.key.bucket = i) :
    (cleanupCell now i c buf).chain =
      Function.update buf.chain i (p ++ (visitCell now c).toList ++ s) := by
  unfold cleanupCell
  by_cases hmark : c.head.toCleanUp = false
  · rw [if_pos hmark, visitCell_unmarked hmark, writeHead_chain hchain hfree,
      Option.toList_some, List.append_assoc]
    rfl
  · rw [if_neg hmark, visitCell_marked hmark]
    have hwrite := writeHead_chain hchain hfree
      (fun head => { head with timestamp := c.head.stamp now })
    by_cases hexpired : expireMsg < now - c.head.stamp now
    · have hclear := @clearSegmentList_chain i
        (buf.writeHead i c.key (fun head => { head with timestamp := c.head.stamp now })) p s
        { c with head := { c.head with timestamp := c.head.stamp now } }
        (by rw [hwrite, Function.update_self]) hfree hplaced
      rw [hwrite, Function.update_idem] at hclear
      rw [if_pos hexpired, Option.toList_none, List.append_nil, ← hclear]
      simp only [← MessageSegmentList.stamp.eq_1, if_pos hexpired]
      rfl
    · rw [if_neg hexpired, Option.toList_some, List.append_assoc]
      exact (congrArg SegmentBuffer.chain (if_neg hexpired)).trans hwrite

@[simp] theorem cleanupCell_cleanupStartIndex (buf : SegmentBuffer) (c : CollisionListCell) :
    (cleanupCell now i c buf).cleanupStartIndex = buf.cleanupStartIndex := by
  simp only [cleanupCell, ← MessageSegmentList.stamp.eq_1]
  split
  · rfl
  · split
    · exact clearSegmentList_cleanupStartIndex _ _ _
    · rfl

/-- A visited cell is at no earlier place, and leaves no key twice. -/
theorem visited_nodup (now : Int) {p s : List CollisionListCell} {c : CollisionListCell}
    (hunique : ((p ++ c :: s).map CollisionListCell.key).Nodup) :
    c.key ∉ p.map CollisionListCell.key ∧
      ((p ++ (visitCell now c).toList ++ s).map CollisionListCell.key).Nodup := by
  constructor
  · rw [List.map_append, List.map_cons] at hunique
    exact fun hmem => (List.nodup_append.mp hunique).2.2 _ hmem _ List.mem_cons_self rfl
  · have hkeys : ((p ++ (visitCell now c).toList ++ s).map CollisionListCell.key).Sublist
        ((p ++ c :: s).map CollisionListCell.key) := by
      simp only [List.append_assoc, List.map_append]
      refine (List.Sublist.refl _).append ?_
      cases hvisit : visitCell now c with
      | none => exact List.sublist_cons_self _ _
      | some c' =>
          rw [Option.toList_some, List.map_singleton, List.singleton_append, List.map_cons,
            visitCell_key now c c' hvisit]
    exact hkeys.nodup hunique

/-- The walk along part of a collision list visits each of its cells once, and
keeps what every visit keeps. -/
theorem cleanupChain_walk {I : SegmentBuffer → Prop}
    (hcell : ∀ buf p c s, buf.chain i = p ++ c :: s → c.key ∉ p.map CollisionListCell.key →
      c.key.bucket = i → I buf → I (cleanupCell now i c buf))
    (rest p s : List CollisionListCell) (buf : SegmentBuffer)
    (hchain : buf.chain i = p ++ (rest ++ s))
    (hunique : ((p ++ (rest ++ s)).map CollisionListCell.key).Nodup)
    (hplaced : ∀ c ∈ rest, c.key.bucket = i) (h : I buf) :
    (cleanupChain now i rest buf).chain =
        Function.update buf.chain i (p ++ (rest.filterMap (visitCell now) ++ s)) ∧
      I (cleanupChain now i rest buf) := by
  induction rest generalizing p buf with
  | nil =>
      rw [List.filterMap_nil, List.nil_append] at *
      rw [← hchain, Function.update_eq_self]
      exact ⟨rfl, h⟩
  | cons c rest ih =>
      rw [List.cons_append] at hchain hunique
      obtain ⟨hfree, hunique'⟩ := visited_nodup now hunique
      have hhere := hplaced c List.mem_cons_self
      have hafter : (cleanupCell now i c buf).chain =
          Function.update buf.chain i (p ++ (visitCell now c).toList ++ (rest ++ s)) :=
        cleanupCell_chain hchain hfree hhere
      obtain ⟨hc, hi⟩ := ih (p ++ (visitCell now c).toList) (cleanupCell now i c buf)
        (by rw [hafter, Function.update_self]) hunique'
        (fun d hd => hplaced d (List.mem_cons_of_mem c hd))
        (hcell buf p c (rest ++ s) hchain hfree hhere h)
      have hwalk : cleanupChain now i (c :: rest) buf =
          cleanupChain now i rest (cleanupCell now i c buf) := rfl
      rw [hwalk, hc, hafter, Function.update_idem, List.append_assoc]
      refine ⟨?_, hi⟩
      cases hvisit : visitCell now c with
      | none => rw [List.filterMap_cons_none hvisit, Option.toList_none, List.nil_append]
      | some c' => rw [List.filterMap_cons_some hvisit, Option.toList_some,
          List.singleton_append, List.cons_append]

end Walk

/-- What `cleanup_seg_buff` does to one bucket. -/
def cleanupBucket (now : Int) (i : Fin sizeBuf) (buf : SegmentBuffer) : SegmentBuffer :=
  cleanupChain now i (buf.chain i) buf

section Bucket

variable {buf : SegmentBuffer} (h : buf.WellFormed) (now : Int) (i : Fin sizeBuf)
include h

/-- A bucket is swept, and what every visit keeps is kept. -/
theorem cleanupBucket_walk {I : SegmentBuffer → Prop}
    (hcell : ∀ buf p c s, buf.chain i = p ++ c :: s → c.key ∉ p.map CollisionListCell.key →
      c.key.bucket = i → I buf → I (cleanupCell now i c buf)) (hbuf : I buf) :
    (cleanupBucket now i buf).chain =
        Function.update buf.chain i ((buf.chain i).filterMap (visitCell now)) ∧
      I (cleanupBucket now i buf) := by
  have hwalk := cleanupChain_walk hcell (buf.chain i) [] [] buf (List.append_nil _).symm
    (by rw [List.nil_append, List.append_nil]; exact h.unique i) (h.placed i) hbuf
  rwa [List.nil_append, List.append_nil] at hwalk

theorem cleanupBucket_chain : (cleanupBucket now i buf).chain =
    Function.update buf.chain i ((buf.chain i).filterMap (visitCell now)) :=
  (cleanupBucket_walk h now i (I := fun _ => True) (fun _ _ _ _ _ _ _ _ => trivial) trivial).1

theorem cleanupBucket_cleanupStartIndex :
    (cleanupBucket now i buf).cleanupStartIndex = buf.cleanupStartIndex :=
  (cleanupBucket_walk h now i (I := fun b => b.cleanupStartIndex = buf.cleanupStartIndex)
    (fun b _ c _ _ _ _ hb => (cleanupCell_cleanupStartIndex b c).trans hb) rfl).2

theorem cleanupBucket_wellFormed : (cleanupBucket now i buf).WellFormed := by
  refine h.of_sublist (fun j => ?_)
  rw [cleanupBucket_chain h now i]
  by_cases hj : j = i
  · subst hj
    rw [Function.update_self]
    exact ChainedTable.keys_filterMap_sublist (visitCell_key now) _
  · rw [Function.update_of_ne hj]

/-- The lists of a bucket are visited, all others are left alone. -/
theorem cleanupBucket_lookup (k : MessageKey) :
    (cleanupBucket now i buf).lookup k =
      if k.bucket = i then (buf.lookup k).bind (visitHead now) else buf.lookup k := by
  unfold SegmentBuffer.lookup ChainedTable.lookup
  rw [cleanupBucket_chain h now i]
  by_cases hk : k.bucket = i
  · subst hk
    rw [if_pos rfl, Function.update_self,
      ChainedTable.find_filterMap (visitCell_key now) k (h.unique _)]
    cases ChainedTable.find CollisionListCell.key k (buf.chain k.bucket) with
    | none => rfl
    | some c => simp [visitCell, Function.comp_def]
  · rw [if_neg hk, Function.update_of_ne hk]

end Bucket

/-- The loop of a pass over `n` buckets. -/
def cleanupLoop (now : Int) (n : Nat) (buf : SegmentBuffer) : SegmentBuffer :=
  (List.range n).foldl (fun buf count =>
    let i := cleanupIndex buf.cleanupStartIndex count
    cleanupChain now i (buf.chain i) buf) buf

theorem cleanupLoop_succ (now : Int) (n : Nat) (buf : SegmentBuffer) :
    cleanupLoop now (n + 1) buf =
      cleanupBucket now (cleanupIndex (cleanupLoop now n buf).cleanupStartIndex n)
        (cleanupLoop now n buf) := by
  rw [cleanupLoop, List.range_succ, List.foldl_append]
  rfl

/-- A loop over any number of buckets keeps a buffer well formed. -/
theorem cleanupLoop_wellFormed {buf : SegmentBuffer} (h : buf.WellFormed) (now : Int) (n : Nat) :
    (cleanupLoop now n buf).WellFormed ∧
      (cleanupLoop now n buf).cleanupStartIndex = buf.cleanupStartIndex := by
  induction n with
  | zero => exact ⟨h, rfl⟩
  | succ n ih =>
      rw [cleanupLoop_succ]
      exact ⟨cleanupBucket_wellFormed ih.1 now _,
        (cleanupBucket_cleanupStartIndex ih.1 now _).trans ih.2⟩

/-- The buckets that the first `n` iterations of a pass started at `start` visit. Behind the
last bucket they go on with the first. -/
def visitedBuckets (start : Uint8) (n : Nat) : List (Fin sizeBuf) :=
  (List.range n).map (cleanupIndex start)

section VisitedBuckets

variable {start : Uint8} {n : Nat}

theorem visitedBuckets_succ (start : Uint8) (n : Nat) :
    visitedBuckets start (n + 1) = visitedBuckets start n ++ [cleanupIndex start n] := by
  rw [visitedBuckets, List.range_succ, List.map_append, List.map_singleton]
  rfl

/-- A pass over no more than all buckets comes to none a second time. -/
theorem not_mem_visitedBuckets (hn : n < sizeBuf) :
    cleanupIndex start n ∉ visitedBuckets start n := by
  intro hmem
  obtain ⟨count, hcount, heq⟩ := List.mem_map.mp hmem
  have hval : (start.toNat + count) % sizeBuf = (start.toNat + n) % sizeBuf := congrArg Fin.val heq
  rw [List.mem_range] at hcount
  simp only [sizeBuf] at hval hn
  omega

/-- The window of the clean up thread does not reach the last bucket. -/
theorem mem_visitedBuckets_iff_inWindow (i : Fin sizeBuf) :
    i ∈ visitedBuckets start cleanUpPassSize ↔ InWindow start i := by
  have hstart := start.isLt
  have hindex (count : Nat) (hcount : count < cleanUpPassSize) :
      (cleanupIndex start count).val = start.toNat + count :=
    Nat.mod_eq_of_lt (by simp only [sizeBuf, cleanUpPassSize] at hcount ⊢; omega)
  simp only [visitedBuckets, List.mem_map, List.mem_range]
  constructor
  · rintro ⟨count, hcount, rfl⟩
    rw [InWindow, hindex count hcount]
    omega
  · rintro ⟨hfrom, hto⟩
    have hcount : i.val - start.toNat < cleanUpPassSize := by omega
    refine ⟨_, hcount, Fin.ext ?_⟩
    rw [hindex _ hcount]
    omega

end VisitedBuckets

/-- The buckets a pass has visited are swept, all others are as before. -/
theorem cleanupLoop_chain {buf : SegmentBuffer} (h : buf.WellFormed) (now : Int) {n : Nat}
    (hn : n ≤ sizeBuf) (j : Fin sizeBuf) :
    (cleanupLoop now n buf).chain j =
      if j ∈ visitedBuckets buf.cleanupStartIndex n then (buf.chain j).filterMap (visitCell now)
      else buf.chain j := by
  induction n generalizing j with
  | zero => rw [visitedBuckets, List.range_zero, List.map_nil, if_neg List.not_mem_nil]; rfl
  | succ n ih =>
      have hchain := fun j => ih (by omega) j
      obtain ⟨hwell, hstart⟩ := cleanupLoop_wellFormed h now n
      rw [cleanupLoop_succ, hstart, cleanupBucket_chain hwell, visitedBuckets_succ]
      simp only [List.mem_append, List.mem_singleton]
      by_cases hj : j = cleanupIndex buf.cleanupStartIndex n
      · rw [hj, Function.update_self, hchain, if_neg (not_mem_visitedBuckets hn),
          if_pos (Or.inr rfl)]
      · rw [Function.update_of_ne hj, hchain]
        exact (if_congr (or_iff_left hj) rfl rfl).symm

section Pass

variable {buf : SegmentBuffer} (h : buf.WellFormed) (now : Int)
include h

omit h in
/-- A pass is its loop, up to the fields it resets at the end. -/
theorem cleanupSegBuff_eq_cleanupLoop (size : Int) :
    (cleanupSegBuff now buf size).chain = (cleanupLoop now size.toNat buf).chain := rfl

/-- A pass sweeps the buckets of its window. -/
theorem cleanupSegBuff_chain (j : Fin sizeBuf) :
    (cleanupSegBuff now buf cleanUpPassSize).chain j =
      if InWindow buf.cleanupStartIndex j then (buf.chain j).filterMap (visitCell now)
      else buf.chain j := by
  rw [cleanupSegBuff_eq_cleanupLoop, Int.toNat_natCast, cleanupLoop_chain h now (by decide) j]
  exact if_congr (mem_visitedBuckets_iff_inWindow j) rfl rfl

/-- A pass of any size keeps a buffer well formed. -/
theorem cleanupSegBuff_wellFormed (size : Int) : (cleanupSegBuff now buf size).WellFormed :=
  (cleanupLoop_wellFormed h now size.toNat).1

/-- A pass visits every list in its window and leaves all others alone. -/
theorem cleanupSegBuff_lookup (k : MessageKey) :
    (cleanupSegBuff now buf cleanUpPassSize).lookup k =
      if InWindow buf.cleanupStartIndex k.bucket then (buf.lookup k).bind (visitHead now)
      else buf.lookup k := by
  unfold SegmentBuffer.lookup ChainedTable.lookup
  rw [cleanupSegBuff_chain h now k.bucket]
  split
  · rw [ChainedTable.find_filterMap (visitCell_key now) k (h.unique _)]
    cases ChainedTable.find CollisionListCell.key k (buf.chain k.bucket) with
    | none => rfl
    | some c => simp [visitCell, Function.comp_def]
  · rfl

end Pass

/-- Every stored list has a property. -/
def SegmentBuffer.All (P : MessageSegmentList → Prop) (buf : SegmentBuffer) : Prop :=
  ∀ k head, buf.lookup k = some head → P head

/-- A property that a visit of a clean up pass keeps. -/
def KeptByVisits (P : MessageSegmentList → Prop) : Prop :=
  ∀ now head head', P head → visitHead now head = some head' → P head'

section All

variable {P : MessageSegmentList → Prop} {buf : SegmentBuffer} (hwell : buf.WellFormed)
  (h : buf.All P)
include hwell h

theorem SegmentBuffer.All.cleanupSegBuff (hkept : KeptByVisits P) (now size : Int) :
    (cleanupSegBuff now buf size).All P := by
  have hloop (n : Nat) : (cleanupLoop now n buf).All P := by
    induction n with
    | zero => exact h
    | succ n ih =>
        intro k head hlookup
        rw [cleanupLoop_succ, cleanupBucket_lookup (cleanupLoop_wellFormed hwell now n).1]
          at hlookup
        split at hlookup
        · obtain ⟨old, hold, hvisit⟩ := Option.bind_eq_some_iff.mp hlookup
          exact hkept now old head (ih k old hold) hvisit
        · exact ih k head hlookup
  exact hloop size.toNat

theorem SegmentBuffer.All.clearSegmentList (odid mid : Uint32) :
    (clearSegmentList buf odid mid).2.All P := by
  intro k head hlookup
  rw [clearSegmentList_lookup buf odid mid hwell] at hlookup
  split at hlookup
  · cases hlookup
  · exact h k head hlookup

end All

/-- Storing a list leaves all others as they are. -/
theorem SegmentBuffer.All.store {P : MessageSegmentList → Prop} {buf : SegmentBuffer}
    (h : buf.All P) (k : MessageKey) {head : MessageSegmentList} (hhead : P head) :
    (buf.store k head).All P := by
  intro j head' hlookup
  rw [SegmentBuffer.store_lookup] at hlookup
  split at hlookup
  · obtain rfl := Option.some.inj hlookup
    exact hhead
  · exact h j head' hlookup

end UdpNotif
