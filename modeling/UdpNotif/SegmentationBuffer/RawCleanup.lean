import Mathlib.Data.BitVec
import UdpNotif.SegmentationBuffer.FailedInsert

/-!
`clear_segment_list` and `cleanup_seg_buff` on a buffer in which entries may lack their
list. A pass goes through the list of every entry that it visits, and has no result where
there is none.
-/

namespace UdpNotif

/-- The list of a key, `none` where there is no entry or its list is `NULL`. -/
def RawBuffer.listOf? (buf : RawBuffer) (k : MessageKey) : Option MessageSegmentList :=
  (buf.lookup k).bind RawCell.head

/-- `clear_segment_list`. It has no result where it frees a list that is `NULL` or goes
past a cell whose `next` is not set. -/
def RawBuffer.clear (buf : RawBuffer) (k : MessageKey) : Option (Int × RawBuffer) :=
  let chain := buf.chain k.bucket
  if buf.hashArray k.bucket = none then some (-1, buf)
  else
    match ChainedTable.find RawCell.key k chain with
    | none => if buf.linked k.bucket then some (-1, buf) else none
    | some cell =>
        cell.head.map fun _ =>
          (0, buf.setChain k.bucket (ChainedTable.remove RawCell.key k chain))

/-- Write the list of the cell that the pass stands at. -/
def RawBuffer.writeHead (buf : RawBuffer) (i : Fin sizeBuf) (key : MessageKey)
    (head : MessageSegmentList) : RawBuffer :=
  buf.setChain i (ChainedTable.adjust RawCell.key key (RawCell.withHead head) (buf.chain i))

/-- What `cleanup_seg_buff` does at the cell `next` of a bucket. -/
def RawBuffer.cleanupCell (now : Int) (i : Fin sizeBuf) (buf : RawBuffer) (next : RawCell) :
    Option RawBuffer :=
  match next.head with
  | none => none
  | some head =>
      if head.toCleanUp = false then
        some (buf.writeHead i next.key { head with toCleanUp := true })
      else
        let timestamp := if head.timestamp = 0 then now else head.timestamp
        let buf := buf.writeHead i next.key { head with timestamp }
        if expireMsg < now - timestamp then
          (buf.clear next.key).map fun (_, buf) => { buf with count := buf.count - 1 }
        else some buf

/-- What `cleanup_seg_buff` does to one bucket. -/
def RawBuffer.cleanupBucket (now : Int) (i : Fin sizeBuf) (buf : RawBuffer) : Option RawBuffer :=
  if buf.hashArray i = none then some buf
  else do
    let buf ← (buf.chain i).foldlM (RawBuffer.cleanupCell now i) buf
    -- the walk ends where `next` is `NULL`
    if buf.linked i then some buf else none

/-- The loop of a pass over `n` buckets. -/
def RawBuffer.cleanupLoop (now : Int) (n : Nat) (buf : RawBuffer) : Option RawBuffer :=
  (List.range n).foldlM (fun buf count =>
    buf.cleanupBucket now (cleanupIndex buf.cleanupStartIndex count)) buf

/-- One clean up pass over `cleanupPassSize` buckets at the clock reading `now`. -/
def RawBuffer.cleanupSegBuff (now : Int) (buf : RawBuffer) (cleanupPassSize : Int) :
    Option RawBuffer :=
  (buf.cleanupLoop now cleanupPassSize.toNat).map fun buf =>
    { buf with
      cleanup := false
      cleanupStartIndex :=
        .ofNat 8 ((buf.cleanupStartIndex.toNat + cleanUpPassSize) % sizeBuf) }

/-- A list is marked, and was stamped more than `expireMsg` seconds ago. -/
def MessageSegmentList.expired (now : Int) (head : MessageSegmentList) : Bool :=
  head.toCleanUp && decide (head.timestamp ≠ 0 ∧ expireMsg < now - head.timestamp)

/-- What a visit leaves of a list that it keeps: an unmarked one is marked, a marked one
without a stamp is stamped. -/
def MessageSegmentList.cleanedUp (now : Int) (head : MessageSegmentList) : MessageSegmentList :=
  if head.toCleanUp = false then { head with toCleanUp := true }
  else if head.timestamp = 0 then { head with timestamp := now }
  else head

/-- An entry has a list that is expired. -/
def RawCell.expired (now : Int) (c : RawCell) : Bool :=
  c.head.any (MessageSegmentList.expired now)

/-- An entry with what a visit leaves of its list. -/
def RawCell.cleanedUp (now : Int) (c : RawCell) : RawCell :=
  { c with head := c.head.map (MessageSegmentList.cleanedUp now) }

/-- What a pass leaves of a collision list: the entries that are not expired, in their
order. -/
def sweep (now : Int) (chain : List RawCell) : List RawCell :=
  (chain.filter (fun c => !c.expired now)).map (RawCell.cleanedUp now)

/-- A buffer in which visits have left `chain` of a bucket, and removed `removed` entries. -/
def RawBuffer.sweepTo (buf : RawBuffer) (i : Fin sizeBuf) (chain : List RawCell)
    (removed : Nat) : RawBuffer :=
  { buf.setChain i chain with count := buf.count - .ofNat 32 removed }

theorem MessageSegmentList.cleanedUp_kept (now : Int) (head : MessageSegmentList) :
    MessageKept head (head.cleanedUp now) := by
  unfold MessageSegmentList.cleanedUp
  split
  · exact ⟨rfl, rfl, rfl, rfl, rfl, rfl, rfl⟩
  · split
    · exact ⟨rfl, rfl, rfl, rfl, rfl, rfl, rfl⟩
    · exact MessageKept.refl head

section Sweep

variable (now : Int)

theorem MessageSegmentList.expired_unmarked {head : MessageSegmentList}
    (hmark : head.toCleanUp = false) : head.expired now = false := by
  rw [MessageSegmentList.expired, hmark, Bool.false_and]

/-- A marked list is expired if its stamp, as the visit sets it, is overdue. -/
theorem MessageSegmentList.expired_marked {head : MessageSegmentList}
    (hmark : ¬ head.toCleanUp = false) :
    head.expired now = decide (expireMsg < now - head.stamp now) := by
  rw [Bool.not_eq_false] at hmark
  rw [MessageSegmentList.expired, hmark, Bool.true_and, MessageSegmentList.stamp]
  by_cases hstamp : head.timestamp = 0
  · have hfresh : ¬ expireMsg < now - now := by
      rw [Int.sub_self]
      decide
    rw [if_pos hstamp, decide_eq_false hfresh, decide_eq_false (fun h => h.1 hstamp)]
  · rw [if_neg hstamp]
    exact decide_eq_decide.mpr (and_iff_right hstamp)

theorem MessageSegmentList.cleanedUp_marked {head : MessageSegmentList}
    (hmark : ¬ head.toCleanUp = false) :
    head.cleanedUp now = { head with timestamp := head.stamp now } := by
  rw [MessageSegmentList.cleanedUp, if_neg hmark, MessageSegmentList.stamp]
  split <;> rfl

theorem sweep_nil : sweep now [] = [] := rfl

theorem sweep_cons (c : RawCell) (rest : List RawCell) :
    sweep now (c :: rest) = sweep now [c] ++ sweep now rest := by
  rw [sweep, ← List.singleton_append, List.filter_append, List.map_append]
  rfl

theorem sweep_singleton (c : RawCell) :
    sweep now [c] = if c.expired now then [] else [c.cleanedUp now] := by
  cases hexpired : c.expired now <;> simp [sweep, hexpired]

/-- A pass adds no key and moves none. -/
theorem sweep_keys_sublist (chain : List RawCell) :
    ((sweep now chain).map RawCell.key).Sublist (chain.map RawCell.key) := by
  rw [sweep, List.map_map]
  exact List.filter_sublist.map RawCell.key

theorem mem_sweep_iff {chain : List RawCell} {c' : RawCell} :
    c' ∈ sweep now chain ↔ ∃ c ∈ chain, c.expired now = false ∧ c.cleanedUp now = c' := by
  simp only [sweep, List.mem_map, List.mem_filter, Bool.not_eq_true', and_assoc]

end Sweep

section Chains

variable (buf : RawBuffer) (i : Fin sizeBuf) (chain : List RawCell)

theorem RawBuffer.chain_setChain :
    (buf.setChain i chain).chain = Function.update buf.chain i chain := by
  funext j
  by_cases hj : j = i
  · subst hj
    simp [RawBuffer.chain, RawBuffer.setChain]
  · simp [RawBuffer.chain, RawBuffer.setChain, hj]

theorem RawBuffer.setChain_setChain (chain' : List RawCell) :
    (buf.setChain i chain).setChain i chain' = buf.setChain i chain' := by
  simp only [RawBuffer.setChain, Function.update_idem]

/-- A bucket with a head cell is set to what it holds. -/
theorem RawBuffer.setChain_self (hbucket : buf.hashArray i ≠ none) :
    buf.setChain i (buf.chain i) = buf := by
  obtain ⟨chain, hchain⟩ := Option.ne_none_iff_exists'.mp hbucket
  have hsame : some (buf.chain i) = buf.hashArray i := by
    rw [RawBuffer.chain, hchain, Option.getD_some]
  rw [RawBuffer.setChain, hsame, Function.update_eq_self]

theorem RawBuffer.sweepTo_sweepTo (chain' : List RawCell) (n m : Nat) :
    (buf.sweepTo i chain n).sweepTo i chain' m = buf.sweepTo i chain' (n + m) := by
  have hcount : buf.count - .ofNat 32 n - .ofNat 32 m = buf.count - .ofNat 32 (n + m) := by
    rw [sub_sub, BitVec.ofNat_add]
  simp only [RawBuffer.sweepTo, RawBuffer.setChain, Function.update_idem, hcount]

theorem RawBuffer.sweepTo_chain (n : Nat) : (buf.sweepTo i chain n).chain i = chain :=
  (congrFun (buf.chain_setChain i chain) i).trans (Function.update_self _ _ _)

theorem RawBuffer.sweepTo_hashArray (n : Nat) : (buf.sweepTo i chain n).hashArray i ≠ none := by
  simp only [RawBuffer.sweepTo, RawBuffer.setChain, Function.update_self, ne_eq, reduceCtorEq,
    not_false_eq_true]

theorem RawBuffer.sweepTo_self (hbucket : buf.hashArray i ≠ none) :
    buf.sweepTo i (buf.chain i) 0 = buf := by
  have hzero : buf.count - .ofNat 32 0 = buf.count := BitVec.sub_zero buf.count
  rw [RawBuffer.sweepTo, buf.setChain_self i hbucket, hzero]

end Chains

section Walk

variable {i : Fin sizeBuf} {buf : RawBuffer} {p s : List RawCell} {c : RawCell}
  {head : MessageSegmentList}

/-- Writing the list of a cell whose place in its bucket is known. -/
theorem RawBuffer.writeHead_eq (hchain : buf.chain i = p ++ c :: s)
    (hfree : c.key ∉ p.map RawCell.key) (head : MessageSegmentList) :
    buf.writeHead i c.key head = buf.setChain i (p ++ { c with head := some head } :: s) := by
  rw [RawBuffer.writeHead, hchain, ChainedTable.adjust_at p s c hfree]
  rfl

/-- Clearing a message whose place in its bucket is known. -/
theorem RawBuffer.clear_setChain (hfree : c.key ∉ p.map RawCell.key) (hhead : c.head = some head) :
    (buf.setChain c.key.bucket (p ++ c :: s)).clear c.key =
      some (0, buf.setChain c.key.bucket (p ++ s)) := by
  have hchain : (buf.setChain c.key.bucket (p ++ c :: s)).chain c.key.bucket = p ++ c :: s := by
    rw [RawBuffer.chain_setChain, Function.update_self]
  have hbucket : ¬ (buf.setChain c.key.bucket (p ++ c :: s)).hashArray c.key.bucket = none := by
    simp only [RawBuffer.setChain, Function.update_self, reduceCtorEq, not_false_eq_true]
  have hfind : ChainedTable.find RawCell.key c.key (p ++ c :: s) = some c := by
    have hnone : ChainedTable.find RawCell.key c.key p = none :=
      (ChainedTable.find_eq_none_iff p c.key).mpr hfree
    unfold ChainedTable.find at hnone ⊢
    rw [List.find?_append, hnone, Option.none_or, List.find?_cons_of_pos (by simp)]
  simp only [RawBuffer.clear, if_neg hbucket, hchain, hfind, hhead, Option.map_some,
    ChainedTable.remove_at p s c hfree, RawBuffer.setChain_setChain]

/-- One iteration of the walk sweeps its cell. -/
theorem RawBuffer.cleanupCell_eq (now : Int) (hchain : buf.chain i = p ++ c :: s)
    (hfree : c.key ∉ p.map RawCell.key) (hplaced : c.key.bucket = i) (hhead : c.head = some head) :
    buf.cleanupCell now i c = some (buf.sweepTo i (p ++ (sweep now [c] ++ s))
      ([c].countP (RawCell.expired now))) := by
  subst hplaced
  have hexpired : c.expired now = head.expired now := by
    rw [RawCell.expired, hhead, Option.any_some]
  have hkept (h : head.expired now = false) : buf.sweepTo c.key.bucket
      (p ++ (sweep now [c] ++ s)) ([c].countP (RawCell.expired now)) =
        buf.setChain c.key.bucket (p ++ { c with head := some (head.cleanedUp now) } :: s) := by
    have hzero : buf.count - .ofNat 32 0 = buf.count := BitVec.sub_zero buf.count
    simp only [RawBuffer.sweepTo, sweep_singleton, List.countP_singleton, hexpired, h,
      RawCell.cleanedUp, hhead, Option.map_some, Bool.false_eq_true, if_false, hzero]
    rfl
  have hdropped (h : head.expired now = true) : buf.sweepTo c.key.bucket
      (p ++ (sweep now [c] ++ s)) ([c].countP (RawCell.expired now)) =
        { buf.setChain c.key.bucket (p ++ s) with count := buf.count - 1 } := by
    simp only [RawBuffer.sweepTo, sweep_singleton, List.countP_singleton, hexpired, h, if_true]
    rfl
  simp only [RawBuffer.cleanupCell, hhead, buf.writeHead_eq hchain hfree]
  by_cases hmark : head.toCleanUp = false
  · rw [if_pos hmark, hkept (MessageSegmentList.expired_unmarked now hmark),
      MessageSegmentList.cleanedUp, if_pos hmark]
  · have hoverdue := MessageSegmentList.expired_marked now hmark
    rw [if_neg hmark, ← MessageSegmentList.stamp.eq_1]
    split
    · rename_i hlate
      have hclear : (buf.setChain c.key.bucket
          (p ++ { c with head := some { head with timestamp := head.stamp now } } :: s)).clear
            c.key = some (0, buf.setChain c.key.bucket (p ++ s)) :=
        buf.clear_setChain (c := { c with head := some { head with timestamp := head.stamp now } })
          hfree rfl
      rw [hdropped (hoverdue.trans (decide_eq_true hlate)), hclear]
      rfl
    · rename_i hfresh
      rw [hkept (hoverdue.trans (decide_eq_false hfresh)),
        MessageSegmentList.cleanedUp_marked now hmark]

/-- The walk along part of a collision list sweeps it. -/
theorem RawBuffer.cleanupChain_eq (now : Int) (rest p s : List RawCell) (buf : RawBuffer)
    (hbucket : buf.hashArray i ≠ none) (hchain : buf.chain i = p ++ (rest ++ s))
    (hunique : ((p ++ (rest ++ s)).map RawCell.key).Nodup)
    (hplaced : ∀ c ∈ rest, c.key.bucket = i) (hlists : ∀ c ∈ rest, c.head ≠ none) :
    rest.foldlM (RawBuffer.cleanupCell now i) buf =
      some (buf.sweepTo i (p ++ (sweep now rest ++ s)) (rest.countP (RawCell.expired now))) := by
  induction rest generalizing p buf with
  | nil =>
      have hsame : buf.sweepTo i (p ++ (sweep now [] ++ s)) 0 = buf := by
        rw [sweep_nil, ← hchain, buf.sweepTo_self i hbucket]
      rw [List.foldlM_nil, List.countP_nil, hsame]
      rfl
  | cons c rest ih =>
      rw [List.cons_append] at hchain hunique
      have hfree : c.key ∉ p.map RawCell.key := by
        rw [List.map_append, List.map_cons] at hunique
        exact fun hmem => (List.nodup_append.mp hunique).2.2 _ hmem _ List.mem_cons_self rfl
      have hsublist : ((p ++ sweep now [c] ++ (rest ++ s)).map RawCell.key).Sublist
          ((p ++ c :: (rest ++ s)).map RawCell.key) := by
        simp only [List.append_assoc, List.map_append, List.map_cons]
        exact (List.Sublist.refl _).append
          ((sweep_keys_sublist now [c]).append (List.Sublist.refl _))
      obtain ⟨head, hhead⟩ := Option.ne_none_iff_exists'.mp (hlists c List.mem_cons_self)
      have hcell := buf.cleanupCell_eq now hchain hfree (hplaced c List.mem_cons_self) hhead
      rw [← List.append_assoc] at hcell
      have hcount : (c :: rest).countP (RawCell.expired now) =
          [c].countP (RawCell.expired now) + rest.countP (RawCell.expired now) := by
        rw [← List.countP_append, List.singleton_append]
      rw [List.foldlM_cons, hcell, Option.bind_eq_bind, Option.bind_some,
        ih (p ++ sweep now [c]) _ (buf.sweepTo_hashArray i _ _) (buf.sweepTo_chain i _ _)
          (hsublist.nodup hunique) (fun d hd => hplaced d (List.mem_cons_of_mem c hd))
          (fun d hd => hlists d (List.mem_cons_of_mem c hd)),
        RawBuffer.sweepTo_sweepTo, hcount, sweep_cons now c rest, List.append_assoc,
        List.append_assoc]

end Walk

/-- All entries of a bucket have their list. -/
def RawBuffer.HasLists (buf : RawBuffer) (i : Fin sizeBuf) : Prop :=
  ∀ c ∈ buf.chain i, c.head ≠ none

/-- Every message lies in the bucket of its key and no key is stored twice; the last cell
of a bucket has its `next` set where all have their list. -/
structure RawBuffer.Sound (buf : RawBuffer) : Prop where
  wellFormed : ChainedTable.WellFormed RawCell.key MessageKey.bucket buf.chain
  linked : ∀ i, buf.HasLists i → buf.linked i = true

/-- A buffer after its buckets were swept in the order of `visits`. -/
def RawBuffer.swept (now : Int) (visits : List (Fin sizeBuf)) (buf : RawBuffer) : RawBuffer :=
  { buf with
    hashArray := fun i => if i ∈ visits then (buf.hashArray i).map (sweep now) else buf.hashArray i
    count := buf.count -
      .ofNat 32 (visits.map fun i => (buf.chain i).countP (RawCell.expired now)).sum }

section Swept

variable (now : Int) (visits : List (Fin sizeBuf)) (buf : RawBuffer)

theorem RawBuffer.swept_chain (i : Fin sizeBuf) :
    (buf.swept now visits).chain i =
      if i ∈ visits then sweep now (buf.chain i) else buf.chain i := by
  simp only [RawBuffer.chain, RawBuffer.swept]
  by_cases hi : i ∈ visits
  · rw [if_pos hi, if_pos hi]
    cases buf.hashArray i <;> rfl
  · rw [if_neg hi, if_neg hi]

theorem RawBuffer.swept_nil : buf.swept now [] = buf := by
  have hzero : buf.count - .ofNat 32 0 = buf.count := BitVec.sub_zero buf.count
  simp only [RawBuffer.swept, List.not_mem_nil, if_false, List.map_nil, List.sum_nil, hzero]

/-- A further bucket is swept. -/
theorem RawBuffer.swept_concat {i : Fin sizeBuf} (hi : i ∉ visits) :
    (buf.swept now visits).swept now [i] = buf.swept now (visits ++ [i]) := by
  have hcells : (buf.swept now visits).chain i = buf.chain i := by
    rw [RawBuffer.swept_chain, if_neg hi]
  have hcount (n m : Nat) :
      buf.count - .ofNat 32 n - .ofNat 32 m = buf.count - .ofNat 32 (n + m) := by
    rw [sub_sub, BitVec.ofNat_add]
  have hbuckets (j : Fin sizeBuf) :
      ((buf.swept now visits).swept now [i]).hashArray j =
        (buf.swept now (visits ++ [i])).hashArray j := by
    simp only [RawBuffer.swept, List.mem_singleton, List.mem_append]
    by_cases hj : j = i
    · rw [if_pos hj, hj, if_neg hi, if_pos (Or.inr rfl)]
    · rw [if_neg hj]
      exact (if_congr (or_iff_left hj) rfl rfl).symm
  have hleft : ((buf.swept now visits).swept now [i]).count =
      (buf.swept now (visits ++ [i])).count := by
    change (buf.swept now visits).count - _ = _
    rw [List.map_singleton, hcells]
    simp only [RawBuffer.swept, List.map_append, List.sum_append, List.map_singleton, hcount]
  exact congrArg₂ (fun count hashArray => { buf with count, hashArray }) hleft (funext hbuckets)

variable {now visits buf} {i : Fin sizeBuf}

/-- A bucket without a head cell stays as it is. -/
theorem RawBuffer.swept_of_null (hnull : buf.hashArray i = none) : buf.swept now [i] = buf := by
  have hchain : buf.chain i = [] := by
    rw [RawBuffer.chain, hnull]
    rfl
  have hcount : buf.count - .ofNat 32 0 = buf.count := BitVec.sub_zero buf.count
  have hbuckets (j : Fin sizeBuf) : (buf.swept now [i]).hashArray j = buf.hashArray j := by
    simp only [RawBuffer.swept, List.mem_singleton]
    split
    · rename_i hj
      rw [hj, hnull, Option.map_none]
    · rfl
  simp only [RawBuffer.swept, List.map_singleton, List.sum_singleton, hchain, List.countP_nil,
    hcount]
  exact congrArg (fun hashArray => { buf with hashArray }) (funext hbuckets)

theorem RawBuffer.swept_eq_sweepTo (hbucket : buf.hashArray i ≠ none) :
    buf.swept now [i] =
      buf.sweepTo i (sweep now (buf.chain i)) ((buf.chain i).countP (RawCell.expired now)) := by
  obtain ⟨chain, hchain⟩ := Option.ne_none_iff_exists'.mp hbucket
  have hself : buf.chain i = chain := by rw [RawBuffer.chain, hchain, Option.getD_some]
  have hbuckets (j : Fin sizeBuf) : (buf.swept now [i]).hashArray j =
      Function.update buf.hashArray i (some (sweep now (buf.chain i))) j := by
    simp only [RawBuffer.swept, List.mem_singleton]
    by_cases hj : j = i
    · rw [if_pos hj, hj, Function.update_self, hself, hchain, Option.map_some]
    · rw [if_neg hj, Function.update_of_ne hj]
  simp only [RawBuffer.sweepTo, RawBuffer.setChain, ← funext hbuckets]
  simp only [RawBuffer.swept, List.map_singleton, List.sum_singleton]

theorem RawBuffer.Sound.swept (h : buf.Sound) (hlists : ∀ i ∈ visits, buf.HasLists i) :
    (buf.swept now visits).Sound := by
  constructor
  · refine h.wellFormed.of_sublist (fun i => ?_)
    rw [RawBuffer.swept_chain]
    split
    · exact sweep_keys_sublist now _
    · exact List.Sublist.refl _
  · intro i hi
    refine h.linked i ?_
    by_cases hvisited : i ∈ visits
    · exact hlists i hvisited
    · unfold RawBuffer.HasLists at hi
      rwa [RawBuffer.swept_chain, if_neg hvisited] at hi

end Swept

section Pass

variable {now : Int} {i : Fin sizeBuf} {buf after : RawBuffer} {n : Nat}

/-- A bucket whose entries all have their list is swept. -/
theorem RawBuffer.Sound.cleanupBucket_eq (h : buf.Sound) (now : Int) (hlists : buf.HasLists i) :
    buf.cleanupBucket now i = some (buf.swept now [i]) := by
  rw [RawBuffer.cleanupBucket]
  by_cases hbucket : buf.hashArray i = none
  · rw [if_pos hbucket, RawBuffer.swept_of_null hbucket]
  · have hwalk := RawBuffer.cleanupChain_eq now (buf.chain i) [] [] buf hbucket
      (List.append_nil _).symm
      (by rw [List.nil_append, List.append_nil]; exact h.wellFormed.unique i)
      (h.wellFormed.placed i) hlists
    rw [List.nil_append, List.append_nil] at hwalk
    rw [if_neg hbucket, hwalk, ← RawBuffer.swept_eq_sweepTo hbucket, Option.bind_eq_bind,
      Option.bind_some]
    exact if_pos (h.linked i hlists)

/-- A walk that comes to its end finds a list in every entry. -/
theorem RawBuffer.lists_of_cleanupChain {rest : List RawCell}
    (hwalk : rest.foldlM (RawBuffer.cleanupCell now i) buf = some after) :
    ∀ c ∈ rest, c.head ≠ none := by
  induction rest generalizing buf with
  | nil => exact fun c hc => absurd hc List.not_mem_nil
  | cons d rest ih =>
      rw [List.foldlM_cons] at hwalk
      obtain ⟨next, hcell, hrest⟩ := Option.bind_eq_some_iff.mp hwalk
      intro c hc hnull
      rcases List.mem_cons.mp hc with rfl | hc
      · rw [RawBuffer.cleanupCell, hnull] at hcell
        cases hcell
      · exact ih hrest c hc hnull

theorem RawBuffer.hasLists_of_cleanupBucket (hresult : buf.cleanupBucket now i = some after) :
    buf.HasLists i := by
  rw [RawBuffer.cleanupBucket] at hresult
  split at hresult
  · rename_i hnull
    intro c hc
    rw [RawBuffer.chain, hnull] at hc
    exact absurd hc List.not_mem_nil
  · obtain ⟨next, hwalk, _⟩ := Option.bind_eq_some_iff.mp hresult
    exact RawBuffer.lists_of_cleanupChain hwalk

theorem RawBuffer.cleanupLoop_succ (now : Int) (n : Nat) (buf : RawBuffer) :
    buf.cleanupLoop now (n + 1) = (buf.cleanupLoop now n).bind fun buf =>
      buf.cleanupBucket now (cleanupIndex buf.cleanupStartIndex n) := by
  rw [RawBuffer.cleanupLoop, List.range_succ, List.foldlM_append]
  simp only [List.foldlM_cons, List.foldlM_nil, Option.bind_eq_bind, bind_pure]
  rfl

/-- A pass over no more than all buckets has a result exactly if all entries in them have
their list, and sweeps them. -/
theorem RawBuffer.Sound.cleanupLoop_eq_some_iff (h : buf.Sound) (now : Int) (hn : n ≤ sizeBuf) :
    buf.cleanupLoop now n = some after ↔
      (∀ i ∈ visitedBuckets buf.cleanupStartIndex n, buf.HasLists i) ∧
        after = buf.swept now (visitedBuckets buf.cleanupStartIndex n) := by
  induction n generalizing after with
  | zero =>
      rw [visitedBuckets, List.range_zero, List.map_nil, RawBuffer.swept_nil]
      constructor
      · intro hresult
        exact ⟨fun i hi => absurd hi List.not_mem_nil, (Option.some.inj hresult).symm⟩
      · rintro ⟨_, rfl⟩
        rfl
  | succ n ih =>
      have hfresh : cleanupIndex buf.cleanupStartIndex n ∉
          visitedBuckets buf.cleanupStartIndex n := not_mem_visitedBuckets hn
      have hsame : (buf.swept now (visitedBuckets buf.cleanupStartIndex n)).HasLists
          (cleanupIndex buf.cleanupStartIndex n) ↔
            buf.HasLists (cleanupIndex buf.cleanupStartIndex n) := by
        rw [RawBuffer.HasLists, RawBuffer.swept_chain, if_neg hfresh, RawBuffer.HasLists]
      rw [RawBuffer.cleanupLoop_succ, Option.bind_eq_some_iff, visitedBuckets_succ,
        ← RawBuffer.swept_concat now _ buf hfresh]
      constructor
      · rintro ⟨mid, hloop, hbucket⟩
        obtain ⟨hlists, rfl⟩ := (ih (Nat.le_of_succ_le hn)).mp hloop
        have hlast := RawBuffer.hasLists_of_cleanupBucket hbucket
        have heq := ((h.swept hlists).cleanupBucket_eq now hlast).symm.trans hbucket
        refine ⟨fun i hi => ?_, (Option.some.inj heq).symm⟩
        rcases List.mem_append.mp hi with hi | hi
        · exact hlists i hi
        · rw [List.mem_singleton.mp hi]
          exact hsame.mp hlast
      · rintro ⟨hlists, rfl⟩
        have hbefore : ∀ i ∈ visitedBuckets buf.cleanupStartIndex n, buf.HasLists i :=
          fun i hi => hlists i (List.mem_append_left _ hi)
        have hlast := hlists _ (List.mem_append_right _ (List.mem_singleton_self _))
        exact ⟨_, (ih (Nat.le_of_succ_le hn)).mpr ⟨hbefore, rfl⟩,
          (h.swept hbefore).cleanupBucket_eq now (hsame.mpr hlast)⟩

end Pass

/-! A buffer in which every entry has its list -/

section Raw

variable {buf : SegmentBuffer} {now : Int} {i : Fin sizeBuf}

/-- What clearing does, with the bucket of the key by its name. -/
theorem clearSegmentList_eq (buf : SegmentBuffer) (k : MessageKey) :
    clearSegmentList buf k.1 k.2 =
      if ChainedTable.find CollisionListCell.key k (buf.chain k.bucket) = none then (-1, buf)
      else (0, buf.setChain k.bucket
        (ChainedTable.remove CollisionListCell.key k (buf.chain k.bucket))) := rfl

theorem SegmentBuffer.raw_clear (buf : SegmentBuffer) (k : MessageKey) :
    buf.raw.clear k = some ((clearSegmentList buf k.1 k.2).1,
      (clearSegmentList buf k.1 k.2).2.raw) := by
  have hfind := buf.raw_find k
  have hbucket : buf.raw.hashArray k.bucket = none ↔ buf.hashArray k.bucket = none := by
    simp only [SegmentBuffer.raw, Option.map_eq_none_iff]
  simp only [RawBuffer.clear, hbucket, hfind, clearSegmentList_eq]
  by_cases hnull : buf.hashArray k.bucket = none
  · have hnone : ChainedTable.find CollisionListCell.key k (buf.chain k.bucket) = none := by
      rw [SegmentBuffer.chain, hnull]
      rfl
    rw [if_pos hnull, if_pos hnone]
  · rw [if_neg hnull]
    cases hfound : ChainedTable.find CollisionListCell.key k (buf.chain k.bucket) with
    | none => rfl
    | some cell =>
        have hremove : ChainedTable.remove RawCell.key k (buf.raw.chain k.bucket) =
            (ChainedTable.remove CollisionListCell.key k (buf.chain k.bucket)).map
              CollisionListCell.raw := by
          rw [SegmentBuffer.raw_chain, ChainedTable.remove, List.eraseP_map]
          rfl
        rw [hremove, if_neg (Option.some_ne_none cell)]
        exact congrArg (fun b => some (0, b)) (buf.raw_setChain k.bucket _)

/-- Writing the list of a cell whose place in its bucket is known. -/
theorem SegmentBuffer.raw_writeHead {p s : List CollisionListCell} {c : CollisionListCell}
    (hchain : buf.chain i = p ++ c :: s) (hfree : c.key ∉ p.map CollisionListCell.key)
    (f : MessageSegmentList → MessageSegmentList) :
    buf.raw.writeHead i c.key (f c.head) = (buf.writeHead i c.key f).raw := by
  have hchain' : buf.raw.chain i = p.map CollisionListCell.raw ++ c.raw ::
      s.map CollisionListCell.raw := by
    rw [SegmentBuffer.raw_chain, hchain, List.map_append, List.map_cons]
  have hfree' : c.raw.key ∉ (p.map CollisionListCell.raw).map RawCell.key := by
    rw [List.map_map]
    exact hfree
  have hwrite : buf.raw.writeHead i c.key (f c.head) = _ :=
    buf.raw.writeHead_eq hchain' hfree' (f c.head)
  rw [hwrite, SegmentBuffer.writeHead, hchain, ChainedTable.adjust_at p s c hfree,
    ← SegmentBuffer.raw_setChain, List.map_append, List.map_cons]
  rfl

theorem SegmentBuffer.raw_cleanupCell {p s : List CollisionListCell} {c : CollisionListCell}
    (hchain : buf.chain i = p ++ c :: s) (hfree : c.key ∉ p.map CollisionListCell.key) :
    buf.raw.cleanupCell now i c.raw = some (cleanupCell now i c buf).raw := by
  have hmark := buf.raw_writeHead hchain hfree (fun head => { head with toCleanUp := true })
  have hstamp := buf.raw_writeHead hchain hfree
    (fun head => { head with timestamp := c.head.stamp now })
  have hclear := (buf.writeHead i c.key
    (fun head => { head with timestamp := c.head.stamp now })).raw_clear c.key
  have hkey : c.raw.key = c.key := rfl
  have hhead : c.raw.head = some c.head := rfl
  rw [← hstamp] at hclear
  simp only [RawBuffer.cleanupCell, cleanupCell, hhead, hkey, ← MessageSegmentList.stamp.eq_1]
  by_cases hunmarked : c.head.toCleanUp = false
  · rw [if_pos hunmarked, if_pos hunmarked, hmark]
  · rw [if_neg hunmarked, if_neg hunmarked]
    by_cases hlate : expireMsg < now - c.head.stamp now
    · rw [if_pos hlate, if_pos hlate, hclear]
      rfl
    · rw [if_neg hlate, if_neg hlate, hstamp]

/-- The walk along part of a collision list. -/
theorem SegmentBuffer.raw_cleanupChain (rest p : List CollisionListCell) (buf : SegmentBuffer)
    (hchain : buf.chain i = p ++ rest)
    (hunique : ((p ++ rest).map CollisionListCell.key).Nodup)
    (hplaced : ∀ c ∈ rest, c.key.bucket = i) :
    (rest.map CollisionListCell.raw).foldlM (RawBuffer.cleanupCell now i) buf.raw =
      some (cleanupChain now i rest buf).raw := by
  induction rest generalizing p buf with
  | nil => rfl
  | cons c rest ih =>
      obtain ⟨hfree, hunique'⟩ := visited_nodup now hunique
      have hafter : (cleanupCell now i c buf).chain i = p ++ (visitCell now c).toList ++ rest := by
        rw [cleanupCell_chain hchain hfree (hplaced c List.mem_cons_self), Function.update_self]
      have hwalk : cleanupChain now i (c :: rest) buf =
          cleanupChain now i rest (cleanupCell now i c buf) := rfl
      rw [List.map_cons, List.foldlM_cons, buf.raw_cleanupCell hchain hfree, Option.bind_eq_bind,
        Option.bind_some, hwalk]
      exact ih _ _ hafter hunique' (fun d hd => hplaced d (List.mem_cons_of_mem c hd))

theorem SegmentBuffer.raw_cleanupBucket (h : buf.WellFormed) (now : Int) (i : Fin sizeBuf) :
    buf.raw.cleanupBucket now i = some (cleanupBucket now i buf).raw := by
  have hnull : buf.raw.hashArray i = none ↔ buf.hashArray i = none := by
    simp only [SegmentBuffer.raw, Option.map_eq_none_iff]
  simp only [RawBuffer.cleanupBucket, hnull]
  by_cases hbucket : buf.hashArray i = none
  · have hchain : buf.chain i = [] := by
      rw [SegmentBuffer.chain, hbucket]
      rfl
    rw [if_pos hbucket, UdpNotif.cleanupBucket, hchain]
    rfl
  · rw [if_neg hbucket, SegmentBuffer.raw_chain,
      SegmentBuffer.raw_cleanupChain (buf.chain i) [] buf rfl (h.unique i) (h.placed i)]
    rfl

theorem SegmentBuffer.raw_cleanupLoop (h : buf.WellFormed) (now : Int) (n : Nat) :
    buf.raw.cleanupLoop now n = some (cleanupLoop now n buf).raw := by
  induction n with
  | zero => rfl
  | succ n ih =>
      rw [RawBuffer.cleanupLoop_succ, ih, Option.bind_some, UdpNotif.cleanupLoop_succ]
      exact SegmentBuffer.raw_cleanupBucket (cleanupLoop_wellFormed h now n).1 now _

/-- A pass over a buffer in which every entry has its list is the one modelled above. -/
theorem SegmentBuffer.raw_cleanupSegBuff (h : buf.WellFormed) (now size : Int) :
    buf.raw.cleanupSegBuff now size = some (cleanupSegBuff now buf size).raw := by
  rw [RawBuffer.cleanupSegBuff, buf.raw_cleanupLoop h now size.toNat, Option.map_some]
  rfl

end Raw

end UdpNotif
