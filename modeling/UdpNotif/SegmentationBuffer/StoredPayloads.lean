import UdpNotif.SegmentationBuffer.ClearBuffer

/-!
The payloads that a segment buffer holds. A list keeps the payload of every segment that
is inserted, until `clear_msl` frees them all; an insert that does not link its segment
leaves the payload to its caller, and where the cell of a segment in the middle cannot be
allocated the segments behind it are lost.
-/

namespace UdpNotif

/-- The blocks of some payloads. -/
abbrev Payloads : Type := Multiset (List Uint8)

/-- The payloads of some segments. -/
def segmentPayloads (cells : List MessageSegmentCell) : Payloads :=
  cells.map MessageSegmentCell.content

/-- The payloads that `clear_msl` frees. -/
def clearMsl (head : MessageSegmentList) : Payloads := segmentPayloads head.cells

/-- The payloads that an entry holds. -/
def RawCell.payloads (c : RawCell) : Payloads := c.head.elim 0 clearMsl

/-- The payloads of some entries. -/
def entryPayloads (chain : List RawCell) : Payloads := (chain.map RawCell.payloads).sum

/-- The payloads that a buffer holds. -/
def RawBuffer.payloads (buf : RawBuffer) : Payloads := ∑ i, entryPayloads (buf.chain i)

/-- The segments that no pointer leads to after an insert: those behind a cell that could
not be allocated. -/
def lostSegments (mallocs : InsertMallocs) (head : MessageSegmentList) (c : InsertCall) :
    List MessageSegmentCell :=
  match head.cells.dropWhile (fun d => d.seqnum < c.seqnum) with
  | [] => []
  | d :: rest => if d.seqnum = c.seqnum ∨ mallocs.segmentCell then [] else d :: rest

/-- The segments that no pointer leads to after `insert_segment`. -/
def RawBuffer.lostSegments (mallocs : InsertMallocs) (buf : RawBuffer) (k : MessageKey)
    (c : InsertCall) : List MessageSegmentCell :=
  ((buf.lookup k).bind RawCell.head).elim [] fun head => UdpNotif.lostSegments mallocs head c

/-- The payloads that `clear_segment_list` frees. -/
def RawBuffer.clearFrees (buf : RawBuffer) (k : MessageKey) : Payloads :=
  (buf.lookup k).elim 0 RawCell.payloads

section List

variable (mallocs : InsertMallocs) (head : MessageSegmentList) (c : InsertCall)

theorem segmentPayloads_append (cells cells' : List MessageSegmentCell) :
    segmentPayloads (cells ++ cells') = segmentPayloads cells + segmentPayloads cells' := by
  rw [segmentPayloads, List.map_append, ← Multiset.coe_add]
  rfl

theorem segmentPayloads_cons (d : MessageSegmentCell) (cells : List MessageSegmentCell) :
    segmentPayloads (d :: cells) = {d.content} + segmentPayloads cells :=
  segmentPayloads_append [d] cells

/-- Linking a segment keeps the cells it is given, and returns a code that says so. -/
theorem linkSegmentWith_cells (malloc : Bool) (cells : List MessageSegmentCell)
    (payloadSize : Uint32) (options : Option (List UnyteOption)) :
    (linkSegmentWith malloc head cells payloadSize options).2.cells = cells ∧
      linksSegment (linkSegmentWith malloc head cells payloadSize options).1 = true := by
  have hcells : (linkSegmentWith malloc head cells payloadSize options).2.cells = cells := by
    cases options with
    | none => rfl
    | some added =>
        simp only [linkSegmentWith, appendOptionsWith]
        split <;> rfl
  refine ⟨hcells, ?_⟩
  unfold linkSegmentWith
  dsimp only
  split
  · rfl
  · split <;> rfl

/-- A payload handed to an insert is held by the list where the code says so; what the list
no longer holds is lost. -/
theorem insertIntoMslWith_payloads :
    clearMsl (insertIntoMslWith mallocs head c).2 +
        segmentPayloads (lostSegments mallocs head c) =
      clearMsl head +
        if linksSegment (insertIntoMslWith mallocs head c).1 then {c.content} else 0 := by
  have hsplit := List.takeWhile_append_dropWhile
    (p := fun d : MessageSegmentCell => decide (d.seqnum < c.seqnum)) (l := head.cells)
  have hkept : segmentPayloads (head.cells.takeWhile fun d => decide (d.seqnum < c.seqnum)) +
      segmentPayloads (head.cells.dropWhile fun d => decide (d.seqnum < c.seqnum)) =
        segmentPayloads head.cells := by
    rw [← segmentPayloads_append, hsplit]
  have hcontent : c.cell.content = c.content := rfl
  unfold clearMsl lostSegments
  simp only [insertIntoMslWith, c.announce_eq]
  cases hdrop : head.cells.dropWhile (fun d => decide (d.seqnum < c.seqnum)) with
  | nil =>
      rw [hdrop] at hkept
      cases hcell : mallocs.segmentCell with
      | true =>
          simp only [if_true, linkSegmentWith_cells, segmentPayloads_append,
            segmentPayloads_cons, hcontent, ← hkept]
          abel
      | false => rfl
  | cons d rest =>
      rw [hdrop] at hkept
      by_cases hd : d.seqnum = c.seqnum
      · have hduplicate (complete : Bool) :
            linksSegment (if complete = true then -2 else -1) = false := by
          cases complete <;> rfl
        simp only [hd, if_true, true_or, hduplicate, Bool.false_eq_true, if_false]
        rfl
      · cases hcell : mallocs.segmentCell with
        | true =>
            simp only [hd, if_true, if_false, false_or, linkSegmentWith_cells,
              segmentPayloads_append, segmentPayloads_cons, hcontent, ← hkept]
            have hnone : segmentPayloads [] = 0 := rfl
            rw [hnone]
            abel
        | false =>
            simp only [hd, Bool.false_eq_true, if_false, false_or]
            exact hkept.trans (add_zero _).symm

end List

section Buffer

variable {buf after : RawBuffer} {k : MessageKey}

theorem entryPayloads_append (chain chain' : List RawCell) :
    entryPayloads (chain ++ chain') = entryPayloads chain + entryPayloads chain' := by
  rw [entryPayloads, List.map_append, List.sum_append]
  rfl

theorem entryPayloads_cons (c : RawCell) (chain : List RawCell) :
    entryPayloads (c :: chain) = c.payloads + entryPayloads chain := by
  rw [entryPayloads, List.map_cons, List.sum_cons]
  rfl

/-- The entries around one entry of a bucket. -/
theorem entryPayloads_at (p s : List RawCell) (c : RawCell) :
    entryPayloads (p ++ c :: s) = c.payloads + entryPayloads (p ++ s) := by
  rw [entryPayloads_append, entryPayloads_cons, entryPayloads_append]
  abel

/-- What a bucket gains and loses, the buffer does. -/
theorem RawBuffer.payloads_setChain {i : Fin sizeBuf} {chain : List RawCell}
    {lost gained : Payloads}
    (h : entryPayloads chain + lost = entryPayloads (buf.chain i) + gained) :
    (buf.setChain i chain).payloads + lost = buf.payloads + gained := by
  unfold RawBuffer.payloads
  rw [RawBuffer.chain_setChain]
  exact Weights.sum_update_of h

/-- A new entry brings what its list holds. -/
theorem RawBuffer.payloads_concat (buf : RawBuffer) (k : MessageKey)
    (head : Option MessageSegmentList) :
    (buf.setChain k.bucket (buf.chain k.bucket ++ [⟨k.1, k.2, head⟩])).payloads + 0 =
      buf.payloads + head.elim 0 clearMsl := by
  apply RawBuffer.payloads_setChain
  rw [entryPayloads_append, entryPayloads_cons, add_zero, ← add_assoc]
  exact add_zero _

/-- The payloads of all entries are those that the buffer holds. -/
theorem RawBuffer.entryPayloads_cells (buf : RawBuffer) :
    entryPayloads buf.cells = buf.payloads := by
  have hflat (buckets : List (Fin sizeBuf)) : entryPayloads (buckets.flatMap buf.chain) =
      (buckets.map fun i => entryPayloads (buf.chain i)).sum := by
    induction buckets with
    | nil => rfl
    | cons i buckets ih =>
        rw [List.flatMap_cons, entryPayloads_append, ih, List.map_cons, List.sum_cons]
  rw [RawBuffer.cells, hflat, RawBuffer.payloads, Fin.sum_univ_def]

/-- What `insert_segment` is handed is held where the code says so; what is no longer held
is lost. -/
theorem RawBuffer.insertWith_payloads {mallocs : InsertMallocs} {c : InsertCall} {code : Int}
    (hresult : buf.insertWith mallocs k c = some (code, after)) :
    after.payloads + segmentPayloads (buf.lostSegments mallocs k c) =
      buf.payloads + if linksSegment code then {c.content} else 0 := by
  unfold RawBuffer.lostSegments
  rcases RawBuffer.insertWith_eq_some hresult with ⟨⟨hnull, _⟩, rfl, rfl⟩ | ⟨_, hcase⟩
  · have hnone : after.lookup k = none := by
      rw [RawBuffer.lookup, ChainedTable.lookup, RawBuffer.chain, hnull]
      rfl
    rw [hnone]
    rfl
  · rcases hcase with ⟨cell, head, hfound, hhead, rfl, rfl⟩ | ⟨hnone, _, hcase⟩
    · obtain ⟨p, s, hchain, hfree⟩ := ChainedTable.exists_at_of_find hfound
      have hkey : cell.key = k := ChainedTable.key_of_find hfound
      have hold : cell.payloads = clearMsl head := by rw [RawCell.payloads, hhead]; rfl
      apply RawBuffer.payloads_setChain
      rw [hchain, ← hkey, ChainedTable.adjust_at p s cell hfree, hkey, hfound, Option.bind_some,
        hhead, entryPayloads_at, entryPayloads_at, hold]
      have hnew : (RawCell.withHead (insertIntoMslWith mallocs head c).2 cell).payloads =
          clearMsl (insertIntoMslWith mallocs head c).2 := rfl
      rw [hnew, Option.elim_some, add_right_comm, insertIntoMslWith_payloads, add_right_comm]
    · rw [hnone]
      have hlost : segmentPayloads ((Option.bind (none : Option RawCell) RawCell.head).elim []
          fun head => UdpNotif.lostSegments mallocs head c) = 0 := rfl
      rw [hlost]
      rcases hcase with ⟨_, rfl, rfl⟩ | ⟨_, _, rfl, rfl⟩ | ⟨_, _, rfl, rfl⟩
      · exact RawBuffer.payloads_setChain rfl
      · exact buf.payloads_concat k none
      · have hlist := insertIntoMslWith_payloads mallocs (createMessageSegmentList k.1 k.2) c
        have hempty : segmentPayloads
            (UdpNotif.lostSegments mallocs (createMessageSegmentList k.1 k.2) c) = 0 := rfl
        have hnothing : clearMsl (createMessageSegmentList k.1 k.2) = 0 := rfl
        rw [hempty, hnothing, add_zero, zero_add] at hlist
        rw [← hlist]
        exact buf.payloads_concat k (some _)

/-- What `clear_segment_list` frees is no longer held. -/
theorem RawBuffer.clear_payloads {code : Int} (hresult : buf.clear k = some (code, after)) :
    after.payloads + buf.clearFrees k = buf.payloads := by
  unfold RawBuffer.clearFrees
  cases hfound : buf.lookup k with
  | none =>
      rcases RawBuffer.clear_cases hresult with rfl | ⟨cell, hcell, _⟩
      · exact add_zero _
      · cases hfound.symm.trans hcell
  | some cell =>
      have hbucket : ¬ buf.hashArray k.bucket = none := by
        intro hnull
        rw [RawBuffer.lookup, ChainedTable.lookup, RawBuffer.chain, hnull] at hfound
        cases hfound
      have hfind : ChainedTable.find RawCell.key k (buf.chain k.bucket) = some cell := hfound
      obtain ⟨p, s, hchain, hfree⟩ := ChainedTable.exists_at_of_find hfind
      have hkey : cell.key = k := ChainedTable.key_of_find hfind
      simp only [RawBuffer.clear, if_neg hbucket, hfind] at hresult
      obtain ⟨head, _, heq⟩ := Option.map_eq_some_iff.mp hresult
      obtain ⟨_, rfl⟩ := Prod.mk.inj heq
      refine (RawBuffer.payloads_setChain ?_).trans (add_zero _)
      rw [hchain, ← hkey, ChainedTable.remove_at p s cell hfree, entryPayloads_at, add_zero,
        add_comm]
      rfl

end Buffer

/-! A clean up pass, with the payloads that it frees -/

/-- The payloads that `cleanup_seg_buff` frees at the cell `next` of a bucket. -/
def RawBuffer.cleanupCellFrees (now : Int) (i : Fin sizeBuf) (buf : RawBuffer) (next : RawCell) :
    Payloads :=
  match next.head with
  | none => 0
  | some head =>
      if head.toCleanUp = false then 0
      else
        let timestamp := if head.timestamp = 0 then now else head.timestamp
        let buf := buf.writeHead i next.key { head with timestamp }
        if expireMsg < now - timestamp then buf.clearFrees next.key else 0

/-- The walk of a pass at a cell, with the payloads freed so far. -/
def cleanupCellLogged (now : Int) (i : Fin sizeBuf) (s : Payloads × RawBuffer) (next : RawCell) :
    Option (Payloads × RawBuffer) :=
  (s.2.cleanupCell now i next).map fun buf => (s.1 + s.2.cleanupCellFrees now i next, buf)

/-- What a pass does to one bucket. -/
def cleanupBucketLogged (now : Int) (i : Fin sizeBuf) (s : Payloads × RawBuffer) :
    Option (Payloads × RawBuffer) :=
  if s.2.hashArray i = none then some s
  else do
    let s ← (s.2.chain i).foldlM (cleanupCellLogged now i) s
    if s.2.linked i then some s else none

/-- The loop of a pass over `n` buckets. -/
def cleanupLoopLogged (now : Int) (n : Nat) (s : Payloads × RawBuffer) :
    Option (Payloads × RawBuffer) :=
  (List.range n).foldlM (fun s count =>
    cleanupBucketLogged now (cleanupIndex s.2.cleanupStartIndex count) s) s

/-- The payloads that a clean up pass frees. -/
def RawBuffer.cleanupFrees (now : Int) (buf : RawBuffer) (cleanupPassSize : Int) : Payloads :=
  (cleanupLoopLogged now cleanupPassSize.toNat (0, buf)).elim 0 Prod.fst

section Logged

variable (now : Int) (i : Fin sizeBuf)

theorem cleanupCellLogged_buf (s : Payloads × RawBuffer) (next : RawCell) :
    (cleanupCellLogged now i s next).map Prod.snd = s.2.cleanupCell now i next := by
  rw [cleanupCellLogged, Option.map_map]
  exact Option.map_id'

theorem cleanupBucketLogged_buf (s : Payloads × RawBuffer) :
    (cleanupBucketLogged now i s).map Prod.snd = s.2.cleanupBucket now i := by
  unfold cleanupBucketLogged RawBuffer.cleanupBucket
  split
  · rfl
  · have hwalk := Runs.foldlM_project Prod.snd (cleanupCellLogged_buf now i)
      (s.2.chain i) s
    rw [← hwalk]
    cases (s.2.chain i).foldlM (cleanupCellLogged now i) s with
    | none => rfl
    | some s' =>
        simp only [Option.map_some, Option.bind_eq_bind, Option.bind_some]
        split <;> rfl

theorem cleanupLoopLogged_buf (n : Nat) (s : Payloads × RawBuffer) :
    (cleanupLoopLogged now n s).map Prod.snd = s.2.cleanupLoop now n :=
  Runs.foldlM_project Prod.snd (fun s _ => cleanupBucketLogged_buf now _ s) _ s

variable {now i}

/-- Writing the marks of a list keeps its payloads. -/
theorem RawBuffer.writeHead_payloads {buf : RawBuffer} {p s : List RawCell} {c : RawCell}
    {head head' : MessageSegmentList} (hchain : buf.chain i = p ++ c :: s)
    (hfree : c.key ∉ p.map RawCell.key) (hhead : c.head = some head)
    (hcells : head'.cells = head.cells) :
    (buf.writeHead i c.key head').payloads = buf.payloads := by
  have hsame : RawCell.payloads { c with head := some head' } = c.payloads := by
    rw [RawCell.payloads, RawCell.payloads, hhead, Option.elim_some, Option.elim_some, clearMsl,
      hcells, clearMsl]
  rw [buf.writeHead_eq hchain hfree]
  refine add_right_cancel (b := (0 : Payloads)) (RawBuffer.payloads_setChain ?_)
  rw [hchain, entryPayloads_at, entryPayloads_at, hsame]

/-- What a visit frees is no longer held. -/
theorem RawBuffer.cleanupCell_payloads {buf after : RawBuffer} {p s : List RawCell} {c : RawCell}
    (hchain : buf.chain i = p ++ c :: s) (hfree : c.key ∉ p.map RawCell.key)
    (hresult : buf.cleanupCell now i c = some after) :
    buf.cleanupCellFrees now i c + after.payloads = buf.payloads := by
  unfold RawBuffer.cleanupCell at hresult
  unfold RawBuffer.cleanupCellFrees
  cases hhead : c.head with
  | none =>
      rw [hhead] at hresult
      cases hresult
  | some head =>
      rw [hhead] at hresult
      simp only at hresult ⊢
      by_cases hmark : head.toCleanUp = false
      · rw [if_pos hmark] at hresult ⊢
        obtain rfl := Option.some.inj hresult
        rw [zero_add]
        exact buf.writeHead_payloads hchain hfree hhead rfl
      · rw [if_neg hmark] at hresult ⊢
        generalize (if head.timestamp = 0 then now else head.timestamp) = timestamp at hresult ⊢
        have hwrite : (buf.writeHead i c.key { head with timestamp }).payloads = buf.payloads :=
          buf.writeHead_payloads hchain hfree hhead rfl
        by_cases hlate : expireMsg < now - timestamp
        · rw [if_pos hlate] at hresult ⊢
          obtain ⟨⟨code, cleared⟩, hclear, rfl⟩ := Option.map_eq_some_iff.mp hresult
          have hcleared := RawBuffer.clear_payloads hclear
          rw [add_comm, ← hwrite]
          exact hcleared
        · rw [if_neg hlate] at hresult ⊢
          obtain rfl := Option.some.inj hresult
          rw [zero_add]
          exact hwrite

/-- What the walk along the rest of a bucket frees is no longer held. -/
theorem foldlM_cleanupCellLogged_payloads (rest : List RawCell) (p : List RawCell)
    {s s' : Payloads × RawBuffer} (hchain : s.2.chain i = p ++ rest)
    (hunique : ((p ++ rest).map RawCell.key).Nodup) (hplaced : ∀ c ∈ rest, c.key.bucket = i)
    (hresult : rest.foldlM (cleanupCellLogged now i) s = some s') :
    s'.1 + s'.2.payloads = s.1 + s.2.payloads := by
  induction rest generalizing p s with
  | nil =>
      obtain rfl := Option.some.inj hresult
      rfl
  | cons c rest ih =>
      rw [List.foldlM_cons] at hresult
      obtain ⟨next, hcell, hrest⟩ := Option.bind_eq_some_iff.mp hresult
      obtain ⟨buf, hbuf, rfl⟩ := Option.map_eq_some_iff.mp hcell
      have hfree : c.key ∉ p.map RawCell.key := by
        rw [List.map_append, List.map_cons] at hunique
        exact fun hmem => (List.nodup_append.mp hunique).2.2 _ hmem _ List.mem_cons_self rfl
      have hone := s.2.cleanupCell_payloads hchain hfree hbuf
      obtain ⟨head, hhead⟩ : ∃ head, c.head = some head := by
        apply Option.ne_none_iff_exists'.mp
        intro hnull
        rw [RawBuffer.cleanupCell, hnull] at hbuf
        cases hbuf
      have hsweep := s.2.cleanupCell_eq now hchain hfree (hplaced c List.mem_cons_self) hhead
      obtain rfl := Option.some.inj (hbuf.symm.trans hsweep)
      have hsublist : ((p ++ sweep now [c] ++ rest).map RawCell.key).Sublist
          ((p ++ c :: rest).map RawCell.key) := by
        simp only [List.append_assoc, List.map_append, List.map_cons]
        exact (List.Sublist.refl _).append
          ((sweep_keys_sublist now [c]).append (List.Sublist.refl _))
      have hafter := ih (p ++ sweep now [c])
        ((s.2.sweepTo_chain i _ _).trans (List.append_assoc _ _ _).symm)
        (hsublist.nodup hunique) (fun d hd => hplaced d (List.mem_cons_of_mem c hd)) hrest
      rw [hafter, add_assoc, hone]

/-- What a bucket is freed of is no longer held. -/
theorem cleanupBucketLogged_payloads {s s' : Payloads × RawBuffer} (h : s.2.Sound)
    (hresult : cleanupBucketLogged now i s = some s') :
    s'.1 + s'.2.payloads = s.1 + s.2.payloads ∧ s'.2.Sound := by
  have hbuf := (cleanupBucketLogged_buf now i s).symm.trans
    (congrArg (Option.map Prod.snd) hresult)
  have hlists := RawBuffer.hasLists_of_cleanupBucket hbuf
  have hswept := Option.some.inj ((h.cleanupBucket_eq now hlists).symm.trans hbuf)
  refine ⟨?_, ?_⟩
  · unfold cleanupBucketLogged at hresult
    split at hresult
    · obtain rfl := Option.some.inj hresult
      rfl
    · obtain ⟨t, hwalk, hend⟩ := Option.bind_eq_some_iff.mp hresult
      split at hend
      · obtain rfl := Option.some.inj hend
        exact foldlM_cleanupCellLogged_payloads (s.2.chain i) [] rfl (h.wellFormed.unique i)
          (h.wellFormed.placed i) hwalk
      · cases hend
  · rw [← hswept]
    exact h.swept fun j hj => by rw [List.mem_singleton.mp hj]; exact hlists

theorem cleanupLoopLogged_payloads {n : Nat} {s s' : Payloads × RawBuffer} (h : s.2.Sound)
    (hresult : cleanupLoopLogged now n s = some s') :
    s'.1 + s'.2.payloads = s.1 + s.2.payloads ∧ s'.2.Sound := by
  induction n generalizing s' with
  | zero =>
      obtain rfl := Option.some.inj hresult
      exact ⟨rfl, h⟩
  | succ n ih =>
      rw [cleanupLoopLogged, List.range_succ, List.foldlM_append] at hresult
      obtain ⟨mid, hloop, hlast⟩ := Option.bind_eq_some_iff.mp hresult
      simp only [List.foldlM_cons, List.foldlM_nil, bind_pure] at hlast
      obtain ⟨hsame, hsound⟩ := ih hloop
      obtain ⟨hlast, hafter⟩ := cleanupBucketLogged_payloads hsound hlast
      exact ⟨hlast.trans hsame, hafter⟩

/-- What a clean up pass frees is no longer held. -/
theorem RawBuffer.Sound.cleanupSegBuff_payloads {buf after : RawBuffer} (h : buf.Sound)
    {size : Int} (hresult : buf.cleanupSegBuff now size = some after) :
    after.payloads + buf.cleanupFrees now size = buf.payloads := by
  obtain ⟨swept, hloop, rfl⟩ := Option.map_eq_some_iff.mp hresult
  have hproject := cleanupLoopLogged_buf now size.toNat (0, buf)
  rw [hloop] at hproject
  obtain ⟨⟨freed, _⟩, hlogged, rfl⟩ := Option.map_eq_some_iff.mp hproject
  obtain ⟨hsame, _⟩ := cleanupLoopLogged_payloads h hlogged
  unfold RawBuffer.cleanupFrees
  rw [hlogged, Option.elim_some]
  calc _ = freed + RawBuffer.payloads _ := add_comm _ _
    _ = 0 + buf.payloads := hsame
    _ = buf.payloads := zero_add _

end Logged

/-- A sound buffer whose lists have the identifiers of their entries. -/
structure RawBuffer.Freeable (buf : RawBuffer) : Prop where
  sound : buf.Sound
  named : buf.Named

namespace RawBuffer.Freeable

theorem create : createSegmentBuffer.raw.Freeable where
  sound := (VisitedBuffer.invariant_run .nil).sound
  named := VisitedBuffer.named_run .nil

variable {buf after : RawBuffer} {k : MessageKey} (h : buf.Freeable)
include h

theorem insertWith {mallocs : InsertMallocs} {c : InsertCall} {code : Int}
    (hresult : buf.insertWith mallocs k c = some (code, after)) : after.Freeable :=
  ⟨h.sound.insertWith hresult, h.named.insertWith h.sound hresult⟩

theorem clear {code : Int} (hresult : buf.clear k = some (code, after)) : after.Freeable :=
  ⟨h.sound.clear hresult, h.named.clear hresult⟩

theorem cleanupSegBuff {now size : Int} (hresult : buf.cleanupSegBuff now size = some after) :
    after.Freeable := by
  obtain ⟨swept, hloop, rfl⟩ := Option.map_eq_some_iff.mp hresult
  obtain ⟨hnamed, hsound⟩ := h.named.cleanupLoop h.sound hloop
  exact ⟨⟨hsound.wellFormed, hsound.linked⟩, hnamed⟩

/-- `clear_buffer` frees what the buffer holds. -/
theorem clearBuffer_payloads {cleared : ClearedBuffer} (hresult : clearBuffer buf = some cleared) :
    entryPayloads cleared.freed = buf.payloads := by
  have hafter := (ClearedBuffer.After.finish h.sound h.named).1 cleared hresult
  have hcells : cleared.freed = buf.cells := hafter.freed
  rw [hcells, buf.entryPayloads_cells]

end RawBuffer.Freeable

end UdpNotif
