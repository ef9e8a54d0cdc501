import UdpNotif.SegmentationBuffer.CleanupPass

/-!
`clear_buffer`, which ends the life of a segment buffer. It clears every entry of every
bucket under the identifiers in the entry's list, and frees the head cells itself.
-/

namespace UdpNotif

/-- A buffer that is being freed: the value to return, the collision cells that were freed
with their lists, and the buckets whose head cell was freed. -/
structure ClearedBuffer where
  res : Int
  freed : List RawCell
  heads : List (Fin sizeBuf)
  buf : RawBuffer

/-- The identifiers in a list. -/
def MessageSegmentList.key (head : MessageSegmentList) : MessageKey := (head.odid, head.mid)

/-- What `clear_collision_list` does at the cell `cur` of bucket `i`. It has no result where
`cur` or the head cell of the bucket it looks into was freed before, and where the list of
`cur` is `NULL`. -/
def clearCollisionCell (i : Fin sizeBuf) (s : ClearedBuffer) (cur : RawCell) :
    Option ClearedBuffer :=
  if (ChainedTable.find RawCell.key cur.key (s.buf.chain i)).isNone then none
  else
    match cur.head with
    | none => none
    | some head =>
        if s.heads.any (· = head.key.bucket) then none
        else
          (s.buf.clear head.key).map fun (_, buf) =>
            { s with
              res := s.res + 1
              freed := s.freed ++ (s.buf.lookup head.key).toList
              buf }

/-- `clear_collision_list` -/
def clearCollisionList (s : ClearedBuffer) (i : Fin sizeBuf) : Option ClearedBuffer := do
  let s ← (s.buf.chain i).foldlM (clearCollisionCell i) s
  -- the walk ends where `next` is `NULL`
  if s.buf.linked i then some { s with heads := s.heads ++ [i] } else none

/-- What `clear_buffer` does to a bucket. -/
def clearBucket (s : ClearedBuffer) (i : Fin sizeBuf) : Option ClearedBuffer :=
  if s.buf.hashArray i = none then some s else clearCollisionList s i

/-- `clear_buffer` -/
def clearBuffer (buf : RawBuffer) : Option ClearedBuffer :=
  (List.finRange sizeBuf).foldlM clearBucket ⟨0, [], [], buf⟩

/-- Every list has the identifiers of its entry. -/
def RawBuffer.Named (buf : RawBuffer) : Prop :=
  ∀ i, ∀ c ∈ buf.chain i, ∀ head, c.head = some head → head.key = c.key

/-- An insert keeps the identifiers of a list. -/
theorem insertIntoMslWith_key (mallocs : InsertMallocs) (head : MessageSegmentList)
    (c : InsertCall) : (insertIntoMslWith mallocs head c).2.key = head.key := by
  have hlink (head : MessageSegmentList) (cells : List MessageSegmentCell) :
      (linkSegmentWith mallocs.optionsHead head cells c.payloadSize c.options).2.key =
        head.key := by
    cases c.options with
    | none => rfl
    | some added =>
        simp only [linkSegmentWith, appendOptionsWith]
        split <;> rfl
  simp only [insertIntoMslWith, c.announce_eq]
  split
  · split
    · exact hlink _ _
    · rfl
  · split
    · rfl
    · split
      · exact hlink _ _
      · rfl

theorem MessageSegmentList.cleanedUp_key (now : Int) (head : MessageSegmentList) :
    (head.cleanedUp now).key = head.key := by
  unfold MessageSegmentList.cleanedUp
  split
  · rfl
  · split <;> rfl

section Named

variable {buf after : RawBuffer} {k : MessageKey}

/-- In a sound buffer the entries are those that lookups find. -/
theorem RawBuffer.Sound.named_iff (h : buf.Sound) : buf.Named ↔
    ∀ j c head, buf.lookup j = some c → c.head = some head → head.key = j := by
  constructor
  · intro hnamed j c head hfound hhead
    obtain ⟨hmem, hkey⟩ := (h.wellFormed.lookup_eq_some_iff j c).mp hfound
    rw [← hkey]
    exact hnamed _ c hmem head hhead
  · intro hlookup i c hc head hhead
    exact hlookup c.key c head (h.wellFormed.lookup_of_mem hc) hhead

theorem RawBuffer.Named.insertWith (h : buf.Named) (hsound : buf.Sound) {mallocs : InsertMallocs}
    {c : InsertCall} {code : Int} (hresult : buf.insertWith mallocs k c = some (code, after)) :
    after.Named := by
  apply (hsound.insertWith hresult).named_iff.mpr
  intro j d head' hfound hhead
  rcases RawBuffer.insertWith_lookup hresult hfound hhead with
    hold | ⟨rfl, cell, head, hcell, hlist, rfl⟩ | ⟨rfl, _, rfl⟩
  · exact hsound.named_iff.mp h j d head' hold hhead
  · rw [insertIntoMslWith_key]
    exact hsound.named_iff.mp h j cell head hcell hlist
  · rw [insertIntoMslWith_key]
    rfl

/-- Entries that are kept keep their list. -/
theorem RawBuffer.Named.of_subset (h : buf.Named) (hsub : ∀ i, after.chain i ⊆ buf.chain i) :
    after.Named :=
  fun i c hc => h i c (hsub i hc)

theorem RawBuffer.Named.clear (h : buf.Named) {code : Int}
    (hresult : buf.clear k = some (code, after)) : after.Named := by
  rcases RawBuffer.clear_cases hresult with rfl | ⟨_, _, _, rfl⟩
  · exact h
  · refine h.of_subset fun i => ?_
    rw [RawBuffer.chain_setChain]
    by_cases hi : i = k.bucket
    · rw [hi, Function.update_self]
      exact List.eraseP_subset
    · rw [Function.update_of_ne hi]
      exact List.Subset.refl _

theorem RawBuffer.Named.swept (h : buf.Named) (now : Int) (visits : List (Fin sizeBuf)) :
    (buf.swept now visits).Named := by
  intro i c' hc' head' hhead'
  rw [RawBuffer.swept_chain] at hc'
  split at hc'
  · obtain ⟨c, hc, _, rfl⟩ := (mem_sweep_iff now).mp hc'
    obtain ⟨head, hhead, rfl⟩ := Option.map_eq_some_iff.mp hhead'
    rw [MessageSegmentList.cleanedUp_key]
    exact h i c hc head hhead
  · exact h i c' hc' head' hhead'

theorem RawBuffer.Named.cleanupLoop (h : buf.Named) (hsound : buf.Sound) {now : Int} {n : Nat}
    (hresult : buf.cleanupLoop now n = some after) : after.Named ∧ after.Sound := by
  induction n generalizing after with
  | zero =>
      obtain rfl := Option.some.inj hresult
      exact ⟨h, hsound⟩
  | succ n ih =>
      rw [RawBuffer.cleanupLoop_succ] at hresult
      obtain ⟨mid, hloop, hbucket⟩ := Option.bind_eq_some_iff.mp hresult
      obtain ⟨hnamed, hmid⟩ := ih hloop
      have hlists := RawBuffer.hasLists_of_cleanupBucket hbucket
      obtain rfl := Option.some.inj ((hmid.cleanupBucket_eq now hlists).symm.trans hbucket)
      refine ⟨hnamed.swept now _, hmid.swept fun i hi => ?_⟩
      rw [List.mem_singleton.mp hi]
      exact hlists

end Named

/-- In every reachable buffer the lists have the identifiers of their entries. -/
theorem VisitedBuffer.named_run {calls : List RawCall} {s : VisitedBuffer}
    (hrun : Runs.Run Step initial calls s) : s.buf.Named := by
  refine hrun.invariant (I := fun _ s => s.buf.Named) ?_ fun calls s call s' hrun h hstep => ?_
  · intro i c hc
    rw [initial, createSegmentBuffer.raw_chain] at hc
    exact absurd hc List.not_mem_nil
  · have hsound := (invariant_run hrun).sound
    cases call with
    | insert mallocs k c =>
        obtain ⟨⟨code, buf⟩, hresult, rfl⟩ := Option.map_eq_some_iff.mp hstep
        exact h.insertWith hsound hresult
    | clear k =>
        obtain ⟨⟨code, buf⟩, hresult, rfl⟩ := Option.map_eq_some_iff.mp hstep
        have hnamed := h.clear hresult
        exact fun i c hc => hnamed i c hc
    | cleanup now size =>
        obtain ⟨buf, hresult, rfl⟩ := Option.map_eq_some_iff.mp hstep
        obtain ⟨swept, hloop, rfl⟩ := Option.map_eq_some_iff.mp hresult
        exact (h.cleanupLoop hsound hloop).1
    | requestCleanup =>
        obtain rfl := Option.some.inj hstep
        exact h

section Walk

variable {i : Fin sizeBuf} {s s' : ClearedBuffer} {c : RawCell} {rest : List RawCell}

/-- The first cell of a bucket is unlinked. -/
theorem RawBuffer.Sound.tail {buf : RawBuffer} (h : buf.Sound) (hchain : buf.chain i = c :: rest)
    (hhead : c.head ≠ none) : (buf.setChain i rest).Sound := by
  have hmem : ∀ d ∈ rest, d ∈ buf.chain i := fun d hd => hchain ▸ List.mem_cons_of_mem c hd
  have hunique := h.wellFormed.unique i
  rw [hchain] at hunique
  refine h.ofUpdate (buf.chain_setChain i rest) (fun d hd => h.wellFormed.placed i d (hmem d hd))
    (List.nodup_cons.mp hunique).2 (fun _ _ => rfl) fun hlists => h.linked i fun d hd => ?_
  rw [hchain] at hd
  rcases List.mem_cons.mp hd with rfl | hd
  · exact hhead
  · exact hlists d hd

theorem RawBuffer.Named.tail {buf : RawBuffer} (h : buf.Named) (hchain : buf.chain i = c :: rest) :
    (buf.setChain i rest).Named := by
  refine h.of_subset fun j => ?_
  rw [RawBuffer.chain_setChain]
  by_cases hj : j = i
  · rw [hj, Function.update_self, hchain]
    exact List.subset_cons_self c rest
  · rw [Function.update_of_ne hj]
    exact List.Subset.refl _

/-- The walk frees the cell that it stands at. -/
theorem clearCollisionCell_eq (hsound : s.buf.Sound) (hnamed : s.buf.Named)
    (hheads : i ∉ s.heads) (hchain : s.buf.chain i = c :: rest) (hhead : c.head ≠ none) :
    clearCollisionCell i s c = some { s with
      res := s.res + 1
      freed := s.freed ++ [c]
      buf := s.buf.setChain i rest } := by
  obtain ⟨head, hhead⟩ := Option.ne_none_iff_exists'.mp hhead
  have hmem : c ∈ s.buf.chain i := hchain ▸ List.mem_cons_self
  have hkey : head.key = c.key := hnamed i c hmem head hhead
  have hbucket : s.buf.hashArray i ≠ none := by
    intro hnull
    rw [RawBuffer.chain, hnull] at hchain
    cases hchain
  have hplaced : c.key.bucket = i := hsound.wellFormed.placed i c hmem
  have hclear : s.buf.clear c.key = some (0, s.buf.setChain i rest) := by
    have hfirst := s.buf.clear_setChain (p := []) (s := rest) (c := c)
      (List.not_mem_nil) hhead
    rwa [List.nil_append, hplaced, ← hchain, s.buf.setChain_self i hbucket] at hfirst
  have hfound : s.buf.lookup c.key = some c := hsound.wellFormed.lookup_of_mem hmem
  have hlinked : ChainedTable.find RawCell.key c.key (s.buf.chain i) = some c := hplaced ▸ hfound
  have hkept : s.heads.any (· = i) = false := by
    rw [List.any_eq_false]
    exact fun j hj heq => hheads (of_decide_eq_true heq ▸ hj)
  unfold clearCollisionCell
  rw [hlinked, hhead]
  simp only [Option.isNone_some, Bool.false_eq_true, if_false, hkey, hplaced, hkept, hclear,
    hfound, Option.map_some, Option.toList_some]

/-- The walk along a collision list frees its cells in their order. -/
theorem foldlM_clearCollisionCell (chain : List RawCell) (s : ClearedBuffer)
    (hsound : s.buf.Sound) (hnamed : s.buf.Named) (hheads : i ∉ s.heads)
    (hchain : s.buf.chain i = chain) (hlists : ∀ c ∈ chain, c.head ≠ none)
    (hbucket : s.buf.hashArray i ≠ none) :
    chain.foldlM (clearCollisionCell i) s = some { s with
      res := s.res + chain.length
      freed := s.freed ++ chain
      buf := s.buf.setChain i [] } := by
  induction chain generalizing s with
  | nil =>
      have hself : s.buf.setChain i [] = s.buf := by rw [← hchain, s.buf.setChain_self i hbucket]
      rw [List.foldlM_nil, hself, List.append_nil, List.length_nil, Nat.cast_zero, add_zero]
      rfl
  | cons c rest ih =>
      have hhead := hlists c List.mem_cons_self
      have hrest := ih { s with
          res := s.res + 1
          freed := s.freed ++ [c]
          buf := s.buf.setChain i rest } (hsound.tail hchain hhead) (hnamed.tail hchain) hheads
        ((congrFun (s.buf.chain_setChain i rest) i).trans (Function.update_self _ _ _))
        (fun d hd => hlists d (List.mem_cons_of_mem c hd))
        (by simp only [RawBuffer.setChain, Function.update_self, ne_eq, reduceCtorEq,
          not_false_eq_true])
      rw [List.foldlM_cons, clearCollisionCell_eq hsound hnamed hheads hchain hhead,
        Option.bind_eq_bind, Option.bind_some, hrest]
      simp only [RawBuffer.setChain_setChain, List.append_assoc, List.singleton_append,
        List.length_cons, Nat.cast_succ, add_assoc, add_comm (1 : Int)]

/-- A walk that comes to its end finds a list in every entry. -/
theorem lists_of_clearCollisionCell {chain : List RawCell}
    (hwalk : chain.foldlM (clearCollisionCell i) s = some s') : ∀ c ∈ chain, c.head ≠ none := by
  induction chain generalizing s with
  | nil => exact fun c hc => absurd hc List.not_mem_nil
  | cons d rest ih =>
      rw [List.foldlM_cons] at hwalk
      obtain ⟨next, hcell, hrest⟩ := Option.bind_eq_some_iff.mp hwalk
      intro c hc hnull
      rcases List.mem_cons.mp hc with rfl | hc
      · rw [clearCollisionCell, hnull] at hcell
        split at hcell <;> cases hcell
      · exact ih hrest c hc hnull

end Walk

/-- A buffer that is being freed, with the buckets of `visits` cleared: their cells were
freed, in their order, and the other buckets are as they were. -/
structure ClearedBuffer.After (buf : RawBuffer) (visits : List (Fin sizeBuf))
    (s : ClearedBuffer) : Prop where
  sound : s.buf.Sound
  named : s.buf.Named
  freed : s.freed = visits.flatMap buf.chain
  res : s.res = s.freed.length
  heads : s.heads = visits.filter (fun i => (buf.hashArray i).isSome)
  cleared : ∀ i ∈ visits, s.buf.chain i = []
  others : ∀ i ∉ visits, s.buf.hashArray i = buf.hashArray i

namespace ClearedBuffer.After

variable {buf : RawBuffer} {visits : List (Fin sizeBuf)} {s s' : ClearedBuffer} {i : Fin sizeBuf}

theorem start (hsound : buf.Sound) (hnamed : buf.Named) : After buf [] ⟨0, [], [], buf⟩ where
  sound := hsound
  named := hnamed
  freed := rfl
  res := rfl
  heads := rfl
  cleared := fun _ hi => absurd hi List.not_mem_nil
  others := fun _ _ => rfl

theorem chain (h : After buf visits s) (hi : i ∉ visits) : s.buf.chain i = buf.chain i := by
  rw [RawBuffer.chain, h.others i hi, RawBuffer.chain]

/-- A bucket that is cleared has a list in every entry. -/
theorem hasLists (h : After buf visits s) (hi : i ∉ visits) (hresult : clearBucket s i = some s') :
    buf.HasLists i := by
  unfold RawBuffer.HasLists
  rw [← h.chain hi]
  unfold clearBucket at hresult
  split at hresult
  · next hnull =>
      intro c hc
      rw [RawBuffer.chain, hnull] at hc
      exact absurd hc List.not_mem_nil
  · obtain ⟨mid, hwalk, _⟩ := Option.bind_eq_some_iff.mp hresult
    exact lists_of_clearCollisionCell hwalk

/-- A bucket that has a list in every entry is cleared. -/
theorem step (h : After buf visits s) (hi : i ∉ visits) (hlists : buf.HasLists i) :
    ∃ s', clearBucket s i = some s' ∧ After buf (visits ++ [i]) s' := by
  have hchain := h.chain hi
  have hsame := h.others i hi
  unfold clearBucket
  by_cases hnull : s.buf.hashArray i = none
  · rw [if_pos hnull]
    have hempty : buf.chain i = [] := by
      rw [RawBuffer.chain, ← hsame, hnull]
      rfl
    refine ⟨s, rfl, h.sound, h.named, ?_, h.res, ?_, fun j hj => ?_, fun j hj => ?_⟩
    · rw [h.freed, List.flatMap_append, List.flatMap_singleton, hempty, List.append_nil]
    · rw [h.heads, List.filter_append, List.filter_singleton, ← hsame, hnull]
      exact (List.append_nil _).symm
    · rcases List.mem_append.mp hj with hj | hj
      · exact h.cleared j hj
      · rw [List.mem_singleton.mp hj, hchain, hempty]
    · exact h.others j fun hmem => hj (List.mem_append_left _ hmem)
  · have hheads : i ∉ s.heads := by
      rw [h.heads]
      exact fun hmem => hi (List.mem_of_mem_filter hmem)
    have hwalk := foldlM_clearCollisionCell (buf.chain i) s h.sound h.named hheads hchain hlists
      hnull
    have hlinked : s.buf.linked i = true := by
      refine h.sound.linked i ?_
      rw [RawBuffer.HasLists, hchain]
      exact hlists
    have hself : (s.buf.setChain i []).chain i = [] :=
      (congrFun (s.buf.chain_setChain i []) i).trans (Function.update_self _ _ _)
    have hother {j : Fin sizeBuf} (hj : j ≠ i) :
        (s.buf.setChain i []).hashArray j = s.buf.hashArray j := Function.update_of_ne hj _ _
    have hpresent : (buf.hashArray i).isSome = true := by
      rw [← hsame]
      exact Option.isSome_iff_ne_none.mpr hnull
    rw [if_neg hnull, clearCollisionList, hchain, hwalk, Option.bind_eq_bind, Option.bind_some]
    refine ⟨_, if_pos hlinked, ?_, ?_, ?_, ?_, ?_, fun j hj => ?_, fun j hj => ?_⟩
    · exact h.sound.ofUpdate (s.buf.chain_setChain i []) (fun c hc => absurd hc List.not_mem_nil)
        List.nodup_nil (fun _ _ => rfl) (fun _ => hlinked)
    · refine h.named.of_subset fun j => ?_
      by_cases hj : j = i
      · rw [hj, hself]
        exact List.nil_subset _
      · rw [RawBuffer.chain, hother hj]
        exact List.Subset.refl _
    · rw [h.freed, List.flatMap_append, List.flatMap_singleton]
    · rw [h.res, List.length_append, Nat.cast_add]
    · rw [h.heads, List.filter_append, List.filter_singleton, hpresent]
      rfl
    · rcases List.mem_append.mp hj with hj | hj
      · have hne : j ≠ i := fun heq => hi (heq ▸ hj)
        rw [RawBuffer.chain, hother hne]
        exact h.cleared j hj
      · rw [List.mem_singleton.mp hj, hself]
    · have hne : j ≠ i :=
        fun heq => hj (List.mem_append_right _ (List.mem_singleton.mpr heq))
      rw [hother hne]
      exact h.others j fun hmem => hj (List.mem_append_left _ hmem)

/-- Buckets are cleared one after the other as long as every entry has its list. -/
theorem run (buckets : List (Fin sizeBuf)) (h : After buf visits s)
    (hunique : (visits ++ buckets).Nodup) :
    (∀ s', buckets.foldlM clearBucket s = some s' → After buf (visits ++ buckets) s') ∧
      ((∃ s', buckets.foldlM clearBucket s = some s') ↔ ∀ i ∈ buckets, buf.HasLists i) := by
  induction buckets generalizing visits s with
  | nil =>
      refine ⟨fun s' hresult => ?_, iff_of_true ⟨s, rfl⟩ fun i hi => absurd hi List.not_mem_nil⟩
      obtain rfl := Option.some.inj hresult
      rwa [List.append_nil]
  | cons i rest ih =>
      have hi : i ∉ visits :=
        fun hmem => (List.nodup_append.mp hunique).2.2 i hmem i List.mem_cons_self rfl
      have hmove : visits ++ i :: rest = (visits ++ [i]) ++ rest :=
        (List.append_cons visits i rest)
      rw [hmove] at hunique ⊢
      by_cases hlists : buf.HasLists i
      · obtain ⟨next, hbucket, hafter⟩ := h.step hi hlists
        obtain ⟨hspec, hiff⟩ := ih hafter hunique
        rw [List.foldlM_cons, hbucket, Option.bind_eq_bind, Option.bind_some]
        refine ⟨hspec, hiff.trans ?_⟩
        rw [List.forall_mem_cons]
        exact (and_iff_right hlists).symm
      · have hnone : clearBucket s i = none := by
          apply Option.eq_none_iff_forall_ne_some.mpr
          exact fun next hbucket => hlists (h.hasLists hi hbucket)
        rw [List.foldlM_cons, hnone, Option.bind_eq_bind, Option.bind_none]
        refine ⟨by rintro _ ⟨⟩, iff_of_false (by rintro ⟨_, ⟨⟩⟩) fun hall => ?_⟩
        exact hlists (hall i List.mem_cons_self)

/-- A buffer is freed where every entry of every bucket has its list. -/
theorem finish (hsound : buf.Sound) (hnamed : buf.Named) :
    (∀ cleared, clearBuffer buf = some cleared → After buf (List.finRange sizeBuf) cleared) ∧
      ((∃ cleared, clearBuffer buf = some cleared) ↔
        ∀ i ∈ List.finRange sizeBuf, buf.HasLists i) := by
  have hunique : ([] ++ List.finRange sizeBuf).Nodup := by
    rw [List.nil_append]
    exact List.nodup_finRange sizeBuf
  have hrun := (start hsound hnamed).run (List.finRange sizeBuf) hunique
  rwa [List.nil_append] at hrun

end ClearedBuffer.After

/-- The cells of all buckets. -/
def RawBuffer.cells (buf : RawBuffer) : List RawCell := (List.finRange sizeBuf).flatMap buf.chain

end UdpNotif
