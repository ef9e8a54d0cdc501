import UdpNotif.Lib.Runs
import UdpNotif.SegmentationBuffer.RawCleanup

/-!
One clean up pass over any reachable buffer. It does what it is meant to exactly if every
entry in its buckets has a list: an entry whose list could not be allocated stays behind
when `insert_segment` fails, and the pass goes through its `NULL` list.
-/

namespace UdpNotif

/-- A buffer with the visits of each message by clean up passes since it was entered. -/
structure VisitedBuffer where
  buf : RawBuffer
  visits : MessageKey → Nat

/-- What is done with a segment buffer. The caller that clears a message counts for it. -/
inductive RawCall where
  | insert (mallocs : InsertMallocs) (k : MessageKey) (c : InsertCall)
  | clear (k : MessageKey)
  | cleanup (now size : Int)
  | requestCleanup

namespace VisitedBuffer

/-- A new buffer. -/
def initial : VisitedBuffer := ⟨createSegmentBuffer.raw, fun _ => 0⟩

/-- What a call leads to, unless it is undefined. -/
def next (s : VisitedBuffer) : RawCall → Option VisitedBuffer
  | .insert mallocs k c => (s.buf.insertWith mallocs k c).map fun (_, buf) =>
      { buf
        visits := if s.buf.lookup k = none then Function.update s.visits k 0 else s.visits }
  | .clear k => (s.buf.clear k).map fun (_, buf) =>
      { s with buf := { buf with count := buf.count - 1 } }
  | .cleanup now size => (s.buf.cleanupSegBuff now size).map fun buf =>
      { buf
        visits := fun k => s.visits k +
          (visitedBuckets s.buf.cleanupStartIndex size.toNat).count k.bucket }
  | .requestCleanup => some { s with buf := { s.buf with cleanup := true } }

/-- A step of a segment buffer. -/
def Step (s : VisitedBuffer) (call : RawCall) (s' : VisitedBuffer) : Prop :=
  s.next call = some s'

end VisitedBuffer

/-- What one pass over `n` buckets does to a buffer with the visits of its messages. -/
structure PassSpec (now : Int) (n : Nat) (visits : MessageKey → Nat)
    (before after : RawBuffer) : Prop where
  swept : ∀ i ∈ visitedBuckets before.cleanupStartIndex n, after.chain i =
    ((before.chain i).filter (fun c => !c.expired now)).map (RawCell.cleanedUp now)
  others : ∀ i ∉ visitedBuckets before.cleanupStartIndex n,
    after.hashArray i = before.hashArray i
  kept : ∀ k c' head', after.lookup k = some c' → c'.head = some head' →
    ∃ c head, before.lookup k = some c ∧ c.head = some head ∧ MessageKept head head'
  count : after.count = before.count -
    .ofNat 32 ((visitedBuckets before.cleanupStartIndex n).map fun i =>
      (before.chain i).countP (RawCell.expired now)).sum
  thirdVisit : ∀ k, before.lookup k ≠ none → after.lookup k = none → 2 ≤ visits k

/-- A marked list was visited, a stamped one was visited twice. -/
def CountsVisits (buf : RawBuffer) (visits : MessageKey → Nat) : Prop :=
  ∀ k c head, buf.lookup k = some c → c.head = some head →
    (head.toCleanUp = true → 1 ≤ visits k) ∧ (head.timestamp ≠ 0 → 2 ≤ visits k)

section Swept

variable {buf : RawBuffer} {buckets : List (Fin sizeBuf)} {k : MessageKey} {c : RawCell}

/-- What a lookup finds after some buckets were swept. -/
theorem RawBuffer.Sound.swept_lookup (h : buf.Sound) (now : Int)
    (hlists : ∀ i ∈ buckets, buf.HasLists i) (k : MessageKey) (c' : RawCell) :
    (buf.swept now buckets).lookup k = some c' ↔
      if k.bucket ∈ buckets then
        ∃ c, buf.lookup k = some c ∧ c.expired now = false ∧ c.cleanedUp now = c'
      else buf.lookup k = some c' := by
  unfold RawBuffer.lookup
  rw [(h.swept hlists).wellFormed.lookup_eq_some_iff, RawBuffer.swept_chain]
  simp only [h.wellFormed.lookup_eq_some_iff]
  split
  · rw [mem_sweep_iff]
    constructor
    · rintro ⟨⟨c, hc, hkept, rfl⟩, hkey⟩
      exact ⟨c, ⟨hc, hkey⟩, hkept, rfl⟩
    · rintro ⟨c, ⟨hc, hkey⟩, hkept, rfl⟩
      exact ⟨⟨c, hc, hkept, rfl⟩, hkey⟩
  · exact Iff.rfl

/-- An entry that is not found any more was expired. -/
theorem RawBuffer.Sound.expired_of_swept (h : buf.Sound) {now : Int}
    (hlists : ∀ i ∈ buckets, buf.HasLists i) (hstored : buf.lookup k = some c)
    (hremoved : (buf.swept now buckets).lookup k = none) : c.expired now = true := by
  by_contra hkept
  by_cases hmem : k.bucket ∈ buckets
  · have hfound := (h.swept_lookup now hlists k (c.cleanedUp now)).mpr
      (by rw [if_pos hmem]; exact ⟨c, hstored, by simpa using hkept, rfl⟩)
    rw [hremoved] at hfound
    cases hfound
  · have hfound := (h.swept_lookup now hlists k c).mpr (by rw [if_neg hmem]; exact hstored)
    rw [hremoved] at hfound
    cases hfound

/-- An expired list was visited twice before. -/
theorem CountsVisits.expired {now : Int} {visits : MessageKey → Nat} (h : CountsVisits buf visits)
    (hstored : buf.lookup k = some c) (hexpired : c.expired now = true) : 2 ≤ visits k := by
  obtain ⟨head, hhead, hlate⟩ := (Option.any_eq_true _ _).mp hexpired
  rw [MessageSegmentList.expired, Bool.and_eq_true, decide_eq_true_eq] at hlate
  exact (h k c head hstored hhead).2 hlate.2.1

/-- Visits of a bucket are counted for its messages. -/
theorem CountsVisits.swept {visits : MessageKey → Nat} (h : CountsVisits buf visits)
    (hsound : buf.Sound) (now : Int) {i : Fin sizeBuf} (hlists : buf.HasLists i) :
    CountsVisits (buf.swept now [i]) (fun k => visits k + [i].count k.bucket) := by
  intro k c' head' hfound hhead
  rw [hsound.swept_lookup now (fun j hj => by rw [List.mem_singleton.mp hj]; exact hlists)]
    at hfound
  split at hfound
  · rename_i hmem
    have hi : k.bucket = i := List.mem_singleton.mp hmem
    obtain ⟨c, hstored, _, rfl⟩ := hfound
    obtain ⟨head, hold, rfl⟩ := Option.map_eq_some_iff.mp hhead
    obtain ⟨hmarked, hstamped⟩ := h k c head hstored hold
    have hone : [i].count k.bucket = 1 := by rw [hi, List.count_singleton_self]
    dsimp only
    rw [hone]
    refine ⟨fun _ => Nat.le_add_left 1 _, fun hstamp => ?_⟩
    -- the stamp is older, or it was set on a list that was marked before
    rw [MessageSegmentList.cleanedUp] at hstamp
    split at hstamp
    · have htwo := hstamped hstamp
      omega
    · rename_i hmark
      have hvisited := hmarked (by simpa using hmark)
      omega
  · obtain ⟨hmarked, hstamped⟩ := h k c' head' hfound hhead
    exact ⟨fun hmark => Nat.le_add_right_of_le (hmarked hmark),
      fun hstamp => Nat.le_add_right_of_le (hstamped hstamp)⟩

/-- A pass over buckets whose entries have their list meets its specification. -/
theorem RawBuffer.Sound.passSpec (h : buf.Sound) {visits : MessageKey → Nat}
    (hvisits : CountsVisits buf visits) {now : Int} {n : Nat}
    (hlists : ∀ i ∈ visitedBuckets buf.cleanupStartIndex n, buf.HasLists i)
    {after : RawBuffer} (hbuckets : after.hashArray =
      (buf.swept now (visitedBuckets buf.cleanupStartIndex n)).hashArray)
    (hcount : after.count = (buf.swept now (visitedBuckets buf.cleanupStartIndex n)).count) :
    PassSpec now n visits buf after := by
  have hchain : after.chain =
      (buf.swept now (visitedBuckets buf.cleanupStartIndex n)).chain := by
    funext i
    rw [RawBuffer.chain, hbuckets]
    rfl
  have hlookup (k : MessageKey) : after.lookup k =
      (buf.swept now (visitedBuckets buf.cleanupStartIndex n)).lookup k := by
    rw [RawBuffer.lookup, hchain]
    rfl
  refine ⟨fun i hi => ?_, fun i hi => ?_, fun k c' head' hfound hhead => ?_, hcount,
    fun k hstored hremoved => ?_⟩
  · rw [hchain, RawBuffer.swept_chain, if_pos hi]
    rfl
  · rw [hbuckets]
    exact if_neg hi
  · rw [hlookup, h.swept_lookup now hlists] at hfound
    split at hfound
    · obtain ⟨c, hstored, _, rfl⟩ := hfound
      obtain ⟨head, hold, rfl⟩ := Option.map_eq_some_iff.mp hhead
      exact ⟨c, head, hstored, hold, head.cleanedUp_kept now⟩
    · exact ⟨c', head', hfound, hhead, MessageKept.refl head'⟩
  · obtain ⟨c, hc⟩ := Option.ne_none_iff_exists'.mp hstored
    rw [hlookup] at hremoved
    exact hvisits.expired hc (h.expired_of_swept hlists hc hremoved)

end Swept

/-- An insert changes neither the mark nor the stamp of a list. -/
theorem insertIntoMslWith_marks (mallocs : InsertMallocs) (head : MessageSegmentList)
    (c : InsertCall) :
    (insertIntoMslWith mallocs head c).2.toCleanUp = head.toCleanUp ∧
      (insertIntoMslWith mallocs head c).2.timestamp = head.timestamp := by
  have hlink (head : MessageSegmentList) (cells : List MessageSegmentCell) :
      (linkSegmentWith mallocs.optionsHead head cells c.payloadSize c.options).2.toCleanUp =
          head.toCleanUp ∧
        (linkSegmentWith mallocs.optionsHead head cells c.payloadSize c.options).2.timestamp =
          head.timestamp := by
    cases c.options with
    | none => exact ⟨rfl, rfl⟩
    | some added =>
        simp only [linkSegmentWith, appendOptionsWith]
        split <;> exact ⟨rfl, rfl⟩
  simp only [insertIntoMslWith, c.announce_eq]
  split
  · split
    · exact hlink _ _
    · exact ⟨rfl, rfl⟩
  · split
    · exact ⟨rfl, rfl⟩
    · split
      · exact hlink _ _
      · exact ⟨rfl, rfl⟩

theorem RawCell.withHead_key (head : MessageSegmentList) (c : RawCell) :
    (c.withHead head).key = c.key := rfl

section Calls

variable {buf after : RawBuffer} {k : MessageKey}

/-- A bucket gets other cells. -/
theorem RawBuffer.Sound.ofUpdate (h : buf.Sound) {i : Fin sizeBuf} {chain : List RawCell}
    (hchain : after.chain = Function.update buf.chain i chain)
    (hplaced : ∀ c ∈ chain, c.key.bucket = i) (hunique : (chain.map RawCell.key).Nodup)
    (hother : ∀ j, j ≠ i → after.linked j = buf.linked j)
    (hlinked : (∀ c ∈ chain, c.head ≠ none) → after.linked i = true) : after.Sound := by
  refine ⟨?_, fun j hj => ?_⟩
  · rw [hchain]
    exact h.wellFormed.update i hplaced hunique
  · unfold RawBuffer.HasLists at hj
    rw [hchain] at hj
    by_cases heq : j = i
    · subst heq
      rw [Function.update_self] at hj
      exact hlinked hj
    · rw [Function.update_of_ne heq] at hj
      rw [hother j heq]
      exact h.linked j hj

/-- A new cell at the end of its bucket. -/
theorem RawBuffer.Sound.concat (h : buf.Sound) (hnone : buf.lookup k = none)
    {head : Option MessageSegmentList}
    (hchain : after.chain =
      Function.update buf.chain k.bucket (buf.chain k.bucket ++ [⟨k.1, k.2, head⟩]))
    (hother : ∀ j, j ≠ k.bucket → after.linked j = buf.linked j)
    (hlinked : head ≠ none → after.linked k.bucket = true) : after.Sound := by
  have hfresh : k ∉ (buf.chain k.bucket).map RawCell.key :=
    (ChainedTable.find_eq_none_iff _ _).mp hnone
  refine h.ofUpdate hchain (fun c hc => ?_) ?_ hother (fun hlists => hlinked ?_)
  · rcases List.mem_append.mp hc with hc | hc
    · exact h.wellFormed.placed _ c hc
    · rw [List.mem_singleton.mp hc]
      rfl
  · rw [List.map_append, List.map_singleton]
    exact (List.perm_append_singleton _ _).nodup_iff.mpr
      (List.nodup_cons.mpr ⟨hfresh, h.wellFormed.unique _⟩)
  · exact hlists _ (List.mem_append_right _ (List.mem_singleton_self _))

theorem RawBuffer.Sound.insertWith (h : buf.Sound) {mallocs : InsertMallocs} {c : InsertCall}
    {code : Int} (hresult : buf.insertWith mallocs k c = some (code, after)) : after.Sound := by
  rcases RawBuffer.insertWith_eq_some hresult with ⟨_, _, rfl⟩ | ⟨_, hcase⟩
  · exact h
  · rcases hcase with ⟨found, head, hfound, hhead, _, rfl⟩ | ⟨hnone, hlinked, hcase⟩
    · have hkeys : (ChainedTable.adjust RawCell.key k
          (RawCell.withHead (insertIntoMslWith mallocs head c).2) (buf.chain k.bucket)).map
            RawCell.key = (buf.chain k.bucket).map RawCell.key :=
        ChainedTable.keys_adjust (RawCell.withHead_key _) _
      refine h.ofUpdate (buf.chain_setChain _ _) (h.wellFormed.placed_of_keys _ fun j hj => ?_)
        (hkeys ▸ h.wellFormed.unique _) (fun _ _ => rfl) (fun hlists => ?_)
      · exact Or.inl (hkeys ▸ hj)
      · refine h.linked _ (fun d hd hnull => ?_)
        refine hlists d (ChainedTable.mem_adjust_of_find_ne hd fun hsame => ?_) hnull
        obtain rfl : found = d := Option.some.inj (hfound.symm.trans hsame)
        rw [hhead] at hnull
        cases hnull
    · rcases hcase with ⟨_, _, rfl⟩ | ⟨_, _, _, rfl⟩ | ⟨_, _, _, rfl⟩
      · exact h.ofUpdate (buf.chain_setChain _ _) (h.wellFormed.placed _) (h.wellFormed.unique _)
          (fun _ _ => rfl) (fun _ => hlinked)
      · exact h.concat hnone (buf.chain_setChain _ _)
          (fun j hj => Function.update_of_ne hj _ _) (fun hnot => absurd rfl hnot)
      · exact h.concat hnone (buf.chain_setChain _ _) (fun _ _ => rfl) (fun _ => hlinked)

theorem RawBuffer.lookup_setChain (buf : RawBuffer) (i : Fin sizeBuf) (chain : List RawCell)
    (j : MessageKey) : (buf.setChain i chain).lookup j =
      if j.bucket = i then ChainedTable.find RawCell.key j chain else buf.lookup j := by
  rw [RawBuffer.lookup, RawBuffer.chain_setChain, ChainedTable.lookup_update]
  rfl

/-- A bucket changes only in the cell of one key. -/
theorem RawBuffer.lookup_setChain_of_ne {chain : List RawCell} {j : MessageKey}
    (hsame : ChainedTable.find RawCell.key j chain =
      ChainedTable.find RawCell.key j (buf.chain k.bucket)) :
    (buf.setChain k.bucket chain).lookup j = buf.lookup j := by
  rw [RawBuffer.lookup_setChain, hsame]
  split
  · rename_i hbucket
    rw [RawBuffer.lookup, ChainedTable.lookup, hbucket]
  · rfl

/-- A new cell is found under its own key, all others as before. -/
theorem RawBuffer.lookup_concat (hnone : buf.lookup k = none) (head : Option MessageSegmentList)
    (j : MessageKey) :
    (buf.setChain k.bucket (buf.chain k.bucket ++ [⟨k.1, k.2, head⟩])).lookup j =
      if j = k then some ⟨k.1, k.2, head⟩ else buf.lookup j := by
  by_cases hj : j = k
  · subst hj
    have hfind : ChainedTable.find RawCell.key j (buf.chain j.bucket) = none := hnone
    rw [RawBuffer.lookup_setChain, if_pos rfl, if_pos rfl, ChainedTable.find_concat, hfind,
      Option.none_or]
    exact if_pos rfl
  · have hkey : ¬ RawCell.key ⟨k.1, k.2, head⟩ = j := Ne.symm hj
    rw [if_neg hj]
    apply RawBuffer.lookup_setChain_of_ne
    rw [ChainedTable.find_concat, if_neg hkey, Option.or_none]

/-- What a lookup finds after an insert: what it found before, or a list that the call has
written. -/
theorem RawBuffer.insertWith_lookup {mallocs : InsertMallocs} {c : InsertCall} {code : Int}
    (hresult : buf.insertWith mallocs k c = some (code, after)) {j : MessageKey} {d : RawCell}
    {head' : MessageSegmentList} (hfound : after.lookup j = some d) (hhead : d.head = some head') :
    buf.lookup j = some d ∨
      (j = k ∧ ∃ cell head, buf.lookup k = some cell ∧ cell.head = some head ∧
        head' = (insertIntoMslWith mallocs head c).2) ∨
      (j = k ∧ buf.lookup k = none ∧
        head' = (insertIntoMslWith mallocs (createMessageSegmentList k.1 k.2) c).2) := by
  rcases RawBuffer.insertWith_eq_some hresult with ⟨_, _, rfl⟩ | ⟨_, hcase⟩
  · exact Or.inl hfound
  · rcases hcase with ⟨cell, head, hcell, hlist, _, rfl⟩ | ⟨hnone, _, hcase⟩
    · by_cases hj : j = k
      · subst hj
        have hfind : ChainedTable.find RawCell.key j (buf.chain j.bucket) = some cell := hcell
        rw [RawBuffer.lookup_setChain, if_pos rfl,
          ChainedTable.find_adjust_self (RawCell.withHead_key _), hfind] at hfound
        obtain rfl := Option.some.inj hfound
        exact Or.inr (Or.inl ⟨rfl, cell, head, hcell, hlist, (Option.some.inj hhead).symm⟩)
      · rw [RawBuffer.lookup_setChain_of_ne
          (ChainedTable.find_adjust_other (RawCell.withHead_key _) hj _)] at hfound
        exact Or.inl hfound
    · rcases hcase with ⟨_, _, rfl⟩ | ⟨_, _, _, rfl⟩ | ⟨_, _, _, rfl⟩
      · rw [RawBuffer.lookup_setChain_of_ne rfl] at hfound
        exact Or.inl hfound
      · have hwithout : (buf.withoutList k).lookup j = _ := RawBuffer.lookup_concat hnone none j
        rw [hwithout] at hfound
        split at hfound
        · obtain rfl := Option.some.inj hfound
          cases hhead
        · exact Or.inl hfound
      · have hnew := RawBuffer.lookup_concat hnone
          (some (insertIntoMslWith mallocs (createMessageSegmentList k.1 k.2) c).2) j
        change RawBuffer.lookup (buf.setChain _ _) j = _ at hfound
        rw [hnew] at hfound
        split at hfound
        · rename_i hj
          obtain rfl := Option.some.inj hfound
          exact Or.inr (Or.inr ⟨hj, hnone, (Option.some.inj hhead).symm⟩)
        · exact Or.inl hfound

/-- Clearing a message keeps the others. -/
theorem RawBuffer.clear_cases {code : Int} (hresult : buf.clear k = some (code, after)) :
    after = buf ∨ (∃ cell, buf.lookup k = some cell ∧ cell.head ≠ none ∧
      after = buf.setChain k.bucket (ChainedTable.remove RawCell.key k (buf.chain k.bucket))) := by
  simp only [RawBuffer.clear] at hresult
  split at hresult
  · exact Or.inl (Prod.mk.inj (Option.some.inj hresult)).2.symm
  · split at hresult
    · split at hresult
      · exact Or.inl (Prod.mk.inj (Option.some.inj hresult)).2.symm
      · cases hresult
    · rename_i cell hfound
      obtain ⟨head, hhead, heq⟩ := Option.map_eq_some_iff.mp hresult
      exact Or.inr ⟨cell, hfound, hhead ▸ Option.some_ne_none head, (Prod.mk.inj heq).2.symm⟩

theorem CountsVisits.insertWith {visits : MessageKey → Nat} (h : CountsVisits buf visits)
    {mallocs : InsertMallocs} {c : InsertCall} {code : Int}
    (hresult : buf.insertWith mallocs k c = some (code, after)) :
    CountsVisits after
      (if buf.lookup k = none then Function.update visits k 0 else visits) := by
  intro j d head' hfound hhead
  rcases RawBuffer.insertWith_lookup hresult hfound hhead with
    hold | ⟨rfl, cell, head, hcell, hlist, rfl⟩ | ⟨rfl, hnone, rfl⟩
  · have hsame : (if buf.lookup k = none then Function.update visits k 0 else visits) j =
        visits j := by
      split
      · rename_i hnone
        have hne : j ≠ k := by
          rintro rfl
          rw [hnone] at hold
          cases hold
        exact Function.update_of_ne hne _ _
      · rfl
    rw [hsame]
    exact h j d head' hold hhead
  · obtain ⟨hmark, hstamp⟩ := insertIntoMslWith_marks mallocs head c
    have hstored : ¬ buf.lookup j = none := by
      rw [hcell]
      exact Option.some_ne_none cell
    rw [if_neg hstored, hmark, hstamp]
    exact h j cell head hcell hlist
  · obtain ⟨hmark, hstamp⟩ := insertIntoMslWith_marks mallocs (createMessageSegmentList j.1 j.2) c
    rw [hmark, hstamp]
    exact ⟨fun hmarked => (by cases hmarked), fun hstamped => absurd rfl hstamped⟩

theorem RawBuffer.Sound.clear (h : buf.Sound) {code : Int}
    (hresult : buf.clear k = some (code, after)) : after.Sound := by
  rcases RawBuffer.clear_cases hresult with rfl | ⟨cell, hfound, hhead, rfl⟩
  · exact h
  · have hsublist : ((ChainedTable.remove RawCell.key k (buf.chain k.bucket)).map
        RawCell.key).Sublist ((buf.chain k.bucket).map RawCell.key) :=
      ChainedTable.keys_remove_sublist k _
    refine h.ofUpdate (buf.chain_setChain _ _)
      (h.wellFormed.placed_of_keys _ fun j hj => Or.inl (hsublist.subset hj))
      (hsublist.nodup (h.wellFormed.unique _)) (fun _ _ => rfl) (fun hlists => ?_)
    refine h.linked _ (fun d hd hnull => ?_)
    -- a cell without a list is not the one that was cleared
    have hstored : buf.lookup d.key = some d := h.wellFormed.lookup_of_mem hd
    have hne : ¬ decide (d.key = k) = true := by
      intro hkey
      rw [of_decide_eq_true hkey, hfound] at hstored
      rw [Option.some.inj hstored] at hhead
      exact hhead hnull
    exact hlists d ((List.mem_eraseP_of_neg (p := fun c => decide (RawCell.key c = k)) hne).mpr hd)
      hnull

/-- What is found after a message was cleared was found before. -/
theorem RawBuffer.Sound.lookup_of_clear (h : buf.Sound) {code : Int}
    (hresult : buf.clear k = some (code, after)) {j : MessageKey} {d : RawCell}
    (hfound : after.lookup j = some d) : buf.lookup j = some d := by
  rcases RawBuffer.clear_cases hresult with rfl | ⟨cell, _, _, rfl⟩
  · exact hfound
  · by_cases hj : j = k
    · subst hj
      rw [RawBuffer.lookup_setChain, if_pos rfl,
        ChainedTable.find_remove_self j (h.wellFormed.unique _)] at hfound
      cases hfound
    · rwa [RawBuffer.lookup_setChain_of_ne (ChainedTable.find_remove_other hj _)] at hfound

theorem CountsVisits.clear {visits : MessageKey → Nat} (h : CountsVisits buf visits)
    (hsound : buf.Sound) {code : Int} (hresult : buf.clear k = some (code, after)) :
    CountsVisits after visits := by
  intro j d head hfound hhead
  exact h j d head (hsound.lookup_of_clear hresult hfound) hhead

/-- A loop over any number of buckets, which may come to a bucket more than once. -/
theorem CountsVisits.cleanupLoop {visits : MessageKey → Nat} (h : CountsVisits buf visits)
    (hsound : buf.Sound) {now : Int} {n : Nat} (hresult : buf.cleanupLoop now n = some after) :
    after.Sound ∧ after.cleanupStartIndex = buf.cleanupStartIndex ∧ CountsVisits after
      (fun k => visits k + (visitedBuckets buf.cleanupStartIndex n).count k.bucket) := by
  induction n generalizing after with
  | zero =>
      obtain rfl := Option.some.inj hresult
      exact ⟨hsound, rfl, h⟩
  | succ n ih =>
      rw [RawBuffer.cleanupLoop_succ] at hresult
      obtain ⟨mid, hloop, hbucket⟩ := Option.bind_eq_some_iff.mp hresult
      obtain ⟨hmid, hstart, hcounts⟩ := ih hloop
      have hlists := RawBuffer.hasLists_of_cleanupBucket hbucket
      obtain rfl := Option.some.inj ((hmid.cleanupBucket_eq now hlists).symm.trans hbucket)
      refine ⟨hmid.swept (fun i hi => by rw [List.mem_singleton.mp hi]; exact hlists), hstart, ?_⟩
      have hvisits := hcounts.swept hmid now hlists
      simp only [visitedBuckets_succ, List.count_append, ← Nat.add_assoc]
      rw [hstart] at hvisits ⊢
      exact hvisits

end Calls

namespace VisitedBuffer

variable {s s' : VisitedBuffer} {calls : List RawCall}

/-- The buffer is sound and its marks count the visits. -/
structure Invariant (s : VisitedBuffer) : Prop where
  sound : s.buf.Sound
  counts : CountsVisits s.buf s.visits

theorem initial_invariant : initial.Invariant where
  sound := by
    refine ⟨?_, fun _ _ => rfl⟩
    rw [initial, funext createSegmentBuffer.raw_chain]
    exact ChainedTable.wellFormed_empty
  counts := by
    intro k c head hfound
    cases hfound

theorem Invariant.step {call : RawCall} (h : s.Invariant) (hstep : Step s call s') :
    s'.Invariant := by
  cases call with
  | insert mallocs k c =>
      obtain ⟨⟨code, buf⟩, hresult, rfl⟩ := Option.map_eq_some_iff.mp hstep
      exact ⟨h.sound.insertWith hresult, h.counts.insertWith hresult⟩
  | clear k =>
      obtain ⟨⟨code, buf⟩, hresult, rfl⟩ := Option.map_eq_some_iff.mp hstep
      have hsound := h.sound.clear hresult
      have hcounts := h.counts.clear h.sound hresult
      exact ⟨⟨hsound.wellFormed, hsound.linked⟩, hcounts⟩
  | cleanup now size =>
      obtain ⟨buf, hresult, rfl⟩ := Option.map_eq_some_iff.mp hstep
      obtain ⟨swept, hloop, rfl⟩ := Option.map_eq_some_iff.mp hresult
      obtain ⟨hsound, _, hcounts⟩ := h.counts.cleanupLoop h.sound hloop
      exact ⟨⟨hsound.wellFormed, hsound.linked⟩, hcounts⟩
  | requestCleanup =>
      obtain rfl := Option.some.inj hstep
      exact ⟨⟨h.sound.wellFormed, h.sound.linked⟩, h.counts⟩

theorem invariant_run (hrun : Runs.Run Step initial calls s) : s.Invariant :=
  hrun.invariant (I := fun _ s => s.Invariant) initial_invariant
    (fun _ _ _ _ _ h hstep => h.step hstep)

/-- A pass over no more than all buckets of a reachable buffer does what it is meant to
exactly if every entry in these buckets has its list. -/
theorem cleanup_pass_iff (hrun : Runs.Run Step initial calls s) (now size : Int)
    (hsize : size ≤ sizeBuf) :
    (∃ after, s.buf.cleanupSegBuff now size = some after ∧
      PassSpec now size.toNat s.visits s.buf after) ↔
    ∀ i ∈ visitedBuckets s.buf.cleanupStartIndex size.toNat, ∀ c ∈ s.buf.chain i,
      c.head ≠ none := by
  obtain ⟨hsound, hcounts⟩ := invariant_run hrun
  have hn : size.toNat ≤ sizeBuf := by omega
  constructor
  · rintro ⟨after, hresult, _⟩
    obtain ⟨swept, hloop, _⟩ := Option.map_eq_some_iff.mp hresult
    exact ((hsound.cleanupLoop_eq_some_iff now hn).mp hloop).1
  · intro hlists
    have hloop := (hsound.cleanupLoop_eq_some_iff now hn).mpr ⟨hlists, rfl⟩
    exact ⟨_, Option.map_eq_some_iff.mpr ⟨_, hloop, rfl⟩, hsound.passSpec hcounts hlists rfl rfl⟩

/-- The first segment of a new buffer. -/
theorem run_first_segment (mallocs : InsertMallocs) : ∃ s,
    Runs.Run Step initial [.insert mallocs (0, 0) oneByteSegment] s ∧
      s.buf = (createSegmentBuffer.insertWith mallocs (0, 0) oneByteSegment).2 := by
  have hresult := createSegmentBuffer.raw_insertWith mallocs (0, 0) oneByteSegment
  have hstep : Step initial (.insert mallocs (0, 0) oneByteSegment) _ :=
    Option.map_eq_some_iff.mpr ⟨_, hresult, rfl⟩
  exact ⟨_, Runs.Run.nil.snoc hstep, rfl⟩

/-- Of three messages the first was visited twice, the second once and the third, in the
bucket of the first, not yet. -/
def threeMessages : List RawCall :=
  [.cleanup 1 0, .insert .all (0, 244) oneByteSegment, .cleanup 1 25,
    .insert .all (0, 240) oneByteSegment, .cleanup 2 25,
    .insert .all (0, 10244) oneByteSegment, .requestCleanup]

/-- What a pass sees of a message: whether it is marked, and its stamp. -/
def marksOf (buf : RawBuffer) (k : MessageKey) : Option (Option (Bool × Int)) :=
  (buf.lookup k).map fun c => c.head.map fun head => (head.toCleanUp, head.timestamp)

/-- A pass four seconds after the stamp removes the first, stamps the second and marks the
third. -/
theorem cleanup_pass_three_messages : ∃ (s : VisitedBuffer) (after : RawBuffer),
    Runs.Run Step initial threeMessages s ∧ s.buf.cleanupSegBuff 6 25 = some after ∧
      after.lookup (0, 244) = none ∧ marksOf after (0, 240) = some (some (true, 6)) ∧
      marksOf after (0, 10244) = some (some (true, 0)) ∧
      PassSpec 6 (Int.toNat 25) s.visits s.buf after := by
  have hcomputed : ((threeMessages.foldlM next initial).any fun s =>
      (s.buf.cleanupSegBuff 6 25).any fun after => decide (after.lookup (0, 244) = none ∧
        marksOf after (0, 240) = some (some (true, 6)) ∧
        marksOf after (0, 10244) = some (some (true, 0)))) = true := by decide +kernel
  obtain ⟨s, hevents, hpass⟩ := (Option.any_eq_true _ _).mp hcomputed
  obtain ⟨after, hresult, hmarks⟩ := (Option.any_eq_true _ _).mp hpass
  obtain ⟨hremoved, hstamped, hmarked⟩ := of_decide_eq_true hmarks
  have hrun : Runs.Run Step initial threeMessages s := Runs.run_iff_foldlM.mpr hevents
  obtain ⟨swept, hloop, _⟩ := Option.map_eq_some_iff.mp hresult
  have hlists := (((invariant_run hrun).sound.cleanupLoop_eq_some_iff 6 (by decide)).mp hloop).1
  obtain ⟨after', hresult', hspec⟩ := (cleanup_pass_iff hrun 6 25 (by decide)).mpr hlists
  obtain rfl := Option.some.inj (hresult.symm.trans hresult')
  exact ⟨s, after, hrun, hresult, hremoved, hstamped, hmarked, hspec⟩

/-- A message whose list could not be allocated stays behind without one, and the next pass
goes through it. -/
theorem cleanup_of_missing_list :
    ¬ ∀ calls s, Runs.Run Step initial calls s → ∀ now size : Int, 0 < now → 0 ≤ size →
      size ≤ sizeBuf → ∃ after, s.buf.cleanupSegBuff now size = some after ∧
        PassSpec now size.toNat s.visits s.buf after := by
  intro hclaim
  obtain ⟨s, hrun, hbuf⟩ := run_first_segment { InsertMallocs.all with messageList := false }
  obtain ⟨after, hresult, _⟩ := hclaim _ s hrun 1 1 (by decide) (by decide) (by decide)
  obtain ⟨swept, hloop, _⟩ := Option.map_eq_some_iff.mp hresult
  have hlists := (((invariant_run hrun).sound.cleanupLoop_eq_some_iff 1 (by decide)).mp hloop).1
  rw [hbuf] at hlists
  exact hlists (hashKey 0 0) (List.mem_singleton_self _) ⟨0, 0, none⟩ (List.mem_singleton_self _)
    rfl

/-- The buffers in which every entry has its list are among those that calls lead to. -/
theorem exists_run_of_reachable {buf : SegmentBuffer} (h : ReachableBuffer buf) :
    ∃ calls s, Runs.Run Step initial calls s ∧ s.buf = buf.raw := by
  induction h with
  | create => exact ⟨[], initial, .nil, rfl⟩
  | @insert buf buf' mallocs k c _ hafter ih =>
      obtain ⟨calls, s, hrun, hbuf⟩ := ih
      have hresult := buf.raw_insertWith mallocs k c
      rw [← hbuf] at hresult
      have hstep : Step s (.insert mallocs k c) _ := Option.map_eq_some_iff.mpr ⟨_, hresult, rfl⟩
      exact ⟨_, _, hrun.snoc hstep, hafter⟩
  | @clear buf k _ _ ih =>
      obtain ⟨calls, s, hrun, hbuf⟩ := ih
      have hresult := buf.raw_clear k
      rw [← hbuf] at hresult
      have hstep : Step s (.clear k) _ := Option.map_eq_some_iff.mpr ⟨_, hresult, rfl⟩
      have hcount : (clearSegmentList buf k.1 k.2).2.count = buf.count := by
        rw [clearSegmentList_eq]
        split <;> rfl
      refine ⟨_, _, hrun.snoc hstep, ?_⟩
      simp only [SegmentBuffer.raw, hcount]
  | @cleanup buf now size hreachable ih =>
      obtain ⟨calls, s, hrun, hbuf⟩ := ih
      have hresult := SegmentBuffer.raw_cleanupSegBuff hreachable.sound.wellFormed now size
      rw [← hbuf] at hresult
      have hstep : Step s (.cleanup now size) _ :=
        Option.map_eq_some_iff.mpr ⟨_, hresult, rfl⟩
      exact ⟨_, _, hrun.snoc hstep, rfl⟩
  | requestCleanup _ ih =>
      obtain ⟨calls, s, hrun, hbuf⟩ := ih
      have hstep : Step s .requestCleanup _ := rfl
      refine ⟨_, _, hrun.snoc hstep, ?_⟩
      rw [hbuf]
      rfl

end VisitedBuffer

end UdpNotif
