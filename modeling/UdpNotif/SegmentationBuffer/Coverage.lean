import UdpNotif.SegmentationBuffer.TimedBuffer

/-!
Which messages consecutive clean up passes reach. The start index of the next
pass is kept in eight bits, so the windows cycle through the first buckets only:
a message is removed in time if its bucket is visited often enough, and a
message in a higher bucket is never removed at all. A pass ends at an entry whose
list could not be allocated.
-/

namespace UdpNotif

/-- Consecutive clean up passes at the given clock readings. -/
def cleanupPasses (buf : RawBuffer) (readings : List Int) : Option RawBuffer :=
  readings.foldlM (fun buf now => buf.cleanupSegBuff now cleanUpPassSize) buf

/-- The readings of those passes, started at `start`, that visit bucket `i`. -/
def visitTimes (i : Fin sizeBuf) : Uint8 → List Int → List Int
  | _, [] => []
  | start, now :: readings =>
      if InWindow start i then now :: visitTimes i (nextStartIndex start) readings
      else visitTimes i (nextStartIndex start) readings

/-- How many of `n` passes, started at `start`, visit bucket `i`. -/
def visitCount (i : Fin sizeBuf) : Uint8 → Nat → Nat
  | _, 0 => 0
  | start, n + 1 => (if InWindow start i then 1 else 0) + visitCount i (nextStartIndex start) n

/-- Consecutive visits to a message list. -/
def visitAll : List Int → MessageSegmentList → Option MessageSegmentList
  | [], head => some head
  | now :: visits, head => (visitHead now head).bind (visitAll visits)

/-- Sixty clock readings in order, none before `clock`, where the last twenty
are more than `expireMsg` seconds after the twenty before them. -/
structure SixtyReadings (clock : Int) (readings : List Int) : Prop where
  length : readings.length = 3 * (sizeBuf / cleanUpPassSize)
  ordered : (clock :: readings).Pairwise (· ≤ ·)
  late : ∀ m ∈ (readings.drop 20).take 20, ∀ l ∈ readings.drop 40, expireMsg < l - m

/-- Sixty consecutive passes come to their end and remove the message. -/
def AbandonedRemoved (s : TimedBuffer) (k : MessageKey) : Prop :=
  ∀ readings, SixtyReadings s.clock readings →
    ∃ after, cleanupPasses s.buf readings = some after ∧ after.lookup k = none

/-- Every entry in the buckets that the sixty passes visit has its list. -/
def FindsLists (s : TimedBuffer) : Prop :=
  ∀ j < 3 * (sizeBuf / cleanUpPassSize), ∀ i,
    InWindow (nextStartIndex^[j] s.buf.cleanupStartIndex) i → s.buf.HasLists i

/-- The bucket of the message is visited often enough, for the marks the message
has already: to be marked and stamped in the first forty passes and to be found
overdue in the last twenty. Buckets 27 to 727 always are, those from 755 on never. -/
def SweptInTime (s : TimedBuffer) (k : MessageKey) (head : MessageSegmentList) : Prop :=
  let early := visitCount k.bucket s.buf.cleanupStartIndex 40
  let late := visitCount k.bucket (nextStartIndex^[40] s.buf.cleanupStartIndex) 20
  if head.toCleanUp = false then 2 ≤ early ∧ 1 ≤ late
  else if head.timestamp = 0 then 1 ≤ early ∧ 1 ≤ late
  else 1 ≤ late ∨ (1 ≤ early ∧ expireMsg < s.clock - head.timestamp)

/-- Passes come to their end exactly if all entries that they visit have their list. -/
theorem cleanupPasses_isSome_iff {buf : RawBuffer} (h : buf.Sound) (readings : List Int) :
    (∃ after, cleanupPasses buf readings = some after) ↔
      ∀ j < readings.length, ∀ i,
        InWindow (nextStartIndex^[j] buf.cleanupStartIndex) i → buf.HasLists i := by
  induction readings generalizing buf with
  | nil => exact iff_of_true ⟨buf, rfl⟩ (fun j hj => absurd hj (Nat.not_lt_zero j))
  | cons now readings ih =>
      rw [cleanupPasses, List.foldlM_cons, List.length_cons]
      constructor
      · rintro ⟨after, hpasses⟩ j hj i hi
        obtain ⟨mid, hpass, hrest⟩ := Option.bind_eq_some_iff.mp hpasses
        cases j with
        | zero => exact (h.cleanupSegBuff_eq_some_iff.mp hpass).1 i hi
        | succ j =>
            rw [Function.iterate_succ_apply, ← h.cleanupSegBuff_startIndex hpass] at hi
            have hlater := (ih (h.cleanupSegBuff_sound hpass)).mp ⟨after, hrest⟩
            exact (h.cleanupSegBuff_hasLists hpass i).mp
              (hlater j (Nat.lt_of_succ_lt_succ hj) i hi)
      · intro hlists
        have hpass : buf.cleanupSegBuff now cleanUpPassSize = some (buf.passed now) :=
          h.cleanupSegBuff_eq_some_iff.mpr ⟨fun i hi => hlists 0 (Nat.succ_pos _) i hi, rfl⟩
        rw [hpass]
        refine (ih (h.cleanupSegBuff_sound hpass)).mpr fun j hj i hi => ?_
        rw [h.cleanupSegBuff_startIndex hpass] at hi
        rw [h.cleanupSegBuff_hasLists hpass]
        exact hlists (j + 1) (Nat.succ_lt_succ hj) i (by rwa [Function.iterate_succ_apply])

/-- Passes visit the entry of a message at the readings for its bucket. -/
theorem cleanupPasses_lookup {buf after : RawBuffer} (h : buf.Sound) {readings : List Int}
    (hpasses : cleanupPasses buf readings = some after) (k : MessageKey) :
    after.lookup k = (buf.lookup k).bind fun c =>
      (visitTimes k.bucket buf.cleanupStartIndex readings).foldlM
        (fun c now => RawCell.visit now c) c := by
  induction readings generalizing buf with
  | nil =>
      obtain rfl := Option.some.inj hpasses
      exact (Option.bind_fun_some _).symm
  | cons now readings ih =>
      rw [cleanupPasses, List.foldlM_cons] at hpasses
      obtain ⟨mid, hpass, hrest⟩ := Option.bind_eq_some_iff.mp hpasses
      rw [ih (h.cleanupSegBuff_sound hpass) hrest, h.cleanupSegBuff_startIndex hpass,
        h.cleanupSegBuff_lookup hpass, visitTimes]
      by_cases hwindow : InWindow buf.cleanupStartIndex k.bucket
      · rw [if_pos hwindow, if_pos hwindow, Option.bind_assoc]
        rfl
      · rw [if_neg hwindow, if_neg hwindow]

/-- The visits of an entry are those of its list. -/
theorem RawCell.foldlM_visit {c : RawCell} {head : MessageSegmentList} (hhead : c.head = some head)
    (visits : List Int) :
    visits.foldlM (fun c now => RawCell.visit now c) c =
      (visitAll visits head).map fun head => c.withHead head := by
  induction visits generalizing c head with
  | nil =>
      obtain ⟨odid, mid, list⟩ := c
      obtain rfl := hhead
      rfl
  | cons now visits ih =>
      rw [List.foldlM_cons, RawCell.visit_eq now hhead, visitAll]
      cases hvisit : visitHead now head with
      | none => rfl
      | some visited => exact ih rfl

theorem visitTimes_eq_nil {i : Fin sizeBuf} {start : Uint8} {readings : List Int}
    (hnone : ∀ j < readings.length, ¬ InWindow (nextStartIndex^[j] start) i) :
    visitTimes i start readings = [] := by
  induction readings generalizing start with
  | nil => rfl
  | cons now readings ih =>
      have hfirst : ¬ InWindow start i := hnone 0 (Nat.succ_pos _)
      rw [visitTimes, if_neg hfirst]
      refine ih fun j hj => ?_
      rw [← Function.iterate_succ_apply]
      exact hnone (j + 1) (Nat.succ_lt_succ hj)

theorem visitTimes_append (i : Fin sizeBuf) (start : Uint8) (early late : List Int) :
    visitTimes i start (early ++ late) =
      visitTimes i start early ++ visitTimes i (nextStartIndex^[early.length] start) late := by
  induction early generalizing start with
  | nil => rfl
  | cons now early ih =>
      simp only [List.cons_append, visitTimes, ih, List.length_cons, Function.iterate_succ_apply]
      split <;> rfl

theorem visitTimes_length (i : Fin sizeBuf) (start : Uint8) (readings : List Int) :
    (visitTimes i start readings).length = visitCount i start readings.length := by
  induction readings generalizing start with
  | nil => rfl
  | cons now readings ih =>
      simp only [visitTimes, List.length_cons, visitCount]
      split
      · rw [List.length_cons, ih, Nat.add_comm]
      · rw [ih, Nat.zero_add]

theorem visitTimes_sublist (i : Fin sizeBuf) (start : Uint8) (readings : List Int) :
    (visitTimes i start readings).Sublist readings := by
  induction readings generalizing start with
  | nil => exact List.Sublist.refl _
  | cons now readings ih =>
      simp only [visitTimes]
      split
      · exact (ih _).cons_cons now
      · exact (ih _).cons now

/-- A stamped list is dropped by the first visit at which it is overdue. -/
theorem visitAll_stamped (head : MessageSegmentList) (hmark : head.toCleanUp = true)
    (hstamp : head.timestamp ≠ 0) (visits : List Int) :
    visitAll visits head = none ↔ ∃ t ∈ visits, expireMsg < t - head.timestamp := by
  have hold (now : Int) : head.stamp now = head.timestamp := if_neg hstamp
  induction visits with
  | nil => simp [visitAll]
  | cons now visits ih =>
      rw [visitAll, visitHead, if_neg (by simp [hmark]), hold, List.exists_mem_cons_iff]
      by_cases hoverdue : expireMsg < now - head.timestamp
      · rw [if_pos hoverdue]
        exact iff_of_true rfl (Or.inl hoverdue)
      · rw [if_neg hoverdue]
        exact ih.trans (or_iff_right hoverdue).symm

/-- A marked list is stamped by the first visit. -/
theorem visitAll_marked (head : MessageSegmentList) (hmark : head.toCleanUp = true)
    (hstamp : head.timestamp = 0) (visits : List Int) (hpos : ∀ t ∈ visits, 0 < t) :
    visitAll visits head = none ↔
      ∃ now rest, visits = now :: rest ∧ ∃ t ∈ rest, expireMsg < t - now := by
  cases visits with
  | nil => simp [visitAll]
  | cons now rest =>
      have hnow : head.stamp now = now := if_pos hstamp
      have hne : now ≠ 0 := by
        have := hpos now List.mem_cons_self
        omega
      rw [visitAll, visitHead, if_neg (by simp [hmark]), hnow, Int.sub_self,
        if_neg (by decide), Option.bind_some,
        visitAll_stamped { head with timestamp := now } hmark hne]
      constructor
      · exact fun hlate => ⟨now, rest, rfl, hlate⟩
      · rintro ⟨now', rest', heq, hlate⟩
        obtain ⟨rfl, rfl⟩ := List.cons.inj heq
        exact hlate

/-- An unmarked list is marked by the first visit and stamped by the second. -/
theorem visitAll_unmarked (head : MessageSegmentList) (hmark : head.toCleanUp = false)
    (hstamp : head.timestamp = 0) (visits : List Int) (hpos : ∀ t ∈ visits, 0 < t) :
    visitAll visits head = none ↔
      ∃ first now rest, visits = first :: now :: rest ∧ ∃ t ∈ rest, expireMsg < t - now := by
  cases visits with
  | nil => simp [visitAll]
  | cons first visits =>
      rw [visitAll, visitHead, if_pos hmark, Option.bind_some,
        visitAll_marked { head with toCleanUp := true } rfl hstamp visits
          (fun t ht => hpos t (List.mem_cons_of_mem first ht))]
      constructor
      · rintro ⟨now, rest, rfl, hlate⟩
        exact ⟨first, now, rest, rfl, hlate⟩
      · rintro ⟨first', now, rest, heq, hlate⟩
        exact ⟨now, rest, (List.cons.inj heq).2, hlate⟩

/-- The last twenty readings are late for every reading before them. -/
theorem SixtyReadings.split {clock : Int} {readings : List Int}
    (h : SixtyReadings clock readings) :
    ∃ early late, readings = early ++ late ∧ early.length = 40 ∧ late.length = 20 ∧
      (∀ t ∈ readings, clock ≤ t) ∧ ∀ a ∈ early, ∀ l ∈ late, expireMsg < l - a := by
  have hlen : readings.length = 60 := h.length
  refine ⟨readings.take 40, readings.drop 40, (List.take_append_drop 40 readings).symm,
    by rw [List.length_take]; omega, by rw [List.length_drop]; omega,
    fun t ht => List.rel_of_pairwise_cons h.ordered ht, fun a ha l hl => ?_⟩
  rw [List.take_add (i := 20) (j := 20), List.mem_append] at ha
  rcases ha with ha | ha
  · -- a reading of the first twenty is not after one of the middle twenty
    obtain ⟨m, hm⟩ : ∃ m, m ∈ (readings.drop 20).take 20 :=
      List.exists_mem_of_length_pos (by rw [List.length_take, List.length_drop]; omega)
    have hordered := h.ordered.of_cons
    rw [← List.take_append_drop 20 readings, List.pairwise_append] at hordered
    have hle := hordered.2.2 a ha m ((List.take_sublist _ _).subset hm)
    have := h.late m hm l hl
    omega
  · exact h.late a ha l hl

/-- Forty readings of the same second and twenty four seconds later. -/
def twoSeconds (clock : Int) : List Int :=
  List.replicate 40 clock ++ List.replicate 20 (clock + expireMsg + 1)

theorem twoSeconds_sixtyReadings (clock : Int) : SixtyReadings clock (twoSeconds clock) where
  length := rfl
  ordered := by
    rw [List.pairwise_cons, twoSeconds, List.pairwise_append]
    refine ⟨fun t ht => ?_, List.pairwise_replicate_of_refl, List.pairwise_replicate_of_refl,
      fun a ha l hl => ?_⟩
    · rcases List.mem_append.mp ht with ht | ht <;> rw [List.eq_of_mem_replicate ht]
      simp only [expireMsg]
      omega
    · rw [List.eq_of_mem_replicate ha, List.eq_of_mem_replicate hl]
      simp only [expireMsg]
      omega
  late := by
    intro m hm l hl
    have hm : m = clock := List.eq_of_mem_replicate (n := 20) hm
    have hl : l = clock + expireMsg + 1 := List.eq_of_mem_replicate (n := 20) hl
    rw [hm, hl]
    omega

theorem visitTimes_replicate (i : Fin sizeBuf) (start : Uint8) (n : Nat) (t : Int) :
    visitTimes i start (List.replicate n t) = List.replicate (visitCount i start n) t := by
  refine List.eq_replicate_iff.mpr ⟨?_, fun b hb => ?_⟩
  · rw [visitTimes_length, List.length_replicate]
  · exact List.eq_of_mem_replicate ((visitTimes_sublist i start _).subset hb)

/-- Among visits in two seconds only, one that is later than another is in the
second of the two, and the other in the first. -/
theorem late_of_replicate {e l : Nat} {c c' now t : Int} {pre rest : List Int}
    (heq : List.replicate e c ++ List.replicate l c' = pre ++ now :: rest) (ht : t ∈ rest)
    (hlate : now < t) : pre.length + 1 ≤ e ∧ 1 ≤ l := by
  rcases List.append_eq_append_iff.mp heq with ⟨x, hpre, hrep⟩ | ⟨x, hrep, hrest⟩
  · have hnow : now = c' := List.eq_of_mem_replicate (n := l) (by rw [hrep]; simp)
    have htc : t = c' := List.eq_of_mem_replicate (n := l) (by rw [hrep]; simp [ht])
    omega
  · cases x with
    | nil =>
        have hnow : now = c' :=
          List.eq_of_mem_replicate (n := l) (by rw [List.nil_append] at hrest; simp [← hrest])
        have htc : t = c' :=
          List.eq_of_mem_replicate (n := l) (by rw [List.nil_append] at hrest; simp [← hrest, ht])
        omega
    | cons y ys =>
        obtain ⟨rfl, rfl⟩ := List.cons.inj hrest
        have hlen := congrArg List.length hrep
        simp only [List.length_replicate, List.length_append, List.length_cons] at hlen
        have hnow : now = c := List.eq_of_mem_replicate (n := e) (by rw [hrep]; simp)
        refine ⟨by omega, Nat.pos_of_ne_zero (fun hzero => ?_)⟩
        subst hzero
        have hys : t ∈ ys := by simpa using ht
        have htc : t = c := List.eq_of_mem_replicate (n := e) (by rw [hrep]; simp [hys])
        omega

section Passes

variable {s : TimedBuffer} (hinv : s.Invariant) (hpositive : 0 < s.clock) {k : MessageKey}
  {c : RawCell} {head : MessageSegmentList} (hstored : s.buf.lookup k = some c)
  (hhead : c.head = some head)
include hinv hpositive hstored hhead

omit hpositive in
/-- Passes at early and late readings are visits at those that reach the bucket. -/
private theorem cleanupPasses_visits {early late : List Int} (hearly : early.length = 40)
    {after : RawBuffer} (hpasses : cleanupPasses s.buf (early ++ late) = some after) :
    after.lookup k = none ↔
      visitAll (visitTimes k.bucket s.buf.cleanupStartIndex early ++
        visitTimes k.bucket (nextStartIndex^[40] s.buf.cleanupStartIndex) late) head = none := by
  rw [cleanupPasses_lookup hinv.sound hpasses, hstored, Option.bind_some,
    RawCell.foldlM_visit hhead, Option.map_eq_none_iff, visitTimes_append, hearly]

/-- Enough visits remove the message, whatever the readings are. -/
theorem abandonedRemoved_of_swept (hlists : FindsLists s) (hswept : SweptInTime s k head) :
    AbandonedRemoved s k := by
  intro readings hreadings
  obtain ⟨after, hpasses⟩ := (cleanupPasses_isSome_iff hinv.sound readings).mpr
    (by rw [hreadings.length]; exact hlists)
  obtain ⟨early, late, rfl, hearly, hlate, hclock, hgap⟩ := hreadings.split
  refine ⟨after, hpasses, (cleanupPasses_visits hinv hstored hhead hearly hpasses).mpr ?_⟩
  have hsubE := visitTimes_sublist k.bucket s.buf.cleanupStartIndex early
  have hsubL := visitTimes_sublist k.bucket (nextStartIndex^[40] s.buf.cleanupStartIndex) late
  have hlenE := visitTimes_length k.bucket s.buf.cleanupStartIndex early
  have hlenL := visitTimes_length k.bucket (nextStartIndex^[40] s.buf.cleanupStartIndex) late
  rw [hearly] at hlenE
  rw [hlate] at hlenL
  simp only [SweptInTime, ← hlenE, ← hlenL] at hswept
  generalize visitTimes k.bucket s.buf.cleanupStartIndex early = visitsE at *
  generalize visitTimes k.bucket (nextStartIndex^[40] s.buf.cleanupStartIndex) late = visitsL at *
  have hpos : ∀ t ∈ visitsE ++ visitsL, 0 < t := fun t ht =>
    lt_of_lt_of_le hpositive (hclock t ((hsubE.append hsubL).subset ht))
  have hmarks := hinv.marks k c head hstored hhead
  by_cases hmark : head.toCleanUp = false
  · rw [if_pos hmark] at hswept
    obtain ⟨hcountE, hcountL⟩ := hswept
    obtain ⟨first, visitsE, rfl⟩ := List.exists_cons_of_length_pos
      (by omega : 0 < visitsE.length)
    obtain ⟨now, rest, rfl⟩ := List.exists_cons_of_length_pos
      (by rw [List.length_cons] at hcountE; omega : 0 < visitsE.length)
    obtain ⟨l, hl⟩ := List.exists_mem_of_length_pos hcountL
    rw [visitAll_unmarked head hmark (hmarks.unstamped hmark) _ hpos]
    refine ⟨first, now, rest ++ visitsL, rfl, l, List.mem_append_right rest hl, ?_⟩
    exact hgap now (hsubE.subset (by simp)) l (hsubL.subset hl)
  · rw [if_neg hmark] at hswept
    rw [Bool.not_eq_false] at hmark
    by_cases hstamp : head.timestamp = 0
    · rw [if_pos hstamp] at hswept
      obtain ⟨hcountE, hcountL⟩ := hswept
      obtain ⟨now, rest, rfl⟩ := List.exists_cons_of_length_pos hcountE
      obtain ⟨l, hl⟩ := List.exists_mem_of_length_pos hcountL
      rw [visitAll_marked head hmark hstamp _ hpos]
      refine ⟨now, rest ++ visitsL, rfl, l, List.mem_append_right rest hl, ?_⟩
      exact hgap now (hsubE.subset List.mem_cons_self) l (hsubL.subset hl)
    · rw [if_neg hstamp] at hswept
      rw [visitAll_stamped head hmark hstamp]
      rcases hswept with hcount | ⟨hcount, hold⟩
      · obtain ⟨l, hl⟩ := List.exists_mem_of_length_pos hcount
        obtain ⟨a, ha⟩ := List.exists_mem_of_length_pos (by omega : 0 < early.length)
        have hbound := hmarks.timestamp_le hpositive (hinv.past k)
        have ha' := hclock a (List.mem_append_left late ha)
        have hlt := hgap a ha l (hsubL.subset hl)
        exact ⟨l, List.mem_append_right visitsE hl, by omega⟩
      · obtain ⟨t, ht⟩ := List.exists_mem_of_length_pos hcount
        have ht' := hclock t (List.mem_append_left late (hsubE.subset ht))
        exact ⟨t, List.mem_append_left visitsL ht, by omega⟩

/-- With too few visits the message survives passes within two seconds of the
clock. -/
theorem swept_of_abandonedRemoved (hremoved : AbandonedRemoved s k) : SweptInTime s k head := by
  obtain ⟨after, hpasses, hnone⟩ := hremoved _ (twoSeconds_sixtyReadings s.clock)
  rw [cleanupPasses_visits hinv hstored hhead (List.length_replicate) hpasses,
    visitTimes_replicate, visitTimes_replicate] at hnone
  have hpos : ∀ t ∈ List.replicate (visitCount k.bucket s.buf.cleanupStartIndex 40) s.clock ++
      List.replicate (visitCount k.bucket (nextStartIndex^[40] s.buf.cleanupStartIndex) 20)
        (s.clock + expireMsg + 1), 0 < t := by
    intro t ht
    have hthree : expireMsg = 3 := rfl
    rcases List.mem_append.mp ht with ht | ht <;> rw [List.eq_of_mem_replicate ht] <;> omega
  have hmarks := hinv.marks k c head hstored hhead
  simp only [SweptInTime]
  by_cases hmark : head.toCleanUp = false
  · rw [visitAll_unmarked head hmark (hmarks.unstamped hmark) _ hpos] at hnone
    obtain ⟨first, now, rest, heq, t, ht, hlate⟩ := hnone
    have hsplit : _ = [first] ++ now :: rest := heq
    have hlater : now < t := by
      simp only [expireMsg] at hlate
      omega
    rw [if_pos hmark]
    exact late_of_replicate hsplit ht hlater
  · rw [if_neg hmark]
    rw [Bool.not_eq_false] at hmark
    by_cases hstamp : head.timestamp = 0
    · rw [visitAll_marked head hmark hstamp _ hpos] at hnone
      obtain ⟨now, rest, heq, t, ht, hlate⟩ := hnone
      have hsplit : _ = [] ++ now :: rest := heq
      have hlater : now < t := by
        simp only [expireMsg] at hlate
        omega
      rw [if_pos hstamp]
      exact late_of_replicate hsplit ht hlater
    · rw [visitAll_stamped head hmark hstamp] at hnone
      obtain ⟨t, ht, hlate⟩ := hnone
      rw [if_neg hstamp]
      rcases List.mem_append.mp ht with ht | ht
      · have hcount := List.length_pos_of_mem ht
        rw [List.length_replicate] at hcount
        rw [List.eq_of_mem_replicate ht] at hlate
        exact Or.inr ⟨hcount, hlate⟩
      · have hcount := List.length_pos_of_mem ht
        rw [List.length_replicate] at hcount
        exact Or.inl hcount

end Passes

/-- An entry without a list is not removed: a pass does not get past it. -/
theorem not_abandonedRemoved_of_null {s : TimedBuffer} (hinv : s.Invariant) {k : MessageKey}
    {c : RawCell} (hstored : s.buf.lookup k = some c) (hnull : c.head = none) :
    ¬ AbandonedRemoved s k := by
  intro hremoved
  obtain ⟨after, hpasses, hnone⟩ := hremoved _ (twoSeconds_sixtyReadings s.clock)
  have hlists := (cleanupPasses_isSome_iff hinv.sound _).mp ⟨after, hpasses⟩
  have hunvisited : ∀ j < (twoSeconds s.clock).length,
      ¬ InWindow (nextStartIndex^[j] s.buf.cleanupStartIndex) k.bucket :=
    fun j hj hwindow => hlists j hj _ hwindow c (ChainedTable.mem_of_find hstored) hnull
  rw [cleanupPasses_lookup hinv.sound hpasses, hstored, visitTimes_eq_nil hunvisited] at hnone
  cases hnone

/-- In every reachable buffer, sixty passes remove a message at all admissible clock
readings exactly if every entry that they visit has its list and the bucket of the message
is visited often enough. -/
theorem cleanup_reaches_iff {s : TimedBuffer} (hreach : s.Reachable) {k : MessageKey}
    {c : RawCell} (hstored : s.buf.lookup k = some c) :
    AbandonedRemoved s k ↔
      FindsLists s ∧ ∃ head, c.head = some head ∧ SweptInTime s k head := by
  obtain ⟨clock, ls, hpos, hrun⟩ := hreach
  have hinv := TimedBuffer.invariant_of_run hrun
  have hpositive : 0 < s.clock := lt_of_lt_of_le hpos (TimedBuffer.clock_le_of_run hrun)
  constructor
  · intro hremoved
    cases hhead : c.head with
    | none => exact absurd hremoved (not_abandonedRemoved_of_null hinv hstored hhead)
    | some head =>
        obtain ⟨after, hpasses, _⟩ := hremoved _ (twoSeconds_sixtyReadings s.clock)
        exact ⟨(cleanupPasses_isSome_iff hinv.sound _).mp ⟨after, hpasses⟩, head, rfl,
          swept_of_abandonedRemoved hinv hpositive hstored hhead hremoved⟩
  · rintro ⟨hlists, head, hhead, hswept⟩
    exact abandonedRemoved_of_swept hinv hpositive hstored hhead hlists hswept

/-! The buckets that are visited often enough from every start index, and from none -/

theorem visitCount_add (i : Fin sizeBuf) (start : Uint8) (m n : Nat) :
    visitCount i start (m + n) =
      visitCount i start m + visitCount i (nextStartIndex^[m] start) n := by
  induction m generalizing start with
  | zero => rw [Nat.zero_add, Function.iterate_zero, id_eq, visitCount, Nat.zero_add]
  | succ m ih =>
      rw [Nat.succ_add, visitCount, visitCount, ih, Function.iterate_succ_apply, Nat.add_assoc]

theorem visitCount_pos {i : Fin sizeBuf} {start : Uint8} {n j : Nat} (hj : j < n)
    (hwindow : InWindow (nextStartIndex^[j] start) i) : 1 ≤ visitCount i start n := by
  obtain ⟨m, rfl⟩ := Nat.exists_eq_add_of_lt hj
  have hlater : 1 ≤ visitCount i (nextStartIndex^[j] start) (m + 1) := by
    rw [visitCount, if_pos hwindow]
    omega
  rw [Nat.add_assoc, visitCount_add]
  omega

/-- Twenty passes in a row have start indices near both ends of a byte. -/
theorem startIndex_spread (start : Uint8) :
    (∃ j < 20, (nextStartIndex^[j] start).toNat ≤ 27) ∧
      ∃ j < 20, 228 ≤ (nextStartIndex^[j] start).toNat := by
  revert start
  decide +kernel

/-- Twenty passes in a row visit the buckets 27 to 727. -/
theorem visitCount_twenty {i : Fin sizeBuf} (hfrom : 27 ≤ i.val) (hto : i.val ≤ 727)
    (start : Uint8) : 1 ≤ visitCount i start 20 := by
  obtain ⟨⟨low, hlow, hsmall⟩, high, hhigh, hlarge⟩ := startIndex_spread start
  have hbyte := (nextStartIndex^[high] start).isLt
  by_cases hi : i.val < 500
  · exact visitCount_pos hlow ⟨by omega, by simp only [cleanUpPassSize]; omega⟩
  · exact visitCount_pos hhigh ⟨by omega, by simp only [cleanUpPassSize]; omega⟩

/-- They are visited often enough whatever the start index and the marks are. -/
theorem sweptInTime_of_bucket (s : TimedBuffer) {k : MessageKey} (head : MessageSegmentList)
    (hfrom : 27 ≤ k.bucket.val) (hto : k.bucket.val ≤ 727) : SweptInTime s k head := by
  have htwenty := visitCount_twenty hfrom hto
  have hforty : visitCount k.bucket s.buf.cleanupStartIndex 40 = _ :=
    visitCount_add k.bucket s.buf.cleanupStartIndex 20 20
  have hfirst := htwenty s.buf.cleanupStartIndex
  have hmiddle := htwenty (nextStartIndex^[20] s.buf.cleanupStartIndex)
  have hlast := htwenty (nextStartIndex^[40] s.buf.cleanupStartIndex)
  unfold SweptInTime
  split
  · exact ⟨by omega, hlast⟩
  · split
    · exact ⟨by omega, hlast⟩
    · exact Or.inl hlast

/-- No start index leads to a window that contains a bucket from 755 on. -/
theorem not_inWindow_high {i : Fin sizeBuf} (hi : 755 ≤ i.val) (start : Uint8) :
    ¬ InWindow start i := by
  have hstart := start.isLt
  simp only [InWindow, cleanUpPassSize]
  omega

/-- A message in such a bucket is never touched. -/
theorem cleanup_never_reaches {buf after : RawBuffer} (h : buf.Sound) {k : MessageKey}
    (hk : 755 ≤ k.bucket.val) {readings : List Int}
    (hpasses : cleanupPasses buf readings = some after) : after.lookup k = buf.lookup k := by
  rw [cleanupPasses_lookup h hpasses, visitTimes_eq_nil fun j _ => not_inWindow_high hk _]
  exact Option.bind_fun_some _

/-- A message of two segments in bucket 300 is removed by sixty passes, also where the
list of a message in a bucket that they do not visit could not be allocated. -/
theorem cleanup_reaches_bucket_300 :
    ∃ s : TimedBuffer, s.Reachable ∧ s.inserted (0, 300) = [2, 1] ∧
      (s.buf.lookup (0, 5000)).isSome = true ∧ AbandonedRemoved s (0, 300) := by
  have hfold : ([(1, .insert .all (0, 300) ⟨0, 0, 1, [0xaa], some []⟩),
      (1, .insert { InsertMallocs.all with messageList := false } (0, 5000)
        ⟨0, 0, 1, [0xbb], some []⟩),
      (2, .insert .all (0, 300) ⟨2, 1, 1, [0xcc], some []⟩)].foldlM
        TimedBuffer.next (.initial 1)).map (fun s =>
          (s.inserted (0, 300), (s.buf.lookup (0, 5000)).isSome,
            ((s.buf.lookup (0, 300)).bind RawCell.head).isSome,
            (List.finRange 755).all fun i =>
              (s.buf.chain (i.castLE (by decide))).all fun c => c.head.isSome)) =
      some ([2, 1], true, true, true) := by
    decide +kernel
  obtain ⟨s, hrun, hafter⟩ := Option.map_eq_some_iff.mp hfold
  obtain ⟨htimes, hother, hlist, hall⟩ :
      s.inserted (0, 300) = [2, 1] ∧ (s.buf.lookup (0, 5000)).isSome = true ∧
        ((s.buf.lookup (0, 300)).bind RawCell.head).isSome = true ∧
        ((List.finRange 755).all fun i =>
          (s.buf.chain (i.castLE (by decide))).all fun c => c.head.isSome) = true := by
    simpa only [Prod.mk.injEq] using hafter
  have hreach : s.Reachable := ⟨1, _, Int.zero_lt_one, Runs.run_iff_foldlM.mpr hrun⟩
  obtain ⟨head, hfound⟩ := Option.isSome_iff_exists.mp hlist
  obtain ⟨c, hstored, hhead⟩ := Option.bind_eq_some_iff.mp hfound
  refine ⟨s, hreach, htimes, hother, (cleanup_reaches_iff hreach hstored).mpr
    ⟨fun j _ i hi c' hc' => ?_, head, hhead,
      sweptInTime_of_bucket s head (by decide) (by decide)⟩⟩
  have hlow : i.val < 755 := Nat.not_le.mp (fun hhigh => not_inWindow_high hhigh _ hi)
  have hlists := List.all_eq_true.mp (List.all_eq_true.mp hall ⟨i.val, hlow⟩ (List.mem_finRange _))
  exact Option.isSome_iff_ne_none.mp (hlists c' hc')

/-- The first segment of message (0, 5000) stays in bucket 5000. -/
theorem cleanup_misses_bucket_5000 :
    ¬ ∀ s k c head, TimedBuffer.Reachable s → s.buf.lookup k = some c → c.head = some head →
      head.complete = false → AbandonedRemoved s k := by
  intro hclaim
  have hfold : ((TimedBuffer.initial 1).next
      (1, .insert .all (0, 5000) ⟨0, 0, 1, [0xaa], some []⟩)).map (fun s =>
        ((s.buf.lookup (0, 5000)).bind RawCell.head).map MessageSegmentList.complete) =
      some (some false) := by
    decide +kernel
  obtain ⟨s, hstep, hafter⟩ := Option.map_eq_some_iff.mp hfold
  obtain ⟨head, hfound, hcomplete⟩ := Option.map_eq_some_iff.mp hafter
  obtain ⟨c, hstored, hhead⟩ := Option.bind_eq_some_iff.mp hfound
  have hrun : Runs.Run BufferStep (.initial 1) _ s := Runs.Run.nil.snoc hstep
  obtain ⟨after, hpasses, hnone⟩ := hclaim s (0, 5000) c head ⟨1, _, Int.zero_lt_one, hrun⟩
    hstored hhead hcomplete _ (twoSeconds_sixtyReadings s.clock)
  rw [cleanup_never_reaches (TimedBuffer.invariant_of_run hrun).sound (by decide) hpasses,
    hstored] at hnone
  cases hnone

end UdpNotif
