import UdpNotif.SegmentationBuffer.Completeness

/-!
What a message list holds and what `insert_into_msl` returns, in terms of the
calls made so far: every field of the list against the first arrivals, and the
return code against what was offered and announced before.
-/

namespace UdpNotif

open SortedKeys

/-- The list that segments with option lists lead to. The counter of its cells is
a 32-bit word, which is zero again once all numbers are stored. -/
structure ListOf (calls : List InsertCall) (head : MessageSegmentList) : Prop where
  ascending : head.numbers.Pairwise (· < ·)
  firstArrivals : ∀ cell, cell ∈ head.cells ↔ ∃ pre c post, calls = pre ++ c :: post ∧
    c.number ∉ pre.map InsertCall.number ∧ cell = c.cell
  currentSize : head.currentSize = .ofNat 32 head.cells.length
  totalPayload : head.totalPayloadByteSize =
    .ofNat 32 (head.cells.map (fun c => c.contentSize.toNat)).sum
  optionsNull : head.optionsHead = none ↔ calls = []
  options : head.optionsHead.getD [] =
    (InsertCall.accepted calls).flatMap (fun c => c.options.getD [])
  optionsTail : head.optionsTail = (head.optionsHead.getD []).length
  optionsLength : head.optionsLength = optionsTotalBytes (head.optionsHead.getD [])
  totalSize : ((∀ c ∈ calls, c.last ≠ 1) ∧ head.totalSize = 0) ∨
    ∃ pre c post, calls = pre ++ c :: post ∧ c.last = 1 ∧ (∀ d ∈ post, d.last ≠ 1) ∧
      head.totalSize = c.seqnum + 1

/-- The return code of a call, from what was offered before and the list it left. -/
structure Returns (pre : List InsertCall) (c : InsertCall) (code : Int)
    (head : MessageSegmentList) : Prop where
  duplicate : code = -1 ∨ code = -2 ↔ c.number ∈ pre.map InsertCall.number
  stored : code = 0 ∨ code = 1 ↔ c.number ∉ pre.map InsertCall.number
  complete : code = 1 ∨ code = -2 ↔ 0 < head.totalSize ∧ head.currentSize = head.totalSize

/-- The total that the calls announce is that of the latest one with the last flag. -/
theorem announcedTotal_cases (calls : List InsertCall) :
    ((∀ c ∈ calls, c.last ≠ 1) ∧ InsertCall.announcedTotal calls = 0) ∨
      ∃ pre c post, calls = pre ++ c :: post ∧ c.last = 1 ∧ (∀ d ∈ post, d.last ≠ 1) ∧
        InsertCall.announcedTotal calls = c.seqnum + 1 := by
  induction calls using List.reverseRecOn with
  | nil => exact Or.inl ⟨fun c hc => absurd hc List.not_mem_nil, rfl⟩
  | append_singleton calls c ih =>
      rw [InsertCall.announcedTotal_concat]
      split
      · rename_i hlast
        exact Or.inr ⟨calls, c, [], rfl, hlast, fun d hd => absurd hd List.not_mem_nil, rfl⟩
      · rename_i hlast
        rcases ih with ⟨hnone, hzero⟩ | ⟨pre, d, post, hsplit, hflag, hnone, htotal⟩
        · refine Or.inl ⟨fun d hd => ?_, hzero⟩
          rcases List.mem_append.mp hd with hd | hd
          · exact hnone d hd
          · rw [List.mem_singleton.mp hd]
            exact hlast
        · refine Or.inr ⟨pre, d, post ++ [c], by rw [hsplit]; simp, hflag, fun e he => ?_, htotal⟩
          rcases List.mem_append.mp he with he | he
          · exact hnone e he
          · rw [List.mem_singleton.mp he]
            exact hlast

/-- With option lists in all calls, the lists spliced are those of the accepted calls. -/
theorem spliced_eq_map {calls : List InsertCall} (hcalls : ∀ c ∈ calls, c.options ≠ none) :
    InsertCall.spliced calls =
      (InsertCall.accepted calls).map (fun c => c.options.getD []) := by
  have hsome : ∀ c ∈ InsertCall.accepted calls, c.options = some (c.options.getD []) := by
    intro c hc
    obtain ⟨options, hoptions⟩ := Option.ne_none_iff_exists'.mp
      (hcalls c ((firsts_sublist _ _).subset hc))
    rw [hoptions]
    rfl
  rw [InsertCall.spliced, List.filterMap_congr hsome, List.filterMap_eq_map']

theorem Describes.listOf {calls : List InsertCall} {head : MessageSegmentList}
    (h : Describes calls head) (hcalls : ∀ c ∈ calls, c.options ≠ none) : ListOf calls head := by
  have hspliced := spliced_eq_map hcalls
  have hnil : InsertCall.spliced calls = [] ↔ calls = [] := by
    rw [hspliced, List.map_eq_nil_iff]
    exact firsts_eq_nil_iff _ _
  have hoptions : head.optionsHead.getD [] = (InsertCall.spliced calls).flatten := by
    rw [h.optionsHead]
    split
    · rename_i hempty
      rw [hempty]
      rfl
    · rfl
  refine ⟨List.pairwise_map.mpr h.ascending, fun cell => ?_, h.currentSize, h.totalPayload, ?_, ?_,
    ?_, ?_, ?_⟩
  · rw [h.stored.mem_iff, List.mem_map]
    constructor
    · rintro ⟨c, hc, rfl⟩
      obtain ⟨pre, post, hsplit, hnew⟩ := (mem_firsts_iff _ _ _).mp hc
      exact ⟨pre, c, post, hsplit, hnew, rfl⟩
    · rintro ⟨pre, c, post, hsplit, hnew, rfl⟩
      exact ⟨c, (mem_firsts_iff _ _ _).mpr ⟨pre, post, hsplit, hnew⟩, rfl⟩
  · rw [h.optionsHead, ← hnil, ite_eq_left_iff]
    exact not_imp_comm.trans ⟨fun hnone => hnone (Option.some_ne_none _), fun hempty _ => hempty⟩
  · rw [hoptions, hspliced, List.flatMap_def]
  · rw [hoptions]
    exact h.optionsTail
  · rw [hoptions]
    exact h.optionsLength
  · rw [h.totalSize]
    exact announcedTotal_cases calls

theorem Describes.returns {pre : List InsertCall} {head : MessageSegmentList}
    (h : Describes pre head) {c : InsertCall} (hc : c.options ≠ none) :
    Returns pre c (c.apply head).1 (c.apply head).2 := by
  have hcomplete : (c.apply head).2.complete = true ↔ 0 < (c.apply head).2.totalSize ∧
      (c.apply head).2.currentSize = (c.apply head).2.totalSize := by
    rw [MessageSegmentList.complete, Bool.and_eq_true, decide_eq_true_eq, beq_iff_eq]
  have hcode := (h.insert c).2
  rw [if_neg hc] at hcode
  rw [hcode]
  by_cases hold : c.number ∈ pre.map InsertCall.number
  · simp only [if_pos hold]
    constructor
    · refine iff_of_true ?_ hold
      split
      · exact Or.inr rfl
      · exact Or.inl rfl
    · refine iff_of_false ?_ (not_not.mpr hold)
      split <;> decide
    · rw [← hcomplete]
      split <;> rename_i hflag
      · exact iff_of_true (Or.inr rfl) hflag
      · exact iff_of_false (by decide) hflag
  · simp only [if_neg hold]
    constructor
    · refine iff_of_false ?_ hold
      split <;> decide
    · refine iff_of_true ?_ hold
      split
      · exact Or.inr rfl
      · exact Or.inl rfl
    · rw [← hcomplete]
      split <;> rename_i hflag
      · exact iff_of_true (Or.inl rfl) hflag
      · exact iff_of_false (by decide) hflag

/-- After every call of a sequence with option lists the list is as described by
the calls, and the call returned what it should. -/
theorem insertIntoMsl_invariant (odid mid : Uint32) (calls : List InsertCall)
    (hcalls : ∀ c ∈ calls, c.options ≠ none) :
    ListOf calls (listAfter odid mid calls) ∧
      ∀ pre c post, calls = pre ++ c :: post →
        Returns pre c (c.apply (listAfter odid mid pre)).1 (listAfter odid mid (pre ++ [c])) := by
  refine ⟨(describes_applyAll odid mid calls).listOf hcalls, ?_⟩
  rintro pre c post rfl
  have hc : c.options ≠ none := hcalls c (List.mem_append_right pre List.mem_cons_self)
  have happly : listAfter odid mid (pre ++ [c]) = (c.apply (listAfter odid mid pre)).2 :=
    InsertCall.applyAll_concat _ _ _
  rw [happly]
  exact (describes_applyAll odid mid pre).returns hc

/-- The last segment of two, the first one, and the first one again. -/
theorem insertIntoMsl_invariant_two_segments :
    let calls : List InsertCall := [⟨1, 1, 1, [0xbb], some [⟨3, 2, []⟩]⟩,
      ⟨0, 0, 2, [0xaa, 0xab], some [⟨2, 2, []⟩]⟩, ⟨0, 0, 1, [0xcc], some []⟩]
    ListOf calls (listAfter 7 9 calls) ∧
      ∀ pre c post, calls = pre ++ c :: post →
        Returns pre c (c.apply (listAfter 7 9 pre)).1 (listAfter 7 9 (pre ++ [c])) :=
  insertIntoMsl_invariant 7 9 _ (by decide)

/-- Segments with the numbers below `n`, none of them the last one. -/
def numberedCalls (n : Nat) : List InsertCall :=
  (List.range n).map (fun i => ⟨.ofNat 32 i, 0, 0, [], some []⟩)

theorem numberedCalls_cells (odid mid : Uint32) {n : Nat} (hn : n ≤ 2 ^ 32) :
    (listAfter odid mid (numberedCalls n)).cells.length = n := by
  have hnumbers : (numberedCalls n).map InsertCall.number = List.range n := by
    rw [numberedCalls, List.map_map]
    refine (List.map_congr_left (fun i hi => ?_)).trans (List.map_id _)
    have hlt := List.mem_range.mp hi
    change (BitVec.ofNat 32 i).toNat = i
    rw [BitVec.toNat_ofNat]
    omega
  rw [(describes_applyAll odid mid (numberedCalls n)).cells_length, hnumbers,
    List.toFinset_range, Finset.card_range]

/-- With a segment for every number the counter of the cells is zero. -/
theorem insertIntoMsl_counter_wraps :
    ¬ ∀ odid mid calls, (∀ c ∈ calls, c.options ≠ none) →
      (ListOf calls (listAfter odid mid calls) ∧ (listAfter odid mid calls).currentSize.toNat =
        (listAfter odid mid calls).cells.length) ∧
      ∀ pre c post, calls = pre ++ c :: post →
        Returns pre c (c.apply (listAfter odid mid pre)).1 (listAfter odid mid (pre ++ [c])) := by
  intro hclaim
  obtain ⟨n, hn⟩ : ∃ n, n = 2 ^ 32 := ⟨_, rfl⟩
  have hoptions : ∀ c ∈ numberedCalls n, c.options ≠ none := by
    intro c hc
    obtain ⟨i, _, rfl⟩ := List.mem_map.mp hc
    exact Option.some_ne_none _
  have hexact := (hclaim 7 9 (numberedCalls n) hoptions).1.2
  rw [(describes_applyAll 7 9 (numberedCalls n)).currentSize,
    numberedCalls_cells 7 9 (Nat.le_of_eq hn), BitVec.toNat_ofNat, hn] at hexact
  exact absurd hexact (by decide)

end UdpNotif
