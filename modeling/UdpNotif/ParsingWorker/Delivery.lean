import UdpNotif.ParsingWorker.ParserInvariant
import UdpNotif.SegmentationBuffer.Reassembly

/-!
Delivery of a segmented message by a parser that is not asked to clean up. The
list stored for a message is described by the calls made since the message was
last delivered; the segments of a message, in any order, lead to one message.
-/

namespace UdpNotif

/-- The call of `insert_into_msl` a parsed segment leads to. -/
def UnyteSegMet.call (p : UnyteSegMet) : InsertCall :=
  segmentCall p (p.header.segmentation.getD ⟨0, 0, 0, 0⟩)

/-- A parser between iterations while no clean up is asked for. -/
structure ParserState.Idle (st : ParserState) : Prop where
  built : st.segmentBuff.Built
  idle : st.segmentBuff.cleanup = false

theorem ParserState.init_idle : ParserState.init.Idle := ⟨createSegmentBuffer_built, rfl⟩

/-- The list of every key in a new buffer is fresh. -/
theorem createSegmentBuffer_listOf (k : MessageKey) :
    createSegmentBuffer.listOf k = createMessageSegmentList k.1 k.2 := rfl

theorem Parsed.call_eq {p : UnyteSegMet} (hparsed : Parsed p)
    (hsegmented : isSegmented p.header = true) :
    ∃ seg, p.header.segmentation = some seg ∧ p.call = segmentCall p seg := by
  obtain ⟨seg, hseg⟩ := Option.ne_none_iff_exists'.mp (hparsed.segmented hsegmented)
  exact ⟨seg, hseg, by rw [UnyteSegMet.call, hseg]; rfl⟩

theorem Parsed.call_fromParser {p : UnyteSegMet} (hparsed : Parsed p) : p.call.FromParser :=
  segmentCall_fromParser hparsed _

/-- What a segment does to the list of its message: the list after the insert is
described by one more call, and it is delivered and dropped once complete. -/
theorem handleParsed_undisturbed (malloc : Nat → Bool) (now : Int) {st : ParserState}
    (hbuilt : st.segmentBuff.Built) {p : UnyteSegMet} (hparsed : Parsed p)
    (hsegmented : isSegmented p.header = true) {pre : List InsertCall}
    (hdesc : Describes pre (st.segmentBuff.listOf p.key)) :
    ∃ st' head, Describes (pre ++ [p.call]) head ∧
      handleParsed malloc now st p =
        .continued st' (if head.complete then assembleList malloc p head else none) ∧
      (st.segmentBuff.cleanup = false → st'.segmentBuff.cleanup = false) ∧
      (st'.segmentBuff.cleanup = st.segmentBuff.cleanup → st'.segmentBuff.Built ∧
        (∀ k, k ≠ p.key → st'.segmentBuff.listOf k = st.segmentBuff.listOf k) ∧
        st'.segmentBuff.listOf p.key =
          if head.complete then createMessageSegmentList p.key.1 p.key.2 else head) := by
  obtain ⟨seg, hseg, hcall⟩ := hparsed.call_eq hsegmented
  obtain ⟨st', hhandle, hidle, hquiet⟩ :=
    handleParsed_segmented malloc now hbuilt hparsed hsegmented hseg
  rw [← hcall] at hhandle hquiet
  have hcode := hdesc.insert_code p.call hparsed.call_fromParser.options
  have hreports : reportsComplete (p.call.apply (st.segmentBuff.listOf p.key)).1 =
      (p.call.apply (st.segmentBuff.listOf p.key)).2.complete := by
    rw [Bool.eq_iff_iff, ← hcode]
    simp [reportsComplete]
  rw [hreports] at hhandle hquiet
  have hlist (k : MessageKey) : st'.segmentBuff.listOf k =
      (st'.segmentBuff.lookup k).getD (createMessageSegmentList k.1 k.2) := rfl
  refine ⟨st', _, (hdesc.insert p.call).1, hhandle, hidle, fun hflag => ?_⟩
  obtain ⟨hbuilt', hlookup⟩ := hquiet hflag
  refine ⟨hbuilt', fun k hk => ?_, ?_⟩
  · rw [hlist, hlookup, if_neg hk]
    rfl
  · rw [hlist, hlookup, if_pos rfl]
    cases (p.call.apply (st.segmentBuff.listOf p.key)).2.complete <;> rfl

/-- The same for a parser that is not asked to clean up. -/
theorem handleParsed_describes (malloc : Nat → Bool) (now : Int) {st : ParserState}
    (hst : st.Idle) {p : UnyteSegMet} (hparsed : Parsed p)
    (hsegmented : isSegmented p.header = true) {pre : List InsertCall}
    (hdesc : Describes pre (st.segmentBuff.listOf p.key)) :
    ∃ st' head, Describes (pre ++ [p.call]) head ∧ st'.Idle ∧
      handleParsed malloc now st p =
        .continued st' (if head.complete then assembleList malloc p head else none) ∧
      (∀ k, k ≠ p.key → st'.segmentBuff.listOf k = st.segmentBuff.listOf k) ∧
      st'.segmentBuff.listOf p.key =
        if head.complete then createMessageSegmentList p.key.1 p.key.2 else head := by
  obtain ⟨st', head, hdesc', hhandle, hidle, hquiet⟩ :=
    handleParsed_undisturbed malloc now hst.built hparsed hsegmented hdesc
  obtain ⟨hbuilt, hothers, hown⟩ := hquiet ((hidle hst.idle).trans hst.idle.symm)
  exact ⟨st', head, hdesc', ⟨hbuilt, hidle hst.idle⟩, hhandle, hothers, hown⟩

/-- The stored segments hold as many bytes as they claim. -/
theorem Describes.payload_length {calls : List InsertCall} {head : MessageSegmentList}
    (h : Describes calls head) (hcalls : ∀ c ∈ calls, c.FromParser) :
    (head.cells.flatMap (fun c => c.content.take c.contentSize.toNat)).length =
      (head.cells.map (fun c => c.contentSize.toNat)).sum := by
  rw [List.length_flatMap]
  refine congrArg List.sum (List.map_congr_left (fun cell hcell => ?_))
  obtain ⟨c, hc, rfl⟩ := List.mem_map.mp (h.stored.subset hcell)
  have hcontent := (hcalls c ((SortedKeys.firsts_sublist _ _).subset hc)).content
  rw [List.length_take]
  simp only [InsertCall.cell]
  omega

/-- So does a message assembled from them. -/
theorem Describes.assembled_length {calls : List InsertCall} {head : MessageSegmentList}
    (h : Describes calls head) (hcalls : ∀ c ∈ calls, c.FromParser) {malloc : Nat → Bool}
    {p out : UnyteSegMet} (hout : assembleList malloc p head = some out) :
    out.payload.length = ((InsertCall.accepted calls).map (fun c => c.payloadSize.toNat)).sum := by
  rw [assembleList, Option.map_eq_some_iff] at hout
  obtain ⟨payload, hpayload, rfl⟩ := hout
  rw [reassemblePayload, Option.ite_none_right_eq_some] at hpayload
  obtain ⟨_, hpayload⟩ := hpayload
  change payload.length = _
  rw [← Option.some.inj hpayload, h.payload_length hcalls, (h.stored.map _).sum_nat, List.map_map]
  rfl

/-- The parsed segments of one message, in the order of their numbers. -/
structure MessageSegments (k : MessageKey) (segs : List UnyteSegMet) : Prop where
  parsed : ∀ p ∈ segs, Parsed p
  key : ∀ p ∈ segs, p.key = k
  segmented : ∀ p ∈ segs, isSegmented p.header = true
  numbered : SegmentSet (segs.map UnyteSegMet.call)

/-- Iterations of the parser on a list of parsed segments, and the messages it
hands to the output queue. -/
def handleAll (malloc : Nat → Bool) (now : Int) (st : ParserState) :
    List UnyteSegMet → Option (ParserState × List UnyteSegMet)
  | [] => some (st, [])
  | p :: arrivals =>
      match handleParsed malloc now st p with
      | .continued st' written =>
          (handleAll malloc now st' arrivals).map (fun r => (r.1, written.toList ++ r.2))
      | _ => none

/-- The bytes of a message, in the order of its segments. -/
def messagePayload (segs : List UnyteSegMet) : List Uint8 := segs.flatMap (fun p => p.payload)

/-- The options of segments, in the order of their arrival. -/
def arrivalOptions (arrivals : List UnyteSegMet) : List UnyteOption :=
  arrivals.flatMap (fun p => p.header.options)

/-- The message assembled from segments that arrived in the order `arrivals`,
completed by `last`. -/
def reassembledMsg (segs arrivals : List UnyteSegMet) (last : UnyteSegMet) : UnyteSegMet :=
  assembledMsg (messagePayload segs) last (.ofNat 16 (messagePayload segs).length)
    (arrivalOptions arrivals) (optionsTotalBytes (arrivalOptions arrivals))

theorem handleAll_append (malloc : Nat → Bool) (now : Int) (st : ParserState)
    (first second : List UnyteSegMet) :
    handleAll malloc now st (first ++ second) =
      (handleAll malloc now st first).bind (fun r =>
        (handleAll malloc now r.1 second).map (fun r' => (r'.1, r.2 ++ r'.2))) := by
  induction first generalizing st with
  | nil => cases h : handleAll malloc now st second <;> simp [handleAll, h]
  | cons p first ih =>
      simp only [List.cons_append, handleAll]
      cases handleParsed malloc now st p with
      | continued st' written =>
          simp only [ih]
          cases handleAll malloc now st' first with
          | none => rfl
          | some r => cases handleAll malloc now r.1 second <;> simp [Function.comp_def]
      | diverges | undefined | stopped => rfl

theorem call_mem {segs arrivals : List UnyteSegMet} (harr : ∀ p ∈ arrivals, p ∈ segs) :
    ∀ c ∈ arrivals.map UnyteSegMet.call, c ∈ segs.map UnyteSegMet.call := by
  intro c hc
  obtain ⟨p, hp, rfl⟩ := List.mem_map.mp hc
  exact List.mem_map_of_mem (harr p hp)

/-- Segments are stored as long as no list that the first of them describe is
complete. -/
theorem handleAll_stored (malloc : Nat → Bool) (now : Int) {k : MessageKey} {st : ParserState}
    (hst : st.Idle) (pre arrivals : List UnyteSegMet)
    (harr : ∀ p ∈ arrivals, Parsed p ∧ p.key = k ∧ isSegmented p.header = true)
    (hdesc : Describes (pre.map UnyteSegMet.call) (st.segmentBuff.listOf k))
    (hincomplete : ∀ first, first <+: pre ++ arrivals → ∀ head,
      Describes (first.map UnyteSegMet.call) head → head.complete = false) :
    ∃ st', handleAll malloc now st arrivals = some (st', []) ∧ st'.Idle ∧
      Describes ((pre ++ arrivals).map UnyteSegMet.call) (st'.segmentBuff.listOf k) := by
  induction arrivals generalizing pre st with
  | nil =>
      rw [List.append_nil]
      exact ⟨st, rfl, hst, hdesc⟩
  | cons p arrivals ih =>
      obtain ⟨hparsed, rfl, hsegmented⟩ := harr p List.mem_cons_self
      obtain ⟨st', head, hdesc', hst', hhandle, _, hlist⟩ :=
        handleParsed_describes malloc now hst hparsed hsegmented hdesc
      rw [← List.map_singleton, ← List.map_append] at hdesc'
      rw [List.append_cons] at hincomplete ⊢
      have hstored : head.complete = false :=
        hincomplete (pre ++ [p]) (List.prefix_append _ _) head hdesc'
      simp only [hstored, Bool.false_eq_true, if_false] at hhandle hlist
      obtain ⟨st'', hrest, hst'', hdesc''⟩ := ih hst' (pre ++ [p])
        (fun q hq => harr q (List.mem_cons_of_mem p hq)) (by rw [hlist]; exact hdesc')
        hincomplete
      refine ⟨st'', ?_, hst'', hdesc''⟩
      simp only [handleAll, hhandle, hrest, Option.map_some, Option.toList_none, List.nil_append]

section Message

variable {k : MessageKey} {segs : List UnyteSegMet} (h : MessageSegments k segs)
include h

/-- Segments that do not complete their message are stored. -/
theorem MessageSegments.handleAll_incomplete (malloc : Nat → Bool) (now : Int)
    {st : ParserState} (hst : st.Idle) {arrivals : List UnyteSegMet}
    (harr : ∀ p ∈ arrivals, p ∈ segs)
    (hfresh : st.segmentBuff.listOf k = createMessageSegmentList k.1 k.2)
    (hmissing : ¬ AllOffered (segs.map UnyteSegMet.call) (arrivals.map UnyteSegMet.call)) :
    ∃ st', handleAll malloc now st arrivals = some (st', []) ∧ st'.Idle ∧
      Describes (arrivals.map UnyteSegMet.call) (st'.segmentBuff.listOf k) := by
  refine handleAll_stored malloc now hst [] arrivals
    (fun p hp => ⟨h.parsed p (harr p hp), h.key p (harr p hp), h.segmented p (harr p hp)⟩)
    (by rw [hfresh]; exact describes_nil _ _) ?_
  intro first hfirst head hdesc
  have hsub : ∀ p ∈ first, p ∈ arrivals := fun p hp => hfirst.subset hp
  rw [Bool.eq_false_iff, Ne, h.numbered.complete_iff
    (call_mem (fun q hq => harr q (hsub q hq))) hdesc]
  intro hall
  refine hmissing (fun i hi => ?_)
  obtain ⟨c, hc, hnumber⟩ := List.mem_map.mp (hall i hi)
  exact List.mem_map.mpr ⟨c, call_mem hsub c hc, hnumber⟩

/-- The message assembled from a complete list. -/
theorem MessageSegments.assembleList_eq (malloc : Nat → Bool) {arrivals : List UnyteSegMet}
    (harr : ∀ p ∈ arrivals, p ∈ segs)
    (hall : AllOffered (segs.map UnyteSegMet.call) (arrivals.map UnyteSegMet.call))
    (hunique : ((arrivals.map UnyteSegMet.call).map InsertCall.number).Nodup)
    {head : MessageSegmentList} (hdesc : Describes (arrivals.map UnyteSegMet.call) head)
    (last : UnyteSegMet) :
    assembleList malloc last head =
      if malloc ((messagePayload segs).length % 2 ^ 32) then
        some (reassembledMsg segs arrivals last)
      else none := by
  have hmem := call_mem harr
  have hcontent : ∀ c ∈ segs.map UnyteSegMet.call, c.content.length = c.payloadSize.toNat := by
    intro c hc
    obtain ⟨p, hp, rfl⟩ := List.mem_map.mp hc
    exact (h.parsed p hp).call_fromParser.content
  have hfrom : ∀ c ∈ arrivals.map UnyteSegMet.call, c.FromParser := by
    intro c hc
    obtain ⟨p, hp, rfl⟩ := List.mem_map.mp hc
    exact (h.parsed p (harr p hp)).call_fromParser
  obtain ⟨htotal, hpayload⟩ :=
    h.numbered.reassemblePayload_eq hmem hall hcontent hdesc malloc
  have hbytes : (segs.map UnyteSegMet.call).flatMap InsertCall.content = messagePayload segs := by
    rw [List.flatMap_map]
    rfl
  have hspliced : (InsertCall.spliced (arrivals.map UnyteSegMet.call)).flatten =
      arrivalOptions arrivals := by
    have haccepted := SortedKeys.firsts_eq_self InsertCall.number _ hunique
    rw [InsertCall.spliced, InsertCall.accepted, haccepted, List.filterMap_map]
    have hsome : InsertCall.options ∘ UnyteSegMet.call =
        some ∘ (fun p : UnyteSegMet => p.header.options) := rfl
    rw [hsome, List.filterMap_eq_map]
    rfl
  have hne : arrivals.map UnyteSegMet.call ≠ [] := by
    intro hnil
    have hpos := List.length_pos_of_ne_nil h.numbered.nonempty
    rw [hnil] at hall
    exact absurd (hall 0 hpos) List.not_mem_nil
  rw [hbytes] at htotal hpayload
  rw [assembleList, hpayload, hdesc.optionsHead_of_fromParser hne hfrom, hdesc.optionsLength,
    hspliced, htotal, BitVec.toNat_ofNat]
  split
  · rw [Option.map_some, Option.getD_some, BitVec.setWidth_ofNat_of_le (by decide)]
    rfl
  · rfl

/-- The segments of a message in any order lead to one message, handed over with
the last of them. -/
theorem MessageSegments.handleAll_perm (malloc : Nat → Bool) (now : Int) {st : ParserState}
    (hst : st.Idle) (hfresh : st.segmentBuff.listOf k = createMessageSegmentList k.1 k.2)
    {arrivals : List UnyteSegMet} (harr : arrivals.Perm segs) :
    ∃ st' last, arrivals.getLast? = some last ∧ st'.Idle ∧
      handleAll malloc now st arrivals = some (st',
        if malloc ((messagePayload segs).length % 2 ^ 32) then
          [reassembledMsg segs arrivals last]
        else []) := by
  have hnumbers : ((arrivals.map UnyteSegMet.call).map InsertCall.number).Perm
      (List.range segs.length) := by
    have hrange := h.numbered.numbers
    rw [List.length_map] at hrange
    rw [← hrange]
    exact (harr.map _).map _
  have hunique := hnumbers.nodup_iff.mpr List.nodup_range
  have hmem : ∀ p ∈ arrivals, p ∈ segs := fun p hp => harr.subset hp
  have hall : AllOffered (segs.map UnyteSegMet.call) (arrivals.map UnyteSegMet.call) := by
    intro i hi
    rw [List.length_map] at hi
    exact hnumbers.symm.subset (List.mem_range.mpr hi)
  obtain ⟨init, last, rfl⟩ : ∃ init last, arrivals = init ++ [last] := by
    rcases List.eq_nil_or_concat' arrivals with hnil | hconcat
    · subst hnil
      have hnil := harr.symm.eq_nil
      exact absurd (by rw [hnil]; rfl) h.numbered.nonempty
    · exact hconcat
  -- the number of the last arrival was missing before it
  have hmissing : ¬ AllOffered (segs.map UnyteSegMet.call) (init.map UnyteSegMet.call) := by
    intro hoffered
    have hlast := hoffered last.call.number
      (h.numbered.number_lt (List.mem_map_of_mem (hmem last (by simp))))
    simp only [List.map_append, List.map_cons, List.map_nil] at hunique
    exact (List.nodup_append.mp hunique).2.2 _ hlast _ (List.mem_singleton_self _) rfl
  obtain ⟨st₁, hfirst, hst₁, hdesc₁⟩ := h.handleAll_incomplete malloc now hst
    (fun p hp => hmem p (List.mem_append_left _ hp)) hfresh hmissing
  have hlastmem : last ∈ segs := hmem last (by simp)
  obtain rfl := h.key last hlastmem
  obtain ⟨st₂, head, hdesc₂, hst₂, hhandle, _, _⟩ :=
    handleParsed_describes malloc now hst₁ (h.parsed last hlastmem) (h.segmented last hlastmem)
      hdesc₁
  rw [← List.map_singleton, ← List.map_append] at hdesc₂
  have hcomplete : head.complete = true :=
    (h.numbered.complete_iff (call_mem hmem) hdesc₂).mpr hall
  rw [hcomplete, if_pos rfl, h.assembleList_eq malloc hmem hall hunique hdesc₂] at hhandle
  refine ⟨st₂, last, List.getLast?_concat, hst₂, ?_⟩
  rw [handleAll_append, hfirst]
  simp only [Option.bind_some, handleAll, hhandle, Option.map_some, List.append_nil,
    List.nil_append]
  split <;> rfl

end Message

end UdpNotif
