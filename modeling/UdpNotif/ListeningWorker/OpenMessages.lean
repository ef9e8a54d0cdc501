import UdpNotif.ListeningWorker.Integrity
import UdpNotif.ParsingWorker.EntryCounter

/-!
Clean up passes and messages of which some segments are still to come. A pass runs only in a
buffer of more than `CLEAN_COUNT_MAX` entries, so that it never takes a message from a parser
that has no more of them open at a time, however often it is asked to clean up and whatever
its clock says.
-/

namespace UdpNotif

open Runs

section Buffer

/-- A buffer of few entries is not cleaned up. -/
theorem cleanupIfDue_of_few {buf : SegmentBuffer} (hcounted : buf.Counted)
    (hfew : buf.entries ≤ cleanCountMax) (now : Int) : cleanupIfDue now buf = buf := by
  have hexact : buf.count.toNat = buf.entries := by
    apply hcounted.toNat
    rw [cleanCountMax] at hfew
    omega
  have hnot : ¬ BitVec.ofNat 32 cleanCountMax < buf.count := by
    rw [BitVec.lt_def, hexact]
    exact Nat.not_lt.mpr hfew
  rw [cleanupIfDue, decide_eq_false hnot, Bool.and_false]
  rfl

/-- A buffer has no more entries than there are keys for them. -/
theorem SegmentBuffer.WellFormed.entries_le {buf : SegmentBuffer} (h : buf.WellFormed)
    {keys : Finset MessageKey} (hkeys : ∀ k, buf.lookup k ≠ none → k ∈ keys) :
    buf.entries ≤ keys.card := by
  apply ChainedTable.WellFormed.sum_length_le h
  intro i c hc
  apply hkeys
  rw [SegmentBuffer.lookup, h.lookup_of_mem hc]
  exact Option.some_ne_none _

/-- A clean up pass brings no entry. -/
theorem lookup_of_cleanupIfDue {buf : SegmentBuffer} (h : buf.WellFormed) (now : Int)
    {k : MessageKey} (hafter : (cleanupIfDue now buf).lookup k ≠ none) : buf.lookup k ≠ none := by
  intro hnone
  apply hafter
  unfold cleanupIfDue
  split
  · rw [cleanupSegBuff_lookup h, hnone]
    split <;> rfl
  · exact hnone

end Buffer

section Segment

variable {st : ParserState} {parsed : UnyteSegMet} {seg : UnyteSegmentation}

theorem ParserState.beforePass_cleanup :
    (st.beforePass parsed seg).cleanup = st.segmentBuff.cleanup := by
  have hflag : (st.segmentBuff.insertCall parsed.key (segmentCall parsed seg)).2.cleanup =
      st.segmentBuff.cleanup :=
    insertSegment_cleanup _ _ _ _ _ _ _ _
  simp only [beforePass]
  split
  · exact (clearSegmentList_cleanup _ _ _).trans hflag
  · exact hflag

variable (hbuilt : st.segmentBuff.Built) (hparsed : Parsed parsed)
include hbuilt hparsed

/-- The entries before the test for a clean up: the one of the segment is new, and is gone
where its message is complete. -/
theorem ParserState.beforePass_lookup (k : MessageKey) :
    (st.beforePass parsed seg).lookup k =
      if k = parsed.key then
        (if reportsComplete ((segmentCall parsed seg).apply
          (st.segmentBuff.listOf parsed.key)).1 then none
        else some ((segmentCall parsed seg).apply (st.segmentBuff.listOf parsed.key)).2)
      else st.segmentBuff.lookup k := by
  have hinserted := hbuilt.insertCall parsed.key (segmentCall_fromParser hparsed seg)
  have hlookup := st.segmentBuff.insertCall_lookup parsed.key k (segmentCall parsed seg)
  have hcode : (st.segmentBuff.insertCall parsed.key (segmentCall parsed seg)).1 =
      ((segmentCall parsed seg).apply (st.segmentBuff.listOf parsed.key)).1 :=
    SegmentBuffer.insertCall_code _ _ _
  simp only [beforePass, hcode]
  by_cases hdone : reportsComplete ((segmentCall parsed seg).apply
      (st.segmentBuff.listOf parsed.key)).1 = true
  · rw [if_pos hdone, if_pos hdone, clearMessage_lookup hinserted.wellFormed, hlookup]
    by_cases hk : k = parsed.key
    · exact (if_pos hk).trans (if_pos hk).symm
    · rw [if_neg hk, if_neg hk]
      exact if_neg hk
  · rw [if_neg hdone, if_neg hdone, hlookup]

/-- After an iteration the buffer is the one before the clean up, or the one after it. -/
theorem parseSegmented_pass {malloc : Nat → Bool} {now : Int} {st' : ParserState}
    {written : Option UnyteSegMet}
    (h : parseSegmented malloc now st parsed seg = .continued st' written) :
    st'.segmentBuff = st.beforePass parsed seg ∨
      st'.segmentBuff = cleanupIfDue now (st.beforePass parsed seg) := by
  have hcode : (st.segmentBuff.insertCall parsed.key (segmentCall parsed seg)).1 =
      ((segmentCall parsed seg).apply (st.segmentBuff.listOf parsed.key)).1 :=
    SegmentBuffer.insertCall_code _ _ _
  rcases parseSegmented_cases malloc now seg hbuilt hparsed with
    ⟨hres, hgoes⟩ | ⟨hres, hgoes⟩ | ⟨hres, hgoes⟩
  · obtain ⟨rfl, _⟩ := ParserOutcome.continued.inj (hgoes.symm.trans h)
    left
    rw [ParserState.beforePass, hcode, hres]
    rfl
  · obtain ⟨rfl, _⟩ := ParserOutcome.continued.inj (hgoes.symm.trans h)
    right
    rw [ParserState.beforePass, hcode, hres]
    rfl
  · obtain ⟨rfl, _⟩ := ParserOutcome.continued.inj (hgoes.symm.trans h)
    right
    have hreports : reportsComplete
        (st.segmentBuff.insertCall parsed.key (segmentCall parsed seg)).1 = true := by
      rw [hcode]
      rcases hres with hres | hres
      · rw [hres]
        rfl
      · rw [hres]
        rfl
    rw [ParserState.beforePass, if_pos hreports]

/-- Without a request to clean up it is the one before. -/
theorem parseSegmented_idle {malloc : Nat → Bool} {now : Int} {st' : ParserState}
    {written : Option UnyteSegMet} (hidle : st.segmentBuff.cleanup = false)
    (h : parseSegmented malloc now st parsed seg = .continued st' written) :
    st'.segmentBuff = st.beforePass parsed seg := by
  rcases parseSegmented_pass hbuilt hparsed h with hbuf | hbuf
  · exact hbuf
  · rw [hbuf, cleanupIfDue, ParserState.beforePass_cleanup, hidle]
    rfl

end Segment

/-- A datagram is a segment of the message `k`. -/
def SegmentOf (legacyProto : Bool) (k : MessageKey) (queueData : UnyteMin) : Prop :=
  ∃ parsed, parseFunc legacyProto queueData.buffer.val queueData = .ok parsed ∧
    isSegmented parsed.header = true ∧ parsed.key = k

/-- What a parser stores after an iteration it stored before, or the datagram is a segment
of it. -/
theorem ParserState.Reachable.stored_cases {legacyProto : Bool} {st state : ParserState}
    (h : st.Reachable legacyProto) {malloc : Nat → Bool} {now : Int} {queueData : UnyteMin}
    {written : Option UnyteSegMet}
    (hiteration : parserIteration legacyProto malloc now st queueData = .continued state written)
    {k : MessageKey} (hstored : state.segmentBuff.lookup k ≠ none) :
    st.segmentBuff.lookup k ≠ none ∨ SegmentOf legacyProto k queueData := by
  cases hparse : parseFunc legacyProto queueData.buffer.val queueData with
  | diverges | undefined | null =>
      rw [parserIteration, hparse] at hiteration
      cases hiteration
  | ok parsed =>
      have hparsed := parseFunc_parsed hparse
      rw [parserIteration_ok hparse, handleParsed] at hiteration
      by_cases hsegmented : isSegmented parsed.header = true
      · obtain ⟨seg, hseg⟩ := Option.ne_none_iff_exists'.mp (hparsed.segmented hsegmented)
        simp only [hsegmented, if_true, hseg] at hiteration
        have hpass : (st.beforePass parsed seg).lookup k ≠ none := by
          rcases parseSegmented_pass h.built hparsed hiteration with hbuf | hbuf
          · rwa [hbuf] at hstored
          · rw [hbuf] at hstored
            have hcounted := beforePass_counted h.built hparsed h.counted seg
            exact lookup_of_cleanupIfDue hcounted.1 now hstored
        rw [beforePass_lookup h.built hparsed] at hpass
        by_cases hk : k = parsed.key
        · exact Or.inr ⟨parsed, hparse, hsegmented, hk.symm⟩
        · rw [if_neg hk] at hpass
          exact Or.inl hpass
      · rw [if_neg hsegmented] at hiteration
        obtain ⟨rfl, _⟩ := ParserOutcome.continued.inj hiteration
        exact Or.inl hstored

/-- What a parser stores came with a segment that it took. -/
theorem LoneParser.stored_run {legacyProto : Bool} {events : List ParserEvent} {p : LoneParser}
    (hrun : Run (Step legacyProto) .init events p) :
    ∀ k, p.state.segmentBuff.lookup k ≠ none →
      ∃ queueData ∈ packets events, SegmentOf legacyProto k queueData := by
  refine hrun.invariant (I := fun events p => ∀ k, p.state.segmentBuff.lookup k ≠ none →
    ∃ queueData ∈ packets events, SegmentOf legacyProto k queueData) ?_ ?_
  · exact fun k hstored => absurd rfl hstored
  · intro events p l p' hbefore ih hstep k hstored
    cases l with
    | requestCleanup =>
        rw [step_requestCleanup hstep] at hstored
        rw [packets_requestCleanup]
        exact ih k hstored
    | packet queueData malloc now =>
        rw [packets_packet]
        have hcases : p.state.segmentBuff.lookup k ≠ none ∨
            SegmentOf legacyProto k queueData := by
          rcases step_packet_cases hstep with ⟨state, written, hiteration, rfl⟩ | ⟨_, rfl⟩
          · exact (reachable_of_run hbefore).stored_cases hiteration hstored
          · exact Or.inl hstored
        rcases hcases with hold | hnew
        · obtain ⟨q, hq, hsegment⟩ := ih k hold
          exact ⟨q, List.mem_append_left _ hq, hsegment⟩
        · exact ⟨queueData, List.mem_append_right _ (List.mem_singleton_self _), hnew⟩

section Open

variable {messages : List Message}

instance (arrivals : List (Arrival messages)) (i : Fin messages.length) :
    Decidable (Complete arrivals i) :=
  inferInstanceAs (Decidable (∀ j (_h : j < (messages.get i).parts.length), _ ∈ arrivals))

/-- Some packets of a message arrived, but not all of them. -/
def Open (arrivals : List (Arrival messages)) (i : Fin messages.length) : Prop :=
  (∃ a ∈ arrivals, a.message = i) ∧ ¬ Complete arrivals i

instance (arrivals : List (Arrival messages)) (i : Fin messages.length) :
    Decidable (Open arrivals i) :=
  inferInstanceAs (Decidable (_ ∧ _))

variable {options : UnyteUdpOptions}

/-- The open messages of a parser. -/
def openMessages (options : UnyteUdpOptions) (i : options.ParserId)
    (arrivals : List (Arrival messages)) : Finset (Fin messages.length) :=
  Finset.univ.filter fun j => owner options j = i ∧ Open arrivals j

/-- At no time a parser has more open messages than the clean up spares. -/
def FewOpen (options : UnyteUdpOptions) (arrivals : List (Arrival messages)) : Prop :=
  ∀ i arrived, arrived <+: arrivals → (openMessages options i arrived).card ≤ cleanCountMax

/-- A packet that is parsed as a segment belongs to a segmented message. -/
theorem Arrival.exists_segmented (a : Arrival messages) {um : UnyteMin}
    (hsegmented : isSegmented (a.datagram.parsed um).header = true) :
    ∃ m, messages.get a.message = .segmented m := by
  cases hm : messages.get a.message with
  | unsegmented d whole =>
      have hmem := a.datagram_mem
      rw [hm] at hmem
      obtain hd : a.datagram = d := List.mem_singleton.mp hmem
      rw [Datagram.isSegmented_parsed, hd] at hsegmented
      exact absurd whole hsegmented
  | segmented m => exact ⟨m, rfl⟩

theorem open_takenOf (taken : List (Arrival messages)) (i : Fin messages.length) :
    Open (takenOf taken i) i ↔ Open taken i := by
  refine and_congr ?_ (not_congr (complete_takenOf taken i))
  simp [takenOf]

/-- What is open at a parser depends on the packets of its messages. -/
theorem openMessages_congr {i : options.ParserId} {left right : List (Arrival messages)}
    (hsame : left.filter (fun a => owner options a.message = i) =
      right.filter (fun a => owner options a.message = i)) :
    openMessages options i left = openMessages options i right := by
  refine Finset.filter_congr fun j _ => and_congr_right fun hown => ?_
  subst hown
  have htaken : takenOf left j = takenOf right j :=
    Dispatch.filter_eq_of_class (g := fun j => owner options j) (fun _ => rfl) hsame
  rw [← open_takenOf, htaken, open_takenOf]

/-- A list has a segment as soon as a call was made for it. -/
theorem Describes.cells_eq_nil_iff {calls : List InsertCall} {head : MessageSegmentList}
    (h : Describes calls head) : head.cells = [] ↔ calls = [] := by
  have hstored := h.stored.length_eq
  rw [List.length_map] at hstored
  rw [← List.length_eq_zero_iff, hstored, List.length_eq_zero_iff]
  exact SortedKeys.firsts_eq_nil_iff _ _

/-- The messages that a parser stores are open. -/
theorem Tracks.stored_open {own : Fin messages.length → Prop} {taken : List (Arrival messages)}
    {st : ParserState} (h : Tracks own taken st) {j : Fin messages.length} {m : SegmentedMessage}
    (hown : own j) (hm : messages.get j = .segmented m)
    (hstored : st.segmentBuff.lookup m.key ≠ none) : Open taken j := by
  obtain ⟨head, hhead⟩ := Option.ne_none_iff_exists'.mp hstored
  have hlist : st.segmentBuff.listOf m.key = head := by
    rw [SegmentBuffer.listOf, hhead, Option.getD_some]
  have hcells : head.cells ≠ [] := by
    obtain ⟨calls, hcalls, _, hdesc⟩ := h.built.lists m.key head hhead
    exact fun hnil => hcalls (hdesc.cells_eq_nil_iff.mp hnil)
  have hincomplete : ¬ Complete taken j := by
    intro hcomplete
    apply hcells
    rw [← hlist, h.dropped j m hown hm hcomplete]
    rfl
  refine ⟨?_, hincomplete⟩
  have hdesc := h.stored j m hown hm hincomplete
  rw [hlist] at hdesc
  have hcalls : callsOf taken j ≠ [] := fun hnil => hcells (hdesc.cells_eq_nil_iff.mpr hnil)
  obtain ⟨_, hcall⟩ := List.exists_mem_of_ne_nil _ hcalls
  obtain ⟨a, ha, _⟩ := List.mem_map.mp hcall
  obtain ⟨hmem, hmessage⟩ := List.mem_filter.mp ha
  exact ⟨a, hmem, of_decide_eq_true hmessage⟩

variable (messages) in
/-- Every entry of a parser belongs to one of its messages. -/
def StoresOwn (i : options.ParserId) (buf : SegmentBuffer) : Prop :=
  ∀ k, buf.lookup k ≠ none → ∃ (j : Fin messages.length) (m : SegmentedMessage),
    owner options j = i ∧ messages.get j = .segmented m ∧ m.key = k

/-- Before the test for a clean up a parser stores only messages that are open, the segment
it is handling included. -/
theorem Tracks.beforePass_open {i : options.ParserId} {taken : List (Arrival messages)}
    {st : ParserState} (h : Tracks (fun j : Fin messages.length => owner options j = i) taken st)
    (hkeys : DistinctKeys messages) (hstores : StoresOwn messages i st.segmentBuff)
    {a : Arrival messages} (hown : owner options a.message = i)
    (hearly : ¬ Complete taken a.message) {um : UnyteMin} (hum : Carries a um)
    (hsegmented : isSegmented (a.datagram.parsed um).header = true) {seg : UnyteSegmentation}
    (hseg : (a.datagram.parsed um).header.segmentation = some seg) :
    ∀ k, (st.beforePass (a.datagram.parsed um) seg).lookup k ≠ none →
      ∃ j ∈ openMessages options i (taken ++ [a]), (messages.get j).key = k := by
  intro k hstored
  have hparsed : Parsed (a.datagram.parsed um) := parseWithMetadata_parsed hum.parse
  have hparse : parseFunc false um.buffer.val um = .ok (a.datagram.parsed um) := hum.parse
  -- the same iteration without a request to clean up
  let quiet : ParserState :=
    { st with segmentBuff := { st.segmentBuff with cleanup := false } }
  have hquiet : Tracks (fun j => owner options j = i) taken quiet :=
    ⟨⟨h.built.wellFormed, h.built.lists⟩, h.dropped, h.stored⟩
  obtain ⟨st', written, hiteration, hidle, htracks, _⟩ :=
    hquiet.iteration hkeys hown hearly
      (fun _ => rfl : ∀ size, (fun _ : Nat => true) size = true) 0 hum
  have hafter := htracks (hidle rfl)
  have hbuffer : st'.segmentBuff = quiet.beforePass (a.datagram.parsed um) seg := by
    rw [parserIteration_ok hparse, handleParsed] at hiteration
    simp only [hsegmented, if_true, hseg] at hiteration
    exact parseSegmented_idle hquiet.built hparsed rfl hiteration
  have hsame : st'.segmentBuff.lookup k =
      (st.beforePass (a.datagram.parsed um) seg).lookup k := by
    rw [hbuffer, ParserState.beforePass_lookup hquiet.built hparsed,
      ParserState.beforePass_lookup h.built hparsed]
    rfl
  obtain ⟨m, hm⟩ := a.exists_segmented hsegmented
  have hkey : (a.datagram.parsed um).key = m.key := by
    rw [Datagram.parsed_key, a.key_eq, hm]
    rfl
  obtain ⟨j, m', hj, hm', rfl⟩ : ∃ (j : Fin messages.length) (m' : SegmentedMessage),
      owner options j = i ∧ messages.get j = .segmented m' ∧ m'.key = k := by
    by_cases hk : k = (a.datagram.parsed um).key
    · exact ⟨a.message, m, hown, hm, (hk.trans hkey).symm⟩
    · apply hstores k
      rwa [ParserState.beforePass_lookup h.built hparsed, if_neg hk] at hstored
  refine ⟨j, ?_, ?_⟩
  · have hopen := hafter.stored_open hj hm' (hsame ▸ hstored)
    exact Finset.mem_filter.mpr ⟨Finset.mem_univ j, hj, hopen⟩
  · rw [hm']
    rfl

end Open

/-- A step in which no queue is full and no allocation fails. Clean up passes may run. -/
def Collector.Unhindered {options : UnyteUdpOptions} (c : Collector options)
    (l : CollectorEvent options) (_ : Collector options) : Prop :=
  match l with
  | .receive message => message.datagram ≠ [] →
      (c.parsers (options.dispatch message.minimalParse)).input.write message.minimalParse ≠ none
  | .parse _ malloc _ => ∀ size, malloc size = true
  | .write i => ∀ message, (c.parsers i).phase = .writing message → c.output.write message ≠ none
  | .read _ | .requestCleanup _ | .clientRead => True

section Collector

variable {options : UnyteUdpOptions} {messages : List Message} {arrived : List (Arrival messages)}
  {ls : List (CollectorEvent options)} {c c' : Collector options}

/-- A parser stores only messages that are its own. -/
theorem storesOwn_of_run (hlegacy : options.legacy = false)
    (hrun : Run Collector.Step (.init options) ls c)
    (hreceived : received ls = arrived.map Arrival.bytes) (i : options.ParserId) :
    StoresOwn messages i (c.parsers i).state.segmentBuff := by
  intro k hstored
  obtain ⟨events, lone, queued, h⟩ := Collector.refinesParsers_of_run hrun
  have hlone := (h.threads i).run
  rw [hlegacy] at hlone
  rw [← (h.threads i).state] at hstored
  obtain ⟨queueData, htaken, parsed, hparse, hsegmented, rfl⟩ :=
    LoneParser.stored_run hlone k hstored
  obtain ⟨waiting, _, hcarries⟩ := (h.threads i).input
  have hoffered : queueData ∈ offered ls i :=
    ((List.sublist_append_left _ _).trans hcarries).subset htaken
  obtain ⟨as, _, hcarried⟩ := Lossy.exists_sublist_of_forall₂
    ((elements_of_received hreceived).offered i) (List.singleton_sublist.mpr hoffered)
  obtain ⟨a, _, ⟨hcarried, hdispatch⟩, _, _⟩ := List.forall₂_cons_right_iff.mp hcarried
  obtain rfl : parsed = a.datagram.parsed queueData :=
    ParseResult.ok.inj (hparse.symm.trans hcarried.parse)
  have howner : owner options a.message = i := by
    rw [← hdispatch]
    exact of_decide_eq_true (List.mem_filter.mp hoffered).2
  have hkey : (a.datagram.parsed queueData).key = (messages.get a.message).key := by
    rw [Datagram.parsed_key, a.key_eq]
  obtain ⟨m, hm⟩ := a.exists_segmented hsegmented
  rw [hm] at hkey
  exact ⟨a.message, m, howner, hm, hkey.symm⟩

/-- Of few messages few are open. -/
theorem fewOpen_of_length (hlength : messages.length ≤ cleanCountMax)
    (arrivals : List (Arrival messages)) : FewOpen options arrivals := by
  intro i arrived _
  calc (openMessages options i arrived).card ≤ (Finset.univ : Finset (Fin messages.length)).card :=
        Finset.card_le_univ _
    _ = messages.length := Finset.card_fin _
    _ ≤ cleanCountMax := hlength

/-- Once a packet is taken, few messages of its parser are open. -/
theorem FewOpen.taken {arrivals taken : List (Arrival messages)}
    {pending : options.ParserId → List (Arrival messages)} (hfew : FewOpen options arrivals)
    (hfront : arrived <+: arrivals)
    (horder : Dispatch.Ordered (fun a => owner options a.message) arrived taken pending)
    {i : options.ParserId} {a : Arrival messages} {rest : List (Arrival messages)}
    (hpending : pending i = a :: rest) :
    (openMessages options i (taken ++ [a])).card ≤ cleanCountMax := by
  obtain ⟨before, after, rfl, hbefore⟩ := horder.exists_before hpending
  have hsame : openMessages options i (taken ++ [a]) = openMessages options i (before ++ [a]) := by
    apply openMessages_congr
    rw [List.filter_append, List.filter_append, hbefore]
  rw [hsame]
  apply hfew i
  have hsplit : before ++ a :: after = (before ++ [a]) ++ after := List.append_cons _ _ _
  rw [hsplit] at hfront
  exact (List.prefix_append _ _).trans hfront

/-- As long as few messages are open no clean up pass runs in an iteration. -/
theorem Collector.Represents.parse_keeps_flag {taken : List (Arrival messages)}
    {pending : options.ParserId → List (Arrival messages)} {queued : List UnyteSegMet}
    {completed : List (Fin messages.length)}
    (h : c.Represents arrived taken pending queued completed) (hlegacy : options.legacy = false)
    (hkeys : DistinctKeys messages) {arrivals : List (Arrival messages)}
    (hadmissible : Admissible arrivals) (hfew : FewOpen options arrivals)
    (hfront : arrived <+: arrivals) (hrun : Run Collector.Step (.init options) ls c)
    (hreceived : received ls = arrived.map Arrival.bytes) {i : options.ParserId}
    {malloc : Nat → Bool} {now : Int} (hparse : c.parse i malloc now = some c') :
    (c'.parsers i).state.segmentBuff.cleanup = (c.parsers i).state.segmentBuff.cleanup := by
  obtain ⟨queueData, hphase, hcases⟩ := Collector.parse_cases hparse
  obtain ⟨_, elements, _, hcarries⟩ := h.threads i
  rw [hphase] at hcarries
  obtain ⟨a, rest, hhead, _, hpending⟩ := List.forall₂_cons_right_iff.mp hcarries
  obtain ⟨_, hown⟩ := h.order.pending_mem (k := i) (a := a)
    (by rw [hpending]; exact List.mem_cons_self)
  have hearly := hadmissible.not_complete hfront h.order hpending
  have hreachable : (c.parsers i).state.Reachable false := by
    obtain ⟨events, lone, queued', hpipelined⟩ := Collector.refinesParsers_of_run hrun
    have hlone := (hpipelined.threads i).run
    rw [hlegacy] at hlone
    rw [← (hpipelined.threads i).state]
    exact LoneParser.reachable_of_run hlone
  rcases hcases with ⟨state, written, phase, hiteration, _, _, _, rfl⟩ | ⟨_, rfl⟩
  · rw [Collector.setParser_self]
    change state.segmentBuff.cleanup = _
    have hok : parseFunc false queueData.buffer.val queueData =
        .ok (a.datagram.parsed queueData) := hhead.parse
    have hparsed := parseFunc_parsed hok
    rw [hlegacy, parserIteration_ok hok, handleParsed] at hiteration
    by_cases hsegmented : isSegmented (a.datagram.parsed queueData).header = true
    · obtain ⟨seg, hseg⟩ := Option.ne_none_iff_exists'.mp (hparsed.segmented hsegmented)
      simp only [hsegmented, if_true, hseg] at hiteration
      obtain ⟨hwell, hcounted⟩ :=
        ParserState.beforePass_counted hreachable.built hparsed hreachable.counted seg
      have hopen := (h.tracks i).beforePass_open hkeys
        (storesOwn_of_run hlegacy hrun hreceived i) hown hearly hhead hsegmented hseg
      have hentries : ((c.parsers i).state.beforePass (a.datagram.parsed queueData)
          seg).entries ≤ cleanCountMax := by
        calc _ ≤ ((openMessages options i (taken ++ [a])).image fun j =>
                  (messages.get j).key).card := by
              apply hwell.entries_le
              exact fun k hstored => Finset.mem_image.mpr (hopen k hstored)
          _ ≤ (openMessages options i (taken ++ [a])).card := Finset.card_image_le
          _ ≤ cleanCountMax := hfew.taken hfront h.order hpending
      have hbuffer : state.segmentBuff =
          (c.parsers i).state.beforePass (a.datagram.parsed queueData) seg := by
        rcases parseSegmented_pass hreachable.built hparsed hiteration with hbuf | hbuf
        · exact hbuf
        · rw [hbuf, cleanupIfDue_of_few hcounted hentries]
      rw [hbuffer]
      exact ParserState.beforePass_cleanup
    · rw [if_neg hsegmented] at hiteration
      obtain ⟨rfl, _⟩ := ParserOutcome.continued.inj hiteration
      rfl
  · rw [Collector.setParser_self]

/-- As long as few messages are open, a run in which no queue is full and no allocation fails
is one without incident. -/
theorem undisturbed_of_run (hlegacy : options.legacy = false) (hkeys : DistinctKeys messages)
    {arrivals : List (Arrival messages)} (hadmissible : Admissible arrivals)
    (hfew : FewOpen options arrivals)
    (hrun : Run (Restrict Collector.Step Collector.Unhindered) (.init options) ls c) :
    ∀ arrived, arrived <+: arrivals → received ls = arrived.map Arrival.bytes →
      Run (Restrict Collector.Step Collector.Undisturbed) (.init options) ls c := by
  induction hrun with
  | nil => exact fun _ _ _ => .nil
  | @snoc ls c l c' hbefore hlast ih =>
      obtain ⟨hstep, hunhindered⟩ := hlast
      intro arrived hfront hreceived
      rw [received, List.filterMap_append] at hreceived
      obtain ⟨first, last, rfl, hfirst, hlast⟩ := List.map_eq_append_iff.mp hreceived.symm
      have hprefix : first <+: arrivals := (List.prefix_append _ _).trans hfront
      have hquiet := ih first hprefix hfirst.symm
      refine hquiet.snoc ⟨hstep, ?_⟩
      cases l with
      | parse i malloc now =>
          refine ⟨hunhindered, ?_⟩
          obtain ⟨taken, pending, queued, completed, h⟩ :=
            follows_of_run hlegacy hkeys hadmissible hquiet first hprefix hfirst.symm
          exact h.parse_keeps_flag hlegacy hkeys hadmissible hfew hprefix hquiet.of_restrict
            hfirst.symm hstep
      | receive | read | write | requestCleanup | clientRead => exact hunhindered

/-- Every message is delivered exactly once as long as no parser has more than
`CLEAN_COUNT_MAX` of them open at a time, however often the clean up threads ask for a pass and
whatever the clock says. -/
theorem few_open_messages_delivered_once (hlegacy : options.legacy = false)
    (hkeys : DistinctKeys messages) {arrivals : List (Arrival messages)}
    (hadmissible : Admissible arrivals) (hfew : FewOpen options arrivals)
    (hrun : Run (Restrict Collector.Step Collector.Unhindered) (.init options) ls c)
    (hreceived : received ls = arrivals.map Arrival.bytes) :
    (∀ i now, ¬ c.AtRest i → (c.read i).isSome ∨ (c.parse i (fun _ => true) now).isSome ∨
      (c.write i).isSome) ∧
    ((∀ i, c.AtRest i) → ∃ queued, c.output.Holds queued ∧
      ((c.client ++ queued).map UnyteSegMet.content).Perm (messages.map Message.content)) := by
  have hquiet := undisturbed_of_run hlegacy hkeys hadmissible hfew hrun arrivals
    (List.prefix_refl _) hreceived
  have hfollows := follows_of_run hlegacy hkeys hadmissible hquiet arrivals (List.prefix_refl _)
    hreceived
  exact ⟨fun i now hbusy => hfollows.progress hlegacy hkeys hadmissible (List.prefix_refl _)
    hbusy now, hfollows.delivered hadmissible⟩

end Collector

/-- A run without incident is one in which no queue is full and no allocation fails. -/
theorem Collector.Undisturbed.unhindered {options : UnyteUdpOptions} {c c' : Collector options}
    {l : CollectorEvent options} (h : c.Undisturbed l c') : c.Unhindered l c' := by
  cases l with
  | parse i malloc now => exact h.1
  | receive | read | write | requestCleanup | clientRead => exact h

/-- Two messages are open at once when a pass is asked for, and each is delivered once. -/
theorem reordered_delivered_despite_request : ∃ c : Collector smallOptions,
    Run (Restrict Collector.Step Collector.Unhindered) (.init smallOptions) reorderedEvents c ∧
      .requestCleanup (smallParser 1) ∈ reorderedEvents ∧
      c.client.map UnyteSegMet.content = [wholeContent 1, threeContent] ∧
      ∃ queued, c.output.Holds queued ∧ ((c.client ++ queued).map UnyteSegMet.content).Perm
        (smallMessages.map Message.content) := by
  obtain ⟨c, hquiet, hclient, hrest⟩ := exists_reorderedRun
  have hrun : Run (Restrict Collector.Step Collector.Unhindered) (.init smallOptions)
      reorderedEvents c := hquiet.imp fun _ _ _ hstep => ⟨hstep.1, hstep.2.unhindered⟩
  have hfew : smallMessages.length ≤ cleanCountMax := by decide
  refine ⟨c, hrun, by simp [reorderedEvents], hclient, ?_⟩
  exact (few_open_messages_delivered_once rfl smallMessages_keys reordered_admissible
    (fewOpen_of_length hfew _) hrun reordered_received).2 hrest

end UdpNotif
