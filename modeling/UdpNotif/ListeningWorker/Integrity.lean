import UdpNotif.ListeningWorker.Pipelines

/-!
What a collector may be given by any network: packets of messages that are lost,
repeated and reordered, with full queues, clean up passes and failed allocations
of reassembled payloads in the collector itself. A message that reaches the client
was sent, is whole, and reaches it no more often than each of its packets was
received.
-/

namespace UdpNotif

open Runs

/-- A list assembled where an allocation may fail is the one assembled where
none does. -/
theorem assembleList_of_malloc {malloc : Nat → Bool} {p w : UnyteSegMet}
    {head : MessageSegmentList} (h : assembleList malloc p head = some w) :
    assembleList (fun _ => true) p head = some w := by
  rw [assembleList, reassemblePayload] at h
  split at h
  · exact h
  · cases h

/-- A clean up pass removes a list or leaves its segments as they are. -/
theorem cleanupIfDue_describes {buf : SegmentBuffer} (h : buf.WellFormed) (now : Int)
    {k : MessageKey} {calls : List InsertCall} (hdesc : Describes calls (buf.listOf k)) :
    (cleanupIfDue now buf).lookup k = none ∨
      Describes calls ((cleanupIfDue now buf).listOf k) := by
  unfold cleanupIfDue
  split
  · have hlookup := cleanupSegBuff_lookup h now k
    cases hafter : (cleanupSegBuff now buf cleanUpPassSize).lookup k with
    | none => exact Or.inl rfl
    | some head =>
        refine Or.inr ?_
        rw [hafter] at hlookup
        rw [SegmentBuffer.listOf, hafter, Option.getD_some]
        split at hlookup
        · obtain ⟨old, hold, hvisit⟩ := Option.bind_eq_some_iff.mp hlookup.symm
          rw [SegmentBuffer.listOf, hold, Option.getD_some] at hdesc
          exact visitHead_describes hdesc hvisit
        · rwa [SegmentBuffer.listOf, ← hlookup, Option.getD_some] at hdesc
  · exact Or.inr hdesc

variable {messages : List Message}

theorem count_concat (taken : List (Arrival messages)) (a b : Arrival messages) :
    (taken ++ [a]).count b = taken.count b + if b = a then 1 else 0 := by
  rw [List.count_append, List.count_singleton]
  by_cases h : b = a
  · simp [h]
  · simp [h, Ne.symm h]

/-- A packet of an unsegmented message is the only one. -/
theorem Arrival.eq_of_unsegmented {a b : Arrival messages} {d : Datagram} {whole : d.segments = []}
    (hm : messages.get a.message = .unsegmented d whole) (h : b.message = a.message) : b = a := by
  have hlen : (messages.get a.message).parts.length = 1 := by rw [hm]; rfl
  have ha := a.part_lt
  have hb := b.part_lt
  obtain ⟨i, j, hj⟩ := a
  obtain ⟨i', j', hj'⟩ := b
  obtain rfl : i' = i := h
  obtain rfl : j' = j := by
    simp only at hlen ha hb
    omega
  rfl

/-- The segments of a message that a parser holds, as calls. -/
abbrev HeldCalls (messages : List Message) := Fin messages.length → List InsertCall

/-- Every packet a parser has taken is in at most one of its deliveries or in what
it holds of the message. -/
structure Accounted (taken : List (Arrival messages)) (deliveries : List (Fin messages.length))
    (held : HeldCalls messages) (buf : SegmentBuffer) : Prop where
  built : buf.Built
  describes : ∀ i m, messages.get i = .segmented m → Describes (held i) (buf.listOf m.key)
  calls : ∀ i, ∀ c ∈ held i, c ∈ (messages.get i).parts.map Datagram.call
  unheld : ∀ i d whole, messages.get i = .unsegmented d whole → held i = []
  count : ∀ a : Arrival messages, deliveries.count a.message +
    (if a.part ∈ (held a.message).map InsertCall.number then 1 else 0) ≤ taken.count a

theorem accounted_init : Accounted ([] : List (Arrival messages)) [] (fun _ => [])
    ParserState.init.segmentBuff where
  built := createSegmentBuffer_built
  describes := fun i m _ => by
    have hlist : ParserState.init.segmentBuff.listOf m.key = _ := createSegmentBuffer_listOf m.key
    rw [hlist]
    exact describes_nil m.key.1 m.key.2
  calls := fun _ _ hc => absurd hc List.not_mem_nil
  unheld := fun _ _ _ _ => rfl
  count := fun a => by simp

section Steps

variable {taken : List (Arrival messages)} {deliveries : List (Fin messages.length)}
  {held : HeldCalls messages} {buf : SegmentBuffer}
  (h : Accounted taken deliveries held buf)
include h

/-- What is delivered was taken. -/
theorem Accounted.delivered (a : Arrival messages) :
    deliveries.count a.message ≤ taken.count a :=
  (Nat.le_add_right _ _).trans (h.count a)

/-- A parser may forget what it holds of some messages. -/
theorem Accounted.forget {buf' : SegmentBuffer} (hbuilt : buf'.Built)
    (hlists : ∀ i m, messages.get i = .segmented m → buf'.lookup m.key = none ∨
      Describes (held i) (buf'.listOf m.key)) :
    ∃ held', Accounted taken deliveries held' buf' := by
  classical
  let kept (i : Fin messages.length) : Prop :=
    ∀ m, messages.get i = .segmented m → Describes (held i) (buf'.listOf m.key)
  refine ⟨fun i => if kept i then held i else [], hbuilt, fun i m hm => ?_, fun i c hc => ?_,
    fun i d whole hm => ?_, fun a => ?_⟩
  · split
    · rename_i hkept
      exact hkept m hm
    · rename_i hlost
      have hnone : buf'.lookup m.key = none := (hlists i m hm).resolve_right (fun hdesc =>
        hlost (fun m' hm' => by
          obtain rfl := Message.segmented.inj (hm.symm.trans hm')
          exact hdesc))
      rw [SegmentBuffer.listOf, hnone]
      exact describes_nil m.key.1 m.key.2
  · split at hc
    · exact h.calls i c hc
    · exact absurd hc List.not_mem_nil
  · rw [h.unheld i d whole hm, ite_self]
  · have hcount := h.count a
    split
    · exact hcount
    · simp only [List.map_nil, List.not_mem_nil, if_false, Nat.add_zero]
      exact h.delivered a

/-- A clean up pass only makes a parser forget. -/
theorem Accounted.cleanupIfDue (now : Int) :
    ∃ held', Accounted taken deliveries held' (cleanupIfDue now buf) :=
  h.forget (cleanupIfDue_built h.built now)
    (fun i m hm => cleanupIfDue_describes h.built.wellFormed now (h.describes i m hm))

/-- A packet of an unsegmented message is delivered as it is. -/
theorem Accounted.whole {a : Arrival messages} {d : Datagram} {whole : d.segments = []}
    (hm : messages.get a.message = .unsegmented d whole) :
    Accounted (taken ++ [a]) (deliveries ++ [a.message]) held buf where
  built := h.built
  describes := h.describes
  calls := h.calls
  unheld := h.unheld
  count := by
    intro b
    have hcount := h.count b
    rw [count_concat, List.count_append, List.count_singleton]
    by_cases hb : b.message = a.message
    · obtain rfl := Arrival.eq_of_unsegmented hm hb
      rw [h.unheld _ _ _ hm] at hcount ⊢
      simpa using hcount
    · have hne : ¬ b = a := fun heq => hb (congrArg Arrival.message heq)
      simpa [hne, Ne.symm hb] using hcount

/-- A segment is stored with those held of its message. -/
theorem Accounted.insert {a : Arrival messages} {m : SegmentedMessage}
    (hkeys : DistinctKeys messages) (hm : messages.get a.message = .segmented m)
    (hfrom : a.datagram.call.FromParser) :
    Accounted (taken ++ [a]) deliveries
      (Function.update held a.message (held a.message ++ [a.datagram.call]))
      (buf.insertCall m.key a.datagram.call).2 where
  built := h.built.insertCall m.key hfrom
  describes := by
    intro i m' hm'
    by_cases hi : i = a.message
    · subst hi
      obtain rfl := Message.segmented.inj (hm.symm.trans hm')
      rw [Function.update_self, SegmentBuffer.listOf, SegmentBuffer.insertCall_lookup, if_pos rfl,
        Option.getD_some]
      exact ((h.describes _ m hm).insert _).1
    · rw [Function.update_of_ne hi, SegmentBuffer.listOf, SegmentBuffer.insertCall_lookup,
        if_neg (hkeys.key_ne hi hm' hm)]
      exact h.describes i m' hm'
  calls := by
    intro i c hc
    by_cases hi : i = a.message
    · subst hi
      rw [Function.update_self] at hc
      rcases List.mem_append.mp hc with hc | hc
      · exact h.calls _ c hc
      · rw [List.mem_singleton.mp hc]
        exact List.mem_map_of_mem a.datagram_mem
    · rw [Function.update_of_ne hi] at hc
      exact h.calls i c hc
  unheld := by
    intro i d whole hunsegmented
    have hi : i ≠ a.message := by
      rintro rfl
      rw [hm] at hunsegmented
      cases hunsegmented
    rw [Function.update_of_ne hi]
    exact h.unheld i d whole hunsegmented
  count := by
    intro b
    have hcount := h.count b
    rw [count_concat]
    by_cases hb : b = a
    · subst hb
      have hdelivered := h.delivered b
      split <;> simp <;> omega
    · have hsame : b.part ∈ (Function.update held a.message
          (held a.message ++ [a.datagram.call]) b.message).map InsertCall.number ↔
          b.part ∈ (held b.message).map InsertCall.number := by
        by_cases hmessage : b.message = a.message
        · have hpart : b.part ≠ a.part := fun hpart => hb (by
            obtain ⟨i, j, hj⟩ := a
            obtain ⟨i', j', hj'⟩ := b
            obtain rfl : i' = i := hmessage
            obtain rfl : j' = j := hpart
            rfl)
          rw [hmessage, Function.update_self, List.map_append, List.mem_append,
            List.map_singleton, List.mem_singleton, a.number_eq hm, or_iff_left hpart]
        · rw [Function.update_of_ne hmessage]
      rw [if_neg hb]
      simp only [hsame]
      exact hcount

/-- A message whose segments are all held is delivered, if it can be allocated, and
cleared. -/
theorem Accounted.deliver {i : Fin messages.length} {m : SegmentedMessage}
    (hkeys : DistinctKeys messages) (hm : messages.get i = .segmented m)
    (hall : ∀ j < m.parts.length, j ∈ (held i).map InsertCall.number)
    (delivered : Option (Fin messages.length)) (hdelivered : ∀ j ∈ delivered, j = i) :
    Accounted taken (deliveries ++ delivered.toList) (Function.update held i [])
      (clearMessage buf m.key.1 m.key.2) where
  built := clearMessage_built h.built _ _
  describes := by
    intro j m' hm'
    rw [SegmentBuffer.listOf, clearMessage_lookup h.built.wellFormed]
    by_cases hj : j = i
    · subst hj
      obtain rfl := Message.segmented.inj (hm.symm.trans hm')
      rw [Function.update_self, if_pos rfl]
      exact describes_nil m.key.1 m.key.2
    · rw [Function.update_of_ne hj, if_neg (hkeys.key_ne hj hm' hm)]
      exact h.describes j m' hm'
  calls := by
    intro j c hc
    by_cases hj : j = i
    · subst hj
      rw [Function.update_self] at hc
      exact absurd hc List.not_mem_nil
    · rw [Function.update_of_ne hj] at hc
      exact h.calls j c hc
  unheld := by
    intro j d whole hunsegmented
    have hj : j ≠ i := by
      rintro rfl
      rw [hm] at hunsegmented
      cases hunsegmented
    rw [Function.update_of_ne hj]
    exact h.unheld j d whole hunsegmented
  count := by
    intro b
    have hcount := h.count b
    by_cases hb : b.message = i
    · have hpart := b.part_lt
      have hparts : (messages.get b.message).parts = m.parts := by rw [hb, hm]; rfl
      rw [hparts] at hpart
      rw [hb] at hcount
      rw [if_pos (hall _ hpart)] at hcount
      have hone : delivered.toList.count i ≤ 1 :=
        List.count_le_length.trans (by cases delivered <;> simp)
      rw [hb, Function.update_self, List.count_append]
      simp only [List.map_nil, List.not_mem_nil, if_false]
      omega
    · have hnone : delivered.toList.count b.message = 0 := by
        refine List.count_eq_zero.mpr (fun hmem => hb ?_)
        exact hdelivered _ (Option.mem_toList.mp hmem)
      rw [List.count_append, hnone, Function.update_of_ne hb]
      exact hcount

/-- What a parser does with a segment: it keeps it, or delivers its message. -/
theorem Accounted.segment {st st' : ParserState} (hst : st.segmentBuff = buf)
    (hkeys : DistinctKeys messages) {a : Arrival messages} {m : SegmentedMessage}
    (hm : messages.get a.message = .segmented m) {parsed : UnyteSegMet} (hparsed : Parsed parsed)
    (hkey : parsed.key = m.key) (hcall : parsed.call = a.datagram.call)
    (hsegmented : isSegmented parsed.header = true) {malloc : Nat → Bool} {now : Int}
    {written : Option UnyteSegMet}
    (hhandle : handleParsed malloc now st parsed = .continued st' written) :
    ∃ held', Accounted (taken ++ [a]) (deliveries ++ (written.map (fun _ => a.message)).toList)
        held' st'.segmentBuff ∧
      ∀ x ∈ written, x.content = (messages.get a.message).content := by
  subst hst
  obtain ⟨seg, hseg, hsegment⟩ := hparsed.call_eq hsegmented
  have hfrom : a.datagram.call.FromParser := hcall ▸ hparsed.call_fromParser
  have hinserted := h.insert hkeys hm hfrom
  have hdesc := (h.describes _ m hm).insert a.datagram.call
  have hcode := (h.describes _ m hm).insert_code a.datagram.call hfrom.options
  rw [handleParsed, if_pos hsegmented, hseg] at hhandle
  have hcases := parseSegmented_cases malloc now seg h.built hparsed
  rw [← hsegment, hcall, hkey] at hcases
  simp only at hcases hhandle
  rcases hcases with ⟨_, hgoes⟩ | ⟨_, hgoes⟩ | ⟨hdone, hgoes⟩
  · rw [hgoes] at hhandle
    obtain ⟨rfl, rfl⟩ := ParserOutcome.continued.inj hhandle
    exact ⟨_, by simpa using hinserted, fun x hx => by cases hx⟩
  · rw [hgoes] at hhandle
    obtain ⟨rfl, rfl⟩ := ParserOutcome.continued.inj hhandle
    obtain ⟨held', hkept⟩ := hinserted.cleanupIfDue now
    exact ⟨held', by simpa using hkept, fun x hx => by cases hx⟩
  · rw [hgoes] at hhandle
    obtain ⟨rfl, rfl⟩ := ParserOutcome.continued.inj hhandle
    have hcalls : ∀ c ∈ held a.message ++ [a.datagram.call], c ∈ m.parts.map Datagram.call := by
      intro c hc
      have hmem := hinserted.calls a.message c (by rwa [Function.update_self])
      rwa [hm] at hmem
    have hoffered : AllOffered (m.parts.map Datagram.call)
        (held a.message ++ [a.datagram.call]) :=
      (m.segmentSet.complete_iff hcalls hdesc.1).mp (hcode.mp hdone)
    have hids : parsed.header.observationDomainId = m.key.1 ∧
        parsed.header.messageId = m.key.2 := by
      rw [← hkey]
      exact ⟨rfl, rfl⟩
    rw [hids.1, hids.2]
    have hdelivered := hinserted.deliver hkeys hm (i := a.message)
      (fun j hj => by
        rw [Function.update_self]
        exact hoffered j (by rwa [List.length_map]))
      ((assembleList malloc parsed
        (a.datagram.call.apply (st.segmentBuff.listOf m.key)).2).map (fun _ => a.message))
      (fun j hj => by
        obtain ⟨_, _, heq⟩ := Option.map_eq_some_iff.mp hj
        exact heq.symm)
    obtain ⟨held', hkept⟩ := hdelivered.cleanupIfDue now
    refine ⟨held', hkept, fun x hx => ?_⟩
    obtain ⟨w, hw, hcontent⟩ := m.assembleList_content hcalls hoffered hdesc.1
      (fun _ => rfl : ∀ size, (fun _ : Nat => true) size = true) hkey
    rw [assembleList_of_malloc hx] at hw
    rw [Option.some.inj hw, hm]
    exact hcontent

/-- What a parser does with a packet is accounted for, whatever it hands over. -/
theorem Accounted.iteration {st st' : ParserState} (hst : st.segmentBuff = buf)
    (hkeys : DistinctKeys messages) {a : Arrival messages} {um : UnyteMin} (hum : Carries a um)
    {malloc : Nat → Bool} {now : Int} {written : Option UnyteSegMet}
    (hiteration : parserIteration false malloc now st um = .continued st' written) :
    ∃ held', Accounted (taken ++ [a]) (deliveries ++ (written.map (fun _ => a.message)).toList)
        held' st'.segmentBuff ∧
      ∀ x ∈ written, x.content = (messages.get a.message).content := by
  have hparsed : Parsed (a.datagram.parsed um) := parseWithMetadata_parsed hum.parse
  have hparse : parseFunc false um.buffer.val um = .ok (a.datagram.parsed um) := hum.parse
  have hmem := a.datagram_mem
  rw [parserIteration_ok hparse] at hiteration
  cases hm : messages.get a.message with
  | unsegmented d whole =>
      rw [hm] at hmem
      obtain hd : a.datagram = d := List.mem_singleton.mp hmem
      have hwhole : ¬ isSegmented (a.datagram.parsed um).header = true := by
        rw [Datagram.isSegmented_parsed, hd]
        exact fun hne => hne whole
      rw [handleParsed, if_neg hwhole] at hiteration
      obtain ⟨rfl, rfl⟩ := ParserOutcome.continued.inj hiteration
      rw [hst]
      refine ⟨held, h.whole hm, fun x hx => ?_⟩
      obtain rfl := Option.some.inj hx
      rw [hd]
      exact congrArg (Prod.mk d.key) (List.append_nil d.payload).symm
  | segmented m =>
      have hkey : (a.datagram.parsed um).key = m.key := by
        rw [Datagram.parsed_key, a.key_eq, hm]
        rfl
      have hsegmented : isSegmented (a.datagram.parsed um).header = true := by
        rw [hm] at hmem
        obtain ⟨i, hi, hget⟩ := List.getElem_of_mem hmem
        have hsegments := m.numbered i hi
        rw [Datagram.isSegmented_parsed, ← hget]
        change m.parts[i].segments ≠ []
        rw [hsegments]
        exact List.cons_ne_nil _ _
      rw [← hm]
      exact h.segment hst hkeys hm hparsed hkey (a.datagram.parsed_call um) hsegmented hiteration

end Steps

/-- The elements of the packets in `arrivals`, dispatched to the parsers that own
their messages. -/
def Elements (options : UnyteUdpOptions) (arrivals : List (Arrival messages))
    (elements : List UnyteMin) : Prop :=
  List.Forall₂ (fun a seg => Carries a seg ∧ options.dispatch seg = owner options a.message)
    arrivals elements

/-- A parser on its own accounts for all packets that it is given. -/
theorem accounted_of_run (hkeys : DistinctKeys messages) {events : List ParserEvent}
    {lone : LoneParser} (hrun : Run (LoneParser.Step false) .init events lone)
    {taken : List (Arrival messages)} (htaken : List.Forall₂ Carries taken (packets events)) :
    ∃ deliveries held, Accounted taken deliveries held lone.state.segmentBuff ∧
      lone.handed.map UnyteSegMet.content =
        deliveries.map (fun i => (messages.get i).content) := by
  revert taken
  refine hrun.invariant (I := fun events lone => ∀ {taken : List (Arrival messages)},
    List.Forall₂ Carries taken (packets events) →
      ∃ deliveries held, Accounted taken deliveries held lone.state.segmentBuff ∧
        lone.handed.map UnyteSegMet.content =
          deliveries.map (fun i => (messages.get i).content)) ?_ ?_
  · intro taken htaken
    obtain rfl := List.forall₂_nil_right_iff.mp htaken
    exact ⟨[], _, accounted_init, rfl⟩
  · intro events lone l lone' _ ih hstep taken htaken
    cases l with
    | requestCleanup =>
        rw [packets_requestCleanup] at htaken
        obtain ⟨deliveries, held, haccounted, hhanded⟩ := ih htaken
        rw [LoneParser.step_requestCleanup hstep]
        exact ⟨deliveries, held, ⟨⟨haccounted.built.wellFormed, haccounted.built.lists⟩,
          haccounted.describes, haccounted.calls, haccounted.unheld, haccounted.count⟩, hhanded⟩
    | packet queueData malloc now =>
        rw [packets_packet] at htaken
        have hbefore := List.forall₂_take_append _ _ _ htaken
        obtain ⟨a, rest, hlast, hnil, hsplit⟩ :=
          List.forall₂_cons_right_iff.mp (List.forall₂_drop_append _ _ _ htaken)
        obtain rfl := List.forall₂_nil_right_iff.mp hnil
        rw [← List.take_append_drop (packets events).length taken, hsplit]
        obtain ⟨deliveries, held, haccounted, hhanded⟩ := ih hbefore
        rcases LoneParser.step_packet_cases hstep with
          ⟨state, written, hiteration, rfl⟩ | ⟨hstopped, rfl⟩
        · obtain ⟨held', hnext, hcontent⟩ :=
            haccounted.iteration rfl hkeys hlast hiteration
          refine ⟨_, held', hnext, ?_⟩
          rw [List.map_append, List.map_append, hhanded]
          cases written with
          | none => rfl
          | some x => exact congrArg (_ ++ [·]) (hcontent x rfl)
        · have hparse : parseFunc false queueData.buffer.val queueData =
              .ok (a.datagram.parsed queueData) := hlast.parse
          obtain ⟨_, _, hgoes, _⟩ := handleParsed_goes_on malloc now haccounted.built
            (parseFunc_parsed hparse)
          rw [parserIteration_ok hparse, hgoes] at hstopped
          cases hstopped

/-- A list of deliveries names messages of which every packet was taken. -/
theorem Accounted.owner_of_mem {options : UnyteUdpOptions} {taken : List (Arrival messages)}
    {deliveries : List (Fin messages.length)} {held : HeldCalls messages} {buf : SegmentBuffer}
    (h : Accounted taken deliveries held buf) {k : options.ParserId}
    (htaken : ∀ a ∈ taken, owner options a.message = k) {i : Fin messages.length}
    (hi : i ∈ deliveries) : owner options i = k := by
  have hcount := h.delivered ⟨i, 0, (messages.get i).parts_pos⟩
  have hpos : 0 < deliveries.count i := List.count_pos_iff.mpr hi
  exact htaken _ (List.count_pos_iff.mp (Nat.lt_of_lt_of_le hpos hcount))

section Network

variable {options : UnyteUdpOptions}

/-- What the listener makes of the packets that arrive. -/
theorem elements_of_received {ls : List (CollectorEvent options)}
    {arrived : List (Arrival messages)} (h : received ls = arrived.map Arrival.bytes) :
    Elements options arrived (ls.filterMap CollectorEvent.element?) := by
  induction ls generalizing arrived with
  | nil =>
      obtain rfl : arrived = [] := List.map_eq_nil_iff.mp h.symm
      exact .nil
  | cons l ls ih =>
      cases l with
      | receive m =>
          obtain ⟨a, rest, rfl, hbytes, hrest⟩ := List.map_eq_cons_iff.mp h.symm
          have hdatagram : m.datagram = a.bytes := hbytes.symm
          have helement : (CollectorEvent.receive m : CollectorEvent options).element? =
              some m.minimalParse := if_neg (hdatagram ▸ a.bytes_ne_nil)
          rw [List.filterMap_cons_some helement]
          exact .cons ⟨ReceivedMessage.carries hdatagram, dispatch_eq_owner hdatagram⟩
            (ih hrest.symm)
      | read | parse | write | requestCleanup | clientRead => exact ih h

theorem Elements.offered {ls : List (CollectorEvent options)} {arrived : List (Arrival messages)}
    (h : Elements options arrived (ls.filterMap CollectorEvent.element?))
    (i : options.ParserId) :
    Elements options (arrived.filter (fun a => owner options a.message = i)) (offered ls i) := by
  refine List.rel_filter (fun a seg hseg => ?_) h
  simp [hseg.2]

/-- What is given to the client is the merge of what its parsers account for. -/
theorem given_of_run (hlegacy : options.legacy = false)
    (hkeys : DistinctKeys messages) {arrived : List (Arrival messages)}
    {ls : List (CollectorEvent options)} {c : Collector options}
    (hrun : Run Collector.Step (.init options) ls c)
    (hreceived : received ls = arrived.map Arrival.bytes) :
    ∃ (queued : List UnyteSegMet) (deliveries : List (Fin messages.length)),
      c.output.Holds queued ∧
      (c.client ++ queued).map UnyteSegMet.content =
        deliveries.map (fun i => (messages.get i).content) ∧
      ∀ a : Arrival messages, deliveries.count a.message ≤ arrived.count a := by
  obtain ⟨events, lone, queued, h⟩ := Collector.refinesParsers_of_run hrun
  have helements := elements_of_received hreceived
  -- each parser accounts for the packets that it took of those dispatched to it
  have hpart (i : options.ParserId) : ∃ part : List (Fin messages.length),
      ((c.client ++ queued).filter (options.origin · = i)).map UnyteSegMet.content =
        part.map (fun j => (messages.get j).content) ∧
      (∀ j ∈ part, owner options j = i) ∧
      ∀ a : Arrival messages, part.count a.message ≤ arrived.count a := by
    obtain ⟨waiting, _, hcarries⟩ := (h.threads i).input
    obtain ⟨taken, htaken, hcarried⟩ := Lossy.exists_sublist_of_forall₂ (helements.offered i)
      ((List.sublist_append_left _ _).trans hcarries)
    have hlone := (h.threads i).run
    rw [hlegacy] at hlone
    obtain ⟨deliveries, held, haccounted, hhanded⟩ :=
      accounted_of_run hkeys hlone (hcarried.imp (fun _ _ hseg => hseg.1))
    have hgiven := ((List.sublist_append_left _ _).trans (h.merges i)).map UnyteSegMet.content
    rw [hhanded] at hgiven
    obtain ⟨part, hsub, hcontents⟩ := List.sublist_map_iff.mp hgiven
    refine ⟨part, hcontents, fun j hj => ?_, fun a => ?_⟩
    · refine haccounted.owner_of_mem (fun a ha => ?_) (hsub.subset hj)
      simpa using (List.mem_filter.mp (htaken.subset ha)).2
    · calc part.count a.message ≤ deliveries.count a.message := hsub.count_le _
        _ ≤ taken.count a := haccounted.delivered a
        _ ≤ (arrived.filter (fun b => owner options b.message = i)).count a := htaken.count_le _
        _ ≤ arrived.count a := List.filter_sublist.count_le _
  choose parts hcontents howner hcounts using hpart
  obtain ⟨whole, hwhole, hclasses⟩ := Lossy.exists_merge howner hcontents
  refine ⟨queued, whole, h.output, hwhole, fun a => ?_⟩
  have hfilter : whole.count a.message = (parts (owner options a.message)).count a.message := by
    rw [← hclasses, List.count_filter (by simp)]
  rw [hfilter]
  exact hcounts _ a

end Network

end UdpNotif
