import UdpNotif.Lib.Dispatch
import UdpNotif.ListeningWorker.Collector
import UdpNotif.ListeningWorker.Messages

/-!
Exactly-once delivery by a collector. The packets of a set of messages arrive in
any order, with repetitions. As long as no queue is full, no allocation fails
and no clean up pass runs, every message is written to the output queue once,
under every schedule of the threads.
-/

namespace UdpNotif

open Runs

/-- A packet of one of the messages. -/
structure Arrival (messages : List Message) where
  message : Fin messages.length
  part : Nat
  part_lt : part < (messages.get message).parts.length
deriving DecidableEq

/-- Every packet of a message is among those listed. -/
def Complete {messages : List Message} (arrivals : List (Arrival messages))
    (i : Fin messages.length) : Prop :=
  ∀ j (h : j < (messages.get i).parts.length), (⟨i, j, h⟩ : Arrival messages) ∈ arrivals

instance {messages : List Message} (arrivals : List (Arrival messages))
    (i : Fin messages.length) : Decidable (Complete arrivals i) :=
  Nat.decidableBallLT _ _

/-- Every packet arrives, and repeated copies of one arrive only before its
message is complete. -/
structure Admissible {messages : List Message} (arrivals : List (Arrival messages)) : Prop where
  all : ∀ i, Complete arrivals i
  early : ∀ before a after, arrivals = before ++ a :: after → a ∈ before →
    ¬ Complete before a.message

/-- The packets before each one, by its place. -/
theorem admissible_of_take {messages : List Message} {arrivals : List (Arrival messages)}
    (hall : ∀ i, Complete arrivals i)
    (hearly : ∀ n : Fin arrivals.length, arrivals.get n ∈ arrivals.take n →
      ¬ Complete (arrivals.take n) (arrivals.get n).message) : Admissible arrivals := by
  refine ⟨hall, fun before a after hsplit hseen => ?_⟩
  subst hsplit
  have hlt : before.length < (before ++ a :: after).length := by
    rw [List.length_append, List.length_cons]
    omega
  have hplace := hearly ⟨before.length, hlt⟩
  rw [List.take_left, List.get_eq_getElem, List.getElem_append_right (Nat.le_refl _)] at hplace
  simp only [Nat.sub_self, List.getElem_cons_zero] at hplace
  exact hplace hseen

/-- No two messages are stored under one key. -/
def DistinctKeys (messages : List Message) : Prop :=
  (messages.filterMap Message.segmentedKey?).Nodup

namespace Arrival

variable {messages : List Message}

/-- The packet that arrives. -/
def datagram (a : Arrival messages) : Datagram :=
  (messages.get a.message).parts.get ⟨a.part, a.part_lt⟩

/-- The bytes that arrive. -/
def bytes (a : Arrival messages) : List Uint8 := a.datagram.encode

theorem datagram_mem (a : Arrival messages) : a.datagram ∈ (messages.get a.message).parts :=
  List.get_mem _ _

theorem key_eq (a : Arrival messages) : a.datagram.key = (messages.get a.message).key :=
  Message.key_of_mem a.datagram_mem

theorem number_eq (a : Arrival messages) {m : SegmentedMessage}
    (hm : messages.get a.message = .segmented m) : a.datagram.call.number = a.part := by
  have hparts : (messages.get a.message).parts = m.parts := by rw [hm]; rfl
  have hlt := a.part_lt
  rw [hparts] at hlt
  have hget : a.datagram = m.parts[a.part] := by
    rw [datagram, List.get_eq_getElem]
    exact List.getElem_of_eq hparts _
  rw [hget]
  exact (m.call_of_part hlt).1

end Arrival

section Tracking

variable {messages : List Message}

/-- The packets of one message, in the order in which they were taken. -/
def takenOf (taken : List (Arrival messages)) (i : Fin messages.length) : List (Arrival messages) :=
  taken.filter (·.message = i)

/-- The calls made for the packets of one message. -/
def callsOf (taken : List (Arrival messages)) (i : Fin messages.length) : List InsertCall :=
  (takenOf taken i).map (·.datagram.call)

theorem complete_takenOf (taken : List (Arrival messages)) (i : Fin messages.length) :
    Complete (takenOf taken i) i ↔ Complete taken i := by
  simp [Complete, takenOf]

/-- A message is complete exactly if all of its segments were offered. -/
theorem complete_iff_allOffered {m : SegmentedMessage} {i : Fin messages.length}
    (hm : messages.get i = .segmented m) (taken : List (Arrival messages)) :
    Complete taken i ↔ AllOffered (m.parts.map Datagram.call) (callsOf taken i) := by
  have hparts : (messages.get i).parts = m.parts := by rw [hm]; rfl
  constructor
  · intro hcomplete j hj
    rw [List.length_map, ← hparts] at hj
    have hmem : (⟨i, j, hj⟩ : Arrival messages) ∈ takenOf taken i := by
      simpa [takenOf] using hcomplete j hj
    refine List.mem_map.mpr ⟨_, List.mem_map_of_mem hmem, ?_⟩
    exact Arrival.number_eq (⟨i, j, hj⟩ : Arrival messages) hm
  · intro hoffered j hj
    have hj' := hj
    rw [hparts] at hj'
    obtain ⟨c, hc, hnumber⟩ := List.mem_map.mp (hoffered j (by rw [List.length_map]; exact hj'))
    obtain ⟨⟨i', j', h'⟩, ha, rfl⟩ := List.mem_map.mp hc
    obtain ⟨hmem, hi⟩ := List.mem_filter.mp ha
    obtain rfl : i' = i := by simpa using hi
    rw [Arrival.number_eq _ hm] at hnumber
    obtain rfl : j' = j := hnumber
    exact hmem

theorem callsOf_mem {m : SegmentedMessage} {i : Fin messages.length}
    (hm : messages.get i = .segmented m) (taken : List (Arrival messages)) :
    ∀ c ∈ callsOf taken i, c ∈ m.parts.map Datagram.call := by
  intro c hc
  obtain ⟨a, ha, rfl⟩ := List.mem_map.mp hc
  obtain rfl : a.message = i := by simpa using (List.mem_filter.mp ha).2
  have hmem := a.datagram_mem
  rw [hm] at hmem
  exact List.mem_map_of_mem hmem

theorem callsOf_concat_self (taken : List (Arrival messages)) (a : Arrival messages) :
    callsOf (taken ++ [a]) a.message = callsOf taken a.message ++ [a.datagram.call] := by
  simp [callsOf, takenOf]

theorem callsOf_concat_other (taken : List (Arrival messages)) {a : Arrival messages}
    {i : Fin messages.length} (h : a.message ≠ i) :
    callsOf (taken ++ [a]) i = callsOf taken i := by
  simp [callsOf, takenOf, h]

theorem complete_concat_other (taken : List (Arrival messages)) {a : Arrival messages}
    {i : Fin messages.length} (h : a.message ≠ i) :
    Complete (taken ++ [a]) i ↔ Complete taken i := by
  rw [← complete_takenOf, ← complete_takenOf taken]
  simp [takenOf, h]

/-- The lists a parser keeps for the messages it is responsible for: one that
is complete was dropped, the others hold what was taken of them. -/
structure Tracks (own : Fin messages.length → Prop) (taken : List (Arrival messages))
    (st : ParserState) : Prop where
  built : st.segmentBuff.Built
  dropped : ∀ i m, own i → messages.get i = .segmented m → Complete taken i →
    st.segmentBuff.listOf m.key = createMessageSegmentList m.key.1 m.key.2
  stored : ∀ i m, own i → messages.get i = .segmented m → ¬ Complete taken i →
    Describes (callsOf taken i) (st.segmentBuff.listOf m.key)

theorem tracks_init (own : Fin messages.length → Prop) : Tracks own [] ParserState.init where
  built := createSegmentBuffer_built
  dropped := fun i m _ _ hcomplete =>
    absurd (hcomplete 0 (messages.get i).parts_pos) List.not_mem_nil
  stored := fun i m _ _ _ => by
    have hlist : ParserState.init.segmentBuff.listOf m.key = _ := createSegmentBuffer_listOf m.key
    rw [hlist]
    exact describes_nil m.key.1 m.key.2

theorem DistinctKeys.key_ne (h : DistinctKeys messages) {i j : Fin messages.length}
    (hij : i ≠ j) {m m' : SegmentedMessage} (hi : messages.get i = .segmented m)
    (hj : messages.get j = .segmented m') : m.key ≠ m'.key := by
  have hpairs := List.pairwise_filterMap.mp h
  rw [List.pairwise_iff_get] at hpairs
  rcases Nat.lt_or_gt_of_ne (Fin.val_ne_of_ne hij) with hlt | hlt
  · exact hpairs i j hlt m.key (by rw [hi]; rfl) m'.key (by rw [hj]; rfl)
  · exact (hpairs j i hlt m'.key (by rw [hj]; rfl) m.key (by rw [hi]; rfl)).symm

/-- Packets of other messages leave the tracked lists alone. -/
theorem Tracks.others {own : Fin messages.length → Prop} {taken : List (Arrival messages)}
    {st st' : ParserState} (h : Tracks own taken st) (hbuilt : st'.segmentBuff.Built)
    {a : Arrival messages}
    (hlists : ∀ i m, i ≠ a.message → messages.get i = .segmented m →
      st'.segmentBuff.listOf m.key = st.segmentBuff.listOf m.key)
    (hdropped : ∀ m, messages.get a.message = .segmented m → Complete (taken ++ [a]) a.message →
      st'.segmentBuff.listOf m.key = createMessageSegmentList m.key.1 m.key.2)
    (hstored : ∀ m, messages.get a.message = .segmented m → ¬ Complete (taken ++ [a]) a.message →
      Describes (callsOf (taken ++ [a]) a.message) (st'.segmentBuff.listOf m.key)) :
    Tracks own (taken ++ [a]) st' where
  built := hbuilt
  dropped := by
    intro i m hown hm hcomplete
    by_cases hi : i = a.message
    · subst hi
      exact hdropped m hm hcomplete
    · rw [hlists i m hi hm]
      exact h.dropped i m hown hm ((complete_concat_other taken (Ne.symm hi)).mp hcomplete)
  stored := by
    intro i m hown hm hincomplete
    by_cases hi : i = a.message
    · subst hi
      exact hstored m hm hincomplete
    · rw [hlists i m hi hm, callsOf_concat_other taken (Ne.symm hi)]
      rw [complete_concat_other taken (Ne.symm hi)] at hincomplete
      exact h.stored i m hown hm hincomplete

/-- A packet in a receive buffer. -/
def Carries (a : Arrival messages) (um : UnyteMin) : Prop :=
  ∃ rest, um.buffer.val = a.bytes ++ rest

theorem Carries.parse {a : Arrival messages} {um : UnyteMin} (h : Carries a um) :
    parseWithMetadata um.buffer.val um = .ok (a.datagram.parsed um) := by
  obtain ⟨rest, hbytes⟩ := h
  rw [hbytes]
  exact a.datagram.parseWithMetadata_encode rest um

/-- What an iteration does with a packet of a message that is not yet complete:
it hands the message over exactly if the packet completes it. -/
theorem Tracks.iteration {own : Fin messages.length → Prop} {taken : List (Arrival messages)}
    {st : ParserState} (h : Tracks own taken st) (hkeys : DistinctKeys messages)
    {a : Arrival messages} (hown : own a.message) (hearly : ¬ Complete taken a.message)
    {malloc : Nat → Bool} (hmalloc : ∀ size, malloc size = true) (now : Int) {um : UnyteMin}
    (hum : Carries a um) :
    ∃ st' w, parserIteration false malloc now st um = .continued st' w ∧
      (st.segmentBuff.cleanup = false → st'.segmentBuff.cleanup = false) ∧
      (st'.segmentBuff.cleanup = st.segmentBuff.cleanup → Tracks own (taken ++ [a]) st') ∧
      (Complete (taken ++ [a]) a.message →
        ∃ x, w = some x ∧ x.content = (messages.get a.message).content) ∧
      (¬ Complete (taken ++ [a]) a.message → w = none) := by
  have hparsed : Parsed (a.datagram.parsed um) := parseWithMetadata_parsed hum.parse
  have hparse : parseFunc false um.buffer.val um = .ok (a.datagram.parsed um) := hum.parse
  have hmem := a.datagram_mem
  rw [parserIteration_ok hparse]
  cases hm : messages.get a.message with
  | unsegmented d whole =>
      rw [hm] at hmem
      obtain hd : a.datagram = d := List.mem_singleton.mp hmem
      have hwhole : ¬ isSegmented (a.datagram.parsed um).header = true := by
        rw [Datagram.isSegmented_parsed, hd]
        exact fun hne => hne whole
      have hcomplete : Complete (taken ++ [a]) a.message := by
        intro j hj
        have hlen : (messages.get a.message).parts.length = 1 := by rw [hm]; rfl
        have hpart := a.part_lt
        have heq : (⟨a.message, j, hj⟩ : Arrival messages) = a := by
          obtain ⟨i, part, hlt⟩ := a
          congr
          simp only at hlen hpart hj
          omega
        rw [heq]
        exact List.mem_append_right _ (List.mem_singleton_self a)
      refine ⟨st, some (a.datagram.parsed um), by rw [handleParsed, if_neg hwhole], id,
        fun _ => ?_, fun _ => ⟨_, rfl, ?_⟩, fun hne => absurd hcomplete hne⟩
      · refine h.others h.built (fun _ _ _ _ => rfl) ?_ ?_
        · intro m hm'
          rw [hm] at hm'
          cases hm'
        · intro m hm'
          rw [hm] at hm'
          cases hm'
      · rw [hd]
        exact congrArg (Prod.mk d.key) (List.append_nil d.payload).symm
  | segmented m =>
      have hkey : (a.datagram.parsed um).key = m.key := by
        rw [Datagram.parsed_key, a.key_eq, hm]
        rfl
      have hsegmented : isSegmented (a.datagram.parsed um).header = true := by
        rw [hm] at hmem
        obtain ⟨i, hi, hget⟩ := List.getElem_of_mem hmem
        have hsegments := m.numbered i hi
        rw [Datagram.isSegmented_parsed, ← hget]
        change m.parts[i].segments ≠ []
        rw [hsegments]
        exact List.cons_ne_nil _ _
      have hstored := h.stored a.message m hown hm hearly
      rw [← hkey] at hstored
      obtain ⟨st', head, hdesc, hhandle, hidle, hquiet⟩ :=
        handleParsed_undisturbed malloc now h.built hparsed hsegmented hstored
      rw [Datagram.parsed_call, ← callsOf_concat_self] at hdesc
      have hcomplete : head.complete = true ↔ Complete (taken ++ [a]) a.message := by
        rw [complete_iff_allOffered hm]
        exact m.segmentSet.complete_iff (callsOf_mem hm _) hdesc
      refine ⟨st', _, hhandle, hidle, fun hflag => ?_, fun hall => ?_, fun hne => ?_⟩
      · obtain ⟨hbuilt, hothers, hlist⟩ := hquiet hflag
        rw [hkey] at hothers hlist
        refine h.others hbuilt (fun i m' hi hm' => hothers _ (hkeys.key_ne hi hm' hm)) ?_ ?_
        · intro m' hm' hall
          obtain rfl : m = m' := Message.segmented.inj (hm.symm.trans hm')
          rw [hlist, if_pos (hcomplete.mpr hall)]
        · intro m' hm' hne
          obtain rfl : m = m' := Message.segmented.inj (hm.symm.trans hm')
          rw [hlist, if_neg (fun hall => hne (hcomplete.mp hall))]
          exact hdesc
      · rw [if_pos (hcomplete.mpr hall)]
        exact m.assembleList_content (callsOf_mem hm _)
          ((complete_iff_allOffered hm _).mp hall) hdesc hmalloc hkey
      · rw [if_neg (fun hall => hne (hcomplete.mp hall))]

end Tracking

/-- The element a parser is handling. -/
def ParserPhase.handled : ParserPhase → List UnyteMin
  | parsing queueData => [queueData]
  | waiting | writing _ | returned => []

/-- The message a parser is about to write. -/
def ParserPhase.unwritten : ParserPhase → Option UnyteSegMet
  | writing message => some message
  | waiting | parsing _ | returned => none

/-- The messages the parsers of a collector are about to write. -/
def Collector.unwritten {options : UnyteUdpOptions} (c : Collector options) : List UnyteSegMet :=
  (List.finRange _).filterMap (fun i => (c.parsers i).phase.unwritten)

/-- One more parser is about to write a message. -/
theorem filterMap_update_perm {n : Nat} {β : Type*} (f : Fin n → Option β) {i : Fin n}
    (h : f i = none) (x : β) :
    ((List.finRange n).filterMap (Function.update f i (some x))).Perm
      (x :: (List.finRange n).filterMap f) := by
  obtain ⟨left, right, hsplit⟩ := List.append_of_mem (List.mem_finRange i)
  have hnodup := List.nodup_finRange n
  rw [hsplit] at hnodup ⊢
  obtain ⟨_, hright, hdisjoint⟩ := List.nodup_append.mp hnodup
  have hsame (l : List (Fin n)) (hl : i ∉ l) :
      l.filterMap (Function.update f i (some x)) = l.filterMap f := by
    refine List.filterMap_congr (fun j hj => Function.update_of_ne ?_ _ _)
    rintro rfl
    exact hl hj
  rw [List.filterMap_append, List.filterMap_append, List.filterMap_cons_some
    (Function.update_self i (some x) f), List.filterMap_cons_none h,
    hsame left (fun hi => hdisjoint i hi i List.mem_cons_self rfl),
    hsame right (List.nodup_cons.mp hright).1]
  exact List.perm_middle

section Unwritten

variable {options : UnyteUdpOptions} (c : Collector options) {i : options.ParserId}
  {thread : ParserThread}

theorem Collector.unwritten_setParser
    (h : thread.phase.unwritten = (c.parsers i).phase.unwritten) :
    (c.setParser i thread).unwritten = c.unwritten := by
  refine List.filterMap_congr (fun j _ => ?_)
  by_cases hj : j = i
  · subst hj
    simp [Collector.setParser, h]
  · simp [Collector.setParser, hj]

theorem Collector.unwritten_setParser_some (hnone : (c.parsers i).phase.unwritten = none)
    {message : UnyteSegMet} (hsome : thread.phase.unwritten = some message) :
    (c.setParser i thread).unwritten.Perm (message :: c.unwritten) := by
  have hupdate : (fun j => ((c.setParser i thread).parsers j).phase.unwritten) =
      Function.update (fun j => (c.parsers j).phase.unwritten) i (some message) := by
    funext j
    by_cases hj : j = i
    · subst hj
      simp [Collector.setParser, hsome]
    · simp [Collector.setParser, hj]
  rw [Collector.unwritten, hupdate]
  exact filterMap_update_perm _ hnone message

theorem Collector.unwritten_setParser_none {message : UnyteSegMet}
    (hsome : (c.parsers i).phase.unwritten = some message)
    (hnone : thread.phase.unwritten = none) :
    c.unwritten.Perm (message :: (c.setParser i thread).unwritten) := by
  have hback : (c.setParser i thread).setParser i (c.parsers i) = c := by
    simp [Collector.setParser]
  have hempty : ((c.setParser i thread).parsers i).phase.unwritten = none := by
    simpa [Collector.setParser] using hnone
  have hperm := (c.setParser i thread).unwritten_setParser_some hempty hsome
  rwa [hback] at hperm

end Unwritten

section Invariant

variable {options : UnyteUdpOptions} {messages : List Message}

/-- The parser that the packets of a message are dispatched to. -/
def owner (options : UnyteUdpOptions) (i : Fin messages.length) : options.ParserId :=
  ⟨(messages.get i).key.1.toNat % options.nbParsers.toNat, Nat.mod_lt _ options.nbParsers_pos⟩

/-- A thread holds the packets that were dispatched to it and not yet taken. -/
structure ParserThread.Holds (thread : ParserThread) (pending : List (Arrival messages)) :
    Prop where
  running : thread.phase ≠ .returned
  packets : ∃ elements, thread.input.Holds elements ∧
    List.Forall₂ Carries pending (thread.phase.handled ++ elements)

/-- How a collector stands for the packets that arrived, those taken by the
parsers, those still pending and the messages that are complete. -/
structure Collector.Represents (c : Collector options) (arrived taken : List (Arrival messages))
    (pending : options.ParserId → List (Arrival messages)) (queued : List UnyteSegMet)
    (completed : List (Fin messages.length)) : Prop where
  order : Dispatch.Ordered (fun a => owner options a.message) arrived taken pending
  threads : ∀ i, (c.parsers i).Holds (pending i)
  tracks : ∀ i, Tracks (fun j => owner options j = i) taken (c.parsers i).state
  output : c.output.Holds queued
  nodup : completed.Nodup
  complete : ∀ i, i ∈ completed ↔ Complete taken i
  delivered : ((c.client ++ queued ++ c.unwritten).map UnyteSegMet.content).Perm
    (completed.map (fun i => (messages.get i).content))

/-- A collector that stands for some of the packets. -/
def Collector.Follows (c : Collector options) (arrived : List (Arrival messages)) : Prop :=
  ∃ taken pending queued completed, c.Represents arrived taken pending queued completed

theorem Collector.init_follows (options : UnyteUdpOptions) (messages : List Message) :
    (Collector.init options).Follows ([] : List (Arrival messages)) := by
  refine ⟨[], fun _ => [], [], [], Dispatch.ordered_init, fun i => ⟨nofun, [], ?_, .nil⟩,
    fun i => tracks_init _, UnyteUdpQueue.init_holds _ _, List.nodup_nil, fun i => ?_, ?_⟩
  · exact UnyteUdpQueue.init_holds _ _
  · exact iff_of_false List.not_mem_nil
      (fun h => absurd (h 0 (messages.get i).parts_pos) List.not_mem_nil)
  · have hnone : (Collector.init options).unwritten = [] :=
      List.filterMap_eq_nil_iff.mpr (fun _ _ => rfl)
    rw [hnone]
    exact .nil

/-- The packet at the head of a queue belongs to a message not yet complete. -/
theorem Admissible.not_complete {arrivals : List (Arrival messages)} (h : Admissible arrivals)
    {arrived taken : List (Arrival messages)} (hfront : arrived <+: arrivals)
    {pending : options.ParserId → List (Arrival messages)}
    (horder : Dispatch.Ordered (fun a => owner options a.message) arrived taken pending)
    {i : options.ParserId} {a : Arrival messages} {rest : List (Arrival messages)}
    (hpending : pending i = a :: rest) : ¬ Complete taken a.message := by
  obtain ⟨before, after, rfl, hbefore⟩ := horder.exists_before hpending
  obtain ⟨_, hclass⟩ := horder.pending_mem (k := i) (a := a)
    (by rw [hpending]; exact List.mem_cons_self)
  have hsame : takenOf before a.message = takenOf taken a.message := by
    refine Dispatch.filter_eq_of_class (g := fun j => owner options j) (fun _ => rfl) ?_
    simp only [hclass]
    exact hbefore
  rw [← complete_takenOf, ← hsame, complete_takenOf]
  by_cases hseen : a ∈ before
  · obtain ⟨later, rfl⟩ := hfront
    exact h.early before a (after ++ later) (by simp) hseen
  · exact fun hcomplete => hseen (hcomplete a.part a.part_lt)

section Steps

variable {c : Collector options} {arrived : List (Arrival messages)}

/-- A step of one thread that takes no packet and finishes no write. -/
theorem Collector.Represents.setParser {arrived' taken : List (Arrival messages)}
    {pending pending' : options.ParserId → List (Arrival messages)} {queued : List UnyteSegMet}
    {completed : List (Fin messages.length)}
    (h : c.Represents arrived taken pending queued completed)
    (horder : Dispatch.Ordered (fun a => owner options a.message) arrived' taken pending')
    {i : options.ParserId} (hothers : ∀ j, j ≠ i → pending' j = pending j)
    {thread : ParserThread} (hholds : thread.Holds (pending' i))
    (htracks : Tracks (fun j => owner options j = i) taken thread.state)
    (hunwritten : thread.phase.unwritten = (c.parsers i).phase.unwritten) :
    (c.setParser i thread).Represents arrived' taken pending' queued completed where
  order := horder
  threads := by
    intro j
    by_cases hj : j = i
    · subst hj
      simpa [Collector.setParser] using hholds
    · simpa [Collector.setParser, hj, hothers j hj] using h.threads j
  tracks := by
    intro j
    by_cases hj : j = i
    · subst hj
      simpa [Collector.setParser] using htracks
    · simpa [Collector.setParser, hj] using h.tracks j
  output := h.output
  nodup := h.nodup
  complete := h.complete
  delivered := by
    rw [c.unwritten_setParser hunwritten]
    exact h.delivered

theorem Arrival.bytes_ne_nil (a : Arrival messages) : a.bytes ≠ [] := by
  refine List.ne_nil_of_length_pos ?_
  rw [bytes, Datagram.encode_length, Datagram.size, Datagram.headerLength, headerBytes]
  omega

theorem ReceivedMessage.carries {m : ReceivedMessage} {a : Arrival messages}
    (h : m.datagram = a.bytes) : Carries a m.minimalParse :=
  ⟨m.heap.val.drop m.datagram.length, congrArg (· ++ _) h⟩

/-- The listener writes a packet to the queue of the parser that owns its message. -/
theorem dispatch_eq_owner {m : ReceivedMessage} {a : Arrival messages}
    (h : m.datagram = a.bytes) : options.dispatch m.minimalParse = owner options a.message := by
  obtain ⟨rest, hbytes⟩ := ReceivedMessage.carries h
  have hid : m.minimalParse.observationDomainId = a.datagram.observationDomainId := by
    change ntohl (deserializeUint32 m.minimalParse.buffer.val 4) = _
    rw [hbytes]
    exact a.datagram.deserialize_observationDomainId rest
  have hkey : a.datagram.observationDomainId = (messages.get a.message).key.1 :=
    congrArg Prod.fst a.key_eq
  refine Fin.ext ((parserIndex_toNat _ _).trans ?_)
  rw [hid, hkey]
  rfl

theorem Collector.Follows.receive (h : c.Follows arrived) {m : ReceivedMessage}
    {a : Arrival messages} (hbytes : m.datagram = a.bytes)
    (hspace : (c.parsers (options.dispatch m.minimalParse)).input.write m.minimalParse ≠ none) :
    (c.receive m).Follows (arrived ++ [a]) := by
  obtain ⟨taken, pending, queued, completed, h⟩ := h
  have hne : m.datagram ≠ [] := hbytes ▸ a.bytes_ne_nil
  obtain ⟨input, hwrite⟩ := Option.ne_none_iff_exists'.mp hspace
  have hreceive : c.receive m = c.setParser (options.dispatch m.minimalParse)
      { c.parsers (options.dispatch m.minimalParse) with input } := by
    rw [Collector.receive, if_neg hne]
    simp only [hwrite]
  rw [hreceive, dispatch_eq_owner hbytes]
  rw [dispatch_eq_owner hbytes] at hwrite
  obtain ⟨hrunning, elements, hholds, hcarries⟩ := h.threads (owner options a.message)
  refine ⟨taken, _, queued, completed, h.setParser (h.order.arrive a)
    (fun j hj => Function.update_of_ne hj _ _) ⟨hrunning, _, hholds.write hwrite, ?_⟩
    (h.tracks _) rfl⟩
  rw [Function.update_self, ← List.append_assoc]
  exact List.rel_append hcarries (.cons (ReceivedMessage.carries hbytes) .nil)

theorem Collector.Follows.read (h : c.Follows arrived) {i : options.ParserId}
    {c' : Collector options} (hread : c.read i = some c') : c'.Follows arrived := by
  obtain ⟨taken, pending, queued, completed, h⟩ := h
  obtain ⟨_, elements, hholds, hcarries⟩ := h.threads i
  unfold Collector.read at hread
  split at hread
  · rename_i queueData input hphase hinput
    cases elements with
    | nil =>
        have hempty := hholds.tail_eq_head_iff.mpr rfl
        rw [UnyteUdpQueue.read, if_pos hempty] at hinput
        cases hinput
    | cons first elements =>
        obtain ⟨hfirst, hrest⟩ := hholds.read
        rw [hinput] at hfirst hrest
        obtain rfl := Option.some.inj hfirst
        obtain rfl := Option.some.inj hread
        rw [hphase] at hcarries
        refine ⟨taken, pending, queued, completed, h.setParser h.order (fun _ _ => rfl)
          ⟨fun hreturned => ParserPhase.noConfusion hreturned, elements, hrest, hcarries⟩
          (h.tracks i) ?_⟩
        rw [hphase]
        rfl
  · cases hread

theorem Collector.Follows.requestCleanup (h : c.Follows arrived) (i : options.ParserId) :
    (c.requestCleanup i).Follows arrived := by
  obtain ⟨taken, pending, queued, completed, h⟩ := h
  have htracks := h.tracks i
  exact ⟨taken, pending, queued, completed, h.setParser h.order (fun _ _ => rfl)
    ⟨(h.threads i).running, (h.threads i).packets⟩
    ⟨⟨htracks.built.wellFormed, htracks.built.lists⟩, htracks.dropped, htracks.stored⟩ rfl⟩

theorem Collector.Follows.clientRead (h : c.Follows arrived) {c' : Collector options}
    (hread : c.clientRead = some c') : c'.Follows arrived := by
  obtain ⟨taken, pending, queued, completed, h⟩ := h
  unfold Collector.clientRead at hread
  split at hread
  · rename_i message output hinput
    cases queued with
    | nil =>
        have hempty := h.output.tail_eq_head_iff.mpr rfl
        rw [UnyteUdpQueue.read, if_pos hempty] at hinput
        cases hinput
    | cons first queued =>
        obtain ⟨hfirst, hrest⟩ := h.output.read
        rw [hinput] at hfirst hrest
        obtain rfl := Option.some.inj hfirst
        obtain rfl := Option.some.inj hread
        refine ⟨taken, pending, queued, completed, { h with output := hrest, delivered := ?_ }⟩
        have hdelivered := h.delivered
        rw [List.append_cons c.client message queued] at hdelivered
        exact hdelivered
  · cases hread

theorem Collector.Follows.write (h : c.Follows arrived) {i : options.ParserId}
    {c' : Collector options} (hwrite : c.write i = some c')
    (hspace : ∀ message, (c.parsers i).phase = .writing message →
      c.output.write message ≠ none) : c'.Follows arrived := by
  obtain ⟨taken, pending, queued, completed, h⟩ := h
  unfold Collector.write at hwrite
  split at hwrite
  · rename_i message hphase
    obtain ⟨output, houtput⟩ := Option.ne_none_iff_exists'.mp (hspace message hphase)
    have hsame : (c.setParser i { c.parsers i with phase := .waiting }).output.write message =
        some output := houtput
    simp only [hsame, Option.some.injEq] at hwrite
    subst hwrite
    have hwriting : (c.parsers i).phase.unwritten = some message := by
      rw [hphase]
      rfl
    have hwaiting : ({ c.parsers i with phase := .waiting } : ParserThread).phase.unwritten =
        none := rfl
    have hperm := c.unwritten_setParser_none hwriting hwaiting
    obtain ⟨_, elements, hholds, hcarries⟩ := h.threads i
    rw [hphase] at hcarries
    refine ⟨taken, pending, queued ++ [message], completed, {
      order := h.order
      threads := fun j => ?_
      tracks := fun j => ?_
      output := h.output.write houtput
      nodup := h.nodup
      complete := h.complete
      delivered := ?_ }⟩
    · by_cases hj : j = i
      · subst hj
        simpa [Collector.setParser] using
          (⟨nofun, elements, hholds, hcarries⟩ :
            ParserThread.Holds { c.parsers j with phase := .waiting } (pending j))
      · simpa [Collector.setParser, hj] using h.threads j
    · by_cases hj : j = i
      · subst hj
        simpa [Collector.setParser] using h.tracks j
      · simpa [Collector.setParser, hj] using h.tracks j
    · refine List.Perm.trans (List.Perm.map _ ?_) h.delivered
      rw [← List.append_assoc, List.append_assoc, List.singleton_append]
      exact (hperm.symm).append_left _
  · cases hwrite

/-- Packets of messages that another parser owns. -/
theorem Tracks.foreign {own : Fin messages.length → Prop} {taken : List (Arrival messages)}
    {st : ParserState} (h : Tracks own taken st) {a : Arrival messages} (hown : ¬ own a.message) :
    Tracks own (taken ++ [a]) st where
  built := h.built
  dropped := by
    intro i m hi hm hcomplete
    have hne : a.message ≠ i := fun heq => hown (heq ▸ hi)
    exact h.dropped i m hi hm ((complete_concat_other taken hne).mp hcomplete)
  stored := by
    intro i m hi hm hincomplete
    have hne : a.message ≠ i := fun heq => hown (heq ▸ hi)
    rw [callsOf_concat_other taken hne]
    rw [complete_concat_other taken hne] at hincomplete
    exact h.stored i m hi hm hincomplete

/-- A parser takes a packet and, if that completes its message, hands over the
message. -/
theorem Collector.Represents.take {taken : List (Arrival messages)}
    {pending : options.ParserId → List (Arrival messages)} {queued : List UnyteSegMet}
    {completed : List (Fin messages.length)}
    (h : c.Represents arrived taken pending queued completed) {i : options.ParserId}
    {a : Arrival messages} {rest : List (Arrival messages)} (hpending : pending i = a :: rest)
    (hearly : ¬ Complete taken a.message) (hbusy : (c.parsers i).phase.unwritten = none)
    {thread : ParserThread} (hholds : thread.Holds rest)
    (htracks : Tracks (fun j => owner options j = i) (taken ++ [a]) thread.state)
    (hdone : Complete (taken ++ [a]) a.message → ∃ x, thread.phase.unwritten = some x ∧
      x.content = (messages.get a.message).content)
    (hnone : ¬ Complete (taken ++ [a]) a.message → thread.phase.unwritten = none) :
    (c.setParser i thread).Follows arrived := by
  obtain ⟨_, hclass⟩ := h.order.pending_mem (k := i) (a := a)
    (by rw [hpending]; exact List.mem_cons_self)
  have hthreads (j : options.ParserId) : ((c.setParser i thread).parsers j).Holds
      (Function.update pending i rest j) := by
    by_cases hj : j = i
    · subst hj
      simpa [Collector.setParser] using hholds
    · simpa [Collector.setParser, hj] using h.threads j
  have htracked (j : options.ParserId) : Tracks (fun k => owner options k = j) (taken ++ [a])
      ((c.setParser i thread).parsers j).state := by
    by_cases hj : j = i
    · subst hj
      simpa [Collector.setParser] using htracks
    · have hforeign := (h.tracks j).foreign (a := a) (fun heq => hj (heq.symm.trans hclass))
      simpa [Collector.setParser, hj] using hforeign
  by_cases hcomplete : Complete (taken ++ [a]) a.message
  · obtain ⟨x, hsome, hcontent⟩ := hdone hcomplete
    refine ⟨taken ++ [a], _, queued, a.message :: completed, {
      order := h.order.take hpending
      threads := hthreads
      tracks := htracked
      output := h.output
      nodup := List.nodup_cons.mpr ⟨fun hmem => hearly ((h.complete _).mp hmem), h.nodup⟩
      complete := fun j => ?_
      delivered := ?_ }⟩
    · by_cases hj : j = a.message
      · subst hj
        exact iff_of_true List.mem_cons_self hcomplete
      · rw [List.mem_cons, complete_concat_other taken (Ne.symm hj), ← h.complete j]
        exact or_iff_right hj
    · have hperm := c.unwritten_setParser_some hbusy hsome
      have hmoved : ((c.client ++ queued) ++ (c.setParser i thread).unwritten).Perm
          (x :: ((c.client ++ queued) ++ c.unwritten)) :=
        (hperm.append_left _).trans List.perm_middle
      refine (hmoved.map UnyteSegMet.content).trans ?_
      rw [List.map_cons, List.map_cons, hcontent]
      exact h.delivered.cons _
  · refine ⟨taken ++ [a], _, queued, completed, {
      order := h.order.take hpending
      threads := hthreads
      tracks := htracked
      output := h.output
      nodup := h.nodup
      complete := fun j => ?_
      delivered := ?_ }⟩
    · by_cases hj : j = a.message
      · subst hj
        exact iff_of_false (fun hmem => hearly ((h.complete _).mp hmem)) hcomplete
      · rw [complete_concat_other taken (Ne.symm hj), h.complete j]
    · rw [c.unwritten_setParser ((hnone hcomplete).trans hbusy.symm)]
      exact h.delivered

/-- What a parser that handles an element does with it. -/
theorem Collector.Represents.iteration {taken : List (Arrival messages)}
    {pending : options.ParserId → List (Arrival messages)} {queued : List UnyteSegMet}
    {completed : List (Fin messages.length)}
    (h : c.Represents arrived taken pending queued completed) (hkeys : DistinctKeys messages)
    {arrivals : List (Arrival messages)} (hadmissible : Admissible arrivals)
    (hfront : arrived <+: arrivals) {i : options.ParserId} {queueData : UnyteMin}
    (hphase : (c.parsers i).phase = .parsing queueData) {malloc : Nat → Bool}
    (hmalloc : ∀ size, malloc size = true) (now : Int) :
    ∃ state written, parserIteration false malloc now (c.parsers i).state queueData =
        .continued state written ∧
      (state.segmentBuff.cleanup = (c.parsers i).state.segmentBuff.cleanup →
        ∀ phase : ParserPhase, phase ≠ .returned → phase.handled = [] →
          phase.unwritten = written →
          (c.setParser i { c.parsers i with state, phase }).Follows arrived) := by
  obtain ⟨_, elements, hholds, hcarries⟩ := h.threads i
  rw [hphase] at hcarries
  obtain ⟨a, rest, hhead, hrest, hpending⟩ := List.forall₂_cons_right_iff.mp hcarries
  obtain ⟨_, hclass⟩ := h.order.pending_mem (k := i) (a := a)
    (by rw [hpending]; exact List.mem_cons_self)
  have hearly := hadmissible.not_complete hfront h.order hpending
  obtain ⟨state, written, hiteration, _, htracks, hdone, hnone⟩ :=
    (h.tracks i).iteration hkeys hclass hearly hmalloc now hhead
  refine ⟨state, written, hiteration, fun hquiet phase hrunning hhandled hwritten => ?_⟩
  refine h.take hpending hearly (by rw [hphase]; rfl) ⟨hrunning, elements, hholds, ?_⟩
    (htracks hquiet) (fun hcomplete => ?_) (fun hincomplete => ?_)
  · rw [hhandled]
    exact hrest
  · rw [hwritten]
    exact hdone hcomplete
  · rw [hwritten]
    exact hnone hincomplete

theorem Collector.Follows.parse (h : c.Follows arrived) (hlegacy : options.legacy = false)
    (hkeys : DistinctKeys messages) {arrivals : List (Arrival messages)}
    (hadmissible : Admissible arrivals) (hfront : arrived <+: arrivals)
    {i : options.ParserId} {malloc : Nat → Bool} (hmalloc : ∀ size, malloc size = true) {now : Int}
    {c' : Collector options} (hparse : c.parse i malloc now = some c')
    (hquiet : (c'.parsers i).state.segmentBuff.cleanup =
      (c.parsers i).state.segmentBuff.cleanup) : c'.Follows arrived := by
  obtain ⟨taken, pending, queued, completed, h⟩ := h
  unfold Collector.parse at hparse
  split at hparse
  · rename_i queueData hphase
    obtain ⟨state, written, hiteration, hfollows⟩ :=
      h.iteration hkeys hadmissible hfront hphase hmalloc now
    rw [hlegacy, hiteration] at hparse
    cases written with
    | none =>
        obtain rfl := Option.some.inj hparse
        exact hfollows (by simpa [Collector.setParser] using hquiet) _ nofun rfl rfl
    | some message =>
        obtain rfl := Option.some.inj hparse
        exact hfollows (by simpa [Collector.setParser] using hquiet) _ nofun rfl rfl
  · cases hparse

/-- A parser that is not at rest can take its next step. -/
theorem Collector.Follows.progress (h : c.Follows arrived) (hlegacy : options.legacy = false)
    (hkeys : DistinctKeys messages) {arrivals : List (Arrival messages)}
    (hadmissible : Admissible arrivals) (hfront : arrived <+: arrivals) {i : options.ParserId}
    (hbusy : ¬ c.AtRest i) (now : Int) :
    (c.read i).isSome ∨ (c.parse i (fun _ => true) now).isSome ∨ (c.write i).isSome := by
  obtain ⟨taken, pending, queued, completed, h⟩ := h
  obtain ⟨hrunning, elements, hholds, _⟩ := h.threads i
  cases hphase : (c.parsers i).phase with
  | waiting =>
      cases elements with
      | nil => exact absurd ⟨hphase, hholds.tail_eq_head_iff.mpr rfl⟩ hbusy
      | cons first elements =>
          have hread : (c.parsers i).input.read = (some first, (c.parsers i).input.read.2) :=
            Prod.ext hholds.read.1 rfl
          refine Or.inl ?_
          rw [Collector.read, hphase, hread]
          rfl
  | parsing queueData =>
      obtain ⟨state, written, hiteration, _⟩ := h.iteration hkeys hadmissible hfront hphase
        (fun _ => rfl) now
      refine Or.inr (Or.inl ?_)
      rw [Collector.parse, hphase]
      simp only [hlegacy, hiteration]
      cases written <;> rfl
  | writing message =>
      refine Or.inr (Or.inr ?_)
      rw [Collector.write, hphase]
      simp only
      split <;> rfl
  | returned => exact absurd hphase hrunning

/-- Once all parsers are at rest, every message was written once. -/
theorem Collector.Follows.delivered {arrivals : List (Arrival messages)}
    (h : c.Follows arrivals) (hadmissible : Admissible arrivals) (hrest : ∀ i, c.AtRest i) :
    ∃ queued, c.output.Holds queued ∧
      ((c.client ++ queued).map UnyteSegMet.content).Perm (messages.map Message.content) := by
  obtain ⟨taken, pending, queued, completed, h⟩ := h
  have hdrained (i : options.ParserId) : pending i = [] := by
    obtain ⟨_, elements, hholds, hcarries⟩ := h.threads i
    rw [(hrest i).1, hholds.tail_eq_head_iff.mp (hrest i).2] at hcarries
    exact List.forall₂_nil_right_iff.mp hcarries
  have hall (i : Fin messages.length) : i ∈ completed :=
    (h.complete i).mpr (fun j hj => h.order.taken_of_drained hdrained (hadmissible.all i j hj))
  have hwritten : c.unwritten = [] :=
    List.filterMap_eq_nil_iff.mpr (fun i _ => by rw [(hrest i).1]; rfl)
  have hcompleted : completed.Perm (List.finRange messages.length) :=
    (List.perm_ext_iff_of_nodup h.nodup (List.nodup_finRange _)).mpr
      (fun i => iff_of_true (hall i) (List.mem_finRange i))
  refine ⟨queued, h.output, ?_⟩
  have hdelivered := h.delivered
  rw [hwritten, List.append_nil] at hdelivered
  refine hdelivered.trans ((hcompleted.map _).trans (List.Perm.of_eq ?_))
  refine List.ext_getElem (by simp) (fun j hj _ => ?_)
  simp

end Steps

/-- Along a run without incident a collector stands for the packets received so
far. -/
theorem follows_of_run (hlegacy : options.legacy = false) (hkeys : DistinctKeys messages)
    {arrivals : List (Arrival messages)} (hadmissible : Admissible arrivals)
    {ls : List (CollectorEvent options)} {c : Collector options}
    (hrun : Run (Restrict Collector.Step Collector.Undisturbed) (.init options) ls c) :
    ∀ arrived, arrived <+: arrivals → received ls = arrived.map Arrival.bytes →
      c.Follows arrived := by
  refine hrun.invariant (I := fun ls c => ∀ arrived, arrived <+: arrivals →
    received ls = arrived.map Arrival.bytes → c.Follows arrived) ?_ ?_
  · intro arrived _ hreceived
    obtain rfl : arrived = [] := List.map_eq_nil_iff.mp hreceived.symm
    exact Collector.init_follows options messages
  · rintro ls c l c' _ ih ⟨hstep, hquiet⟩ arrived hfront hreceived
    rw [received, List.filterMap_append] at hreceived
    cases l with
    | receive m =>
        obtain ⟨before, last, rfl, hbefore, hlast⟩ := List.map_eq_append_iff.mp hreceived.symm
        obtain ⟨a, rfl, hbytes⟩ := List.map_eq_singleton_iff.mp hlast
        obtain rfl := Option.some.inj hstep
        have hdatagram : m.datagram = a.bytes := hbytes.symm
        have hfollows := ih before ((List.prefix_append _ _).trans hfront) hbefore.symm
        exact hfollows.receive hdatagram (hquiet (hdatagram ▸ a.bytes_ne_nil))
    | read i => exact (ih arrived hfront (by simpa [received] using hreceived)).read hstep
    | parse i malloc now =>
        exact (ih arrived hfront (by simpa [received] using hreceived)).parse hlegacy hkeys
          hadmissible hfront hquiet.1 hstep hquiet.2
    | write i =>
        exact (ih arrived hfront (by simpa [received] using hreceived)).write hstep hquiet
    | requestCleanup i =>
        obtain rfl := Option.some.inj hstep
        exact (ih arrived hfront (by simpa [received] using hreceived)).requestCleanup i
    | clientRead =>
        exact (ih arrived hfront (by simpa [received] using hreceived)).clientRead hstep

/-- In every run without incident that receives the packets of the messages, no
parser is stuck before it is at rest, and once all are at rest the output queue
was handed every message exactly once. -/
theorem collector_delivers_exactly_once (hlegacy : options.legacy = false)
    (hkeys : DistinctKeys messages) {arrivals : List (Arrival messages)}
    (hadmissible : Admissible arrivals) {ls : List (CollectorEvent options)}
    {c : Collector options}
    (hrun : Run (Restrict Collector.Step Collector.Undisturbed) (.init options) ls c)
    (hreceived : received ls = arrivals.map Arrival.bytes) :
    (∀ i now, ¬ c.AtRest i → (c.read i).isSome ∨ (c.parse i (fun _ => true) now).isSome ∨
      (c.write i).isSome) ∧
    ((∀ i, c.AtRest i) → ∃ queued, c.output.Holds queued ∧
      ((c.client ++ queued).map UnyteSegMet.content).Perm (messages.map Message.content)) := by
  have hfollows := follows_of_run hlegacy hkeys hadmissible hrun arrivals (List.prefix_refl _)
    hreceived
  exact ⟨fun i now hbusy => hfollows.progress hlegacy hkeys hadmissible (List.prefix_refl _)
    hbusy now, hfollows.delivered hadmissible⟩

end Invariant

/-- Two parsers and queues of four cells. -/
def smallOptions : UnyteUdpOptions where
  nbParsers := 2
  parsersQueueSize := 4
  outputQueueSize := 4
  legacy := false
  nbParsers_pos := by decide
  parsersQueueSize_pos := by decide
  outputQueueSize_pos := by decide

/-- A packet of domain 7 with one segment. -/
def segmentPacket (messageId : Uint32) (number : BitVec 15) (last : Bool) (payload : List Uint8)
    (h : payload.length ≤ 5) : Datagram where
  version := 1
  space := 0
  mediaType := 1
  observationDomainId := 7
  messageId
  options := [.segmentation number last [] WireOption.no_extra_le]
  payload
  header_le := (by decide : 16 < 2 ^ 8)
  size_le := (Nat.add_le_add_left h 16).trans (by decide : 16 + 5 ≤ udpSize)

/-- A packet of domain 8 that is not a segment. -/
def wholePacket (messageId : Uint32) : Datagram where
  version := 1
  space := 0
  mediaType := 1
  observationDomainId := 8
  messageId
  options := []
  payload := [104, 105]
  header_le := (by decide : 12 < 2 ^ 8)
  size_le := (by decide : 14 ≤ udpSize)

/-- The packets of a message of three segments. -/
def threePart : Nat → Datagram
  | 0 => segmentPacket 9 0 false [104, 101, 108, 108, 111] (by decide)
  | 1 => segmentPacket 9 1 false [44, 32, 119, 111, 114] (by decide)
  | _ => segmentPacket 9 2 true [108, 100, 33, 33, 33] (by decide)

/-- The packets of a message of two segments in the same bucket. -/
def twoPart : Nat → Datagram
  | 0 => segmentPacket 10009 0 false [1, 2, 3, 4, 5] (by decide)
  | _ => segmentPacket 10009 1 true [6, 7, 8, 9, 10] (by decide)

def threePackets : SegmentedMessage where
  key := (7, 9)
  parts := [threePart 0, threePart 1, threePart 2]
  parts_ne := List.cons_ne_nil _ _
  parts_le := by decide
  addressed := by decide
  numbered := by decide

def twoPackets : SegmentedMessage where
  key := (7, 10009)
  parts := [twoPart 0, twoPart 1]
  parts_ne := List.cons_ne_nil _ _
  parts_le := by decide
  addressed := by decide
  numbered := by decide

/-- What they hold. -/
def wholeContent (messageId : Uint32) : MessageKey × List Uint8 := ((8, messageId), [104, 105])

def threeContent : MessageKey × List Uint8 :=
  ((7, 9), [104, 101, 108, 108, 111, 44, 32, 119, 111, 114, 108, 100, 33, 33, 33])

def twoContent : MessageKey × List Uint8 := ((7, 10009), [1, 2, 3, 4, 5, 6, 7, 8, 9, 10])

def unsegmentedMessage (messageId : Uint32) : Message := .unsegmented (wholePacket messageId) rfl

def smallMessages : List Message :=
  [.segmented threePackets, .segmented twoPackets, unsegmentedMessage 1]

/-- A packet in a zeroed buffer. -/
def Datagram.zeroed (d : Datagram) : ReceivedMessage where
  heap := .zeroed
  datagram := d.encode
  datagram_le := d.encode_length.trans_le d.size_le
  src := ⟨[]⟩
  dest := none

/-- A packet, given by the number of its message and its number there. -/
def Arrival.of {messages : List Message} (i j : Nat)
    (h : ∃ hi : i < messages.length, j < (messages.get ⟨i, hi⟩).parts.length) :
    Arrival messages :=
  ⟨⟨i, h.fst⟩, j, h.snd⟩

/-- The segments out of order, one of them twice. -/
def reordered : List (Arrival smallMessages) :=
  [.of 0 2 (by decide), .of 1 1 (by decide), .of 2 0 (by decide), .of 0 0 (by decide),
    .of 0 0 (by decide), .of 0 1 (by decide), .of 1 0 (by decide)]

/-- One of the two parsers. -/
def smallParser (i : Nat) : smallOptions.ParserId := ⟨i % 2, Nat.mod_lt i Nat.two_pos⟩

def parseNow (i : Nat) : CollectorEvent smallOptions :=
  .parse (smallParser i) (fun _ => true) 0

/-- A schedule for these packets. -/
def reorderedEvents : List (CollectorEvent smallOptions) :=
  [.receive (threePart 2).zeroed, .receive (twoPart 1).zeroed, .read (smallParser 1),
    .receive (wholePacket 1).zeroed, parseNow 1, .read (smallParser 0), .read (smallParser 1),
    parseNow 0, .receive (threePart 0).zeroed, parseNow 1, .read (smallParser 1),
    .write (smallParser 0), .requestCleanup (smallParser 1), parseNow 1,
    .receive (threePart 0).zeroed, .receive (threePart 1).zeroed, .clientRead,
    .read (smallParser 1), parseNow 1, .read (smallParser 1), parseNow 1,
    .receive (twoPart 0).zeroed, .write (smallParser 1), .read (smallParser 1), parseNow 1,
    .write (smallParser 1), .clientRead]

theorem reorderedEvents_allocate : ∀ l ∈ reorderedEvents, l.Allocates := by
  simp [reorderedEvents, parseNow, CollectorEvent.Allocates]

theorem reordered_received : received reorderedEvents = reordered.map Arrival.bytes := rfl

theorem reordered_admissible : Admissible reordered :=
  admissible_of_take (by decide) (by decide)

theorem smallMessages_keys : DistinctKeys smallMessages := by
  unfold DistinctKeys
  decide

theorem exists_reorderedRun : ∃ c : Collector smallOptions,
    Run (Restrict Collector.Step Collector.Undisturbed) (.init smallOptions) reorderedEvents c ∧
      c.client.map UnyteSegMet.content = [wholeContent 1, threeContent] ∧ ∀ i, c.AtRest i := by
  have hafter : (reorderedEvents.foldlM Collector.calmStep (.init smallOptions)).map (fun c =>
      (c.client.map UnyteSegMet.content, decide (∀ i, c.AtRest i))) =
        some ([wholeContent 1, threeContent], true) := by decide +kernel
  obtain ⟨c, hfold, hend⟩ := Option.map_eq_some_iff.mp hafter
  obtain ⟨hclient, hrest⟩ := Prod.mk.inj hend
  exact ⟨c, Collector.run_of_calm reorderedEvents_allocate hfold, hclient,
    of_decide_eq_true hrest⟩

/-- Two messages with segments out of order, one of them twice, and a packet that is not a
segment are delivered once each. -/
theorem collector_delivers_reordered : ∃ c : Collector smallOptions,
    Run (Restrict Collector.Step Collector.Undisturbed) (.init smallOptions) reorderedEvents c ∧
      c.client.map UnyteSegMet.content = [wholeContent 1, threeContent] ∧
      ∃ queued, c.output.Holds queued ∧ ((c.client ++ queued).map UnyteSegMet.content).Perm
        (smallMessages.map Message.content) := by
  obtain ⟨c, hrun, hclient, hrest⟩ := exists_reorderedRun
  exact ⟨c, hrun, hclient, (collector_delivers_exactly_once rfl smallMessages_keys
    reordered_admissible hrun reordered_received).2 hrest⟩

end UdpNotif
