import UdpNotif.ListeningWorker.Draining

/-!
The loop of `listener`, which receives datagrams in batches, and what becomes of the
blocks that it allocates for them: the receive buffers and the addresses. A block is in
the array of `recvmmsg`, in a queue, with a parser or with the client, or it was freed, or
it is out of reach: the array is filled with new blocks before each call, a message that
is discarded keeps its addresses, and a parser that returns keeps its element. As only the
allocation of a reassembled payload may fail, a parser returns only where its parse function
returned `NULL`, and not for insertions that failed, before which the receive buffer is freed.
-/

namespace UdpNotif

open Runs

variable {options : UnyteUdpOptions}

/-- What is allocated for one of the `messages` before `recvmmsg` is called. -/
structure MessageBlocks where
  iovBase : RecvBuffer
  msgName : SockaddrStorage

/-- The blocks of a source and of a destination that is not `NULL`. -/
def addressBlocks (src : SockaddrStorage) (dest : Option SockaddrStorage) :
    Multiset SockaddrStorage :=
  src ::ₘ dest.elim 0 singleton

/-- The receive buffer of an element. -/
def UnyteMin.buffers (queueData : UnyteMin) : Multiset RecvBuffer := {queueData.buffer}

/-- A message has its own memory. -/
def UnyteSegMet.buffers (_ : UnyteSegMet) : Multiset RecvBuffer := 0

/-- The addresses that an element names. -/
def UnyteMin.addresses (queueData : UnyteMin) : Multiset SockaddrStorage :=
  addressBlocks queueData.src queueData.dest

/-- The addresses that a message names. -/
def UnyteSegMet.addresses (message : UnyteSegMet) : Multiset SockaddrStorage :=
  addressBlocks message.metadata.src message.metadata.dest

/-- What becomes of the blocks of one kind. -/
structure BlockFlow (α : Type*) where
  allocated : Multiset α := 0
  freed : Multiset α := 0
  /-- The blocks that `recvmmsg` has received nothing into. -/
  unfilled : Multiset α := 0
  /-- The blocks of messages that are discarded, and not freed. -/
  discarded : Multiset α := 0
  /-- The blocks of the elements that a parser returned with. -/
  abandoned : Multiset α := 0

namespace BlockFlow

variable {α : Type*}

instance : Zero (BlockFlow α) := ⟨{}⟩

instance : Add (BlockFlow α) :=
  ⟨fun f g => ⟨f.allocated + g.allocated, f.freed + g.freed, f.unfilled + g.unfilled,
    f.discarded + g.discarded, f.abandoned + g.abandoned⟩⟩

/-- New blocks for an array whose first ones are filled. -/
def ofSlots (filled unfilled : List α) : BlockFlow α where
  allocated := (filled : Multiset α) + unfilled
  unfilled := unfilled

/-- The blocks that no thread holds. -/
def gone (f : BlockFlow α) : Multiset α := f.freed + f.unfilled + f.discarded + f.abandoned

theorem gone_add (f g : BlockFlow α) : (f + g).gone = f.gone + g.gone := by
  change f.freed + g.freed + (f.unfilled + g.unfilled) + (f.discarded + g.discarded) +
    (f.abandoned + g.abandoned) = _
  unfold gone
  abel

@[simp]
theorem gone_zero : (0 : BlockFlow α).gone = 0 := rfl

@[simp]
theorem allocated_zero : (0 : BlockFlow α).allocated = 0 := rfl

theorem allocated_add (f g : BlockFlow α) : (f + g).allocated = f.allocated + g.allocated := rfl

/-- What is allocated is held or gone, also after a step that balances. -/
theorem account {f g : BlockFlow α} {held held' : Multiset α}
    (h : f.allocated = held + f.gone) (hstep : held' + g.gone = held + g.allocated) :
    (f + g).allocated = held' + (f + g).gone := by
  rw [allocated_add, gone_add]
  exact Weights.account_step h hstep

theorem ofSlots_step (filled unfilled : List α) (held : Multiset α) :
    (filled : Multiset α) + held + (ofSlots filled unfilled).gone =
      held + (ofSlots filled unfilled).allocated := by
  simp only [gone, ofSlots, zero_add, add_zero]
  abel

end BlockFlow

namespace Collector

/-- `seg` is written to the queue of its parser. -/
def accepts (c : Collector options) (seg : UnyteMin) : Bool :=
  ((c.parsers (options.dispatch seg)).input.write seg).isSome

/-- What becomes of the receive buffer of a message that the listener looks at. -/
def receiveBuffers (c : Collector options) (message : ReceivedMessage) : BlockFlow RecvBuffer :=
  let seg := message.minimalParse
  if message.datagram = [] ∨ c.accepts seg = false then { freed := {seg.buffer} } else 0

/-- What becomes of its addresses. The destination is allocated unless the message is empty. -/
def receiveAddresses (c : Collector options) (message : ReceivedMessage) :
    BlockFlow SockaddrStorage :=
  if message.datagram = [] then { discarded := {message.src} }
  else
    let seg := message.minimalParse
    { allocated := message.dest.elim 0 singleton
      discarded := if c.accepts seg then 0 else seg.addresses }

end Collector

/-- The message that an iteration hands over. -/
def ParserOutcome.written? : ParserOutcome → Option UnyteSegMet
  | continued _ written => written
  | diverges | undefined | stopped => none

/-- What becomes of the receive buffer of an element in an iteration of `parser`. -/
def iterationBuffers (legacyProto : Bool) (queueData : UnyteMin) : BlockFlow RecvBuffer :=
  match parseFunc legacyProto queueData.buffer.val queueData with
  | .ok _ => { freed := {queueData.buffer} }
  | .null => { abandoned := {queueData.buffer} }
  | .diverges | .undefined => 0

/-- What becomes of addresses in an iteration of `parser`. A segment is freed with its
addresses; an assembled message has addresses of its own. -/
def iterationAddresses (legacyProto : Bool) (malloc : Nat → Bool) (now : Int) (st : ParserState)
    (queueData : UnyteMin) : BlockFlow SockaddrStorage :=
  match parseFunc legacyProto queueData.buffer.val queueData with
  | .ok parsed =>
      if isSegmented parsed.header then
        { allocated := (handleParsed malloc now st parsed).written?.elim 0 UnyteSegMet.addresses
          freed := parsed.addresses }
      else 0
  | .null => { abandoned := queueData.addresses }
  | .diverges | .undefined => 0

namespace Collector

/-- What becomes of receive buffers in a step. -/
def bufferFlow (c : Collector options) : CollectorEvent options → BlockFlow RecvBuffer
  | .receive message => c.receiveBuffers message
  | .parse i _ _ =>
      match (c.parsers i).phase with
      | .parsing queueData => iterationBuffers options.legacy queueData
      | .waiting | .writing _ | .returned => 0
  | .read _ | .write _ | .requestCleanup _ | .clientRead => 0

/-- What becomes of addresses in a step. A message for a full output queue is freed. -/
def addressFlow (c : Collector options) : CollectorEvent options → BlockFlow SockaddrStorage
  | .receive message => c.receiveAddresses message
  | .parse i malloc now =>
      match (c.parsers i).phase with
      | .parsing queueData =>
          iterationAddresses options.legacy malloc now (c.parsers i).state queueData
      | .waiting | .writing _ | .returned => 0
  | .write i =>
      match (c.parsers i).phase with
      | .writing message =>
          if (c.output.write message).isSome then 0 else { freed := message.addresses }
      | .waiting | .parsing _ | .returned => 0
  | .read _ | .requestCleanup _ | .clientRead => 0

end Collector

/-- A collector whose listener has a batch of messages that it has not looked at, and what
has become of blocks so far. -/
structure Listener (options : UnyteUdpOptions) where
  collector : Collector options
  batch : List ReceivedMessage
  buffers : BlockFlow RecvBuffer
  addresses : BlockFlow SockaddrStorage

/-- The steps of a collector with batches. -/
inductive ListenerEvent (options : UnyteUdpOptions) where
  | recvmmsg (received : List ReceivedMessage) (unfilled : List MessageBlocks)
  | dispatch
  | other (l : CollectorEvent options)

namespace Listener

/-- Before the first batch. -/
def init (options : UnyteUdpOptions) : Listener options where
  collector := .init options
  batch := []
  buffers := 0
  addresses := 0

/-- The blocks of the array are allocated and the first of them filled. -/
def recvmmsg (recvmmsgVlen : Uint16) (s : Listener options) (received : List ReceivedMessage)
    (unfilled : List MessageBlocks) : Option (Listener options) :=
  if s.batch.isEmpty && received.length + unfilled.length == recvmmsgVlen.toNat then
    some { s with
      batch := received
      buffers := s.buffers + .ofSlots (received.map (·.minimalParse.buffer))
        (unfilled.map MessageBlocks.iovBase)
      addresses := s.addresses + .ofSlots (received.map (·.src))
        (unfilled.map MessageBlocks.msgName) }
  else none

/-- A step of the collector, with what becomes of blocks. -/
def collect (s : Listener options) (l : CollectorEvent options) : Option (Listener options) :=
  (s.collector.step l).map fun collector =>
    { s with
      collector
      buffers := s.buffers + s.collector.bufferFlow l
      addresses := s.addresses + s.collector.addressFlow l }

/-- What a step does; `none` if its thread cannot take it. -/
def step (recvmmsgVlen : Uint16) (s : Listener options) :
    ListenerEvent options → Option (Listener options)
  | .recvmmsg received unfilled => s.recvmmsg recvmmsgVlen received unfilled
  | .dispatch =>
      match s.batch with
      | [] => none
      | message :: batch => { s with batch }.collect (.receive message)
  -- datagrams come from the batch
  | .other (.receive _) => none
  | .other l => s.collect l

/-- The steps of a collector with batches. -/
def Step (recvmmsgVlen : Uint16) (s : Listener options) (l : ListenerEvent options)
    (s' : Listener options) : Prop :=
  s.step recvmmsgVlen l = some s'

end Listener

section Holdings

variable {M : Type*} [AddCommMonoid M] (element : UnyteMin → M) (message : UnyteSegMet → M)

/-- What a thread holds in its phase, where elements and messages count for something. -/
def ParserPhase.holds : ParserPhase → M
  | parsing queueData => element queueData
  | writing written => message written
  | waiting | returned => 0

/-- What a thread holds, with its queue. -/
def ParserThread.holds (thread : ParserThread) : M :=
  (thread.input.elements.map element).sum + thread.phase.holds element message

/-- What the threads, the queues and the client hold. -/
def Collector.holds (c : Collector options) : M :=
  (∑ i, (c.parsers i).holds element message) +
    ((c.output.elements.map message).sum + (c.client.map message).sum)

end Holdings

namespace Collector

/-- The receive buffers that are with the queues and the parsers. -/
def buffers (c : Collector options) : Multiset RecvBuffer :=
  c.holds UnyteMin.buffers UnyteSegMet.buffers

/-- The addresses that are with them, and those of messages. -/
def addresses (c : Collector options) : Multiset SockaddrStorage :=
  c.holds UnyteMin.addresses UnyteSegMet.addresses

end Collector

namespace Listener

/-- The receive buffers that are held, also by the array. -/
def heldBuffers (s : Listener options) : Multiset RecvBuffer :=
  (s.batch.map (·.minimalParse.buffer) : Multiset RecvBuffer) + s.collector.buffers

/-- The addresses that are held, also by the array. -/
def heldAddresses (s : Listener options) : Multiset SockaddrStorage :=
  (s.batch.map (·.src) : Multiset SockaddrStorage) + s.collector.addresses

end Listener

/-- One for a parser that has returned. -/
def ParserThread.returns (thread : ParserThread) : Nat :=
  match thread.phase with
  | .returned => 1
  | .waiting | .parsing _ | .writing _ => 0

theorem ParserThread.returns_of_ne {thread : ParserThread} (h : thread.phase ≠ .returned) :
    thread.returns = 0 := by
  unfold returns
  split
  · contradiction
  · rfl
  · rfl
  · rfl

/-- The number of parsers that have returned. -/
def Collector.returns (c : Collector options) : Nat := Weights.total ParserThread.returns c.parsers

/-- The message that is received in a step. -/
def CollectorEvent.received? : CollectorEvent options → Option ReceivedMessage
  | receive message => some message
  | read _ | parse _ _ _ | write _ | requestCleanup _ | clientRead => none

/-- The messages of the batches, in their order. -/
def arrivals (ls : List (ListenerEvent options)) : List ReceivedMessage :=
  ls.flatMap fun l => match l with
    | .recvmmsg received _ => received
    | .dispatch | .other _ => []

/-- The number of batches. -/
def batches (ls : List (ListenerEvent options)) : Nat :=
  ls.countP fun l => match l with
    | .recvmmsg _ _ => true
    | .dispatch | .other _ => false

section Moves

variable {M : Type*} [AddCancelCommMonoid M] {element : UnyteMin → M} {message : UnyteSegMet → M}

namespace Collector

variable {c c' : Collector options} {i : options.ParserId} {ls : List (CollectorEvent options)}

/-- What a thread gains and loses, its collector does. -/
theorem holds_setParser {thread : ParserThread} {lost gained : M}
    (h : thread.holds element message + lost =
      (c.parsers i).holds element message + gained) :
    (c.setParser i thread).holds element message + lost = c.holds element message + gained := by
  have hsum := Weights.sum_update_of h
  let others := (c.output.elements.map message).sum + (c.client.map message).sum
  calc (c.setParser i thread).holds element message + lost
      = (∑ j, (Function.update c.parsers i thread j).holds element message) + others + lost := rfl
    _ = (∑ j, (Function.update c.parsers i thread j).holds element message) + lost + others := by
        abel
    _ = (∑ j, (c.parsers j).holds element message) + others + gained := by
        rw [hsum]
        abel

/-- A thread goes on to another phase. -/
theorem holds_setPhase (state : ParserState) (phase : ParserPhase) :
    (c.setParser i { c.parsers i with state, phase }).holds element message +
        (c.parsers i).phase.holds element message =
      c.holds element message + phase.holds element message := by
  apply holds_setParser
  unfold ParserThread.holds
  abel

/-- A message that is queued is held. -/
theorem holds_output {output : UnyteUdpQueue UnyteSegMet} {queued : UnyteSegMet}
    (hqueued : output.elements = c.output.elements ++ [queued]) :
    ({ c with output } : Collector options).holds element message =
      c.holds element message + message queued := by
  unfold holds
  rw [hqueued, List.map_append, List.sum_append, List.map_singleton, List.sum_singleton]
  abel

/-- A message that is received is with the collector if its parser accepts it. -/
theorem RefinesParsers.holds_receive (h : c.RefinesParsers ls) (received : ReceivedMessage) :
    (c.receive received).holds element message = c.holds element message +
      if received.datagram = [] ∨ c.accepts received.minimalParse = false then 0
      else element received.minimalParse := by
  obtain ⟨_, _, _, h⟩ := h
  let seg := received.minimalParse
  obtain ⟨elements, hholds, _⟩ := (h.threads (options.dispatch seg)).input
  by_cases hempty : received.datagram = []
  · rw [receive, if_pos hempty, if_pos (Or.inl hempty), add_zero]
  · simp only [receive, accepts, hempty, false_or]
    cases hwrite : (c.parsers (options.dispatch seg)).input.write seg with
    | none =>
        simp only [Option.isSome_none, if_true, if_false, add_zero]
    | some input =>
        simp only [Option.isSome_some, Bool.true_eq_false, if_false]
        have hmore : input.elements =
            (c.parsers (options.dispatch seg)).input.elements ++ [seg] := by
          rw [(hholds.write hwrite).elements_eq, hholds.elements_eq]
        apply add_right_cancel (b := (0 : M))
        rw [add_zero (c.holds element message + _)]
        apply holds_setParser
        unfold ParserThread.holds
        rw [hmore, List.map_append, List.sum_append, List.map_singleton, List.sum_singleton]
        abel

/-- A parser that reads an element holds it. -/
theorem RefinesParsers.holds_read (h : c.RefinesParsers ls) (hread : c.read i = some c') :
    c'.holds element message = c.holds element message := by
  obtain ⟨_, _, _, h⟩ := h
  obtain ⟨queueData, input, hphase, hinput, rfl⟩ := read_cases hread
  obtain ⟨elements, hholds, _⟩ := (h.threads i).input
  obtain ⟨rest, rfl, hrest⟩ := hholds.read_eq_some hinput
  apply add_right_cancel (b := (0 : M))
  apply holds_setParser
  simp only [ParserThread.holds, ParserPhase.holds, hphase, hholds.elements_eq,
    hrest.elements_eq, List.map_cons, List.sum_cons]
  abel

variable (element message) in
/-- A parser that handles an element holds the message that it hands over. -/
theorem holds_parse {malloc : Nat → Bool} {now : Int} (hparse : c.parse i malloc now = some c') :
    ∃ queueData, (c.parsers i).phase = .parsing queueData ∧
      ((∃ state written,
        parserIteration options.legacy malloc now (c.parsers i).state queueData =
          .continued state written ∧
        c'.holds element message + element queueData =
          c.holds element message + written.elim 0 message) ∨
      (parserIteration options.legacy malloc now (c.parsers i).state queueData = .stopped ∧
        c'.holds element message + element queueData = c.holds element message)) := by
  obtain ⟨queueData, hphase, hcases⟩ := parse_cases hparse
  have helement : (c.parsers i).phase.holds element message = element queueData := by
    rw [hphase]
    rfl
  refine ⟨queueData, hphase, ?_⟩
  rcases hcases with ⟨state, written, phase, hiteration, hrunning, hhandled, hwritten, rfl⟩ |
    ⟨hstopped, rfl⟩
  · refine Or.inl ⟨state, written, hiteration, ?_⟩
    have hphases : phase.holds element message = written.elim 0 message := by
      cases phase with
      | parsing => cases hhandled
      | returned => exact absurd rfl hrunning
      | waiting | writing =>
          rw [← hwritten]
          rfl
    rw [← helement, ← hphases]
    exact holds_setPhase state phase
  · refine Or.inr ⟨hstopped, ?_⟩
    rw [← helement]
    exact (holds_setPhase (c.parsers i).state .returned).trans (add_zero _)

variable (element message) in
/-- A message is written to the output queue, or freed. -/
theorem RefinesParsers.holds_write (h : c.RefinesParsers ls) (hwrite : c.write i = some c') :
    ∃ written, (c.parsers i).phase = .writing written ∧
      c'.holds element message +
          (if (c.output.write written).isSome then 0 else message written) =
        c.holds element message := by
  obtain ⟨_, _, queued, h⟩ := h
  obtain ⟨written, hphase, hcases⟩ := write_cases hwrite
  have hmessage : (c.parsers i).phase.holds element message = message written := by
    rw [hphase]
    rfl
  let waiting := c.setParser i { c.parsers i with phase := .waiting }
  have hwaiting : waiting.holds element message + message written = c.holds element message := by
    rw [← hmessage]
    exact (holds_setPhase (c.parsers i).state .waiting).trans (add_zero _)
  refine ⟨written, hphase, ?_⟩
  rcases hcases with ⟨hfull, rfl⟩ | ⟨output, houtput, rfl⟩
  · rw [hfull]
    exact hwaiting
  · have hmore : output.elements = c.output.elements ++ [written] := by
      rw [(h.output.write houtput).elements_eq, h.output.elements_eq]
    have hqueued : ({ waiting with output } : Collector options).holds element message =
        waiting.holds element message + message written := holds_output hmore
    rw [houtput, Option.isSome_some, if_pos rfl, add_zero]
    exact hqueued.trans hwaiting

theorem holds_requestCleanup :
    (c.requestCleanup i).holds element message = c.holds element message := by
  apply add_right_cancel (b := (c.parsers i).phase.holds element message)
  exact holds_setPhase _ _

/-- The client is given what was queued. -/
theorem RefinesParsers.holds_clientRead (h : c.RefinesParsers ls)
    (hread : c.clientRead = some c') :
    c'.holds element message = c.holds element message := by
  obtain ⟨_, _, queued, h⟩ := h
  obtain ⟨given, output, hinput, rfl⟩ := clientRead_cases hread
  obtain ⟨rest, rfl, hrest⟩ := h.output.read_eq_some hinput
  unfold holds
  rw [hrest.elements_eq, h.output.elements_eq]
  simp only [List.map_cons, List.sum_cons, List.map_append, List.sum_append, List.map_nil,
    List.sum_nil]
  abel

end Collector

end Moves

section Iteration

variable {legacyProto : Bool} {malloc : Nat → Bool} {now : Int} {st st' : ParserState}
  {queueData : UnyteMin} {parsed : UnyteSegMet}

theorem parseFunc_addresses
    (h : parseFunc legacyProto queueData.buffer.val queueData = .ok parsed) :
    parsed.addresses = queueData.addresses := by
  cases legacyProto with
  | false =>
      obtain ⟨s, _, _, rfl⟩ := (parseWithMetadata_eq_ok_iff _ _ _).mp h
      rfl
  | true =>
      obtain ⟨mediaType, _, _, rfl⟩ := (parseWithMetadataLegacy_eq_ok_iff _ _ _).mp h
      rfl

/-- An iteration that goes on has parsed its element. -/
theorem parserIteration_parsed {written : Option UnyteSegMet}
    (h : parserIteration legacyProto malloc now st queueData = .continued st' written) :
    ∃ parsed, parseFunc legacyProto queueData.buffer.val queueData = .ok parsed ∧
      handleParsed malloc now st parsed = .continued st' written := by
  unfold parserIteration at h
  cases hparse : parseFunc legacyProto queueData.buffer.val queueData with
  | diverges | undefined | null =>
      rw [hparse] at h
      cases h
  | ok parsed =>
      rw [hparse] at h
      exact ⟨parsed, rfl, h⟩

/-- A parser returns only from a parse function that returned `NULL`. -/
theorem parserIteration_null (hbuilt : st.segmentBuff.Built)
    (h : parserIteration legacyProto malloc now st queueData = .stopped) :
    parseFunc legacyProto queueData.buffer.val queueData = .null := by
  unfold parserIteration at h
  cases hparse : parseFunc legacyProto queueData.buffer.val queueData with
  | null => rfl
  | diverges | undefined =>
      rw [hparse] at h
      cases h
  | ok parsed =>
      rw [hparse] at h
      obtain ⟨_, _, hgoes, _⟩ := handleParsed_goes_on malloc now hbuilt (parseFunc_parsed hparse)
      cases hgoes.symm.trans h

/-- The addresses of an element are handed over with its message or freed with its segment,
and an assembled message has addresses of its own. -/
theorem iterationAddresses_continued {written : Option UnyteSegMet}
    (h : parserIteration legacyProto malloc now st queueData = .continued st' written) :
    written.elim 0 UnyteSegMet.addresses +
        (iterationAddresses legacyProto malloc now st queueData).gone =
      queueData.addresses + (iterationAddresses legacyProto malloc now st queueData).allocated := by
  obtain ⟨parsed, hparse, hhandled⟩ := parserIteration_parsed h
  have haddresses := parseFunc_addresses hparse
  unfold iterationAddresses
  rw [hparse]
  by_cases hsegmented : isSegmented parsed.header = true
  · simp only [hsegmented, if_true, hhandled, ParserOutcome.written?, BlockFlow.gone, haddresses,
      add_zero]
    abel
  · rw [handleParsed, if_neg hsegmented] at hhandled
    obtain ⟨_, rfl⟩ := ParserOutcome.continued.inj hhandled
    simp only [hsegmented]
    exact congrArg (· + 0) haddresses

end Iteration

namespace Collector

variable {c c' : Collector options} {l : CollectorEvent options}
  {ls : List (CollectorEvent options)}

/-- A parser has a buffer that its calls have built. -/
theorem RefinesParsers.built (h : c.RefinesParsers ls) (i : options.ParserId) :
    (c.parsers i).state.segmentBuff.Built := by
  obtain ⟨events, lone, _, h⟩ := h
  have hbuilt := (LoneParser.reachable_of_run (h.threads i).run).built
  rwa [(h.threads i).state] at hbuilt

/-- A parser that stops has not parsed its element. -/
theorem RefinesParsers.null_of_stopped (h : c.RefinesParsers ls) {i : options.ParserId}
    {malloc : Nat → Bool} {now : Int} {queueData : UnyteMin}
    (hstopped : parserIteration options.legacy malloc now (c.parsers i).state queueData =
      .stopped) : parseFunc options.legacy queueData.buffer.val queueData = .null :=
  parserIteration_null (h.built i) hstopped

/-- The receive buffers of a step: those that enter the collector and those that are
allocated are held then, or gone. -/
theorem RefinesParsers.buffers_step (h : c.RefinesParsers ls) (hstep : c.Step l c') :
    c'.buffers + (c.bufferFlow l).gone = c.buffers + ((c.bufferFlow l).allocated +
      l.received?.elim 0 fun message => message.minimalParse.buffers) := by
  cases l with
  | receive message =>
      obtain rfl := Option.some.inj hstep
      have hheld : (c.receive message).buffers = c.buffers + _ := h.holds_receive message
      simp only [hheld, bufferFlow, receiveBuffers, CollectorEvent.received?, Option.elim_some]
      split
      · simp [BlockFlow.gone, UnyteMin.buffers]
      · simp
  | read i =>
      have hheld : c'.buffers = c.buffers := h.holds_read hstep
      rw [hheld]
      rfl
  | parse i malloc now =>
      obtain ⟨queueData, hphase, hcases⟩ :=
        holds_parse UnyteMin.buffers UnyteSegMet.buffers hstep
      have hheld : c'.buffers + queueData.buffers = c.buffers := by
        rcases hcases with ⟨_, written, _, hheld⟩ | ⟨_, hheld⟩
        · cases written <;> exact hheld.trans (add_zero _)
        · exact hheld
      have hgone : (c.bufferFlow (.parse i malloc now)).gone = queueData.buffers := by
        simp only [bufferFlow, hphase, iterationBuffers]
        rcases hcases with ⟨_, _, hiteration, _⟩ | ⟨hstopped, _⟩
        · obtain ⟨parsed, hparse, _⟩ := parserIteration_parsed hiteration
          simp [hparse, BlockFlow.gone, UnyteMin.buffers]
        · simp [h.null_of_stopped hstopped, BlockFlow.gone, UnyteMin.buffers]
      have hallocated : (c.bufferFlow (.parse i malloc now)).allocated = 0 := by
        simp only [bufferFlow, hphase, iterationBuffers]
        split <;> rfl
      rw [hgone, hheld, hallocated]
      exact (add_zero _).symm
  | write i =>
      obtain ⟨written, _, hheld⟩ := h.holds_write UnyteMin.buffers UnyteSegMet.buffers hstep
      have hnone : (if (c.output.write written).isSome then 0 else written.buffers) = 0 :=
        ite_self _
      have hsame : c'.buffers = c.buffers := by
        rw [hnone, add_zero] at hheld
        exact hheld
      rw [hsame]
      rfl
  | requestCleanup i =>
      obtain rfl := Option.some.inj hstep
      have hheld : (c.requestCleanup i).buffers = c.buffers := holds_requestCleanup
      rw [hheld]
      rfl
  | clientRead =>
      have hheld : c'.buffers = c.buffers := h.holds_clientRead hstep
      rw [hheld]
      rfl

/-- The addresses of a step. -/
theorem RefinesParsers.addresses_step (h : c.RefinesParsers ls) (hstep : c.Step l c') :
    c'.addresses + (c.addressFlow l).gone = c.addresses + ((c.addressFlow l).allocated +
      l.received?.elim 0 fun message => {message.src}) := by
  cases l with
  | receive message =>
      obtain rfl := Option.some.inj hstep
      have hheld : (c.receive message).addresses = c.addresses + _ := h.holds_receive message
      have hnames : message.minimalParse.addresses =
          message.dest.elim 0 singleton + {message.src} := by
        rw [add_comm, Multiset.singleton_add]
        rfl
      simp only [hheld, addressFlow, receiveAddresses, CollectorEvent.received?, Option.elim_some]
      by_cases hempty : message.datagram = []
      · simp [hempty, BlockFlow.gone]
      · cases haccepts : c.accepts message.minimalParse with
        | true => simp [hempty, BlockFlow.gone, hnames]
        | false => simp [hempty, BlockFlow.gone, hnames]
  | read i =>
      have hheld : c'.addresses = c.addresses := h.holds_read hstep
      rw [hheld]
      rfl
  | parse i malloc now =>
      obtain ⟨queueData, hphase, hcases⟩ :=
        holds_parse UnyteMin.addresses UnyteSegMet.addresses hstep
      simp only [addressFlow, hphase, CollectorEvent.received?, Option.elim_none, add_zero]
      rcases hcases with ⟨_, written, hiteration, hheld⟩ | ⟨hstopped, hheld⟩
      · have hflow := iterationAddresses_continued hiteration
        apply add_right_cancel (b := queueData.addresses)
        calc c'.addresses + _ + queueData.addresses
            = c'.addresses + queueData.addresses + _ := add_right_comm _ _ _
          _ = c.addresses + written.elim 0 UnyteSegMet.addresses + _ := congrArg (· + _) hheld
          _ = _ := by
              rw [add_assoc, hflow]
              abel
      · have hheld : c'.addresses + queueData.addresses = c.addresses := hheld
        simp [iterationAddresses, h.null_of_stopped hstopped, BlockFlow.gone, hheld]
  | write i =>
      obtain ⟨written, hphase, hheld⟩ :=
        h.holds_write UnyteMin.addresses UnyteSegMet.addresses hstep
      have hheld : c'.addresses +
          (if (c.output.write written).isSome then 0 else written.addresses) = c.addresses := hheld
      simp only [addressFlow, hphase, ← hheld, CollectorEvent.received?, Option.elim_none]
      split
      · simp
      · simp [BlockFlow.gone]
  | requestCleanup i =>
      obtain rfl := Option.some.inj hstep
      have hheld : (c.requestCleanup i).addresses = c.addresses := holds_requestCleanup
      rw [hheld]
      rfl
  | clientRead =>
      have hheld : c'.addresses = c.addresses := h.holds_clientRead hstep
      rw [hheld]
      rfl

/-- One thread is changed. -/
theorem returns_setParser {i : options.ParserId} {thread : ParserThread} :
    (c.setParser i thread).returns + (c.parsers i).returns = c.returns + thread.returns :=
  Weights.total_update ParserThread.returns c.parsers i thread

/-- A parser that was running changes, and may have returned. -/
theorem returns_of_running {i : options.ParserId} {thread : ParserThread}
    (h : (c.parsers i).returns = 0) :
    (c.setParser i thread).returns = c.returns + thread.returns := by
  have hboth : (c.setParser i thread).returns + _ = _ := returns_setParser
  rwa [h, add_zero] at hboth

/-- A parser that returns takes the receive buffer of its element with it. -/
theorem RefinesParsers.returns_step (h : c.RefinesParsers ls) (hstep : c.Step l c') :
    c'.returns = c.returns + (c.bufferFlow l).abandoned.card ∧
      (c.bufferFlow l).unfilled = 0 ∧ (c.bufferFlow l).discarded = 0 := by
  cases l with
  | receive message =>
      obtain rfl := Option.some.inj hstep
      have hflow : (c.receiveBuffers message).abandoned = 0 ∧
          (c.receiveBuffers message).unfilled = 0 ∧ (c.receiveBuffers message).discarded = 0 := by
        unfold receiveBuffers
        dsimp only
        split <;> exact ⟨rfl, rfl, rfl⟩
      refine ⟨?_, hflow.2⟩
      change _ = c.returns + (c.receiveBuffers message).abandoned.card
      rw [hflow.1]
      unfold receive
      split
      · rfl
      · dsimp only
        split
        · rfl
        · exact Nat.add_right_cancel c.returns_setParser
  | read i =>
      obtain ⟨queueData, input, hphase, _, rfl⟩ := read_cases hstep
      exact ⟨returns_of_running (ParserThread.returns_of_ne (by simp [hphase])), rfl, rfl⟩
  | parse i malloc now =>
      obtain ⟨queueData, hphase, hcases⟩ := parse_cases hstep
      have hrunning : (c.parsers i).returns = 0 := ParserThread.returns_of_ne (by simp [hphase])
      simp only [bufferFlow, hphase, iterationBuffers]
      rcases hcases with ⟨state, written, phase, hiteration, hphase', _, _, rfl⟩ | ⟨hstopped, rfl⟩
      · obtain ⟨parsed, hparse, _⟩ := parserIteration_parsed hiteration
        rw [hparse]
        have hgoes : ({ c.parsers i with state, phase } : ParserThread).returns = 0 :=
          ParserThread.returns_of_ne hphase'
        exact ⟨(returns_of_running hrunning).trans (congrArg (c.returns + ·) hgoes), rfl, rfl⟩
      · rw [h.null_of_stopped hstopped]
        exact ⟨returns_of_running hrunning, rfl, rfl⟩
  | write i =>
      obtain ⟨written, hphase, hcases⟩ := write_cases hstep
      have hrunning : (c.parsers i).returns = 0 := ParserThread.returns_of_ne (by simp [hphase])
      refine ⟨?_, rfl, rfl⟩
      rcases hcases with ⟨_, rfl⟩ | ⟨output, _, rfl⟩ <;> exact returns_of_running hrunning
  | requestCleanup i =>
      obtain rfl := Option.some.inj hstep
      exact ⟨Nat.add_right_cancel returns_setParser, rfl, rfl⟩
  | clientRead =>
      obtain ⟨_, _, _, rfl⟩ := clientRead_cases hstep
      exact ⟨rfl, rfl, rfl⟩

end Collector

section Batches

variable (ls : List (ListenerEvent options)) (l : ListenerEvent options)

theorem arrivals_concat : arrivals (ls ++ [l]) = arrivals ls ++ arrivals [l] :=
  List.flatMap_append

theorem batches_concat : batches (ls ++ [l]) = batches ls + batches [l] :=
  List.countP_append

end Batches

namespace Listener

variable {recvmmsgVlen : Uint16} {ls : List (ListenerEvent options)} {s s' : Listener options}

/-- The collector is one that receives the messages of the batches in their order, and every
block that was allocated is held or gone. -/
structure Accounted (recvmmsgVlen : Uint16) (ls : List (ListenerEvent options))
    (s : Listener options) : Prop where
  collector : ∃ steps, Run Collector.Step (.init options) steps s.collector ∧
    steps.filterMap CollectorEvent.received? ++ s.batch = arrivals ls
  buffers : s.buffers.allocated = s.heldBuffers + s.buffers.gone
  addresses : s.addresses.allocated = s.heldAddresses + s.addresses.gone
  unfilled : s.buffers.unfilled.card + (arrivals ls).length = recvmmsgVlen.toNat * batches ls
  discarded : s.buffers.discarded = 0
  returned : s.buffers.abandoned.card = s.collector.returns

/-- A batch is received. -/
theorem Accounted.recvmmsg (h : s.Accounted recvmmsgVlen ls) {received : List ReceivedMessage}
    {unfilled : List MessageBlocks}
    (hstep : s.recvmmsg recvmmsgVlen received unfilled = some s') :
    s'.Accounted recvmmsgVlen (ls ++ [.recvmmsg received unfilled]) := by
  unfold Listener.recvmmsg at hstep
  split at hstep
  · next hslots =>
      obtain rfl := Option.some.inj hstep
      obtain ⟨hempty, hslots⟩ := Bool.and_eq_true_iff.mp hslots
      have hempty : s.batch = [] := List.isEmpty_iff.mp hempty
      have hslots : received.length + unfilled.length = recvmmsgVlen.toNat := eq_of_beq hslots
      have harrivals : arrivals (ls ++ [.recvmmsg received unfilled]) = arrivals ls ++ received :=
        (arrivals_concat _ _).trans (congrArg (_ ++ ·) (List.append_nil _))
      have hbatches : batches (ls ++ [.recvmmsg received unfilled]) = batches ls + 1 :=
        batches_concat _ _
      have hbuffers : s.heldBuffers = s.collector.buffers := by
        rw [heldBuffers, hempty]
        exact zero_add _
      have haddresses : s.heldAddresses = s.collector.addresses := by
        rw [heldAddresses, hempty]
        exact zero_add _
      refine ⟨?_, BlockFlow.account h.buffers ?_, BlockFlow.account h.addresses ?_, ?_, ?_, ?_⟩
      · obtain ⟨steps, hrun, hreceived⟩ := h.collector
        rw [hempty, List.append_nil] at hreceived
        refine ⟨steps, hrun, ?_⟩
        rw [harrivals, hreceived]
      · rw [hbuffers]
        exact BlockFlow.ofSlots_step _ _ _
      · rw [haddresses]
        exact BlockFlow.ofSlots_step _ _ _
      · have hcard : (s.buffers.unfilled +
            (unfilled.map MessageBlocks.iovBase : Multiset RecvBuffer)).card =
              s.buffers.unfilled.card + unfilled.length := by
          rw [Multiset.card_add, Multiset.coe_card, List.length_map]
        have hbefore := h.unfilled
        rw [harrivals, hbatches, List.length_append, Nat.mul_succ]
        refine (congrArg (· + _) hcard).trans ?_
        omega
      · exact (add_zero _).trans h.discarded
      · exact (congrArg Multiset.card (add_zero _)).trans h.returned
  · cases hstep

/-- The collector takes a step, and the listener has looked at the message that is received
in it. -/
theorem Accounted.collect (h : s.Accounted recvmmsgVlen ls) {batch : List ReceivedMessage}
    {l : CollectorEvent options} (hbatch : s.batch = l.received?.toList ++ batch)
    (hstep : { s with batch }.collect l = some s') {ls' : List (ListenerEvent options)}
    (harrivals : arrivals ls' = arrivals ls) (hbatches : batches ls' = batches ls) :
    s'.Accounted recvmmsgVlen ls' := by
  obtain ⟨collector, hcollector, rfl⟩ := Option.map_eq_some_iff.mp hstep
  obtain ⟨steps, hrun, hreceived⟩ := h.collector
  have hrefines := Collector.refinesParsers_of_run hrun
  have hcollector : s.collector.step l = some collector := hcollector
  obtain ⟨hreturns, hunfilled, hdiscarded⟩ := hrefines.returns_step hcollector
  refine ⟨⟨steps ++ [l], hrun.snoc hcollector, ?_⟩, BlockFlow.account h.buffers ?_,
    BlockFlow.account h.addresses ?_, ?_, ?_, ?_⟩
  · have hlast : [l].filterMap CollectorEvent.received? = l.received?.toList := by
      cases l <;> rfl
    rw [harrivals, ← hreceived, hbatch, List.filterMap_append, hlast]
    exact List.append_assoc _ _ _
  · have hflow := hrefines.buffers_step hcollector
    have hheld : s.heldBuffers = (l.received?.elim 0 fun message => message.minimalParse.buffers) +
        (batch.map (·.minimalParse.buffer) : Multiset RecvBuffer) + s.collector.buffers := by
      rw [heldBuffers, hbatch]
      cases l.received? <;> rfl
    let waiting := (batch.map (·.minimalParse.buffer) : Multiset RecvBuffer)
    calc waiting + collector.buffers + (s.collector.bufferFlow l).gone
        = waiting + (collector.buffers + (s.collector.bufferFlow l).gone) := add_assoc _ _ _
      _ = s.heldBuffers + (s.collector.bufferFlow l).allocated := by
          rw [hflow, hheld]
          abel
  · have hflow := hrefines.addresses_step hcollector
    have hheld : s.heldAddresses = (l.received?.elim 0 fun message => {message.src}) +
        (batch.map (·.src) : Multiset SockaddrStorage) + s.collector.addresses := by
      rw [heldAddresses, hbatch]
      cases l.received? <;> rfl
    let waiting := (batch.map (·.src) : Multiset SockaddrStorage)
    calc waiting + collector.addresses + (s.collector.addressFlow l).gone
        = waiting + (collector.addresses + (s.collector.addressFlow l).gone) := add_assoc _ _ _
      _ = s.heldAddresses + (s.collector.addressFlow l).allocated := by
          rw [hflow, hheld]
          abel
  · rw [harrivals, hbatches, ← h.unfilled]
    refine congrArg (Multiset.card · + _) ?_
    exact (congrArg (s.buffers.unfilled + ·) hunfilled).trans (add_zero _)
  · exact (congrArg₂ (· + ·) h.discarded hdiscarded).trans (add_zero _)
  · change Multiset.card (_ + _) = _
    rw [Multiset.card_add]
    exact (congrArg (· + _) h.returned).trans hreturns.symm

theorem Accounted.step (h : s.Accounted recvmmsgVlen ls) {l : ListenerEvent options}
    (hstep : Step recvmmsgVlen s l s') : s'.Accounted recvmmsgVlen (ls ++ [l]) := by
  have harrivals (hnone : arrivals [l] = []) : arrivals (ls ++ [l]) = arrivals ls := by
    rw [arrivals_concat, hnone, List.append_nil]
  have hbatches (hnone : batches [l] = 0) : batches (ls ++ [l]) = batches ls := by
    rw [batches_concat, hnone, add_zero]
  cases l with
  | recvmmsg received unfilled => exact h.recvmmsg hstep
  | dispatch =>
      simp only [Step, Listener.step] at hstep
      split at hstep
      · cases hstep
      · next message batch hbatch =>
          exact h.collect hbatch hstep (harrivals rfl) (hbatches rfl)
  | other l =>
      have hsame : s.batch = l.received?.toList ++ s.batch := by
        cases l with
        | receive message => cases hstep
        | read | parse | write | requestCleanup | clientRead => rfl
      have hcollect : s.collect l = some s' := by
        cases l with
        | receive message => cases hstep
        | read | parse | write | requestCleanup | clientRead => exact hstep
      exact h.collect hsame hcollect (harrivals rfl) (hbatches rfl)

end Listener

end UdpNotif
