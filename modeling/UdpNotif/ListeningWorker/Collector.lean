import UdpNotif.Utils.Queue
import UdpNotif.ParsingWorker.Parser

/-!
The threads of a collector and the queues between them: the listener of
`listening_worker.c`, its parsers with their clean up threads, and the client
that reads the output queue. Each step is one that a thread takes without a
shared object being changed meanwhile, so that the runs are the schedules.
-/

namespace UdpNotif

/-- The options of a collector that its threads use. Zero is replaced by a
default before they are started. -/
structure UnyteUdpOptions where
  nbParsers : Uint32
  parsersQueueSize : Uint32
  outputQueueSize : Uint32
  legacy : Bool
  nbParsers_pos : 0 < nbParsers.toNat
  parsersQueueSize_pos : 0 < parsersQueueSize.toNat
  outputQueueSize_pos : 0 < outputQueueSize.toNat

/-- One of the parsers of a collector. -/
abbrev UnyteUdpOptions.ParserId (options : UnyteUdpOptions) := Fin options.nbParsers.toNat

/-- The parser whose queue the listener writes an element to. -/
def parserIndex (nbParsers : Uint32) (seg : UnyteMin) : Uint32 :=
  seg.observationDomainId % nbParsers

theorem parserIndex_toNat (nbParsers : Uint32) (seg : UnyteMin) :
    (parserIndex nbParsers seg).toNat = seg.observationDomainId.toNat % nbParsers.toNat :=
  BitVec.toNat_umod

/-- The parser of an observation domain. -/
def UnyteUdpOptions.dispatch (options : UnyteUdpOptions) (seg : UnyteMin) : options.ParserId :=
  ⟨(parserIndex options.nbParsers seg).toNat, by
    rw [parserIndex_toNat]
    exact Nat.mod_lt _ options.nbParsers_pos⟩

/-- One message of `recvmmsg`: the buffer it was received into, the bytes that
were received and the addresses. -/
structure ReceivedMessage where
  heap : RecvBuffer
  datagram : List Uint8
  datagram_le : datagram.length ≤ udpSize
  src : SockaddrStorage
  dest : Option SockaddrStorage

/-- What the listener hands to a parser for a message. -/
def ReceivedMessage.minimalParse (message : ReceivedMessage) : UnyteMin :=
  UdpNotif.minimalParse (message.heap.receive message.datagram message.datagram_le)
    message.src message.dest

/-- Where a parser thread stands in its loop. -/
inductive ParserPhase where
  | waiting
  | parsing (queueData : UnyteMin)
  | writing (message : UnyteSegMet)
  | returned

/-- A parser waits for an element. -/
def ParserPhase.isWaiting : ParserPhase → Bool
  | waiting => true
  | parsing _ | writing _ | returned => false

instance (phase : ParserPhase) : Decidable (phase = .waiting) :=
  decidable_of_iff (phase.isWaiting = true) (by cases phase <;> simp [ParserPhase.isWaiting])

/-- A parser thread with its input queue. -/
structure ParserThread where
  input : UnyteUdpQueue UnyteMin
  state : ParserState
  phase : ParserPhase

/-- The queues and the threads of a collector, and what the client has read. -/
structure Collector (options : UnyteUdpOptions) where
  parsers : options.ParserId → ParserThread
  output : UnyteUdpQueue UnyteSegMet
  client : List UnyteSegMet

/-- The steps of the threads. -/
inductive CollectorEvent (options : UnyteUdpOptions) where
  | receive (message : ReceivedMessage)
  | read (i : options.ParserId)
  | parse (i : options.ParserId) (malloc : Nat → Bool) (now : Int)
  | write (i : options.ParserId)
  | requestCleanup (i : options.ParserId)
  | clientRead

/-- No allocation of a step fails. -/
def CollectorEvent.Allocates {options : UnyteUdpOptions} : CollectorEvent options → Prop
  | parse _ malloc _ => ∀ size, malloc size = true
  | receive _ | read _ | write _ | requestCleanup _ | clientRead => True

namespace Collector

variable {options : UnyteUdpOptions}

/-- A collector before the first datagram. -/
def init (options : UnyteUdpOptions) : Collector options where
  parsers := fun _ => {
    input := .init options.parsersQueueSize.toNat options.parsersQueueSize_pos
    state := .init
    phase := .waiting }
  output := .init options.outputQueueSize.toNat options.outputQueueSize_pos
  client := []

/-- Change one parser thread. -/
def setParser (c : Collector options) (i : options.ParserId) (thread : ParserThread) :
    Collector options :=
  { c with parsers := Function.update c.parsers i thread }

@[simp]
theorem setParser_self (c : Collector options) (i : options.ParserId) (thread : ParserThread) :
    (c.setParser i thread).parsers i = thread :=
  Function.update_self _ _ _

theorem setParser_of_ne (c : Collector options) {i j : options.ParserId} (thread : ParserThread)
    (h : j ≠ i) : (c.setParser i thread).parsers j = c.parsers j :=
  Function.update_of_ne h _ _

/-- What is read off the threads changes for the one that is changed. -/
theorem map_setParser {β : Type*} (c : Collector options) (i : options.ParserId)
    (thread : ParserThread) (f : ParserThread → β) :
    (fun j => f ((c.setParser i thread).parsers j)) =
      Function.update (fun j => f (c.parsers j)) i (f thread) := by
  funext j
  exact Function.apply_update (fun _ => f) c.parsers i thread j

/-- The listener discards a message of no bytes and a message for a full queue. -/
def receive (c : Collector options) (message : ReceivedMessage) : Collector options :=
  if message.datagram = [] then c
  else
    let seg := message.minimalParse
    let i := options.dispatch seg
    match (c.parsers i).input.write seg with
    | none => c
    | some input => c.setParser i { c.parsers i with input }

/-- A parser takes the next element off its queue, for which it waits. -/
def read (c : Collector options) (i : options.ParserId) : Option (Collector options) :=
  match (c.parsers i).phase, (c.parsers i).input.read with
  | .waiting, (some queueData, input) =>
      some (c.setParser i { c.parsers i with input, phase := .parsing queueData })
  | _, _ => none

/-- A parser handles its element; `malloc` allocates reassembled payloads, all
other allocations succeed. An iteration that hangs or is undefined has no next
state. -/
def parse (c : Collector options) (i : options.ParserId) (malloc : Nat → Bool) (now : Int) :
    Option (Collector options) :=
  match (c.parsers i).phase with
  | .parsing queueData =>
      match parserIteration options.legacy malloc now (c.parsers i).state queueData with
      | .continued state none =>
          some (c.setParser i { c.parsers i with state, phase := .waiting })
      | .continued state (some message) =>
          some (c.setParser i { c.parsers i with state, phase := .writing message })
      | .stopped => some (c.setParser i { c.parsers i with phase := .returned })
      | .diverges | .undefined => none
  | _ => none

/-- A parser writes its message to the output queue, or discards it if that
queue is full. -/
def write (c : Collector options) (i : options.ParserId) : Option (Collector options) :=
  match (c.parsers i).phase with
  | .writing message =>
      let c := c.setParser i { c.parsers i with phase := .waiting }
      match c.output.write message with
      | none => some c
      | some output => some { c with output }
  | _ => none

/-- The clean up thread of a parser sets its flag. -/
def requestCleanup (c : Collector options) (i : options.ParserId) : Collector options :=
  let state := (c.parsers i).state
  c.setParser i { c.parsers i with
    state := { state with segmentBuff := state.segmentBuff.requestCleanup } }

/-- The client reads a message, for which it waits. -/
def clientRead (c : Collector options) : Option (Collector options) :=
  match c.output.read with
  | (some message, output) => some { c with output, client := c.client ++ [message] }
  | (none, _) => none

/-- What a step does; `none` if its thread cannot take it. -/
def step (c : Collector options) : CollectorEvent options → Option (Collector options)
  | .receive message => some (c.receive message)
  | .read i => c.read i
  | .parse i malloc now => c.parse i malloc now
  | .write i => c.write i
  | .requestCleanup i => some (c.requestCleanup i)
  | .clientRead => c.clientRead

/-- The steps of a collector. -/
def Step (c : Collector options) (l : CollectorEvent options) (c' : Collector options) : Prop :=
  c.step l = some c'

/-- A step without incident: no queue is full, no allocation fails and no clean
up pass runs, which would take the flag back. -/
def Undisturbed (c : Collector options) (l : CollectorEvent options) (c' : Collector options) :
    Prop :=
  match l with
  | .receive message => message.datagram ≠ [] →
      (c.parsers (options.dispatch message.minimalParse)).input.write message.minimalParse ≠ none
  | .parse i malloc _ =>
      (∀ size, malloc size = true) ∧
        (c'.parsers i).state.segmentBuff.cleanup = (c.parsers i).state.segmentBuff.cleanup
  | .write i => ∀ message, (c.parsers i).phase = .writing message → c.output.write message ≠ none
  | .read _ | .requestCleanup _ | .clientRead => True

/-- What of it can be computed, all but that no allocation fails. -/
def calm (c : Collector options) (l : CollectorEvent options) (c' : Collector options) : Bool :=
  match l with
  | .receive message => message.datagram = [] ||
      ((c.parsers (options.dispatch message.minimalParse)).input.write
        message.minimalParse).isSome
  | .parse i _ _ =>
      (c'.parsers i).state.segmentBuff.cleanup = (c.parsers i).state.segmentBuff.cleanup
  | .write i =>
      match (c.parsers i).phase with
      | .writing message => (c.output.write message).isSome
      | .waiting | .parsing _ | .returned => true
  | .read _ | .requestCleanup _ | .clientRead => true

/-- A step that is calm. -/
def calmStep (c : Collector options) (l : CollectorEvent options) : Option (Collector options) :=
  (c.step l).filter (c.calm l)

theorem undisturbed_of_calm {c c' : Collector options} {l : CollectorEvent options}
    (h : c.calm l c' = true) (hmalloc : l.Allocates) : c.Undisturbed l c' := by
  cases l with
  | receive message =>
      rintro hbytes hnone
      simp only [calm, hbytes, hnone, decide_false, Option.isSome_none, Bool.or_self] at h
      cases h
  | parse i malloc now => exact ⟨hmalloc, of_decide_eq_true h⟩
  | write i =>
      rintro message hphase hnone
      simp only [calm, hphase, hnone] at h
      cases h
  | read | requestCleanup | clientRead => trivial

/-- The parser has nothing to do. -/
def AtRest (c : Collector options) (i : options.ParserId) : Prop :=
  (c.parsers i).phase = .waiting ∧ (c.parsers i).input.tail = (c.parsers i).input.head

instance (c : Collector options) (i : options.ParserId) : Decidable (c.AtRest i) :=
  inferInstanceAs (Decidable (_ ∧ _))

/-- A run of calm steps that all allocate is without incident. -/
theorem run_of_calm {ls : List (CollectorEvent options)} {c c' : Collector options}
    (hmallocs : ∀ l ∈ ls, l.Allocates) (hfold : ls.foldlM calmStep c = some c') :
    Runs.Run (Runs.Restrict Step Undisturbed) c ls c' :=
  (Runs.run_restrict_iff_foldlM.mpr hfold).imp_of_mem fun l hl _ _ hstep =>
    ⟨hstep.1, undisturbed_of_calm hstep.2 (hmallocs l hl)⟩

end Collector

/-- The bytes received by a sequence of steps. -/
def received {options : UnyteUdpOptions} (ls : List (CollectorEvent options)) :
    List (List Uint8) :=
  ls.filterMap fun l => match l with
    | .receive message => some message.datagram
    | _ => none

end UdpNotif
