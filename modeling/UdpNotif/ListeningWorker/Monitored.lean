import UdpNotif.ListeningWorker.Pipelines
import UdpNotif.MonitoringWorker.Conservation
import UdpNotif.Utils.QueueThreads

/-!
A collector with its monitoring thread. After each write to a queue the listener
and the parsers count what became of it, in a step of its own; the monitoring
thread moves the counts to a queue that drops its oldest summaries, from which the
client reads. What the client learns is compared with what was received and given.

No lock keeps an update call apart from the visit of an odid. Here each of them is
one step: an update between `get_summary` and `reinit_odid_counters` is left out.
-/

namespace UdpNotif

open Runs

variable {options : UnyteUdpOptions}

/-- The threads that count: the parsers and, last, the listener. -/
abbrev UnyteUdpOptions.WorkerId (options : UnyteUdpOptions) := Fin (options.nbParsers.toNat + 1)

/-- The counters of the listener are behind those of the parsers. -/
def UnyteUdpOptions.listener (options : UnyteUdpOptions) : options.WorkerId := Fin.last _

/-- `thread_type_t` of a worker. -/
def UnyteUdpOptions.threadType (options : UnyteUdpOptions) (t : options.WorkerId) : ThreadType :=
  if t = options.listener then .listenerWorker else .parserWorker

/-- The arguments of an update call, with the function that is called. -/
structure UpdateCall where
  kind : SegmentKind
  odid : Uint32
  mid : Uint32
deriving DecidableEq

/-- What a queue write is counted as. -/
def segmentKind {α : Type*} (written : Option (UnyteUdpQueue α)) : SegmentKind :=
  if written.isSome then .received else .dropped

/-- The thread that takes a step, if it is one that counts. -/
def CollectorEvent.worker? : CollectorEvent options → Option options.WorkerId
  | receive _ => some options.listener
  | read i | parse i _ _ | write i => some i.castSucc
  | requestCleanup _ | clientRead => none

namespace Collector

/-- The update call that a thread makes after a step. -/
def updateCall? (c : Collector options) :
    CollectorEvent options → Option (options.WorkerId × UpdateCall)
  | .receive message =>
      if message.datagram = [] then none
      else
        let seg := message.minimalParse
        let written := (c.parsers (options.dispatch seg)).input.write seg
        some (options.listener, ⟨segmentKind written, seg.observationDomainId, seg.messageId⟩)
  | .write i =>
      (c.parsers i).phase.unwritten.map fun message =>
        (i.castSucc, ⟨segmentKind (c.output.write message), message.header.observationDomainId,
          message.header.messageId⟩)
  | .read _ | .parse _ _ _ | .requestCleanup _ | .clientRead => none

/-- The element that a parser takes off its queue in a step. -/
def taken? (c : Collector options) : CollectorEvent options → Option UnyteMin
  | .read i => (c.parsers i).input.read.1
  | .receive _ | .parse _ _ _ | .write _ | .requestCleanup _ | .clientRead => none

/-- The message that a parser frees in a step, because the output queue is full. -/
def discarded? (c : Collector options) : CollectorEvent options → Option UnyteSegMet
  | .write i => (c.parsers i).phase.unwritten.filter fun message => (c.output.write message).isNone
  | .receive _ | .read _ | .parse _ _ _ | .requestCleanup _ | .clientRead => none

end Collector

/-- A collector, the update calls that its threads are about to make, the counters
and the monitoring thread, the queue of the summaries, each with its worker, and
what the client has read of it. `taken` are the elements that the parsers have read,
`discarded` the messages that they have freed, and `overwritten` is how often a
destructive write found the queue of the summaries full. -/
structure MonitoredCollector (options : UnyteUdpOptions) where
  collector : Collector options
  due : options.WorkerId → Option UpdateCall
  monitoring : Monitoring (options.nbParsers.toNat + 1)
  queue : UnyteUdpQueue (options.WorkerId × SumCounter)
  summaries : List (options.WorkerId × SumCounter)
  taken : List UnyteMin
  discarded : List UnyteSegMet
  overwritten : Nat

/-- The steps of the threads. -/
inductive MonitoredEvent (options : UnyteUdpOptions) where
  | collect (l : CollectorEvent options)
  | count (t : options.WorkerId) (call : UpdateCall) (mallocs : CounterMallocs)
  | monitor (mallocs : CounterMallocs) (malloc : Bool)
  | readSummary

namespace MonitoredEvent

/-- The step of the collector. -/
def collect? : MonitoredEvent options → Option (CollectorEvent options)
  | collect l => some l
  | count _ _ _ | monitor _ _ | readSummary => none

/-- The step of the monitoring. -/
def monitoring? : MonitoredEvent options → Option (MonitoringEvent (options.nbParsers.toNat + 1))
  | count t call mallocs => some (.update t call.kind mallocs call.odid call.mid)
  | monitor mallocs malloc => some (.monitor mallocs malloc)
  | collect _ | readSummary => none

end MonitoredEvent

namespace MonitoredCollector

/-- Before the first datagram. For a queue of the summaries of size 0, the default, the
monitoring thread is not started; one of size 1 has no room for a summary. -/
def init (options : UnyteUdpOptions) (threadId : options.WorkerId → Nat)
    (uninitialised : options.WorkerId → Nat → ActiveOdid) (monitoringQueueSize : Nat)
    (h : 2 ≤ monitoringQueueSize) : MonitoredCollector options where
  collector := .init options
  due := fun _ => none
  monitoring := .start threadId options.threadType uninitialised
  queue := .init monitoringQueueSize (Nat.zero_lt_of_lt h)
  summaries := []
  taken := []
  discarded := []
  overwritten := 0

/-- A step of the collector, by a thread that has no update call to make. -/
def collect (s : MonitoredCollector options) (l : CollectorEvent options) :
    Option (MonitoredCollector options) :=
  if (l.worker?.bind s.due).isSome then none
  else (s.collector.step l).map fun collector =>
    { s with
      collector
      due := (s.collector.updateCall? l).elim s.due fun (t, call) =>
        Function.update s.due t (some call)
      taken := s.taken ++ (s.collector.taken? l).toList
      discarded := s.discarded ++ (s.collector.discarded? l).toList }

/-- A thread makes its update call. -/
def count (s : MonitoredCollector options) (t : options.WorkerId) (call : UpdateCall)
    (mallocs : CounterMallocs) : Option (MonitoredCollector options) :=
  if s.due t = some call then
    (s.monitoring.update t call.kind mallocs call.odid call.mid).map fun monitoring =>
      { s with monitoring, due := Function.update s.due t none }
  else none

/-- The monitoring thread writes a summary. -/
def send (s : MonitoredCollector options) (summary : options.WorkerId × SumCounter) :
    MonitoredCollector options :=
  let (outcome, queue) := s.queue.destructiveWriteSection summary
  { s with queue, overwritten := s.overwritten + outcome.destroys }

/-- The monitoring thread takes its next step and writes the summary that it makes. -/
def monitor (s : MonitoredCollector options) (mallocs : CounterMallocs) (malloc : Bool) :
    Option (MonitoredCollector options) :=
  (s.monitoring.monitor mallocs malloc).map fun monitoring =>
    (monitoring.summaries.drop s.monitoring.summaries.length).foldl send { s with monitoring }

/-- The client reads a summary, for which it waits. -/
def readSummary (s : MonitoredCollector options) : Option (MonitoredCollector options) :=
  match s.queue.read with
  | (some summary, queue) => some { s with queue, summaries := s.summaries ++ [summary] }
  | (none, _) => none

/-- What a step does; `none` if its thread cannot take it. -/
def step (s : MonitoredCollector options) :
    MonitoredEvent options → Option (MonitoredCollector options)
  | .collect l => s.collect l
  | .count t call mallocs => s.count t call mallocs
  | .monitor mallocs malloc => s.monitor mallocs malloc
  | .readSummary => s.readSummary

/-- The steps of a collector with its monitoring. -/
def Step (s : MonitoredCollector options) (l : MonitoredEvent options)
    (s' : MonitoredCollector options) : Prop :=
  s.step l = some s'

end MonitoredCollector

/-- How often an update call counts a segment of a kind for an odid. -/
def UpdateCall.times (kind : SegmentKind) (odid : Uint32) (call : Option UpdateCall) : Nat :=
  call.elim 0 fun call => if call.kind = kind ∧ call.odid = odid then 1 else 0

namespace Collector

/-- How often the update call of a worker after a step counts a segment. -/
def counts (c : Collector options) (l : CollectorEvent options) (t : options.WorkerId)
    (kind : SegmentKind) (odid : Uint32) : Nat :=
  UpdateCall.times kind odid ((c.updateCall? l).bind fun h => if h.1 = t then some h.2 else none)

/-- What was received, and what has become of it, agrees with the numbers of update
calls `calls`, those that are due included. -/
structure CountedBy (c : Collector options) (arrived taken : List UnyteMin)
    (discarded : List UnyteSegMet)
    (calls : options.WorkerId → SegmentKind → Uint32 → Nat) : Prop where
  arrived : ∀ k, arrived.countP (·.domain = k) =
    calls options.listener .received k + calls options.listener .dropped k
  accepted : ∀ i, ∃ waiting, (c.parsers i).input.Holds waiting ∧
    (∀ seg ∈ waiting, options.parserOf seg.domain = i) ∧
    ∀ k, options.parserOf k = i → taken.countP (·.domain = k) + waiting.countP (·.domain = k) =
      calls options.listener .received k
  delivered : ∃ queued, c.output.Holds queued ∧
    ∀ k, (c.client ++ queued).countP (·.header.observationDomainId = k) =
      calls (options.parserOf k).castSucc .received k
  discarded : ∀ k, discarded.countP (·.header.observationDomainId = k) =
    calls (options.parserOf k).castSucc .dropped k

theorem init_countedBy (options : UnyteUdpOptions) :
    (init options).CountedBy [] [] [] (fun _ _ _ => 0) where
  arrived := fun _ => rfl
  accepted := fun _ => ⟨[], UnyteUdpQueue.init_holds _ _, fun _ h => (List.not_mem_nil h).elim,
    fun _ _ => rfl⟩
  delivered := ⟨[], UnyteUdpQueue.init_holds _ _, fun _ => rfl⟩
  discarded := fun _ => rfl

section Steps

variable {c c' : Collector options} {arrived taken : List UnyteMin} {discarded : List UnyteSegMet}
  {calls : options.WorkerId → SegmentKind → Uint32 → Nat}

/-- Counts of a step that leaves no update call. -/
theorem counts_of_none {l : CollectorEvent options} (h : c.updateCall? l = none) :
    (fun t kind k => calls t kind k + c.counts l t kind k) = calls := by
  funext t kind k
  rw [counts, h]
  rfl

theorem counts_of_some {l : CollectorEvent options} {t : options.WorkerId} {call : UpdateCall}
    (h : c.updateCall? l = some (t, call)) (t' : options.WorkerId) (kind : SegmentKind)
    (k : Uint32) : c.counts l t' kind k =
      if t = t' ∧ call.kind = kind ∧ call.odid = k then 1 else 0 := by
  rw [counts, h, Option.bind_some]
  by_cases ht : t = t' <;> simp [UpdateCall.times, ht]

theorem castSucc_ne_listener (i : options.ParserId) : i.castSucc ≠ options.listener :=
  Fin.castSucc_ne_last i

theorem setParser_input (c : Collector options) (i : options.ParserId) {thread : ParserThread}
    (hthread : thread.input = (c.parsers i).input) (j : options.ParserId) :
    ((c.setParser i thread).parsers j).input = (c.parsers j).input := by
  by_cases hj : j = i
  · subst hj
    rw [setParser_self, hthread]
  · rw [setParser_of_ne c _ hj]

/-- A step that leaves the queues and the client as they are. -/
theorem CountedBy.setParser (h : c.CountedBy arrived taken discarded calls) {i : options.ParserId}
    {thread : ParserThread} (hthread : thread.input = (c.parsers i).input) :
    (c.setParser i thread).CountedBy arrived taken discarded calls where
  arrived := h.arrived
  accepted := fun j => by
    rw [setParser_input c i hthread]
    exact h.accepted j
  delivered := h.delivered
  discarded := h.discarded

/-- A message of no bytes is not counted. -/
theorem receive_updateCall (c : Collector options) {message : ReceivedMessage}
    (hbytes : message.datagram ≠ []) :
    c.updateCall? (.receive message) = some (options.listener,
      ⟨segmentKind ((c.parsers (options.dispatch message.minimalParse)).input.write
        message.minimalParse), message.minimalParse.observationDomainId,
        message.minimalParse.messageId⟩) :=
  if_neg hbytes

/-- The parsers count nothing when a message is received. -/
theorem receive_parser_counts (c : Collector options) (message : ReceivedMessage)
    (i : options.ParserId) (kind : SegmentKind) (k : Uint32) :
    c.counts (.receive message) i.castSucc kind k = 0 := by
  by_cases hempty : message.datagram = []
  · rw [counts, updateCall?, if_pos hempty]
    rfl
  · rw [counts_of_some (c.receive_updateCall hempty), if_neg]
    exact fun heq => castSucc_ne_listener i heq.1.symm

/-- The listener counts what it received as received or as dropped. -/
theorem receive_counts (c : Collector options) (message : ReceivedMessage) (k : Uint32) :
    (CollectorEvent.receive message : CollectorEvent options).element?.toList.countP
        (·.domain = k) =
      c.counts (.receive message) options.listener .received k +
        c.counts (.receive message) options.listener .dropped k := by
  by_cases hempty : message.datagram = []
  · rw [counts, counts, updateCall?, if_pos hempty, CollectorEvent.element?, if_pos hempty]
    rfl
  · have hcounts := counts_of_some (c.receive_updateCall hempty)
    have hdomain : message.minimalParse.domain = message.minimalParse.observationDomainId := rfl
    rw [hcounts, hcounts, CollectorEvent.element?, if_neg hempty, Option.toList_some,
      List.countP_singleton, hdomain]
    cases (c.parsers (options.dispatch message.minimalParse)).input.write message.minimalParse <;>
      simp [segmentKind]

theorem receive_output (c : Collector options) (message : ReceivedMessage) :
    (c.receive message).output = c.output ∧ (c.receive message).client = c.client := by
  unfold Collector.receive
  split
  · exact ⟨rfl, rfl⟩
  · dsimp only
    split <;> exact ⟨rfl, rfl⟩

/-- What is counted as received waits in the queue of its parser. -/
theorem receive_waiting (c : Collector options) (message : ReceivedMessage)
    {i : options.ParserId} {waiting : List UnyteMin}
    (hholds : (c.parsers i).input.Holds waiting) :
    ∃ new, ((c.receive message).parsers i).input.Holds (waiting ++ new) ∧
      (∀ seg ∈ new, options.parserOf seg.domain = i) ∧
      ∀ k, options.parserOf k = i →
        new.countP (·.domain = k) = c.counts (.receive message) options.listener .received k := by
  by_cases hempty : message.datagram = []
  · have hsame : c.receive message = c := if_pos hempty
    refine ⟨[], ?_, fun _ h => (List.not_mem_nil h).elim, fun k _ => ?_⟩
    · rw [hsame, List.append_nil]
      exact hholds
    · rw [counts, updateCall?, if_pos hempty]
      rfl
  · have hcounts := counts_of_some (c.receive_updateCall hempty)
    have hdomain : message.minimalParse.domain = message.minimalParse.observationDomainId := rfl
    have hdispatch : options.dispatch message.minimalParse =
        options.parserOf message.minimalParse.domain := dispatch_of_domain hdomain.symm
    simp only [hcounts, Collector.receive, if_neg hempty]
    cases hwrite : (c.parsers (options.dispatch message.minimalParse)).input.write
        message.minimalParse with
    | none =>
        refine ⟨[], ?_, fun _ h => (List.not_mem_nil h).elim, fun k _ => by simp [segmentKind]⟩
        rw [List.append_nil]
        exact hholds
    | some input =>
        by_cases hi : i = options.dispatch message.minimalParse
        · subst hi
          refine ⟨[message.minimalParse], ?_, fun seg hseg => ?_, fun k _ => ?_⟩
          · rw [setParser_self]
            exact hholds.write hwrite
          · rw [List.mem_singleton.mp hseg, hdispatch]
          · simp [segmentKind, List.countP_singleton, hdomain]
        · refine ⟨[], ?_, fun _ h => (List.not_mem_nil h).elim, fun k hk => ?_⟩
          · rw [setParser_of_ne c _ hi, List.append_nil]
            exact hholds
          · rw [if_neg]
            · rfl
            · rintro ⟨_, _, rfl⟩
              exact hi (hk.symm.trans hdispatch.symm)

/-- The listener counts a datagram by whether the queue of its parser took it. -/
theorem CountedBy.receive (h : c.CountedBy arrived taken discarded calls)
    (message : ReceivedMessage) :
    (c.receive message).CountedBy
      (arrived ++ (CollectorEvent.receive message : CollectorEvent options).element?.toList) taken
      discarded (fun t kind k => calls t kind k + c.counts (.receive message) t kind k) := by
  obtain ⟨houtput, hclient⟩ := c.receive_output message
  refine ⟨fun k => ?_, fun i => ?_, ?_, fun k => ?_⟩
  · rw [List.countP_append, h.arrived, receive_counts c]
    omega
  · obtain ⟨waiting, hholds, hown, haccepted⟩ := h.accepted i
    obtain ⟨new, hnew, hnewown, hcounts⟩ := c.receive_waiting message hholds
    refine ⟨waiting ++ new, hnew, fun seg hseg => ?_, fun k hk => ?_⟩
    · exact (List.mem_append.mp hseg).elim (hown seg) (hnewown seg)
    · rw [List.countP_append, ← Nat.add_assoc, haccepted k hk, hcounts k hk]
  · simp only [houtput, hclient, receive_parser_counts, Nat.add_zero]
    exact h.delivered
  · rw [receive_parser_counts, Nat.add_zero]
    exact h.discarded k

/-- A parser takes an element off its queue, which was counted when it was received. -/
theorem CountedBy.read (h : c.CountedBy arrived taken discarded calls) {i : options.ParserId}
    (hread : c.read i = some c') :
    c'.CountedBy arrived (taken ++ (c.taken? (.read i)).toList) discarded calls := by
  obtain ⟨queueData, input, _, hinput, rfl⟩ := read_cases hread
  rw [Collector.taken?, hinput, Option.toList_some]
  obtain ⟨waiting, hholds, hown, haccepted⟩ := h.accepted i
  obtain ⟨rest, rfl, hrest⟩ := hholds.read_eq_some hinput
  refine ⟨h.arrived, fun j => ?_, h.delivered, h.discarded⟩
  have hqueueData := hown queueData List.mem_cons_self
  by_cases hj : j = i
  · subst hj
    refine ⟨rest, ?_, fun seg hseg => hown seg (List.mem_cons_of_mem _ hseg), fun k hk => ?_⟩
    · rw [setParser_self]
      exact hrest
    · rw [← haccepted k hk, List.countP_append, List.countP_singleton, List.countP_cons]
      omega
  · obtain ⟨waiting, hholds', hown', haccepted'⟩ := h.accepted j
    refine ⟨waiting, ?_, hown', fun k hk => ?_⟩
    · rw [setParser_of_ne c _ hj]
      exact hholds'
    · have hne : queueData.domain ≠ k := by
        rintro rfl
        exact hj (hk.symm.trans hqueueData)
      rw [← haccepted' k hk, List.countP_append, List.countP_singleton]
      simp [hne]

/-- A parser counts its message by whether the output queue took it, and frees it if not. -/
theorem CountedBy.write (h : c.CountedBy arrived taken discarded calls) {i : options.ParserId}
    (hown : ∀ message, (c.parsers i).phase = .writing message → options.origin message = i)
    (hwrite : c.write i = some c') :
    c'.CountedBy arrived taken (discarded ++ (c.discarded? (.write i)).toList)
      (fun t kind k => calls t kind k + c.counts (.write i) t kind k) := by
  obtain ⟨message, hphase, hcases⟩ := write_cases hwrite
  have hunwritten : (c.parsers i).phase.unwritten = some message := by rw [hphase]; rfl
  have horigin := hown message hphase
  have hcounts := counts_of_some (c := c) (l := .write i)
    (by rw [updateCall?, hunwritten, Option.map_some])
  have hlistener (kind : SegmentKind) (k : Uint32) :
      c.counts (.write i) options.listener kind k = 0 := by
    rw [hcounts, if_neg]
    exact fun heq => castSucc_ne_listener i heq.1
  -- the parser that wrote is the one of the message's observation domain
  have hparser (kind : SegmentKind) (k : Uint32) :
      c.counts (.write i) (options.parserOf k).castSucc kind k =
        if segmentKind (c.output.write message) = kind ∧ message.header.observationDomainId = k
        then 1 else 0 := by
    rw [hcounts]
    refine if_congr ⟨And.right, fun heq => ⟨?_, heq⟩⟩ rfl rfl
    rw [← horigin, UnyteUdpOptions.origin, heq.2]
  have hinput (j : options.ParserId) :
      ((c.setParser i { c.parsers i with phase := .waiting }).parsers j).input =
        (c.parsers j).input := by
    rw [c.setParser_input i]
    rfl
  obtain ⟨queued, hholds, hdelivered⟩ := h.delivered
  have harrived : ∀ k, arrived.countP (·.domain = k) =
      (calls options.listener .received k + c.counts (.write i) options.listener .received k) +
        (calls options.listener .dropped k + c.counts (.write i) options.listener .dropped k) := by
    intro k
    rw [hlistener, hlistener]
    exact h.arrived k
  have haccepted : ∀ j, ∃ waiting, (c.parsers j).input.Holds waiting ∧
      (∀ seg ∈ waiting, options.parserOf seg.domain = j) ∧ ∀ k, options.parserOf k = j →
        taken.countP (·.domain = k) + waiting.countP (·.domain = k) =
          calls options.listener .received k +
            c.counts (.write i) options.listener .received k := by
    intro j
    simp only [hlistener, Nat.add_zero]
    exact h.accepted j
  rw [discarded?, hunwritten, Option.filter_some]
  rcases hcases with ⟨hfull, rfl⟩ | ⟨output, hwritten, rfl⟩
  · simp only [hfull, segmentKind] at hparser ⊢
    refine ⟨harrived, fun j => ?_, ⟨queued, hholds, fun k => ?_⟩, fun k => ?_⟩
    · rw [hinput]
      exact haccepted j
    · rw [hparser, if_neg (fun heq => SegmentKind.noConfusion heq.1)]
      exact hdelivered k
    · rw [hparser, ← h.discarded, List.countP_append]
      simp [List.countP_singleton]
  · simp only [hwritten, segmentKind] at hparser ⊢
    refine ⟨harrived, fun j => ?_, ⟨queued ++ [message], hholds.write hwritten, fun k => ?_⟩,
      fun k => ?_⟩
    · rw [hinput]
      exact haccepted j
    · change (c.client ++ (queued ++ [message])).countP _ = _
      rw [hparser, ← hdelivered, ← List.append_assoc, List.countP_append, List.countP_singleton]
      simp
    · rw [hparser, ← h.discarded]
      simp

/-- The client takes a message off the output queue. -/
theorem CountedBy.clientRead (h : c.CountedBy arrived taken discarded calls)
    (hread : c.clientRead = some c') : c'.CountedBy arrived taken discarded calls := by
  obtain ⟨message, output, hinput, rfl⟩ := clientRead_cases hread
  obtain ⟨queued, hholds, hdelivered⟩ := h.delivered
  obtain ⟨rest, rfl, hrest⟩ := hholds.read_eq_some hinput
  refine ⟨h.arrived, h.accepted, ⟨rest, hrest, fun k => ?_⟩, h.discarded⟩
  rw [List.append_assoc, List.singleton_append]
  exact hdelivered k

/-- Every step of the collector is counted by the update call that it leaves. -/
theorem CountedBy.step (h : c.CountedBy arrived taken discarded calls) {l : CollectorEvent options}
    (hown : ∀ i message, (c.parsers i).phase = .writing message → options.origin message = i)
    (hstep : c.Step l c') :
    c'.CountedBy (arrived ++ l.element?.toList) (taken ++ (c.taken? l).toList)
      (discarded ++ (c.discarded? l).toList)
      (fun t kind k => calls t kind k + c.counts l t kind k) := by
  cases l with
  | receive message =>
      obtain rfl := Option.some.inj hstep
      simpa only [taken?, discarded?, Option.toList_none, List.append_nil] using h.receive message
  | read i =>
      rw [counts_of_none rfl]
      simpa only [CollectorEvent.element?, discarded?, Option.toList_none, List.append_nil]
        using h.read hstep
  | parse i malloc now =>
      rw [counts_of_none rfl]
      simp only [CollectorEvent.element?, taken?, discarded?, Option.toList_none, List.append_nil]
      obtain ⟨_, _, ⟨_, _, _, _, _, _, _, rfl⟩ | ⟨_, rfl⟩⟩ := parse_cases hstep
      · exact h.setParser rfl
      · exact h.setParser rfl
  | write i =>
      simpa only [CollectorEvent.element?, taken?, Option.toList_none, List.append_nil]
        using h.write (hown i) hstep
  | requestCleanup i =>
      obtain rfl := Option.some.inj hstep
      rw [counts_of_none rfl]
      simp only [CollectorEvent.element?, taken?, discarded?, Option.toList_none, List.append_nil]
      exact h.setParser rfl
  | clientRead =>
      rw [counts_of_none rfl]
      simpa only [CollectorEvent.element?, taken?, discarded?, Option.toList_none,
        List.append_nil] using h.clientRead hstep

end Steps

/-- Only a worker leaves an update call, and it is its own. -/
theorem worker_of_updateCall {c : Collector options} {l : CollectorEvent options}
    {t : options.WorkerId} {call : UpdateCall} (h : c.updateCall? l = some (t, call)) :
    l.worker? = some t := by
  cases l with
  | receive message =>
      simp only [updateCall?] at h
      split at h
      · cases h
      · exact congrArg some (Prod.mk.inj (Option.some.inj h)).1
  | write i =>
      obtain ⟨_, _, heq⟩ := Option.map_eq_some_iff.mp h
      exact congrArg some (Prod.mk.inj heq).1
  | read | parse | requestCleanup | clientRead => cases h

end Collector

namespace MonitoredCollector

variable {s s' : MonitoredCollector options} {ls : List (MonitoredEvent options)}

theorem collect_cases {l : CollectorEvent options} (h : s.collect l = some s') :
    (∀ t, l.worker? = some t → s.due t = none) ∧ ∃ collector, s.collector.Step l collector ∧
      s' = { s with
        collector
        due := (s.collector.updateCall? l).elim s.due fun (t, call) =>
          Function.update s.due t (some call)
        taken := s.taken ++ (s.collector.taken? l).toList
        discarded := s.discarded ++ (s.collector.discarded? l).toList } := by
  unfold collect at h
  split at h
  · cases h
  · rename_i hfree
    obtain ⟨collector, hstep, heq⟩ := Option.map_eq_some_iff.mp h
    refine ⟨fun t ht => ?_, collector, hstep, heq.symm⟩
    rw [ht, Option.bind_some] at hfree
    exact Option.not_isSome_iff_eq_none.mp hfree

theorem count_cases {t : options.WorkerId} {call : UpdateCall} {mallocs : CounterMallocs}
    (h : s.count t call mallocs = some s') :
    s.due t = some call ∧ ∃ monitoring,
      s.monitoring.update t call.kind mallocs call.odid call.mid = some monitoring ∧
      s' = { s with monitoring, due := Function.update s.due t none } := by
  unfold count at h
  split at h
  · rename_i hdue
    obtain ⟨monitoring, hupdate, heq⟩ := Option.map_eq_some_iff.mp h
    exact ⟨hdue, monitoring, hupdate, heq.symm⟩
  · cases h

theorem readSummary_cases (h : s.readSummary = some s') :
    ∃ summary queue, s.queue.read = (some summary, queue) ∧
      s' = { s with queue, summaries := s.summaries ++ [summary] } := by
  unfold readSummary at h
  split at h
  · rename_i summary queue hread
    exact ⟨summary, queue, hread, (Option.some.inj h).symm⟩
  · cases h

/-- The queue holds the youngest of the summaries `made` that the client has not read;
the others were overwritten. -/
def Holds (s : MonitoredCollector options) (made : List (options.WorkerId × SumCounter)) : Prop :=
  ∃ lost queued, s.queue.Holds queued ∧ lost.length = s.overwritten ∧
    Lossy.Accounts made lost s.summaries queued

theorem foldl_send (summaries : List (options.WorkerId × SumCounter))
    (s : MonitoredCollector options) :
    ∃ queue overwritten, summaries.foldl send s = { s with queue, overwritten } := by
  induction summaries generalizing s with
  | nil => exact ⟨s.queue, s.overwritten, rfl⟩
  | cons summary summaries ih => exact ih (s.send summary)

/-- Summaries are written one after the other. -/
theorem Holds.send {made : List (options.WorkerId × SumCounter)} (h : s.Holds made)
    (summaries : List (options.WorkerId × SumCounter)) :
    (summaries.foldl MonitoredCollector.send s).Holds (made ++ summaries) := by
  induction summaries generalizing s made with
  | nil => rwa [List.append_nil]
  | cons summary summaries ih =>
      obtain ⟨lost, queued, hholds, hlost, haccounts⟩ := h
      obtain ⟨dropped, kept, heq, hkept, hdropped⟩ := hholds.exists_dropped summary
      have hsend : (s.send summary).Holds (made ++ [summary]) := by
        refine ⟨lost ++ dropped, kept, hkept, ?_, haccounts.push heq⟩
        rw [List.length_append, hlost, hdropped]
        rfl
      have hafter := ih hsend
      rwa [List.append_assoc, List.singleton_append] at hafter

/-- A step of the monitoring thread writes what it adds to the summaries, and changes
nothing else. -/
theorem monitor_cases {mallocs : CounterMallocs} {malloc : Bool}
    (h : s.monitor mallocs malloc = some s') :
    ∃ monitoring queue overwritten, s.monitoring.monitor mallocs malloc = some monitoring ∧
      s' = { s with monitoring, queue, overwritten } ∧
      (s.Holds s.monitoring.summaries → s'.Holds monitoring.summaries) := by
  obtain ⟨monitoring, hmonitor, rfl⟩ := Option.map_eq_some_iff.mp h
  obtain ⟨handed, hhanded⟩ := Monitoring.monitor_summaries hmonitor
  rw [hhanded, List.drop_left]
  obtain ⟨queue, overwritten, hfold⟩ := foldl_send handed { s with monitoring }
  refine ⟨monitoring, queue, overwritten, hmonitor, hfold, fun hholds => ?_⟩
  have hstart : Holds { s with monitoring } s.monitoring.summaries := hholds
  rw [hhanded]
  exact hstart.send handed

/-- The update calls of a worker for an odid, those that it has made and the one that
is due. -/
def calls (ls : List (MonitoredEvent options)) (due : options.WorkerId → Option UpdateCall)
    (t : options.WorkerId) (kind : SegmentKind) (odid : Uint32) : Nat :=
  updateCalls (ls.filterMap MonitoredEvent.monitoring?) t kind odid +
    UpdateCall.times kind odid (due t)

section Calls

variable {due : options.WorkerId → Option UpdateCall} {t : options.WorkerId} {call : UpdateCall}

/-- A step of the monitoring thread or of a client makes no update call. -/
theorem calls_concat_of_silent {l : MonitoredEvent options}
    (h : ∀ event ∈ l.monitoring?, ∀ t kind k, event.isCall t kind k = false) :
    calls (ls ++ [l]) due = calls ls due := by
  funext t kind k
  rw [calls, calls, updateCalls, updateCalls, List.filterMap_append, List.countP_append]
  cases hl : l.monitoring? with
  | none => rw [List.filterMap_cons_none hl, List.filterMap_nil, List.countP_nil, Nat.add_zero]
  | some event =>
      rw [List.filterMap_cons_some hl, List.filterMap_nil, List.countP_singleton, h event hl]
      rfl

/-- A call that is made is no longer due. -/
theorem calls_concat_count (hdue : due t = some call) (mallocs : CounterMallocs) :
    calls (ls ++ [.count t call mallocs]) (Function.update due t none) = calls ls due := by
  funext t' kind k
  have hmonitoring : (MonitoredEvent.count t call mallocs).monitoring? =
      some (.update t call.kind mallocs call.odid call.mid) := rfl
  rw [calls, calls, updateCalls, updateCalls, List.filterMap_append,
    List.filterMap_cons_some hmonitoring, List.filterMap_nil, List.countP_append,
    List.countP_singleton]
  by_cases ht : t = t'
  · subst ht
    simp [hdue, UpdateCall.times, MonitoringEvent.isCall]
  · simp [MonitoringEvent.isCall, ht, Function.update_of_ne (Ne.symm ht)]

/-- A step of a worker without a due call leaves the call that counts it. -/
theorem calls_concat_collect {c : Collector options} {l : CollectorEvent options}
    (hfree : ∀ t, l.worker? = some t → due t = none) :
    calls (ls ++ [.collect l])
        ((c.updateCall? l).elim due fun (t, call) => Function.update due t (some call)) =
      fun t kind k => calls ls due t kind k + c.counts l t kind k := by
  rw [calls_concat_of_silent (by rintro _ ⟨⟩)]
  funext t kind k
  rw [calls, calls, Collector.counts]
  cases hcall : c.updateCall? l with
  | none => rfl
  | some h =>
      obtain ⟨worker, call⟩ := h
      have hdue := hfree worker (Collector.worker_of_updateCall hcall)
      by_cases ht : worker = t
      · subst ht
        simp [hdue, UpdateCall.times]
      · simp [ht, Function.update_of_ne (Ne.symm ht), UpdateCall.times]

end Calls

/-- The calls agree with what went through the collector, and the summaries are read,
queued or overwritten. -/
structure Tallied (s : MonitoredCollector options) (ls : List (MonitoredEvent options)) :
    Prop where
  counted : s.collector.CountedBy
    ((ls.filterMap MonitoredEvent.collect?).filterMap CollectorEvent.element?) s.taken s.discarded
    (calls ls s.due)
  holds : s.Holds s.monitoring.summaries

theorem init_tallied (threadId : options.WorkerId → Nat)
    (uninitialised : options.WorkerId → Nat → ActiveOdid) (monitoringQueueSize : Nat)
    (h : 2 ≤ monitoringQueueSize) :
    (init options threadId uninitialised monitoringQueueSize h).Tallied [] where
  counted := Collector.init_countedBy options
  holds := ⟨[], [], UnyteUdpQueue.init_holds _ _, rfl, Lossy.accounts_nil⟩

theorem Tallied.collect (h : s.Tallied ls) {l : CollectorEvent options}
    (hown : ∀ i message, (s.collector.parsers i).phase = .writing message →
      options.origin message = i)
    (hcollect : s.collect l = some s') : s'.Tallied (ls ++ [.collect l]) := by
  obtain ⟨hfree, collector, hstep, rfl⟩ := collect_cases hcollect
  refine ⟨?_, h.holds⟩
  have hcounted := h.counted.step hown hstep
  rw [← calls_concat_collect hfree] at hcounted
  rw [List.filterMap_append, List.filterMap_append]
  exact hcounted

theorem Tallied.count (h : s.Tallied ls) {t : options.WorkerId} {call : UpdateCall}
    {mallocs : CounterMallocs} (hcount : s.count t call mallocs = some s') :
    s'.Tallied (ls ++ [.count t call mallocs]) := by
  obtain ⟨hdue, monitoring, hupdate, rfl⟩ := count_cases hcount
  have hcounted := h.counted
  rw [← calls_concat_count hdue mallocs] at hcounted
  refine ⟨?_, ?_⟩
  · rw [List.filterMap_append, List.filterMap_cons_none rfl, List.filterMap_nil, List.append_nil]
    exact hcounted
  · obtain ⟨_, _, rfl⟩ := Option.map_eq_some_iff.mp hupdate
    exact h.holds

theorem Tallied.monitor (h : s.Tallied ls) {mallocs : CounterMallocs} {malloc : Bool}
    (hmonitor : s.monitor mallocs malloc = some s') :
    s'.Tallied (ls ++ [.monitor mallocs malloc]) := by
  obtain ⟨monitoring, queue, overwritten, _, rfl, hholds⟩ := monitor_cases hmonitor
  refine ⟨?_, hholds h.holds⟩
  rw [List.filterMap_append, List.filterMap_cons_none rfl, List.filterMap_nil, List.append_nil,
    calls_concat_of_silent]
  · exact h.counted
  · intro event hevent t kind k
    obtain rfl := Option.some.inj hevent
    rfl

theorem Tallied.readSummary (h : s.Tallied ls) (hread : s.readSummary = some s') :
    s'.Tallied (ls ++ [.readSummary]) := by
  obtain ⟨summary, queue, hqueue, rfl⟩ := readSummary_cases hread
  obtain ⟨lost, queued, hholds, hlost, haccounts⟩ := h.holds
  obtain ⟨rest, rfl, hrest⟩ := hholds.read_eq_some hqueue
  refine ⟨?_, lost, rest, hrest, hlost, haccounts.take⟩
  rw [List.filterMap_append, List.filterMap_cons_none rfl, List.filterMap_nil, List.append_nil,
    calls_concat_of_silent (by rintro _ ⟨⟩)]
  exact h.counted

section Run

variable {threadId : options.WorkerId → Nat} {uninitialised : options.WorkerId → Nat → ActiveOdid}
  {monitoringQueueSize : Nat} {hsize : 2 ≤ monitoringQueueSize}
  (hrun : Run Step (init options threadId uninitialised monitoringQueueSize hsize) ls s)
include hrun

/-- The collector runs as it does without monitoring. -/
theorem collector_run : Run Collector.Step (.init options)
    (ls.filterMap MonitoredEvent.collect?) s.collector := by
  refine hrun.project (f := collector) (fun s l s' k hstep hl => ?_) (fun s l s' hstep hl => ?_)
  · cases l with
    | collect l =>
        obtain rfl := Option.some.inj hl
        obtain ⟨_, c, hcollector, rfl⟩ := collect_cases hstep
        exact hcollector
    | count | monitor | readSummary => cases hl
  · cases l with
    | collect => cases hl
    | count =>
        obtain ⟨_, _, _, rfl⟩ := count_cases hstep
        rfl
    | monitor =>
        obtain ⟨_, _, _, _, rfl, _⟩ := monitor_cases hstep
        rfl
    | readSummary =>
        obtain ⟨_, _, _, rfl⟩ := readSummary_cases hstep
        rfl

/-- The monitoring runs as it does without the collector. -/
theorem monitoring_run : Run Monitoring.Step
    (.start threadId options.threadType uninitialised)
    (ls.filterMap MonitoredEvent.monitoring?) s.monitoring := by
  refine hrun.project (f := monitoring) (fun s l s' k hstep hl => ?_) (fun s l s' hstep hl => ?_)
  · cases l with
    | count t call mallocs =>
        obtain rfl := Option.some.inj hl
        obtain ⟨_, _, hupdate, rfl⟩ := count_cases hstep
        exact hupdate
    | monitor mallocs malloc =>
        obtain rfl := Option.some.inj hl
        obtain ⟨_, _, _, hmonitor, rfl, _⟩ := monitor_cases hstep
        exact hmonitor
    | collect | readSummary => cases hl
  · cases l with
    | collect =>
        obtain ⟨_, _, _, rfl⟩ := collect_cases hstep
        rfl
    | readSummary =>
        obtain ⟨_, _, _, rfl⟩ := readSummary_cases hstep
        rfl
    | count | monitor => cases hl

theorem tallied_of_run : s.Tallied ls := by
  refine hrun.invariant (I := fun ls s => s.Tallied ls)
    (init_tallied threadId uninitialised monitoringQueueSize hsize) ?_
  intro ls s l s' hrun h hstep
  cases l with
  | collect l =>
      obtain ⟨_, _, _, hpipelined⟩ := Collector.refinesParsers_of_run (collector_run hrun)
      exact h.collect hpipelined.own hstep
  | count t call mallocs => exact h.count hstep
  | monitor mallocs malloc => exact h.monitor hstep
  | readSummary => exact h.readSummary hstep

end Run

/-- The segments of a worker that summaries report for an odid. -/
def reportedIn (summaries : List (options.WorkerId × SumCounter)) (t : options.WorkerId)
    (kind : SegmentKind) (odid : Uint32) : Uint32 :=
  (summaries.map (fun h => if h.1 = t then h.2.reported kind odid else 0)).sum

/-- The segments of a worker for an odid that are in the summaries, in its counter and
in the call that is due. -/
def tally (s : MonitoredCollector options) (summaries : List (options.WorkerId × SumCounter))
    (t : options.WorkerId) (kind : SegmentKind) (odid : Uint32) : Uint32 :=
  reportedIn summaries t kind odid + (s.monitoring.counters t).held kind odid +
    .ofNat 32 (UpdateCall.times kind odid (s.due t))

/-- A tally is the number `n` modulo `2 ^ 32`, but for update calls whose counter could
not be allocated. -/
def Tallies (s : MonitoredCollector options) (ls : List (MonitoredEvent options))
    (summaries : List (options.WorkerId × SumCounter)) (t : options.WorkerId)
    (kind : SegmentKind) (odid : Uint32) (n : Nat) : Prop :=
  ∃ counted, counted ≤ n ∧
    n ≤ counted + Monitoring.failedCalls (ls.filterMap MonitoredEvent.monitoring?) t kind odid ∧
    .ofNat 32 counted = s.tally summaries t kind odid

section Run

variable {threadId : options.WorkerId → Nat} {uninitialised : options.WorkerId → Nat → ActiveOdid}
  {monitoringQueueSize : Nat} {hsize : 2 ≤ monitoringQueueSize}
  (hrun : Run Step (init options threadId uninitialised monitoringQueueSize hsize) ls s)
include hrun

/-- The update calls of a worker are tallied. -/
theorem tallies_calls {summaries : List (options.WorkerId × SumCounter)}
    (hperm : s.monitoring.summaries.Perm summaries) (t : options.WorkerId) (kind : SegmentKind)
    (k : Uint32) : s.Tallies ls summaries t kind k (calls ls s.due t kind k) := by
  have hmonitoring := monitoring_run hrun
  obtain ⟨hle, hge⟩ := Monitoring.countedCalls_bounds hmonitoring t kind k
  have hcounts := (Monitoring.run_conserved hmonitoring).counts t kind k
  have hreported : s.monitoring.reported t kind k = reportedIn summaries t kind k :=
    (hperm.map _).sum_eq
  refine ⟨s.monitoring.countedCalls t kind k + UpdateCall.times kind k (s.due t), ?_, ?_, ?_⟩
  · exact Nat.add_le_add_right hle _
  · rw [calls]
    omega
  · rw [BitVec.ofNat_add, hcounts, hreported, tally]

/-- The counters account for the traffic, in every run whose updates and visits are single
steps: for each observation domain
the datagrams that arrived are those that the listener reports as received, which its
parser has taken off its queue or will, and those that it reports as dropped; and the
parser reports the messages that were given to the client, or will be, as received and
the messages that it discarded as dropped. A summary that was made is one that the
client has read, one that waits for it, or one that was overwritten. -/
theorem counters_account_for_traffic :
    ∃ lost queued messages, s.queue.Holds queued ∧ lost.length = s.overwritten ∧
      Lossy.Accounts s.monitoring.summaries lost s.summaries queued ∧
      s.collector.output.Holds messages ∧
      ∀ k, ∃ accepted dropped waiting,
        ((ls.filterMap MonitoredEvent.collect?).filterMap CollectorEvent.element?).countP
          (·.domain = k) = accepted + dropped ∧
        (s.collector.parsers (options.parserOf k)).input.Holds waiting ∧
        s.taken.countP (·.domain = k) + waiting.countP (·.domain = k) = accepted ∧
        s.Tallies ls (lost ++ (s.summaries ++ queued)) options.listener .received k accepted ∧
        s.Tallies ls (lost ++ (s.summaries ++ queued)) options.listener .dropped k dropped ∧
        s.Tallies ls (lost ++ (s.summaries ++ queued)) (options.parserOf k).castSucc .received k
          ((s.collector.client ++ messages).countP (·.header.observationDomainId = k)) ∧
        s.Tallies ls (lost ++ (s.summaries ++ queued)) (options.parserOf k).castSucc .dropped k
          (s.discarded.countP (·.header.observationDomainId = k)) := by
  obtain ⟨hcounted, lost, queued, hholds, hlost, haccounts⟩ := tallied_of_run hrun
  obtain ⟨messages, hmessages, hdelivered⟩ := hcounted.delivered
  refine ⟨lost, queued, messages, hholds, hlost, haccounts, hmessages, fun k => ?_⟩
  obtain ⟨waiting, hwaiting, _, haccepted⟩ := hcounted.accepted (options.parserOf k)
  have htallies := tallies_calls hrun haccounts.perm
  refine ⟨calls ls s.due options.listener .received k, calls ls s.due options.listener .dropped k,
    waiting, hcounted.arrived k, hwaiting, haccepted k rfl, htallies _ _ _, htallies _ _ _, ?_, ?_⟩
  · rw [hdelivered]
    exact htallies _ _ _
  · rw [hcounted.discarded]
    exact htallies _ _ _

end Run

/-- A step of the monitoring thread whose allocations succeed. -/
def monitorNow : MonitoredEvent smallOptions := .monitor ⟨true, true⟩ true

/-- What a thread counts, where its counter can be allocated. -/
def countNow (t : smallOptions.WorkerId) (kind : SegmentKind) (mid : Uint32) :
    MonitoredEvent smallOptions :=
  .count t ⟨kind, 8, mid⟩ ⟨true, true⟩

/-- Of four packets of a domain one finds the queue of its parser full. A pass over all
workers writes two summaries to a queue that holds one, which the client reads; a message
that is written later is still to be counted. -/
def countedEvents : List (MonitoredEvent smallOptions) :=
  [.collect (.receive (wholePacket 1).zeroed), countNow smallOptions.listener .received 1,
    .collect (.receive (wholePacket 2).zeroed), countNow smallOptions.listener .received 2,
    .collect (.receive (wholePacket 3).zeroed), countNow smallOptions.listener .received 3,
    .collect (.receive (wholePacket 4).zeroed), .collect (.read (smallParser 0)),
    countNow smallOptions.listener .dropped 4, .collect (parseNow 0),
    .collect (.write (smallParser 0)), countNow (smallParser 0).castSucc .received 1,
    monitorNow, monitorNow, monitorNow, monitorNow, monitorNow, monitorNow, .readSummary,
    .collect (.read (smallParser 0)), .collect (parseNow 0), .collect (.write (smallParser 0))]

/-- The four packets are in the tallies of the listener, the two messages in those of the
parser, of which one summary was overwritten. -/
theorem counted_traffic_accounted : ∃ s : MonitoredCollector smallOptions,
    Run Step (init smallOptions (fun _ => 0) (fun _ _ => ⟨0, 0⟩) 2 (by decide)) countedEvents s ∧
      s.summaries.map (fun h => (h.2.segmentsReceived, h.2.segmentsDropped)) = [(3, 1)] ∧
      ∃ lost queued messages accepted dropped, s.queue.Holds queued ∧ lost.length = 1 ∧
        s.collector.output.Holds messages ∧ accepted + dropped = 4 ∧
        s.Tallies countedEvents (lost ++ (s.summaries ++ queued)) smallOptions.listener .received 8
          accepted ∧
        s.Tallies countedEvents (lost ++ (s.summaries ++ queued)) smallOptions.listener .dropped 8
          dropped ∧
        s.Tallies countedEvents (lost ++ (s.summaries ++ queued)) (smallParser 0).castSucc
          .received 8
          ((s.collector.client ++ messages).countP (·.header.observationDomainId = 8)) := by
  have hafter : (countedEvents.foldlM step
      (init smallOptions (fun _ => 0) (fun _ _ => ⟨0, 0⟩) 2 (by decide))).map (fun s =>
        (s.summaries.map (fun h => (h.2.segmentsReceived, h.2.segmentsDropped)),
          s.overwritten)) = some ([(3, 1)], 1) := by decide +kernel
  obtain ⟨s, hfold, hend⟩ := Option.map_eq_some_iff.mp hafter
  obtain ⟨hsummaries, hoverwritten⟩ := Prod.mk.inj hend
  have hrun := run_iff_foldlM.mpr hfold
  obtain ⟨lost, queued, messages, hholds, hlost, _, hmessages, htraffic⟩ :=
    counters_account_for_traffic hrun
  obtain ⟨accepted, dropped, _, harrived, _, _, haccepted, hdropped, hgiven, _⟩ := htraffic 8
  exact ⟨s, hrun, hsummaries, lost, queued, messages, accepted, dropped, hholds,
    hlost.trans hoverwritten, hmessages, harrived.symm, haccepted, hdropped, hgiven⟩

end MonitoredCollector

end UdpNotif
