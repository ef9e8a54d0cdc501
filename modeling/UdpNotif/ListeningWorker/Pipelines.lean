import UdpNotif.Lib.LossyChannels
import UdpNotif.ListeningWorker.ExactlyOnce
import UdpNotif.ParsingWorker.Legacy
import UdpNotif.ParsingWorker.LoneParser

/-!
A collector is a set of parsers on their own between channels that may lose, but
neither reorder nor repeat. This holds of all runs: queues may be full, clean up
passes may run, parsers may return, and the allocation of a reassembled payload
may fail. All other allocations succeed.
-/

namespace UdpNotif

open Runs

variable {options : UnyteUdpOptions}

/-- The parser that handles an observation domain. -/
def UnyteUdpOptions.parserOf (options : UnyteUdpOptions) (domain : Uint32) : options.ParserId :=
  ⟨domain.toNat % options.nbParsers.toNat, Nat.mod_lt _ options.nbParsers_pos⟩

/-- The parser that a message comes from. -/
def UnyteUdpOptions.origin (options : UnyteUdpOptions) (message : UnyteSegMet) :
    options.ParserId :=
  options.parserOf message.header.observationDomainId

/-- The element that the listener makes of a step. -/
def CollectorEvent.element? : CollectorEvent options → Option UnyteMin
  | receive message => if message.datagram = [] then none else some message.minimalParse
  | read _ | parse _ _ _ | write _ | requestCleanup _ | clientRead => none

/-- The elements that the listener offers to a parser, in the order of their arrival. -/
def offered (ls : List (CollectorEvent options)) (i : options.ParserId) : List UnyteMin :=
  (ls.filterMap CollectorEvent.element?).filter (options.dispatch · = i)

/-- The environment of a parser in a step: the allocator and the clock of an
iteration, or a request to clean up. -/
def CollectorEvent.environment? (i : options.ParserId) :
    CollectorEvent options → Option (Option ((Nat → Bool) × Int))
  | parse j malloc now => if j = i then some (some (malloc, now)) else none
  | requestCleanup j => if j = i then some none else none
  | receive _ | read _ | write _ | clientRead => none

/-- The environments that a run gives to a parser, in their order. -/
def environments (ls : List (CollectorEvent options)) (i : options.ParserId) :
    List (Option ((Nat → Bool) × Int)) :=
  ls.filterMap (CollectorEvent.environment? i)

/-- A thread has handled some of the elements offered to it as the parser `lone`
would on its own, and holds others that are still to be handled. -/
structure ParserThread.Refines (thread : ParserThread) (legacyProto : Bool)
    (offers : List UnyteMin) (schedule : List (Option ((Nat → Bool) × Int)))
    (events : List ParserEvent) (lone : LoneParser) : Prop where
  run : Run (LoneParser.Step legacyProto) .init events lone
  state : lone.state = thread.state
  returned : lone.returned = true ↔ thread.phase = .returned
  schedule : events.map ParserEvent.environment = schedule
  input : ∃ elements, thread.input.Holds elements ∧
    Lossy.Carries offers (packets events) (thread.phase.handled ++ elements)

/-- The threads refine the parsers `lone`, whose messages reach the client
through the output queue, which holds `queued`. -/
structure Collector.Pipelined (c : Collector options) (ls : List (CollectorEvent options))
    (events : options.ParserId → List ParserEvent) (lone : options.ParserId → LoneParser)
    (queued : List UnyteSegMet) : Prop where
  threads : ∀ i, (c.parsers i).Refines options.legacy (offered ls i) (environments ls i)
    (events i) (lone i)
  output : c.output.Holds queued
  merges : Lossy.Merges options.origin (fun i => (lone i).handed)
    (fun i => (c.parsers i).phase.unwritten.toList) (c.client ++ queued)
  own : ∀ i message, (c.parsers i).phase = .writing message → options.origin message = i

theorem dispatch_of_domain {seg : UnyteMin} (h : seg.observationDomainId = seg.domain) :
    options.dispatch seg = options.parserOf seg.domain := by
  rw [← h]
  exact Fin.ext (parserIndex_toNat _ _)

/-- The listener reads the observation domain that is in the datagram. -/
theorem CollectorEvent.element_domain {l : CollectorEvent options} {seg : UnyteMin}
    (h : l.element? = some seg) : seg.observationDomainId = seg.domain := by
  cases l with
  | receive message =>
      simp only [element?] at h
      split at h
      · cases h
      · rw [← Option.some.inj h]
        rfl
  | read | parse | write | requestCleanup | clientRead => cases h

theorem dispatch_of_element {ls : List (CollectorEvent options)} {seg : UnyteMin}
    (h : seg ∈ ls.filterMap CollectorEvent.element?) :
    options.dispatch seg = options.parserOf seg.domain := by
  obtain ⟨l, _, hl⟩ := List.mem_filterMap.mp h
  exact dispatch_of_domain (CollectorEvent.element_domain hl)

/-- A message goes back to the parser that its datagram was dispatched to. -/
theorem origin_of_domain {ls : List (CollectorEvent options)} {i : options.ParserId}
    {seg : UnyteMin} (h : seg ∈ offered ls i) {message : UnyteSegMet}
    (hmessage : message.header.observationDomainId = seg.domain) : options.origin message = i := by
  obtain ⟨hmem, hdispatch⟩ := List.mem_filter.mp h
  rw [UnyteUdpOptions.origin, hmessage, ← dispatch_of_element hmem]
  simpa using hdispatch

section Offered

variable (ls : List (CollectorEvent options)) (i : options.ParserId)

theorem offered_concat (l : CollectorEvent options) :
    offered (ls ++ [l]) i = offered ls i ++ l.element?.toList.filter (options.dispatch · = i) := by
  rw [offered, List.filterMap_append, List.filter_append]
  cases hl : l.element? <;> simp [offered, hl]

theorem environments_concat (l : CollectorEvent options) :
    environments (ls ++ [l]) i = environments ls i ++ (l.environment? i).toList := by
  rw [environments, List.filterMap_append]
  cases hl : l.environment? i <;> simp [environments, hl]

variable {ls i} {l : CollectorEvent options}

theorem offered_of_none (h : l.element? = none) : offered (ls ++ [l]) i = offered ls i := by
  rw [offered_concat, h]
  exact List.append_nil _

theorem environments_of_none (h : l.environment? i = none) :
    environments (ls ++ [l]) i = environments ls i := by
  rw [environments_concat, h]
  exact List.append_nil _

theorem environments_of_some {environment : Option ((Nat → Bool) × Int)}
    (h : l.environment? i = some environment) :
    environments (ls ++ [l]) i = environments ls i ++ [environment] := by
  rw [environments_concat, h]
  rfl

end Offered

namespace ParserThread.Refines

variable {thread : ParserThread} {legacyProto : Bool} {offers : List UnyteMin}
  {schedule : List (Option ((Nat → Bool) × Int))} {events : List ParserEvent} {lone : LoneParser}
  (h : thread.Refines legacyProto offers schedule events lone)
include h

/-- An element is lost, because the queue is full. -/
theorem lose (seg : UnyteMin) :
    thread.Refines legacyProto (offers ++ [seg]) schedule events lone := by
  obtain ⟨elements, hholds, hcarries⟩ := h.input
  exact { h with input := ⟨elements, hholds, hcarries.lose seg⟩ }

/-- An element is written to the queue of a parser. -/
theorem offer {seg : UnyteMin} {input : UnyteUdpQueue UnyteMin}
    (hwrite : thread.input.write seg = some input) :
    ({ thread with input } : ParserThread).Refines legacyProto (offers ++ [seg]) schedule
      events lone := by
  obtain ⟨elements, hholds, hcarries⟩ := h.input
  have hsend := hcarries.send [seg]
  rw [List.append_assoc] at hsend
  exact { h with input := ⟨elements ++ [seg], hholds.write hwrite, hsend⟩ }

/-- A parser takes an element off its queue. -/
theorem read {queueData : UnyteMin} {input : UnyteUdpQueue UnyteMin}
    (hphase : thread.phase = .waiting) (hread : thread.input.read = (some queueData, input)) :
    ({ thread with input, phase := .parsing queueData } : ParserThread).Refines legacyProto
      offers schedule events lone := by
  obtain ⟨elements, hholds, hcarries⟩ := h.input
  obtain ⟨rest, rfl, hrest⟩ := hholds.read_eq_some hread
  rw [hphase] at hcarries
  refine { h with returned := ?_, input := ⟨rest, hrest, hcarries⟩ }
  rw [h.returned, hphase]
  exact iff_of_false (fun heq => ParserPhase.noConfusion heq)
    (fun heq => ParserPhase.noConfusion heq)

/-- A parser handles its element and goes on. -/
theorem parse {queueData : UnyteMin} (hphase : thread.phase = .parsing queueData)
    {malloc : Nat → Bool} {now : Int} {state : ParserState} {written : Option UnyteSegMet}
    (hiteration : parserIteration legacyProto malloc now thread.state queueData =
      .continued state written) {phase : ParserPhase} (hrunning : phase ≠ .returned)
    (hhandled : phase.handled = []) :
    ({ thread with state, phase } : ParserThread).Refines legacyProto offers
      (schedule ++ [some (malloc, now)]) (events ++ [.packet queueData malloc now])
      { lone with state, handed := lone.handed ++ written.toList } := by
  have hbusy : ¬ lone.returned = true := by
    rw [h.returned, hphase]
    exact fun heq => ParserPhase.noConfusion heq
  obtain ⟨elements, hholds, hcarries⟩ := h.input
  rw [hphase] at hcarries
  refine ⟨h.run.snoc ?_, rfl, iff_of_false hbusy hrunning, ?_, elements, hholds, ?_⟩
  · rw [← h.state] at hiteration
    simp only [LoneParser.Step, LoneParser.step, if_neg hbusy, hiteration]
  · rw [List.map_append, h.schedule]
    rfl
  · rw [packets_packet, hhandled]
    exact hcarries.take

/-- A parser cannot handle its element and returns. -/
theorem stop {queueData : UnyteMin} (hphase : thread.phase = .parsing queueData)
    {malloc : Nat → Bool} {now : Int}
    (hiteration : parserIteration legacyProto malloc now thread.state queueData = .stopped) :
    ({ thread with phase := .returned } : ParserThread).Refines legacyProto offers
      (schedule ++ [some (malloc, now)]) (events ++ [.packet queueData malloc now])
      { lone with returned := true } := by
  have hbusy : ¬ lone.returned = true := by
    rw [h.returned, hphase]
    exact fun heq => ParserPhase.noConfusion heq
  obtain ⟨elements, hholds, hcarries⟩ := h.input
  rw [hphase] at hcarries
  refine ⟨h.run.snoc ?_, h.state, iff_of_true rfl rfl, ?_, elements, hholds, ?_⟩
  · rw [← h.state] at hiteration
    simp only [LoneParser.Step, LoneParser.step, if_neg hbusy, hiteration]
  · rw [List.map_append, h.schedule]
    rfl
  · rw [packets_packet]
    exact hcarries.take

/-- The clean up thread asks a parser for a pass. -/
theorem requestCleanup :
    ({ thread with state := { thread.state with
        segmentBuff := thread.state.segmentBuff.requestCleanup } } : ParserThread).Refines
      legacyProto offers (schedule ++ [none]) (events ++ [.requestCleanup])
      { lone with state := { lone.state with
        segmentBuff := lone.state.segmentBuff.requestCleanup } } := by
  obtain ⟨elements, hholds, hcarries⟩ := h.input
  refine ⟨h.run.snoc rfl, by rw [h.state], h.returned, ?_, elements, hholds, ?_⟩
  · rw [List.map_append, h.schedule]
    rfl
  · rw [packets_requestCleanup]
    exact hcarries

/-- A parser that has written its message, or lost it, waits for the next element. -/
theorem wait {message : UnyteSegMet} (hphase : thread.phase = .writing message) :
    ({ thread with phase := .waiting } : ParserThread).Refines legacyProto offers schedule
      events lone := by
  obtain ⟨elements, hholds, hcarries⟩ := h.input
  rw [hphase] at hcarries
  refine { h with returned := ?_, input := ⟨elements, hholds, hcarries⟩ }
  rw [h.returned, hphase]
  exact iff_of_false (fun heq => ParserPhase.noConfusion heq)
    (fun heq => ParserPhase.noConfusion heq)

end ParserThread.Refines

namespace Collector

variable {c c' : Collector options} {i : options.ParserId}

/-- A parser that handles an element goes on, with a message to write if it hands
one over, or returns. -/
theorem parse_cases {malloc : Nat → Bool} {now : Int} (h : c.parse i malloc now = some c') :
    ∃ queueData, (c.parsers i).phase = .parsing queueData ∧
      ((∃ state written phase,
        parserIteration options.legacy malloc now (c.parsers i).state queueData =
          .continued state written ∧
        phase ≠ .returned ∧ phase.handled = [] ∧ phase.unwritten = written ∧
        c' = c.setParser i { c.parsers i with state, phase }) ∨
      (parserIteration options.legacy malloc now (c.parsers i).state queueData = .stopped ∧
        c' = c.setParser i { c.parsers i with phase := .returned })) := by
  unfold parse at h
  split at h
  · rename_i queueData hphase
    refine ⟨queueData, hphase, ?_⟩
    split at h
    · rename_i state hiteration
      exact Or.inl ⟨state, none, .waiting, hiteration,
        fun heq => ParserPhase.noConfusion heq, rfl, rfl, (Option.some.inj h).symm⟩
    · rename_i state message hiteration
      exact Or.inl ⟨state, some message, .writing message, hiteration,
        fun heq => ParserPhase.noConfusion heq, rfl, rfl, (Option.some.inj h).symm⟩
    · rename_i hiteration
      exact Or.inr ⟨hiteration, (Option.some.inj h).symm⟩
    · cases h
    · cases h
  · cases h

theorem read_cases (h : c.read i = some c') :
    ∃ queueData input, (c.parsers i).phase = .waiting ∧
      (c.parsers i).input.read = (some queueData, input) ∧
      c' = c.setParser i { c.parsers i with input, phase := .parsing queueData } := by
  unfold read at h
  split at h
  · rename_i queueData input hphase hinput
    exact ⟨queueData, input, hphase, hinput, (Option.some.inj h).symm⟩
  · cases h

theorem write_cases (h : c.write i = some c') :
    ∃ message, (c.parsers i).phase = .writing message ∧
      ((c.output.write message = none ∧
        c' = c.setParser i { c.parsers i with phase := .waiting }) ∨
      ∃ output, c.output.write message = some output ∧
        c' = { c.setParser i { c.parsers i with phase := .waiting } with output }) := by
  unfold write at h
  split at h
  · rename_i message hphase
    refine ⟨message, hphase, ?_⟩
    dsimp only at h
    split at h
    · rename_i hfull
      exact Or.inl ⟨hfull, (Option.some.inj h).symm⟩
    · rename_i output hwrite
      exact Or.inr ⟨output, hwrite, (Option.some.inj h).symm⟩
  · cases h

theorem clientRead_cases (h : c.clientRead = some c') :
    ∃ message output, c.output.read = (some message, output) ∧
      c' = { c with output, client := c.client ++ [message] } := by
  unfold clientRead at h
  split at h
  · rename_i message output hinput
    exact ⟨message, output, hinput, (Option.some.inj h).symm⟩
  · cases h

/-- The threads of a collector refine parsers on their own. -/
def RefinesParsers (c : Collector options) (ls : List (CollectorEvent options)) : Prop :=
  ∃ events lone queued, c.Pipelined ls events lone queued

theorem init_refinesParsers (options : UnyteUdpOptions) : (init options).RefinesParsers [] := by
  refine ⟨fun _ => [], fun _ => .init, [], ⟨fun i => ?_, UnyteUdpQueue.init_holds _ _,
    Lossy.merges_nil _, fun i message hphase => ParserPhase.noConfusion hphase⟩⟩
  refine ⟨.nil, rfl, iff_of_false Bool.false_ne_true (fun h => ParserPhase.noConfusion h), rfl,
    [], UnyteUdpQueue.init_holds _ _, Lossy.carries_nil⟩

section Steps

variable {ls : List (CollectorEvent options)} {events : options.ParserId → List ParserEvent}
  {lone : options.ParserId → LoneParser} {queued : List UnyteSegMet}
  (h : c.Pipelined ls events lone queued)
include h

/-- A step that changes one thread leaves the others with what they were offered. -/
theorem Pipelined.threads_setParser {l : CollectorEvent options} {thread : ParserThread}
    {es : List ParserEvent} {p : LoneParser}
    (hthread : thread.Refines options.legacy (offered (ls ++ [l]) i)
      (environments (ls ++ [l]) i) es p)
    (helement : ∀ seg, l.element? = some seg → options.dispatch seg = i)
    (henvironment : ∀ j, j ≠ i → l.environment? j = none) (j : options.ParserId) :
    ((c.setParser i thread).parsers j).Refines options.legacy (offered (ls ++ [l]) j)
      (environments (ls ++ [l]) j) (Function.update events i es j)
      (Function.update lone i p j) := by
  by_cases hj : j = i
  · subst hj
    rw [setParser_self, Function.update_self, Function.update_self]
    exact hthread
  · have helsewhere : l.element?.toList.filter (options.dispatch · = j) = [] := by
      refine List.filter_eq_nil_iff.mpr (fun seg hseg => ?_)
      rw [helement seg (Option.mem_toList.mp hseg)]
      simpa using Ne.symm hj
    rw [setParser_of_ne c thread hj, Function.update_of_ne hj, Function.update_of_ne hj,
      offered_concat, helsewhere, environments_concat, henvironment j hj, Option.toList_none,
      List.append_nil, List.append_nil]
    exact h.threads j

/-- A step that is none of a listener, a parser or a clean up thread leaves the
threads with what they were offered. -/
theorem Pipelined.threads_silent {l : CollectorEvent options} (helement : l.element? = none)
    (henvironment : ∀ j, l.environment? j = none) (j : options.ParserId) :
    (c.parsers j).Refines options.legacy (offered (ls ++ [l]) j) (environments (ls ++ [l]) j)
      (events j) (lone j) := by
  rw [offered_concat, helement, environments_concat, henvironment]
  simpa using h.threads j

theorem Pipelined.receive (message : ReceivedMessage) :
    (c.receive message).RefinesParsers (ls ++ [.receive message]) := by
  unfold Collector.receive
  split
  · rename_i hempty
    have helement : (CollectorEvent.receive message : CollectorEvent options).element? = none :=
      if_pos hempty
    exact ⟨events, lone, queued, h.threads_silent helement (fun _ => rfl), h.output, h.merges,
      h.own⟩
  · rename_i hbytes
    have helement : (CollectorEvent.receive message : CollectorEvent options).element? =
        some message.minimalParse := if_neg hbytes
    have hoffered (i : options.ParserId) : offered (ls ++ [.receive message]) i =
        offered ls i ++ [message.minimalParse].filter (options.dispatch · = i) := by
      rw [offered_concat, helement, Option.toList_some]
    have henvironments (i : options.ParserId) :
        environments (ls ++ [.receive message]) i = environments ls i :=
      (environments_concat ls i _).trans (List.append_nil _)
    dsimp only
    cases hwrite : (c.parsers (options.dispatch message.minimalParse)).input.write
        message.minimalParse with
    | none =>
        refine ⟨events, lone, queued, fun i => ?_, h.output, h.merges, h.own⟩
        rw [hoffered, henvironments]
        by_cases hi : options.dispatch message.minimalParse = i
        · rw [List.filter_cons_of_pos (by simpa using hi), List.filter_nil]
          exact (h.threads i).lose _
        · rw [List.filter_cons_of_neg (by simpa using hi), List.filter_nil, List.append_nil]
          exact h.threads i
    | some input =>
        have hthread := (h.threads (options.dispatch message.minimalParse)).offer hwrite
        have hself : offered (ls ++ [.receive message]) (options.dispatch message.minimalParse) =
            offered ls (options.dispatch message.minimalParse) ++ [message.minimalParse] := by
          rw [hoffered, List.filter_cons_of_pos (by simp), List.filter_nil]
        rw [← hself, ← henvironments] at hthread
        have hthreads := h.threads_setParser hthread (fun seg hseg => by
          rw [← Option.some.inj (helement.symm.trans hseg)]) (fun _ _ => rfl)
        rw [Function.update_eq_self, Function.update_eq_self] at hthreads
        refine ⟨events, lone, queued, hthreads, h.output, ?_, fun i m hphase => ?_⟩
        · rw [map_setParser c _ _ (fun thread => thread.phase.unwritten.toList)]
          dsimp only
          rw [Function.update_eq_self]
          exact h.merges
        · refine h.own i m (Eq.trans ?_ hphase)
          by_cases hi : i = options.dispatch message.minimalParse
          · subst hi
            rw [setParser_self]
          · rw [setParser_of_ne c _ hi]

/-- What a thread is about to write is of its own observation domains. -/
theorem Pipelined.own_setParser {thread : ParserThread}
    (hown : ∀ message, thread.phase = .writing message → options.origin message = i) :
    ∀ j message, ((c.setParser i thread).parsers j).phase = .writing message →
      options.origin message = j := by
  intro j message hphase
  by_cases hj : j = i
  · subst hj
    rw [setParser_self] at hphase
    exact hown message hphase
  · rw [setParser_of_ne c thread hj] at hphase
    exact h.own j message hphase

omit h in
theorem handed_update (lone : options.ParserId → LoneParser) (i : options.ParserId)
    (p : LoneParser) : (fun j => (Function.update lone i p j).handed) =
      Function.update (fun j => (lone j).handed) i p.handed := by
  funext j
  exact Function.apply_update (fun _ => LoneParser.handed) lone i p j

/-- A step of a thread that writes nothing and hands over nothing. -/
theorem Pipelined.merges_setParser {thread : ParserThread} {p : LoneParser}
    (hphase : thread.phase.unwritten = (c.parsers i).phase.unwritten)
    (hp : p.handed = (lone i).handed) :
    Lossy.Merges options.origin (fun j => (Function.update lone i p j).handed)
      (fun j => ((c.setParser i thread).parsers j).phase.unwritten.toList)
      (c.client ++ queued) := by
  rw [handed_update, hp, map_setParser c _ _ (fun thread => thread.phase.unwritten.toList),
    hphase, Function.update_eq_self, Function.update_eq_self]
  exact h.merges

theorem Pipelined.read (hread : c.read i = some c') : c'.RefinesParsers (ls ++ [.read i]) := by
  obtain ⟨queueData, input, hphase, hinput, rfl⟩ := read_cases hread
  have hthread := (h.threads i).read hphase hinput
  rw [← offered_of_none (l := .read i) rfl, ← environments_of_none (l := .read i) rfl] at hthread
  refine ⟨_, _, queued, h.threads_setParser hthread (fun _ hseg => by cases hseg)
    (fun _ _ => rfl), h.output, h.merges_setParser ?_ rfl,
    h.own_setParser (fun message hwriting => ParserPhase.noConfusion hwriting)⟩
  rw [hphase]
  rfl

theorem Pipelined.requestCleanup :
    (c.requestCleanup i).RefinesParsers (ls ++ [.requestCleanup i]) := by
  have hthread := (h.threads i).requestCleanup
  rw [← offered_of_none (l := .requestCleanup i) rfl,
    ← environments_of_some (l := .requestCleanup i) (if_pos rfl)] at hthread
  exact ⟨_, _, queued, h.threads_setParser hthread (fun _ hseg => by cases hseg)
    (fun j hj => if_neg (Ne.symm hj)), h.output, h.merges_setParser rfl rfl,
    h.own_setParser (fun message => h.own i message)⟩

theorem Pipelined.clientRead (hread : c.clientRead = some c') :
    c'.RefinesParsers (ls ++ [.clientRead]) := by
  obtain ⟨message, output, hinput, rfl⟩ := clientRead_cases hread
  obtain ⟨rest, rfl, hrest⟩ := h.output.read_eq_some hinput
  refine ⟨events, lone, rest, h.threads_silent rfl (fun _ => rfl), hrest, ?_, h.own⟩
  change Lossy.Merges _ _ _ (c.client ++ [message] ++ rest)
  rw [List.append_assoc, List.singleton_append]
  exact h.merges

/-- A parser writes its message to the output queue or loses it. -/
theorem Pipelined.write (hwrite : c.write i = some c') :
    c'.RefinesParsers (ls ++ [.write i]) := by
  obtain ⟨message, hphase, hcases⟩ := write_cases hwrite
  have hthread := (h.threads i).wait hphase
  rw [← offered_of_none (l := .write i) rfl, ← environments_of_none (l := .write i) rfl]
    at hthread
  have hthreads := h.threads_setParser hthread (fun _ hseg => by cases hseg) (fun _ _ => rfl)
  rw [Function.update_eq_self, Function.update_eq_self] at hthreads
  have hunwritten : (fun j => (c.parsers j).phase.unwritten.toList) i = message :: [] := by
    dsimp only
    rw [hphase]
    rfl
  have hmap := map_setParser c i { c.parsers i with phase := .waiting }
    (fun thread => thread.phase.unwritten.toList)
  have hown : ∀ j m, ((c.setParser i { c.parsers i with phase := .waiting }).parsers j).phase =
      .writing m → options.origin m = j :=
    h.own_setParser (fun _ hwriting => ParserPhase.noConfusion hwriting)
  rcases hcases with ⟨_, rfl⟩ | ⟨output, houtput, rfl⟩
  · refine ⟨events, lone, queued, hthreads, h.output, ?_, hown⟩
    rw [hmap]
    exact h.merges.lose hunwritten
  · refine ⟨events, lone, queued ++ [message], hthreads, h.output.write houtput, ?_, hown⟩
    have hmerges := h.merges.write (h.own i message hphase) hunwritten
    rw [List.append_assoc] at hmerges
    exact hmap ▸ hmerges

/-- A parser handles an element with what it hands over, or returns. -/
theorem Pipelined.parse {malloc : Nat → Bool} {now : Int}
    (hparse : c.parse i malloc now = some c') :
    c'.RefinesParsers (ls ++ [.parse i malloc now]) := by
  obtain ⟨queueData, hphase, hcases⟩ := parse_cases hparse
  have hbusy : (c.parsers i).phase.unwritten = none := by
    rw [hphase]
    rfl
  rcases hcases with ⟨state, written, phase, hiteration, hrunning, hhandled, hwritten, rfl⟩ |
      ⟨hstopped, rfl⟩
  · have hthread := (h.threads i).parse hphase hiteration hrunning hhandled
    rw [← offered_of_none (l := .parse i malloc now) rfl,
      ← environments_of_some (l := .parse i malloc now) (if_pos rfl)] at hthread
    refine ⟨_, _, queued, h.threads_setParser hthread (fun _ hseg => by cases hseg)
      (fun j hj => if_neg (Ne.symm hj)), h.output, ?_,
      h.own_setParser (fun message hwriting => ?_)⟩
    · have hmerges := h.merges.make i written.toList
      rw [hbusy, Option.toList_none, List.nil_append] at hmerges
      rw [map_setParser c _ _ (fun thread => thread.phase.unwritten.toList), handed_update,
        hwritten]
      exact hmerges
    · obtain ⟨elements, _, hcarries⟩ := (h.threads i).input
      rw [hphase] at hcarries
      have hwriting : phase = .writing message := hwriting
      rw [hwriting] at hwritten
      rw [← hwritten] at hiteration
      exact origin_of_domain (hcarries.held_subset List.mem_cons_self)
        (parserIteration_domain hiteration)
  · have hthread := (h.threads i).stop hphase hstopped
    rw [← offered_of_none (l := .parse i malloc now) rfl,
      ← environments_of_some (l := .parse i malloc now) (if_pos rfl)] at hthread
    exact ⟨_, _, queued, h.threads_setParser hthread (fun _ hseg => by cases hseg)
      (fun j hj => if_neg (Ne.symm hj)), h.output, h.merges_setParser hbusy.symm rfl,
      h.own_setParser (fun _ hwriting => ParserPhase.noConfusion hwriting)⟩

/-- Every step is one of the parsers on their own, or moves what they read and
hand over. -/
theorem Pipelined.step {l : CollectorEvent options} (hstep : c.Step l c') :
    c'.RefinesParsers (ls ++ [l]) := by
  cases l with
  | receive message =>
      obtain rfl := Option.some.inj hstep
      exact h.receive message
  | read i => exact h.read hstep
  | parse i malloc now => exact h.parse hstep
  | write i => exact h.write hstep
  | requestCleanup i =>
      obtain rfl := Option.some.inj hstep
      exact h.requestCleanup
  | clientRead => exact h.clientRead hstep

end Steps

theorem refinesParsers_of_run {ls : List (CollectorEvent options)} {c : Collector options}
    (hrun : Run Step (init options) ls c) : c.RefinesParsers ls :=
  hrun.invariant (I := fun ls c => c.RefinesParsers ls) (init_refinesParsers options)
    (fun _ _ _ _ _ ⟨_, _, _, h⟩ hstep => h.step hstep)

end Collector

section Lossy

/-- Packets that arrive at two parsers: five whole messages, all segments of one message and
one of them once more, and the two of another one. -/
def lossyPackets : List Datagram :=
  [wholePacket 1, wholePacket 2, wholePacket 3, wholePacket 4, threePart 2, twoPart 1,
    threePart 0, threePart 1, threePart 0, wholePacket 5, twoPart 0]

/-- A schedule in which much is lost: the fourth whole message finds the queue of its parser
full and the third one that of the client, and the message of two segments cannot be
allocated. The segment that came again stays stored. -/
def lossyEvents : List (CollectorEvent smallOptions) :=
  [.receive (wholePacket 1).zeroed, .receive (wholePacket 2).zeroed,
    .receive (wholePacket 3).zeroed, .receive (wholePacket 4).zeroed,
    .receive (threePart 2).zeroed, .read (smallParser 1), parseNow 1,
    .receive (twoPart 1).zeroed, .read (smallParser 0), .read (smallParser 1), parseNow 1,
    parseNow 0, .write (smallParser 0), .read (smallParser 0), parseNow 0,
    .write (smallParser 0), .receive (threePart 0).zeroed, .receive (threePart 1).zeroed,
    .read (smallParser 1), parseNow 1, .read (smallParser 1), parseNow 1,
    .read (smallParser 0), .write (smallParser 1), parseNow 0, .write (smallParser 0),
    .requestCleanup (smallParser 1), .clientRead, .receive (threePart 0).zeroed,
    .receive (wholePacket 5).zeroed, .read (smallParser 1), parseNow 1,
    .read (smallParser 0), parseNow 0, .write (smallParser 0), .receive (twoPart 0).zeroed,
    .read (smallParser 1), .parse (smallParser 1) (fun _ => false) 0]

/-- What the client has read then and what waits for it. -/
theorem exists_lossyRun : ∃ c : Collector smallOptions,
    Run Collector.Step (.init smallOptions) lossyEvents c ∧
      c.client.map UnyteSegMet.content = [wholeContent 1] ∧
      c.output.elements.map UnyteSegMet.content =
        [wholeContent 2, threeContent, wholeContent 5] := by
  have hafter : (lossyEvents.foldlM Collector.step (.init smallOptions)).map (fun c =>
      (c.client.map UnyteSegMet.content, c.output.elements.map UnyteSegMet.content)) =
        some ([wholeContent 1],
          [wholeContent 2, threeContent, wholeContent 5]) := by
    decide +kernel
  obtain ⟨c, hfold, hend⟩ := Option.map_eq_some_iff.mp hafter
  obtain ⟨hclient, hqueued⟩ := Prod.mk.inj hend
  exact ⟨c, run_iff_foldlM.mpr hfold, hclient, hqueued⟩

theorem lossyEvents_elements : lossyEvents.filterMap CollectorEvent.element? =
    lossyPackets.map fun d => d.zeroed.minimalParse := rfl

/-- A packet without a segmentation option is not a segment. -/
theorem Datagram.notSegment {d : Datagram} (h : d.segments = []) :
    NotSegment false d.zeroed.minimalParse := by
  intro parsed hparse
  have hencoded : parseFunc false d.zeroed.minimalParse.buffer.val d.zeroed.minimalParse =
      .ok (d.parsed d.zeroed.minimalParse) := d.parseWithMetadata_encode _ _
  obtain rfl := ParseResult.ok.inj (hencoded.symm.trans hparse)
  exact fun hsegmented => (d.isSegmented_parsed _).mp hsegmented h

end Lossy

/-- Along every run each parser thread does what a parser on its own does, in the
same environment, with some of the datagrams dispatched to it, in the order of
their arrival. Of what that parser hands over the client is given some, in the
same order. -/
theorem threads_are_lone_parsers {ls : List (CollectorEvent options)} {c : Collector options}
    (hrun : Run Collector.Step (.init options) ls c) :
    ∃ (events : options.ParserId → List ParserEvent) (lone : options.ParserId → LoneParser)
      (queued : List UnyteSegMet), c.output.Holds queued ∧
      ∀ i, Run (LoneParser.Step options.legacy) .init (events i) (lone i) ∧
        (lone i).state = (c.parsers i).state ∧
        (events i).map ParserEvent.environment = environments ls i ∧
        (∃ waiting, (c.parsers i).input.Holds waiting ∧
          (packets (events i) ++ ((c.parsers i).phase.handled ++ waiting)).Sublist
            (offered ls i)) ∧
        ((c.client ++ queued).filter (options.origin · = i) ++
          (c.parsers i).phase.unwritten.toList).Sublist (lone i).handed := by
  obtain ⟨events, lone, queued, h⟩ := Collector.refinesParsers_of_run hrun
  exact ⟨events, lone, queued, h.output, fun i => ⟨(h.threads i).run, (h.threads i).state,
    (h.threads i).schedule, (h.threads i).input, h.merges i⟩⟩

/-- The second parser hands over the message of three segments, as it does on its own. -/
theorem lossy_thread_runs_alone : ∃ c : Collector smallOptions,
    Run Collector.Step (.init smallOptions) lossyEvents c ∧
      c.client.map UnyteSegMet.content = [wholeContent 1] ∧
      ∃ events lone, Run (LoneParser.Step false) .init events lone ∧
        lone.state = (c.parsers (smallParser 1)).state ∧
        threeContent ∈ lone.handed.map UnyteSegMet.content := by
  obtain ⟨c, hrun, hclient, helements⟩ := exists_lossyRun
  obtain ⟨events, lone, queued, hqueued, hthreads⟩ := threads_are_lone_parsers hrun
  obtain ⟨hlone, hstate, _, _, hhanded⟩ := hthreads (smallParser 1)
  refine ⟨c, hrun, hclient, events _, lone _, hlone, hstate, ?_⟩
  obtain ⟨w, hw, hcontent⟩ : ∃ w ∈ queued, w.content = threeContent := by
    rw [hqueued.elements_eq] at helements
    refine List.mem_map.mp ?_
    rw [helements]
    decide
  have horigin : smallOptions.origin w = smallParser 1 := by
    have hdomain : w.header.observationDomainId = 7 :=
      congrArg (fun content => content.1.1) hcontent
    rw [UnyteUdpOptions.origin, hdomain]
    rfl
  refine List.mem_map.mpr ⟨w, hhanded.subset (List.mem_append_left _ ?_), hcontent⟩
  exact List.mem_filter.mpr ⟨List.mem_append_right _ hw, decide_eq_true horigin⟩

section Domain

variable {ls : List (CollectorEvent options)} {c : Collector options}

/-- What the client is given of an observation domain without segments. -/
theorem Collector.Pipelined.whole_domain {events : options.ParserId → List ParserEvent}
    {lone : options.ParserId → LoneParser} {queued : List UnyteSegMet}
    (h : c.Pipelined ls events lone queued) (domain : Uint32)
    (hwhole : ∀ seg ∈ ls.filterMap CollectorEvent.element?, seg.domain = domain →
      NotSegment options.legacy seg) :
    ((c.client ++ queued).filter (·.header.observationDomainId = domain)).Sublist
      (((ls.filterMap CollectorEvent.element?).filter (·.domain = domain)).filterMap
        (wholeMessage? options.legacy)) := by
  obtain ⟨waiting, _, hcarries⟩ := (h.threads (options.parserOf domain)).input
  have htaken : (packets (events (options.parserOf domain))).Sublist
      (offered ls (options.parserOf domain)) :=
    (List.sublist_append_left _ _).trans hcarries
  have hhanded := LoneParser.handed_of_domain (h.threads (options.parserOf domain)).run
    (fun q hq => hwhole q (List.mem_of_mem_filter (htaken.subset hq)))
  -- the messages of a domain come from its parser, and its datagrams go to it
  have hmessages : (c.client ++ queued).filter (·.header.observationDomainId = domain) =
      ((c.client ++ queued).filter (options.origin · = options.parserOf domain)).filter
        (·.header.observationDomainId = domain) := by
    rw [List.filter_filter]
    refine List.filter_congr (fun message _ => ?_)
    by_cases hmessage : message.header.observationDomainId = domain
    · simp [hmessage, UnyteUdpOptions.origin]
    · simp [hmessage]
  have hdatagrams : (offered ls (options.parserOf domain)).filter (·.domain = domain) =
      (ls.filterMap CollectorEvent.element?).filter (·.domain = domain) := by
    rw [offered, List.filter_filter]
    refine List.filter_congr (fun seg hseg => ?_)
    by_cases hdomain : seg.domain = domain
    · simp [hdomain, dispatch_of_element hseg]
    · simp [hdomain]
  rw [hmessages, ← hdatagrams]
  refine List.Sublist.trans ?_ ((htaken.filter (·.domain = domain)).filterMap _)
  rw [← hhanded]
  exact ((List.sublist_append_left _ _).trans
    (h.merges (options.parserOf domain))).filter _

/-- Where no datagram of an observation domain is a segment, the client is given
messages of that domain as they were received: in their order, none twice. -/
theorem domain_without_segments_in_order (domain : Uint32) {ls : List (CollectorEvent options)}
    {c : Collector options} (hrun : Run Collector.Step (.init options) ls c)
    (hwhole : ∀ seg ∈ ls.filterMap CollectorEvent.element?, seg.domain = domain →
      NotSegment options.legacy seg) :
    ∃ queued, c.output.Holds queued ∧
      ((c.client ++ queued).filter (·.header.observationDomainId = domain)).Sublist
        (((ls.filterMap CollectorEvent.element?).filter (·.domain = domain)).filterMap
          (wholeMessage? options.legacy)) := by
  obtain ⟨events, lone, queued, h⟩ := Collector.refinesParsers_of_run hrun
  exact ⟨queued, h.output, h.whole_domain domain hwhole⟩

/-- Of domain 8, none of whose packets is a segment, the client is given what was not lost. -/
theorem lossy_domain_in_order : ∃ c : Collector smallOptions,
    Run Collector.Step (.init smallOptions) lossyEvents c ∧
      c.output.elements.map UnyteSegMet.content =
        [wholeContent 2, threeContent, wholeContent 5] ∧
      ∃ queued, c.output.Holds queued ∧
        ((c.client ++ queued).filter (·.header.observationDomainId = 8)).Sublist
          (((lossyEvents.filterMap CollectorEvent.element?).filter (·.domain = 8)).filterMap
            (wholeMessage? false)) := by
  obtain ⟨c, hrun, _, helements⟩ := exists_lossyRun
  have hwhole : ∀ d ∈ lossyPackets, d.zeroed.minimalParse.domain = 8 → d.segments = [] := by
    decide +kernel
  refine ⟨c, hrun, helements, domain_without_segments_in_order 8 hrun fun seg hseg hdomain => ?_⟩
  rw [lossyEvents_elements] at hseg
  obtain ⟨d, hd, rfl⟩ := List.mem_map.mp hseg
  exact Datagram.notSegment (hwhole d hd hdomain)

/-- A collector of legacy datagrams gives its client those of every observation domain in
their order, none twice, since no legacy datagram is a segment. -/
theorem legacy_messages_in_order (hlegacy : options.legacy = true) (domain : Uint32)
    (hrun : Run Collector.Step (.init options) ls c) :
    ∃ queued, c.output.Holds queued ∧
      ((c.client ++ queued).filter (·.header.observationDomainId = domain)).Sublist
        (((ls.filterMap CollectorEvent.element?).filter (·.domain = domain)).filterMap
          (wholeMessage? true)) := by
  obtain ⟨events, lone, queued, h⟩ := Collector.refinesParsers_of_run hrun
  have hwhole := h.whole_domain domain fun seg _ _ parsed hparsed hsegmented => by
    rw [hlegacy] at hparsed
    cases (legacy_not_segmented hparsed).symm.trans hsegmented
  rw [hlegacy] at hwhole
  exact ⟨queued, h.output, hwhole⟩

end Domain

end UdpNotif
