import UdpNotif.Lib.Weights
import UdpNotif.ListeningWorker.Pipelines

/-!
A collector that receives nothing more. Its threads take no more steps than there
is work in its queues, under every schedule, and stop only where everything that
was queued has been given to the client, dropped or left behind by a parser that
returned or does not come back from its parse function. A legacy datagram of
encoding 4, whose media type is read behind the end of its table, is not received.
-/

namespace UdpNotif

open Runs

/-- The steps that a parser still has to take for what it holds. -/
def ParserPhase.work : ParserPhase → Nat
  | waiting | returned => 0
  | parsing _ => 3
  | writing _ => 2

/-- An element is read, parsed and written, and its message is read. -/
def ParserThread.work (thread : ParserThread) : Nat :=
  4 * thread.input.length + thread.phase.work

variable {options : UnyteUdpOptions}

/-- The steps that are left to do. -/
def Collector.work (c : Collector options) : Nat :=
  Weights.total ParserThread.work c.parsers + c.output.length

/-- The steps of the parsers and of the client. The listener and the clean up
threads take theirs on their own account. -/
def CollectorEvent.Internal : CollectorEvent options → Prop
  | read _ | parse _ _ _ | write _ | clientRead => True
  | receive _ | requestCleanup _ => False

/-- The steps of a collector that receives nothing. -/
def Collector.InternalStep (c : Collector options) (l : CollectorEvent options)
    (c' : Collector options) : Prop := l.Internal ∧ c.Step l c'

/-- A parser that takes no more steps: it waits for an element, it has returned, or
its parse function does not come back. -/
def ParserThread.Stuck (legacyProto : Bool) (thread : ParserThread) : Prop :=
  (thread.phase = .waiting ∧ thread.input.tail = thread.input.head) ∨
  thread.phase = .returned ∨
  ∃ queueData, thread.phase = .parsing queueData ∧
    parseFunc legacyProto queueData.buffer.val queueData = .diverges

/-- No datagram that is received has a legacy header with the encoding just behind
the table of media types. -/
def NoneBeyondTable (ls : List (CollectorEvent options)) : Prop :=
  ∀ seg ∈ ls.filterMap CollectorEvent.element?,
    options.legacy = true → legacyEncoding seg.buffer.val ≠ supportedEtLen

/-- Only a legacy header with that encoding is read outside the table. -/
theorem parseFunc_ne_undefined {legacyProto : Bool} {segment : List Uint8}
    (h : legacyProto = true → legacyEncoding segment ≠ supportedEtLen) (um : UnyteMin) :
    parseFunc legacyProto segment um ≠ .undefined := by
  cases legacyProto with
  | false =>
      rw [parseFunc, if_neg Bool.false_ne_true, parseWithMetadata]
      split
      · exact ParseResult.noConfusion
      · exact ParseResult.noConfusion
      · split <;> exact ParseResult.noConfusion
  | true =>
      rw [parseFunc, if_pos rfl, parseWithMetadataLegacy]
      split
      · rename_i hbeyond
        exact absurd ((getEncodingIanaEtFromLegacy_eq_none_iff _).mp hbeyond) (h rfl)
      · split <;> exact ParseResult.noConfusion

/-- Steps inside a collector receive nothing. -/
theorem NoneBeyondTable.snoc {ls : List (CollectorEvent options)} (h : NoneBeyondTable ls)
    {l : CollectorEvent options} (hl : l.Internal) : NoneBeyondTable (ls ++ [l]) := by
  have hnone : l.element? = none := by
    cases l with
    | receive => exact hl.elim
    | read | parse | write | requestCleanup | clientRead => rfl
  rwa [NoneBeyondTable, List.filterMap_append, List.filterMap_cons_none hnone,
    List.filterMap_nil, List.append_nil]

namespace Collector

variable {c c' : Collector options} {ls : List (CollectorEvent options)} {i : options.ParserId}

/-- The work of one thread is done by it alone. -/
theorem work_setParser (c : Collector options) (i : options.ParserId) (thread : ParserThread) :
    (c.setParser i thread).work + (c.parsers i).work = c.work + thread.work := by
  have htotal := Weights.total_update ParserThread.work c.parsers i thread
  have hwork : (c.setParser i thread).work =
      Weights.total ParserThread.work (Function.update c.parsers i thread) + c.output.length :=
    rfl
  rw [hwork, work]
  omega

theorem work_setParser_lt {thread : ParserThread} (h : thread.work < (c.parsers i).work) :
    (c.setParser i thread).work < c.work := by
  have hwork := c.work_setParser i thread
  omega

theorem work_output (c : Collector options) (output : UnyteUdpQueue UnyteSegMet) :
    ({ c with output } : Collector options).work + c.output.length = c.work + output.length := by
  simp only [work]
  omega

/-- A handle that was read is one element less. -/
theorem length_of_read {α : Type*} {q q' : UnyteUdpQueue α} {xs : List α} (h : q.Holds xs) {x : α}
    (hread : q.read = (some x, q')) : q'.length + 1 = q.length := by
  obtain ⟨rest, rfl, hrest⟩ := h.read_eq_some hread
  rw [h.length_eq, hrest.length_eq, List.length_cons]

/-- A step of a parser or of the client lowers the work that is left. -/
theorem RefinesParsers.work_lt (h : c.RefinesParsers ls) {l : CollectorEvent options}
    (hstep : c.InternalStep l c') : c'.work < c.work := by
  obtain ⟨events, lone, queued, h⟩ := h
  obtain ⟨hinternal, hstep⟩ := hstep
  cases l with
  | receive message => exact hinternal.elim
  | requestCleanup i => exact hinternal.elim
  | read i =>
      obtain ⟨queueData, input, hphase, hread, rfl⟩ := read_cases hstep
      obtain ⟨elements, hholds, _⟩ := (h.threads i).input
      have hlength := length_of_read hholds hread
      refine work_setParser_lt ?_
      simp only [ParserThread.work, ParserPhase.work, hphase]
      omega
  | parse i malloc now =>
      obtain ⟨queueData, hphase, ⟨state, written, phase, _, _, hhandled, _, rfl⟩ | ⟨_, rfl⟩⟩ :=
        parse_cases hstep
      · have hless : phase.work ≤ 2 := by
          cases phase with
          | parsing => cases hhandled
          | waiting | writing | returned => simp [ParserPhase.work]
        have hthree : (c.parsers i).phase.work = 3 := by rw [hphase]; rfl
        refine work_setParser_lt ?_
        simp only [ParserThread.work]
        omega
      · refine work_setParser_lt ?_
        simp only [ParserThread.work, ParserPhase.work, hphase]
        omega
  | write i =>
      obtain ⟨message, hphase, hcases⟩ := write_cases hstep
      have hwaiting : ({ c.parsers i with phase := .waiting } : ParserThread).work + 2 =
          (c.parsers i).work := by
        simp only [ParserThread.work, ParserPhase.work, hphase]
      have hwork := c.work_setParser i { c.parsers i with phase := .waiting }
      rcases hcases with ⟨_, rfl⟩ | ⟨output, houtput, rfl⟩
      · omega
      · have hlength := (h.output.write houtput).length_eq
        rw [List.length_append, List.length_singleton, ← h.output.length_eq] at hlength
        have houtput := (c.setParser i { c.parsers i with phase := .waiting }).work_output output
        change _ + c.output.length = _ at houtput
        exact Nat.lt_of_add_lt_add_right (houtput.trans_lt (by omega))
  | clientRead =>
      obtain ⟨message, output, hread, rfl⟩ := clientRead_cases hstep
      have hlength := length_of_read h.output hread
      have houtput := c.work_output output
      have hsame : ({ c with output, client := c.client ++ [message] } : Collector options).work =
          ({ c with output } : Collector options).work := rfl
      omega

/-- A collector behind some run. -/
def Reached (c : Collector options) : Prop := ∃ ls, c.RefinesParsers ls ∧ NoneBeyondTable ls

/-- The steps of a collector that receives nothing, and what they keep. -/
theorem internalStep_lowers (c : Collector options) (l : CollectorEvent options)
    (c' : Collector options) (h : c.Reached) (hstep : c.InternalStep l c') :
    c'.Reached ∧ c'.work < c.work := by
  obtain ⟨ls, hrefines, hdefined⟩ := h
  have hlt := hrefines.work_lt hstep
  obtain ⟨events, lone, queued, hpipelined⟩ := hrefines
  exact ⟨⟨_, hpipelined.step hstep.2, hdefined.snoc hstep.1⟩, hlt⟩

/-- A parser that can take no step is stuck. -/
theorem RefinesParsers.stuck (h : c.RefinesParsers ls) (hdefined : NoneBeyondTable ls)
    (hend : ∀ l : CollectorEvent options, l.Internal → c.step l = none) :
    (c.parsers i).Stuck options.legacy := by
  obtain ⟨events, lone, queued, h⟩ := h
  obtain ⟨elements, hholds, hcarries⟩ := (h.threads i).input
  cases hphase : (c.parsers i).phase with
  | waiting =>
      cases elements with
      | nil => exact Or.inl ⟨hphase, hholds.tail_eq_head_iff.mpr rfl⟩
      | cons first elements =>
          have hread : (c.parsers i).input.read = (some first, (c.parsers i).input.read.2) :=
            Prod.ext hholds.read.1 rfl
          have hnone : c.read i = none := hend (.read i) trivial
          rw [Collector.read, hphase, hread] at hnone
          cases hnone
  | parsing queueData =>
      refine Or.inr (Or.inr ⟨queueData, hphase, ?_⟩)
      have hnone : c.parse i (fun _ => true) 0 = none := hend (.parse i (fun _ => true) 0) trivial
      have hbuilt := (LoneParser.reachable_of_run (h.threads i).run).built
      rw [(h.threads i).state] at hbuilt
      rw [Collector.parse, hphase] at hnone
      simp only [parserIteration] at hnone
      have hqueued : queueData ∈ offered ls i := by
        apply hcarries.subset
        simp [hphase, ParserPhase.handled]
      cases hparse : parseFunc options.legacy queueData.buffer.val queueData with
      | diverges => rfl
      | undefined =>
          have hreceived := hdefined queueData (List.mem_of_mem_filter hqueued)
          exact absurd hparse (parseFunc_ne_undefined hreceived queueData)
      | null => simp [hparse] at hnone
      | ok parsed =>
          obtain ⟨state, written, hgoes, _⟩ :=
            handleParsed_goes_on (fun _ => true) 0 hbuilt (parseFunc_parsed hparse)
          cases written <;> simp [hparse, hgoes] at hnone
  | writing message =>
      have hnone : c.write i = none := hend (.write i) trivial
      rw [Collector.write, hphase] at hnone
      dsimp only at hnone
      split at hnone <;> cases hnone
  | returned => exact Or.inr (Or.inl hphase)

/-- The client waits only for an empty queue. -/
theorem RefinesParsers.output_empty (h : c.RefinesParsers ls) (hend : c.clientRead = none) :
    c.output.Holds [] := by
  obtain ⟨events, lone, queued, h⟩ := h
  cases queued with
  | nil => exact h.output
  | cons first queued =>
      have hread : c.output.read = (some first, c.output.read.2) := Prod.ext h.output.read.1 rfl
      rw [Collector.clientRead, hread] at hend
      cases hend

/-- A stuck parser takes no step. -/
theorem stuck_step (hstuck : ∀ i, (c.parsers i).Stuck options.legacy)
    (houtput : c.output.Holds []) {l : CollectorEvent options} (hl : l.Internal) :
    c.step l = none := by
  cases l with
  | receive | requestCleanup => exact hl.elim
  | clientRead =>
      have hread : c.output.read = (none, c.output) := by
        rw [UnyteUdpQueue.read, if_pos (houtput.tail_eq_head_iff.mpr rfl)]
      rw [step, Collector.clientRead, hread]
  | read i =>
      rw [step, Collector.read]
      rcases hstuck i with ⟨hphase, hempty⟩ | hphase | ⟨queueData, hphase, _⟩
      · rw [hphase, UnyteUdpQueue.read, if_pos hempty]
      · rw [hphase]
      · rw [hphase]
  | parse i malloc now =>
      rw [step, Collector.parse]
      rcases hstuck i with ⟨hphase, _⟩ | hphase | ⟨queueData, hphase, hparse⟩
      · rw [hphase]
      · rw [hphase]
      · simp only [hphase, parserIteration, hparse]
  | write i =>
      rw [step, Collector.write]
      rcases hstuck i with ⟨hphase, _⟩ | hphase | ⟨queueData, hphase, _⟩ <;> rw [hphase]

end Collector

/-- Left alone, a collector takes no more steps than there is work in its queues,
and has then come to its end: the output queue is empty, and each parser waits on
an empty queue, has returned, or is in a parse function that does not come back. -/
theorem collector_drains {ls : List (CollectorEvent options)} {c : Collector options}
    (hdefined : NoneBeyondTable ls) (hrun : Run Collector.Step (.init options) ls c) :
    (∀ ls' c', Run Collector.InternalStep c ls' c' → ls'.length + c'.work ≤ c.work ∧
      ((∀ l c'', ¬ c'.InternalStep l c'') ↔
        c'.output.Holds [] ∧ ∀ i, (c'.parsers i).Stuck options.legacy)) ∧
    ∃ ls' c', Run Collector.InternalStep c ls' c' ∧
      c'.output.Holds [] ∧ ∀ i, (c'.parsers i).Stuck options.legacy := by
  have hreached : c.Reached := ⟨ls, Collector.refinesParsers_of_run hrun, hdefined⟩
  have hend {c' : Collector options} (h : c'.Reached) :
      (∀ l c'', ¬ c'.InternalStep l c'') ↔
        c'.output.Holds [] ∧ ∀ i, (c'.parsers i).Stuck options.legacy := by
    obtain ⟨ls', h, hdefined'⟩ := h
    constructor
    · intro hend
      have hnone : ∀ l : CollectorEvent options, l.Internal → c'.step l = none := fun l hl =>
        Option.eq_none_iff_forall_ne_some.mpr (fun c'' hstep => hend l c'' ⟨hl, hstep⟩)
      exact ⟨h.output_empty (hnone .clientRead trivial), fun i => h.stuck hdefined' hnone⟩
    · rintro ⟨houtput, hstuck⟩ l c'' ⟨hl, hstep⟩
      have hstep : c'.step l = some c'' := hstep
      rw [Collector.stuck_step hstuck houtput hl] at hstep
      cases hstep
  constructor
  · intro ls' c' hrun'
    obtain ⟨hkept, hle⟩ := hrun'.length_add_le hreached
      Collector.internalStep_lowers
    exact ⟨hle, hend hkept⟩
  · obtain ⟨ls', c', hrun', hstuck⟩ := exists_run_to_end hreached
      Collector.internalStep_lowers
    have hkept := (hrun'.length_add_le hreached
      Collector.internalStep_lowers).1
    exact ⟨ls', c', hrun', (hend hkept).mp hstuck⟩

/-- A datagram of domain 8 whose segmentation option has length 0. -/
def endlessDatagram : ReceivedMessage where
  heap := .zeroed
  datagram := [33, 14, 0, 14, 0, 0, 0, 8, 0, 0, 0, 1, 1, 0]
  datagram_le := by decide
  src := ⟨[]⟩
  dest := none

/-- It is parsed while a packet waits behind it and the other parser has two of three
segments. -/
def busyEvents : List (CollectorEvent smallOptions) :=
  [.receive (threePart 2).zeroed, .receive endlessDatagram, .read (smallParser 0),
    .receive (wholePacket 1).zeroed, .receive (threePart 0).zeroed, .read (smallParser 1),
    .receive (threePart 1).zeroed, parseNow 1, .read (smallParser 1)]

/-- From there it is at most 14 steps to an end. -/
theorem busy_drains_in_14 : ∃ c : Collector smallOptions,
    Run Collector.Step (.init smallOptions) busyEvents c ∧
      (∀ ls' c', Run Collector.InternalStep c ls' c' → ls'.length ≤ 14) ∧
      ∃ ls' c', Run Collector.InternalStep c ls' c' ∧ c'.output.Holds [] ∧
        ∀ i, (c'.parsers i).Stuck false := by
  have hafter : (busyEvents.foldlM Collector.step (.init smallOptions)).map Collector.work =
      some 14 := by decide +kernel
  obtain ⟨c, hfold, hwork⟩ := Option.map_eq_some_iff.mp hafter
  have hrun : Run Collector.Step (.init smallOptions) busyEvents c := run_iff_foldlM.mpr hfold
  have hdefined : NoneBeyondTable busyEvents := fun _ _ hlegacy => absurd hlegacy (by decide)
  obtain ⟨hbounded, hend⟩ := collector_drains hdefined hrun
  refine ⟨c, hrun, fun ls' c' hrun' => ?_, hend⟩
  have hle := (hbounded ls' c' hrun').1
  omega

end UdpNotif
