import UdpNotif.ParsingWorker.ParserInvariant

/-!
A parser on its own: the loop of `parser` on the elements it reads, with what it
hands to the output queue and whether it has returned. A collector is compared
with one such parser for each of its threads.
-/

namespace UdpNotif

open Runs

/-- The state of a parser, the messages it handed over and whether it returned. -/
structure LoneParser where
  state : ParserState
  handed : List UnyteSegMet
  returned : Bool

namespace LoneParser

/-- A parser that has read nothing. -/
def init : LoneParser := ⟨.init, [], false⟩

/-- What an event does to a parser; `none` if its iteration does not end or is
undefined, and for packets after it has returned. -/
def step (legacyProto : Bool) (p : LoneParser) : ParserEvent → Option LoneParser
  | .packet queueData malloc now =>
      if p.returned then none
      else
        match parserIteration legacyProto malloc now p.state queueData with
        | .continued state written => some { p with state, handed := p.handed ++ written.toList }
        | .stopped => some { p with returned := true }
        | .diverges | .undefined => none
  | .requestCleanup => some { p with
      state := { p.state with segmentBuff := p.state.segmentBuff.requestCleanup } }

/-- The steps of a parser on its own. -/
def Step (legacyProto : Bool) (p : LoneParser) (l : ParserEvent) (p' : LoneParser) : Prop :=
  p.step legacyProto l = some p'

end LoneParser

/-- The element of an event. -/
def ParserEvent.queueData? : ParserEvent → Option UnyteMin
  | packet queueData _ _ => some queueData
  | requestCleanup => none

/-- The allocator and the clock of an event. -/
def ParserEvent.environment : ParserEvent → Option ((Nat → Bool) × Int)
  | packet _ malloc now => some (malloc, now)
  | requestCleanup => none

/-- The elements of a sequence of events. -/
def packets (events : List ParserEvent) : List UnyteMin :=
  events.filterMap ParserEvent.queueData?

theorem packets_packet (events : List ParserEvent) (queueData : UnyteMin) (malloc : Nat → Bool)
    (now : Int) :
    packets (events ++ [.packet queueData malloc now]) = packets events ++ [queueData] := by
  simp [packets, ParserEvent.queueData?]

theorem packets_requestCleanup (events : List ParserEvent) :
    packets (events ++ [.requestCleanup]) = packets events := by
  simp [packets, ParserEvent.queueData?]

/-- The observation domain id in the header of a datagram. -/
def UnyteMin.domain (queueData : UnyteMin) : Uint32 :=
  ntohl (deserializeUint32 queueData.buffer.val 4)

theorem parseFunc_domain {legacyProto : Bool} {um : UnyteMin} {parsed : UnyteSegMet}
    (h : parseFunc legacyProto um.buffer.val um = .ok parsed) :
    parsed.header.observationDomainId = um.domain := by
  cases legacyProto with
  | false =>
      obtain ⟨s, _, _, rfl⟩ := (parseWithMetadata_eq_ok_iff _ _ _).mp h
      rfl
  | true =>
      obtain ⟨mediaType, _, _, rfl⟩ := (parseWithMetadataLegacy_eq_ok_iff _ _ _).mp h
      rfl

/-- A message assembled from segments has the observation domain id of the
segment that completed it. -/
theorem finishSegment_domain {malloc : Nat → Bool} {now : Int} {st st' : ParserState}
    {parsed message : UnyteSegMet} {insertRes : Int} {buf : SegmentBuffer}
    (h : finishSegment malloc now st parsed insertRes buf = .continued st' (some message)) :
    message.header.observationDomainId = parsed.header.observationDomainId := by
  simp only [finishSegment] at h
  generalize (if insertRes = -3 then st.maxMallocErrs - 1 else st.maxMallocErrs) = mallocErrs at h
  split at h
  · cases h
  · split at h
    · cases h
    · split at h
      · split at h
        · cases h
        · rename_i msgSegList _
          unfold createAssembledMsg at h
          cases hpayload : reassemblePayload malloc msgSegList with
          | none => simp [hpayload] at h
          | some payload =>
              cases hoptions : msgSegList.optionsHead with
              | none => simp [hpayload, hoptions] at h
              | some options =>
                  simp only [hpayload, hoptions] at h
                  obtain ⟨_, hmessage⟩ := ParserOutcome.continued.inj h
                  obtain rfl := Option.some.inj hmessage
                  rfl
      · cases h

/-- A parser keeps the observation domain id of its datagram. -/
theorem parserIteration_domain {legacyProto : Bool} {malloc : Nat → Bool} {now : Int}
    {st st' : ParserState} {queueData : UnyteMin} {message : UnyteSegMet}
    (h : parserIteration legacyProto malloc now st queueData = .continued st' (some message)) :
    message.header.observationDomainId = queueData.domain := by
  cases hparse : parseFunc legacyProto queueData.buffer.val queueData with
  | ok parsed =>
      rw [parserIteration_ok hparse, handleParsed] at h
      rw [← parseFunc_domain hparse]
      split at h
      · split at h
        · cases h
        · exact finishSegment_domain h
      · obtain ⟨_, hmessage⟩ := ParserOutcome.continued.inj h
        rw [Option.some.inj hmessage]
  | diverges | undefined | null =>
      rw [parserIteration, hparse] at h
      cases h

namespace LoneParser

variable {legacyProto : Bool} {p p' : LoneParser} {events : List ParserEvent}

/-- A parser that handles an element goes on or returns. -/
theorem step_packet_cases {queueData : UnyteMin} {malloc : Nat → Bool} {now : Int}
    (h : Step legacyProto p (.packet queueData malloc now) p') :
    (∃ state written,
      parserIteration legacyProto malloc now p.state queueData = .continued state written ∧
        p' = { p with state, handed := p.handed ++ written.toList }) ∨
    (parserIteration legacyProto malloc now p.state queueData = .stopped ∧
      p' = { p with returned := true }) := by
  simp only [Step, step] at h
  split at h
  · cases h
  · split at h
    · rename_i state written hiteration
      exact Or.inl ⟨state, written, hiteration, (Option.some.inj h).symm⟩
    · rename_i hiteration
      exact Or.inr ⟨hiteration, (Option.some.inj h).symm⟩
    · cases h
    · cases h

theorem step_requestCleanup (h : Step legacyProto p .requestCleanup p') :
    p' = { p with state := { p.state with segmentBuff := p.state.segmentBuff.requestCleanup } } :=
  (Option.some.inj h).symm

/-- A parser is in a reachable state, whether or not it has returned. -/
theorem reachable_of_run (h : Run (Step legacyProto) .init events p) :
    p.state.Reachable legacyProto := by
  refine h.invariant (I := fun _ p => p.state.Reachable legacyProto) ⟨[], .nil⟩ ?_
  rintro _ p l p' _ ⟨ls, hrun⟩ hstep
  cases l with
  | packet queueData malloc now =>
      rcases step_packet_cases hstep with ⟨state, written, hiteration, rfl⟩ | ⟨_, rfl⟩
      · have hpacket : ParserStep legacyProto p.state (.packet queueData malloc now) state :=
          ⟨written, hiteration⟩
        exact ⟨_, hrun.snoc hpacket⟩
      · exact ⟨ls, hrun⟩
  | requestCleanup =>
      rw [step_requestCleanup hstep]
      have hcleanup : ParserStep legacyProto p.state .requestCleanup
          { p.state with segmentBuff := p.state.segmentBuff.requestCleanup } := rfl
      exact ⟨_, hrun.snoc hcleanup⟩

end LoneParser

/-- The message of a datagram that is not a segment, which a parser hands over as
it is. -/
def wholeMessage? (legacyProto : Bool) (queueData : UnyteMin) : Option UnyteSegMet :=
  match parseFunc legacyProto queueData.buffer.val queueData with
  | .ok parsed => if isSegmented parsed.header then none else some parsed
  | .diverges | .undefined | .null => none

/-- A parser parses no segment out of a datagram. -/
def NotSegment (legacyProto : Bool) (queueData : UnyteMin) : Prop :=
  ∀ parsed, parseFunc legacyProto queueData.buffer.val queueData = .ok parsed →
    ¬ isSegmented parsed.header = true

/-- An iteration on a datagram that is not a segment hands over its message. -/
theorem NotSegment.iteration {legacyProto : Bool} {queueData : UnyteMin}
    (h : NotSegment legacyProto queueData) {malloc : Nat → Bool} {now : Int}
    {st state : ParserState} {written : Option UnyteSegMet}
    (hiteration : parserIteration legacyProto malloc now st queueData = .continued state written) :
    written = wholeMessage? legacyProto queueData := by
  cases hparse : parseFunc legacyProto queueData.buffer.val queueData with
  | ok parsed =>
      have hwhole := h parsed hparse
      rw [parserIteration_ok hparse, handleParsed, if_neg hwhole] at hiteration
      simp only [wholeMessage?, hparse, if_neg hwhole]
      exact (ParserOutcome.continued.inj hiteration).2.symm
  | diverges | undefined | null =>
      rw [parserIteration, hparse] at hiteration
      cases hiteration

theorem NotSegment.of_stopped {legacyProto : Bool} {queueData : UnyteMin}
    (h : NotSegment legacyProto queueData) {malloc : Nat → Bool} {now : Int} {st : ParserState}
    (hiteration : parserIteration legacyProto malloc now st queueData = .stopped) :
    wholeMessage? legacyProto queueData = none := by
  cases hparse : parseFunc legacyProto queueData.buffer.val queueData with
  | ok parsed =>
      rw [parserIteration_ok hparse, handleParsed, if_neg (h parsed hparse)] at hiteration
      cases hiteration
  | diverges | undefined | null => simp only [wholeMessage?, hparse]

/-- For an observation domain without segments a parser hands over the messages of
its datagrams, each once and in their order. -/
theorem LoneParser.handed_of_domain {legacyProto : Bool} {domain : Uint32} {p : LoneParser}
    {events : List ParserEvent} (h : Run (Step legacyProto) .init events p)
    (hwhole : ∀ q ∈ packets events, q.domain = domain → NotSegment legacyProto q) :
    p.handed.filter (·.header.observationDomainId = domain) =
      ((packets events).filter (·.domain = domain)).filterMap (wholeMessage? legacyProto) := by
  revert hwhole
  refine h.invariant (I := fun events p =>
    (∀ q ∈ packets events, q.domain = domain → NotSegment legacyProto q) →
      p.handed.filter (·.header.observationDomainId = domain) =
        ((packets events).filter (·.domain = domain)).filterMap (wholeMessage? legacyProto))
    (fun _ => rfl) ?_
  intro events p l p' _ ih hstep hwhole
  cases l with
  | requestCleanup =>
      rw [packets_requestCleanup] at hwhole ⊢
      rw [step_requestCleanup hstep]
      exact ih hwhole
  | packet queueData malloc now =>
      rw [packets_packet] at hwhole ⊢
      have hbefore := ih (fun q hq => hwhole q (List.mem_append_left _ hq))
      have hlast := hwhole queueData (List.mem_append_right _ (List.mem_singleton_self _))
      rw [List.filter_append, List.filterMap_append, ← hbefore]
      rcases step_packet_cases hstep with ⟨state, written, hiteration, rfl⟩ | ⟨hstopped, rfl⟩
      · rw [List.filter_append, List.append_cancel_left_eq]
        by_cases hdomain : queueData.domain = domain
        · have hwritten := (hlast hdomain).iteration hiteration
          cases written with
          | none => simp [hdomain, ← hwritten]
          | some message =>
              have hmessage := (parserIteration_domain hiteration).trans hdomain
              simp [hdomain, ← hwritten, hmessage]
        · rw [List.filter_cons_of_neg (by simpa using hdomain), List.filter_nil]
          cases written with
          | none => rfl
          | some message =>
              have hmessage := parserIteration_domain hiteration
              simp [hmessage, hdomain]
      · by_cases hdomain : queueData.domain = domain
        · have hnone := (hlast hdomain).of_stopped hstopped
          simp [hdomain, hnone]
        · simp [hdomain]

end UdpNotif
