import UdpNotif.ParsingWorker.ParserInvariant
import UdpNotif.SegmentationBuffer.CleanupPass

/-!
The loop of `parser` where any of its allocations may fail. Two failed insertions
are survived and the third ends the loop. The segment buffer is the one in which
entries may lack their list.
-/

namespace UdpNotif

open Runs

/-- Which allocations of a parse function succeed: those that it comes to before it has
read the header and the options, that of the payload, and that of the parsed segment. -/
structure ParseMallocs where
  header : Bool
  payload : Bool
  segment : Bool

/-- No allocation of a parse function fails. -/
def ParseMallocs.all : ParseMallocs := ⟨true, true, true⟩

/-- Which allocations of an iteration succeed: those of the parse function, those of
`insert_segment`, that of a reassembled payload, by its size, and all that
`create_assembled_msg` asks for. -/
structure ParserMallocs where
  parse : ParseMallocs
  insert : InsertMallocs
  payload : Nat → Bool
  message : Bool

/-- Only the payload of a reassembled message may fail to be allocated. -/
def ParserMallocs.ofPayload (payload : Nat → Bool) : ParserMallocs := ⟨.all, .all, payload, true⟩

/-- What the parser keeps between iterations. -/
structure RawParserState where
  segmentBuff : RawBuffer
  maxMallocErrs : Int

/-- The state of a parser whose entries all have their list. -/
def ParserState.raw (st : ParserState) : RawParserState := ⟨st.segmentBuff.raw, st.maxMallocErrs⟩

/-- How one iteration of the parser ends. -/
inductive RawOutcome where
  | diverges
  | undefined
  | stopped
  | continued (state : RawParserState) (written : Option UnyteSegMet)

/-- The message that an iteration hands over. -/
def RawOutcome.written : RawOutcome → Option UnyteSegMet
  | continued _ written => written
  | diverges | undefined | stopped => none

def ParserOutcome.raw : ParserOutcome → RawOutcome
  | diverges => .diverges
  | undefined => .undefined
  | stopped => .stopped
  | continued state written => .continued state.raw written

/-- The buffer behind the label `clear_and_cleanup_buffer`. -/
def RawBuffer.clearMessage (buf : RawBuffer) (k : MessageKey) : Option RawBuffer :=
  (buf.clear k).map fun (_, buf) => { buf with count := buf.count - 1 }

/-- The clean up at the end of an iteration. -/
def RawBuffer.cleanupIfDue (now : Int) (buf : RawBuffer) : Option RawBuffer :=
  if buf.cleanup && BitVec.ofNat 32 cleanCountMax < buf.count then
    buf.cleanupSegBuff now cleanUpPassSize
  else some buf

/-- The end of an iteration, undefined where the buffer is. -/
def RawOutcome.ofBuffer (segmentBuff : Option RawBuffer) (maxMallocErrs : Int)
    (written : Option UnyteSegMet) : RawOutcome :=
  segmentBuff.elim .undefined fun segmentBuff =>
    .continued { segmentBuff, maxMallocErrs } written

/-- The branch of the parser for a segmented message, from the return code of
`insert_segment` on. -/
def finishSegmentWith (mallocs : ParserMallocs) (now : Int) (st : RawParserState)
    (parsed : UnyteSegMet) (insertRes : Int) (buf : RawBuffer) : RawOutcome :=
  let maxMallocErrs := if insertRes = -3 then st.maxMallocErrs - 1 else st.maxMallocErrs
  if insertRes = -1 then .continued { st with segmentBuff := buf } none
  else if insertRes = -3 ∧ maxMallocErrs ≤ 0 then .stopped
  else if insertRes = 1 ∨ insertRes = -2 then
    match buf.listOf? parsed.key with
    | none => .undefined
    | some msgSegList =>
        let completeMsg :=
          if mallocs.message then reassemblePayload mallocs.payload msgSegList else none
        let cleared := (buf.clearMessage parsed.key).bind (RawBuffer.cleanupIfDue now)
        match createAssembledMsg completeMsg parsed
          (msgSegList.totalPayloadByteSize.setWidth 16) msgSegList.optionsHead
          msgSegList.optionsLength with
        | .ok parsedMsg => .ofBuffer cleared maxMallocErrs (some parsedMsg)
        | .null => .ofBuffer cleared maxMallocErrs none
        | .undefined | .diverges => .undefined
  else .ofBuffer (buf.cleanupIfDue now) maxMallocErrs none

/-- What the parse function returns. -/
def parseFuncWith (mallocs : ParserMallocs) (legacyProto : Bool) (queueData : UnyteMin) :
    ParseResult :=
  if mallocs.parse.header then
    match parseFunc legacyProto queueData.buffer.val queueData with
    | .ok parsed => if mallocs.parse.payload && mallocs.parse.segment then .ok parsed else .null
    | .null => .null
    | .undefined => .undefined
    | .diverges => .diverges
  else .null

/-- The call of `insert_segment` for a parsed segment, undefined if the segment has no
number. -/
def RawParserState.insertParsed (mallocs : ParserMallocs) (st : RawParserState)
    (parsed : UnyteSegMet) : Option (Int × RawBuffer) :=
  parsed.header.segmentation.bind fun seg =>
    st.segmentBuff.insertWith mallocs.insert parsed.key (segmentCall parsed seg)

/-- What an iteration does with a parsed segment. -/
def handleParsedWith (mallocs : ParserMallocs) (now : Int) (st : RawParserState)
    (parsed : UnyteSegMet) : RawOutcome :=
  if isSegmented parsed.header then
    match st.insertParsed mallocs parsed with
    | none => .undefined
    | some (insertRes, buf) => finishSegmentWith mallocs now st parsed insertRes buf
  else .continued st (some parsed)

/-- One iteration of the loop of `parser`. -/
def parserIterationWith (legacyProto : Bool) (mallocs : ParserMallocs) (now : Int)
    (st : RawParserState) (queueData : UnyteMin) : RawOutcome :=
  match parseFuncWith mallocs legacyProto queueData with
  | .diverges => .diverges
  | .undefined => .undefined
  | .null => .stopped
  | .ok parsed => handleParsedWith mallocs now st parsed

/-- A parsed segment is inserted, and the insertion returns `-3`. -/
def RawParserState.insertionFails (mallocs : ParserMallocs) (st : RawParserState)
    (parsed : UnyteSegMet) : Bool :=
  isSegmented parsed.header &&
    (st.insertParsed mallocs parsed).any (fun inserted => inserted.1 = -3)

/-- The insertion of an iteration returns `-3`. -/
def insertionFails (legacyProto : Bool) (mallocs : ParserMallocs) (st : RawParserState)
    (queueData : UnyteMin) : Bool :=
  match parseFuncWith mallocs legacyProto queueData with
  | .ok parsed => st.insertionFails mallocs parsed
  | .diverges | .undefined | .null => false

/-- The buffer that a parser leaves behind where it returns: its last insertion may have
changed it. -/
def RawParserState.left (legacyProto : Bool) (mallocs : ParserMallocs) (st : RawParserState)
    (queueData : UnyteMin) : RawBuffer :=
  match parseFuncWith mallocs legacyProto queueData with
  | .ok parsed => (st.insertParsed mallocs parsed).elim st.segmentBuff Prod.snd
  | .diverges | .undefined | .null => st.segmentBuff

/-- A parser, the insertions of it that have failed, and whether it has returned. -/
structure RawParser where
  state : RawParserState
  failures : Nat
  returned : Bool

/-- What happens to a parser. -/
inductive RawParserEvent where
  | packet (queueData : UnyteMin) (mallocs : ParserMallocs) (now : Int)
  | requestCleanup

namespace RawParser

/-- A parser that has read nothing. -/
def init : RawParser := ⟨ParserState.init.raw, 0, false⟩

/-- What an event does to a parser; `none` if its iteration does not end or is
undefined, and for packets after it has returned. -/
def step (legacyProto : Bool) (p : RawParser) : RawParserEvent → Option RawParser
  | .packet queueData mallocs now =>
      if p.returned then none
      else
        let failures :=
          p.failures + (insertionFails legacyProto mallocs p.state queueData).toNat
        match parserIterationWith legacyProto mallocs now p.state queueData with
        | .continued state _ => some { p with state, failures }
        | .stopped => some {
            state := { p.state with
              segmentBuff := p.state.left legacyProto mallocs queueData }
            failures
            returned := true }
        | .diverges | .undefined => none
  | .requestCleanup => some { p with
      state := { p.state with segmentBuff := { p.state.segmentBuff with cleanup := true } } }

/-- The steps of a parser. -/
def Step (legacyProto : Bool) (p : RawParser) (l : RawParserEvent) (p' : RawParser) : Prop :=
  p.step legacyProto l = some p'

end RawParser

/-- A list without a head of its options has no segment. -/
def MessageSegmentList.KeepsOptions (head : MessageSegmentList) : Prop :=
  head.optionsHead = none → head.cells = []

theorem keepsOptions_keptByVisits : KeptByVisits MessageSegmentList.KeepsOptions := by
  intro now head head' hkeeps hvisit
  obtain ⟨_, rfl⟩ | ⟨_, _, rfl⟩ := visitHead_cases hvisit
  · exact hkeeps
  · exact hkeeps

section Insert

variable {mallocs : InsertMallocs} (hmalloc : mallocs.optionsHead = true)
include hmalloc

/-- A linked cell has its options spliced into the list. -/
theorem linkSegmentWith_optionsHead (head : MessageSegmentList) (cells : List MessageSegmentCell)
    (payloadSize : Uint32) {options : Option (List UnyteOption)} (hoptions : options ≠ none) :
    (linkSegmentWith mallocs.optionsHead head cells payloadSize options).2.optionsHead ≠ none := by
  obtain ⟨added, rfl⟩ := Option.ne_none_iff_exists'.mp hoptions
  rw [hmalloc, linkSegmentWith_true]
  exact Option.some_ne_none _

/-- An insert that can allocate a head of options keeps one where there are segments. -/
theorem insertIntoMslWith_keepsOptions {head : MessageSegmentList} (h : head.KeepsOptions)
    {c : InsertCall} (hoptions : c.options ≠ none) :
    (insertIntoMslWith mallocs head c).2.KeepsOptions ∧
      ((insertIntoMslWith mallocs head c).1 = 1 ∨ (insertIntoMslWith mallocs head c).1 = -2 →
        (insertIntoMslWith mallocs head c).2.optionsHead ≠ none) := by
  have hfailed : ¬ ((-3 : Int) = 1 ∨ (-3 : Int) = -2) := by decide
  simp only [insertIntoMslWith, c.announce_eq]
  cases hdrop : head.cells.dropWhile (fun d => decide (d.seqnum < c.seqnum)) with
  | nil =>
      cases hcell : mallocs.segmentCell with
      | true =>
          have hlinked := linkSegmentWith_optionsHead hmalloc
            { head with totalSize := if c.last = 1 then c.seqnum + 1 else head.totalSize }
            (head.cells.takeWhile (fun d => decide (d.seqnum < c.seqnum)) ++ [c.cell])
            c.payloadSize hoptions
          exact ⟨fun hnone => absurd hnone hlinked, fun _ => hlinked⟩
      | false =>
          simp only [Bool.false_eq_true, if_false]
          exact ⟨h, fun hcode => absurd hcode hfailed⟩
  | cons d rest =>
      have hsegments : head.optionsHead ≠ none := by
        intro hnone
        rw [h hnone] at hdrop
        cases hdrop
      by_cases hd : d.seqnum = c.seqnum
      · simp only [if_pos hd]
        exact ⟨fun hnone => absurd hnone hsegments, fun _ => hsegments⟩
      · simp only [if_neg hd]
        cases hcell : mallocs.segmentCell with
        | true =>
            have hlinked := linkSegmentWith_optionsHead hmalloc
              { head with totalSize := if c.last = 1 then c.seqnum + 1 else head.totalSize }
              (head.cells.takeWhile (fun d => decide (d.seqnum < c.seqnum)) ++ c.cell :: d :: rest)
              c.payloadSize hoptions
            exact ⟨fun hnone => absurd hnone hlinked, fun _ => hlinked⟩
        | false =>
            simp only [Bool.false_eq_true, if_false]
            exact ⟨fun hnone => absurd hnone hsegments, fun hcode => absurd hcode hfailed⟩

end Insert

section Finish

variable {mallocs : ParserMallocs} {now : Int} {st st' : RawParserState} {parsed : UnyteSegMet}
  {insertRes : Int} {buf : RawBuffer} {written : Option UnyteSegMet}

/-- The end of an iteration that goes on. -/
theorem RawOutcome.ofBuffer_continued {segmentBuff : Option RawBuffer} {maxMallocErrs : Int}
    {written written' : Option UnyteSegMet}
    (h : ofBuffer segmentBuff maxMallocErrs written = .continued st' written') :
    segmentBuff = some st'.segmentBuff := by
  cases segmentBuff with
  | none => cases h
  | some buf =>
      obtain ⟨rfl, _⟩ := RawOutcome.continued.inj h
      rfl

theorem RawOutcome.ofBuffer_written {segmentBuff : Option RawBuffer} {maxMallocErrs : Int}
    {written written' : Option UnyteSegMet}
    (h : ofBuffer segmentBuff maxMallocErrs written = .continued st' written') :
    written' = written := by
  cases segmentBuff with
  | none => cases h
  | some buf => exact (RawOutcome.continued.inj h).2.symm

/-- An iteration goes on unless its insertion was the last one that may fail. -/
theorem finishSegmentWith_goes
    (hend : finishSegmentWith mallocs now st parsed insertRes buf = .continued st' written) :
    ¬ (insertRes = -3 ∧
      (if insertRes = -3 then st.maxMallocErrs - 1 else st.maxMallocErrs) ≤ 0) := by
  intro hreturns
  rw [finishSegmentWith, if_neg (by omega), if_pos hreturns] at hend
  cases hend

/-- What an iteration that goes on leaves and writes, from the code of its insertion on: a
repeated segment is dropped, a complete message is taken out of the buffer and written where
it can be allocated, and any other segment stays. -/
theorem finishSegmentWith_continued
    (hend : finishSegmentWith mallocs now st parsed insertRes buf = .continued st' written) :
    (insertRes = -1 ∧ st'.segmentBuff = buf ∧ written = none) ∨
    ((insertRes = 1 ∨ insertRes = -2) ∧ ∃ head cleared, buf.listOf? parsed.key = some head ∧
      buf.clearMessage parsed.key = some cleared ∧
      cleared.cleanupIfDue now = some st'.segmentBuff ∧
      written = if mallocs.message = true ∧
          mallocs.payload head.totalPayloadByteSize.toNat = true then
        some (assembledMsg (head.cells.flatMap (fun d => d.content.take d.contentSize.toNat))
          parsed (head.totalPayloadByteSize.setWidth 16) (head.optionsHead.getD [])
          head.optionsLength)
      else none) ∨
    (insertRes ≠ -1 ∧ ¬ (insertRes = 1 ∨ insertRes = -2) ∧
      buf.cleanupIfDue now = some st'.segmentBuff ∧ written = none) := by
  have hgoes := finishSegmentWith_goes hend
  unfold finishSegmentWith at hend
  simp only [if_neg hgoes] at hend
  by_cases hpresent : insertRes = -1
  · rw [if_pos hpresent] at hend
    obtain ⟨rfl, hnone⟩ := RawOutcome.continued.inj hend
    exact Or.inl ⟨hpresent, rfl, hnone.symm⟩
  · rw [if_neg hpresent] at hend
    by_cases hreports : insertRes = 1 ∨ insertRes = -2
    · rw [if_pos hreports] at hend
      cases hlist : buf.listOf? parsed.key with
      | none =>
          rw [hlist] at hend
          cases hend
      | some head =>
          rw [hlist] at hend
          simp only at hend
          have hafter {segmentBuff : Option RawBuffer} {errs : Int}
              (hcleared : segmentBuff = (buf.clearMessage parsed.key).bind
                (RawBuffer.cleanupIfDue now)) {written' : Option UnyteSegMet}
              (hbuffer : RawOutcome.ofBuffer segmentBuff errs written' =
                .continued st' written) :
              ∃ cleared, buf.clearMessage parsed.key = some cleared ∧
                cleared.cleanupIfDue now = some st'.segmentBuff ∧ written = written' := by
            have hsome := hcleared.symm.trans (RawOutcome.ofBuffer_continued hbuffer)
            obtain ⟨cleared, hclear, hclean⟩ := Option.bind_eq_some_iff.mp hsome
            exact ⟨cleared, hclear, hclean, RawOutcome.ofBuffer_written hbuffer⟩
          refine Or.inr (Or.inl ⟨hreports, head, ?_⟩)
          by_cases hmallocs : mallocs.message = true ∧
              mallocs.payload head.totalPayloadByteSize.toNat = true
          · rw [if_pos hmallocs.1, reassemblePayload, if_pos hmallocs.2] at hend
            cases hoptions : head.optionsHead with
            | none =>
                rw [hoptions] at hend
                cases hend
            | some options =>
                rw [hoptions] at hend
                obtain ⟨cleared, hclear, hclean, hwritten⟩ := hafter rfl hend
                exact ⟨cleared, rfl, hclear, hclean, by rw [if_pos hmallocs]; exact hwritten⟩
          · have hnone : (if mallocs.message then reassemblePayload mallocs.payload head
                else none) = none := by
              cases hmessage : mallocs.message with
              | false => rfl
              | true =>
                  rw [if_pos rfl, reassemblePayload]
                  exact if_neg fun hpayload => hmallocs ⟨hmessage, hpayload⟩
            rw [hnone] at hend
            obtain ⟨cleared, hclear, hclean, hwritten⟩ := hafter rfl hend
            exact ⟨cleared, rfl, hclear, hclean, by rw [if_neg hmallocs]; exact hwritten⟩
    · rw [if_neg hreports] at hend
      exact Or.inr (Or.inr ⟨hpresent, hreports, RawOutcome.ofBuffer_continued hend,
        RawOutcome.ofBuffer_written hend⟩)

/-- An iteration that goes on has parsed a message, which it writes, or a segment, which it
inserts. -/
theorem parserIterationWith_eq_continued {legacyProto : Bool} {queueData : UnyteMin}
    (hend : parserIterationWith legacyProto mallocs now st queueData = .continued st' written) :
    ∃ parsed, parseFuncWith mallocs legacyProto queueData = .ok parsed ∧
      ((isSegmented parsed.header = false ∧ st' = st ∧ written = some parsed) ∨
      (isSegmented parsed.header = true ∧ ∃ insertRes buf,
        st.insertParsed mallocs parsed = some (insertRes, buf) ∧
        finishSegmentWith mallocs now st parsed insertRes buf = .continued st' written)) := by
  unfold parserIterationWith at hend
  cases hparse : parseFuncWith mallocs legacyProto queueData with
  | diverges | undefined | null =>
      rw [hparse] at hend
      cases hend
  | ok parsed =>
      rw [hparse] at hend
      simp only [handleParsedWith] at hend
      refine ⟨parsed, rfl, ?_⟩
      split at hend
      · next hsegmented =>
          cases hinsert : st.insertParsed mallocs parsed with
          | none =>
              rw [hinsert] at hend
              cases hend
          | some inserted =>
              rw [hinsert] at hend
              exact Or.inr ⟨hsegmented, inserted.1, inserted.2, rfl, hend⟩
      · next hwhole =>
          obtain ⟨rfl, rfl⟩ := RawOutcome.continued.inj hend
          exact Or.inl ⟨Bool.eq_false_iff.mpr hwhole, rfl, rfl⟩

end Finish

/-- A packet leads to an iteration that goes on or returns. -/
theorem RawParser.step_packet {legacyProto : Bool} {p p' : RawParser} {queueData : UnyteMin}
    {mallocs : ParserMallocs} {now : Int}
    (hstep : p.step legacyProto (.packet queueData mallocs now) = some p') :
    p.returned = false ∧
      ((p'.returned = false ∧ ∃ written,
        parserIterationWith legacyProto mallocs now p.state queueData =
          .continued p'.state written) ∨
      (p'.returned = true ∧
        parserIterationWith legacyProto mallocs now p.state queueData = .stopped ∧
        p'.state.segmentBuff = p.state.left legacyProto mallocs queueData)) := by
  rw [RawParser.step, Option.ite_none_left_eq_some] at hstep
  obtain ⟨hgoes, hstep⟩ := hstep
  rw [Bool.not_eq_true] at hgoes
  refine ⟨hgoes, ?_⟩
  cases hend : parserIterationWith legacyProto mallocs now p.state queueData with
  | diverges | undefined =>
      rw [hend] at hstep
      cases hstep
  | continued state written =>
      rw [hend] at hstep
      obtain rfl := Option.some.inj hstep
      exact Or.inl ⟨hgoes, written, rfl⟩
  | stopped =>
      rw [hend] at hstep
      obtain rfl := Option.some.inj hstep
      exact Or.inr ⟨rfl, rfl, rfl⟩

section Raw

variable (buf : SegmentBuffer)

theorem SegmentBuffer.raw_listOf? (k : MessageKey) : buf.raw.listOf? k = buf.lookup k := by
  calc buf.raw.listOf? k = ((buf.raw.lookup k).map RawCell.head).bind id := by
        rw [Option.bind_map]
        rfl
    _ = ((buf.lookup k).map some).bind id := by rw [buf.raw_lookup]
    _ = buf.lookup k := Option.bind_map.trans (Option.bind_fun_some _)

theorem SegmentBuffer.raw_clearMessage (k : MessageKey) :
    buf.raw.clearMessage k = some (UdpNotif.clearMessage buf k.1 k.2).raw := by
  rw [RawBuffer.clearMessage, buf.raw_clear, Option.map_some]
  rfl

theorem SegmentBuffer.raw_cleanupIfDue (h : buf.WellFormed) (now : Int) :
    buf.raw.cleanupIfDue now = some (UdpNotif.cleanupIfDue now buf).raw := by
  unfold RawBuffer.cleanupIfDue UdpNotif.cleanupIfDue
  by_cases hdue : (buf.cleanup && BitVec.ofNat 32 cleanCountMax < buf.count) = true
  · exact (if_pos hdue).trans (by rw [if_pos hdue, buf.raw_cleanupSegBuff h])
  · exact (if_neg hdue).trans (by rw [if_neg hdue])

end Raw

/-- A buffer that is left by insertions which could allocate lists and heads of options. -/
structure SegmentBuffer.Usable (buf : SegmentBuffer) : Prop where
  reachable : ReachableBuffer buf
  options : buf.All MessageSegmentList.KeepsOptions

namespace SegmentBuffer.Usable

variable {buf : SegmentBuffer} (h : buf.Usable)
include h

/-- Insertions that can allocate lists and heads of options leave a usable buffer, and
what they report as complete has options. -/
theorem insertWith {mallocs : InsertMallocs} (hlist : mallocs.messageList = true)
    (hhead : mallocs.optionsHead = true) (k : MessageKey) {c : InsertCall}
    (hoptions : c.options ≠ none) :
    ∃ buf' : SegmentBuffer, (buf.insertWith mallocs k c).2 = buf'.raw ∧ buf'.Usable ∧
      ((buf.insertWith mallocs k c).1 = 1 ∨ (buf.insertWith mallocs k c).1 = -2 →
        ∃ head, buf'.lookup k = some head ∧ head.optionsHead ≠ none) := by
  have hafter {buf' : SegmentBuffer} (heq : (buf.insertWith mallocs k c).2 = buf'.raw)
      (hall : buf'.All MessageSegmentList.KeepsOptions) : buf'.Usable :=
    ⟨h.reachable.insert mallocs k c heq, hall⟩
  have hfailed : ¬ ((-3 : Int) = 1 ∨ (-3 : Int) = -2) := by decide
  rcases SegmentBuffer.insertWith_cases mallocs buf k c with ⟨_, _, heq⟩ | ⟨_, _, heq⟩ |
    ⟨_, _, _, hnull, _⟩ | ⟨_, _, heq⟩ | ⟨head, hfound, heq⟩
  · refine ⟨buf, by rw [heq], h, ?_⟩
    rw [heq]
    exact fun hcode => absurd hcode hfailed
  · refine ⟨_, by rw [heq], hafter (by rw [heq]) fun j head hj => ?_, ?_⟩
    · rw [buf.lookup_setChain_self] at hj
      exact h.options j head hj
    · rw [heq]
      exact fun hcode => absurd hcode hfailed
  · rw [hlist] at hnull
    cases hnull
  · have hempty : (createMessageSegmentList k.1 k.2).KeepsOptions := fun _ => rfl
    obtain ⟨hkeeps, hcomplete⟩ := insertIntoMslWith_keepsOptions hhead hempty hoptions
    have hall : SegmentBuffer.All MessageSegmentList.KeepsOptions
        { buf with count := buf.count + 1 } := h.options
    refine ⟨_, by rw [heq], hafter (by rw [heq]) (hall.store k hkeeps), fun hcode => ?_⟩
    rw [heq] at hcode
    exact ⟨_, (SegmentBuffer.store_lookup _ _ _ _).trans (if_pos rfl), hcomplete hcode⟩
  · obtain ⟨hkeeps, hcomplete⟩ :=
      insertIntoMslWith_keepsOptions hhead (h.options k head hfound) hoptions
    refine ⟨_, by rw [heq], hafter (by rw [heq]) (h.options.store k hkeeps), fun hcode => ?_⟩
    rw [heq] at hcode
    exact ⟨_, (SegmentBuffer.store_lookup _ _ _ _).trans (if_pos rfl), hcomplete hcode⟩

/-- A message that is stored can be cleared. -/
theorem clearMessage {k : MessageKey} (hstored : buf.lookup k ≠ none) :
    (UdpNotif.clearMessage buf k.1 k.2).Usable := by
  have hcount : (clearSegmentList buf k.1 k.2).2.count = buf.count := by
    rw [clearSegmentList_eq]
    split <;> rfl
  refine ⟨?_, SegmentBuffer.All.clearMessage h.reachable.sound.wellFormed h.options k.1 k.2⟩
  rw [UdpNotif.clearMessage, hcount]
  exact h.reachable.clear k hstored

theorem cleanupIfDue (now : Int) : (UdpNotif.cleanupIfDue now buf).Usable := by
  refine ⟨?_, SegmentBuffer.All.cleanupIfDue h.reachable.sound.wellFormed h.options
    keepsOptions_keptByVisits now⟩
  unfold UdpNotif.cleanupIfDue
  split
  · exact h.reachable.cleanup now _
  · exact h.reachable

end SegmentBuffer.Usable

theorem createSegmentBuffer_usable : createSegmentBuffer.Usable :=
  ⟨.create, by rintro _ _ ⟨⟩⟩

/-- The allocations of an iteration that `insert_segment` does not survive on its own:
that of a list, and that of a head of options. -/
structure ParserMallocs.SparesLists (mallocs : ParserMallocs) : Prop where
  list : mallocs.insert.messageList = true
  head : mallocs.insert.optionsHead = true

/-- A state that a parser can go on from. -/
def RawParserState.Usable (st : RawParserState) : Prop :=
  ∃ buf : SegmentBuffer, st.segmentBuff = buf.raw ∧ buf.Usable

/-- A parser that does not return at a segment goes on, one allowed failure poorer if the
insertion failed. -/
theorem finishSegmentWith_usable (mallocs : ParserMallocs) (now : Int) (st : RawParserState)
    (parsed : UnyteSegMet) {insertRes : Int} {buf : SegmentBuffer} (hbuf : buf.Usable)
    (hcomplete : insertRes = 1 ∨ insertRes = -2 →
      ∃ head, buf.lookup parsed.key = some head ∧ head.optionsHead ≠ none)
    (hgoes : ¬ (insertRes = -3 ∧ st.maxMallocErrs ≤ 1)) :
    ∃ st' written,
      finishSegmentWith mallocs now st parsed insertRes buf.raw = .continued st' written ∧
      st'.Usable ∧ st'.maxMallocErrs =
        if insertRes = -3 then st.maxMallocErrs - 1 else st.maxMallocErrs := by
  have hreturns : ¬ (insertRes = -3 ∧
      (if insertRes = -3 then st.maxMallocErrs - 1 else st.maxMallocErrs) ≤ 0) := by
    rintro ⟨hfailed, herrs⟩
    rw [if_pos hfailed] at herrs
    exact hgoes ⟨hfailed, by omega⟩
  unfold finishSegmentWith
  simp only [if_neg hreturns]
  by_cases hpresent : insertRes = -1
  · rw [if_pos hpresent]
    refine ⟨_, _, rfl, ⟨buf, rfl, hbuf⟩, ?_⟩
    rw [if_neg (by omega)]
  · rw [if_neg hpresent]
    by_cases hreports : insertRes = 1 ∨ insertRes = -2
    · obtain ⟨head, hfound, hoptions⟩ := hcomplete hreports
      obtain ⟨options, hoptions⟩ := Option.ne_none_iff_exists'.mp hoptions
      have hcleared : (clearMessage buf parsed.key.1 parsed.key.2).Usable :=
        hbuf.clearMessage (by rw [hfound]; exact Option.some_ne_none head)
      rw [if_pos hreports, buf.raw_listOf?, hfound, buf.raw_clearMessage, Option.bind_some,
        SegmentBuffer.raw_cleanupIfDue _ hcleared.reachable.sound.wellFormed]
      simp only [hoptions]
      cases (if mallocs.message then reassemblePayload mallocs.payload head else none) with
      | none => exact ⟨_, none, rfl, ⟨_, rfl, hcleared.cleanupIfDue now⟩, rfl⟩
      | some payload => exact ⟨_, some _, rfl, ⟨_, rfl, hcleared.cleanupIfDue now⟩, rfl⟩
    · rw [if_neg hreports, buf.raw_cleanupIfDue hbuf.reachable.sound.wellFormed]
      exact ⟨_, none, rfl, ⟨_, rfl, hbuf.cleanupIfDue now⟩, rfl⟩

section Iteration

variable {mallocs : ParserMallocs} (hspares : mallocs.SparesLists)
  {st : RawParserState} (h : st.Usable) {parsed : UnyteSegMet} (hparsed : Parsed parsed)
include hspares h hparsed

/-- A segment is inserted into a usable buffer. -/
theorem insertParsed_usable (hsegmented : isSegmented parsed.header = true) :
    ∃ insertRes, ∃ buf : SegmentBuffer,
      st.insertParsed mallocs parsed = some (insertRes, buf.raw) ∧ buf.Usable ∧
      (insertRes = 1 ∨ insertRes = -2 →
        ∃ head, buf.lookup parsed.key = some head ∧ head.optionsHead ≠ none) := by
  obtain ⟨before, hbefore, husable⟩ := h
  obtain ⟨seg, hseg⟩ := Option.ne_none_iff_exists'.mp (hparsed.segmented hsegmented)
  obtain ⟨buf, hbuf, hafter, hcomplete⟩ := husable.insertWith hspares.list hspares.head parsed.key
    (segmentCall_fromParser hparsed seg).options
  refine ⟨_, buf, ?_, hafter, hcomplete⟩
  rw [RawParserState.insertParsed, hseg, Option.bind_some, hbefore,
    SegmentBuffer.raw_insertWith, ← hbuf]

/-- A parsed segment makes a parser return exactly where its insertion fails and no
failure is left, and leaves a usable state otherwise. -/
theorem handleParsedWith_usable (now : Int) :
    if st.insertionFails mallocs parsed = true ∧ st.maxMallocErrs ≤ 1 then
      handleParsedWith mallocs now st parsed = .stopped
    else ∃ st' written, handleParsedWith mallocs now st parsed = .continued st' written ∧
      st'.Usable ∧
      st'.maxMallocErrs = st.maxMallocErrs - (st.insertionFails mallocs parsed).toInt := by
  unfold handleParsedWith RawParserState.insertionFails
  cases hsegmented : isSegmented parsed.header with
  | false =>
      simp only [Bool.false_and, Bool.false_eq_true, false_and, if_false]
      exact ⟨st, some parsed, rfl, h, (Int.sub_zero _).symm⟩
  | true =>
      obtain ⟨insertRes, buf, hinserted, hbuf, hcomplete⟩ :=
        insertParsed_usable hspares h hparsed hsegmented
      simp only [hinserted, Bool.true_and, if_true, Option.any_some, decide_eq_true_eq]
      split
      · next hreturns =>
          obtain ⟨rfl, herrs⟩ := hreturns
          unfold finishSegmentWith
          simp only [if_true]
          rw [if_neg (by decide), if_pos ⟨trivial, by omega⟩]
      · next hgoes =>
          obtain ⟨st', written, hend, husable, herrs⟩ :=
            finishSegmentWith_usable mallocs now st parsed hbuf hcomplete hgoes
          refine ⟨st', written, hend, husable, ?_⟩
          rw [herrs]
          by_cases hfailed : insertRes = -3
          · rw [if_pos hfailed, decide_eq_true hfailed]
            rfl
          · rw [if_neg hfailed, decide_eq_false hfailed]
            exact (Int.sub_zero _).symm

end Iteration

/-- A segment that is returned is the one that is parsed where nothing fails. -/
theorem parseFuncWith_eq_ok {mallocs : ParserMallocs} {legacyProto : Bool} {um : UnyteMin}
    {parsed : UnyteSegMet} (h : parseFuncWith mallocs legacyProto um = .ok parsed) :
    parseFunc legacyProto um.buffer.val um = .ok parsed := by
  unfold parseFuncWith at h
  split at h
  · split at h
    · next hparse =>
        split at h
        · exact hparse.trans h
        · cases h
    · cases h
    · cases h
    · cases h
  · cases h

theorem parseFuncWith_parsed {mallocs : ParserMallocs} {legacyProto : Bool} {um : UnyteMin}
    {parsed : UnyteSegMet} (h : parseFuncWith mallocs legacyProto um = .ok parsed) :
    Parsed parsed := by
  exact parseFunc_parsed (parseFuncWith_eq_ok h)

/-- A failed insertion comes after a parsed segment. -/
theorem insertionFails_of_not_ok {mallocs : ParserMallocs} {legacyProto : Bool}
    {queueData : UnyteMin} (st : RawParserState)
    (h : ∀ parsed, parseFuncWith mallocs legacyProto queueData ≠ .ok parsed) :
    insertionFails legacyProto mallocs st queueData = false := by
  unfold insertionFails
  cases hparse : parseFuncWith mallocs legacyProto queueData with
  | ok parsed => exact absurd hparse (h parsed)
  | diverges | undefined | null => rfl

section Iteration

variable {mallocs : ParserMallocs} (hspares : mallocs.SparesLists)
  {st : RawParserState} (h : st.Usable) (legacyProto : Bool) (now : Int) (queueData : UnyteMin)
include hspares h

/-- Where an iteration does not go on, the parse function or the last allowed failure is
the reason. -/
theorem parserIterationWith_ends :
    (parserIterationWith legacyProto mallocs now st queueData = .undefined ↔
      parseFuncWith mallocs legacyProto queueData = .undefined) ∧
    (parserIterationWith legacyProto mallocs now st queueData = .diverges ↔
      parseFuncWith mallocs legacyProto queueData = .diverges) ∧
    (parserIterationWith legacyProto mallocs now st queueData = .stopped ↔
      parseFuncWith mallocs legacyProto queueData = .null ∨
        (st.maxMallocErrs ≤ 1 ∧ insertionFails legacyProto mallocs st queueData = true)) := by
  unfold parserIterationWith insertionFails
  cases hparse : parseFuncWith mallocs legacyProto queueData with
  | diverges => simp
  | undefined => simp
  | null => simp
  | ok parsed =>
      have hhandled := handleParsedWith_usable hspares h (parseFuncWith_parsed hparse) now
      split at hhandled
      · next hreturns => simp [hhandled, hreturns]
      · next hgoes =>
          obtain ⟨st', written, hend, _⟩ := hhandled
          simp only [hend, reduceCtorEq, false_or, true_and, false_iff, iff_self]
          exact fun hreturns => hgoes hreturns.symm

/-- An iteration that goes on leaves a usable state, one allowed failure poorer if its
insertion failed. -/
theorem parserIterationWith_continued {st' : RawParserState} {written : Option UnyteSegMet}
    (hend : parserIterationWith legacyProto mallocs now st queueData = .continued st' written) :
    st'.Usable ∧ st'.maxMallocErrs =
      st.maxMallocErrs - (insertionFails legacyProto mallocs st queueData).toInt := by
  unfold parserIterationWith at hend
  unfold insertionFails
  cases hparse : parseFuncWith mallocs legacyProto queueData with
  | diverges | undefined | null =>
      rw [hparse] at hend
      cases hend
  | ok parsed =>
      rw [hparse] at hend
      have hhandled := handleParsedWith_usable hspares h (parseFuncWith_parsed hparse) now
      split at hhandled
      · cases hhandled.symm.trans hend
      · obtain ⟨_, _, hgoes, hafter⟩ := hhandled
        cases hgoes.symm.trans hend
        exact hafter

end Iteration

namespace RawParser

/-- What holds of a parser at all times: it has failed at most three times, and as long as
it has not returned it counts its failures down and its buffer is usable. -/
structure Sound (p : RawParser) : Prop where
  failures : p.failures ≤ 3
  counted : p.returned = false → p.failures ≤ 2 ∧ p.state.maxMallocErrs = 3 - p.failures
  usable : p.returned = false → p.state.Usable

theorem init_sound : init.Sound :=
  ⟨by decide, fun _ => ⟨by decide, rfl⟩, fun _ => ⟨_, rfl, createSegmentBuffer_usable⟩⟩

theorem Sound.step {legacyProto : Bool} {p p' : RawParser} {l : RawParserEvent} (h : p.Sound)
    (hspares : ∀ queueData mallocs now, l = .packet queueData mallocs now → mallocs.SparesLists)
    (hstep : Step legacyProto p l p') : p'.Sound := by
  cases l with
  | requestCleanup =>
      obtain rfl := Option.some.inj hstep
      refine ⟨h.failures, h.counted, fun hgoes => ?_⟩
      obtain ⟨buf, hbuf, husable⟩ := h.usable hgoes
      refine ⟨buf.requestCleanup, ?_, husable.reachable.requestCleanup, husable.options⟩
      simp only [hbuf]
      rfl
  | packet queueData mallocs now =>
      have hmallocs := hspares queueData mallocs now rfl
      unfold Step RawParser.step at hstep
      cases hreturned : p.returned with
      | true =>
          rw [hreturned] at hstep
          cases hstep
      | false =>
          obtain ⟨hfailures, herrs⟩ := h.counted hreturned
          have husable := h.usable hreturned
          have hbit := Bool.toNat_le (insertionFails legacyProto mallocs p.state queueData)
          simp only [hreturned, Bool.false_eq_true, if_false] at hstep
          cases hend : parserIterationWith legacyProto mallocs now p.state queueData with
          | diverges | undefined =>
              rw [hend] at hstep
              cases hstep
          | stopped =>
              rw [hend] at hstep
              obtain rfl := Option.some.inj hstep
              exact ⟨by simp only; omega, by rintro ⟨⟩, by rintro ⟨⟩⟩
          | continued state written =>
              obtain ⟨hafter, herrs'⟩ :=
                parserIterationWith_continued hmallocs husable legacyProto now queueData hend
              have hgoes : (insertionFails legacyProto mallocs p.state queueData).toNat = 1 →
                  1 < p.state.maxMallocErrs := by
                intro hfails
                by_contra hle
                have hstopped := (parserIterationWith_ends hmallocs husable legacyProto now
                  queueData).2.2.mpr (Or.inr ⟨Int.not_lt.mp hle, Bool.toNat_eq_one.mp hfails⟩)
                cases hend.symm.trans hstopped
              have htoInt : (insertionFails legacyProto mallocs p.state queueData).toInt =
                  (insertionFails legacyProto mallocs p.state queueData).toNat := by
                cases insertionFails legacyProto mallocs p.state queueData <;> rfl
              rw [hend] at hstep
              obtain rfl := Option.some.inj hstep
              rw [htoInt] at herrs'
              exact ⟨by simp only; omega, fun _ => ⟨by simp only; omega, by simp only; omega⟩,
                fun _ => hafter⟩

theorem Sound.run {legacyProto : Bool} {events : List RawParserEvent} {p : RawParser}
    (hrun : Run (Step legacyProto) init events p)
    (hspares : ∀ queueData mallocs now, .packet queueData mallocs now ∈ events →
      mallocs.SparesLists) : p.Sound := by
  induction hrun with
  | nil => exact init_sound
  | snoc _ hlast ih =>
      refine (ih fun queueData mallocs now hmem =>
        hspares queueData mallocs now (List.mem_append_left _ hmem)).step ?_ hlast
      rintro queueData mallocs now rfl
      exact hspares queueData mallocs now (List.mem_append_right _ (List.mem_singleton_self _))

end RawParser

section Payload

variable (malloc : Nat → Bool) (now : Int) {st : ParserState} (parsed : UnyteSegMet)

theorem finishSegmentWith_raw (insertRes : Int) {buf : SegmentBuffer} (h : buf.WellFormed) :
    finishSegmentWith (.ofPayload malloc) now st.raw parsed insertRes buf.raw =
      (finishSegment malloc now st parsed insertRes buf).raw := by
  have hcleared : (clearMessage buf parsed.key.1 parsed.key.2).WellFormed :=
    clearSegmentList_wellFormed buf parsed.key.1 parsed.key.2 h
  unfold finishSegmentWith finishSegment
  rw [buf.raw_listOf?, buf.raw_clearMessage, Option.bind_some,
    SegmentBuffer.raw_cleanupIfDue _ hcleared, buf.raw_cleanupIfDue h]
  simp only [ParserMallocs.ofPayload, ParserState.raw, UnyteSegMet.key, if_true]
  generalize (if insertRes = -3 then st.maxMallocErrs - 1 else st.maxMallocErrs) = mallocErrs
  by_cases hpresent : insertRes = -1
  · rw [if_pos hpresent, if_pos hpresent]
    rfl
  · rw [if_neg hpresent, if_neg hpresent]
    by_cases hreturns : insertRes = -3 ∧ mallocErrs ≤ 0
    · rw [if_pos hreturns, if_pos hreturns]
      rfl
    · rw [if_neg hreturns, if_neg hreturns]
      by_cases hreports : insertRes = 1 ∨ insertRes = -2
      · rw [if_pos hreports, if_pos hreports, getSegmentList_eq_lookup]
        cases buf.lookup (parsed.header.observationDomainId, parsed.header.messageId) with
        | none => rfl
        | some head =>
            simp only
            cases createAssembledMsg (reassemblePayload malloc head) parsed
              (head.totalPayloadByteSize.setWidth 16) head.optionsHead head.optionsLength <;> rfl
      · rw [if_neg hreports, if_neg hreports]
        rfl

/-- An insertion with all its allocations is the one modelled above. -/
theorem insertParsed_raw :
    st.raw.insertParsed (.ofPayload malloc) parsed = parsed.header.segmentation.map fun seg =>
      ((st.segmentBuff.insertCall parsed.key (segmentCall parsed seg)).1,
        (st.segmentBuff.insertCall parsed.key (segmentCall parsed seg)).2.raw) := by
  unfold RawParserState.insertParsed
  cases parsed.header.segmentation with
  | none => rfl
  | some seg =>
      exact (st.segmentBuff.raw_insertWith _ _ _).trans
        (congrArg some (st.segmentBuff.insertWith_all _ _))

theorem handleParsedWith_raw (h : st.segmentBuff.WellFormed) :
    handleParsedWith (.ofPayload malloc) now st.raw parsed =
      (handleParsed malloc now st parsed).raw := by
  unfold handleParsedWith handleParsed
  by_cases hsegmented : isSegmented parsed.header = true
  · rw [if_pos hsegmented, if_pos hsegmented, insertParsed_raw]
    cases parsed.header.segmentation with
    | none => rfl
    | some seg =>
        exact finishSegmentWith_raw malloc now parsed _
          (insertSegment_wellFormed st.segmentBuff _ _ _ _ _ _ _ h)
  · rw [if_neg hsegmented, if_neg hsegmented]
    rfl

/-- In a well formed state an iteration is the one modelled above. -/
theorem parserIterationWith_raw (h : st.segmentBuff.WellFormed) (legacyProto : Bool)
    (queueData : UnyteMin) :
    parserIterationWith legacyProto (.ofPayload malloc) now st.raw queueData =
      (parserIteration legacyProto malloc now st queueData).raw := by
  have hparse : parseFuncWith (.ofPayload malloc) legacyProto queueData =
      parseFunc legacyProto queueData.buffer.val queueData := by
    unfold parseFuncWith
    cases parseFunc legacyProto queueData.buffer.val queueData <;> rfl
  unfold parserIterationWith parserIteration
  rw [hparse]
  cases parseFunc legacyProto queueData.buffer.val queueData with
  | ok parsed => exact handleParsedWith_raw malloc now parsed h
  | diverges | undefined | null => rfl

/-- No insertion of it fails. -/
theorem insertionFails_raw (h : st.segmentBuff.Built) (legacyProto : Bool)
    (queueData : UnyteMin) :
    insertionFails legacyProto (.ofPayload malloc) st.raw queueData = false := by
  cases hparse : parseFuncWith (.ofPayload malloc) legacyProto queueData with
  | diverges | undefined | null => exact insertionFails_of_not_ok _ (by simp [hparse])
  | ok parsed =>
      unfold insertionFails RawParserState.insertionFails
      simp only [hparse, insertParsed_raw]
      cases hseg : parsed.header.segmentation with
      | none => exact Bool.and_false _
      | some seg =>
          have hcode := st.segmentBuff.insertCall_code parsed.key (segmentCall parsed seg)
          have hne : (st.segmentBuff.insertCall parsed.key (segmentCall parsed seg)).1 ≠ -3 := by
            rcases parseSegmented_cases malloc 0 seg h (parseFuncWith_parsed hparse) with
              ⟨hres, _⟩ | ⟨hres, _⟩ | ⟨hres, _⟩ <;> omega
          simp only [Option.map_some, Option.any_some, decide_eq_false hne, Bool.and_false]

end Payload

/-- The event of this loop for one of the loop modelled above. -/
def ParserEvent.raw : ParserEvent → RawParserEvent
  | packet queueData malloc now => .packet queueData (.ofPayload malloc) now
  | requestCleanup => .requestCleanup

/-- Every run of the loop modelled above is a run of this one, without a failed insertion. -/
theorem RawParser.run_of_run {legacyProto : Bool} {events : List ParserEvent} {st : ParserState}
    (h : Run (ParserStep legacyProto) .init events st) :
    Run (Step legacyProto) init (events.map ParserEvent.raw) ⟨st.raw, 0, false⟩ := by
  induction h with
  | nil => exact .nil
  | @snoc events st l st' hrun hlast ih =>
      rw [List.map_append]
      refine ih.snoc ?_
      have hbuilt := ParserState.Reachable.built ⟨events, hrun⟩
      cases l with
      | requestCleanup =>
          have hlast : st' = _ := hlast
          rw [hlast]
          rfl
      | packet queueData malloc now =>
          obtain ⟨written, hend⟩ := hlast
          simp only [ParserEvent.raw, Step, RawParser.step, Bool.false_eq_true, if_false,
            parserIterationWith_raw malloc now hbuilt.wellFormed, hend,
            insertionFails_raw malloc hbuilt]
          rfl

end UdpNotif
