import UdpNotif.SegmentationBuffer.EntryCount
import UdpNotif.ParsingWorker.Delivery
import UdpNotif.Utils.WireFormat

/-!
The counter of the buffer of a parser. It is incremented by `insert_segment` and
decremented by the parser and by the clean up pass, each time an entry comes or
goes. It counts in 32 bits.
-/

namespace UdpNotif

open Runs

/-- The buffer of an iteration with a segment when it gets to the test for a
clean up. -/
def ParserState.beforePass (st : ParserState) (parsed : UnyteSegMet) (seg : UnyteSegmentation) :
    SegmentBuffer :=
  let inserted := st.segmentBuff.insertCall parsed.key (segmentCall parsed seg)
  if reportsComplete inserted.1 then
    clearMessage inserted.2 parsed.header.observationDomainId parsed.header.messageId
  else inserted.2

theorem cleanupIfDue_cases (now : Int) (buf : SegmentBuffer) :
    cleanupIfDue now buf = buf ∨
      cleanupIfDue now buf = cleanupSegBuff now buf cleanUpPassSize := by
  unfold cleanupIfDue
  split
  · exact Or.inr rfl
  · exact Or.inl rfl

/-- The list that the parser clears is there, and it counts its entry. -/
theorem clearMessage_removes {st : ParserState} (hcounted : st.segmentBuff.Counted)
    (parsed : UnyteSegMet) (seg : UnyteSegmentation) :
    let inserted := (st.segmentBuff.insertCall parsed.key (segmentCall parsed seg)).2
    (clearSegmentList inserted parsed.header.observationDomainId parsed.header.messageId).1 = 0 ∧
      Removes inserted
        (clearMessage inserted parsed.header.observationDomainId parsed.header.messageId) := by
  intro inserted
  have hstored : inserted.lookup parsed.key ≠ none := by
    rw [SegmentBuffer.insertCall_lookup, if_pos rfl]
    exact Option.some_ne_none _
  obtain ⟨hcode, hentries, hcount⟩ := clearSegmentList_entries inserted _ _ hstored
  have hinserted : inserted.Counted := insertSegment_counted _ _ _ _ _ _ _ _ hcounted
  refine ⟨hcode, hinserted.removes hentries ?_⟩
  rw [← hcount]
  rfl

section Segment

variable {st : ParserState} {parsed : UnyteSegMet} {seg : UnyteSegmentation}
  (hbuilt : st.segmentBuff.Built) (hparsed : Parsed parsed)
include hbuilt hparsed

/-- After an iteration the buffer is the one before the clean up, or the one that
a pass left. -/
theorem parseSegmented_buffer {malloc : Nat → Bool} {now : Int} {st' : ParserState}
    {written : Option UnyteSegMet}
    (h : parseSegmented malloc now st parsed seg = .continued st' written) :
    st'.segmentBuff = st.beforePass parsed seg ∨
      st'.segmentBuff = cleanupSegBuff now (st.beforePass parsed seg) cleanUpPassSize := by
  have hcode : (st.segmentBuff.insertCall parsed.key (segmentCall parsed seg)).1 =
      ((segmentCall parsed seg).apply (st.segmentBuff.listOf parsed.key)).1 :=
    SegmentBuffer.insertCall_code _ _ _
  rcases parseSegmented_cases malloc now seg hbuilt hparsed with
    ⟨hres, hgoes⟩ | ⟨hres, hgoes⟩ | ⟨hres, hgoes⟩
  · obtain ⟨rfl, _⟩ := ParserOutcome.continued.inj (hgoes.symm.trans h)
    left
    rw [ParserState.beforePass, hcode, hres]
    rfl
  · obtain ⟨rfl, _⟩ := ParserOutcome.continued.inj (hgoes.symm.trans h)
    rw [ParserState.beforePass, hcode, hres]
    exact cleanupIfDue_cases now _
  · obtain ⟨rfl, _⟩ := ParserOutcome.continued.inj (hgoes.symm.trans h)
    have hreports : reportsComplete
        (st.segmentBuff.insertCall parsed.key (segmentCall parsed seg)).1 = true := by
      rw [hcode]
      rcases hres with hres | hres
      · rw [hres]
        rfl
      · rw [hres]
        rfl
    rw [ParserState.beforePass, if_pos hreports]
    exact cleanupIfDue_cases now _

theorem ParserState.beforePass_counted (hcounted : st.segmentBuff.Counted)
    (seg : UnyteSegmentation) :
    (st.beforePass parsed seg).WellFormed ∧ (st.beforePass parsed seg).Counted := by
  have hinserted := hbuilt.insertCall parsed.key (segmentCall_fromParser hparsed seg)
  have hcounted' : (st.segmentBuff.insertCall parsed.key (segmentCall parsed seg)).2.Counted :=
    insertSegment_counted _ _ _ _ _ _ _ _ hcounted
  simp only [ParserState.beforePass]
  split
  · exact ⟨(clearMessage_built hinserted _ _).wellFormed,
      (clearMessage_removes hcounted parsed seg).2.counted hcounted'⟩
  · exact ⟨hinserted.wellFormed, hcounted'⟩

end Segment

/-- Every step counts the entries that come and go. -/
theorem ParserStep.counted {legacyProto : Bool} {s s' : ParserState} {l : ParserEvent}
    (hbuilt : s.segmentBuff.Built) (hcounted : s.segmentBuff.Counted)
    (hstep : ParserStep legacyProto s l s') : s'.segmentBuff.Counted := by
  cases l with
  | requestCleanup =>
      have hs : s' = _ := hstep
      rw [hs]
      exact hcounted
  | packet um malloc now =>
      obtain ⟨written, hstep⟩ := hstep
      cases hparse : parseFunc legacyProto um.buffer.val um with
      | diverges | undefined | null =>
          rw [parserIteration, hparse] at hstep
          cases hstep
      | ok parsed =>
          have hparsed := parseFunc_parsed hparse
          rw [parserIteration_ok hparse, handleParsed] at hstep
          by_cases hsegmented : isSegmented parsed.header = true
          · obtain ⟨seg, hseg⟩ := Option.ne_none_iff_exists'.mp (hparsed.segmented hsegmented)
            simp only [hsegmented, if_true, hseg] at hstep
            obtain ⟨hwell, hbefore⟩ :=
              ParserState.beforePass_counted hbuilt hparsed hcounted seg
            rcases parseSegmented_buffer hbuilt hparsed hstep with hbuf | hbuf
            · rw [hbuf]
              exact hbefore
            · rw [hbuf]
              exact cleanupSegBuff_counted hwell hbefore now _
          · rw [if_neg hsegmented] at hstep
            obtain ⟨rfl, _⟩ := ParserOutcome.continued.inj hstep
            exact hcounted

theorem ParserState.Reachable.counted {legacyProto : Bool} {s : ParserState}
    (h : s.Reachable legacyProto) : s.segmentBuff.Counted := by
  obtain ⟨ls, hrun⟩ := h
  exact hrun.invariant (I := fun _ s => s.segmentBuff.Counted) createSegmentBuffer_counted
    (fun ls t _ _ hbefore hcounted hstep =>
      ParserStep.counted (ParserState.Reachable.built ⟨ls, hbefore⟩) hcounted hstep)

/-- In every state that a parser reaches the counter is the number of entries in
32 bits. Both decrements of the next iteration, the parser's own and that of a
clean up pass, count the removal of one entry. -/
theorem entry_counter {legacyProto : Bool} {s : ParserState} (h : s.Reachable legacyProto) :
    s.segmentBuff.count = .ofNat 32 s.segmentBuff.entries ∧
      ∀ um parsed, parseFunc legacyProto um.buffer.val um = .ok parsed →
        isSegmented parsed.header = true →
        ∃ seg, parsed.header.segmentation = some seg ∧
          (let inserted := (s.segmentBuff.insertCall parsed.key (segmentCall parsed seg)).2
          (clearSegmentList inserted parsed.header.observationDomainId
              parsed.header.messageId).1 = 0 ∧
            Removes inserted (clearMessage inserted parsed.header.observationDomainId
              parsed.header.messageId)) ∧
          ∀ now,
            (∀ i next buf, PassVisits now (s.beforePass parsed seg) i next buf →
              if visitHead now next.head = none then Removes buf (cleanupCell now i next buf)
              else Keeps buf (cleanupCell now i next buf)) ∧
            ∀ malloc s' written, handleParsed malloc now s parsed = .continued s' written →
              s'.segmentBuff = s.beforePass parsed seg ∨
                s'.segmentBuff =
                  cleanupSegBuff now (s.beforePass parsed seg) cleanUpPassSize := by
  have hcounted := h.counted
  refine ⟨hcounted, fun um parsed hparse hsegmented => ?_⟩
  have hparsed := parseFunc_parsed hparse
  obtain ⟨seg, hseg⟩ := Option.ne_none_iff_exists'.mp (hparsed.segmented hsegmented)
  obtain ⟨hwell, hbefore⟩ := ParserState.beforePass_counted h.built hparsed hcounted seg
  refine ⟨seg, hseg, clearMessage_removes hcounted parsed seg, fun now => ⟨?_, ?_⟩⟩
  · exact fun i next buf hvisit => hvisit.entries hwell hbefore
  · intro malloc s' written hhandle
    simp only [handleParsed, hsegmented, if_true, hseg] at hhandle
    exact parseSegmented_buffer h.built hparsed hhandle

/-- Segment 0 of message 0 of the n-th observation domain, which is not its last
one. -/
def domainDatagram (n : Nat) : Datagram where
  version := 1
  space := 0
  mediaType := 1
  observationDomainId := .ofNat 32 n
  messageId := 0
  options := [.segmentation 0 false [] WireOption.no_extra_le]
  payload := []
  header_le := by decide
  size_le := by decide

/-- That packet in a receive buffer. -/
def domainPacket (n : Nat) : UnyteMin :=
  minimalParse (RecvBuffer.zeroed.receive (domainDatagram n).encode (by
    rw [Datagram.encode_length]
    exact (domainDatagram n).size_le)) ⟨[]⟩ none

theorem domainPacket_parsed (n : Nat) :
    parseFunc false (domainPacket n).buffer.val (domainPacket n) =
      .ok ((domainDatagram n).parsed (domainPacket n)) :=
  (domainDatagram n).parseWithMetadata_encode
    (RecvBuffer.zeroed.val.drop (domainDatagram n).encode.length) (domainPacket n)

/-- An idle parser stores the segment of a domain that it has no message of. -/
theorem domainPacket_step {st : ParserState} (hst : st.Idle) (n : Nat)
    (hnew : st.segmentBuff.lookup (.ofNat 32 n, 0) = none) :
    ∃ st', ParserStep false st (.packet (domainPacket n) (fun _ => true) 0) st' ∧ st'.Idle ∧
      st'.segmentBuff.entries = st.segmentBuff.entries + 1 ∧
      ∀ k, k ≠ (.ofNat 32 n, 0) → st'.segmentBuff.lookup k = st.segmentBuff.lookup k := by
  have hparse := domainPacket_parsed n
  have hparsed := parseFunc_parsed hparse
  obtain ⟨parsed, hname⟩ : ∃ parsed, parsed = (domainDatagram n).parsed (domainPacket n) :=
    ⟨_, rfl⟩
  have hkey : parsed.key = (.ofNat 32 n, 0) := by
    rw [hname]
    rfl
  have hsegmented : isSegmented parsed.header = true := by
    rw [hname]
    rfl
  have hseg : parsed.header.segmentation = some ⟨unyteTypeSegmentation, 4, 0, 0⟩ := by
    rw [hname]
    rfl
  have hlist : st.segmentBuff.listOf parsed.key = createMessageSegmentList (.ofNat 32 n) 0 := by
    rw [SegmentBuffer.listOf, hkey, hnew]
    rfl
  have hcode : ((segmentCall parsed ⟨unyteTypeSegmentation, 4, 0, 0⟩).apply
      (st.segmentBuff.listOf parsed.key)).1 = 0 := by
    rw [hlist, hname]
    rfl
  rw [← hname] at hparse hparsed
  have hinserted := hst.built.insertCall parsed.key
    (segmentCall_fromParser hparsed ⟨unyteTypeSegmentation, 4, 0, 0⟩)
  have hflag : (st.segmentBuff.insertCall parsed.key
      (segmentCall parsed ⟨unyteTypeSegmentation, 4, 0, 0⟩)).2.cleanup = false :=
    (insertSegment_cleanup _ _ _ _ _ _ _ _).trans hst.idle
  rcases parseSegmented_cases (fun _ => true) 0 ⟨unyteTypeSegmentation, 4, 0, 0⟩ hst.built
    hparsed with ⟨hres, _⟩ | ⟨_, hgoes⟩ | ⟨hres, _⟩
  · omega
  · have hquiet := cleanupIfDue_of_flag ((cleanupIfDue_cleanup 0 hflag).trans hflag.symm)
    rw [hquiet] at hgoes
    refine ⟨{ st with segmentBuff := (st.segmentBuff.insertCall parsed.key
      (segmentCall parsed ⟨unyteTypeSegmentation, 4, 0, 0⟩)).2 }, ⟨none, ?_⟩, ⟨hinserted, hflag⟩,
      ?_, fun k hk => ?_⟩
    · rw [parserIteration_ok hparse, handleParsed, if_pos hsegmented, hseg]
      exact hgoes
    · have hentries := insertSegment_entries st.segmentBuff parsed.key.1 parsed.key.2
      rw [Prod.mk.eta, hkey, hnew] at hentries
      rw [hkey]
      exact hentries _ _ _ _ _
    · rw [SegmentBuffer.insertCall_lookup, hkey, if_neg hk]
  · omega

/-- After packets of `n` domains there are `n` entries. -/
theorem domainPackets_entries (n : Nat) (hn : n ≤ 2 ^ 32) :
    ∃ st : ParserState, st.Reachable false ∧ st.Idle ∧ st.segmentBuff.entries = n ∧
      ∀ m, n ≤ m → m < 2 ^ 32 → st.segmentBuff.lookup (.ofNat 32 m, 0) = none := by
  induction n with
  | zero => exact ⟨.init, ⟨[], .nil⟩, ParserState.init_idle,
      Weights.total_eq_zero (fun _ => rfl), fun _ _ _ => rfl⟩
  | succ n ih =>
      obtain ⟨st, ⟨ls, hrun⟩, hidle, hentries, hnew⟩ := ih (by omega)
      obtain ⟨st', hstep, hidle', hentries', hothers⟩ :=
        domainPacket_step hidle n (hnew n (Nat.le_refl n) (by omega))
      refine ⟨st', ⟨_, hrun.snoc hstep⟩, hidle', by rw [hentries', hentries], fun m hm hlt => ?_⟩
      have hne : ((.ofNat 32 m, 0) : MessageKey) ≠ (.ofNat 32 n, 0) := by
        intro heq
        have hsame := congrArg (fun k : MessageKey => k.1.toNat) heq
        simp only [BitVec.toNat_ofNat] at hsame
        omega
      rw [hothers _ hne]
      exact hnew m (by omega) hlt

/-- The only segment of a message. -/
def lastDatagram : Datagram :=
  { domainDatagram 5 with
    options := [.segmentation 0 true [] WireOption.no_extra_le]
    header_le := by decide
    size_le := by decide }

def lastPacket : UnyteMin :=
  minimalParse (RecvBuffer.zeroed.receive lastDatagram.encode (by
    rw [Datagram.encode_length]
    exact lastDatagram.size_le)) ⟨[]⟩ none

/-- Segments of 51 messages, then three whole messages, each with a clean up pass. -/
def sweptEvents : List ParserEvent :=
  (300 :: List.range' 1000 50).map (fun n => .packet (domainPacket n) (fun _ => true) 1) ++
    [.requestCleanup, .packet lastPacket (fun _ => true) 1, .requestCleanup,
      .packet lastPacket (fun _ => true) 1, .requestCleanup, .packet lastPacket (fun _ => true) 10]

/-- The third pass removes a message, and the whole messages are counted off again. -/
theorem entry_counter_after_pass : ∃ s : ParserState,
    Runs.Run (ParserStep false) .init sweptEvents s ∧ s.segmentBuff.count = 50 ∧
      s.segmentBuff.lookup (300, 0) = none ∧
      s.segmentBuff.count = .ofNat 32 s.segmentBuff.entries ∧
      ∃ seg, let parsed := lastDatagram.parsed lastPacket
        let inserted := (s.segmentBuff.insertCall parsed.key (segmentCall parsed seg)).2
        Removes inserted (clearMessage inserted 5 0) := by
  have hcomputed : (sweptEvents.foldlM (ParserState.next false) .init).any (fun s =>
      decide (s.segmentBuff.count = 50 ∧ s.segmentBuff.lookup (300, 0) = none)) = true := by
    decide +kernel
  obtain ⟨s, hevents, hend⟩ := (Option.any_eq_true _ _).mp hcomputed
  obtain ⟨hcount, hremoved⟩ := of_decide_eq_true hend
  have hrun : Runs.Run (ParserStep false) .init sweptEvents s :=
    (Runs.run_iff_foldlM.mpr hevents).imp fun _ _ _ => ParserState.step_of_next
  obtain ⟨hexact, hdecrements⟩ := entry_counter ⟨_, hrun⟩
  have hparse : parseFunc false lastPacket.buffer.val lastPacket =
      .ok (lastDatagram.parsed lastPacket) :=
    lastDatagram.parseWithMetadata_encode (RecvBuffer.zeroed.val.drop lastDatagram.encode.length) _
  obtain ⟨seg, _, ⟨_, hremoves⟩, _⟩ := hdecrements lastPacket _ hparse (by decide)
  exact ⟨s, hrun, hcount, hremoved, hexact, seg, hremoves⟩

/-- With 2^32 entries the counter is zero. -/
theorem entry_counter_wraps :
    ¬ ∀ s : ParserState, s.Reachable false →
      s.segmentBuff.count.toNat = s.segmentBuff.entries := by
  intro hclaim
  obtain ⟨n, hn⟩ : ∃ n, n = 2 ^ 32 := ⟨_, rfl⟩
  obtain ⟨s, hreachable, _, hentries, _⟩ := domainPackets_entries n (Nat.le_of_eq hn)
  have hexact := hclaim s hreachable
  rw [hreachable.counted, hentries, BitVec.toNat_ofNat, hn] at hexact
  exact absurd hexact (by decide)

end UdpNotif
