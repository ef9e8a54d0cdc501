import UdpNotif.ListeningWorker.Integrity
import UdpNotif.ParsingWorker.RoundTrip
import UdpNotif.Utils.Send

/-!
From `unyte_send` at the senders to the client of a collector. The datagrams of a
message of at most 128 packets are those of a well-formed message on the wire, so
that what holds of a collector and any network holds of the buffers that were
handed to the senders.
-/

namespace UdpNotif

open Runs

/-- A call of `unyte_send`, with the MTU of its socket. -/
structure SendCall where
  message : UnyteMessage
  usedMtu : Uint32
  defaultMtu : Uint32

namespace SendCall

/-- Observation domain id and message id. -/
def ids (s : SendCall) : MessageKey := (s.message.observationDomainId, s.message.messageId)

/-- What the client should be given. -/
def content (s : SendCall) : MessageKey × List Uint8 := (s.ids, s.message.buffer)

/-- The MTU that the packets are built for. -/
def mtu (s : SendCall) : Uint32 := sendMtu s.usedMtu s.defaultMtu

/-- The datagrams that are handed to `send`. -/
def datagrams (s : SendCall) : List (List Uint8) :=
  (unyteSend s.message s.usedMtu s.defaultMtu).getD []

/-- The options fit, and the message takes at most 128 packets. -/
structure Fits (s : SendCall) : Prop where
  fitsMtu : FitsMtu s.message s.mtu
  few : s.message.optionBytes + s.message.buffer.length ≤ 2 ^ 7 * (s.mtu.toNat - 16)

/-- The datagrams of a call are the packets of a message on the wire. -/
structure SentAs (s : SendCall) (m : Message) : Prop where
  datagrams : s.datagrams = m.parts.map Datagram.encode
  content : m.content = s.content

end SendCall

/-- A packet that is sent whole: its ids, its payload and the segment it stands for. -/
structure SentWhole (seg : UnyteSeg) (d : Datagram) : Prop where
  bytes : sendPacket seg = some d.encode
  key : d.key = (seg.header.observationDomainId, seg.header.messageId)
  payload : d.payload = seg.payload
  segments : d.segments = (seg.header.segmentation.map
    (fun s => (wireNumber s.fNum, decide (s.fLast = 1)))).toList

/-- All bytes of a serializable packet are sent. -/
theorem Serializable.exists_sentWhole {seg : UnyteSeg} (h : Serializable seg) :
    ∃ d, SentWhole seg d := by
  obtain ⟨d, hserial, hsize, ⟨customs, hcustoms, hoptions⟩, hparsed⟩ := h.exists_datagram
  have hdecoded := hparsed ⟨0, 0, .zeroed, ⟨[]⟩, none⟩
  have hlength : d.encode.length =
      seg.header.headerLength.toNat + seg.header.messageLength.toNat := by
    rw [d.encode_length, hsize, h.messageLength]
  have hnone : customs.filterMap WireOption.segment? = [] := by
    refine List.filterMap_eq_nil_iff.mpr (fun o ho => ?_)
    have hcustom := hcustoms o ho
    cases o with
    | custom => rfl
    | segmentation => exact hcustom.elim
  refine ⟨d, ?_, ?_, ?_, ?_⟩
  · simp only [sendPacket, hserial, Option.bind_eq_bind, Option.bind_some, ← hlength,
      Nat.le_refl, if_true, List.take_length]
  · exact congrArg UnyteSegMet.key hdecoded
  · exact congrArg (fun p : UnyteSegMet => p.payload) hdecoded
  · rw [Datagram.segments, hoptions, List.filterMap_append, hnone, List.append_nil]
    cases seg.header.segmentation <;> rfl

/-- The packets of the segments from number `i` on, of at most 128. -/
theorem FitsMtu.exists_parts {message : UnyteMessage} {mtu : Uint32} (h : FitsMtu message mtu)
    {total i copyIt : Nat} {segs : List UnyteSeg} (htotal : total ≤ 2 ^ 7)
    (hs : Slices message (mtu.toNat - 16) total i copyIt segs) :
    ∃ ds : List Datagram, segs.mapM sendPacket = some (ds.map Datagram.encode) ∧
      i + ds.length = total ∧
      (∀ d ∈ ds, d.key = (message.observationDomainId, message.messageId)) ∧
      (∀ j (hj : j < ds.length),
        ds[j].segments = [(.ofNat 15 (i + j), decide (i + j + 1 = total))]) ∧
      ds.flatMap Datagram.payload = message.buffer.drop copyIt := by
  induction hs with
  | done =>
      exact ⟨[], rfl, rfl, fun _ hd => absurd hd List.not_mem_nil,
        fun _ hj => absurd hj (Nat.not_lt_zero _), List.drop_length.symm⟩
  | @next i copyIt size segs hcopy husable hpos hrest ih =>
      have hlength := hrest.length
      obtain ⟨ds, hbytes, hcount, hkeys, hsegments, hpayload⟩ := ih
      have hserial := h.segmentOf_serializable (by omega : total ≤ 2 ^ 15) (by omega) hcopy husable
      rw [h.counted.segmentOf_eq (by omega) (by omega) hcopy] at hserial ⊢
      obtain ⟨d, hd⟩ := hserial.exists_sentWhole
      refine ⟨d :: ds, ?_, ?_, ?_, ?_, ?_⟩
      · rw [List.mapM_cons, hd.bytes, hbytes]
        rfl
      · rw [List.length_cons]
        omega
      · exact List.forall_mem_cons.mpr ⟨hd.key, hkeys⟩
      · intro j hj
        cases j with
        | zero =>
            rw [List.getElem_cons_zero, hd.segments]
            have hnumber : wireNumber (.ofNat 31 i) = .ofNat 15 i := by
              refine BitVec.eq_of_toNat_eq ?_
              rw [wireNumber, BitVec.toNat_ofNat, BitVec.toNat_ofNat, BitVec.toNat_ofNat]
              omega
            have hlast : decide ((if i + 1 = total then (1 : BitVec 1) else 0) = 1) =
                decide (i + 1 = total) := by
              by_cases hend : i + 1 = total <;> simp [hend]
            simp only [Option.map_some, Option.toList_some, hnumber, hlast, Nat.add_zero]
        | succ j =>
            have hnext := hsegments j (Nat.lt_of_succ_lt_succ hj)
            have hshift : i + (j + 1) = i + 1 + j := by omega
            rw [List.getElem_cons_succ, hnext, hshift]
      · rw [List.flatMap_cons, hd.payload, hpayload, ← List.drop_drop, List.take_append_drop]

/-- Every call that fits is sent as a message on the wire, with its own ids. -/
theorem SendCall.Fits.exists_sentAs {s : SendCall} (h : s.Fits) : ∃ m : Message, s.SentAs m := by
  have hfits := h.fitsMtu
  have hfew := h.few
  have hgt := hfits.mtu_gt
  have hle := hfits.mtu_le
  simp only [headerBytes, unyteSegmentationOptionLen, udpSize] at hgt hle
  by_cases hwhole : s.message.optionBytes + s.message.buffer.length + headerBytes ≤ s.mtu.toNat
  · obtain ⟨d, hd⟩ := (hfits.wholeMessage_serializable hwhole).exists_sentWhole
    refine ⟨.unsegmented d hd.segments, ?_, ?_⟩
    · have hbuild : buildMessage s.message (sendMtu s.usedMtu s.defaultMtu) = some _ :=
        hfits.counted.buildMessage_whole (Or.inl hwhole)
      rw [datagrams, unyteSend, hbuild]
      simp only [Option.bind_eq_bind, Option.bind_some, List.mapM_cons, List.mapM_nil, hd.bytes]
      rfl
    · have hpayload : (Message.unsegmented d hd.segments).payload = d.payload :=
        List.append_nil d.payload
      rw [Message.content, hpayload, hd.payload]
      exact congrArg (·, s.message.buffer) hd.key
  · simp only [headerBytes] at hwhole
    obtain ⟨segs, hbuild, hslices⟩ := hfits.counted.buildMessage_slices
      hfits.optionBytes_le_buffer (by rw [headerBytes]; omega) (by rw [headerBytes]; omega)
    have htotal := (packetCount_le_iff (by omega) (by omega) (2 ^ 7)).mpr hfew
    obtain ⟨ds, hbytes, hcount, hkeys, hsegments, hpayload⟩ := hfits.exists_parts htotal hslices
    rw [Nat.zero_add] at hcount
    have hpos : 0 < ds.length := by
      have hlower := (packetCount_le_iff (by omega) (by omega) 0).mp.mt
        (by omega : ¬ s.message.optionBytes + s.message.buffer.length ≤ 0 * (s.mtu.toNat - 16))
      omega
    let m : SegmentedMessage := {
      key := s.ids
      parts := ds
      parts_ne := List.ne_nil_of_length_pos hpos
      parts_le := by omega
      addressed := hkeys
      numbered := fun j hj => by
        have hsegment := hsegments j hj
        rwa [Nat.zero_add, ← hcount] at hsegment }
    refine ⟨.segmented m, ?_, ?_⟩
    · have hbuild : buildMessage s.message (sendMtu s.usedMtu s.defaultMtu) = some segs := hbuild
      rw [datagrams, unyteSend, hbuild]
      exact congrArg (Option.getD · []) hbytes
    · have hbuffer : (Message.segmented m).payload = s.message.buffer := hpayload
      rw [Message.content, hbuffer]
      rfl

/-- A datagram of one of the calls. -/
structure SentDatagram (calls : List SendCall) where
  call : Fin calls.length
  part : Nat
  part_lt : part < (calls.get call).datagrams.length
deriving DecidableEq

/-- The bytes of a datagram. -/
def SentDatagram.bytes {calls : List SendCall} (p : SentDatagram calls) : List Uint8 :=
  (calls.get p.call).datagrams.get ⟨p.part, p.part_lt⟩

theorem exists_sentAs_list {calls : List SendCall} (h : ∀ s ∈ calls, s.Fits) :
    ∃ messages, List.Forall₂ SendCall.SentAs calls messages := by
  induction calls with
  | nil => exact ⟨[], .nil⟩
  | cons s calls ih =>
      obtain ⟨m, hm⟩ := (h s List.mem_cons_self).exists_sentAs
      obtain ⟨messages, hmessages⟩ := ih (fun t ht => h t (List.mem_cons_of_mem s ht))
      exact ⟨m :: messages, .cons hm hmessages⟩

section Wire

variable {calls : List SendCall} {messages : List Message}
  (h : List.Forall₂ SendCall.SentAs calls messages)
include h

/-- The message on the wire of a call. -/
theorem sentAs_get (i : Fin calls.length) :
    (calls.get i).SentAs (messages.get (i.cast h.length_eq)) :=
  h.get i.isLt (h.length_eq ▸ i.isLt)

/-- Calls with different ids are sent as messages with different keys. -/
theorem distinctKeys_of_ids (hids : (calls.map SendCall.ids).Nodup) : DistinctKeys messages := by
  have hkeys : calls.map SendCall.ids = messages.map Message.key := by
    refine List.forall₂_eq_eq_eq ▸ ?_
    rw [List.forall₂_map_left_iff, List.forall₂_map_right_iff]
    exact h.imp (fun s m hm => (congrArg Prod.fst hm.content).symm)
  rw [hkeys, List.Nodup, List.pairwise_map] at hids
  refine List.pairwise_filterMap.mpr (hids.imp (fun {m m'} hne k hk k' hk' => ?_))
  cases m with
  | unsegmented => cases hk
  | segmented m =>
      cases m' with
      | unsegmented => cases hk'
      | segmented m' =>
          obtain rfl := Option.some.inj hk
          obtain rfl := Option.some.inj hk'
          exact hne

/-- The datagrams of the calls are the packets of the messages. -/
def SentDatagram.arrival (p : SentDatagram calls) : Arrival messages where
  message := p.call.cast h.length_eq
  part := p.part
  part_lt := by
    have hlt := p.part_lt
    rwa [(sentAs_get h p.call).datagrams, List.length_map] at hlt

theorem SentDatagram.arrival_injective : Function.Injective (SentDatagram.arrival h) := by
  intro p q heq
  obtain ⟨hmessage, hpart⟩ := Arrival.mk.inj heq
  cases p
  cases q
  obtain rfl := Fin.cast_injective _ hmessage
  obtain rfl : _ = _ := hpart
  rfl

theorem SentDatagram.arrival_bytes (p : SentDatagram calls) : (p.arrival h).bytes = p.bytes := by
  have hdatagrams := (sentAs_get h p.call).datagrams
  have hlt := (p.arrival h).part_lt
  rw [SentDatagram.bytes, List.get_eq_getElem, List.getElem_of_eq hdatagrams, List.getElem_map]
  rfl

/-- Every packet of a message on the wire is a datagram of its call. -/
theorem SentDatagram.exists_arrival (a : Arrival messages) :
    ∃ p : SentDatagram calls, p.arrival h = a := by
  have hdatagrams := (sentAs_get h (a.message.cast h.length_eq.symm)).datagrams
  refine ⟨⟨a.message.cast h.length_eq.symm, a.part, ?_⟩, rfl⟩
  rw [hdatagrams, List.length_map]
  exact a.part_lt

theorem received_arrivals {options : UnyteUdpOptions} {ls : List (CollectorEvent options)}
    {arrived : List (SentDatagram calls)}
    (hreceived : received ls = arrived.map SentDatagram.bytes) :
    received ls = (arrived.map (SentDatagram.arrival h)).map Arrival.bytes := by
  rw [hreceived, List.map_map]
  exact List.map_congr_left (fun p _ => (p.arrival_bytes h).symm)

end Wire

/-- A buffer without options that is handed to `unyte_send`. -/
def smallCall (content : MessageKey × List Uint8) (h : content.2.length < 2 ^ 32)
    (usedMtu : Uint32) : SendCall where
  message := { plainMessage content.2 h with
    observationDomainId := content.1.1, messageId := content.1.2 }
  usedMtu
  defaultMtu := 0

theorem smallCall_fits {content : MessageKey × List Uint8} {h : content.2.length < 2 ^ 32}
    {usedMtu : Uint32} (hgt : 16 < (sendMtu usedMtu 0).toNat)
    (hle : (sendMtu usedMtu 0).toNat ≤ udpSize)
    (hfew : content.2.length ≤ 2 ^ 7 * ((sendMtu usedMtu 0).toNat - 16)) :
    (smallCall content h usedMtu).Fits where
  fitsMtu := {
    data_le := fun _ ho => absurd ho List.not_mem_nil
    optionBytes_le := Nat.zero_le _
    mtu_gt := hgt
    mtu_le := hle
    type_ne := fun _ ho => absurd ho List.not_mem_nil
    optionBytes_le_buffer := Nat.zero_le _ }
  few := (Nat.zero_add _).trans_le hfew

/-- Three messages, two of which are sent in segments of five bytes. -/
def threeCall : SendCall := smallCall threeContent (by decide) 21

def twoCall : SendCall := smallCall twoContent (by decide) 21

def wholeCall (messageId : Uint32) : SendCall :=
  smallCall (wholeContent messageId) (by decide : 2 < 2 ^ 32) 0

theorem threeCall_fits : threeCall.Fits :=
  smallCall_fits (by decide) (by decide) (by decide)

theorem twoCall_fits : twoCall.Fits :=
  smallCall_fits (by decide) (by decide) (by decide)

theorem wholeCall_fits (messageId : Uint32) : (wholeCall messageId).Fits :=
  smallCall_fits (by decide) (by decide)
    (by decide : 2 ≤ 2 ^ 7 * ((sendMtu 0 0).toNat - 16))

section Collected

variable {options : UnyteUdpOptions} {calls : List SendCall}
  {arrived : List (SentDatagram calls)} {ls : List (CollectorEvent options)}
  {c : Collector options}

/-- Senders, a network that loses, repeats and reorders datagrams, and a collector
that drops messages, for full queues, in clean up passes and where a reassembled
payload cannot be allocated: the client is given only buffers that were handed to
`unyte_send`, with their ids, and none more often than each of its datagrams was
received. -/
theorem client_given_only_sent_buffers (hfits : ∀ s ∈ calls, s.Fits)
    (hids : (calls.map SendCall.ids).Nodup) (hlegacy : options.legacy = false)
    (hrun : Run Collector.Step (.init options) ls c)
    (hreceived : received ls = arrived.map SentDatagram.bytes) :
    ∃ (queued : List UnyteSegMet) (deliveries : List (Fin calls.length)),
      c.output.Holds queued ∧
      (c.client ++ queued).map UnyteSegMet.content =
        deliveries.map (fun i => (calls.get i).content) ∧
      ∀ p : SentDatagram calls, deliveries.count p.call ≤ arrived.count p := by
  obtain ⟨messages, hsent⟩ := exists_sentAs_list hfits
  obtain ⟨queued, deliveries, hqueued, hcontents, hcounts⟩ := given_of_run hlegacy
    (distinctKeys_of_ids hsent hids) hrun (received_arrivals hsent hreceived)
  refine ⟨queued, deliveries.map (Fin.cast hsent.length_eq.symm), hqueued, ?_, fun p => ?_⟩
  · rw [hcontents, List.map_map]
    exact List.map_congr_left (fun i _ => (sentAs_get hsent (i.cast hsent.length_eq.symm)).content)
  · have hcall : p.call = ((p.arrival hsent).message).cast hsent.length_eq.symm := rfl
    rw [hcall, List.count_map_of_injective _ _ (Fin.cast_injective _)]
    have hcount := hcounts (p.arrival hsent)
    rwa [List.count_map_of_injective _ _ (SentDatagram.arrival_injective hsent)] at hcount

/-- The calls that the packets which arrive are from. -/
def lossyCalls : List SendCall :=
  [threeCall, twoCall, wholeCall 1, wholeCall 2, wholeCall 3, wholeCall 4, wholeCall 5]

theorem lossyCalls_fit : ∀ s ∈ lossyCalls, s.Fits := by
  simp [lossyCalls, threeCall_fits, twoCall_fits, wholeCall_fits]

/-- A datagram, given by the number of its call and its number there. -/
def SentDatagram.of {calls : List SendCall} (i j : Nat)
    (h : ∃ hi : i < calls.length, j < (calls.get ⟨i, hi⟩).datagrams.length) :
    SentDatagram calls :=
  ⟨⟨i, h.fst⟩, j, h.snd⟩

def lossyDatagrams : List (SentDatagram lossyCalls) :=
  [.of 2 0 (by decide), .of 3 0 (by decide), .of 4 0 (by decide), .of 5 0 (by decide),
    .of 0 2 (by decide), .of 1 1 (by decide), .of 0 0 (by decide), .of 0 1 (by decide),
    .of 0 0 (by decide), .of 6 0 (by decide), .of 1 0 (by decide)]

theorem lossyDatagrams_bytes :
    received lossyEvents = lossyDatagrams.map SentDatagram.bytes := by
  decide +kernel

/-- The client is given three of them and is to be given a fourth. -/
theorem lossy_given_sent_buffers : ∃ c : Collector smallOptions,
    Run Collector.Step (.init smallOptions) lossyEvents c ∧
      c.output.elements.map UnyteSegMet.content =
        [(wholeCall 2).content, threeCall.content, (wholeCall 5).content] ∧
      ∃ (queued : List UnyteSegMet) (deliveries : List (Fin lossyCalls.length)),
        c.output.Holds queued ∧
        (c.client ++ queued).map UnyteSegMet.content =
          deliveries.map (fun i => (lossyCalls.get i).content) ∧
        ∀ p : SentDatagram lossyCalls, deliveries.count p.call ≤ lossyDatagrams.count p := by
  obtain ⟨c, hrun, _, helements⟩ := exists_lossyRun
  exact ⟨c, hrun, helements, client_given_only_sent_buffers lossyCalls_fit (by decide) rfl hrun
    lossyDatagrams_bytes⟩

/-- If every datagram arrives once, in any order, no queue is full, no allocation
fails and no clean up pass runs, then once the parsers are at rest the client is
given the buffers that were handed to `unyte_send`, each once. -/
theorem sent_buffers_delivered_once (hfits : ∀ s ∈ calls, s.Fits)
    (hids : (calls.map SendCall.ids).Nodup) (hlegacy : options.legacy = false)
    (honce : ∀ p : SentDatagram calls, arrived.count p = 1)
    (hrun : Run (Restrict Collector.Step Collector.Undisturbed) (.init options) ls c)
    (hreceived : received ls = arrived.map SentDatagram.bytes) (hrest : ∀ i, c.AtRest i) :
    ∃ queued, c.output.Holds queued ∧
      ((c.client ++ queued).map UnyteSegMet.content).Perm (calls.map SendCall.content) := by
  obtain ⟨messages, hsent⟩ := exists_sentAs_list hfits
  have hnodup : (arrived.map (SentDatagram.arrival hsent)).Nodup := by
    refine List.Nodup.map (SentDatagram.arrival_injective hsent) ?_
    exact List.nodup_iff_count_le_one.mpr (fun p => (honce p).le)
  have hadmissible : Admissible (arrived.map (SentDatagram.arrival hsent)) := by
    refine ⟨fun i j hj => ?_, fun before a after hsplit hseen => ?_⟩
    · obtain ⟨p, hp⟩ := SentDatagram.exists_arrival hsent ⟨i, j, hj⟩
      rw [← hp]
      exact List.mem_map_of_mem (List.count_pos_iff.mp (by rw [honce p]; exact Nat.one_pos))
    · rw [hsplit] at hnodup
      exact absurd rfl ((List.nodup_append.mp hnodup).2.2 a hseen a List.mem_cons_self)
  have hfollows := follows_of_run hlegacy (distinctKeys_of_ids hsent hids) hadmissible hrun _
    (List.prefix_refl _) (received_arrivals hsent hreceived)
  obtain ⟨queued, hqueued, hperm⟩ := hfollows.delivered hadmissible hrest
  have hcontents : messages.map Message.content = calls.map SendCall.content := by
    refine List.forall₂_eq_eq_eq ▸ ?_
    rw [List.forall₂_map_left_iff, List.forall₂_map_right_iff]
    exact hsent.flip.imp (fun m s hm => hm.content)
  exact ⟨queued, hqueued, hcontents ▸ hperm⟩

/-- Three of these calls, whose datagrams arrive in another order. -/
def smallCalls : List SendCall := [threeCall, twoCall, wholeCall 1]

theorem smallCalls_fit : ∀ s ∈ smallCalls, s.Fits := by
  simp [smallCalls, threeCall_fits, twoCall_fits, wholeCall_fits]

def shuffledDatagrams : List (SentDatagram smallCalls) :=
  [.of 0 2 (by decide), .of 1 1 (by decide), .of 2 0 (by decide), .of 0 0 (by decide),
    .of 0 1 (by decide), .of 1 0 (by decide)]

/-- A schedule for them that ends with all threads at rest. -/
def shuffledEvents : List (CollectorEvent smallOptions) :=
  [.receive (threePart 2).zeroed, .receive (twoPart 1).zeroed, .read (smallParser 1),
    .receive (wholePacket 1).zeroed, parseNow 1, .read (smallParser 0), .read (smallParser 1),
    parseNow 0, .receive (threePart 0).zeroed, parseNow 1, .read (smallParser 1),
    .write (smallParser 0), parseNow 1, .receive (threePart 1).zeroed, .clientRead,
    .read (smallParser 1), parseNow 1, .receive (twoPart 0).zeroed, .write (smallParser 1),
    .read (smallParser 1), parseNow 1, .write (smallParser 1)]

theorem shuffledEvents_allocate : ∀ l ∈ shuffledEvents, l.Allocates := by
  simp [shuffledEvents, parseNow, CollectorEvent.Allocates]

theorem shuffledDatagrams_bytes :
    received shuffledEvents = shuffledDatagrams.map SentDatagram.bytes := by
  decide +kernel

theorem shuffledDatagrams_once (p : SentDatagram smallCalls) : shuffledDatagrams.count p = 1 := by
  have honce : ∀ (i : Fin 3) (j : Fin (smallCalls.get i).datagrams.length),
      shuffledDatagrams.count (.of i j ⟨i.isLt, j.isLt⟩) = 1 := by decide +kernel
  exact honce p.call ⟨p.part, p.part_lt⟩

/-- All three reach the client once, of which it has read one. -/
theorem shuffled_delivered_once : ∃ c : Collector smallOptions,
    Run (Restrict Collector.Step Collector.Undisturbed) (.init smallOptions) shuffledEvents c ∧
      c.client.map UnyteSegMet.content = [(wholeCall 1).content] ∧
      ∃ queued, c.output.Holds queued ∧ ((c.client ++ queued).map UnyteSegMet.content).Perm
        [threeCall.content, twoCall.content, (wholeCall 1).content] := by
  have hafter : (shuffledEvents.foldlM Collector.calmStep (.init smallOptions)).map (fun c =>
      (c.client.map UnyteSegMet.content, decide (∀ i, c.AtRest i))) =
        some ([(wholeCall 1).content], true) := by decide +kernel
  obtain ⟨c, hfold, hend⟩ := Option.map_eq_some_iff.mp hafter
  obtain ⟨hclient, hrest⟩ := Prod.mk.inj hend
  have hrun := Collector.run_of_calm shuffledEvents_allocate hfold
  exact ⟨c, hrun, hclient, sent_buffers_delivered_once smallCalls_fit (by decide) rfl
    shuffledDatagrams_once hrun shuffledDatagrams_bytes (of_decide_eq_true hrest)⟩

end Collected

end UdpNotif
