import UdpNotif.Utils.WireFormat
import UdpNotif.ParsingWorker.Delivery

/-!
Messages as their senders mean them, split into well-formed packets, and what a
parser makes of one of these packets: the call of `insert_into_msl` that the
segmentation option of the packet stands for, or the packet itself.
-/

namespace UdpNotif

/-- Number and last flag of a segmentation option. -/
def WireOption.segment? : WireOption → Option (BitVec 15 × Bool)
  | custom _ _ _ _ => none
  | segmentation number last _ _ => some (number, last)

namespace Datagram

/-- The segmentation options of a packet. -/
def segments (d : Datagram) : List (BitVec 15 × Bool) := d.options.filterMap WireOption.segment?

/-- Observation domain id and message id. -/
def key (d : Datagram) : MessageKey := (d.observationDomainId, d.messageId)

/-- The call of `insert_into_msl` for a packet. -/
def call (d : Datagram) : InsertCall :=
  UnyteSegMet.call { header := d.header, payload := d.payload, metadata := ⟨⟨[]⟩, none⟩ }

theorem parsed_call (d : Datagram) (um : UnyteMin) : (d.parsed um).call = d.call := rfl

theorem parsed_key (d : Datagram) (um : UnyteMin) : (d.parsed um).key = d.key := rfl

end Datagram

/-- The declared lengths of an option list, summed up. -/
private theorem read_lengths (options : List WireOption) (s : OptionLoopState) :
    ((options.foldl WireOption.read s).options.map (fun o => o.length.toNat)).sum +
        (optionBytes (options.filter (fun o => o.segment?.isSome))).length =
      (s.options.map (fun o => o.length.toNat)).sum + (optionBytes options).length := by
  induction options generalizing s with
  | nil => rfl
  | cons o options ih =>
      have hsplit : optionBytes (o :: options) = o.bytes ++ optionBytes options := rfl
      have hlen := o.length_toNat
      have hrest := ih (o.read s)
      rw [hsplit, List.length_append, List.foldl_cons]
      cases o with
      | custom type data type_ne data_le =>
          rw [List.filter_cons_of_neg (by simp [WireOption.segment?])]
          simp only [WireOption.read, List.map_append, List.map_cons, List.map_nil,
            List.sum_append, List.sum_cons, List.sum_nil, hlen] at hrest
          simp only [WireOption.read, hlen]
          omega
      | segmentation number last extra extra_le =>
          rw [List.filter_cons_of_pos (by simp [WireOption.segment?])]
          have hbytes : optionBytes (WireOption.segmentation number last extra extra_le ::
              options.filter (fun o => o.segment?.isSome)) =
            (WireOption.segmentation number last extra extra_le).bytes ++
              optionBytes (options.filter (fun o => o.segment?.isSome)) := rfl
          rw [hbytes, List.length_append]
          simp only [WireOption.read] at hrest ⊢
          omega

/-- The segmentation fields are those of the last segmentation option. -/
private theorem read_segmentation (options : List WireOption) (s : OptionLoopState) :
    ((options.foldl WireOption.read s).segmentation.map (fun g => (g.fNum, g.fLast))) =
      (((options.filterMap WireOption.segment?).getLast?.map
        (fun g => (g.1.setWidth 31, BitVec.ofBool g.2))).or
          (s.segmentation.map (fun g => (g.fNum, g.fLast)))) := by
  induction options using List.reverseRecOn with
  | nil => rfl
  | append_singleton options o ih =>
      rw [List.foldl_append, List.filterMap_append]
      cases o with
      | custom type data type_ne data_le =>
          have hnone : [WireOption.custom type data type_ne data_le].filterMap
              WireOption.segment? = [] := rfl
          rw [hnone, List.append_nil, ← ih]
          rfl
      | segmentation number last extra extra_le =>
          have hsome : [WireOption.segmentation number last extra extra_le].filterMap
              WireOption.segment? = [(number, last)] := rfl
          rw [hsome, List.getLast?_concat]
          rfl

namespace Datagram

/-- A parser takes the segmented branch exactly for packets with a segmentation
option. -/
theorem isSegmented_parsed (d : Datagram) (um : UnyteMin) :
    isSegmented (d.parsed um).header = true ↔ d.segments ≠ [] := by
  have hlengths := read_lengths d.options .init
  have hheader := d.header_le
  have hcustom : (optionsTotalBytes d.loopState.options).toNat =
      (d.loopState.options.map (fun o => o.length.toNat)).sum := by
    rw [optionsTotalBytes_toNat, Nat.mod_eq_of_lt]
    simp only [loopState, OptionLoopState.init, List.map_nil, List.sum_nil] at hlengths ⊢
    omega
  have hbytes := optionBytes_length_le (d.options.filter (fun o => o.segment?.isSome))
  have hsegments : d.segments = [] ↔ d.options.filter (fun o => o.segment?.isSome) = [] := by
    simp [segments, List.filterMap_eq_nil_iff, List.filter_eq_nil_iff]
  rw [isSegmented_iff]
  change (12 + (optionsTotalBytes d.loopState.options).toNat) % 2 ^ 32 <
    (BitVec.ofNat 8 d.headerLength).toNat ↔ _
  rw [hcustom, d.headerLength_toNat, headerLength, Ne, hsegments]
  simp only [loopState, OptionLoopState.init, List.map_nil, List.sum_nil, headerBytes]
    at hlengths hheader ⊢
  rw [Nat.mod_eq_of_lt (by omega), ← List.length_eq_zero_iff]
  constructor
  · intro hlt hzero
    rw [List.length_eq_zero_iff] at hzero
    have hnil : (optionBytes []).length = 0 := rfl
    rw [hzero, hnil] at hlengths
    omega
  · intro hne
    omega

/-- A packet with one segmentation option offers the segment it names. -/
theorem call_of_segments {d : Datagram} {number : BitVec 15} {last : Bool}
    (h : d.segments = [(number, last)]) :
    d.call.number = number.toNat ∧ (d.call.last = 1 ↔ last = true) := by
  have hread := read_segmentation d.options .init
  change d.loopState.segmentation.map _ = _ at hread
  have hsegments : d.options.filterMap WireOption.segment? = [(number, last)] := h
  rw [hsegments, List.getLast?_singleton] at hread
  obtain ⟨seg, hseg, hfields⟩ := Option.map_eq_some_iff.mp hread
  obtain ⟨hnum, hlast⟩ := Prod.mk.inj hfields
  have hcall : d.call =
      segmentCall { header := d.header, payload := d.payload, metadata := ⟨⟨[]⟩, none⟩ } seg := by
    have hheader : d.header.segmentation = some seg := hseg
    rw [call, UnyteSegMet.call, hheader]
    rfl
  have hnumber := number.isLt
  rw [hcall]
  simp only [segmentCall, InsertCall.number, hnum, hlast]
  constructor
  · simp only [BitVec.toNat_setWidth]
    omega
  · cases last <;> decide

end Datagram

/-- A message split into segments. Their numbers count from zero, and the last
flag is on the last of them. -/
structure SegmentedMessage where
  key : MessageKey
  parts : List Datagram
  parts_ne : parts ≠ []
  parts_le : parts.length ≤ 2 ^ 15
  addressed : ∀ d ∈ parts, d.key = key
  numbered : ∀ i (h : i < parts.length),
    parts[i].segments = [(.ofNat 15 i, decide (i + 1 = parts.length))]

/-- A message as its sender means it. -/
inductive Message where
  | unsegmented (d : Datagram) (whole : d.segments = [])
  | segmented (m : SegmentedMessage)

namespace Message

/-- The packets of a message. -/
def parts : Message → List Datagram
  | unsegmented d _ => [d]
  | segmented m => m.parts

/-- Observation domain id and message id. -/
def key : Message → MessageKey
  | unsegmented d _ => d.key
  | segmented m => m.key

/-- The key under which the segments of a message are stored. -/
def segmentedKey? : Message → Option MessageKey
  | unsegmented _ _ => none
  | segmented m => some m.key

/-- The payloads of the packets, in the order of their numbers. -/
def payload (message : Message) : List Uint8 := message.parts.flatMap Datagram.payload

/-- The ids of a message and its payload. -/
def content (message : Message) : MessageKey × List Uint8 := (message.key, message.payload)

theorem key_of_mem {message : Message} {d : Datagram} (h : d ∈ message.parts) :
    d.key = message.key := by
  cases message with
  | unsegmented d' whole => rw [List.mem_singleton.mp h, key]
  | segmented m => exact m.addressed d h

theorem parts_pos (message : Message) : 0 < message.parts.length := by
  cases message with
  | unsegmented d whole => exact Nat.one_pos
  | segmented m => exact List.length_pos_of_ne_nil m.parts_ne

end Message

namespace SegmentedMessage

variable (m : SegmentedMessage)

theorem call_of_part {i : Nat} (h : i < m.parts.length) :
    m.parts[i].call.number = i ∧ (m.parts[i].call.last = 1 ↔ i + 1 = m.parts.length) := by
  have hle := m.parts_le
  obtain ⟨hnumber, hlast⟩ := Datagram.call_of_segments (m.numbered i h)
  rw [BitVec.toNat_ofNat, Nat.mod_eq_of_lt (by omega)] at hnumber
  exact ⟨hnumber, by rw [hlast, decide_eq_true_eq]⟩

/-- The segments of a message are a well-formed set. -/
theorem segmentSet : SegmentSet (m.parts.map Datagram.call) where
  nonempty := by simpa using m.parts_ne
  bound := by
    have hle := m.parts_le
    rw [List.length_map]
    omega
  numbers := by
    refine List.ext_getElem (by simp) (fun i h _ => ?_)
    have hi : i < m.parts.length := by simpa using h
    simpa using (m.call_of_part hi).1
  last := by
    intro c hc
    obtain ⟨i, hi, rfl⟩ := List.getElem_of_mem hc
    rw [List.length_map] at hi
    obtain ⟨hnumber, hlast⟩ := m.call_of_part hi
    simp only [List.getElem_map, List.length_map, hnumber, hlast]
  options := by
    intro c hc
    obtain ⟨d, _, rfl⟩ := List.mem_map.mp hc
    exact Option.some_ne_none _

end SegmentedMessage

/-- What a client can tell of a message: its ids and its payload. -/
def UnyteSegMet.content (p : UnyteSegMet) : MessageKey × List Uint8 := (p.key, p.payload)

/-- The message assembled from all of its segments. -/
theorem SegmentedMessage.assembleList_content (m : SegmentedMessage) {calls : List InsertCall}
    (hcalls : ∀ c ∈ calls, c ∈ m.parts.map Datagram.call)
    (hall : AllOffered (m.parts.map Datagram.call) calls) {head : MessageSegmentList}
    (hdesc : Describes calls head) {malloc : Nat → Bool} (hmalloc : ∀ size, malloc size = true)
    {p : UnyteSegMet} (hkey : p.key = m.key) :
    ∃ w, assembleList malloc p head = some w ∧
      w.content = (Message.segmented m).content := by
  have hcontent : ∀ c ∈ m.parts.map Datagram.call, c.content.length = c.payloadSize.toNat := by
    intro c hc
    obtain ⟨d, _, rfl⟩ := List.mem_map.mp hc
    have hsize : d.size ≤ udpSize := d.size_le
    have hheader := d.headerLength_toNat
    have hmessage := d.messageLength_toNat
    change d.payload.length = d.header.payloadSize.toNat
    simp only [UnyteHeader.payloadSize, Datagram.header, BitVec.toNat_sub, BitVec.toNat_setWidth,
      hheader, hmessage]
    simp only [Datagram.size, udpSize] at hsize ⊢
    omega
  obtain ⟨_, hpayload⟩ := m.segmentSet.reassemblePayload_eq hcalls hall hcontent hdesc malloc
  rw [hmalloc, if_pos rfl, List.flatMap_map] at hpayload
  refine ⟨_, by rw [assembleList, hpayload]; rfl, ?_⟩
  change (p.key, m.parts.flatMap _) = (m.key, m.parts.flatMap _)
  rw [hkey]
  rfl

end UdpNotif
