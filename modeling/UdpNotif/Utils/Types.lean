import UdpNotif.Constants

/-!
The data types of `unyte_udp_utils.h`. A linked list of options behind its
empty head node is the list of the nodes after that head.
-/

namespace UdpNotif

/-- One node of an option list. `length` is the declared TLV length, `data`
the bytes behind the type and length bytes. -/
structure UnyteOption where
  type : Uint8
  length : Uint8
  data : List Uint8
deriving DecidableEq, Repr

/-- The four segmentation fields of a header. The source assigns them
together, or not at all. -/
structure UnyteSegmentation where
  fType : Uint8
  fLen : Uint8
  fNum : BitVec 31
  fLast : BitVec 1
deriving DecidableEq, Repr

/-- `unyte_header_t`. `segmentation` is `none` while the segmentation fields
still hold whatever the allocated memory held. -/
structure UnyteHeader where
  version : BitVec 3
  space : BitVec 1
  mediaType : BitVec 4
  headerLength : Uint8
  messageLength : Uint16
  observationDomainId : Uint32
  messageId : Uint32
  segmentation : Option UnyteSegmentation
  options : List UnyteOption
deriving DecidableEq, Repr

/-- `struct sockaddr_storage`, as its bytes. -/
structure SockaddrStorage where
  bytes : List Uint8
deriving DecidableEq, Repr

/-- `unyte_metadata_t`. The destination is `NULL` unless it was asked for. -/
structure UnyteMetadata where
  src : SockaddrStorage
  dest : Option SockaddrStorage
deriving DecidableEq, Repr

/-- The part of `unyte_seg_met_t` the sender fills in. -/
structure UnyteSeg where
  header : UnyteHeader
  payload : List Uint8
deriving DecidableEq, Repr

/-- `unyte_seg_met_t` -/
structure UnyteSegMet extends UnyteSeg where
  metadata : UnyteMetadata
deriving DecidableEq, Repr

/-- One buffer the listener allocates for `recvmmsg`. -/
abbrev RecvBuffer := { bytes : List Uint8 // bytes.length = udpSize }

/-- A buffer after a datagram was received into it. The bytes behind the
datagram are what the allocated memory held before. -/
def RecvBuffer.receive (heap : RecvBuffer) (datagram : List Uint8)
    (h : datagram.length ≤ udpSize) : RecvBuffer :=
  ⟨datagram ++ heap.val.drop datagram.length, by
    have hheap := heap.property
    simp only [List.length_append, List.length_drop]
    omega⟩

/-- A receive buffer of zero bytes. -/
def RecvBuffer.zeroed : RecvBuffer := ⟨List.replicate udpSize 0, List.length_replicate⟩

/-- `unyte_min_t`, the element of a parser's input queue. -/
structure UnyteMin where
  observationDomainId : Uint32
  messageId : Uint32
  buffer : RecvBuffer
  src : SockaddrStorage
  dest : Option SockaddrStorage
deriving DecidableEq

/-- Sum of the declared lengths of an option list. -/
def optionsTotalBytes (options : List UnyteOption) : Uint32 :=
  options.foldl (fun length cur => length + cur.length.setWidth 32) 0

@[simp] theorem optionsTotalBytes_nil : optionsTotalBytes [] = 0 := rfl

theorem optionsTotalBytes_concat (options : List UnyteOption) (o : UnyteOption) :
    optionsTotalBytes (options ++ [o]) = optionsTotalBytes options + o.length.setWidth 32 := by
  rw [optionsTotalBytes, List.foldl_append]
  rfl

theorem optionsTotalBytes_append (left right : List UnyteOption) :
    optionsTotalBytes (left ++ right) = optionsTotalBytes left + optionsTotalBytes right := by
  induction right using List.reverseRecOn with
  | nil => simp
  | append_singleton right o ih =>
      rw [← List.append_assoc, optionsTotalBytes_concat, optionsTotalBytes_concat, ih]
      exact BitVec.add_assoc _ _ _

/-- The sum as a number, which wraps only for sums no packet can declare. -/
theorem optionsTotalBytes_toNat (options : List UnyteOption) :
    (optionsTotalBytes options).toNat =
      (options.map (fun o => o.length.toNat)).sum % 2 ^ 32 := by
  induction options using List.reverseRecOn with
  | nil => rfl
  | append_singleton options o ih =>
      rw [optionsTotalBytes_concat, BitVec.toNat_add, ih, List.map_append, List.sum_append]
      simp only [BitVec.toNat_setWidth, List.map_cons, List.map_nil, List.sum_cons, List.sum_nil]
      omega

/-- The sum does not depend on the order of the options. -/
theorem optionsTotalBytes_perm {left right : List UnyteOption} (h : left.Perm right) :
    optionsTotalBytes left = optionsTotalBytes right := by
  refine BitVec.eq_of_toNat_eq ?_
  rw [optionsTotalBytes_toNat, optionsTotalBytes_toNat, (h.map _).sum_nat]

/-- `is_segmented` -/
def isSegmented (header : UnyteHeader) : Bool :=
  BitVec.ofNat 32 headerBytes + optionsTotalBytes header.options <
    header.headerLength.setWidth 32

theorem isSegmented_iff (header : UnyteHeader) :
    isSegmented header = true ↔
      (12 + (optionsTotalBytes header.options).toNat) % 2 ^ 32 < header.headerLength.toNat := by
  simp only [isSegmented, headerBytes, decide_eq_true_eq]
  rw [BitVec.lt_def, BitVec.toNat_add, BitVec.toNat_setWidth, BitVec.toNat_ofNat]
  have hlen := header.headerLength.isLt
  rw [Nat.mod_eq_of_lt (by omega : header.headerLength.toNat < 2 ^ 32)]

/-- `unyte_udp_get_payload_length` -/
def unyteUdpGetPayloadLength (message : UnyteSegMet) : Uint16 :=
  message.header.messageLength - message.header.headerLength.setWidth 16

end UdpNotif
