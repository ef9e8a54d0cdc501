import UdpNotif.Utils.Parse

/-!
The udp-notif wire format: a fixed header, options of at least two bytes that
tile the rest of the header, and the payload. `Datagram` is a well-formed packet
as a value; the fields that bound its sizes make every value encodable.
`parseWithMetadata_encode` says what the parse function makes of its bytes,
whatever follows them in the receive buffer.
-/

namespace UdpNotif

/-- A 16-bit word in network order. -/
def networkBytes16 (u : Uint16) : List Uint8 := [(u >>> 8).setWidth 8, u.setWidth 8]

/-- A 32-bit word in network order. -/
def networkBytes32 (u : Uint32) : List Uint8 :=
  [(u >>> 24).setWidth 8, (u >>> 16).setWidth 8, (u >>> 8).setWidth 8, u.setWidth 8]

/-- An option on the wire. A segmentation option starts with its number and its
last flag; bytes behind these are ignored. -/
inductive WireOption where
  | custom (type : Uint8) (data : List Uint8) (type_ne : type ≠ unyteTypeSegmentation)
      (data_le : data.length ≤ 253)
  | segmentation (number : BitVec 15) (last : Bool) (extra : List Uint8)
      (extra_le : extra.length ≤ 251)

namespace WireOption

/-- A segmentation option with nothing behind its number and last flag. -/
theorem no_extra_le : ([] : List Uint8).length ≤ 251 := Nat.zero_le 251

/-- Number and last flag of a segment in one word. -/
def word (number : BitVec 15) (last : Bool) : Uint16 :=
  .ofNat 16 (number.toNat * 2 + last.toNat)

/-- The length byte of an option. -/
def length : WireOption → Uint8
  | custom _ data _ _ => .ofNat 8 (data.length + 2)
  | segmentation _ _ extra _ => .ofNat 8 (extra.length + unyteSegmentationOptionLen)

/-- The bytes of an option. -/
def bytes : WireOption → List Uint8
  | o@(custom type data _ _) => type :: o.length :: data
  | o@(segmentation number last extra _) =>
      unyteTypeSegmentation :: o.length :: (networkBytes16 (word number last) ++ extra)

/-- What the option loop makes of an option. -/
def read (s : OptionLoopState) : WireOption → OptionLoopState
  | o@(custom type data _ _) => { s with
      optionsLength := s.optionsLength + o.length.toNat
      options := s.options ++ [⟨type, o.length, data⟩] }
  | o@(segmentation number last _ _) => { s with
      optionsLength := s.optionsLength + o.length.toNat
      segmentation :=
        some ⟨unyteTypeSegmentation, o.length, number.setWidth 31, .ofBool last⟩ }

theorem length_toNat (o : WireOption) : o.length.toNat = o.bytes.length := by
  cases o with
  | custom type data type_ne data_le =>
      simp only [length, bytes, List.length_cons, BitVec.toNat_ofNat]
      omega
  | segmentation number last extra extra_le =>
      simp only [length, bytes, List.length_cons, List.length_append, networkBytes16,
        BitVec.toNat_ofNat, unyteSegmentationOptionLen, List.length_nil]
      omega

theorem two_le_length (o : WireOption) : 2 ≤ o.bytes.length := by
  cases o <;> simp [bytes]

end WireOption

/-- The bytes of a list of options. -/
def optionBytes (options : List WireOption) : List Uint8 := options.flatMap WireOption.bytes

/-- A well-formed packet. -/
structure Datagram where
  version : BitVec 3
  space : BitVec 1
  mediaType : BitVec 4
  observationDomainId : Uint32
  messageId : Uint32
  options : List WireOption
  payload : List Uint8
  header_le : headerBytes + (optionBytes options).length < 2 ^ 8
  size_le : headerBytes + (optionBytes options).length + payload.length ≤ udpSize

namespace Datagram

/-- The number of header bytes. -/
def headerLength (d : Datagram) : Nat := headerBytes + (optionBytes d.options).length

/-- The number of bytes. -/
def size (d : Datagram) : Nat := d.headerLength + d.payload.length

/-- The bytes before the options. -/
def fixedHeader (d : Datagram) : List Uint8 :=
  [d.version.setWidth 8 <<< 5 ||| d.space.setWidth 8 <<< 4 ||| d.mediaType.setWidth 8,
    .ofNat 8 d.headerLength] ++ networkBytes16 (.ofNat 16 d.size) ++
    networkBytes32 d.observationDomainId ++ networkBytes32 d.messageId

/-- The bytes of a packet. -/
def encode (d : Datagram) : List Uint8 := d.fixedHeader ++ (optionBytes d.options ++ d.payload)

/-- The values the option loop ends with. -/
def loopState (d : Datagram) : OptionLoopState := d.options.foldl WireOption.read .init

/-- The header a packet is parsed to. The space bit is lost. -/
def header (d : Datagram) : UnyteHeader where
  version := d.version
  space := 0
  mediaType := d.mediaType
  headerLength := .ofNat 8 d.headerLength
  messageLength := .ofNat 16 d.size
  observationDomainId := d.observationDomainId
  messageId := d.messageId
  segmentation := d.loopState.segmentation
  options := d.loopState.options

/-- What the parse function makes of a packet. -/
def parsed (d : Datagram) (um : UnyteMin) : UnyteSegMet where
  header := d.header
  payload := d.payload
  metadata := { src := um.src, dest := um.dest }

theorem encode_length (d : Datagram) : d.encode.length = d.size := by
  simp only [encode, fixedHeader, networkBytes16, networkBytes32, List.length_append,
    List.length_cons, List.length_nil, size, headerLength, headerBytes]
  omega

end Datagram

theorem charAt_append_right (pre l : List Uint8) (i : Nat) :
    charAt (pre ++ l) (pre.length + i) = charAt l i := by
  simp [charAt, List.getD_eq_getElem?_getD, List.getElem?_append_right]

theorem bytesAt_append_right (pre l : List Uint8) (i : Nat) (size : Int) :
    bytesAt (pre ++ l) (pre.length + i) size = bytesAt l i size := by
  rw [bytesAt, bytesAt, List.drop_append, List.drop_eq_nil_of_le (Nat.le_add_right _ _),
    List.nil_append, Nat.add_sub_cancel_left]

/-- A word written in network order is read back. -/
theorem ntohs_networkBytes16 {segment : List Uint8} {p : Nat} {u : Uint16}
    (h0 : charAt segment p = (u >>> 8).setWidth 8) (h1 : charAt segment (p + 1) = u.setWidth 8) :
    ntohs (deserializeUint16 segment p) = u := by
  refine BitVec.eq_of_toNat_eq ?_
  have hu := u.isLt
  rw [ntohs_deserializeUint16, h0, h1]
  simp only [BitVec.toNat_setWidth, BitVec.toNat_ushiftRight, Nat.shiftRight_eq_div_pow]
  omega

theorem ntohl_networkBytes32 {segment : List Uint8} {p : Nat} {u : Uint32}
    (h0 : charAt segment p = (u >>> 24).setWidth 8)
    (h1 : charAt segment (p + 1) = (u >>> 16).setWidth 8)
    (h2 : charAt segment (p + 2) = (u >>> 8).setWidth 8)
    (h3 : charAt segment (p + 3) = u.setWidth 8) :
    ntohl (deserializeUint32 segment p) = u := by
  refine BitVec.eq_of_toNat_eq ?_
  have hu := u.isLt
  rw [ntohl_deserializeUint32, h0, h1, h2, h3]
  simp only [BitVec.toNat_setWidth, BitVec.toNat_ushiftRight, Nat.shiftRight_eq_div_pow]
  omega

/-- The number and the last flag of an encoded segmentation option. -/
theorem readSegmentation_word (pre extra rest : List Uint8) (number : BitVec 15) (last : Bool)
    (length : Uint8) :
    readSegmentation (pre ++ (unyteTypeSegmentation :: length ::
      (networkBytes16 (WireOption.word number last) ++ extra) ++ rest)) pre.length =
      ⟨unyteTypeSegmentation, length, number.setWidth 31, .ofBool last⟩ := by
  have hchar (i : Nat) := charAt_append_right pre (unyteTypeSegmentation :: length ::
    (networkBytes16 (WireOption.word number last) ++ extra) ++ rest) i
  have hnumber := number.isLt
  have hword : (WireOption.word number last).toNat = number.toNat * 2 + last.toNat := by
    have hlast := Bool.toNat_lt last
    rw [WireOption.word, BitVec.toNat_ofNat]
    omega
  have h3 : charAt (pre ++ (unyteTypeSegmentation :: length ::
      (networkBytes16 (WireOption.word number last) ++ extra) ++ rest)) (pre.length + 3) =
      (WireOption.word number last).setWidth 8 := hchar 3
  have hread := ntohs_networkBytes16 (hchar 2) h3
  rw [readSegmentation, hread, h3]
  have htype := hchar 0
  rw [Nat.add_zero] at htype
  rw [htype, hchar 1]
  have hnum : (WireOption.word number last >>> 1).setWidth 31 = number.setWidth 31 := by
    refine BitVec.eq_of_toNat_eq ?_
    have hlast := Bool.toNat_lt last
    simp only [BitVec.toNat_setWidth, BitVec.toNat_ushiftRight, Nat.shiftRight_eq_div_pow, hword]
    omega
  have hflag : (if (WireOption.word number last).setWidth 8 &&& 0b00000001 = 1 then
      (1 : BitVec 1) else 0) = .ofBool last := by
    have hodd : (WireOption.word number last).setWidth 8 &&& (1 : Uint8) =
        .ofNat 8 last.toNat := by
      refine BitVec.eq_of_toNat_eq ?_
      have hlast := Bool.toNat_lt last
      have hone : (1 : Uint8).toNat = 1 := rfl
      rw [BitVec.toNat_and, BitVec.toNat_setWidth, hword, hone,
        Nat.and_one_is_mod, BitVec.toNat_ofNat]
      omega
    rw [hodd]
    cases last <;> rfl
  rw [hnum, hflag]
  rfl

/-- One iteration of the option loop reads the option it stands at. -/
theorem optionLoopBody_bytes (pre rest : List Uint8) (o : WireOption) (s : OptionLoopState)
    (hpre : pre.length = headerBytes + s.optionsLength) :
    optionLoopBody (pre ++ (o.bytes ++ rest)) s = some (o.read s) := by
  have hlen := o.length_toNat
  have h0 := charAt_append_right pre (o.bytes ++ rest) 0
  have h1 := charAt_append_right pre (o.bytes ++ rest) 1
  have hlong := o.two_le_length
  have hsize : mallocSucceeds (o.length.toNat - 2) = true := by
    simp only [mallocSucceeds, decide_eq_true_eq]
    omega
  rw [Nat.add_zero] at h0
  cases o with
  | custom type data type_ne data_le =>
      have hdata := bytesAt_append_right pre
        ((WireOption.custom type data type_ne data_le).bytes ++ rest) 2
        (((WireOption.custom type data type_ne data_le).length.toNat : Int) - 2)
      change charAt _ _ = type at h0
      change charAt _ _ = (WireOption.custom type data type_ne data_le).length at h1
      have hbytes : bytesAt ((WireOption.custom type data type_ne data_le).bytes ++ rest) 2
          (((WireOption.custom type data type_ne data_le).length.toNat : Int) - 2) = data := by
        have hcount : (((WireOption.custom type data type_ne data_le).bytes.length : Int) -
            2).toNat = data.length := by
          simp only [WireOption.bytes, List.length_cons]
          omega
        rw [hlen, bytesAt, hcount]
        exact List.take_left
      simp only [optionLoopBody, ← hpre, h0, h1, if_neg type_ne, hsize, if_true,
        WireOption.read, readCustomOption, hdata, hbytes]
  | segmentation number last extra extra_le =>
      have hseg := readSegmentation_word pre extra rest number last
        (WireOption.segmentation number last extra extra_le).length
      change charAt _ _ = unyteTypeSegmentation at h0
      change charAt _ _ = (WireOption.segmentation number last extra extra_le).length at h1
      simp only [optionLoopBody, ← hpre, h0, h1, if_true, WireOption.read]
      exact congrArg some (congrArg (fun seg => OptionLoopState.mk _ (some seg) _) hseg)

theorem WireOption.read_optionsLength (s : OptionLoopState) (o : WireOption) :
    (o.read s).optionsLength = s.optionsLength + o.bytes.length := by
  rw [← o.length_toNat]
  cases o <;> rfl

/-- The option loop reads the options that tile the header. -/
theorem optionLoop_optionBytes (options : List WireOption) (pre rest : List Uint8)
    (headerLength : Uint8) (s : OptionLoopState) (fuel : Nat)
    (hpre : pre.length = headerBytes + s.optionsLength)
    (hheader : headerLength.toNat = pre.length + (optionBytes options).length)
    (hfuel : options.length < fuel) :
    optionLoop (pre ++ (optionBytes options ++ rest)) headerLength fuel s =
      .done (options.foldl WireOption.read s) := by
  induction options generalizing pre s fuel with
  | nil =>
      cases fuel with
      | zero => omega
      | succ fuel =>
          simp only [optionBytes, List.flatMap_nil, List.length_nil] at hheader
          rw [optionLoop, if_neg (by omega)]
          rfl
  | cons o options ih =>
      cases fuel with
      | zero => omega
      | succ fuel =>
          have hsplit : optionBytes (o :: options) = o.bytes ++ optionBytes options := rfl
          have hlong := o.two_le_length
          rw [hsplit, List.length_append] at hheader
          rw [hsplit, optionLoop, if_pos (by omega), List.append_assoc,
            optionLoopBody_bytes pre _ o s hpre]
          have hnext := ih (pre ++ o.bytes) (o.read s) fuel
            (by rw [WireOption.read_optionsLength, List.length_append]; omega)
            (by rw [List.length_append]; omega) (by rw [List.length_cons] at hfuel; omega)
          rw [List.append_assoc] at hnext
          exact hnext

theorem optionBytes_length_le (options : List WireOption) :
    2 * options.length ≤ (optionBytes options).length := by
  induction options with
  | nil => exact Nat.zero_le _
  | cons o options ih =>
      have hlong := o.two_le_length
      have hsplit : optionBytes (o :: options) = o.bytes ++ optionBytes options := rfl
      rw [hsplit, List.length_append, List.length_cons]
      omega

/-- The first byte of a packet, read back field by field. -/
private theorem firstByte_fields (version : BitVec 3) (space : BitVec 1) (mediaType : BitVec 4) :
    let byte : Uint8 :=
      version.setWidth 8 <<< 5 ||| space.setWidth 8 <<< 4 ||| mediaType.setWidth 8
    (byte >>> 5).setWidth 3 = version ∧ (byte &&& spaceMask).setWidth 1 = (0 : BitVec 1) ∧
      (byte &&& etMask).setWidth 4 = mediaType := by
  revert version space mediaType
  decide

namespace Datagram

variable (d : Datagram) (rest : List Uint8)

theorem headerLength_toNat : (BitVec.ofNat 8 d.headerLength).toNat = d.headerLength := by
  have hheader := d.header_le
  rw [BitVec.toNat_ofNat]
  exact Nat.mod_eq_of_lt hheader

theorem messageLength_toNat : (BitVec.ofNat 16 d.size).toNat = d.size := by
  have hsize : d.size ≤ udpSize := d.size_le
  rw [BitVec.toNat_ofNat]
  exact Nat.mod_eq_of_lt (by simp only [udpSize] at hsize; omega)

theorem deserialize_messageLength :
    ntohs (deserializeUint16 (d.encode ++ rest) 2) = .ofNat 16 d.size :=
  ntohs_networkBytes16 rfl rfl

theorem deserialize_observationDomainId :
    ntohl (deserializeUint32 (d.encode ++ rest) 4) = d.observationDomainId :=
  ntohl_networkBytes32 rfl rfl rfl rfl

theorem deserialize_messageId :
    ntohl (deserializeUint32 (d.encode ++ rest) 8) = d.messageId :=
  ntohl_networkBytes32 rfl rfl rfl rfl

theorem optionLoop_encode :
    optionLoop (d.encode ++ rest) (charAt (d.encode ++ rest) 1) optionLoopFuel .init =
      .done d.loopState := by
  have hbytes := optionBytes_length_le d.options
  have hheader := d.header_le
  have hloop := optionLoop_optionBytes d.options d.fixedHeader (d.payload ++ rest)
    (.ofNat 8 d.headerLength) .init optionLoopFuel rfl d.headerLength_toNat
    (by simp only [headerBytes, optionLoopFuel] at hheader ⊢; omega)
  rw [encode, List.append_assoc, List.append_assoc]
  exact hloop

theorem payloadSizeOf_encode : payloadSizeOf (d.encode ++ rest) = d.payload.length := by
  have hchar : charAt (d.encode ++ rest) 1 = .ofNat 8 d.headerLength := rfl
  rw [payloadSizeOf, deserialize_messageLength, messageLength_toNat, hchar, headerLength_toNat,
    size]
  omega

/-- A packet is parsed to its fields, its options and its payload, whatever
follows it in the buffer; only the space bit is lost. -/
theorem parseWithMetadata_encode (um : UnyteMin) :
    parseWithMetadata (d.encode ++ rest) um = .ok (d.parsed um) := by
  have hsize := d.payloadSizeOf_encode rest
  refine (parseWithMetadata_eq_ok_iff _ _ _).mpr ⟨d.loopState, d.optionLoop_encode rest, ?_, ?_⟩
  · rw [hsize]
    omega
  · have hchar : charAt (d.encode ++ rest) 1 = .ofNat 8 d.headerLength := rfl
    have hpayload : bytesAt (d.encode ++ rest) d.headerLength d.payload.length = d.payload := by
      have hsplit : d.encode ++ rest =
          (d.fixedHeader ++ optionBytes d.options) ++ (d.payload ++ rest) := by
        simp only [encode, List.append_assoc]
      have hlen : (d.fixedHeader ++ optionBytes d.options).length + 0 = d.headerLength := by
        rw [Nat.add_zero, List.length_append]
        rfl
      rw [hsplit, ← hlen, bytesAt_append_right, bytesAt, Int.toNat_natCast, List.drop_zero]
      exact List.take_left
    obtain ⟨hversion, hspace, hmedia⟩ := firstByte_fields d.version d.space d.mediaType
    change (charAt (d.encode ++ rest) 0 >>> 5).setWidth 3 = _ at hversion
    change (charAt (d.encode ++ rest) 0 &&& spaceMask).setWidth 1 = _ at hspace
    change (charAt (d.encode ++ rest) 0 &&& etMask).setWidth 4 = _ at hmedia
    rw [parsedSegment, hsize, hchar, headerLength_toNat, hpayload, deserialize_messageLength,
      deserialize_observationDomainId, deserialize_messageId, hversion, hspace, hmedia]
    rfl

end Datagram

end UdpNotif
