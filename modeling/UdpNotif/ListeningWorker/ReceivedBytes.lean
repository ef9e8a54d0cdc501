import UdpNotif.ListeningWorker.Collector

/-!
Which bytes of a receive buffer decide what becomes of a datagram. The lengths
inside a packet are compared with each other and never with the number of bytes
that were received, so that a packet can make the parser read what the buffer
held before. `walkStaysReceived` follows the option loop as far as the received
bytes tell where it goes.
-/

namespace UdpNotif

/-- The payload bytes of a packet were received. -/
def payloadStaysReceived (datagram : List Uint8) : Bool :=
  let messageLength := (ntohs (deserializeUint16 datagram 2)).toNat
  messageLength ≤ datagram.length || messageLength = (charAt datagram 1).toNat

/-- From `offset` on, the option loop reads received bytes only, or meets an
option that makes the parse fail or never end. `known` tells that the bytes of
the last segmentation option were received; an option met later replaces it. -/
def walkStaysReceived (datagram : List Uint8) : Nat → Nat → Bool → Bool
  | 0, _, _ => true
  | fuel + 1, offset, known =>
      let length := (charAt datagram (offset + 1)).toNat
      if offset < (charAt datagram 1).toNat then
        offset + 1 < datagram.length &&
          if charAt datagram offset = unyteTypeSegmentation then
            length = 0 ||
              walkStaysReceived datagram fuel (offset + length) (offset + 3 < datagram.length)
          else
            length < 2 ||
              (offset + length ≤ datagram.length &&
                walkStaysReceived datagram fuel (offset + length) known)
      else known && payloadStaysReceived datagram

/-- The bytes that pick the parser were received, and either the lengths that refuse
the packet, or the header with all that decides how the option loop ends, and where it
comes to its end the numbers of the last segmentation option and the payload. -/
def StaysReceived (nbParsers : Uint32) (datagram : List Uint8) : Prop :=
  (nbParsers = 1 ∨ 8 ≤ datagram.length) ∧
    ((4 ≤ datagram.length ∧
        (ntohs (deserializeUint16 datagram 2)).toNat < (charAt datagram 1).toNat) ∨
      (headerBytes ≤ datagram.length ∧
        walkStaysReceived datagram optionLoopFuel headerBytes true = true))

/-- Two buffers a datagram was received into lead to the same parser and to the
same parse result. -/
def DecidedByReceived (nbParsers : Uint32) (datagram : List Uint8)
    (h : datagram.length ≤ udpSize) : Prop :=
  ∀ (heap heap' : RecvBuffer) (src : SockaddrStorage) (dest : Option SockaddrStorage),
    let um := minimalParse (heap.receive datagram h) src dest
    let um' := minimalParse (heap'.receive datagram h) src dest
    parserIndex nbParsers um = parserIndex nbParsers um' ∧
      (OptionLoopEnds um.buffer.val → OptionLoopEnds um'.buffer.val →
        parseWithMetadata um.buffer.val um = parseWithMetadata um'.buffer.val um')

section Received

variable {datagram : List Uint8}

theorem charAt_append_left (rest : List Uint8) {i : Nat} (h : i < datagram.length) :
    charAt (datagram ++ rest) i = charAt datagram i := by
  simp [charAt, List.getD_eq_getElem?_getD, List.getElem?_append_left h]

theorem deserializeUint16_append_left (rest : List Uint8) {p : Nat}
    (h : p + 1 < datagram.length) :
    deserializeUint16 (datagram ++ rest) p = deserializeUint16 datagram p := by
  unfold deserializeUint16
  rw [charAt_append_left rest (by omega), charAt_append_left rest h]

theorem deserializeUint32_append_left (rest : List Uint8) {p : Nat}
    (h : p + 3 < datagram.length) :
    deserializeUint32 (datagram ++ rest) p = deserializeUint32 datagram p := by
  unfold deserializeUint32
  rw [charAt_append_left rest (by omega), charAt_append_left rest (by omega),
    charAt_append_left rest (by omega), charAt_append_left rest h]

theorem bytesAt_append_left (rest : List Uint8) {offset : Nat} {size : Int}
    (h : offset + size.toNat ≤ datagram.length) :
    bytesAt (datagram ++ rest) offset size = bytesAt datagram offset size := by
  rw [bytesAt, bytesAt, List.drop_append_of_le_length (by omega),
    List.take_append_of_le_length (by rw [List.length_drop]; omega)]

theorem readSegmentation_append_left (rest : List Uint8) {offset : Nat}
    (h : offset + 3 < datagram.length) :
    readSegmentation (datagram ++ rest) offset = readSegmentation datagram offset := by
  unfold readSegmentation
  rw [charAt_append_left rest (by omega), charAt_append_left rest (by omega),
    charAt_append_left rest h, deserializeUint16_append_left rest h]

theorem readCustomOption_append_left (rest : List Uint8) {offset : Nat}
    (hread : offset + 1 < datagram.length)
    (hdata : offset + (charAt datagram (offset + 1)).toNat ≤ datagram.length) :
    readCustomOption (datagram ++ rest) offset = readCustomOption datagram offset := by
  unfold readCustomOption
  rw [charAt_append_left rest (by omega), charAt_append_left rest hread,
    bytesAt_append_left rest (by omega)]

theorem payloadSizeOf_append_left (rest : List Uint8) (h : 4 ≤ datagram.length) :
    payloadSizeOf (datagram ++ rest) = payloadSizeOf datagram := by
  unfold payloadSizeOf
  rw [charAt_append_left rest (by omega), deserializeUint16_append_left rest (by omega)]

section Iteration

variable (rest : List Uint8) (s : OptionLoopState)

/-- An iteration at a segmentation option whose length was received. -/
theorem optionLoopBody_segmentation (hread : headerBytes + s.optionsLength + 1 < datagram.length)
    (htype : charAt datagram (headerBytes + s.optionsLength) = unyteTypeSegmentation) :
    optionLoopBody (datagram ++ rest) s = some { s with
      optionsLength := s.optionsLength +
        (charAt datagram (headerBytes + s.optionsLength + 1)).toNat
      segmentation := some (readSegmentation (datagram ++ rest)
        (headerBytes + s.optionsLength)) } := by
  have hbody := optionLoopBody_cases (datagram ++ rest) s
  rw [charAt_append_left rest (by omega : headerBytes + s.optionsLength < datagram.length),
    charAt_append_left rest hread] at hbody
  simpa only [htype, ne_eq, not_true_eq_false, true_and, false_and, or_false] using hbody

/-- An iteration at a custom option whose length was received. -/
theorem optionLoopBody_custom (hread : headerBytes + s.optionsLength + 1 < datagram.length)
    (htype : charAt datagram (headerBytes + s.optionsLength) ≠ unyteTypeSegmentation) :
    optionLoopBody (datagram ++ rest) s =
      if (charAt datagram (headerBytes + s.optionsLength + 1)).toNat < 2 then none
      else some { s with
        optionsLength := s.optionsLength +
          (charAt datagram (headerBytes + s.optionsLength + 1)).toNat
        options := s.options ++ [readCustomOption (datagram ++ rest)
          (headerBytes + s.optionsLength)] } := by
  have hbody := optionLoopBody_cases (datagram ++ rest) s
  rw [charAt_append_left rest (by omega : headerBytes + s.optionsLength < datagram.length),
    charAt_append_left rest hread] at hbody
  split
  · rename_i hshort
    simpa only [htype, hshort, Nat.not_le.mpr hshort, ne_eq, not_false_eq_true, true_and,
      false_and, and_false, false_or] using hbody
  · rename_i hlong
    simpa only [htype, hlong, Nat.not_lt.mp hlong, ne_eq, not_false_eq_true, true_and, false_and,
      and_false, false_or, or_false] using hbody

end Iteration

/-- A walk that stays within the received bytes ends alike in every buffer. -/
theorem optionLoop_append_left (rest rest' : List Uint8) {fuel : Nat} (s s' : OptionLoopState)
    {known : Bool} (hlen : s'.optionsLength = s.optionsLength) (hopts : s'.options = s.options)
    (hseg : known = true → s'.segmentation = s.segmentation)
    (hwalk : walkStaysReceived datagram fuel (headerBytes + s.optionsLength) known = true) :
    optionLoop (datagram ++ rest') (charAt datagram 1) fuel s' =
        optionLoop (datagram ++ rest) (charAt datagram 1) fuel s ∧
      ∀ t, optionLoop (datagram ++ rest) (charAt datagram 1) fuel s = .done t →
        payloadStaysReceived datagram = true := by
  induction fuel generalizing s s' known with
  | zero => exact ⟨rfl, fun t ht => by cases ht⟩
  | succ fuel ih =>
      rw [walkStaysReceived] at hwalk
      by_cases hcond : s.optionsLength + headerBytes < (charAt datagram 1).toNat
      · have hcond' := hlen.symm ▸ hcond
        simp only [Nat.add_comm _ headerBytes ▸ hcond, if_true, Bool.and_eq_true,
          decide_eq_true_eq] at hwalk
        obtain ⟨hread, hwalk⟩ := hwalk
        by_cases htype : charAt datagram (headerBytes + s.optionsLength) = unyteTypeSegmentation
        · simp only [htype, if_true, Bool.or_eq_true, decide_eq_true_eq] at hwalk
          rcases hwalk with hzero | hwalk
          · -- an option of length zero is met for ever
            have hstuck (r : List Uint8) {t : OptionLoopState}
                (ht : t.optionsLength = s.optionsLength) :
                optionLoop (datagram ++ r) (charAt datagram 1) (fuel + 1) t = .running := by
              refine optionLoop_stuck _ _ t (by rw [ht]; exact hcond) ?_ ?_ _
              · rw [ht, charAt_append_left r (by omega)]
                exact htype
              · rw [ht, charAt_append_left r hread]
                exact hzero
            rw [hstuck rest rfl, hstuck rest' hlen]
            exact ⟨rfl, fun t ht => by cases ht⟩
          · have hbody := optionLoopBody_segmentation rest s hread htype
            rw [← hlen] at hread htype
            have hbody' := optionLoopBody_segmentation rest' s' hread htype
            simp only [optionLoop, if_pos hcond, hbody, hbody', hlen]
            refine ih _ _ rfl hopts (fun hknown => ?_) (by rw [← Nat.add_assoc]; exact hwalk)
            rw [decide_eq_true_eq] at hknown
            simp only [readSegmentation_append_left rest hknown,
              readSegmentation_append_left rest' hknown]
        · have hbody := optionLoopBody_custom rest s hread htype
          rw [← hlen] at hread htype
          have hbody' := optionLoopBody_custom rest' s' hread htype
          rw [hlen] at hread htype
          simp only [htype, if_false, Bool.or_eq_true, Bool.and_eq_true,
            decide_eq_true_eq] at hwalk
          rw [hlen] at hbody'
          by_cases hshort : (charAt datagram (headerBytes + s.optionsLength + 1)).toNat < 2
          · rw [if_pos hshort] at hbody hbody'
            simp only [optionLoop, if_pos hcond, if_pos hcond', hbody, hbody']
            exact ⟨trivial, fun t ht => by cases ht⟩
          · rw [if_neg hshort] at hbody hbody'
            obtain ⟨hdata, hwalk⟩ := hwalk.resolve_left hshort
            have hcustom (r : List Uint8) := readCustomOption_append_left r hread hdata
            simp only [optionLoop, if_pos hcond, if_pos hcond', hbody, hbody']
            exact ih _ _ rfl (by simp only [hopts, hcustom]) hseg
              (by rw [← Nat.add_assoc]; exact hwalk)
      · have hcond' := hlen.symm ▸ hcond
        simp only [Nat.add_comm _ headerBytes ▸ hcond, if_false, Bool.and_eq_true] at hwalk
        simp only [optionLoop, if_neg hcond, if_neg hcond']
        refine ⟨?_, fun _ _ => hwalk.2⟩
        rw [OptionLoopResult.done.injEq]
        obtain ⟨_, _, _⟩ := s
        obtain ⟨_, _, _⟩ := s'
        exact congr (congr (congrArg _ hlen) (hseg hwalk.1)) hopts

/-- A parse that stays within the received bytes gives the same result in every
buffer. -/
theorem parseWithMetadata_append_left {um um' : UnyteMin} (hsrc : um.src = um'.src)
    (hdest : um.dest = um'.dest) (rest rest' : List Uint8)
    (hheader : headerBytes ≤ datagram.length)
    (hwalk : walkStaysReceived datagram optionLoopFuel headerBytes true = true) :
    parseWithMetadata (datagram ++ rest) um = parseWithMetadata (datagram ++ rest') um' := by
  simp only [headerBytes] at hheader
  have hchar0 (r : List Uint8) := charAt_append_left r (by omega : 0 < datagram.length)
  have hchar1 (r : List Uint8) := charAt_append_left r (by omega : 1 < datagram.length)
  have hword (r : List Uint8) := deserializeUint16_append_left r
    (by omega : 2 + 1 < datagram.length)
  obtain ⟨hloop, hpayload⟩ := optionLoop_append_left rest rest' .init .init rfl rfl
    (fun _ => rfl) hwalk
  unfold parseWithMetadata
  simp only [hchar1, payloadSizeOf_append_left _ (by omega : 4 ≤ datagram.length), hloop]
  cases hresult : optionLoop (datagram ++ rest) (charAt datagram 1) optionLoopFuel .init with
  | running | mallocFailed => rfl
  | done t =>
      have hbytes (r : List Uint8) : bytesAt (datagram ++ r) (charAt datagram 1).toNat
          (payloadSizeOf datagram) =
            bytesAt datagram (charAt datagram 1).toNat (payloadSizeOf datagram) := by
        have hstays := hpayload t hresult
        simp only [payloadStaysReceived, Bool.or_eq_true, decide_eq_true_eq] at hstays
        by_cases hsize : (payloadSizeOf datagram).toNat = 0
        · rw [bytesAt, bytesAt, hsize]
          rfl
        · refine bytesAt_append_left r ?_
          unfold payloadSizeOf at hsize ⊢
          omega
      simp only [parsedSegment, hchar0, hchar1, hword, hsrc, hdest,
        payloadSizeOf_append_left _ (by omega : 4 ≤ datagram.length), hbytes,
        deserializeUint32_append_left _ (by omega : 4 + 3 < datagram.length),
        deserializeUint32_append_left _ (by omega : 8 + 3 < datagram.length)]

/-- The bytes behind a datagram in a buffer that held one byte over and over. -/
def leftover (datagram : List Uint8) (x : Uint8) : List Uint8 :=
  List.replicate (udpSize - datagram.length) x

theorem charAt_leftover (x : Uint8) {i : Nat} (h : datagram.length ≤ i) (hi : i < udpSize) :
    charAt (datagram ++ leftover datagram x) i = x := by
  rw [charAt, leftover, List.getD_eq_getElem?_getD, List.getElem?_append_right h,
    List.getElem?_replicate, if_pos (by omega)]
  rfl

/-- A loop that reads a length byte of the leftover bytes leaves the header
behind it in one iteration. -/
theorem optionLoop_leftover {x : Uint8} (hx : 254 ≤ x.toNat) (fuel : Nat)
    {s : OptionLoopState} (headerLength : Uint8)
    (hpast : datagram.length ≤ headerBytes + s.optionsLength + 1)
    (hfuel : headerLength.toNat ≤ headerBytes + s.optionsLength + fuel) :
    ∃ t, optionLoop (datagram ++ leftover datagram x) headerLength (fuel + 1) s = .done t ∧
      s.options <+: t.options ∧
      (s.optionsLength + headerBytes < headerLength.toNat →
        optionLoopBody (datagram ++ leftover datagram x) s = some t) := by
  have hheader := headerLength.isLt
  by_cases hcond : s.optionsLength + headerBytes < headerLength.toNat
  · have hlength := charAt_leftover x hpast (by simp only [headerBytes, udpSize] at *; omega)
    obtain ⟨next, hbody, hoptions⟩ : ∃ next,
        optionLoopBody (datagram ++ leftover datagram x) s = some next ∧
          s.options <+: next.options := by
      rcases optionLoopBody_cases (datagram ++ leftover datagram x) s with
        ⟨_, hb⟩ | ⟨_, _, hb⟩ | ⟨_, hshort, _⟩
      · exact ⟨_, hb, List.prefix_refl _⟩
      · exact ⟨_, hb, List.prefix_append _ _⟩
      · rw [hlength] at hshort
        omega
    have hnext := optionLoopBody_optionsLength hbody
    rw [hlength] at hnext
    cases fuel with
    | zero => omega
    | succ fuel =>
        have hdone : ¬ next.optionsLength + headerBytes < headerLength.toNat := by
          simp only [headerBytes]
          omega
        refine ⟨next, ?_, hoptions, fun _ => hbody⟩
        simp only [optionLoop, if_pos hcond, hbody, if_neg hdone]
  · refine ⟨s, ?_, List.prefix_refl _, fun h => absurd h hcond⟩
    simp only [optionLoop, if_neg hcond]

theorem charAt_bytesAt (segment : List Uint8) (offset : Nat) {size : Int} {i : Nat}
    (h : i < size.toNat) :
    charAt (bytesAt segment offset size) i = charAt segment (offset + i) := by
  simp only [charAt, bytesAt, List.getD_eq_getElem?_getD, List.getElem?_take, if_pos h,
    List.getElem?_drop]

/-- Options that differ before the loop runs into the leftover bytes differ
after it. -/
theorem optionLoop_differ_options {fuel : Nat} (s s' : OptionLoopState) {headerLength : Uint8}
    (hpast : datagram.length ≤ headerBytes + s.optionsLength + 1)
    (hlen : s'.optionsLength = s.optionsLength) (hcount : s'.options.length = s.options.length)
    (hne : s.options ≠ s'.options)
    (hfuel : headerLength.toNat < headerBytes + s.optionsLength + fuel) (hpos : 0 < fuel) :
    ∃ t t', optionLoop (datagram ++ leftover datagram 254) headerLength fuel s = .done t ∧
      optionLoop (datagram ++ leftover datagram 255) headerLength fuel s' = .done t' ∧
      t.options ≠ t'.options := by
  obtain ⟨fuel, rfl⟩ := Nat.exists_eq_add_one.mpr hpos
  obtain ⟨t, hdone, hfront, _⟩ := optionLoop_leftover (x := 254) (by decide) fuel
    headerLength hpast (by omega)
  obtain ⟨t', hdone', hfront', _⟩ := optionLoop_leftover (x := 255) (by decide) fuel
    headerLength (hlen.symm ▸ hpast) (by omega)
  refine ⟨t, t', hdone, hdone', fun heq => hne ?_⟩
  rw [← heq] at hfront'
  exact (List.prefix_of_prefix_length_le hfront hfront' hcount.ge).eq_of_length hcount.symm

/-- A custom option whose data was not all received differs. -/
theorem readCustomOption_differ {offset : Nat} (hread : offset + 1 < datagram.length)
    (hdata : datagram.length < offset + (charAt datagram (offset + 1)).toNat)
    (hsize : offset + (charAt datagram (offset + 1)).toNat ≤ udpSize) :
    readCustomOption (datagram ++ leftover datagram 254) offset ≠
      readCustomOption (datagram ++ leftover datagram 255) offset := by
  intro heq
  -- the last data byte is a leftover byte
  have hbyte (x : Uint8) : charAt (readCustomOption (datagram ++ leftover datagram x) offset).data
      ((charAt datagram (offset + 1)).toNat - 3) = x := by
    have hlength := charAt_append_left (leftover datagram x) hread
    simp only [readCustomOption, hlength]
    rw [charAt_bytesAt _ _ (by omega)]
    exact charAt_leftover x (by omega) (by omega)
  have h254 := hbyte 254
  rw [heq, hbyte 255] at h254
  exact absurd h254 (by decide)

/-- An option whose length byte was not received differs. -/
theorem optionLoop_differ_length (fuel : Nat) {s s' : OptionLoopState} {headerLength : Uint8}
    (hlen : s'.optionsLength = s.optionsLength) (hopts : s'.options = s.options)
    (hcond : s.optionsLength + headerBytes < headerLength.toNat)
    (hpast : datagram.length ≤ headerBytes + s.optionsLength + 1)
    (hfuel : headerLength.toNat ≤ headerBytes + s.optionsLength + fuel) :
    ∃ t t', optionLoop (datagram ++ leftover datagram 254) headerLength (fuel + 1) s = .done t ∧
      optionLoop (datagram ++ leftover datagram 255) headerLength (fuel + 1) s' = .done t' ∧
      (t.options ≠ t'.options ∨ t.segmentation ≠ t'.segmentation) := by
  have hheader := headerLength.isLt
  have hsmall : headerBytes + s.optionsLength + 1 < udpSize := by
    simp only [udpSize]
    omega
  obtain ⟨t, hdone, _, hbody⟩ := optionLoop_leftover (x := 254) (by decide) fuel
    headerLength hpast hfuel
  obtain ⟨t', hdone', _, hbody'⟩ := optionLoop_leftover (x := 255) (by decide) fuel
    headerLength (hlen.symm ▸ hpast) (hlen.symm ▸ hfuel)
  have hbody := hbody hcond
  have hbody' := hbody' (hlen.symm ▸ hcond)
  refine ⟨t, t', hdone, hdone', ?_⟩
  -- the type is the same byte in both buffers, or no segmentation type in either
  have htype : charAt (datagram ++ leftover datagram 254) (headerBytes + s.optionsLength) =
      unyteTypeSegmentation ↔
        charAt (datagram ++ leftover datagram 255) (headerBytes + s.optionsLength) =
          unyteTypeSegmentation := by
    by_cases hreceived : headerBytes + s.optionsLength < datagram.length
    · rw [charAt_append_left _ hreceived, charAt_append_left _ hreceived]
    · rw [charAt_leftover _ (by omega) (by omega), charAt_leftover _ (by omega) (by omega)]
      decide
  have h254 := charAt_leftover 254 hpast hsmall
  have h255 := charAt_leftover 255 hpast hsmall
  have hcases := optionLoopBody_cases (datagram ++ leftover datagram 254) s
  have hcases' := optionLoopBody_cases (datagram ++ leftover datagram 255) s'
  rw [hbody, h254] at hcases
  rw [hbody', hlen, h255, hopts] at hcases'
  rcases hcases with ⟨hseg, ht⟩ | ⟨hcustom, _, ht⟩ | ⟨_, _, ht⟩
  · rcases hcases' with ⟨_, ht'⟩ | ⟨hcustom', _⟩ | ⟨hcustom', _⟩
    · obtain rfl := Option.some.inj ht
      obtain rfl := Option.some.inj ht'
      refine Or.inr (fun heq => ?_)
      have hflen := congrArg UnyteSegmentation.fLen (Option.some.inj heq)
      simp only [readSegmentation, h254, h255] at hflen
      exact absurd hflen (by decide)
    · exact absurd (htype.mp hseg) hcustom'
    · exact absurd (htype.mp hseg) hcustom'
  · rcases hcases' with ⟨hseg', _⟩ | ⟨_, _, ht'⟩ | ⟨_, _, ht'⟩
    · exact absurd (htype.mpr hseg') hcustom
    · obtain rfl := Option.some.inj ht
      obtain rfl := Option.some.inj ht'
      refine Or.inl (fun heq => ?_)
      have hlength := congrArg UnyteOption.length (List.singleton_inj.mp
        (List.append_cancel_left heq))
      simp only [readCustomOption, h254, h255] at hlength
      exact absurd hlength (by decide)
    · cases ht'
  · cases ht

/-- Where the walk leaves the received bytes, two buffers tell the results of
the loop apart, or the payload was not received. -/
theorem optionLoop_differ {fuel : Nat} {s s' : OptionLoopState} {known : Bool}
    (hlen : s'.optionsLength = s.optionsLength) (hopts : s'.options = s.options)
    (hseg : known = false → s'.segmentation ≠ s.segmentation)
    (hfuel : (charAt datagram 1).toNat < headerBytes + s.optionsLength + fuel)
    (hwalk : walkStaysReceived datagram fuel (headerBytes + s.optionsLength) known = false) :
    ∃ t t', optionLoop (datagram ++ leftover datagram 254) (charAt datagram 1) fuel s = .done t ∧
      optionLoop (datagram ++ leftover datagram 255) (charAt datagram 1) fuel s' = .done t' ∧
      (t.options ≠ t'.options ∨ t.segmentation ≠ t'.segmentation ∨
        payloadStaysReceived datagram = false) := by
  have hheader := (charAt datagram 1).isLt
  induction fuel generalizing s s' known with
  | zero => cases hwalk
  | succ fuel ih =>
      rw [walkStaysReceived] at hwalk
      by_cases hcond : s.optionsLength + headerBytes < (charAt datagram 1).toNat
      · have hcond' := hlen.symm ▸ hcond
        have hsmall : headerBytes + s.optionsLength + 3 < udpSize := by
          simp only [udpSize]
          omega
        simp only [Nat.add_comm _ headerBytes ▸ hcond, if_true] at hwalk
        by_cases hread : headerBytes + s.optionsLength + 1 < datagram.length
        · simp only [hread, decide_true, Bool.true_and] at hwalk
          by_cases htype : charAt datagram (headerBytes + s.optionsLength) = unyteTypeSegmentation
          · simp only [htype, if_true, Bool.or_eq_false_iff, decide_eq_false_iff_not] at hwalk
            have hbody := optionLoopBody_segmentation (leftover datagram 254) s hread htype
            rw [← hlen] at hread htype
            have hbody' := optionLoopBody_segmentation (leftover datagram 255) s' hread htype
            simp only [optionLoop, if_pos hcond, hbody, hbody', hlen]
            refine ih rfl hopts (fun hknown heq => ?_) (by simp only; omega)
              (by rw [← Nat.add_assoc]; exact hwalk.2)
            -- the last flag is read from a leftover byte
            rw [decide_eq_false_iff_not, Nat.not_lt] at hknown
            have hflag := congrArg UnyteSegmentation.fLast (Option.some.inj heq)
            simp only [readSegmentation, charAt_leftover _ hknown hsmall] at hflag
            exact absurd hflag (by decide)
          · have hbody := optionLoopBody_custom (leftover datagram 254) s hread htype
            have hread' := hread
            rw [← hlen] at hread htype
            have hbody' := optionLoopBody_custom (leftover datagram 255) s' hread htype
            rw [hlen] at htype hbody'
            simp only [htype, if_false, Bool.or_eq_false_iff, decide_eq_false_iff_not] at hwalk
            rw [if_neg hwalk.1] at hbody hbody'
            simp only [optionLoop, if_pos hcond, if_pos hcond', hbody, hbody']
            by_cases hdata : headerBytes + s.optionsLength +
                (charAt datagram (headerBytes + s.optionsLength + 1)).toNat ≤ datagram.length
            · simp only [hdata, decide_true, Bool.true_and] at hwalk
              have hcustom (r : List Uint8) := readCustomOption_append_left r hread' hdata
              exact ih rfl (by simp only [hopts, hcustom]) hseg (by simp only; omega)
                (by rw [← Nat.add_assoc]; exact hwalk.2)
            · have hdiffer := readCustomOption_differ hread' (Nat.not_le.mp hdata)
                (by simp only [udpSize] at hsmall ⊢; omega)
              have hpast : datagram.length ≤ headerBytes + (s.optionsLength +
                  (charAt datagram (headerBytes + s.optionsLength + 1)).toNat) + 1 := by omega
              have hleft : (charAt datagram 1).toNat < headerBytes + (s.optionsLength +
                  (charAt datagram (headerBytes + s.optionsLength + 1)).toNat) + fuel := by omega
              obtain ⟨t, t', hdone, hdone', hoptions⟩ := optionLoop_differ_options
                { s with
                  optionsLength := s.optionsLength +
                    (charAt datagram (headerBytes + s.optionsLength + 1)).toNat
                  options := s.options ++ [readCustomOption
                    (datagram ++ leftover datagram 254) (headerBytes + s.optionsLength)] }
                { s' with
                  optionsLength := s.optionsLength +
                    (charAt datagram (headerBytes + s.optionsLength + 1)).toNat
                  options := s'.options ++ [readCustomOption
                    (datagram ++ leftover datagram 255) (headerBytes + s.optionsLength)] }
                hpast rfl (by simp [hopts]) (by simpa [hopts] using hdiffer) hleft (by omega)
              exact ⟨t, t', hdone, hdone', Or.inl hoptions⟩
        · obtain ⟨t, t', hdone, hdone', hdiffer⟩ := optionLoop_differ_length fuel hlen hopts hcond
            (Nat.not_lt.mp hread) (by omega)
          exact ⟨t, t', hdone, hdone', hdiffer.imp_right Or.inl⟩
      · simp only [Nat.add_comm _ headerBytes ▸ hcond, if_false] at hwalk
        have hcond' := hlen.symm ▸ hcond
        simp only [optionLoop, if_neg hcond, if_neg hcond']
        refine ⟨s, s', rfl, rfl, Or.inr ?_⟩
        cases known with
        | false => exact Or.inl (Ne.symm (hseg rfl))
        | true => exact Or.inr hwalk

end Received

/-- A receive buffer that held one byte over and over. -/
def RecvBuffer.filled (x : Uint8) : RecvBuffer := ⟨List.replicate udpSize x, List.length_replicate⟩

theorem RecvBuffer.filled_receive (x : Uint8) (datagram : List Uint8)
    (h : datagram.length ≤ udpSize) :
    ((RecvBuffer.filled x).receive datagram h).val = datagram ++ leftover datagram x :=
  congrArg (datagram ++ ·) List.drop_replicate

/-- A packet whose message length is smaller than its header length is refused. -/
theorem parseWithMetadata_null {segment : List Uint8} {um : UnyteMin}
    (hends : OptionLoopEnds segment) (hsize : payloadSizeOf segment < 0) :
    parseWithMetadata segment um = .null := by
  have hrun := (optionLoopEnds_iff segment).mp hends
  unfold parseWithMetadata
  cases hloop : optionLoop segment (charAt segment 1) optionLoopFuel .init with
  | running => exact absurd hloop hrun
  | mallocFailed => rfl
  | done s =>
      have hrefused : ¬ mallocSucceeds (payloadSizeOf segment) = true := by
        simp only [mallocSucceeds, decide_eq_true_eq]
        omega
      simp only [if_neg hrefused]

section Decided

variable {datagram : List Uint8}

/-- The last byte of a payload that was not received is a leftover byte. -/
theorem payload_differ (hheader : headerBytes ≤ datagram.length)
    (hpayload : payloadStaysReceived datagram = false) (hsize : 0 ≤ payloadSizeOf datagram) :
    bytesAt (datagram ++ leftover datagram 254) (charAt datagram 1).toNat (payloadSizeOf datagram) ≠
      bytesAt (datagram ++ leftover datagram 255) (charAt datagram 1).toNat
        (payloadSizeOf datagram) := by
  intro heq
  have hmessage := (ntohs (deserializeUint16 datagram 2)).isLt
  simp only [payloadStaysReceived, Bool.or_eq_false_iff, decide_eq_false_iff_not] at hpayload
  have hint : payloadSizeOf datagram =
      (((ntohs (deserializeUint16 datagram 2)).toNat - (charAt datagram 1).toNat : Nat) : Int) := by
    unfold payloadSizeOf at hsize ⊢
    omega
  have hbyte (x : Uint8) : charAt (bytesAt (datagram ++ leftover datagram x)
      (charAt datagram 1).toNat (payloadSizeOf datagram))
      ((ntohs (deserializeUint16 datagram 2)).toNat - (charAt datagram 1).toNat - 1) = x := by
    unfold payloadSizeOf at hsize
    rw [charAt_bytesAt _ _ (by omega)]
    exact charAt_leftover x (by omega) (by simp only [udpSize]; omega)
  have h254 := hbyte 254
  rw [heq, hbyte 255] at h254
  exact absurd h254 (by decide)

theorem parse_decided_of (h : datagram.length ≤ udpSize)
    (hstays : (4 ≤ datagram.length ∧
        (ntohs (deserializeUint16 datagram 2)).toNat < (charAt datagram 1).toNat) ∨
      (headerBytes ≤ datagram.length ∧
        walkStaysReceived datagram optionLoopFuel headerBytes true = true))
    (heap heap' : RecvBuffer) {um um' : UnyteMin} (hsrc : um.src = um'.src)
    (hdest : um.dest = um'.dest) (hends : OptionLoopEnds (heap.receive datagram h).val)
    (hends' : OptionLoopEnds (heap'.receive datagram h).val) :
    parseWithMetadata (heap.receive datagram h).val um =
      parseWithMetadata (heap'.receive datagram h).val um' := by
  rcases hstays with ⟨hlong, hlengths⟩ | ⟨hheader, hwalk⟩
  · have hnegative (heap : RecvBuffer) : payloadSizeOf (heap.receive datagram h).val < 0 := by
      refine (payloadSizeOf_append_left _ hlong).trans_lt ?_
      unfold payloadSizeOf
      omega
    rw [parseWithMetadata_null hends (hnegative heap),
      parseWithMetadata_null hends' (hnegative heap')]
  · exact parseWithMetadata_append_left hsrc hdest _ _ hheader hwalk

section Filled

variable {um um' : UnyteMin}
  (heq : OptionLoopEnds (datagram ++ leftover datagram 254) →
    OptionLoopEnds (datagram ++ leftover datagram 255) →
    parseWithMetadata (datagram ++ leftover datagram 254) um =
      parseWithMetadata (datagram ++ leftover datagram 255) um')
include heq

/-- Buffers filled with two different bytes tell apart what the loop and the payload
read beyond the datagram. -/
theorem walk_of_parse_decided (hheader : headerBytes ≤ datagram.length)
    (hsize : 0 ≤ payloadSizeOf datagram) :
    walkStaysReceived datagram optionLoopFuel headerBytes true = true := by
  by_contra hwalk
  simp only [headerBytes] at hheader
  have hchar (r : List Uint8) := charAt_append_left r (by omega : 1 < datagram.length)
  have hsizes (r : List Uint8) := payloadSizeOf_append_left r (by omega : 4 ≤ datagram.length)
  have hfuel : (charAt datagram 1).toNat <
      headerBytes + OptionLoopState.init.optionsLength + optionLoopFuel := by
    have hlength := (charAt datagram 1).isLt
    simp only [headerBytes, optionLoopFuel]
    omega
  obtain ⟨t, t', hloop, hloop', hdiffer⟩ := optionLoop_differ (s := .init) rfl rfl
    (by rintro ⟨⟩) hfuel (Bool.not_eq_true _ ▸ hwalk)
  rw [← hchar (leftover datagram 254)] at hloop
  rw [← hchar (leftover datagram 255)] at hloop'
  have hok := (parseWithMetadata_eq_ok_iff _ um _).mpr
    ⟨t, hloop, by rw [hsizes]; exact hsize, rfl⟩
  have hok' := (parseWithMetadata_eq_ok_iff _ um' _).mpr
    ⟨t', hloop', by rw [hsizes]; exact hsize, rfl⟩
  have hseg := (hok.symm.trans (heq (optionLoopEnds_of_done hloop)
    (optionLoopEnds_of_done hloop'))).trans hok'
  rw [ParseResult.ok.injEq] at hseg
  rcases hdiffer with hoptions | hsegmentation | hpayload
  · exact hoptions (congrArg (fun p => p.header.options) hseg)
  · exact hsegmentation (congrArg (fun p => p.header.segmentation) hseg)
  · have hbytes := congrArg (fun p => p.payload) hseg
    simp only [parsedSegment, hchar, hsizes] at hbytes
    exact payload_differ hheader hpayload hsize hbytes

/-- They also tell apart what the fixed header holds beyond the datagram. -/
theorem headerBytes_le_of_parse_decided
    (hsize : 4 ≤ datagram.length → 0 ≤ payloadSizeOf datagram) :
    headerBytes ≤ datagram.length := by
  by_contra hheader
  simp only [headerBytes] at hheader
  have hends (x : Uint8) (hx : 254 ≤ x.toNat) : ∃ t, optionLoop (datagram ++ leftover datagram x)
      (charAt (datagram ++ leftover datagram x) 1) optionLoopFuel .init = .done t := by
    have hlength := (charAt (datagram ++ leftover datagram x) 1).isLt
    have hpast : datagram.length ≤ headerBytes + OptionLoopState.init.optionsLength + 1 := by
      simp only [headerBytes]
      omega
    have hfuel : (charAt (datagram ++ leftover datagram x) 1).toNat ≤
        headerBytes + OptionLoopState.init.optionsLength + 255 := by
      omega
    obtain ⟨t, hloop, _⟩ := optionLoop_leftover hx 255 _ hpast hfuel
    exact ⟨t, hloop⟩
  obtain ⟨t, hloop⟩ := hends 254 (by decide)
  obtain ⟨t', hloop'⟩ := hends 255 (by decide)
  have hsame := heq (optionLoopEnds_of_done hloop) (optionLoopEnds_of_done hloop')
  have hbyte (x : Uint8) {i : Nat} (hi : datagram.length ≤ i) (hsmall : i < 12) :
      charAt (datagram ++ leftover datagram x) i = x :=
    charAt_leftover x hi (by simp only [udpSize]; omega)
  have h254 : (254 : Uint8).toNat = 254 := rfl
  have h255 : (255 : Uint8).toNat = 255 := rfl
  have hsize' : 0 ≤ payloadSizeOf (datagram ++ leftover datagram 255) := by
    by_cases hlong : 4 ≤ datagram.length
    · rw [payloadSizeOf_append_left _ hlong]
      exact hsize hlong
    · have hheader := (charAt (datagram ++ leftover datagram 255) 1).isLt
      unfold payloadSizeOf
      rw [ntohs_deserializeUint16, hbyte 255 (by omega) (by decide : 2 + 1 < 12)]
      omega
  have hok' := (parseWithMetadata_eq_ok_iff _ um' _).mpr ⟨t', hloop', hsize', rfl⟩
  rw [hok'] at hsame
  obtain ⟨t₁, _, _, hseg⟩ := (parseWithMetadata_eq_ok_iff _ um _).mp hsame
  by_cases hlong : 4 ≤ datagram.length
  · -- the last byte of the message id is a leftover byte
    have hid := congrArg (fun p => p.header.messageId.toNat) hseg
    simp only [parsedSegment, ntohl_deserializeUint32] at hid
    rw [hbyte 255 (by omega) (by decide : 8 + 3 < 12),
      hbyte 254 (by omega) (by decide : 8 + 3 < 12)] at hid
    omega
  · -- so is the last byte of the message length
    have hlength := congrArg (fun p => p.header.messageLength.toNat) hseg
    simp only [parsedSegment, ntohs_deserializeUint16] at hlength
    rw [hbyte 255 (by omega) (by decide : 2 + 1 < 12),
      hbyte 254 (by omega) (by decide : 2 + 1 < 12)] at hlength
    omega

/-- A parse that the received bytes decide stays within them, or refuses the packet. -/
theorem stays_of_parse_decided :
    (4 ≤ datagram.length ∧
        (ntohs (deserializeUint16 datagram 2)).toNat < (charAt datagram 1).toNat) ∨
      (headerBytes ≤ datagram.length ∧
        walkStaysReceived datagram optionLoopFuel headerBytes true = true) := by
  by_cases hrefused : 4 ≤ datagram.length ∧
      (ntohs (deserializeUint16 datagram 2)).toNat < (charAt datagram 1).toNat
  · exact Or.inl hrefused
  · have hsize (hlong : 4 ≤ datagram.length) : 0 ≤ payloadSizeOf datagram := by
      have hlengths := not_and.mp hrefused hlong
      unfold payloadSizeOf
      omega
    have hheader := headerBytes_le_of_parse_decided heq hsize
    have hlong : 4 ≤ datagram.length := Nat.le_trans (by decide) hheader
    exact Or.inr ⟨hheader, walk_of_parse_decided heq hheader (hsize hlong)⟩

end Filled

end Decided

/-- A buffer of zero bytes but for the last byte of the observation domain id. -/
def RecvBuffer.oneInId : RecvBuffer :=
  ⟨List.replicate 7 0 ++ 1 :: List.replicate (udpSize - 8) 0, by
    rw [List.length_append, List.length_cons, List.length_replicate, List.length_replicate]
    rfl⟩

theorem charAt_receive (heap : RecvBuffer) {datagram : List Uint8} (h : datagram.length ≤ udpSize)
    (i : Nat) : charAt (heap.receive datagram h).val i =
      if i < datagram.length then charAt datagram i else charAt heap.val i := by
  change charAt (datagram ++ heap.val.drop datagram.length) i = _
  split
  · rename_i hi
    exact charAt_append_left _ hi
  · rename_i hi
    rw [charAt, charAt, List.getD_eq_getElem?_getD, List.getD_eq_getElem?_getD,
      List.getElem?_append_right (Nat.not_lt.mp hi), List.getElem?_drop,
      Nat.add_sub_cancel' (Nat.not_lt.mp hi)]

/-- The parser is picked by received bytes only if there is one parser, or if
the observation domain id was received. -/
theorem dispatch_decided_iff (nbParsers : Uint32) {datagram : List Uint8}
    (h : datagram.length ≤ udpSize) (hpos : 0 < nbParsers.toNat) (src : SockaddrStorage)
    (dest : Option SockaddrStorage) :
    (∀ heap heap' : RecvBuffer,
      parserIndex nbParsers (minimalParse (heap.receive datagram h) src dest) =
        parserIndex nbParsers (minimalParse (heap'.receive datagram h) src dest)) ↔
      nbParsers = 1 ∨ 8 ≤ datagram.length := by
  have hindex (heap : RecvBuffer) :
      (parserIndex nbParsers (minimalParse (heap.receive datagram h) src dest)).toNat =
        ((charAt (heap.receive datagram h).val 4).toNat * 2 ^ 24 +
          (charAt (heap.receive datagram h).val 5).toNat * 2 ^ 16 +
          (charAt (heap.receive datagram h).val 6).toNat * 2 ^ 8 +
          (charAt (heap.receive datagram h).val 7).toNat) % nbParsers.toNat := by
    rw [parserIndex_toNat, minimalParse, ntohl_deserializeUint32]
  constructor
  · intro heq
    by_contra hcond
    obtain ⟨hmany, hshort⟩ := not_or.mp hcond
    have hsame := congrArg BitVec.toNat (heq .oneInId .zeroed)
    rw [hindex, hindex] at hsame
    -- the two buffers hold neighbouring ids
    have hbyte (i : Nat) (hi : i < 7) : charAt (RecvBuffer.oneInId.receive datagram h).val i =
        charAt (RecvBuffer.zeroed.receive datagram h).val i := by
      rw [charAt_receive, charAt_receive]
      refine if_congr Iff.rfl rfl ?_
      revert i
      decide
    have hone : (charAt (RecvBuffer.oneInId.receive datagram h).val 7).toNat = 1 := by
      rw [charAt_receive, if_neg (by omega)]
      rfl
    have hzero : (charAt (RecvBuffer.zeroed.receive datagram h).val 7).toNat = 0 := by
      rw [charAt_receive, if_neg (by omega)]
      rfl
    rw [hbyte 4 (by decide), hbyte 5 (by decide), hbyte 6 (by decide), hone, hzero] at hsame
    have hmod : 1 ≡ 0 [MOD nbParsers.toNat] := Nat.ModEq.add_left_cancel' _ hsame
    have hdvd : nbParsers.toNat = 1 := Nat.dvd_one.mp ((Nat.modEq_zero_iff_dvd).mp hmod)
    exact hmany (BitVec.eq_of_toNat_eq hdvd)
  · intro hcond heap heap'
    refine BitVec.eq_of_toNat_eq ?_
    rcases hcond with rfl | hlong
    · have hone : (1 : Uint32).toNat = 1 := rfl
      rw [hindex, hindex, hone, Nat.mod_one, Nat.mod_one]
    · rw [hindex, hindex]
      simp only [charAt_receive, (by omega : 4 < datagram.length),
        (by omega : 5 < datagram.length), (by omega : 6 < datagram.length),
        (by omega : 7 < datagram.length), if_true]

/-- What becomes of a datagram is decided by the received bytes exactly if it
stays within them. -/
theorem decidedByReceived_iff (nbParsers : Uint32) (datagram : List Uint8)
    (h : datagram.length ≤ udpSize) (hpos : 0 < nbParsers.toNat) :
    DecidedByReceived nbParsers datagram h ↔ StaysReceived nbParsers datagram := by
  constructor
  · intro hdecided
    refine ⟨(dispatch_decided_iff nbParsers h hpos ⟨[]⟩ none).mp
      (fun heap heap' => (hdecided heap heap' ⟨[]⟩ none).1), ?_⟩
    have hparse := (hdecided (.filled 254) (.filled 255) ⟨[]⟩ none).2
    simp only [minimalParse, RecvBuffer.filled_receive] at hparse
    exact stays_of_parse_decided hparse
  · rintro ⟨hdispatch, hstays⟩ heap heap' src dest
    exact ⟨(dispatch_decided_iff nbParsers h hpos src dest).mpr hdispatch heap heap',
      parse_decided_of h hstays heap heap' rfl rfl⟩

/-- A packet of twelve bytes that says so is decided by them. -/
theorem decidedByReceived_header : DecidedByReceived 4 [0, 12, 0, 12, 0, 0, 0, 1, 0, 0, 0, 1]
    (by decide) :=
  (decidedByReceived_iff 4 _ _ (by decide)).mpr ⟨by decide, by decide⟩

/-- A packet of twelve bytes that claims fourteen is delivered with two bytes
the buffer held before. -/
theorem leftover_bytes_delivered : ¬ ∀ (nbParsers : Uint32) datagram
    (h : datagram.length ≤ udpSize), 0 < nbParsers.toNat → datagram ≠ [] →
      DecidedByReceived nbParsers datagram h := by
  intro hclaim
  obtain ⟨_, hparse⟩ := hclaim 4 [0, 12, 0, 14, 0, 0, 0, 1, 0, 0, 0, 1] (by decide) (by decide)
    (by simp) .zeroed (.filled 1) ⟨[]⟩ none
  have hdiffer := hparse ⟨1, by decide⟩ ⟨1, by decide⟩
  revert hdiffer
  decide

end UdpNotif
