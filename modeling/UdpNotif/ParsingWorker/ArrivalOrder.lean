import UdpNotif.ParsingWorker.Delivery

/-!
The arrival order of the segments of a message. It fixes the order of the
options of the assembled message, and nothing else: payload and lengths are the
same for every order.
-/

namespace UdpNotif

/-- The messages a new parser hands over for a list of parsed segments. -/
def written (malloc : Nat → Bool) (now : Int) (arrivals : List UnyteSegMet) :
    Option (List UnyteSegMet) :=
  (handleAll malloc now .init arrivals).map Prod.snd

/-- The segments agree on the header fields that are not about lengths. -/
def EqualHeaders (segs : List UnyteSegMet) : Prop :=
  ∀ p ∈ segs, ∀ q ∈ segs, p.header.version = q.header.version ∧
    p.header.space = q.header.space ∧ p.header.mediaType = q.header.mediaType

/-- In any order the segments lead to the message completed by the last of them. -/
theorem MessageSegments.written_eq {k : MessageKey} {segs arrivals : List UnyteSegMet}
    (h : MessageSegments k segs) (harr : arrivals.Perm segs) :
    ∃ last ∈ segs, ∀ malloc now, written malloc now arrivals =
      some (if malloc ((messagePayload segs).length % 2 ^ 32) then
        [reassembledMsg segs arrivals last] else []) := by
  obtain ⟨_, last, hlast, _⟩ := h.handleAll_perm (fun _ => true) 0 ParserState.init_idle rfl harr
  refine ⟨last, harr.subset (List.mem_of_getLast? hlast), fun malloc now => ?_⟩
  obtain ⟨st', last', hlast', _, hhandle⟩ :=
    h.handleAll_perm malloc now ParserState.init_idle rfl harr
  obtain rfl : last = last' := Option.some.inj (hlast.symm.trans hlast')
  rw [written, hhandle]
  rfl

/-- Two orders of arrival lead to the same payload and the same header, apart
from the options, which follow the order of arrival. The allocations for the segments
succeed; that of the payload may fail. -/
theorem assembled_arrival_order {k : MessageKey} {segs first second : List UnyteSegMet}
    (h : MessageSegments k segs) (hequal : EqualHeaders segs)
    (hfirst : first.Perm segs) (hsecond : second.Perm segs) :
    ∃ w₁ w₂, (∀ malloc now, written malloc now first =
        some (if malloc ((messagePayload segs).length % 2 ^ 32) then [w₁] else [])) ∧
      (∀ malloc now, written malloc now second =
        some (if malloc ((messagePayload segs).length % 2 ^ 32) then [w₂] else [])) ∧
      w₁.payload = w₂.payload ∧
      w₁.header = { w₂.header with options := arrivalOptions first } ∧
      w₂.header.options = arrivalOptions second ∧
      (arrivalOptions first).Perm (arrivalOptions second) := by
  obtain ⟨last₁, hmem₁, hwritten₁⟩ := h.written_eq hfirst
  obtain ⟨last₂, hmem₂, hwritten₂⟩ := h.written_eq hsecond
  have hoptions : (arrivalOptions first).Perm (arrivalOptions second) :=
    (hfirst.trans hsecond.symm).flatMap_right _
  obtain ⟨hversion, hspace, hmedia⟩ := hequal last₁ hmem₁ last₂ hmem₂
  have hkey : last₁.key = last₂.key := (h.key last₁ hmem₁).trans (h.key last₂ hmem₂).symm
  obtain ⟨hodid, hmid⟩ := Prod.mk.inj hkey
  refine ⟨_, _, hwritten₁, hwritten₂, rfl, ?_, rfl, hoptions⟩
  simp only [reassembledMsg, assembledMsg, copyUnyteSegMetHeaders, hversion, hspace, hmedia,
    hodid, hmid, optionsTotalBytes_perm hoptions]

/-- Two segments of message (7, 9), each with an option and a byte of payload. -/
def twoSegments : List UnyteSegMet :=
  [⟨⟨⟨1, 0, 1, 19, 20, 7, 9, some ⟨1, 4, 0, 0⟩, [⟨2, 3, [0xaa]⟩]⟩, [1]⟩, ⟨⟨[]⟩, none⟩⟩,
    ⟨⟨⟨1, 0, 1, 19, 20, 7, 9, some ⟨1, 4, 1, 1⟩, [⟨3, 3, [0xbb]⟩]⟩, [2]⟩, ⟨⟨[]⟩, none⟩⟩]

theorem twoSegments_message : MessageSegments (7, 9) twoSegments where
  parsed := by
    simp only [twoSegments, List.forall_mem_cons]
    exact ⟨⟨by decide, rfl, fun _ => Option.some_ne_none _⟩,
      ⟨by decide, rfl, fun _ => Option.some_ne_none _⟩, by simp⟩
  key := by decide
  segmented := by decide
  numbered := ⟨by decide, by decide, by decide, by decide, by decide⟩

/-- The two segments in order and in reverse order. -/
theorem twoSegments_arrival_order :
    ∃ w₁ w₂, (∀ malloc now, written malloc now twoSegments =
        some (if malloc 2 then [w₁] else [])) ∧
      (∀ malloc now, written malloc now twoSegments.reverse =
        some (if malloc 2 then [w₂] else [])) ∧
      w₁.payload = w₂.payload ∧
      w₁.header = { w₂.header with options := arrivalOptions twoSegments } ∧
      w₂.header.options = arrivalOptions twoSegments.reverse ∧
      (arrivalOptions twoSegments).Perm (arrivalOptions twoSegments.reverse) :=
  assembled_arrival_order twoSegments_message (by unfold EqualHeaders; decide)
    (List.Perm.refl _) (List.reverse_perm _)

/-- Their two options come out in the order of arrival. -/
theorem assembled_options_follow_arrival :
    ¬ ∀ k segs first second w₁ w₂, MessageSegments k segs → EqualHeaders segs →
      first.Perm segs → second.Perm segs → written (fun _ => true) 0 first = some [w₁] →
      written (fun _ => true) 0 second = some [w₂] →
      w₁.payload = w₂.payload ∧ w₁.header.options = w₂.header.options ∧
        w₁.header.headerLength = w₂.header.headerLength ∧
        w₁.header.messageLength = w₂.header.messageLength := by
  intro hclaim
  obtain ⟨last₁, _, hwritten₁⟩ := twoSegments_message.written_eq (List.Perm.refl _)
  obtain ⟨last₂, _, hwritten₂⟩ := twoSegments_message.written_eq (List.reverse_perm _)
  have hoptions := (hclaim _ _ _ _ _ _ twoSegments_message (by unfold EqualHeaders; decide)
    (List.Perm.refl _) (List.reverse_perm _) (hwritten₁ _ _) (hwritten₂ _ _)).2.1
  change arrivalOptions twoSegments = arrivalOptions twoSegments.reverse at hoptions
  revert hoptions
  decide

end UdpNotif
