import Mathlib.Tactic

/-!
The ring buffer of `unyte_udp_queue.c`. The sections between
`pthread_mutex_lock` and `pthread_mutex_unlock` are the operations here; a
reader waits on the semaphore `full` until there is an element. `Holds` says
which elements a queue holds, the oldest first; the operations are those of a
queue of at most `size - 1` elements.
-/

namespace UdpNotif

/-- `unyte_udp_queue_t` -/
structure UnyteUdpQueue (α : Type*) where
  size : Nat
  head : Fin size
  tail : Fin size
  data : Fin size → Option α

namespace UnyteUdpQueue

variable {α : Type*}

/-- `unyte_udp_queue_init` -/
def init (size : Nat) (h : 0 < size) : UnyteUdpQueue α where
  size
  head := ⟨0, h⟩
  tail := ⟨0, h⟩
  data := fun _ => none

/-- The cell `n` places behind the cell `i`. -/
def next (q : UnyteUdpQueue α) (i : Fin q.size) (n : Nat) : Fin q.size :=
  ⟨(i.val + n) % q.size, Nat.mod_lt _ i.pos⟩

/-- `unyte_udp_queue_write`, `none` where it returns `-1`. -/
def write (q : UnyteUdpQueue α) (handle : α) : Option (UnyteUdpQueue α) :=
  if q.next q.head 1 = q.tail then none
  else some { q with data := Function.update q.data q.head (some handle), head := q.next q.head 1 }

/-- What `unyte_udp_queue_destructive_write` does to a full queue, whose oldest
element it frees. -/
def overwrite (q : UnyteUdpQueue α) (handle : α) : UnyteUdpQueue α :=
  { q with
    data := Function.update q.data q.head (some handle)
    head := q.next q.head 1
    tail := q.next q.tail 1 }

/-- `unyte_udp_queue_read`, with the handle it returns. -/
def read (q : UnyteUdpQueue α) : Option α × UnyteUdpQueue α :=
  if q.tail = q.head then (none, q)
  else (q.data q.tail,
    { q with data := Function.update q.data q.tail none, tail := q.next q.tail 1 })

/-- The number of elements between tail and head. -/
def length (q : UnyteUdpQueue α) : Nat := (q.head.val + q.size - q.tail.val) % q.size

/-- The elements between tail and head, the oldest first. -/
def elements (q : UnyteUdpQueue α) : List α :=
  (List.range q.length).filterMap fun i => q.data (q.next q.tail i)

/-- The queue holds the elements `xs`, the oldest first. -/
structure Holds (q : UnyteUdpQueue α) (xs : List α) : Prop where
  head : q.head = q.next q.tail xs.length
  bound : xs.length < q.size
  cells : ∀ i (h : i < xs.length), q.data (q.next q.tail i) = some xs[i]

theorem next_next (q : UnyteUdpQueue α) (i : Fin q.size) (m n : Nat) :
    q.next (q.next i m) n = q.next i (m + n) := by
  simp only [next, Nat.mod_add_mod, Nat.add_assoc]

theorem next_injective (q : UnyteUdpQueue α) (i : Fin q.size) {m n : Nat} (hm : m < q.size)
    (hn : n < q.size) (h : q.next i m = q.next i n) : m = n := by
  simp only [next, Fin.mk.injEq] at h
  have hmod : m ≡ n [MOD q.size] := Nat.ModEq.add_left_cancel' i.val h
  rwa [Nat.ModEq, Nat.mod_eq_of_lt hm, Nat.mod_eq_of_lt hn] at hmod

theorem next_size (q : UnyteUdpQueue α) (i : Fin q.size) : q.next i q.size = i := by
  refine Fin.ext ?_
  simp only [next, Nat.add_mod_right, Nat.mod_eq_of_lt i.isLt]

theorem next_zero (q : UnyteUdpQueue α) (i : Fin q.size) : q.next i 0 = i :=
  Fin.ext (Nat.mod_eq_of_lt i.isLt)

theorem init_holds (size : Nat) (h : 0 < size) : (init size h : UnyteUdpQueue α).Holds [] where
  head := (next_zero _ _).symm
  bound := h
  cells := fun _ hi => absurd hi (Nat.not_lt_zero _)

/-- A write appends its handle, unless the queue is full. -/
theorem Holds.write {q q' : UnyteUdpQueue α} {xs : List α} (h : q.Holds xs) {handle : α}
    (hwrite : q.write handle = some q') : q'.Holds (xs ++ [handle]) := by
  unfold UnyteUdpQueue.write at hwrite
  split at hwrite
  · cases hwrite
  · rename_i hspace
    have hlen : xs.length + 1 < q.size := by
      refine Nat.lt_of_le_of_ne h.bound (fun hfull => hspace ?_)
      rw [h.head, next_next, hfull, next_size]
    obtain rfl := Option.some.inj hwrite
    refine ⟨?_, by simpa using hlen, fun i hi => ?_⟩
    · rw [List.length_append, List.length_singleton]
      exact (congrArg (fun i => q.next i 1) h.head).trans (q.next_next _ _ _)
    · rw [List.length_append, List.length_singleton] at hi
      change Function.update q.data q.head (some handle) (q.next q.tail i) = _
      by_cases hlast : i = xs.length
      · subst hlast
        rw [h.head, Function.update_self, List.getElem_concat_length rfl]
      · have hold : i < xs.length := by omega
        have hne : q.next q.tail i ≠ q.head := by
          rw [h.head]
          exact fun heq => hlast (q.next_injective q.tail (by omega) h.bound heq)
        rw [Function.update_of_ne hne, h.cells i hold, List.getElem_append_left hold]

/-- A write fails exactly on a queue of `size - 1` elements. -/
theorem Holds.write_eq_none_iff {q : UnyteUdpQueue α} {xs : List α} (h : q.Holds xs)
    (handle : α) : q.write handle = none ↔ xs.length + 1 = q.size := by
  have hnext : q.next q.head 1 = q.next q.tail (xs.length + 1) := by rw [h.head, next_next]
  have hbound := h.bound
  rw [UnyteUdpQueue.write, hnext]
  constructor
  · intro hfull
    split at hfull
    · rename_i heq
      by_contra hspace
      have hzero := q.next_injective q.tail (n := 0) (by omega) q.tail.pos
        (heq.trans (q.next_zero _).symm)
      omega
    · cases hfull
  · intro hfull
    rw [hfull, next_size, if_pos rfl]

/-- A read takes the oldest element. -/
theorem Holds.read {q : UnyteUdpQueue α} {x : α} {xs : List α} (h : q.Holds (x :: xs)) :
    q.read.1 = some x ∧ q.read.2.Holds xs := by
  have hbound := h.bound
  have hhead := h.head
  rw [List.length_cons] at hbound hhead
  have hne : q.tail ≠ q.head := by
    intro heq
    have hzero := q.next_injective q.tail (m := 0) q.tail.pos hbound
      ((q.next_zero _).trans (heq.trans hhead))
    omega
  have hfirst := h.cells 0 (Nat.succ_pos _)
  rw [next_zero] at hfirst
  rw [UnyteUdpQueue.read, if_neg hne]
  refine ⟨hfirst, ?_, Nat.lt_of_succ_lt hbound, fun i hi => ?_⟩
  · refine hhead.trans ?_
    rw [Nat.add_comm]
    exact (q.next_next _ _ _).symm
  · change Function.update q.data q.tail none (q.next (q.next q.tail 1) i) = _
    rw [next_next, Nat.add_comm]
    have hother : q.next q.tail (i + 1) ≠ q.tail := by
      intro heq
      have hzero := q.next_injective q.tail (n := 0) (by omega) q.tail.pos
        (heq.trans (q.next_zero _).symm)
      omega
    rw [Function.update_of_ne hother, h.cells (i + 1) (by simpa using hi)]
    rfl

/-- A full queue that is overwritten loses its oldest element to a new one. -/
theorem Holds.overwrite {q : UnyteUdpQueue α} {x : α} {xs : List α} (h : q.Holds (x :: xs))
    (hfull : (x :: xs).length + 1 = q.size) (handle : α) :
    q.data q.tail = some x ∧ (q.overwrite handle).Holds (xs ++ [handle]) := by
  have hhead := h.head
  rw [List.length_cons] at hfull hhead
  have hfirst := h.cells 0 (Nat.succ_pos _)
  rw [next_zero] at hfirst
  refine ⟨hfirst, ?_, ?_, fun i hi => ?_⟩
  · change q.next q.head 1 = q.next (q.next q.tail 1) _
    rw [hhead, next_next, next_next, List.length_append, List.length_singleton, Nat.add_comm 1]
  · change (xs ++ [handle]).length < q.size
    simp only [List.length_append, List.length_singleton]
    omega
  · rw [List.length_append, List.length_singleton] at hi
    change Function.update q.data q.head (some handle) (q.next (q.next q.tail 1) i) = _
    rw [next_next, Nat.add_comm]
    by_cases hlast : i = xs.length
    · subst hlast
      rw [hhead, Function.update_self, List.getElem_concat_length rfl]
    · have hold : i < xs.length := by omega
      have hne : q.next q.tail (i + 1) ≠ q.head := by
        rw [hhead]
        intro heq
        have := q.next_injective q.tail (by omega) (by omega) heq
        omega
      rw [Function.update_of_ne hne, h.cells (i + 1) (by simpa using hold),
        List.getElem_append_left hold]
      rfl

/-- A queue is empty exactly if its head has met its tail. -/
theorem Holds.tail_eq_head_iff {q : UnyteUdpQueue α} {xs : List α} (h : q.Holds xs) :
    q.tail = q.head ↔ xs = [] := by
  constructor
  · intro heq
    have hzero := q.next_injective q.tail (m := 0) q.tail.pos h.bound
      ((q.next_zero _).trans (heq.trans h.head))
    exact List.length_eq_zero_iff.mp hzero.symm
  · rintro rfl
    exact (h.head.trans (q.next_zero _)).symm

theorem Holds.length_eq {q : UnyteUdpQueue α} {xs : List α} (h : q.Holds xs) :
    q.length = xs.length := by
  have hhead : q.head.val = (q.tail.val + xs.length) % q.size := congrArg Fin.val h.head
  have hbound := h.bound
  have htail := q.tail.isLt
  rw [length, hhead]
  by_cases hwrap : q.tail.val + xs.length < q.size
  · rw [Nat.mod_eq_of_lt hwrap, (by omega : q.tail.val + xs.length + q.size - q.tail.val =
      xs.length + q.size), Nat.add_mod_right, Nat.mod_eq_of_lt hbound]
  · have hmod : (q.tail.val + xs.length) % q.size = q.tail.val + xs.length - q.size := by
      rw [Nat.mod_eq_sub_mod (by omega), Nat.mod_eq_of_lt (by omega)]
    rw [hmod, (by omega : q.tail.val + xs.length - q.size + q.size - q.tail.val = xs.length),
      Nat.mod_eq_of_lt hbound]

/-- The elements of a queue are the ones that it holds. -/
theorem Holds.elements_eq {q : UnyteUdpQueue α} {xs : List α} (h : q.Holds xs) :
    q.elements = xs := by
  have hcells : ∀ i ∈ List.range xs.length, q.data (q.next q.tail i) = xs[i]? := by
    intro i hi
    have hlt := List.mem_range.mp hi
    rw [h.cells i hlt, List.getElem?_eq_getElem hlt]
  have hall : (List.range xs.length).map (fun i => xs[i]?) = xs.map some := by
    apply List.ext_getElem
    · simp
    · intro i _ _
      simp
  calc q.elements
      = (List.range xs.length).filterMap fun i => xs[i]? := by
        rw [elements, h.length_eq, List.filterMap_congr hcells]
    _ = ((List.range xs.length).map fun i => xs[i]?).filterMap id := by
        rw [List.filterMap_map]
        rfl
    _ = xs := by
        rw [hall, List.filterMap_map]
        exact List.filterMap_some

/-- A handle that was read was the oldest element. -/
theorem Holds.read_eq_some {q q' : UnyteUdpQueue α} {xs : List α} (h : q.Holds xs) {x : α}
    (hread : q.read = (some x, q')) : ∃ rest, xs = x :: rest ∧ q'.Holds rest := by
  cases xs with
  | nil =>
      have hempty := h.tail_eq_head_iff.mpr rfl
      rw [UnyteUdpQueue.read, if_pos hempty] at hread
      cases hread
  | cons first rest =>
      obtain ⟨hfirst, hrest⟩ := h.read
      rw [hread] at hfirst hrest
      obtain rfl := Option.some.inj hfirst
      exact ⟨rest, rfl, hrest⟩

end UnyteUdpQueue

end UdpNotif
