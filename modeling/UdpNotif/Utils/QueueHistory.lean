import UdpNotif.Utils.QueueThreads

/-!
The queue in the hands of a single client: one call after the other, and a read
only where `is_udp_queue_empty` reports an element. Such a history is compared with
a bounded first-in first-out queue of `size - 1` elements.
-/

namespace UdpNotif

variable {α T : Type*}

namespace QueueThreads

/-- Check whether or not the queue is empty: 1 for not empty, 0 for empty. -/
def isUdpQueueEmpty (s : QueueThreads α T) : Int := if s.sem .full = 0 then 0 else 1

/-- Where a call leaves the queue and the semaphores: it has waited, its section has
given `outcome` and `queue`, and it has posted. -/
def returned (s : QueueThreads α T) (c : QueueCall α) (outcome : QueueOutcome α)
    (queue : UnyteUdpQueue α) : QueueThreads α T :=
  let waited := { s.setSem c.waitsOn (s.sem c.waitsOn - 1) with queue }
  waited.setSem outcome.posts (waited.sem outcome.posts + 1)

/-- A call that no other call overlaps, `none` where it waits for ever. -/
def callAlone (s : QueueThreads α T) (c : QueueCall α) :
    Option (QueueOutcome α × QueueThreads α T) :=
  if 0 < s.sem c.waitsOn then
    let (outcome, queue) := s.queue.callSection c
    some (outcome, s.returned c outcome queue)
  else none

/-- A call returns unless it has to wait, and then its section decides. -/
theorem callAlone_eq_some_iff {s s' : QueueThreads α T} {c : QueueCall α}
    {o : QueueOutcome α} :
    s.callAlone c = some (o, s') ↔ 0 < s.sem c.waitsOn ∧
      ∃ queue, s.queue.callSection c = (o, queue) ∧ s' = s.returned c o queue := by
  unfold callAlone
  split
  · rename_i hpos
    constructor
    · intro hcall
      obtain ⟨rfl, rfl⟩ := Prod.mk.inj (Option.some.inj hcall)
      exact ⟨hpos, _, rfl, rfl⟩
    · rintro ⟨_, queue, hsection, rfl⟩
      rw [hsection]
  · rename_i hzero
    exact iff_of_false (by rintro ⟨⟩) (fun h => hzero h.1)

/-- A call takes a token of the semaphore that it waits on, and posts another. -/
theorem returned_sem {s : QueueThreads α T} {c : QueueCall α} (hpos : 0 < s.sem c.waitsOn)
    (o : QueueOutcome α) (queue : UnyteUdpQueue α) (semaphore : QueueSemaphore) :
    (s.returned c o queue).sem semaphore + c.waitsOn.token semaphore =
      s.sem semaphore + o.posts.token semaphore := by
  change Function.update (Function.update s.sem c.waitsOn (s.sem c.waitsOn - 1)) o.posts
    (Function.update s.sem c.waitsOn (s.sem c.waitsOn - 1) o.posts + 1) semaphore +
      c.waitsOn.token semaphore = s.sem semaphore + o.posts.token semaphore
  have hwaited : Function.update s.sem c.waitsOn (s.sem c.waitsOn - 1) semaphore +
      c.waitsOn.token semaphore = s.sem semaphore := by
    by_cases hwaits : semaphore = c.waitsOn
    · rw [hwaits, Function.update_self, QueueSemaphore.token_self]
      omega
    · rw [Function.update_of_ne hwaits, QueueSemaphore.token_of_ne (Ne.symm hwaits),
        Nat.add_zero]
  by_cases hposts : semaphore = o.posts
  · rw [hposts] at hwaited ⊢
    rw [Function.update_self, QueueSemaphore.token_self]
    omega
  · rw [Function.update_of_ne hposts, QueueSemaphore.token_of_ne (Ne.symm hposts), hwaited,
      Nat.add_zero]

/-- Such a call is what a thread does in its steps, from idle to idle. -/
theorem callAlone_run [DecidableEq T] {s s' : QueueThreads α T} {c : QueueCall α}
    {o : QueueOutcome α} (hcall : s.callAlone c = some (o, s')) {t : T}
    (ht : s.phase t = .idle) :
    Runs.Run Step s [.call t c, .semWait t, .locked t c o, .semPost t o] s' := by
  obtain ⟨hpos, queue, hsection, rfl⟩ := callAlone_eq_some_iff.mp hcall
  have hidle : Function.update (Function.update (Function.update (Function.update s.phase t
      (.waiting c)) t (.entering c)) t (.posting o)) t .idle = s.phase := by
    rw [Function.update_idem, Function.update_idem, Function.update_idem, ← ht,
      Function.update_eq_self]
  have hrun : Runs.Run Step s [.call t c, .semWait t, .locked t c o, .semPost t o] _ :=
    ((((Runs.Run.nil.snoc (.call c ht)).snoc
      (.semWait (c := c) (Function.update_self _ _ _) hpos)).snoc
      (.locked (c := c) (Function.update_self _ _ _) hsection)).snoc
      (.semPost (Function.update_self _ _ _)))
  convert hrun using 1
  exact congrArg (QueueThreads.mk _ _) hidle.symm

end QueueThreads

/-- What a bounded first-in first-out queue answers, and what it holds then. It has
no answer to a read of nothing, nor where nothing is there to be destroyed. -/
def fifoCall (capacity : Nat) (xs : List α) : QueueCall α → Option (QueueOutcome α × List α)
  | .read =>
      match xs with
      | [] => none
      | x :: rest => some (.taken (some x), rest)
  | .write handle =>
      if xs.length = capacity then some (.foundFull, xs) else some (.stored, xs ++ [handle])
  | .destructiveWrite handle =>
      if xs.length = capacity then
        match xs with
        | [] => none
        | x :: rest => some (.destroyed (some x), rest ++ [handle])
      else some (.stored, xs ++ [handle])

/-- What it holds after a call. -/
def fifoStored (capacity : Nat) (xs : List α) (c : QueueCall α) : List α :=
  (fifoCall capacity xs c).elim xs Prod.snd

/-- The sections of the queue do what the first-in first-out queue does. -/
theorem QueueEffect.fifoCall {size : Nat} {xs ys : List α} {c : QueueCall α}
    {o : QueueOutcome α} (h : QueueEffect size xs c o ys) (hne : c = .read → xs ≠ []) :
    fifoCall (size - 1) xs c = some (o, ys) := by
  cases h with
  | foundEmpty => exact absurd rfl (hne rfl)
  | taken x xs => rfl
  | foundFull handle hfull => exact if_pos (by omega)
  | stored handle hspace => exact if_neg (by omega)
  | storedDestructive handle hspace => exact if_neg (by omega)
  | destroyed x handle hfull => exact if_pos (by omega)

theorem fifoStored_length_lt {n : Nat} {xs : List α} (h : xs.length < n) (c : QueueCall α) :
    (fifoStored (n - 1) xs c).length < n := by
  unfold fifoStored fifoCall
  cases c <;> grind

open QueueThreads in
/-- Every call of a history returns, with the answer of a bounded first-in first-out
queue. A read is left out where the queue reports itself empty, and then it is. -/
inductive FollowsFifo (capacity : Nat) :
    QueueThreads α T → List α → List (QueueCall α) → Prop where
  | done {s : QueueThreads α T} {xs : List α} : FollowsFifo capacity s xs []
  | skip {s : QueueThreads α T} {calls : List (QueueCall α)} (hempty : isUdpQueueEmpty s = 0)
      (hrest : FollowsFifo capacity s [] calls) : FollowsFifo capacity s [] (.read :: calls)
  | call {s s' : QueueThreads α T} {xs ys : List α} {c : QueueCall α} {o : QueueOutcome α}
      {calls : List (QueueCall α)} (hread : c = .read → isUdpQueueEmpty s ≠ 0)
      (hcall : s.callAlone c = some (o, s')) (hfifo : fifoCall capacity xs c = some (o, ys))
      (hrest : FollowsFifo capacity s' ys calls) : FollowsFifo capacity s xs (c :: calls)

/-- A call that does not go wrong with `xs` stored: no write waits for a cell that
the semaphore lost in its 32 bits, and there is a cell besides the one of the head
where an element is to be destroyed. -/
def CallSound (n : Nat) (xs : List α) : QueueCall α → Prop
  | .read => True
  | .write _ => xs.length ≠ n % 2 ^ 32
  | .destructiveWrite _ => xs.length ≠ n % 2 ^ 32 ∧ n ≠ 1

/-- No call of a history goes wrong. -/
def HistorySound (n : Nat) : List α → List (QueueCall α) → Prop
  | _, [] => True
  | xs, c :: calls => CallSound n xs c ∧ HistorySound n (fifoStored (n - 1) xs c) calls

/-- Between two calls the queue holds `xs`, and its semaphores count the elements
and the free cells. -/
structure Stores (n : Nat) (s : QueueThreads α T) (xs : List α) : Prop where
  holds : s.queue.Holds xs
  size : s.queue.size = n
  full : s.sem .full = xs.length
  empty : s.sem .empty + xs.length = n % 2 ^ 32

theorem init_stores {n : Nat} (hn : 0 < n) {s : QueueThreads α T}
    (hinit : QueueThreads.init n hn = some s) : Stores n s [] := by
  have hfull : semInit 0 = some 0 := rfl
  have hempty : ∀ value, semInit n = some value → value = n % 2 ^ 32 := by
    intro value hvalue
    unfold semInit at hvalue
    split at hvalue
    · exact (Option.some.inj hvalue).symm
    · cases hvalue
  unfold QueueThreads.init at hinit
  rw [hfull] at hinit
  cases hsem : semInit n with
  | none =>
      rw [hsem] at hinit
      cases hinit
  | some value =>
      rw [hsem] at hinit
      obtain rfl := Option.some.inj hinit
      exact ⟨UnyteUdpQueue.init_holds n hn, rfl, rfl, hempty value hsem⟩

theorem init_isSome_iff {n : Nat} (hn : 0 < n) :
    (∃ s : QueueThreads α T, QueueThreads.init n hn = some s) ↔ n % 2 ^ 32 ≤ semValueMax := by
  have hfull : semInit 0 = some 0 := rfl
  unfold QueueThreads.init
  rw [hfull]
  unfold semInit
  by_cases hsmall : n % 2 ^ 32 ≤ semValueMax
  · rw [if_pos hsmall]
    exact iff_of_true ⟨_, rfl⟩ hsmall
  · rw [if_neg hsmall]
    exact iff_of_false (fun ⟨_, h⟩ => by cases h) hsmall

namespace Stores

variable {n : Nat} {s s' : QueueThreads α T} {xs ys : List α} {c : QueueCall α}
  {o : QueueOutcome α}

theorem isUdpQueueEmpty_iff (h : Stores n s xs) : s.isUdpQueueEmpty = 0 ↔ xs = [] := by
  unfold QueueThreads.isUdpQueueEmpty
  rw [h.full]
  by_cases hxs : xs.length = 0
  · rw [if_pos hxs]
    exact iff_of_true rfl (List.length_eq_zero_iff.mp hxs)
  · rw [if_neg hxs]
    exact iff_of_false (by decide) (fun heq => hxs (List.length_eq_zero_iff.mpr heq))

/-- What a call that returns leaves behind, where its section keeps count of the
tokens. -/
theorem of_section (h : Stores n s xs) {queue : UnyteUdpQueue α}
    (hpos : 0 < s.sem c.waitsOn) (hsize : queue.size = n) (hholds : queue.Holds ys)
    (hfull : ys.length + c.waitsOn.token .full = xs.length + o.posts.token .full)
    (hempty : xs.length + c.waitsOn.token .empty = ys.length + o.posts.token .empty) :
    Stores n (s.returned c o queue) ys := by
  have hf := h.full
  have he := h.empty
  have hf' := QueueThreads.returned_sem hpos o queue .full
  have he' := QueueThreads.returned_sem hpos o queue .empty
  exact ⟨hholds, hsize, by omega, by omega⟩

/-- The section of a call that is sound has the effect of a first-in first-out queue. -/
theorem effect (h : Stores n s xs) (hsound : CallSound n xs c)
    (hread : c = .read → xs ≠ []) {queue : UnyteUdpQueue α}
    (hsection : s.queue.callSection c = (o, queue)) :
    queue.size = n ∧ ∃ ys, queue.Holds ys ∧ QueueEffect n xs c o ys := by
  have hbound := h.holds.bound
  have hsize := h.size
  rw [hsize] at hbound
  by_cases htwo : 2 ≤ n
  · have hcall := h.holds.callSection (hsize.symm ▸ htwo) hsection
    rwa [hsize] at hcall
  · -- A single cell: nothing is stored, and a write finds the queue full.
    have hone : n = 1 := by omega
    have hnil : xs = [] := List.length_eq_zero_iff.mp (by omega)
    cases c with
    | read => exact absurd hnil (hread rfl)
    | write handle =>
        have hlength : xs.length + 1 = n := by
          rw [hnil, hone]
          rfl
        have hfull := (h.holds.write_eq_none_iff handle).mpr (hlength.trans hsize.symm)
        simp only [UnyteUdpQueue.callSection, UnyteUdpQueue.writeSection, hfull] at hsection
        cases hsection
        exact ⟨hsize, xs, h.holds, .foundFull handle hlength⟩
    | destructiveWrite handle => exact absurd hone hsound.2

theorem sem_pos (h : Stores n s xs) (hsound : CallSound n xs c) (hread : c = .read → xs ≠ []) :
    0 < s.sem c.waitsOn := by
  have hf := h.full
  have he := h.empty
  cases c with
  | read =>
      have hpos := List.length_pos_iff.mpr (hread rfl)
      change 0 < s.sem .full
      omega
  | write handle =>
      have hne : xs.length ≠ n % 2 ^ 32 := hsound
      change 0 < s.sem .empty
      omega
  | destructiveWrite handle =>
      have hne := hsound.1
      change 0 < s.sem .empty
      omega

/-- A call that is sound returns what a first-in first-out queue answers. -/
theorem call (h : Stores n s xs) (hsound : CallSound n xs c) (hread : c = .read → xs ≠ []) :
    ∃ o s' ys, s.callAlone c = some (o, s') ∧ fifoCall (n - 1) xs c = some (o, ys) ∧
      Stores n s' ys := by
  have hpos := h.sem_pos hsound hread
  obtain ⟨hsize, ys, hholds, heffect⟩ := h.effect hsound hread
    (Prod.eta (s.queue.callSection c)).symm
  exact ⟨_, _, ys, QueueThreads.callAlone_eq_some_iff.mpr ⟨hpos, _, rfl, rfl⟩,
    heffect.fifoCall hread, h.of_section hpos hsize hholds (heffect.full hread)
      (heffect.empty hread)⟩

/-- A call that returns what a first-in first-out queue answers was sound. -/
theorem callSound (h : Stores n s xs) (hcall : s.callAlone c = some (o, s'))
    (hfifo : fifoCall (n - 1) xs c = some (o, ys)) : CallSound n xs c := by
  obtain ⟨hpos, -⟩ := QueueThreads.callAlone_eq_some_iff.mp hcall
  have he := h.empty
  have hbound := h.holds.bound
  rw [h.size] at hbound
  cases c with
  | read => trivial
  | write handle =>
      change 0 < s.sem .empty at hpos
      change xs.length ≠ n % 2 ^ 32
      omega
  | destructiveWrite handle =>
      change 0 < s.sem .empty at hpos
      refine ⟨by omega, fun hone => ?_⟩
      have hnil : xs = [] := List.length_eq_zero_iff.mp (by omega)
      subst hnil hone
      cases hfifo

/-- A history follows the first-in first-out queue exactly if no call of it goes
wrong. -/
theorem followsFifo_iff (h : Stores n s xs) (calls : List (QueueCall α)) :
    FollowsFifo (n - 1) s xs calls ↔ HistorySound n xs calls := by
  induction calls generalizing s xs with
  | nil => exact iff_of_true .done trivial
  | cons c calls ih =>
      by_cases hskip : c = .read ∧ xs = []
      · obtain ⟨rfl, rfl⟩ := hskip
        have hempty : s.isUdpQueueEmpty = 0 := h.isUdpQueueEmpty_iff.mpr rfl
        constructor
        · intro hfollows
          cases hfollows with
          | skip _ hrest => exact ⟨trivial, (ih h).mp hrest⟩
          | call hread => exact absurd hempty (hread rfl)
        · rintro ⟨_, hrest⟩
          exact .skip hempty ((ih h).mpr hrest)
      · have hread : c = .read → xs ≠ [] := fun hc hxs => hskip ⟨hc, hxs⟩
        constructor
        · intro hfollows
          cases hfollows with
          | skip => exact absurd ⟨rfl, rfl⟩ hskip
          | call _ hcall hfifo hrest =>
              have hsound := h.callSound hcall hfifo
              obtain ⟨o', s', ys', hcall', hfifo', hstores⟩ := h.call hsound hread
              obtain ⟨rfl, rfl⟩ := Prod.mk.inj (Option.some.inj (hcall.symm.trans hcall'))
              obtain ⟨_, rfl⟩ := Prod.mk.inj (Option.some.inj (hfifo.symm.trans hfifo'))
              refine ⟨hsound, ?_⟩
              rw [fifoStored, hfifo]
              exact (ih hstores).mp hrest
        · rintro ⟨hsound, hrest⟩
          obtain ⟨o, s', ys, hcall, hfifo, hstores⟩ := h.call hsound hread
          rw [fifoStored, hfifo] at hrest
          exact .call (fun hc hzero => hread hc (h.isUdpQueueEmpty_iff.mp hzero)) hcall hfifo
            ((ih hstores).mpr hrest)

end Stores

/-- With two cells or more, and no more than a semaphore can count, no call of any
history goes wrong. -/
theorem historySound_of_le {n : Nat} (htwo : 2 ≤ n) (hle : n < 2 ^ 32) {xs : List α}
    (hxs : xs.length < n) (calls : List (QueueCall α)) : HistorySound n xs calls := by
  induction calls generalizing xs with
  | nil => trivial
  | cons c calls ih =>
      refine ⟨?_, ih ?_⟩
      · have hmod := Nat.mod_eq_of_lt hle
        cases c with
        | read => trivial
        | write handle =>
            change xs.length ≠ n % 2 ^ 32
            omega
        | destructiveWrite handle => exact ⟨by omega, by omega⟩
      · exact fifoStored_length_lt hxs c

/-- A history on a new queue follows a first-in first-out queue of `n - 1` elements
exactly if `sem_init` takes the size and no call of the history goes wrong. -/
theorem fifo_history_iff {n : Nat} (hn : 0 < n) (calls : List (QueueCall α)) :
    (∃ s : QueueThreads α T, QueueThreads.init n hn = some s ∧ FollowsFifo (n - 1) s [] calls) ↔
      n % 2 ^ 32 ≤ semValueMax ∧ HistorySound n [] calls := by
  constructor
  · rintro ⟨s, hinit, hfollows⟩
    exact ⟨(init_isSome_iff hn).mp ⟨s, hinit⟩, ((init_stores hn hinit).followsFifo_iff calls).mp
      hfollows⟩
  · rintro ⟨hsem, hsound⟩
    obtain ⟨s, hinit⟩ := (init_isSome_iff (α := α) (T := T) hn).mpr hsem
    exact ⟨s, hinit, ((init_stores hn hinit).followsFifo_iff calls).mpr hsound⟩

/-- Two handles fill a queue of size 3, a third destroys the first of them. -/
theorem fifo_history_size_three :
    (0 < 3) ∧ ∃ s : QueueThreads Nat Unit, QueueThreads.init 3 (by decide) = some s ∧
      FollowsFifo 2 s [] [.read, .write 1, .write 2, .write 3, .destructiveWrite 4, .read] :=
  ⟨by decide, (fifo_history_iff (by decide) _).mpr
    ⟨by decide, historySound_of_le (by decide) (by decide) (by decide) _⟩⟩

/-- In a queue of size 1 a destructive write frees the contents of a cell that was
never written. -/
theorem fifo_history_fails_size_one :
    (∃ s s' : QueueThreads Nat Unit, QueueThreads.init 1 (by decide) = some s ∧
      s.callAlone (.destructiveWrite 7) = some (.destroyed none, s')) ∧
    ¬ ∃ s : QueueThreads Nat Unit, QueueThreads.init 1 (by decide) = some s ∧
      FollowsFifo 0 s [] [.destructiveWrite 7] := by
  constructor
  · exact ⟨_, _, rfl, QueueThreads.callAlone_eq_some_iff.mpr ⟨by decide, _, rfl, rfl⟩⟩
  · rintro ⟨s, _, hfollows⟩
    cases hfollows with
    | call _ _ hfifo => cases hfifo

end UdpNotif
