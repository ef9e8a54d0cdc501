import UdpNotif.Lib.Runs
import UdpNotif.Lib.Weights
import UdpNotif.Utils.Queue

/-!
Threads that read and write one queue of `unyte_udp_queue.c`. A call waits on a
semaphore, runs the section that the mutex protects and posts a semaphore; a
step is one of these three. The semaphores and the ring change in different
steps. A thread between its wait and its post holds a token, and the tokens of
each semaphore, those held and those free, are as many as the ring needs.
-/

namespace UdpNotif

/-- `SEM_VALUE_MAX` -/
def semValueMax : Nat := 2147483647

/-- `sem_init` takes an `unsigned int`, to which a `size_t` is cut, and refuses
a value above `SEM_VALUE_MAX`. -/
def semInit (value : Nat) : Option Nat :=
  if value % 2 ^ 32 ≤ semValueMax then some (value % 2 ^ 32) else none

/-- The semaphores of a queue. -/
inductive QueueSemaphore where
  | empty
  | full
  deriving DecidableEq

/-- A call of a function of the queue. -/
inductive QueueCall (α : Type*) where
  | read
  | write (handle : α)
  | destructiveWrite (handle : α)

/-- What the section of a call did. -/
inductive QueueOutcome (α : Type*) where
  /-- A read found `tail == head` and returns `NULL`. -/
  | foundEmpty
  /-- A read took the contents of a cell and returns it. -/
  | taken (cell : Option α)
  /-- A write found the queue full and returns `-1`. -/
  | foundFull
  /-- A write returns `0`. -/
  | stored
  /-- A destructive write freed the contents of a cell and returns `1`. -/
  | destroyed (cell : Option α)

/-- Where a thread stands. -/
inductive QueuePhase (α : Type*) where
  | idle
  /-- Before `sem_wait`. -/
  | waiting (call : QueueCall α)
  /-- Between `sem_wait` and the section. -/
  | entering (call : QueueCall α)
  /-- Between the section and `sem_post`. -/
  | posting (outcome : QueueOutcome α)

variable {α T : Type*}

/-- The semaphore that a call waits on. -/
def QueueCall.waitsOn : QueueCall α → QueueSemaphore
  | .read => .full
  | .write _ => .empty
  | .destructiveWrite _ => .empty

/-- The semaphore that is posted after the section. -/
def QueueOutcome.posts : QueueOutcome α → QueueSemaphore
  | .foundEmpty => .full
  | .taken _ => .empty
  | .foundFull => .empty
  | .stored => .full
  | .destroyed _ => .empty

/-- The elements that a section destroyed. -/
def QueueOutcome.destroys : QueueOutcome α → Nat
  | .destroyed _ => 1
  | .foundEmpty | .taken _ | .foundFull | .stored => 0

namespace UnyteUdpQueue

/-- The section of `unyte_udp_queue_read`. -/
def readSection (q : UnyteUdpQueue α) : QueueOutcome α × UnyteUdpQueue α :=
  if q.tail = q.head then (.foundEmpty, q)
  else (.taken q.read.1, q.read.2)

/-- The section of `unyte_udp_queue_write`. -/
def writeSection (q : UnyteUdpQueue α) (handle : α) : QueueOutcome α × UnyteUdpQueue α :=
  match q.write handle with
  | none => (.foundFull, q)
  | some q' => (.stored, q')

/-- The section of `unyte_udp_queue_destructive_write`. Where a write finds the
queue full, the oldest element is destroyed. -/
def destructiveWriteSection (q : UnyteUdpQueue α) (handle : α) :
    QueueOutcome α × UnyteUdpQueue α :=
  match q.write handle with
  | none => (.destroyed (q.data q.tail), q.overwrite handle)
  | some q' => (.stored, q')

/-- The section of a call. -/
def callSection (q : UnyteUdpQueue α) : QueueCall α → QueueOutcome α × UnyteUdpQueue α
  | .read => q.readSection
  | .write handle => q.writeSection handle
  | .destructiveWrite handle => q.destructiveWriteSection handle

/-- What a destructive write drops of a full queue is its oldest element; a queue of
one cell, which is always full, drops the handle itself. -/
theorem Holds.exists_dropped {q : UnyteUdpQueue α} {xs : List α} (h : q.Holds xs)
    (handle : α) :
    ∃ dropped kept, xs ++ [handle] = dropped ++ kept ∧
      (q.destructiveWriteSection handle).2.Holds kept ∧
      dropped.length = (q.destructiveWriteSection handle).1.destroys := by
  unfold UnyteUdpQueue.destructiveWriteSection
  cases hwrite : q.write handle with
  | some q' => exact ⟨[], xs ++ [handle], rfl, h.write hwrite, rfl⟩
  | none =>
      have hfull := (h.write_eq_none_iff handle).mp hwrite
      cases xs with
      | cons x rest =>
          obtain ⟨_, hafter⟩ := h.overwrite hfull handle
          exact ⟨[x], rest ++ [handle], rfl, hafter, rfl⟩
      | nil =>
          refine ⟨[handle], [], rfl, ⟨?_, h.bound, fun i hi => absurd hi (Nat.not_lt_zero i)⟩, rfl⟩
          have hempty := h.tail_eq_head_iff.mpr rfl
          change q.next q.head 1 = q.next (q.next q.tail 1) 0
          rw [next_zero, hempty]

end UnyteUdpQueue

/-- A queue with its semaphores, and where each thread stands. -/
structure QueueThreads (α T : Type*) where
  queue : UnyteUdpQueue α
  sem : QueueSemaphore → Nat
  phase : T → QueuePhase α

/-- The steps of a thread. -/
inductive QueueEvent (α T : Type*) where
  | call (t : T) (call : QueueCall α)
  | semWait (t : T)
  | locked (t : T) (call : QueueCall α) (outcome : QueueOutcome α)
  | semPost (t : T) (outcome : QueueOutcome α)

namespace QueueThreads

variable [DecidableEq T]

/-- `unyte_udp_queue_init`, with no thread in a call yet. It does not look at
the result of `sem_init`, whose failure leaves a semaphore uninitialised. -/
def init (size : Nat) (h : 0 < size) : Option (QueueThreads α T) :=
  match semInit size, semInit 0 with
  | some empty, some full => some {
      queue := .init size h
      sem := fun
        | .empty => empty
        | .full => full
      phase := fun _ => .idle }
  | _, _ => none

/-- A thread moves on. -/
def setPhase (s : QueueThreads α T) (t : T) (phase : QueuePhase α) : QueueThreads α T :=
  { s with phase := Function.update s.phase t phase }

/-- Set the value of a semaphore. -/
def setSem (s : QueueThreads α T) (semaphore : QueueSemaphore) (value : Nat) :
    QueueThreads α T :=
  { s with sem := Function.update s.sem semaphore value }

/-- The atomic steps of the calls. -/
inductive Step : QueueThreads α T → QueueEvent α T → QueueThreads α T → Prop where
  | call {s : QueueThreads α T} {t : T} (c : QueueCall α) (h : s.phase t = .idle) :
      Step s (.call t c) (s.setPhase t (.waiting c))
  | semWait {s : QueueThreads α T} {t : T} {c : QueueCall α} (h : s.phase t = .waiting c)
      (hpos : 0 < s.sem c.waitsOn) :
      Step s (.semWait t) ((s.setSem c.waitsOn (s.sem c.waitsOn - 1)).setPhase t (.entering c))
  | locked {s : QueueThreads α T} {t : T} {c : QueueCall α} {o : QueueOutcome α}
      {queue : UnyteUdpQueue α} (h : s.phase t = .entering c)
      (hsection : s.queue.callSection c = (o, queue)) :
      Step s (.locked t c o) ({ s with queue }.setPhase t (.posting o))
  | semPost {s : QueueThreads α T} {t : T} {o : QueueOutcome α} (h : s.phase t = .posting o) :
      Step s (.semPost t o) ((s.setSem o.posts (s.sem o.posts + 1)).setPhase t .idle)

end QueueThreads

/-! What the sections do to the elements of the ring -/

/-- The effect of a call on a first-in first-out queue of at most `size - 1`
elements. -/
inductive QueueEffect (size : Nat) : List α → QueueCall α → QueueOutcome α → List α → Prop where
  | foundEmpty : QueueEffect size [] .read .foundEmpty []
  | taken (x : α) (xs : List α) : QueueEffect size (x :: xs) .read (.taken (some x)) xs
  | foundFull {xs : List α} (handle : α) (h : xs.length + 1 = size) :
      QueueEffect size xs (.write handle) .foundFull xs
  | stored {xs : List α} (handle : α) (h : xs.length + 1 < size) :
      QueueEffect size xs (.write handle) .stored (xs ++ [handle])
  | storedDestructive {xs : List α} (handle : α) (h : xs.length + 1 < size) :
      QueueEffect size xs (.destructiveWrite handle) .stored (xs ++ [handle])
  | destroyed {xs : List α} (x handle : α) (h : (x :: xs).length + 1 = size) :
      QueueEffect size (x :: xs) (.destructiveWrite handle) (.destroyed (some x))
        (xs ++ [handle])

/-- The handles that a section puts into the ring. -/
def QueueOutcome.entered : QueueCall α → QueueOutcome α → List α
  | .write handle, .stored => [handle]
  | .destructiveWrite handle, .stored => [handle]
  | .destructiveWrite handle, .destroyed _ => [handle]
  | _, _ => []

/-- The contents of the cells that a section takes out of the ring, to return
them or to destroy them. -/
def QueueOutcome.left : QueueCall α → QueueOutcome α → List (Option α)
  | .read, .taken cell => [cell]
  | .destructiveWrite _, .destroyed cell => [cell]
  | _, _ => []

/-- The tokens of a semaphore that one token is. -/
def QueueSemaphore.token (of semaphore : QueueSemaphore) : Nat :=
  if of = semaphore then 1 else 0

theorem QueueSemaphore.token_self (semaphore : QueueSemaphore) :
    semaphore.token semaphore = 1 := if_pos rfl

theorem QueueSemaphore.token_of_ne {of semaphore : QueueSemaphore} (h : of ≠ semaphore) :
    of.token semaphore = 0 := if_neg h

theorem UnyteUdpQueue.Holds.lt_of_write {q q' : UnyteUdpQueue α} {xs : List α} (h : q.Holds xs)
    {handle : α} (hwrite : q.write handle = some q') : xs.length + 1 < q.size := by
  have hne : xs.length + 1 ≠ q.size := by
    intro hfull
    rw [(h.write_eq_none_iff handle).mpr hfull] at hwrite
    cases hwrite
  have := h.bound
  omega

theorem UnyteUdpQueue.size_of_write {q q' : UnyteUdpQueue α} {handle : α}
    (hwrite : q.write handle = some q') : q'.size = q.size := by
  unfold UnyteUdpQueue.write at hwrite
  split at hwrite
  · cases hwrite
  · obtain rfl := Option.some.inj hwrite
    rfl

/-- The sections are those of a first-in first-out queue. With a single cell
there is no oldest element for a destructive write to destroy. -/
theorem UnyteUdpQueue.Holds.callSection {q q' : UnyteUdpQueue α} {xs : List α}
    {c : QueueCall α} {o : QueueOutcome α} (h : q.Holds xs) (hsize : 2 ≤ q.size)
    (hsection : q.callSection c = (o, q')) :
    q'.size = q.size ∧ ∃ ys, q'.Holds ys ∧ QueueEffect q.size xs c o ys := by
  cases c with
  | read =>
      simp only [UnyteUdpQueue.callSection, readSection] at hsection
      cases xs with
      | nil =>
          rw [if_pos (h.tail_eq_head_iff.mpr rfl)] at hsection
          cases hsection
          exact ⟨rfl, [], h, .foundEmpty⟩
      | cons x xs =>
          have hne : q.tail ≠ q.head := fun heq => by cases h.tail_eq_head_iff.mp heq
          rw [if_neg hne, h.read.1] at hsection
          cases hsection
          have hsame : q.read.2.size = q.size := by
            rw [UnyteUdpQueue.read, if_neg hne]
          exact ⟨hsame, xs, h.read.2, .taken x xs⟩
  | write handle =>
      simp only [UnyteUdpQueue.callSection, writeSection] at hsection
      cases hwrite : q.write handle with
      | none =>
          rw [hwrite] at hsection
          cases hsection
          exact ⟨rfl, xs, h, .foundFull handle ((h.write_eq_none_iff handle).mp hwrite)⟩
      | some q'' =>
          rw [hwrite] at hsection
          cases hsection
          exact ⟨size_of_write hwrite, _, h.write hwrite, .stored handle (h.lt_of_write hwrite)⟩
  | destructiveWrite handle =>
      simp only [UnyteUdpQueue.callSection, destructiveWriteSection] at hsection
      cases hwrite : q.write handle with
      | none =>
          have hfull := (h.write_eq_none_iff handle).mp hwrite
          cases xs with
          | nil =>
              rw [List.length_nil] at hfull
              omega
          | cons x xs =>
              obtain ⟨hoverwrite, hafter⟩ := h.overwrite hfull handle
              rw [hwrite] at hsection
              simp only [hoverwrite] at hsection
              cases hsection
              exact ⟨rfl, _, hafter, .destroyed x handle hfull⟩
      | some q'' =>
          rw [hwrite] at hsection
          cases hsection
          exact ⟨size_of_write hwrite, _, h.write hwrite,
            .storedDestructive handle (h.lt_of_write hwrite)⟩

namespace QueueEffect

variable {size : Nat} {xs ys : List α} {c : QueueCall α} {o : QueueOutcome α}

/-- What leaves the ring was its oldest element. -/
theorem fifo (h : QueueEffect size xs c o ys) :
    xs.map some ++ (o.entered c).map some = o.left c ++ ys.map some := by
  cases h <;> simp [QueueOutcome.entered, QueueOutcome.left]

/-- A call that waited for `full` or will post it has its token for an element. -/
theorem full (h : QueueEffect size xs c o ys) (hne : c = .read → xs ≠ []) :
    ys.length + c.waitsOn.token .full = xs.length + o.posts.token .full := by
  cases h with
  | foundEmpty => exact absurd rfl (hne rfl)
  | _ => simp [QueueCall.waitsOn, QueueOutcome.posts, QueueSemaphore.token]

/-- A call that waited for `empty` or will post it has its token for a free cell. -/
theorem empty (h : QueueEffect size xs c o ys) (hne : c = .read → xs ≠ []) :
    xs.length + c.waitsOn.token .empty = ys.length + o.posts.token .empty := by
  cases h with
  | foundEmpty => exact absurd rfl (hne rfl)
  | _ => simp [QueueCall.waitsOn, QueueOutcome.posts, QueueSemaphore.token]

end QueueEffect

/-! The tokens of the threads -/

/-- The tokens of a semaphore that a thread holds where it stands. -/
def QueuePhase.held (semaphore : QueueSemaphore) : QueuePhase α → Nat
  | .idle => 0
  | .waiting _ => 0
  | .entering c => c.waitsOn.token semaphore
  | .posting o => o.posts.token semaphore

/-- The handles that a step puts into the ring. -/
def QueueEvent.entered : QueueEvent α T → List α
  | .locked _ c o => o.entered c
  | _ => []

/-- The contents of the cells that a step takes out of the ring. -/
def QueueEvent.left : QueueEvent α T → List (Option α)
  | .locked _ c o => o.left c
  | _ => []

namespace QueueThreads

variable [Fintype T]

/-- The tokens of a semaphore that are free or that a thread holds. -/
def tokens (s : QueueThreads α T) (semaphore : QueueSemaphore) : Nat :=
  s.sem semaphore + Weights.total (QueuePhase.held semaphore) s.phase

/-- The ring holds `xs`, every element is a token of `full` and every free cell
is a token of `empty`. -/
structure Balanced (n : Nat) (s : QueueThreads α T) (xs : List α) : Prop where
  holds : s.queue.Holds xs
  size : s.queue.size = n
  full : s.tokens .full = xs.length
  empty : s.tokens .empty + xs.length = n

variable {n : Nat} {s s' : QueueThreads α T} {xs : List α}

/-- A reader in its section finds an element. -/
theorem Balanced.ne_nil (h : Balanced n s xs) {t : T} (ht : s.phase t = .entering .read) :
    xs ≠ [] := by
  have hle := Weights.le_total (QueuePhase.held .full) s.phase t
  rw [ht] at hle
  have hone : (QueuePhase.entering (α := α) .read).held .full = 1 := rfl
  have hfull := h.full
  unfold tokens at hfull
  rintro rfl
  rw [List.length_nil] at hfull
  omega

/-- A step that leaves the ring and the tokens as they are. -/
theorem Balanced.of_tokens_eq (h : Balanced n s xs) (hqueue : s'.queue = s.queue)
    (htokens : ∀ semaphore, s'.tokens semaphore = s.tokens semaphore) : Balanced n s' xs where
  holds := hqueue ▸ h.holds
  size := hqueue ▸ h.size
  full := (htokens .full).trans h.full
  empty := by rw [htokens .empty, h.empty]

theorem init_balanced (h : 0 < n) (hn : n ≤ semValueMax) :
    ∃ s, init (α := α) (T := T) n h = some s ∧ Balanced n s [] ∧ ∀ t, s.phase t = .idle := by
  have hcut : n % 2 ^ 32 = n := by
    apply Nat.mod_eq_of_lt
    unfold semValueMax at hn
    omega
  have hempty : semInit n = some n := by rw [semInit, hcut, if_pos hn]
  have hfull : semInit 0 = some 0 := rfl
  unfold init
  rw [hempty, hfull]
  refine ⟨_, rfl, ⟨UnyteUdpQueue.init_holds n h, rfl, ?_, ?_⟩, fun _ => rfl⟩
  · exact congrArg (0 + ·) (Weights.total_eq_zero (fun _ => rfl))
  · exact congrArg (n + · + 0) (Weights.total_eq_zero (fun _ => rfl))

variable [DecidableEq T]

/-- A thread moves on and holds other tokens. -/
theorem tokens_setPhase (s : QueueThreads α T) (t : T) (p : QueuePhase α)
    (semaphore : QueueSemaphore) :
    (s.setPhase t p).tokens semaphore + (s.phase t).held semaphore =
      s.tokens semaphore + p.held semaphore := by
  have hheld := Weights.total_update (QueuePhase.held semaphore) s.phase t p
  simp only [tokens, setPhase]
  omega

/-- A token goes from a semaphore to a thread, or from a thread to a semaphore. -/
theorem tokens_exchange (s : QueueThreads α T) (t : T) (p : QueuePhase α)
    (moved : QueueSemaphore) (value : Nat)
    (hmoved : value + p.held moved = s.sem moved + (s.phase t).held moved)
    (hothers : ∀ other, moved ≠ other → p.held other = (s.phase t).held other)
    (semaphore : QueueSemaphore) :
    ((s.setSem moved value).setPhase t p).tokens semaphore = s.tokens semaphore := by
  have hphase := tokens_setPhase (s.setSem moved value) t p semaphore
  have hsame : (s.setSem moved value).phase = s.phase := rfl
  rw [hsame] at hphase
  by_cases hsem : moved = semaphore
  · subst hsem
    have hset : (s.setSem moved value).tokens moved + s.sem moved = s.tokens moved + value := by
      simp only [tokens, setSem, Function.update_self]
      omega
    omega
  · have hset : (s.setSem moved value).tokens semaphore = s.tokens semaphore := by
      simp only [tokens, setSem, Function.update_of_ne (Ne.symm hsem)]
    have hkept := hothers semaphore hsem
    omega

/-- The token that a thread takes off a semaphore is the one that it holds. -/
theorem tokens_semWait {t : T} {c : QueueCall α} (ht : s.phase t = .waiting c)
    (hpos : 0 < s.sem c.waitsOn) (semaphore : QueueSemaphore) :
    ((s.setSem c.waitsOn (s.sem c.waitsOn - 1)).setPhase t (.entering c)).tokens semaphore =
      s.tokens semaphore := by
  apply tokens_exchange
  · rw [ht]
    simp only [QueuePhase.held, QueueSemaphore.token_self]
    omega
  · intro other hother
    rw [ht]
    exact QueueSemaphore.token_of_ne hother

/-- The token that a thread held goes to the semaphore that it posts. -/
theorem tokens_semPost {t : T} {o : QueueOutcome α} (ht : s.phase t = .posting o)
    (semaphore : QueueSemaphore) :
    ((s.setSem o.posts (s.sem o.posts + 1)).setPhase t .idle).tokens semaphore =
      s.tokens semaphore := by
  apply tokens_exchange
  · rw [ht]
    simp only [QueuePhase.held, QueueSemaphore.token_self]
  · intro other hother
    rw [ht]
    exact (QueueSemaphore.token_of_ne hother).symm

/-- A section exchanges the token that the call waited for for the one that it
will post. -/
theorem tokens_locked {t : T} {c : QueueCall α} (ht : s.phase t = .entering c)
    (o : QueueOutcome α) (queue : UnyteUdpQueue α) (semaphore : QueueSemaphore) :
    ({ s with queue }.setPhase t (.posting o)).tokens semaphore + c.waitsOn.token semaphore =
      s.tokens semaphore + o.posts.token semaphore := by
  have hphase := tokens_setPhase { s with queue } t (.posting o) semaphore
  have hsame : ({ s with queue } : QueueThreads α T).phase = s.phase := rfl
  rw [hsame, ht] at hphase
  exact hphase

/-- A step of a thread keeps the balance, and the elements leave the ring in
the order in which they entered it. -/
theorem Balanced.step (h : Balanced n s xs) (hn : 2 ≤ n) {l : QueueEvent α T}
    (hstep : Step s l s') :
    ∃ ys, Balanced n s' ys ∧ xs.map some ++ l.entered.map some = l.left ++ ys.map some := by
  cases hstep with
  | @call t c ht =>
      have hsame : ∀ semaphore, (s.setPhase t (.waiting c)).tokens semaphore =
          s.tokens semaphore := by
        intro semaphore
        have hphase := tokens_setPhase s t (.waiting c) semaphore
        rw [ht] at hphase
        exact hphase
      exact ⟨xs, h.of_tokens_eq rfl hsame, List.append_nil _⟩
  | @semWait t c ht hpos =>
      exact ⟨xs, h.of_tokens_eq rfl (tokens_semWait ht hpos), List.append_nil _⟩
  | @locked t c o queue ht hsection =>
      obtain ⟨hsize, ys, hys, heffect⟩ := h.holds.callSection (h.size ▸ hn) hsection
      have hne : c = .read → xs ≠ [] := fun hc => h.ne_nil (hc ▸ ht)
      have hfull := h.full
      have hempty := h.empty
      have hfull' := tokens_locked ht o queue .full
      have hempty' := tokens_locked ht o queue .empty
      have helements := heffect.full hne
      have hcells := heffect.empty hne
      exact ⟨ys, ⟨hys, hsize.trans h.size, by omega, by omega⟩, heffect.fifo⟩
  | @semPost t o ht =>
      exact ⟨xs, h.of_tokens_eq rfl (tokens_semPost ht), List.append_nil _⟩

/-- The handles that entered the ring, and the contents of the cells that left
it, over the steps of a run. -/
def entered (ls : List (QueueEvent α T)) : List α := ls.flatMap QueueEvent.entered

def left (ls : List (QueueEvent α T)) : List (Option α) := ls.flatMap QueueEvent.left

/-- No thread is in a call, or it has yet to get past its `sem_wait`. -/
def Quiescent (s : QueueThreads α T) : Prop :=
  ∀ t, s.phase t = .idle ∨ ∃ c, s.phase t = .waiting c

/-- What a run `ls` that leads to `s` guarantees, with `xs` in the ring. -/
structure QueueSafe (n : Nat) (ls : List (QueueEvent α T)) (s : QueueThreads α T)
    (xs : List α) : Prop where
  holds : s.queue.Holds xs
  not_empty : ∀ t, s.phase t = .entering .read → s.queue.tail ≠ s.queue.head
  bound : xs.length ≤ n - 1
  full_only : ∀ t handle s', Step s (.locked t (.write handle) .foundFull) s' →
    xs.length = n - 1
  sem_le : ∀ semaphore, s.sem semaphore ≤ n
  fifo : (entered ls).map some = left ls ++ xs.map some
  quiescent : s.Quiescent →
    s.sem .full = xs.length ∧ s.sem .empty = n - xs.length ∧ 0 < s.sem .empty

/-- A state in balance is safe. -/
theorem Balanced.safe (h : Balanced n s xs) {ls : List (QueueEvent α T)}
    (hfifo : (entered ls).map some = left ls ++ xs.map some) : QueueSafe n ls s xs where
  holds := h.holds
  not_empty := fun _ ht heq => h.ne_nil ht (h.holds.tail_eq_head_iff.mp heq)
  bound := by
    have hbound := h.holds.bound
    rw [h.size] at hbound
    omega
  full_only := by
    intro t handle s' hstep
    cases hstep with
    | locked _ hsection =>
        simp only [UnyteUdpQueue.callSection, UnyteUdpQueue.writeSection] at hsection
        split at hsection
        · rename_i hwrite
          have hfull := (h.holds.write_eq_none_iff handle).mp hwrite
          rw [h.size] at hfull
          omega
        · cases hsection
  sem_le := by
    have hbound := h.holds.bound
    have hfull := h.full
    have hempty := h.empty
    rw [h.size] at hbound
    unfold tokens at hfull hempty
    intro semaphore
    cases semaphore <;> omega
  fifo := hfifo
  quiescent := by
    intro hquiet
    have hnone : ∀ semaphore, Weights.total (QueuePhase.held semaphore) s.phase = 0 := by
      intro semaphore
      apply Weights.total_eq_zero
      intro t
      rcases hquiet t with ht | ⟨c, ht⟩
      · rw [ht]
        rfl
      · rw [ht]
        rfl
    have hbound := h.holds.bound
    have hfull := h.full
    have hempty := h.empty
    rw [h.size] at hbound
    unfold tokens at hfull hempty
    rw [hnone] at hfull hempty
    exact ⟨by omega, by omega, by omega⟩

/-- What the ring holds along a run is what entered it and has not left it. -/
theorem exists_balanced_run (hn : 2 ≤ n) (hmax : n ≤ semValueMax) {s₀ : QueueThreads α T}
    (hinit : init n (Nat.zero_lt_of_lt hn) = some s₀) {ls : List (QueueEvent α T)}
    (hrun : Runs.Run Step s₀ ls s) :
    ∃ xs, Balanced n s xs ∧ (entered ls).map some = left ls ++ xs.map some := by
  apply hrun.invariant
    (I := fun ls s => ∃ xs, Balanced n s xs ∧
      (entered ls).map some = left ls ++ xs.map some)
  · obtain ⟨s₁, hs₁, hempty, _⟩ := init_balanced (α := α) (T := T) (Nat.zero_lt_of_lt hn) hmax
    obtain rfl := Option.some.inj (hinit.symm.trans hs₁)
    exact ⟨[], hempty, rfl⟩
  · rintro ls t l u _ ⟨xs, hbefore, hfifo⟩ hstep
    obtain ⟨ys, hafter, hone⟩ := hbefore.step hn hstep
    refine ⟨ys, hafter, ?_⟩
    calc (entered (ls ++ [l])).map some
        = (entered ls).map some ++ l.entered.map some := by simp [entered]
      _ = left ls ++ (xs.map some ++ l.entered.map some) := by
          rw [hfifo, List.append_assoc]
      _ = left ls ++ (l.left ++ ys.map some) := by rw [hone]
      _ = left (ls ++ [l]) ++ ys.map some := by simp [left]

/-- Threads of any number use a queue of any size that a semaphore can have:
the semaphores keep readers off an empty ring, and every handle that a write
accepted is returned by one read, destroyed by one destructive write or in the
ring, in order. -/
theorem queue_safe (hn : 2 ≤ n) (hmax : n ≤ semValueMax) {s₀ : QueueThreads α T}
    (hinit : init n (Nat.zero_lt_of_lt hn) = some s₀) {ls : List (QueueEvent α T)}
    (hrun : Runs.Run Step s₀ ls s) : ∃ xs, QueueSafe n ls s xs := by
  obtain ⟨xs, hafter, hfifo⟩ := exists_balanced_run hn hmax hinit hrun
  exact ⟨xs, hafter.safe hfifo⟩

/-- Two producers and a consumer use a queue of two cells. The producer that comes second
to the ring finds it full, and the consumer takes the handle of the other one. -/
def interleaved : List (QueueEvent Nat (Fin 3)) :=
  [.call 2 .read, .call 0 (.write 7), .semWait 0, .call 1 (.write 8), .semWait 1,
    .locked 1 (.write 8) .stored, .locked 0 (.write 7) .foundFull, .semPost 1 .stored,
    .semWait 2, .semPost 0 .foundFull, .locked 2 .read (.taken (some 8)),
    .semPost 2 (.taken (some 8))]

/-- That queue before their calls. -/
def queueOfTwo : QueueThreads Nat (Fin 3) where
  queue := .init 2 Nat.two_pos
  sem := fun
    | .empty => 2
    | .full => 0
  phase := fun _ => .idle

theorem queue_safe_interleaved : ∃ s xs, QueueSafe 2 interleaved s xs := by
  have hinit : init 2 Nat.two_pos = some queueOfTwo := by
    rw [init, (by decide : semInit 2 = some 2), (by decide : semInit 0 = some 0)]
    rfl
  have hstart : Runs.Run Step queueOfTwo [] queueOfTwo := .nil
  have hwaits := ((((hstart.snoc (Step.call (t := 2) .read rfl)).snoc
    (Step.call (t := 0) (.write 7) rfl)).snoc
    (Step.semWait (t := 0) (c := .write 7) rfl (by decide))).snoc
    (Step.call (t := 1) (.write 8) rfl)).snoc
    (Step.semWait (t := 1) (c := .write 8) rfl (by decide))
  have hwrites := (hwaits.snoc (Step.locked (t := 1) (c := .write 8) rfl rfl)).snoc
    (Step.locked (t := 0) (c := .write 7) rfl rfl)
  have hread := ((((hwrites.snoc (Step.semPost (t := 1) rfl)).snoc
    (Step.semWait (t := 2) (c := .read) rfl (by decide))).snoc
    (Step.semPost (t := 0) rfl)).snoc (Step.locked (t := 2) (c := .read) rfl rfl)).snoc
    (Step.semPost (t := 2) rfl)
  exact ⟨_, queue_safe (Nat.le_refl 2) (by decide) hinit hread⟩

/-- For a queue of `2 ^ 32` cells the semaphore of the free ones starts at zero,
and no write gets past it. -/
theorem queue_of_4294967296_blocks :
    ¬ ∀ (n : Nat) (hn : 2 ≤ n) (s₀ : QueueThreads Nat Unit),
      init n (Nat.zero_lt_of_lt hn) = some s₀ →
      ∀ ls s, Runs.Run Step s₀ ls s → ∃ xs, QueueSafe n ls s xs := by
  intro h
  have hzero : semInit 4294967296 = some 0 := by decide
  have hfull : semInit 0 = some 0 := by decide
  obtain ⟨xs, hsafe⟩ := h 4294967296 (by decide) _ (by rw [init, hzero, hfull]) [] _ .nil
  have hpos := (hsafe.quiescent (fun _ => .inl rfl)).2.2
  exact absurd hpos (Nat.lt_irrefl 0)

end QueueThreads

end UdpNotif
