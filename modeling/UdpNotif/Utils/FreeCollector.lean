import UdpNotif.Utils.QueueHistory

/-!
`unyte_udp_free_collector`: it reads both queues of a collector until they report
themselves empty, and frees what it reads. By then no other thread is in a call of
these queues, or it was cancelled while it waited.
-/

namespace UdpNotif

variable {α β T U : Type*}

/-- Where a loop that reads a queue and frees what it reads has come to: its bound on the
iterations is used up, its read waits for ever, it goes through `NULL`, or it has ended. -/
inductive FreeingLoop (α T : Type*) where
  | running
  | blocked
  | undefined
  | done (freed : List (Option α)) (queue : QueueThreads α T)

/-- A loop that has freed one more handle. -/
def FreeingLoop.cons (handle : Option α) : FreeingLoop α T → FreeingLoop α T
  | done freed queue => .done (handle :: freed) queue
  | running => .running
  | blocked => .blocked
  | undefined => .undefined

/-- The handle that a read returns. -/
def QueueOutcome.handle : QueueOutcome α → Option α
  | taken cell => cell
  | foundEmpty | foundFull | stored | destroyed _ => none

/-- Read a queue until it reports itself empty, and free what it returns; `frees` tells
whether a handle can be freed. -/
def freeElements (frees : Option α → Bool) : Nat → QueueThreads α T → FreeingLoop α T
  | 0, _ => .running
  | fuel + 1, s =>
      if s.isUdpQueueEmpty = 0 then .done [] s
      else
        match s.callAlone .read with
        | none => .blocked
        | some (outcome, s) =>
            if frees outcome.handle then (freeElements frees fuel s).cons outcome.handle
            else .undefined

/-- What the freeing of a collector has come to. -/
inductive FreedCollector (α β T U : Type*) where
  | running
  | blocked
  | undefined
  | done (messages : List (Option α)) (counters : List (Option β))
      (queue : QueueThreads α T) (monitoringQueue : QueueThreads β U)

/-- `unyte_udp_free_collector`. `unyte_udp_free_all` goes through the message it is given,
`free` takes a `NULL`. -/
def unyteUdpFreeCollector (fuel : Nat) (queue : QueueThreads α T)
    (monitoringQueue : QueueThreads β U) : FreedCollector α β T U :=
  match freeElements Option.isSome fuel queue with
  | .running => .running
  | .blocked => .blocked
  | .undefined => .undefined
  | .done messages queue =>
      match freeElements (fun _ => true) fuel monitoringQueue with
      | .running => .running
      | .blocked => .blocked
      | .undefined => .undefined
      | .done counters monitoringQueue => .done messages counters queue monitoringQueue

namespace Stores

variable {n : Nat} {s : QueueThreads α T} {xs : List α}

/-- A read of a queue that is not empty returns its oldest element. -/
theorem read {x : α} (h : Stores n s (x :: xs)) :
    ∃ s', s.callAlone .read = some (.taken (some x), s') ∧ Stores n s' xs := by
  obtain ⟨o, s', ys, hcall, hfifo, hafter⟩ := h.call (c := .read) trivial (fun _ => by simp)
  obtain ⟨rfl, rfl⟩ := Prod.mk.inj (Option.some.inj hfifo)
  exact ⟨s', hcall, hafter⟩

/-- The loop frees what the queue holds, the oldest first, and leaves it empty. -/
theorem freeElements (frees : Option α → Bool) (hfrees : ∀ x, frees (some x) = true)
    {fuel : Nat} (h : Stores n s xs) (hfuel : xs.length < fuel) :
    ∃ s', freeElements frees fuel s = .done (xs.map some) s' ∧ Stores n s' [] := by
  induction xs generalizing s fuel with
  | nil =>
      obtain ⟨fuel, rfl⟩ := Nat.exists_eq_succ_of_ne_zero (Nat.ne_zero_of_lt hfuel)
      exact ⟨s, if_pos (h.isUdpQueueEmpty_iff.mpr rfl), h⟩
  | cons x xs ih =>
      obtain ⟨fuel, rfl⟩ := Nat.exists_eq_succ_of_ne_zero (Nat.ne_zero_of_lt hfuel)
      obtain ⟨next, hread, hnext⟩ := h.read
      obtain ⟨s', hrest, hafter⟩ := ih hnext (Nat.lt_of_succ_lt_succ hfuel)
      have hheld : ¬ s.isUdpQueueEmpty = 0 := by
        rw [h.isUdpQueueEmpty_iff]
        exact List.cons_ne_nil x xs
      refine ⟨s', ?_, hafter⟩
      simp only [UdpNotif.freeElements, if_neg hheld, hread, QueueOutcome.handle, hfrees, if_true,
        hrest, FreeingLoop.cons, List.map_cons]

end Stores

namespace QueueThreads

variable [Fintype T] [DecidableEq T] {n : Nat} {s₀ s : QueueThreads α T}
  {ls : List (QueueEvent α T)}

/-- Where no thread is in a call the semaphores count the elements. -/
theorem exists_stores_run (hn : 2 ≤ n) (hmax : n ≤ semValueMax)
    (hinit : init n (Nat.zero_lt_of_lt hn) = some s₀) (hrun : Runs.Run Step s₀ ls s)
    (hquiet : s.Quiescent) :
    ∃ xs, Stores n s xs ∧ (entered ls).map some = left ls ++ xs.map some := by
  obtain ⟨xs, hbalanced, hfifo⟩ := exists_balanced_run hn hmax hinit hrun
  obtain ⟨hfull, hfree, _⟩ := (hbalanced.safe hfifo).quiescent hquiet
  have hbound := hbalanced.holds.bound
  rw [hbalanced.size] at hbound
  have hcut : n % 2 ^ 32 = n := by
    apply Nat.mod_eq_of_lt
    unfold semValueMax at hmax
    omega
  exact ⟨xs, ⟨hbalanced.holds, hbalanced.size, hfull, by omega⟩, hfifo⟩

end QueueThreads

section Free

open QueueThreads

variable [Fintype T] [DecidableEq T] [Fintype U] [DecidableEq U] {n m : Nat}
  {queue₀ queue : QueueThreads α T} {monitoringQueue₀ monitoringQueue : QueueThreads β U}
  {ls : List (QueueEvent α T)} {ms : List (QueueEvent β U)}

/-- However its threads have used the queues of a collector before, freeing it ends after
at most as many iterations as a queue has cells: it never waits, never goes through `NULL`,
and leaves both queues empty. Every handle that was written is then accounted for: it was
read or destroyed by a thread, or it is freed here, once and in the order of writing. -/
theorem free_collector_frees_the_rest (hn : 2 ≤ n) (hnmax : n ≤ semValueMax) (hm : 2 ≤ m)
    (hmmax : m ≤ semValueMax) (hqueue : init n (Nat.zero_lt_of_lt hn) = some queue₀)
    (hmonitoring : init m (Nat.zero_lt_of_lt hm) = some monitoringQueue₀)
    (hrun : Runs.Run Step queue₀ ls queue) (hquiet : queue.Quiescent)
    (hmrun : Runs.Run Step monitoringQueue₀ ms monitoringQueue)
    (hmquiet : monitoringQueue.Quiescent) {fuel : Nat} (hfuel : n ≤ fuel) (hmfuel : m ≤ fuel) :
    ∃ messages counters queue' monitoringQueue',
      unyteUdpFreeCollector fuel queue monitoringQueue =
        .done messages counters queue' monitoringQueue' ∧
      (entered ls).map some = left ls ++ messages ∧
      (entered ms).map some = left ms ++ counters ∧
      queue'.isUdpQueueEmpty = 0 ∧ monitoringQueue'.isUdpQueueEmpty = 0 := by
  obtain ⟨xs, hstores, hfifo⟩ := exists_stores_run hn hnmax hqueue hrun hquiet
  obtain ⟨ys, hmstores, hmfifo⟩ := exists_stores_run hm hmmax hmonitoring hmrun hmquiet
  have hbound := hstores.holds.bound
  have hmbound := hmstores.holds.bound
  rw [hstores.size] at hbound
  rw [hmstores.size] at hmbound
  obtain ⟨queue', hloop, hempty⟩ :=
    hstores.freeElements Option.isSome (fun _ => rfl) (by omega : xs.length < fuel)
  obtain ⟨monitoringQueue', hmloop, hmempty⟩ :=
    hmstores.freeElements (fun _ => true) (fun _ => rfl) (by omega : ys.length < fuel)
  refine ⟨_, _, queue', monitoringQueue', ?_, hfifo, hmfifo,
    hempty.isUdpQueueEmpty_iff.mpr rfl, hmempty.isUdpQueueEmpty_iff.mpr rfl⟩
  rw [unyteUdpFreeCollector, hloop]
  simp only [hmloop]

end Free

/-- A message that nobody has read is freed. -/
theorem free_collector_frees_one_message :
    ∃ queue monitoringQueue queue' monitoringQueue' : QueueThreads Nat Unit,
      unyteUdpFreeCollector 2 queue monitoringQueue =
        .done [some 7] [] queue' monitoringQueue' := by
  have htwo : (2 : Nat) ≤ 2 := Nat.le_refl 2
  obtain ⟨s₀, hinit, _, hidle⟩ := QueueThreads.init_balanced (α := Nat) (T := Unit)
    (Nat.zero_lt_of_lt htwo) (by decide)
  obtain ⟨o, s, ys, hcall, hfifo, _⟩ := (init_stores _ hinit).call (c := .write 7)
    (by decide : ([] : List Nat).length ≠ 2 % 2 ^ 32) (by rintro ⟨⟩)
  obtain ⟨rfl, rfl⟩ := Prod.mk.inj (Option.some.inj hfifo)
  have hquiet : s.Quiescent := by
    obtain ⟨_, queue, _, rfl⟩ := QueueThreads.callAlone_eq_some_iff.mp hcall
    exact fun t => .inl (hidle t)
  obtain ⟨messages, counters, queue', monitoringQueue', hfreed, hmessages, hcounters, _⟩ :=
    free_collector_frees_the_rest htwo (by decide) htwo (by decide) hinit hinit
      (QueueThreads.callAlone_run hcall (hidle ())) hquiet .nil (fun t => .inl (hidle t)) htwo htwo
  have hseven : messages = [some 7] := hmessages.symm
  have hnone : counters = [] := hcounters.symm
  rw [hseven, hnone] at hfreed
  exact ⟨_, _, queue', monitoringQueue', hfreed⟩

end UdpNotif
