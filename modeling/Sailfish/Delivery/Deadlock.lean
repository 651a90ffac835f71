import Sailfish.Delivery.Tasks

/-!
# The core and the waiter can block each other

The core awaits `tx_certificate_waiter.send` inside `deliver_certificate`, and the waiter
awaits `tx_core.send` inside its `select!` loop.  Once the core waits on a full
`tx_certificate_waiter` and the waiter on a full `tx_core`, neither receives again, so
neither channel drains: the only steps left are writes to the store, and no certificate
is delivered any more.

For every capacity this state is reachable, with a ready certificate in `tx_core`.  A
certificate reaches the core, more times than the capacity, before its header is stored,
as a faulty peer may send it; the waiter parks each copy on the header id.  The header
is stored, and the waiter fills `tx_core` and blocks on the last copy.  Then certificates
whose header is missing fill `tx_certificate_waiter`, and the core blocks on the next.
-/

namespace Sailfish

namespace DeliveryTasks

open CertificateWaiter (waitFor parkedAuthor parkedSynchronizer parkedCertificate
  parkedHeaderId parkedHeader storeWithoutHeader storeWithHeader)

/-- The core awaits a send on a full `tx_certificate_waiter`, and the waiter one on a full
`tx_core`. -/
def Deadlocked (capacity : Nat) (self : DeliveryTasks) : Prop :=
  (∃ certificate, self.core = .sending certificate) ∧ capacity ≤ self.toWaiter.length ∧
    (∃ certificate, self.waiterSending = some certificate) ∧ capacity ≤ self.toCore.length

section Deadlocked

variable {sync : Synchronizer} {content : Digest → Option HeaderType} {capacity : Nat}
  {self next : DeliveryTasks}

/-- From a deadlock, the only step is a write. -/
theorem eq_store_of_deadlocked_step (hdead : Deadlocked capacity self) {event : TaskEvent}
    (hstep : self.step sync content capacity event = some next) :
    next = { self with store := next.store } := by
  obtain ⟨⟨certificate, hcore⟩, hwaiter, ⟨sending, hsending⟩, hcoreChannel⟩ := hdead
  cases moves_of_step hstep with
  | write _ => rfl
  | submit _ h | loopBack h _ | deliver h | available h _ | missing h _ _ =>
      simp [hcore] at h
  | coreSend _ hroom => omega
  | waiterReceive h _ | waiterComplete h _ _ => simp [hsending] at h
  | waiterSend _ hroom => omega

theorem eq_store_of_deadlocked_run (hdead : Deadlocked capacity self) {more : List TaskEvent}
    (hrun : self.run sync content capacity more = some next) :
    next = { self with store := next.store } := by
  induction more generalizing self with
  | nil =>
      cases hrun
      rfl
  | cons event more ih =>
      obtain ⟨mid, hmid, hrest⟩ := Option.bind_eq_some.mp hrun
      have hmidEq := eq_store_of_deadlocked_step hdead hmid
      have hmidDead : Deadlocked capacity mid := by rw [hmidEq]; exact hdead
      rw [ih hmidDead hrest, hmidEq]

end Deadlocked

/-!
## Reaching the deadlock

Every write happens before either task blocks, so the run needs no writer besides the
tasks that block.
-/

def orphanHeaderId : Digest := ⟨List.replicate 31 0 ++ [2], by simp⟩

/-- A certificate whose header is not stored. -/
def orphanCertificate : Certificate := ⟨orphanHeaderId, 1, parkedAuthor, ([], default)⟩

/-- The certificate reaches the core before its header, and the waiter parks it. -/
def parkRound : List TaskEvent := [.submit parkedCertificate, .coreResume, .waiterReceive]

/-- The waiter's oldest future resolves and its certificate goes on `tx_core`. -/
def returnRound : List TaskEvent := [.waiterComplete 0, .waiterResume]

/-- The orphan reaches the core, which leaves it on `tx_certificate_waiter`. -/
def queueRound : List TaskEvent := [.submit orphanCertificate, .coreResume]

def deadlockRun (capacity : Nat) : List TaskEvent :=
  (List.replicate (capacity + 1) parkRound).flatten ++ [.write parkedHeaderId] ++
    (List.replicate capacity returnRound).flatten ++ [.waiterComplete 0] ++
    (List.replicate capacity queueRound).flatten ++ [.submit orphanCertificate]

def deadlockTasks (capacity : Nat) : DeliveryTasks :=
  ⟨storeWithoutHeader.write parkedHeaderId (.header parkedHeader),
    List.replicate capacity orphanCertificate, ⟨[]⟩, List.replicate capacity parkedCertificate,
    [], .sending orphanCertificate, some parkedCertificate⟩

section Rounds

variable {capacity : Nat} (self : DeliveryTasks)

/-- What the waiter parks the certificate on while its header is missing. -/
abbrev parkedEntry : List Digest × Certificate := ([parkedHeaderId], parkedCertificate)

theorem run_parkRounds (k : Nat) (hcore : self.core = .idle)
    (hsending : self.waiterSending = none) (htoWaiter : self.toWaiter = [])
    (hread : self.store.read parkedHeaderId = none) (hcapacity : 0 < capacity) :
    self.run parkedSynchronizer storeWithHeader.read capacity
        (List.replicate k parkRound).flatten =
      some { self with waiter := ⟨self.waiter.waiting ++ List.replicate k parkedEntry⟩ } := by
  induction k generalizing self with
  | zero => simp
  | succ k ih =>
      obtain ⟨store, toWaiter, ⟨waiting⟩, toCore, delivered, core, waiterSending⟩ := self
      simp only at hcore hsending htoWaiter hread
      subst hcore hsending htoWaiter
      rw [List.replicate_succ, List.flatten_cons, run_append]
      have hround : (DeliveryTasks.mk store [] ⟨waiting⟩ toCore delivered .idle none).run
          parkedSynchronizer storeWithHeader.read capacity parkRound =
            some ⟨store, [], ⟨waiting ++ [parkedEntry]⟩, toCore, delivered, .idle, none⟩ := by
        simp only [parkRound, run, step, receive, parkedCertificate, hread, resume,
          CertificateWaiter.step, waitFor, Option.map_some', Option.some_bind, List.length_nil,
          hcapacity, ↓reduceIte, List.nil_append]
        rfl
      rw [hround, Option.some_bind, ih _ rfl rfl rfl hread]
      simp [List.replicate_succ]

theorem run_returnRounds (k : Nat) {rest : List (List Digest × Certificate)}
    (hsending : self.waiterSending = none)
    (hwaiting : self.waiter.waiting = List.replicate k parkedEntry ++ rest)
    (htoCore : self.toCore.length + k ≤ capacity)
    (hread : (self.store.read parkedHeaderId).isSome) :
    self.run parkedSynchronizer storeWithHeader.read capacity
        (List.replicate k returnRound).flatten =
      some { self with
        waiter := ⟨rest⟩
        toCore := self.toCore ++ List.replicate k parkedCertificate } := by
  induction k generalizing self with
  | zero =>
      obtain ⟨store, toWaiter, ⟨waiting⟩, toCore, delivered, core, waiterSending⟩ := self
      simp only at hwaiting
      simp [hwaiting]
  | succ k ih =>
      obtain ⟨store, toWaiter, ⟨waiting⟩, toCore, delivered, core, waiterSending⟩ := self
      simp only at hsending hwaiting htoCore hread
      subst hsending hwaiting
      rw [show (List.replicate (k + 1) returnRound).flatten =
        returnRound ++ (List.replicate k returnRound).flatten from rfl, run_append]
      have hround : (DeliveryTasks.mk store toWaiter
          ⟨parkedEntry :: (List.replicate k parkedEntry ++ rest)⟩ toCore delivered core
          none).run parkedSynchronizer storeWithHeader.read capacity returnRound =
            some ⟨store, toWaiter, ⟨List.replicate k parkedEntry ++ rest⟩,
              toCore ++ [parkedCertificate], delivered, core, none⟩ := by
        have hroom : toCore.length < capacity := by omega
        simp only [returnRound, run, step, CertificateWaiter.step, List.length_cons,
          List.getElem?_cons_zero, CertificateWaiter.waiterReady, List.all_cons, hread,
          List.all_nil, Bool.and_self, ↓reduceIte, List.eraseIdx_zero, List.tail_cons,
          Option.map_some', List.head?_cons, Option.some_bind, hroom]
      rw [List.replicate_succ, List.cons_append, hround, Option.some_bind,
        ih _ rfl rfl (by simp; omega) hread]
      simp [List.replicate_succ]

theorem run_queueRounds (k : Nat) (hcore : self.core = .idle)
    (htoWaiter : self.toWaiter.length + k ≤ capacity)
    (hread : self.store.read orphanHeaderId = none) :
    self.run parkedSynchronizer storeWithHeader.read capacity
        (List.replicate k queueRound).flatten =
      some { self with toWaiter := self.toWaiter ++ List.replicate k orphanCertificate } := by
  induction k generalizing self with
  | zero => simp
  | succ k ih =>
      obtain ⟨store, toWaiter, waiter, toCore, delivered, core, waiterSending⟩ := self
      simp only at hcore htoWaiter hread
      subst hcore
      rw [List.replicate_succ, List.flatten_cons, run_append]
      have hround : (DeliveryTasks.mk store toWaiter waiter toCore delivered .idle
          waiterSending).run parkedSynchronizer storeWithHeader.read capacity queueRound =
            some ⟨store, toWaiter ++ [orphanCertificate], waiter, toCore, delivered, .idle,
              waiterSending⟩ := by
        have hroom : toWaiter.length < capacity := by omega
        simp [queueRound, run, step, receive, resume, orphanCertificate, hread, hroom]
      rw [hround, Option.some_bind, ih _ rfl (by simp; omega) hread]
      simp [List.replicate_succ]

end Rounds

theorem run_deadlockRun {capacity : Nat} (hcapacity : 0 < capacity) :
    (init storeWithoutHeader).run parkedSynchronizer storeWithHeader.read capacity
      (deadlockRun capacity) = some (deadlockTasks capacity) := by
  have hread : storeWithoutHeader.read parkedHeaderId = none := rfl
  let stored := storeWithoutHeader.write parkedHeaderId (.header parkedHeader)
  have hparked : (init storeWithoutHeader).run parkedSynchronizer storeWithHeader.read capacity
      (List.replicate (capacity + 1) parkRound).flatten =
        some ⟨storeWithoutHeader, [], ⟨List.replicate (capacity + 1) parkedEntry⟩, [], [],
          .idle, none⟩ := by
    rw [run_parkRounds _ _ rfl rfl rfl hread hcapacity]
    rfl
  have hwritten : (DeliveryTasks.mk storeWithoutHeader [] ⟨List.replicate (capacity + 1)
      parkedEntry⟩ [] [] .idle none).run parkedSynchronizer storeWithHeader.read capacity
        [.write parkedHeaderId] =
      some ⟨stored, [], ⟨List.replicate (capacity + 1) parkedEntry⟩, [], [], .idle, none⟩ :=
    rfl
  have hreturned : (DeliveryTasks.mk stored [] ⟨List.replicate (capacity + 1) parkedEntry⟩
      [] [] .idle none).run parkedSynchronizer storeWithHeader.read capacity
        (List.replicate capacity returnRound).flatten =
      some ⟨stored, [], ⟨[parkedEntry]⟩, List.replicate capacity parkedCertificate, [], .idle,
        none⟩ := by
    have hwaiting : List.replicate (capacity + 1) parkedEntry =
        List.replicate capacity parkedEntry ++ [parkedEntry] := List.replicate_succ' ..
    have hstored : (stored.read parkedHeaderId).isSome := rfl
    exact (run_returnRounds _ capacity rfl hwaiting (by simp) hstored).trans rfl
  have hwaiterBlocked : (DeliveryTasks.mk stored [] ⟨[parkedEntry]⟩
      (List.replicate capacity parkedCertificate) [] .idle none).run parkedSynchronizer
        storeWithHeader.read capacity [.waiterComplete 0] =
      some ⟨stored, [], ⟨[]⟩, List.replicate capacity parkedCertificate, [], .idle,
        some parkedCertificate⟩ := rfl
  have hqueued : (DeliveryTasks.mk stored [] ⟨[]⟩ (List.replicate capacity parkedCertificate)
      [] .idle (some parkedCertificate)).run parkedSynchronizer storeWithHeader.read capacity
        (List.replicate capacity queueRound).flatten =
      some ⟨stored, List.replicate capacity orphanCertificate, ⟨[]⟩,
        List.replicate capacity parkedCertificate, [], .idle, some parkedCertificate⟩ := by
    have horphan : stored.read orphanHeaderId = none := rfl
    exact (run_queueRounds _ capacity rfl (by simp) horphan).trans rfl
  have hcoreBlocked : (DeliveryTasks.mk stored (List.replicate capacity orphanCertificate) ⟨[]⟩
      (List.replicate capacity parkedCertificate) [] .idle (some parkedCertificate)).run
        parkedSynchronizer storeWithHeader.read capacity [.submit orphanCertificate] =
      some (deadlockTasks capacity) := rfl
  simp only [deadlockRun, run_append, hparked, Option.some_bind, hwritten, hreturned,
    hwaiterBlocked, hqueued, hcoreBlocked]

theorem deadlockTasks_deadlocked (capacity : Nat) :
    Deadlocked capacity (deadlockTasks capacity) :=
  ⟨⟨_, rfl⟩, by simp [deadlockTasks], ⟨_, rfl⟩, by simp [deadlockTasks]⟩

theorem deliveryTasks_can_deadlock (capacity : Nat) (hcapacity : 0 < capacity) :
    ∃ events state, (init storeWithoutHeader).run parkedSynchronizer storeWithHeader.read
        capacity events = some state ∧
      parkedCertificate ∈ state.toCore ∧
      parkedSynchronizer.CertificateReady state.store parkedCertificate ∧
      state.delivered = [] ∧
      ∀ more next, state.run parkedSynchronizer storeWithHeader.read capacity more = some next →
        next = { state with store := next.store } := by
  have hready : parkedSynchronizer.CertificateReady (deadlockTasks capacity).store
      parkedCertificate :=
    ⟨_, rfl, fun p hp => .inl (by rw [List.mem_singleton.mp hp]; rfl)⟩
  exact ⟨deadlockRun capacity, deadlockTasks capacity, run_deadlockRun hcapacity,
    List.mem_replicate.mpr ⟨hcapacity.ne', rfl⟩, hready, rfl,
    fun _ _ => eq_store_of_deadlocked_run (deadlockTasks_deadlocked capacity)⟩

/-- At the default `channel_capacity`. -/
theorem defaultCapacity_can_deadlock :
    0 < 1000 ∧
    ∃ events state, (init storeWithoutHeader).run parkedSynchronizer storeWithHeader.read
        1000 events = some state ∧
      parkedCertificate ∈ state.toCore ∧
      parkedSynchronizer.CertificateReady state.store parkedCertificate ∧
      state.delivered = [] ∧
      ∀ more next, state.run parkedSynchronizer storeWithHeader.read 1000 more = some next →
        next = { state with store := next.store } :=
  ⟨by decide, deliveryTasks_can_deadlock 1000 (by decide)⟩

end DeliveryTasks

end Sailfish
