import Sailfish.Delivery.Refinement

/-!
# The pipeline as the code runs it

The core and the `CertificateWaiter` are single-threaded tasks that suspend only at a
channel send or receive and at a store read.  `deliver_certificate` reads the header and
then the parents one at a time, so writes interleave with its reads.  The channels
`tx_certificate_waiter` and `tx_core` are bounded, and `send(..).await` keeps the sender
suspended while its channel is full.

The state records where each task is suspended.  The core's receive and its read of the
header are one step, and so are the waiter's receive and its read: a write between the two
commutes with the receive.

Every run of this machine is matched by a run of `Delivery`, with the same certificates
submitted but the one the core is still checking.  The match maps each state through
`abstract`, and `deliver_certificate` takes effect at its last read: when that read
finds a parent missing, or when no parent is left to read.  So the atomic, unbounded
pipeline of `Delivery` is a specification of this one, and what holds of all its runs
holds of these.  Composed with the refinement of `Delivery/Refinement`, the two tasks
deliver a certificate only at a moment when it is ready, as `DeliverySpec` says.
-/

namespace Sailfish

open CertificateWaiter (waitFor waiterReady)

/-- Where the core is suspended. -/
inductive CoreTask where
  /-- At its `select!`, ready to receive. -/
  | idle
  /-- In `deliver_certificate`, with `parents` still to read; `looped` tells whether the
  certificate came back from the waiter. -/
  | checking (certificate : Certificate) (parents : List Digest) (looped : Bool)
  /-- At `tx_certificate_waiter.send(certificate).await`. -/
  | sending (certificate : Certificate)

namespace CoreTask

/-- The certificate the core took from the network and is still checking. -/
def received : CoreTask → List Certificate
  | .checking certificate _ looped => cond looped [] [certificate]
  | _ => []

/-- The certificate the core took from `tx_core` and is still checking. -/
def looped : CoreTask → List Certificate
  | .checking certificate _ looped => cond looped [certificate] []
  | _ => []

def sent : CoreTask → List Certificate
  | .sending certificate => [certificate]
  | _ => []

section Projections

variable {certificate : Certificate} {parents : List Digest} {looped : Bool}

@[simp] theorem received_idle : idle.received = [] := rfl

@[simp] theorem received_checking :
    (checking certificate parents looped).received = cond looped [] [certificate] := rfl

@[simp] theorem received_sending : (sending certificate).received = [] := rfl

@[simp] theorem looped_idle : idle.looped = [] := rfl

@[simp] theorem looped_checking :
    (checking certificate parents looped).looped = cond looped [certificate] [] := rfl

@[simp] theorem looped_sending : (sending certificate).looped = [] := rfl

@[simp] theorem sent_idle : idle.sent = [] := rfl

@[simp] theorem sent_checking : (checking certificate parents looped).sent = [] := rfl

@[simp] theorem sent_sending : (sending certificate).sent = [certificate] := rfl

end Projections

/-- What `deliver_certificate` has read so far: the header is stored, and every parent
before those still to read is a genesis digest or stored. -/
def Checked (sync : Synchronizer) (store : Store) : CoreTask → Prop
  | .checking certificate parents _ =>
      ∃ headerMsg done, store.read certificate.headerId = some headerMsg ∧
        headerMsg.parents = done ++ parents ∧
        ∀ p ∈ done, sync.isGenesis p = true ∨ (store.read p).isSome
  | _ => True

theorem Checked.mono {sync : Synchronizer} {core : CoreTask} {store store' : Store}
    (h : core.Checked sync store) (hle : CertificateWaiter.StoreLe store store') :
    core.Checked sync store' := by
  cases core with
  | checking certificate parents looped =>
      obtain ⟨headerMsg, done, hread, hparents, hdone⟩ := h
      exact ⟨headerMsg, done, hle _ _ hread, hparents,
        fun p hp => (hdone p hp).imp id (isSome_read_of_storeLe hle)⟩
  | idle | sending _ => trivial

theorem Checked.cons {sync : Synchronizer} {store : Store} {certificate : Certificate}
    {cert : Digest} {rest : List Digest} {looped : Bool}
    (h : (checking certificate (cert :: rest) looped).Checked sync store)
    (havailable : sync.isGenesis cert = true ∨ (store.read cert).isSome) :
    (checking certificate rest looped).Checked sync store := by
  obtain ⟨headerMsg, done, hread, hparents, hdone⟩ := h
  refine ⟨headerMsg, done ++ [cert], hread, by simp [hparents], ?_⟩
  simp only [List.mem_append, List.mem_singleton]
  rintro p (hp | rfl)
  exacts [hdone p hp, havailable]

end CoreTask

/-- The store, the two channels, the waiter's pool, the certificates delivered, and where
the core and the waiter are suspended; `waiterSending` is the certificate the waiter
awaits `tx_core.send` with. -/
structure DeliveryTasks where
  store : Store
  toWaiter : List Certificate
  waiter : CertificateWaiter
  toCore : List Certificate
  delivered : List Certificate
  core : CoreTask
  waiterSending : Option Certificate

/-- The steps of the two tasks and of the store, in any interleaving. -/
inductive TaskEvent where
  | write (key : Digest)
  /-- The idle core receives a certificate from the network and reads its header. -/
  | submit (certificate : Certificate)
  /-- The idle core receives from `tx_core` and reads the header. -/
  | loopBack
  /-- The core's pending read of a parent, or its pending send, completes. -/
  | coreResume
  | waiterReceive
  | waiterComplete (index : Nat)
  /-- The waiter's pending send completes. -/
  | waiterResume

def TaskEvent.submitted : TaskEvent → List Certificate
  | .submit certificate => [certificate]
  | _ => []

namespace DeliveryTasks

def init (store : Store) : DeliveryTasks := ⟨store, [], ⟨[]⟩, [], [], .idle, none⟩

/-- The core takes `certificate` and `deliver_certificate` reads its header: it goes on
to the parents, or sends the certificate to the waiter. -/
def receive (self : DeliveryTasks) (certificate : Certificate) (looped : Bool) :
    DeliveryTasks :=
  { self with
    core := match self.store.read certificate.headerId with
      | some headerMsg => .checking certificate headerMsg.parents looped
      | none => .sending certificate }

variable (sync : Synchronizer) (content : Digest → Option HeaderType) (capacity : Nat)

/-- The core's pending suspension completes: the loop of `deliver_certificate` over the
parents, or its send on a channel with room. -/
def resume (self : DeliveryTasks) : Option DeliveryTasks :=
  match self.core with
  | .idle => none
  | .checking certificate [] _ =>
      some { self with delivered := self.delivered ++ [certificate], core := .idle }
  | .checking certificate (cert :: rest) looped =>
      if sync.isGenesis cert then some { self with core := .checking certificate rest looped }
      else if (self.store.read cert).isNone then some { self with core := .sending certificate }
      else some { self with core := .checking certificate rest looped }
  | .sending certificate =>
      if self.toWaiter.length < capacity then
        some { self with toWaiter := self.toWaiter ++ [certificate], core := .idle }
      else none

/-- One step; `none` when the task it belongs to is suspended elsewhere, or its channel
is empty or full. -/
def step (self : DeliveryTasks) : TaskEvent → Option DeliveryTasks
  | .write key =>
      (content key).map fun value => { self with store := self.store.write key value }
  | .submit certificate =>
      match self.core with
      | .idle => some (self.receive certificate false)
      | _ => none
  | .loopBack =>
      match self.core, self.toCore with
      | .idle, certificate :: rest => some ({ self with toCore := rest }.receive certificate true)
      | _, _ => none
  | .coreResume => self.resume sync capacity
  | .waiterReceive =>
      match self.waiterSending, self.toWaiter with
      | none, certificate :: rest =>
          (self.waiter.step (self.store, .receive certificate)).map fun (_, waiter) =>
            { self with toWaiter := rest, waiter := waiter }
      | _, _ => none
  | .waiterComplete index =>
      match self.waiterSending with
      | none =>
          (self.waiter.step (self.store, .complete index)).map fun (sent, waiter) =>
            { self with waiter := waiter, waiterSending := sent.head? }
      | some _ => none
  | .waiterResume =>
      match self.waiterSending with
      | some certificate =>
          if self.toCore.length < capacity then
            some { self with toCore := self.toCore ++ [certificate], waiterSending := none }
          else none
      | none => none

def run (self : DeliveryTasks) : List TaskEvent → Option DeliveryTasks
  | [] => some self
  | event :: rest => (self.step sync content capacity event).bind fun next => next.run rest

@[simp] theorem run_nil (self : DeliveryTasks) :
    self.run sync content capacity [] = some self := rfl

theorem run_cons (self : DeliveryTasks) (event : TaskEvent) (rest : List TaskEvent) :
    self.run sync content capacity (event :: rest) =
      (self.step sync content capacity event).bind
        fun next => next.run sync content capacity rest := rfl

theorem run_append (self : DeliveryTasks) (events more : List TaskEvent) :
    self.run sync content capacity (events ++ more) =
      (self.run sync content capacity events).bind
        fun next => next.run sync content capacity more := by
  induction events generalizing self with
  | nil => rfl
  | cons event events ih =>
      rw [List.cons_append, run_cons, run_cons, Option.bind_assoc]; simp only [ih]

/-!
## What one step does
-/

/-- One step, event by event and, for the core's resumption, case by case of the loop of
`deliver_certificate`. -/
inductive Moves (self : DeliveryTasks) : TaskEvent → DeliveryTasks → Prop
  | write {key : Digest} {value : HeaderType} :
      content key = some value →
      Moves self (.write key) { self with store := self.store.write key value }
  | submit (certificate : Certificate) :
      self.core = .idle → Moves self (.submit certificate) (self.receive certificate false)
  | loopBack {certificate : Certificate} {rest : List Certificate} :
      self.core = .idle → self.toCore = certificate :: rest →
      Moves self .loopBack ({ self with toCore := rest }.receive certificate true)
  | deliver {certificate : Certificate} {looped : Bool} :
      self.core = .checking certificate [] looped →
      Moves self .coreResume
        { self with delivered := self.delivered ++ [certificate], core := .idle }
  | available {certificate : Certificate} {cert : Digest} {rest : List Digest} {looped : Bool} :
      self.core = .checking certificate (cert :: rest) looped →
      sync.isGenesis cert = true ∨ (self.store.read cert).isSome →
      Moves self .coreResume { self with core := .checking certificate rest looped }
  | missing {certificate : Certificate} {cert : Digest} {rest : List Digest} {looped : Bool} :
      self.core = .checking certificate (cert :: rest) looped →
      sync.isGenesis cert = false → self.store.read cert = none →
      Moves self .coreResume { self with core := .sending certificate }
  | coreSend {certificate : Certificate} :
      self.core = .sending certificate → self.toWaiter.length < capacity →
      Moves self .coreResume
        { self with toWaiter := self.toWaiter ++ [certificate], core := .idle }
  | waiterReceive {certificate : Certificate} {rest : List Certificate} :
      self.waiterSending = none → self.toWaiter = certificate :: rest →
      Moves self .waiterReceive
        { self with
          toWaiter := rest
          waiter := ⟨self.waiter.waiting ++ [(waitFor self.store certificate, certificate)]⟩ }
  | waiterComplete {index : Nat} {keys : List Digest} {certificate : Certificate} :
      self.waiterSending = none → self.waiter.waiting[index]? = some (keys, certificate) →
      waiterReady self.store keys = true →
      Moves self (.waiterComplete index)
        { self with
          waiter := ⟨self.waiter.waiting.eraseIdx index⟩
          waiterSending := some certificate }
  | waiterSend {certificate : Certificate} :
      self.waiterSending = some certificate → self.toCore.length < capacity →
      Moves self .waiterResume
        { self with toCore := self.toCore ++ [certificate], waiterSending := none }

variable {sync content capacity} {self next : DeliveryTasks}

theorem moves_of_resume (hresume : self.resume sync capacity = some next) :
    Moves sync content capacity self .coreResume next := by
  unfold resume at hresume
  split at hresume
  · cases hresume
  · cases hresume
    exact .deliver ‹_›
  · rename_i hcore
    split_ifs at hresume with hgenesis hread <;> cases hresume
    · exact .available hcore (.inl hgenesis)
    · exact .missing hcore (by simpa using hgenesis) (by simpa using hread)
    · exact .available hcore (.inr (Option.ne_none_iff_isSome.mp (by simpa using hread)))
  · split_ifs at hresume with hroom
    cases hresume
    exact .coreSend ‹_› hroom

theorem moves_of_step {event : TaskEvent}
    (hstep : self.step sync content capacity event = some next) :
    Moves sync content capacity self event next := by
  cases event with
  | write key =>
      obtain ⟨value, hkey, rfl⟩ := Option.map_eq_some'.mp hstep
      exact .write hkey
  | submit certificate =>
      simp only [step] at hstep
      split at hstep
      · cases hstep
        exact .submit certificate ‹_›
      · cases hstep
  | loopBack =>
      simp only [step] at hstep
      split at hstep
      · cases hstep
        exact .loopBack ‹_› ‹_›
      · cases hstep
  | coreResume => exact moves_of_resume hstep
  | waiterReceive =>
      simp only [step] at hstep
      split at hstep
      · simp only [CertificateWaiter.step, Option.map_some', List.append_nil,
          Option.some.injEq] at hstep
        cases hstep
        exact .waiterReceive ‹_› ‹_›
      · cases hstep
  | waiterComplete index =>
      simp only [step] at hstep
      split at hstep
      · obtain ⟨⟨sent, waiter⟩, hwaiter, rfl⟩ := Option.map_eq_some'.mp hstep
        obtain ⟨keys, certificate, hpending, hready, rfl, rfl⟩ :=
          CertificateWaiter.step_complete_eq_some_iff.mp hwaiter
        exact .waiterComplete ‹_› hpending hready
      · cases hstep
  | waiterResume =>
      simp only [step] at hstep
      split at hstep
      · split_ifs at hstep with hroom
        cases hstep
        exact .waiterSend ‹_› hroom
      · cases hstep

theorem step_of_moves {event : TaskEvent} (h : Moves sync content capacity self event next) :
    self.step sync content capacity event = some next := by
  cases h with
  | write hkey => simp [step, hkey]
  | submit certificate hcore => simp [step, hcore]
  | loopBack hcore htoCore => simp [step, hcore, htoCore]
  | deliver hcore => simp [step, resume, hcore]
  | available hcore havailable =>
      rename_i cert _ _
      by_cases hgenesis : sync.isGenesis cert
      · simp [step, resume, hcore, hgenesis]
      · have hread : (self.store.read cert).isSome := by simpa [hgenesis] using havailable
        simp [step, resume, hcore, hgenesis, Option.isSome_iff_ne_none.mp hread]
  | missing hcore hgenesis hread => simp [step, resume, hcore, hgenesis, hread]
  | coreSend hcore hroom => simp [step, resume, hcore, hroom]
  | waiterReceive hsending htoWaiter =>
      simp [step, hsending, htoWaiter, CertificateWaiter.step]
  | waiterComplete hsending hindex hready =>
      simp only [step, hsending]
      exact Option.map_eq_some'.mpr ⟨_, CertificateWaiter.step_complete_eq_some_iff.mpr
        ⟨_, _, hindex, hready, rfl, rfl⟩, rfl⟩
  | waiterSend hsending hroom => simp [step, hsending, hroom]

theorem run_cons_of_moves {event : TaskEvent} {rest : List TaskEvent}
    (h : Moves sync content capacity self event next) :
    self.run sync content capacity (event :: rest) = next.run sync content capacity rest := by
  rw [run_cons, step_of_moves h, Option.some_bind]

/-!
## The atomic pipeline this one refines
-/

/-- The pipeline as `Delivery` sees it: the certificate the core is sending is already on
`tx_certificate_waiter`, the one the core checks after taking it from `tx_core` is still
at its head, and the one the waiter is sending is already at its tail. -/
def abstract (self : DeliveryTasks) : Delivery :=
  ⟨self.store, self.toWaiter ++ self.core.sent, self.waiter,
    self.core.looped ++ self.toCore ++ self.waiterSending.toList, self.delivered⟩

@[simp] theorem abstract_init (store : Store) : (init store).abstract = Delivery.init store :=
  rfl

/-- What holds of every state a run reaches. -/
structure Consistent (sync : Synchronizer) (content : Digest → Option HeaderType)
    (state : DeliveryTasks) : Prop where
  contentAddressed : ContentAddressed content state.store
  checked : state.core.Checked sync state.store

/-- When no parent is left to read, the certificate is ready. -/
theorem certificateReady_of_checked {certificate : Certificate} {looped : Bool}
    (hcore : self.core = .checking certificate [] looped)
    (h : self.core.Checked sync self.store) :
    sync.CertificateReady self.store certificate := by
  rw [hcore] at h
  obtain ⟨headerMsg, done, hread, hparents, hdone⟩ := h
  exact ⟨headerMsg, hread, by simpa [hparents] using hdone⟩

/-- When a parent is neither genesis nor stored, the certificate is not ready. -/
theorem not_certificateReady_of_checked {certificate : Certificate} {cert : Digest}
    {rest : List Digest} {looped : Bool}
    (hcore : self.core = .checking certificate (cert :: rest) looped)
    (h : self.core.Checked sync self.store) (hgenesis : sync.isGenesis cert = false)
    (hread : self.store.read cert = none) :
    ¬ sync.CertificateReady self.store certificate := by
  rw [hcore] at h
  obtain ⟨headerMsg, done, hheader, hparents, -⟩ := h
  rintro ⟨stored, hstored, hready⟩
  obtain rfl : stored = headerMsg := Option.some.inj (hstored.symm.trans hheader)
  simpa [hgenesis, hread] using hready cert (by simp [hparents])

theorem Consistent.moves {event : TaskEvent} (h : Consistent sync content self)
    (hmoves : Moves sync content capacity self event next) : Consistent sync content next := by
  cases hmoves with
  | write hkey =>
      exact ⟨h.contentAddressed.write hkey, h.checked.mono (storeLe_write h.contentAddressed hkey)⟩
  | submit certificate _ | loopBack _ _ =>
      refine ⟨h.contentAddressed, ?_⟩
      simp only [receive]
      split
      · exact ⟨_, [], ‹_›, rfl, by simp⟩
      · trivial
  | available hcore havailable =>
      have hchecked := h.checked
      rw [hcore] at hchecked
      exact ⟨h.contentAddressed, hchecked.cons havailable⟩
  | deliver _ | missing _ _ _ | coreSend _ _ => exact ⟨h.contentAddressed, trivial⟩
  | waiterReceive _ _ | waiterComplete _ _ _ | waiterSend _ _ =>
      exact ⟨h.contentAddressed, h.checked⟩

/-- Where `deliver_certificate` takes effect: the core's certificate is submitted, or taken
from the head of `tx_core`. -/
theorem run_abstract_finish {certificate : Certificate} {parents : List Digest}
    {looped : Bool} (hcore : self.core = .checking certificate parents looped) :
    self.abstract.run sync content [cond looped .loopBack (.submit certificate)] =
      some ({ self.abstract with toCore := self.toCore ++ self.waiterSending.toList }.deliver
        sync certificate) := by
  rw [Delivery.run_singleton]
  cases looped with
  | false =>
      show some (self.abstract.deliver sync certificate) = _
      congr 2
      simp [abstract, hcore]
  | true => exact Delivery.step_of_moves (.loopBack (by simp [abstract, hcore]))

/-- The certificate the core starts checking is submitted once its check ends. -/
theorem Consistent.abstract_moves {event : TaskEvent} (h : Consistent sync content self)
    (hmoves : Moves sync content capacity self event next) :
    ∃ events, self.abstract.run sync content events = some next.abstract ∧
      events.flatMap DeliveryEvent.submitted ++ next.core.received =
        self.core.received ++ event.submitted := by
  cases hmoves with
  | write hkey =>
      rename_i key value
      refine ⟨[.write key], ?_, by simp [TaskEvent.submitted, DeliveryEvent.submitted]⟩
      rw [Delivery.run_singleton,
        Delivery.step_of_moves (@Delivery.Moves.write sync content self.abstract key value hkey)]
      rfl
  | submit certificate hcore =>
      cases hread : self.store.read certificate.headerId with
      | none =>
          refine ⟨[.submit certificate], ?_, by simp [receive, hread, hcore,
            TaskEvent.submitted, DeliveryEvent.submitted]⟩
          rw [Delivery.run_singleton,
            Delivery.step_of_moves (@Delivery.Moves.submit sync content self.abstract certificate),
            Delivery.deliver_of_not_ready]
          · simp [abstract, receive, hread, hcore]
          · exact fun ⟨_, hstored, _⟩ => by simp [abstract, hread] at hstored
      | some headerMsg =>
          exact ⟨[], by simp [abstract, receive, hread, hcore],
            by simp [receive, hread, hcore, TaskEvent.submitted]⟩
  | loopBack hcore htoCore =>
      rename_i certificate rest
      cases hread : self.store.read certificate.headerId with
      | none =>
          refine ⟨[.loopBack], ?_, by simp [receive, hread, hcore,
            TaskEvent.submitted, DeliveryEvent.submitted]⟩
          rw [Delivery.run_singleton, Delivery.step_of_moves
            (@Delivery.Moves.loopBack sync content self.abstract certificate
              (rest ++ self.waiterSending.toList)
              (by simp [abstract, hcore, htoCore])),
            Delivery.deliver_of_not_ready]
          · simp [abstract, receive, hread, hcore]
          · exact fun ⟨_, hstored, _⟩ => by simp [abstract, hread] at hstored
      | some headerMsg =>
          exact ⟨[], by simp [abstract, receive, hread, hcore, htoCore],
            by simp [receive, hread, hcore, TaskEvent.submitted]⟩
  | deliver hcore =>
      rename_i certificate looped
      refine ⟨[cond looped .loopBack (.submit certificate)], ?_, by cases looped <;>
        simp [hcore, TaskEvent.submitted, DeliveryEvent.submitted]⟩
      rw [run_abstract_finish hcore, Delivery.deliver_of_ready]
      · simp [abstract, hcore]
      · exact certificateReady_of_checked hcore h.checked
  | available hcore _ =>
      exact ⟨[], by simp [abstract, hcore],
        by simp [hcore, TaskEvent.submitted]⟩
  | missing hcore hgenesis hread =>
      rename_i certificate _ _ looped
      refine ⟨[cond looped .loopBack (.submit certificate)], ?_, by cases looped <;>
        simp [hcore, TaskEvent.submitted, DeliveryEvent.submitted]⟩
      rw [run_abstract_finish hcore, Delivery.deliver_of_not_ready]
      · simp [abstract, hcore]
      · exact not_certificateReady_of_checked hcore h.checked hgenesis hread
  | coreSend hcore _ =>
      exact ⟨[], by simp [abstract, hcore],
        by simp [hcore, TaskEvent.submitted]⟩
  | waiterReceive hsending htoWaiter =>
      rename_i certificate rest
      refine ⟨[.waiterReceive], ?_, by simp [TaskEvent.submitted, DeliveryEvent.submitted]⟩
      rw [Delivery.run_singleton, Delivery.step_of_moves
        (@Delivery.Moves.waiterReceive sync content self.abstract certificate
          (rest ++ self.core.sent) (by simp [abstract, htoWaiter]))]
      simp [abstract, hsending]
  | waiterComplete hsending hindex hready =>
      rename_i index _ _
      refine ⟨[.waiterComplete index], ?_, by simp [TaskEvent.submitted, DeliveryEvent.submitted]⟩
      rw [Delivery.run_singleton, Delivery.step_of_moves
        (@Delivery.Moves.waiterComplete sync content self.abstract _ _ _ hindex hready)]
      simp [abstract, hsending]
  | waiterSend hsending _ =>
      exact ⟨[], by simp [abstract, hsending], by simp [TaskEvent.submitted]⟩

theorem Consistent.run (h : Consistent sync content self) {more : List TaskEvent}
    (hrun : self.run sync content capacity more = some next) :
    Consistent sync content next ∧
      ∃ events, self.abstract.run sync content events = some next.abstract ∧
        events.flatMap DeliveryEvent.submitted ++ next.core.received =
          self.core.received ++ more.flatMap TaskEvent.submitted := by
  induction more generalizing self with
  | nil =>
      cases hrun
      exact ⟨h, [], rfl, by simp⟩
  | cons event more ih =>
      obtain ⟨mid, hmid, hrest⟩ := Option.bind_eq_some.mp hrun
      have hmoves := moves_of_step hmid
      obtain ⟨first, hfirst, hfirstSubmitted⟩ := h.abstract_moves hmoves
      obtain ⟨hnext, events, hevents, heventsSubmitted⟩ := ih (h.moves hmoves) hrest
      refine ⟨hnext, first ++ events, by rw [Delivery.run_append, hfirst, Option.some_bind,
        hevents], ?_⟩
      rw [List.flatMap_append, List.append_assoc, heventsSubmitted, ← List.append_assoc,
        hfirstSubmitted, List.flatMap_cons, List.append_assoc]

theorem deliveryTasks_refines_delivery {store : Store} (hstore : ContentAddressed content store)
    {events : List TaskEvent} (hrun : (init store).run sync content capacity events = some next) :
    ∃ abstractEvents, (Delivery.init store).run sync content abstractEvents = some next.abstract ∧
      abstractEvents.flatMap DeliveryEvent.submitted ++ next.core.received =
        events.flatMap TaskEvent.submitted := by
  have hinit : Consistent sync content (init store) := ⟨hstore, trivial⟩
  exact (hinit.run hrun).2

theorem deliveryTasks_refines_deliverySpec {store : Store}
    (hstore : ContentAddressed content store) {events : List TaskEvent}
    (hrun : (init store).run sync content capacity events = some next) :
    ∃ specEvents spec, (DeliverySpec.init store).run sync content specEvents = some spec ∧
      spec.store = next.store ∧ spec.delivered = next.delivered ∧
      spec.pending.Perm next.abstract.pending ∧
      specEvents.flatMap SpecEvent.submitted ++ next.core.received =
        events.flatMap TaskEvent.submitted := by
  have hinit : Consistent sync content (init store) := ⟨hstore, trivial⟩
  obtain ⟨-, abstractEvents, habstract, hsubmitted⟩ := hinit.run hrun
  have hspecInit : Delivery.Abstracts (DeliverySpec.init store) (init store).abstract :=
    ⟨rfl, rfl, by simp [Delivery.pending, abstract, init, DeliverySpec.init]⟩
  obtain ⟨specEvents, spec, hspec, habs, hsub⟩ := hspecInit.run habstract
  refine ⟨specEvents, spec, hspec, habs.store, habs.delivered, habs.pending, ?_⟩
  rw [hsub, hsubmitted]
  simp [init]

/-!
## A write between two reads
-/

section Interleaved

open CertificateWaiter (parkedCertificate parkedHeaderId parkedHeader parkedGenesisHeader
  storeWithoutHeader)
open Delivery (noGenesisSynchronizer storeWithGenesis)

/-- The store gains the header's parent between the core's read of the header and its
read of the parent. -/
def interleavedRun : List TaskEvent :=
  [.write parkedHeaderId, .submit parkedCertificate, .write default, .coreResume, .coreResume]

def interleavedTasks : DeliveryTasks :=
  ⟨(storeWithoutHeader.write parkedHeaderId (.header parkedHeader)).write default
    (.header parkedGenesisHeader), [], ⟨[]⟩, [], [parkedCertificate], .idle, none⟩

theorem interleavedRun_refines_delivery :
    ContentAddressed storeWithGenesis.read storeWithoutHeader ∧
    (init storeWithoutHeader).run noGenesisSynchronizer storeWithGenesis.read 1000
      interleavedRun = some interleavedTasks ∧
    ∃ abstractEvents, (Delivery.init storeWithoutHeader).run noGenesisSynchronizer
        storeWithGenesis.read abstractEvents = some interleavedTasks.abstract ∧
      abstractEvents.flatMap DeliveryEvent.submitted ++ interleavedTasks.core.received =
        interleavedRun.flatMap TaskEvent.submitted := by
  have hstore : ContentAddressed storeWithGenesis.read storeWithoutHeader :=
    fun _ _ h => Option.noConfusion h
  have hrun : (init storeWithoutHeader).run noGenesisSynchronizer storeWithGenesis.read 1000
      interleavedRun = some interleavedTasks := rfl
  exact ⟨hstore, hrun, deliveryTasks_refines_delivery hstore hrun⟩

theorem interleavedRun_refines_deliverySpec :
    ContentAddressed storeWithGenesis.read storeWithoutHeader ∧
    (init storeWithoutHeader).run noGenesisSynchronizer storeWithGenesis.read 1000
      interleavedRun = some interleavedTasks ∧
    ∃ specEvents spec, (DeliverySpec.init storeWithoutHeader).run noGenesisSynchronizer
        storeWithGenesis.read specEvents = some spec ∧
      spec.store = interleavedTasks.store ∧ spec.delivered = interleavedTasks.delivered ∧
      spec.pending.Perm interleavedTasks.abstract.pending ∧
      specEvents.flatMap SpecEvent.submitted ++ interleavedTasks.core.received =
        interleavedRun.flatMap TaskEvent.submitted := by
  have hstore : ContentAddressed storeWithGenesis.read storeWithoutHeader :=
    fun _ _ h => Option.noConfusion h
  have hrun : (init storeWithoutHeader).run noGenesisSynchronizer storeWithGenesis.read 1000
      interleavedRun = some interleavedTasks := rfl
  exact ⟨hstore, hrun, deliveryTasks_refines_deliverySpec hstore hrun⟩

end Interleaved

end DeliveryTasks

end Sailfish
