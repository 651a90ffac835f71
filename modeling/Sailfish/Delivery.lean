import Sailfish.CertificateWaiter

/-!
# Certificate delivery

The core hands each certificate to `Synchronizer::deliver_certificate`.  A certificate
reported ready is delivered; one that is not is sent to the `CertificateWaiter`, which
parks it until the keys it waits for are stored, then sends it back to the core, which
hands it to `deliver_certificate` again.  The synchronizer and the waiter run
concurrently, joined by two channels, while the store grows under them.

This module models the pipeline as a state machine whose steps interleave freely: a write
to the store, a new certificate, the core receiving a certificate the waiter sent back,
the waiter receiving a certificate the synchronizer sent, and the waiter completing one
of its pending futures.  Here `deliver_certificate` is one atomic step and the channels
never fill.  The store and the core are modelled from the spec; the store is
content-addressed, so it only grows.  `Delivery/Tasks` models the two tasks as the code
runs them, with `deliver_certificate` reading the store one key at a time and channels of
bounded capacity, and matches each of their runs with a run of this machine.

Along every run, each submitted certificate is in exactly one place, and every delivered
certificate is ready.  A certificate parked on a key with no content stays parked
through every run.
-/
namespace Sailfish

open CertificateWaiter (StoreLe waitFor waiterReady parkedAuthor parkedSynchronizer
  parkedCertificate parkedHeaderId parkedHeader parkedGenesisHeader storeWithoutHeader
  storeWithHeader)

/-- Modelled from the spec: `Store::write`. -/
def Store.write (store : Store) (key : Digest) (value : HeaderType) : Store :=
  ⟨fun k => if k = key then some value else store.read k⟩

/-- Every value `store` holds is the content of its key. -/
def ContentAddressed (content : Digest → Option HeaderType) (store : Store) : Prop :=
  ∀ key value, store.read key = some value → content key = some value

section Write

variable {content : Digest → Option HeaderType} {store : Store} {key : Digest}
  {value : HeaderType}

theorem ContentAddressed.write (h : ContentAddressed content store)
    (hkey : content key = some value) : ContentAddressed content (store.write key value) := by
  intro k v hk
  by_cases hkk : k = key
  · subst hkk
    simp only [Store.write, if_pos rfl, Option.some.injEq] at hk
    exact hk ▸ hkey
  · simp only [Store.write, if_neg hkk] at hk
    exact h k v hk

/-- Writing a key's content only adds to a content-addressed store. -/
theorem storeLe_write (h : ContentAddressed content store) (hkey : content key = some value) :
    StoreLe store (store.write key value) := by
  intro k v hk
  by_cases hkk : k = key
  · subst hkk
    simp only [Store.write, if_true]
    rw [← Option.some.inj (hkey.symm.trans (h k v hk))]
  · simpa only [Store.write, if_neg hkk] using hk

theorem ContentAddressed.read_eq_none (h : ContentAddressed content store)
    (hkey : content key = none) : store.read key = none :=
  Option.eq_none_iff_forall_not_mem.mpr fun v hv => by simp [h key v hv] at hkey

end Write

section StoreLe

variable {S S' : Store}

theorem isSome_read_of_storeLe (hle : StoreLe S S') {key : Digest}
    (h : (S.read key).isSome) : (S'.read key).isSome := by
  obtain ⟨v, hv⟩ := Option.isSome_iff_exists.mp h
  simp [hle _ _ hv]

theorem waitFor_of_storeLe (hle : StoreLe S S') (certificate : Certificate) :
    waitFor S certificate = [certificate.headerId] ∨
      waitFor S certificate = waitFor S' certificate := by
  unfold waitFor
  cases hread : S.read certificate.headerId with
  | none => exact .inl rfl
  | some headerMsg => simp [hle _ _ hread]

end StoreLe

namespace Synchronizer

/-- What `deliver_certificate` checks: the header is stored, and each of its parents is
a genesis digest or stored. -/
def CertificateReady (self : Synchronizer) (store : Store) (certificate : Certificate) :
    Prop :=
  ∃ headerMsg, store.read certificate.headerId = some headerMsg ∧
    ∀ p ∈ headerMsg.parents, self.isGenesis p = true ∨ (store.read p).isSome

variable {self : Synchronizer} {store : Store} {certificate : Certificate}

theorem CertificateReady.mono {store' : Store} (h : self.CertificateReady store certificate)
    (hle : StoreLe store store') : self.CertificateReady store' certificate := by
  obtain ⟨headerMsg, hread, hparents⟩ := h
  exact ⟨headerMsg, hle _ _ hread, fun p hp =>
    (hparents p hp).imp id (isSome_read_of_storeLe hle)⟩

theorem deliverCertificate_of_ready (h : self.CertificateReady store certificate) :
    self.deliverCertificate store certificate = (.ok true, []) := by
  have hfst := (self.deliverCertificate_fst_eq_ok_true_iff store certificate).mpr h
  rw [deliverCertificate_eq] at hfst ⊢
  split_ifs at hfst ⊢
  · rfl
  · simp at hfst

theorem deliverCertificate_of_not_ready (h : ¬ self.CertificateReady store certificate) :
    self.deliverCertificate store certificate = (.ok false, [certificate]) := by
  have hfst := mt (self.deliverCertificate_fst_eq_ok_true_iff store certificate).mp h
  rw [deliverCertificate_eq] at hfst ⊢
  split_ifs at hfst ⊢
  · simp at hfst
  · rfl

theorem getParents_deliverCertificate_agree (self : Synchronizer) (store : Store)
    (certificate : Certificate) {headerMsg : HeaderType}
    (hread : store.read certificate.headerId = some headerMsg) :
    (self.getParents store headerMsg).2 = [] ↔
      (self.deliverCertificate store certificate).1 = .ok true := by
  rw [getParents_eq, deliverCertificate_eq, hread]
  by_cases hall : headerMsg.parents.all (self.available store) <;> simp [hall]

theorem parkedHeader_getParents_deliverCertificate_agree :
    storeWithHeader.read parkedCertificate.headerId = some (.header parkedHeader) ∧
    ((parkedSynchronizer.getParents storeWithHeader (.header parkedHeader)).2 = [] ↔
      (parkedSynchronizer.deliverCertificate storeWithHeader parkedCertificate).1 =
        .ok true) := by
  have hread : storeWithHeader.read parkedCertificate.headerId = some (.header parkedHeader) :=
    rfl
  exact ⟨hread, getParents_deliverCertificate_agree parkedSynchronizer storeWithHeader
    parkedCertificate hread⟩

end Synchronizer

/-- The pipeline: the store; the certificates `deliver_certificate` sent and the waiter
has not received (`tx_certificate_waiter`); the waiter's pool; the certificates the
waiter sent and the core has not received (`tx_core`); and the certificates
`deliver_certificate` reported ready. -/
structure Delivery where
  store : Store
  toWaiter : List Certificate
  waiter : CertificateWaiter
  toCore : List Certificate
  delivered : List Certificate

/-- The steps of the pipeline, in any interleaving. -/
inductive DeliveryEvent where
  /-- The store receives the content of `key`. -/
  | write (key : Digest)
  /-- A new certificate reaches the core. -/
  | submit (certificate : Certificate)
  /-- The core receives the oldest certificate the waiter sent. -/
  | loopBack
  /-- The waiter receives the oldest certificate the synchronizer sent. -/
  | waiterReceive
  /-- The waiter's `index`-th pending future completes. -/
  | waiterComplete (index : Nat)

namespace DeliveryEvent

def submitted : DeliveryEvent → List Certificate
  | .submit certificate => [certificate]
  | _ => []

end DeliveryEvent

namespace Delivery

/-- The pipeline before any certificate. -/
def init (store : Store) : Delivery := ⟨store, [], ⟨[]⟩, [], []⟩

/-- Every certificate in the pipeline, wherever it is. -/
def inFlight (self : Delivery) : List Certificate :=
  self.delivered ++ self.toWaiter ++ self.waiter.waiting.map Prod.snd ++ self.toCore

variable (sync : Synchronizer) (content : Digest → Option HeaderType)

/-- The core hands `certificate` to `deliver_certificate`; what it sends goes on the
channel to the waiter. -/
def deliver (self : Delivery) (certificate : Certificate) : Delivery :=
  let call := sync.deliverCertificate self.store certificate
  { self with
    toWaiter := self.toWaiter ++ call.2
    delivered := match call.1 with
      | .ok true => self.delivered ++ [certificate]
      | _ => self.delivered }

/-- One step of the pipeline.  A step that is not enabled (a key with no content, a
receive on an empty channel, a future that has not resolved) is `none`. -/
def step (self : Delivery) : DeliveryEvent → Option Delivery
  | .write key =>
      (content key).map fun value => { self with store := self.store.write key value }
  | .submit certificate => some (self.deliver sync certificate)
  | .loopBack =>
      match self.toCore with
      | [] => none
      | certificate :: rest => some ({ self with toCore := rest }.deliver sync certificate)
  | .waiterReceive =>
      match self.toWaiter with
      | [] => none
      | certificate :: rest =>
          (self.waiter.step (self.store, .receive certificate)).map fun (sent, waiter) =>
            { self with toWaiter := rest, waiter := waiter, toCore := self.toCore ++ sent }
  | .waiterComplete index =>
      (self.waiter.step (self.store, .complete index)).map fun (sent, waiter) =>
        { self with waiter := waiter, toCore := self.toCore ++ sent }

/-- The steps `events` one after the other; `none` once one is not enabled. -/
def run (self : Delivery) : List DeliveryEvent → Option Delivery
  | [] => some self
  | event :: rest => (self.step sync content event).bind fun next => next.run rest

@[simp] theorem run_nil (self : Delivery) : self.run sync content [] = some self := rfl

@[simp] theorem run_singleton (self : Delivery) (event : DeliveryEvent) :
    self.run sync content [event] = self.step sync content event := by
  simp [run]

theorem run_append (self : Delivery) (events more : List DeliveryEvent) :
    self.run sync content (events ++ more) =
      (self.run sync content events).bind fun next => next.run sync content more := by
  induction events generalizing self with
  | nil => rfl
  | cons event events ih => rw [List.cons_append, run, run, Option.bind_assoc]; simp only [ih]

/-!
## What `deliver_certificate` moves

A ready certificate is delivered, any other goes on the channel to the waiter; the rest
of the pipeline is untouched.
-/

section Deliver

variable {sync} {self : Delivery} {certificate : Certificate}

@[simp] theorem store_deliver : (self.deliver sync certificate).store = self.store := rfl

@[simp] theorem waiter_deliver : (self.deliver sync certificate).waiter = self.waiter := rfl

@[simp] theorem toCore_deliver : (self.deliver sync certificate).toCore = self.toCore := rfl

theorem deliver_of_ready (h : sync.CertificateReady self.store certificate) :
    self.deliver sync certificate =
      { self with delivered := self.delivered ++ [certificate] } := by
  simp [deliver, Synchronizer.deliverCertificate_of_ready h]

theorem deliver_of_not_ready (h : ¬ sync.CertificateReady self.store certificate) :
    self.deliver sync certificate =
      { self with toWaiter := self.toWaiter ++ [certificate] } := by
  simp [deliver, Synchronizer.deliverCertificate_of_not_ready h]

theorem inFlight_deliver :
    (self.deliver sync certificate).inFlight.Perm (self.inFlight ++ [certificate]) := by
  classical
  refine List.perm_iff_count.mpr fun c => ?_
  by_cases h : sync.CertificateReady self.store certificate
  · simp [deliver_of_ready h, inFlight, List.count_append, List.count_cons]
    omega
  · simp [deliver_of_not_ready h, inFlight, List.count_append, List.count_cons]
    omega

theorem delivered_deliver_ready
    (hready : ∀ c ∈ self.delivered, sync.CertificateReady self.store c) :
    ∀ c ∈ (self.deliver sync certificate).delivered, sync.CertificateReady self.store c := by
  by_cases h : sync.CertificateReady self.store certificate
  · simp only [deliver_of_ready h, List.mem_append, List.mem_singleton]
    rintro c (hc | rfl)
    exacts [hready c hc, h]
  · simpa [deliver_of_not_ready h] using hready

end Deliver

/-!
## What one step does

Each event moves certificates in one way; `moves_of_step` reads it off `step` once, and
every invariant below is proved case by case on it.
-/

/-- One step of the pipeline, event by event. -/
inductive Moves (self : Delivery) : DeliveryEvent → Delivery → Prop
  | write {key : Digest} {value : HeaderType} :
      content key = some value →
      Moves self (.write key) { self with store := self.store.write key value }
  | submit (certificate : Certificate) :
      Moves self (.submit certificate) (self.deliver sync certificate)
  | loopBack {certificate : Certificate} {rest : List Certificate} :
      self.toCore = certificate :: rest →
      Moves self .loopBack ({ self with toCore := rest }.deliver sync certificate)
  | waiterReceive {certificate : Certificate} {rest : List Certificate} :
      self.toWaiter = certificate :: rest →
      Moves self .waiterReceive
        { self with
          toWaiter := rest
          waiter := ⟨self.waiter.waiting ++ [(waitFor self.store certificate, certificate)]⟩ }
  | waiterComplete {index : Nat} {keys : List Digest} {certificate : Certificate} :
      self.waiter.waiting[index]? = some (keys, certificate) →
      waiterReady self.store keys = true →
      Moves self (.waiterComplete index)
        { self with
          waiter := ⟨self.waiter.waiting.eraseIdx index⟩
          toCore := self.toCore ++ [certificate] }

/-!
## The invariant of every run
-/

/-- What holds of the pipeline after the steps `events`. -/
structure Accounts (state : Delivery) (events : List DeliveryEvent) : Prop where
  /-- Each submitted certificate is in exactly one place: delivered, on one of the two
  channels, or parked in the waiter. -/
  perm : state.inFlight.Perm (events.flatMap DeliveryEvent.submitted)
  contentAddressed : ContentAddressed content state.store
  delivered_ready : ∀ c ∈ state.delivered, sync.CertificateReady state.store c
  /-- The waiter sends a certificate back only once its header is stored. -/
  toCore_stored : ∀ c ∈ state.toCore, (state.store.read c.headerId).isSome
  /-- A parked certificate waits for its header id, or for the parents of its header. -/
  waiting_keys : ∀ entry ∈ state.waiter.waiting,
    entry.1 = [entry.2.headerId] ∨ entry.1 = waitFor state.store entry.2

variable {sync content} {self next : Delivery} {events : List DeliveryEvent}

theorem moves_of_step {event : DeliveryEvent} (hstep : self.step sync content event = some next) :
    Moves sync content self event next := by
  cases event with
  | write key =>
      obtain ⟨value, hkey, rfl⟩ := Option.map_eq_some'.mp hstep
      exact .write hkey
  | submit certificate =>
      cases hstep
      exact .submit certificate
  | loopBack =>
      cases hcore : self.toCore with
      | nil => simp [Delivery.step, hcore] at hstep
      | cons certificate rest =>
          simp only [Delivery.step, hcore, Option.some.injEq] at hstep
          exact hstep ▸ .loopBack hcore
  | waiterReceive =>
      cases hwaiter : self.toWaiter with
      | nil => simp [Delivery.step, hwaiter] at hstep
      | cons certificate rest =>
          simp only [Delivery.step, hwaiter, CertificateWaiter.step, Option.map_some',
            List.append_nil, Option.some.injEq] at hstep
          exact hstep ▸ .waiterReceive hwaiter
  | waiterComplete index =>
      obtain ⟨⟨sent, waiter⟩, hwaiter, rfl⟩ := Option.map_eq_some'.mp hstep
      obtain ⟨keys, certificate, hpending, hready, rfl, rfl⟩ :=
        CertificateWaiter.step_complete_eq_some_iff.mp hwaiter
      exact .waiterComplete hpending hready

theorem step_of_moves {event : DeliveryEvent} (h : Moves sync content self event next) :
    self.step sync content event = some next := by
  cases h with
  | write hkey => simp [Delivery.step, hkey]
  | submit certificate => rfl
  | loopBack hcore => simp [Delivery.step, hcore]
  | waiterReceive hwaiter => simp [Delivery.step, hwaiter, CertificateWaiter.step]
  | waiterComplete hpending hready =>
      simp only [Delivery.step, Option.map_eq_some']
      exact ⟨_, CertificateWaiter.step_complete_eq_some_iff.mpr
        ⟨_, _, hpending, hready, rfl, rfl⟩, rfl⟩

theorem accounts_init {store : Store} (h : ContentAddressed content store) :
    Accounts sync content (init store) [] :=
  ⟨by simp [inFlight, init], h, by simp [init], by simp [init], by simp [init]⟩

/-- A parked certificate whose keys are all stored has its header stored. -/
theorem isSome_read_of_waiting_keys {store : Store} {keys : List Digest} {c : Certificate}
    (hkeys : keys = [c.headerId] ∨ keys = waitFor store c)
    (hready : waiterReady store keys = true) : (store.read c.headerId).isSome := by
  simp only [waiterReady, List.all_eq_true] at hready
  rcases hkeys with rfl | rfl
  · exact hready _ (List.mem_singleton_self _)
  · unfold waitFor at hready
    cases hread : store.read c.headerId with
    | none => simp [hread] at hready
    | some _ => rfl

/-- No step loses or duplicates a certificate: it adds only the one it submits. -/
theorem inFlight_moves {event : DeliveryEvent} (h : Moves sync content self event next) :
    next.inFlight.Perm (self.inFlight ++ event.submitted) := by
  classical
  cases h with
  | write _ => simp [inFlight, DeliveryEvent.submitted]
  | submit certificate => exact inFlight_deliver
  | loopBack hcore =>
      refine inFlight_deliver.trans (List.perm_iff_count.mpr fun c => ?_)
      simp [inFlight, hcore, DeliveryEvent.submitted, List.count_append, List.count_cons]
  | waiterReceive hwaiter =>
      refine List.perm_iff_count.mpr fun c => ?_
      simp [inFlight, hwaiter, DeliveryEvent.submitted, List.count_append, List.count_cons]
      omega
  | waiterComplete hindex _ =>
      refine List.perm_iff_count.mpr fun c => ?_
      have hpool := ((CertificateWaiter.perm_cons_eraseIdx hindex).map Prod.snd).count_eq c
      simp [inFlight, DeliveryEvent.submitted, List.count_append, List.count_cons] at hpool ⊢
      omega

theorem Accounts.step (h : Accounts sync content self events) {event : DeliveryEvent}
    (hstep : self.step sync content event = some next) :
    Accounts sync content next (events ++ [event]) := by
  have hmoves := moves_of_step hstep
  have hperm : next.inFlight.Perm ((events ++ [event]).flatMap DeliveryEvent.submitted) := by
    rw [List.flatMap_append, List.flatMap_singleton]
    exact (inFlight_moves hmoves).trans (h.perm.append_right _)
  cases hmoves with
  | write hkey =>
      have hle := storeLe_write h.contentAddressed hkey
      refine ⟨hperm, h.contentAddressed.write hkey, fun c hc => (h.delivered_ready c hc).mono hle,
        fun c hc => isSome_read_of_storeLe hle (h.toCore_stored c hc), fun entry hentry => ?_⟩
      rcases h.waiting_keys entry hentry with hkeys | hkeys
      · exact .inl hkeys
      · rw [hkeys]
        exact waitFor_of_storeLe hle entry.2
  | submit certificate =>
      exact ⟨hperm, h.contentAddressed, delivered_deliver_ready h.delivered_ready,
        h.toCore_stored, h.waiting_keys⟩
  | loopBack hcore =>
      exact ⟨hperm, h.contentAddressed, delivered_deliver_ready h.delivered_ready,
        fun c hc => h.toCore_stored c (hcore ▸ List.mem_cons_of_mem _ hc), h.waiting_keys⟩
  | waiterReceive hwaiter =>
      refine ⟨hperm, h.contentAddressed, h.delivered_ready, h.toCore_stored,
        fun entry hentry => ?_⟩
      simp only [List.mem_append, List.mem_singleton] at hentry
      rcases hentry with hentry | rfl
      exacts [h.waiting_keys entry hentry, .inr rfl]
  | waiterComplete hindex hready =>
      have hentry := h.waiting_keys _ (List.getElem?_mem hindex)
      refine ⟨hperm, h.contentAddressed, h.delivered_ready, fun c hc => ?_,
        fun entry he => h.waiting_keys entry (List.mem_of_mem_eraseIdx he)⟩
      simp only [List.mem_append, List.mem_singleton] at hc
      rcases hc with hc | rfl
      exacts [h.toCore_stored c hc, isSome_read_of_waiting_keys hentry hready]

theorem Accounts.run (h : Accounts sync content self events) {more : List DeliveryEvent}
    (hrun : self.run sync content more = some next) :
    Accounts sync content next (events ++ more) := by
  induction more generalizing self events with
  | nil =>
      cases hrun
      simpa using h
  | cons event more ih =>
      obtain ⟨mid, hmid, hrest⟩ := Option.bind_eq_some.mp hrun
      simpa using ih (h.step hmid) hrest

theorem delivery_run_accounts {store : Store} (hstore : ContentAddressed content store)
    (hrun : (init store).run sync content events = some next) :
    Accounts sync content next events := by
  simpa using (accounts_init hstore).run hrun

/-!
## The certificate parked on a genesis digest, in the pipeline

The run behind `certificateWaiter_parks_on_genesis_parent`: the certificate of the
round-1 header reaches the core before its header, the header is written, and the waiter
receives the certificate and parks it on the genesis digest.
-/

def parkedRun : List DeliveryEvent :=
  [.submit parkedCertificate, .write parkedHeaderId, .waiterReceive]

def parkedDelivery : Delivery :=
  ⟨storeWithoutHeader.write parkedHeaderId (.header parkedHeader), [],
    ⟨[([default], parkedCertificate)]⟩, [], []⟩

/-- A synchronizer that knows no genesis header, so that it reads every parent. -/
def noGenesisSynchronizer : Synchronizer := ⟨parkedAuthor, []⟩

/-- The store of the parked example with the genesis header as well. -/
def storeWithGenesis : Store :=
  ⟨fun key => if key = parkedHeaderId then some (.header parkedHeader)
    else if key = default then some (.header parkedGenesisHeader) else none⟩

theorem parkedRun_accounts :
    ContentAddressed storeWithHeader.read storeWithoutHeader ∧
    (init storeWithoutHeader).run parkedSynchronizer storeWithHeader.read parkedRun =
      some parkedDelivery ∧
    Accounts parkedSynchronizer storeWithHeader.read parkedDelivery parkedRun := by
  have hstore : ContentAddressed storeWithHeader.read storeWithoutHeader :=
    fun _ _ h => Option.noConfusion h
  have hrun : (init storeWithoutHeader).run parkedSynchronizer storeWithHeader.read parkedRun =
      some parkedDelivery := rfl
  exact ⟨hstore, hrun, delivery_run_accounts hstore hrun⟩

/-!
## A certificate parked on a key with no content

A pending future that has not resolved is still pending after any step.  A key with no
content is never stored, so a future waiting for it never resolves.
-/

theorem mem_waiting_step {entry : List Digest × Certificate} {event : DeliveryEvent}
    (hentry : entry ∈ self.waiter.waiting) (hpending : waiterReady self.store entry.1 = false)
    (hstep : self.step sync content event = some next) : entry ∈ next.waiter.waiting := by
  cases moves_of_step hstep with
  | write _ | submit _ | loopBack _ => exact hentry
  | waiterReceive _ => exact List.mem_append_left _ hentry
  | waiterComplete hindex hready =>
      rcases List.mem_cons.mp ((CertificateWaiter.perm_cons_eraseIdx hindex).subset hentry)
        with rfl | he
      · simp [hready] at hpending
      · exact he

theorem Accounts.mem_waiting_run (h : Accounts sync content self events)
    {entry : List Digest × Certificate} (hentry : entry ∈ self.waiter.waiting) {key : Digest}
    (hkey : key ∈ entry.1) (hnone : content key = none) {more : List DeliveryEvent}
    (hrun : self.run sync content more = some next) : entry ∈ next.waiter.waiting := by
  induction more generalizing self events with
  | nil =>
      cases hrun
      exact hentry
  | cons event more ih =>
      obtain ⟨mid, hmid, hrest⟩ := Option.bind_eq_some.mp hrun
      have hpending : waiterReady self.store entry.1 = false := by
        simpa [waiterReady] using ⟨key, hkey, h.contentAddressed.read_eq_none hnone⟩
      exact ih (h.step hmid) (mem_waiting_step hentry hpending hmid) hrest

theorem delivery_parked_on_contentless_key {store : Store}
    (hstore : ContentAddressed content store)
    (hrun : (init store).run sync content events = some self)
    {entry : List Digest × Certificate} (hentry : entry ∈ self.waiter.waiting) {key : Digest}
    (hkey : key ∈ entry.1) (hnone : content key = none) {more : List DeliveryEvent}
    (hmore : self.run sync content more = some next) :
    entry ∈ next.waiter.waiting ∧
      (entry.2 :: next.delivered).Subperm ((events ++ more).flatMap DeliveryEvent.submitted) := by
  have h : Accounts sync content self events := by simpa using (accounts_init hstore).run hrun
  have hparked := h.mem_waiting_run hentry hkey hnone hmore
  refine ⟨hparked, List.Subperm.trans ?_ (h.run hmore).perm.subperm⟩
  have hsub : (next.delivered ++ [entry.2]).Sublist next.inFlight := by
    simp only [inFlight, List.append_assoc]
    refine (List.singleton_sublist.mpr ?_).append_left _
    simp only [List.mem_append, List.mem_map]
    exact .inr (.inl ⟨entry, hparked, rfl⟩)
  exact ⟨_, List.perm_append_singleton _ _, hsub⟩

/-- After the certificate is parked, it is submitted again, now delivered since its
header is stored, and the header is written once more. -/
def parkedContinuation : List DeliveryEvent :=
  [.submit parkedCertificate, .write parkedHeaderId]

def parkedLater : Delivery :=
  { parkedDelivery with
    store := parkedDelivery.store.write parkedHeaderId (.header parkedHeader)
    delivered := [parkedCertificate] }

theorem parkedDelivery_stays_parked :
    ContentAddressed storeWithHeader.read storeWithoutHeader ∧
    (init storeWithoutHeader).run parkedSynchronizer storeWithHeader.read parkedRun =
      some parkedDelivery ∧
    ([default], parkedCertificate) ∈ parkedDelivery.waiter.waiting ∧
    default ∈ [(default : Digest)] ∧ storeWithHeader.read default = none ∧
    parkedDelivery.run parkedSynchronizer storeWithHeader.read parkedContinuation =
      some parkedLater ∧
    ([default], parkedCertificate) ∈ parkedLater.waiter.waiting ∧
      (parkedCertificate :: parkedLater.delivered).Subperm
        ((parkedRun ++ parkedContinuation).flatMap DeliveryEvent.submitted) := by
  have hstore : ContentAddressed storeWithHeader.read storeWithoutHeader :=
    fun _ _ h => Option.noConfusion h
  have hrun : (init storeWithoutHeader).run parkedSynchronizer storeWithHeader.read parkedRun =
      some parkedDelivery := rfl
  have hentry : ([default], parkedCertificate) ∈ parkedDelivery.waiter.waiting :=
    List.mem_singleton_self _
  have hnone : storeWithHeader.read default = none := rfl
  have hmore : parkedDelivery.run parkedSynchronizer storeWithHeader.read parkedContinuation =
      some parkedLater := rfl
  exact ⟨hstore, hrun, hentry, List.mem_singleton_self _, hnone, hmore,
    delivery_parked_on_contentless_key hstore hrun hentry (List.mem_singleton_self _) hnone
      hmore⟩

end Delivery

end Sailfish
