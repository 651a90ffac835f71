import Sailfish.Delivery

/-!
# The pipeline refines delivery when ready

What the pipeline is for, stated without channels or a waiter: certificates wait in a
pool, and one is delivered only at a moment when its header is stored and each of its
parents is a genesis digest or stored.

The pipeline refines this specification.  Every run of the pipeline is matched by a run of
the specification with the same submissions, ending in the same store, with the same
certificates delivered in the same order and, up to order, the same certificates
waiting.  A write is a write of the specification; a certificate `deliver_certificate`
reports ready is delivered by the specification there and then; every other step of the
pipeline only moves a certificate between the channels and the waiter, and is no step of
the specification.
-/

namespace Sailfish

namespace Synchronizer

theorem certificateReady_iff (self : Synchronizer) (store : Store) (certificate : Certificate) :
    self.CertificateReady store certificate ↔
      (store.read certificate.headerId).any
        (fun headerMsg => headerMsg.parents.all (self.available store)) = true := by
  unfold CertificateReady
  cases store.read certificate.headerId <;> simp [available]

instance (self : Synchronizer) (store : Store) (certificate : Certificate) :
    Decidable (self.CertificateReady store certificate) :=
  decidable_of_iff _ (self.certificateReady_iff store certificate).symm

end Synchronizer

/-- The specification's state: the store, the certificates waiting, and those delivered. -/
structure DeliverySpec where
  store : Store
  pending : List Certificate
  delivered : List Certificate

inductive SpecEvent where
  | write (key : Digest)
  | submit (certificate : Certificate)
  | deliver (index : Nat)

def SpecEvent.submitted : SpecEvent → List Certificate
  | .submit certificate => [certificate]
  | _ => []

namespace DeliverySpec

variable (sync : Synchronizer) (content : Digest → Option HeaderType)

def init (store : Store) : DeliverySpec := ⟨store, [], []⟩

/-- The `index`-th waiting certificate is delivered only if it is ready. -/
def step (self : DeliverySpec) : SpecEvent → Option DeliverySpec
  | .write key =>
      (content key).map fun value => { self with store := self.store.write key value }
  | .submit certificate => some { self with pending := self.pending ++ [certificate] }
  | .deliver index =>
      match self.pending[index]? with
      | some certificate =>
          if sync.CertificateReady self.store certificate then
            some { self with
              pending := self.pending.eraseIdx index
              delivered := self.delivered ++ [certificate] }
          else none
      | none => none

def run (self : DeliverySpec) : List SpecEvent → Option DeliverySpec
  | [] => some self
  | event :: rest => (self.step sync content event).bind fun next => next.run rest

theorem run_append (self : DeliverySpec) (events more : List SpecEvent) :
    self.run sync content (events ++ more) =
      (self.run sync content events).bind fun next => next.run sync content more := by
  induction events generalizing self with
  | nil => rfl
  | cons event events ih => rw [List.cons_append, run, run, Option.bind_assoc]; simp only [ih]

variable {sync content}

/-- A ready certificate among those waiting can be delivered, whatever its place. -/
theorem exists_step_deliver {self : DeliverySpec} {certificate : Certificate}
    {rest : List Certificate} (hperm : self.pending.Perm (certificate :: rest))
    (hready : sync.CertificateReady self.store certificate) :
    ∃ index next, self.step sync content (.deliver index) = some next ∧
      next.store = self.store ∧ next.delivered = self.delivered ++ [certificate] ∧
      next.pending.Perm rest := by
  obtain ⟨index, hindex⟩ :=
    List.mem_iff_getElem?.mp (hperm.mem_iff.mpr (List.mem_cons_self _ _))
  refine ⟨index, { self with
    pending := self.pending.eraseIdx index
    delivered := self.delivered ++ [certificate] },
    by simp only [step, hindex, if_pos hready], rfl, rfl, ?_⟩
  exact ((CertificateWaiter.perm_cons_eraseIdx hindex).symm.trans hperm).cons_inv

end DeliverySpec

namespace Delivery

/-- The certificates waiting for delivery, on a channel or parked in the waiter. -/
def pending (self : Delivery) : List Certificate :=
  self.toWaiter ++ self.waiter.waiting.map Prod.snd ++ self.toCore

/-- The specification's state `spec` stands for the pipeline's state `state`. -/
structure Abstracts (spec : DeliverySpec) (state : Delivery) : Prop where
  store : spec.store = state.store
  delivered : spec.delivered = state.delivered
  pending : spec.pending.Perm state.pending

variable {sync : Synchronizer} {content : Digest → Option HeaderType}
  {spec : DeliverySpec} {self next : Delivery}

theorem pending_moves {event : DeliveryEvent} (hmoves : Moves sync content self event next)
    (hdelivered : next.delivered = self.delivered) :
    next.pending.Perm (self.pending ++ event.submitted) := by
  have hperm := inFlight_moves hmoves
  simp only [inFlight, Delivery.pending, hdelivered, List.append_assoc] at hperm ⊢
  exact (List.perm_append_left_iff _).mp hperm

theorem Abstracts.deliver {state : Delivery} {certificate : Certificate}
    (hstore : spec.store = state.store) (hdelivered : spec.delivered = state.delivered)
    (hpending : spec.pending.Perm (certificate :: state.pending))
    (hready : sync.CertificateReady state.store certificate) :
    ∃ index spec', spec.step sync content (.deliver index) = some spec' ∧
      Abstracts spec' { state with delivered := state.delivered ++ [certificate] } := by
  obtain ⟨index, spec', hstep, hstore', hdelivered', hpending'⟩ :=
    DeliverySpec.exists_step_deliver hpending (hstore ▸ hready)
  exact ⟨index, spec', hstep, hstore'.trans hstore, by rw [hdelivered', hdelivered], hpending'⟩

theorem Abstracts.step (h : Abstracts spec self) {event : DeliveryEvent}
    (hstep : self.step sync content event = some next) :
    ∃ specEvents spec', spec.run sync content specEvents = some spec' ∧
      Abstracts spec' next ∧ specEvents.flatMap SpecEvent.submitted = event.submitted := by
  have hmoves := moves_of_step hstep
  have hwaiting := pending_moves hmoves
  cases hmoves with
  | @write key value hkey =>
      refine ⟨[.write key], { spec with store := spec.store.write key value }, ?_,
        ⟨by simp [h.store], h.delivered, h.pending⟩, rfl⟩
      simp [DeliverySpec.run, DeliverySpec.step, hkey]
  | submit certificate =>
      let submitted := { spec with pending := spec.pending ++ [certificate] }
      have hsubmit : spec.step sync content (.submit certificate) = some submitted := rfl
      by_cases hready : sync.CertificateReady self.store certificate
      · obtain ⟨index, spec', hdeliver, habs⟩ := @Abstracts.deliver sync content submitted self
          certificate h.store h.delivered
          ((List.perm_append_singleton _ _).trans (h.pending.cons _)) hready
        refine ⟨[.submit certificate, .deliver index], spec', ?_, ?_, rfl⟩
        · simp only [DeliverySpec.run, hsubmit, hdeliver, Option.some_bind]
        · rwa [deliver_of_ready hready]
      · have hdelivered := congrArg Delivery.delivered (deliver_of_not_ready hready)
        exact ⟨[.submit certificate], submitted, rfl,
          ⟨h.store, h.delivered.trans hdelivered.symm,
            (h.pending.append_right _).trans (hwaiting hdelivered).symm⟩, rfl⟩
  | @loopBack certificate rest hcore =>
      let waiting := { self with toCore := rest }
      by_cases hready : sync.CertificateReady self.store certificate
      · have hself : self.pending.Perm (certificate :: waiting.pending) := by
          simp only [Delivery.pending, waiting, hcore]
          exact List.perm_middle
        obtain ⟨index, spec', hdeliver, habs⟩ := @Abstracts.deliver sync content spec waiting
          certificate h.store h.delivered (h.pending.trans hself) hready
        refine ⟨[.deliver index], spec', ?_, ?_, rfl⟩
        · simp only [DeliverySpec.run, hdeliver, Option.some_bind]
        · rwa [@deliver_of_ready sync waiting certificate hready]
      · have hdelivered := congrArg Delivery.delivered
          (@deliver_of_not_ready sync waiting certificate hready)
        exact ⟨[], spec, rfl, ⟨h.store, h.delivered.trans hdelivered.symm,
          h.pending.trans (by simpa [DeliveryEvent.submitted] using (hwaiting hdelivered).symm)⟩,
          rfl⟩
  | waiterReceive _ | waiterComplete _ _ =>
      exact ⟨[], spec, rfl, ⟨h.store, h.delivered,
        h.pending.trans (by simpa [DeliveryEvent.submitted] using (hwaiting rfl).symm)⟩, rfl⟩

theorem Abstracts.run (h : Abstracts spec self) {events : List DeliveryEvent}
    (hrun : self.run sync content events = some next) :
    ∃ specEvents spec', spec.run sync content specEvents = some spec' ∧
      Abstracts spec' next ∧
      specEvents.flatMap SpecEvent.submitted = events.flatMap DeliveryEvent.submitted := by
  induction events generalizing spec self with
  | nil =>
      cases hrun
      exact ⟨[], spec, rfl, h, rfl⟩
  | cons event events ih =>
      obtain ⟨mid, hmid, hrest⟩ := Option.bind_eq_some.mp hrun
      obtain ⟨specEvents, specMid, hspec, hmidAbs, hsub⟩ := h.step hmid
      obtain ⟨specMore, spec', hspec', hnext, hsub'⟩ := ih hmidAbs hrest
      refine ⟨specEvents ++ specMore, spec', ?_, hnext, ?_⟩
      · rw [DeliverySpec.run_append, hspec, Option.some_bind, hspec']
      · rw [List.flatMap_append, hsub, hsub', List.flatMap_cons]

theorem delivery_refines_deliverySpec {store : Store} {events : List DeliveryEvent}
    (hrun : (init store).run sync content events = some next) :
    ∃ specEvents spec, (DeliverySpec.init store).run sync content specEvents = some spec ∧
      spec.store = next.store ∧ spec.delivered = next.delivered ∧
      spec.pending.Perm next.pending ∧
      specEvents.flatMap SpecEvent.submitted = events.flatMap DeliveryEvent.submitted := by
  have hinit : Abstracts (DeliverySpec.init store) (init store) := ⟨rfl, rfl, by simp [pending,
    init, DeliverySpec.init]⟩
  obtain ⟨specEvents, spec, hspec, habs, hsub⟩ := hinit.run hrun
  exact ⟨specEvents, spec, hspec, habs.store, habs.delivered, habs.pending, hsub⟩

/-- The certificate of the round-1 header, submitted before its header and the genesis
header are written, parked on the genesis digest and delivered when it comes back. -/
def deliveredRun : List DeliveryEvent :=
  [.submit CertificateWaiter.parkedCertificate, .write CertificateWaiter.parkedHeaderId,
    .write default, .waiterReceive, .waiterComplete 0, .loopBack]

def deliveredDelivery : Delivery :=
  ⟨(CertificateWaiter.storeWithoutHeader.write CertificateWaiter.parkedHeaderId
      (.header CertificateWaiter.parkedHeader)).write default
      (.header CertificateWaiter.parkedGenesisHeader), [], ⟨[]⟩, [],
    [CertificateWaiter.parkedCertificate]⟩

theorem deliveredRun_refines :
    (init CertificateWaiter.storeWithoutHeader).run CertificateWaiter.parkedSynchronizer
        storeWithGenesis.read deliveredRun = some deliveredDelivery ∧
    ∃ specEvents spec, (DeliverySpec.init CertificateWaiter.storeWithoutHeader).run
        CertificateWaiter.parkedSynchronizer storeWithGenesis.read specEvents = some spec ∧
      spec.store = deliveredDelivery.store ∧ spec.delivered = deliveredDelivery.delivered ∧
      spec.pending.Perm deliveredDelivery.pending ∧
      specEvents.flatMap SpecEvent.submitted = deliveredRun.flatMap DeliveryEvent.submitted := by
  have hrun : (init CertificateWaiter.storeWithoutHeader).run
      CertificateWaiter.parkedSynchronizer storeWithGenesis.read deliveredRun =
        some deliveredDelivery := rfl
  exact ⟨hrun, delivery_refines_deliverySpec hrun⟩

end Delivery

end Sailfish
