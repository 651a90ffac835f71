import Sailfish.Delivery.Tasks

/-!
# Delivery within capacity

The core and the waiter block each other only when the tasks hold more certificates than
a channel can take.  While they hold at most `capacity`, every send finds room, and the
two tasks do what the atomic pipeline of `Delivery` does.  From a state where both are at
rest, each step of the core or the waiter there is matched by a run of the two tasks that
ends at rest again, in the state that step reaches.

In the atomic pipeline, a certificate whose header and parents are all stored can be
delivered by steps of the core and the waiter alone.  Through the match it can be
delivered in the code's pipeline too, from every reachable state in which the tasks hold
at most `capacity` certificates.
-/

namespace Sailfish

open CertificateWaiter (waitFor waiterReady)

/-- The steps of the core and the waiter: no write and no new certificate. -/
def DeliveryEvent.isInternal : DeliveryEvent → Bool
  | .loopBack | .waiterReceive | .waiterComplete _ => true
  | .write _ | .submit _ => false

/-- The steps of the core and the waiter: no write and no new certificate. -/
def TaskEvent.isInternal : TaskEvent → Bool
  | .write _ | .submit _ => false
  | _ => true

theorem isInternal_of_mem_replicate {α : Type} {isInternal : α → Bool} {event e : α} {n : Nat}
    (he : e ∈ List.replicate n event) (hevent : isInternal event = true) :
    isInternal e = true :=
  (List.eq_of_mem_replicate he) ▸ hevent

namespace Delivery

variable {sync : Synchronizer} {content : Digest → Option HeaderType} {self next : Delivery}

/-!
## In the atomic pipeline
-/

theorem delivered_deliver_subset {certificate : Certificate} :
    self.delivered ⊆ (self.deliver sync certificate).delivered := by
  by_cases h : sync.CertificateReady self.store certificate
  · simp [deliver_of_ready h]
  · simp [deliver_of_not_ready h]

variable (sync content) in
/-- The waiter receives everything on its channel, in order, against the same store. -/
theorem run_waiterReceive (self : Delivery) :
    self.run sync content (List.replicate self.toWaiter.length .waiterReceive) =
      some { self with
        toWaiter := []
        waiter :=
          ⟨self.waiter.waiting ++ self.toWaiter.map fun c => (waitFor self.store c, c)⟩ } := by
  obtain ⟨store, toWaiter, ⟨waiting⟩, toCore, delivered⟩ := self
  induction toWaiter generalizing waiting with
  | nil => simp
  | cons c rest ih =>
      simp only [List.length_cons, List.replicate_succ, Delivery.run, Delivery.step,
        CertificateWaiter.step, Option.map_some', Option.some_bind, List.append_nil]
      rw [ih]
      simp

variable (sync content) in
/-- The core receives everything on its channel; each ready certificate among them is
delivered, and nothing delivered is lost. -/
theorem exists_run_loopBack (self : Delivery) :
    ∃ next, self.run sync content (List.replicate self.toCore.length .loopBack) = some next ∧
      ∀ c, c ∈ self.delivered ∨ c ∈ self.toCore ∧ sync.CertificateReady self.store c →
        c ∈ next.delivered := by
  obtain ⟨store, toWaiter, waiter, toCore, delivered⟩ := self
  induction toCore generalizing toWaiter delivered with
  | nil => exact ⟨_, rfl, by simp⟩
  | cons certificate rest ih =>
      let mid := (Delivery.mk store toWaiter waiter rest delivered).deliver sync certificate
      obtain ⟨next, hrun, hnext⟩ := ih mid.toWaiter mid.delivered
      refine ⟨next, hrun, fun c hc => hnext c ?_⟩
      simp only [List.mem_cons] at hc
      rcases hc with hc | ⟨rfl | hc, hready⟩
      · exact .inl (delivered_deliver_subset hc)
      · have hmid : mid = ⟨store, toWaiter, waiter, rest, delivered ++ [c]⟩ :=
          @deliver_of_ready sync ⟨store, toWaiter, waiter, rest, delivered⟩ c hready
        exact .inl (by simp [hmid])
      · exact .inr ⟨hc, hready⟩

/-- A parked certificate whose future has resolved is delivered by that completion and
the core's receives, if it is ready. -/
theorem exists_internal_run_of_waiting {keys : List Digest} {certificate : Certificate}
    (hentry : (keys, certificate) ∈ self.waiter.waiting)
    (hkeys : waiterReady self.store keys = true)
    (hready : sync.CertificateReady self.store certificate) :
    ∃ more next, self.run sync content more = some next ∧
      (∀ e ∈ more, e.isInternal = true) ∧ certificate ∈ next.delivered := by
  obtain ⟨index, hindex⟩ := List.mem_iff_getElem?.mp hentry
  let mid : Delivery :=
    { self with
      waiter := ⟨self.waiter.waiting.eraseIdx index⟩
      toCore := self.toCore ++ [certificate] }
  have hmid : self.step sync content (.waiterComplete index) = some mid :=
    step_of_moves (.waiterComplete hindex hkeys)
  obtain ⟨next, hrun, hnext⟩ := exists_run_loopBack sync content mid
  exact ⟨.waiterComplete index :: List.replicate mid.toCore.length .loopBack, next,
    by simp only [Delivery.run, hmid, Option.some_bind, hrun],
    List.forall_mem_cons.mpr ⟨rfl, fun e he => isInternal_of_mem_replicate he rfl⟩,
    hnext certificate (.inr ⟨by simp [mid], hready⟩)⟩

/-- A certificate on its way to the waiter whose header and parents are all stored is
delivered by the waiter's receives, one completion and the core's receives. -/
theorem exists_internal_run_of_toWaiter {certificate : Certificate} {headerMsg : HeaderType}
    (hc : certificate ∈ self.toWaiter)
    (hheader : self.store.read certificate.headerId = some headerMsg)
    (hparents : ∀ p ∈ headerMsg.parents, (self.store.read p).isSome) :
    ∃ more next, self.run sync content more = some next ∧
      (∀ e ∈ more, e.isInternal = true) ∧ certificate ∈ next.delivered := by
  have hwait : waitFor self.store certificate = headerMsg.parents := by simp [waitFor, hheader]
  have hentry : (headerMsg.parents, certificate) ∈
      self.waiter.waiting ++ self.toWaiter.map fun c => (waitFor self.store c, c) := by
    rw [← hwait]
    exact List.mem_append_right _ (List.mem_map_of_mem _ hc)
  obtain ⟨more, next, hrun, hinternal, hnext⟩ :=
    @exists_internal_run_of_waiting sync content
      { self with toWaiter := [], waiter := ⟨_⟩ } _ _ hentry
      (by simpa [waiterReady] using hparents)
      ⟨headerMsg, hheader, fun p hp => .inr (hparents p hp)⟩
  exact ⟨List.replicate self.toWaiter.length .waiterReceive ++ more, next,
    by rw [run_append, run_waiterReceive, Option.some_bind, hrun],
    List.forall_mem_append.mpr ⟨fun _ he => by exact isInternal_of_mem_replicate he rfl, hinternal⟩,
    hnext⟩

/-- In the atomic pipeline, a certificate anywhere in it whose header and parents are
stored can be delivered by steps of the core and the waiter alone. -/
theorem Accounts.exists_internal_run_delivering {events : List DeliveryEvent}
    (h : Accounts sync content self events) {certificate : Certificate}
    (hc : certificate ∈ self.inFlight) {headerMsg : HeaderType}
    (hheader : self.store.read certificate.headerId = some headerMsg)
    (hparents : ∀ p ∈ headerMsg.parents, (self.store.read p).isSome) :
    ∃ more next, self.run sync content more = some next ∧
      (∀ event ∈ more, event.isInternal = true) ∧ certificate ∈ next.delivered := by
  have hready : sync.CertificateReady self.store certificate :=
    ⟨headerMsg, hheader, fun p hp => .inr (hparents p hp)⟩
  simp only [inFlight, List.mem_append] at hc
  rcases hc with ((hc | hc) | hc) | hc
  · exact ⟨[], self, rfl, by simp, hc⟩
  · exact exists_internal_run_of_toWaiter hc hheader hparents
  · obtain ⟨⟨keys, c⟩, hentry, rfl⟩ := List.mem_map.mp hc
    refine exists_internal_run_of_waiting hentry ?_ hready
    simp only [waiterReady, List.all_eq_true]
    rcases h.waiting_keys _ hentry with hkeys | hkeys <;> simp only at hkeys <;> subst hkeys
    · simp [hheader]
    · simpa [waitFor, hheader] using hparents
  · obtain ⟨next, hnext, hdelivered⟩ := exists_run_loopBack sync content self
    exact ⟨_, next, hnext, fun e he => isInternal_of_mem_replicate he rfl,
      hdelivered certificate (.inr ⟨hc, hready⟩)⟩

/-- A step of the core or the waiter does not add to the certificates waiting. -/
theorem length_pending_le_of_moves {event : DeliveryEvent}
    (hmoves : Moves sync content self event next) (hevent : event.isInternal = true) :
    next.pending.length ≤ self.pending.length := by
  have hsubmitted : event.submitted = [] := by
    cases event <;> simp_all [DeliveryEvent.isInternal, DeliveryEvent.submitted]
  have hperm := (inFlight_moves hmoves).length_eq
  have hdelivered : self.delivered.length ≤ next.delivered.length := by
    cases hmoves with
    | loopBack _ =>
        rename_i certificate rest _
        by_cases h : sync.CertificateReady self.store certificate
        · simp [@deliver_of_ready sync { self with toCore := rest } certificate h]
        · simp [@deliver_of_not_ready sync { self with toCore := rest } certificate h]
    | _ => simp_all [DeliveryEvent.isInternal]
  simp only [hsubmitted, List.append_nil, inFlight, pending, List.length_append] at hperm ⊢
  omega

end Delivery

namespace CoreTask

/-- The certificate the core holds, if any. -/
def held : CoreTask → List Certificate
  | .idle => []
  | .checking certificate _ _ => [certificate]
  | .sending certificate => [certificate]

end CoreTask

namespace DeliveryTasks

/-- The certificates the two tasks hold, on their channels, in the waiter's pool or in
the middle of a step. -/
def held (self : DeliveryTasks) : List Certificate :=
  self.core.held ++ self.toWaiter ++ self.waiter.waiting.map Prod.snd ++ self.toCore ++
    self.waiterSending.toList

/-- Both tasks at rest, in the state that `Delivery` state `a` stands for. -/
def atRest (a : Delivery) : DeliveryTasks :=
  ⟨a.store, a.toWaiter, a.waiter, a.toCore, a.delivered, .idle, none⟩

@[simp] theorem abstract_atRest (a : Delivery) : (atRest a).abstract = a := by
  simp [atRest, abstract]

variable {sync : Synchronizer} {content : Digest → Option HeaderType} {capacity : Nat}
  {self next : DeliveryTasks}

/-!
## The core's check, read by read
-/

/-- With room on `tx_certificate_waiter`, the core's resumptions end its check: the
certificate is delivered if it is ready, and sent to the waiter if not. -/
theorem exists_run_checking {certificate : Certificate} {parents : List Digest}
    {looped : Bool} (hcore : self.core = .checking certificate parents looped)
    (hchecked : self.core.Checked sync self.store) (hroom : self.toWaiter.length < capacity) :
    ∃ more, (∀ e ∈ more, e.isInternal = true) ∧
      self.run sync content capacity more =
        some (if sync.CertificateReady self.store certificate then
          { self with delivered := self.delivered ++ [certificate], core := .idle }
        else { self with toWaiter := self.toWaiter ++ [certificate], core := .idle }) := by
  induction parents generalizing self with
  | nil =>
      have hready := certificateReady_of_checked hcore hchecked
      refine ⟨[.coreResume], by decide, ?_⟩
      rw [run_cons_of_moves (.deliver hcore), run_nil, if_pos hready]
  | cons cert rest ih =>
      rw [hcore] at hchecked
      by_cases havailable : sync.isGenesis cert = true ∨ (self.store.read cert).isSome
      · obtain ⟨more, hinternal, hrun⟩ :=
          @ih { self with core := .checking certificate rest looped } rfl
            (hchecked.cons havailable) hroom
        refine ⟨.coreResume :: more, List.forall_mem_cons.mpr ⟨rfl, hinternal⟩, ?_⟩
        rw [run_cons_of_moves (.available hcore havailable), hrun]
      · have hgenesis : sync.isGenesis cert = false := by simpa using (not_or.mp havailable).1
        have hread : self.store.read cert = none := by simpa using (not_or.mp havailable).2
        have hready := not_certificateReady_of_checked hcore (hcore ▸ hchecked) hgenesis hread
        have hsend : Moves sync content capacity { self with core := .sending certificate }
            .coreResume _ := .coreSend rfl hroom
        refine ⟨[.coreResume, .coreResume], by decide, ?_⟩
        rw [run_cons_of_moves (.missing hcore hgenesis hread), run_cons_of_moves hsend, run_nil,
          if_neg hready]

/-!
## Bringing the tasks to rest
-/

/-- With room on `tx_certificate_waiter`, the core finishes with what it holds: the
certificate is delivered or sent to the waiter. -/
theorem exists_run_core_idle (hchecked : self.core.Checked sync self.store)
    (hroom : self.toWaiter.length + self.core.held.length ≤ capacity) :
    ∃ more sent done, (∀ e ∈ more, e.isInternal = true) ∧ (sent ++ done).Perm self.core.held ∧
      self.run sync content capacity more =
        some { self with
          toWaiter := self.toWaiter ++ sent
          delivered := self.delivered ++ done
          core := .idle } := by
  cases hcore : self.core <;> simp only [hcore, CoreTask.held, List.length_singleton] at hroom
  case idle =>
    refine ⟨[], [], [], by simp, by simp [CoreTask.held], ?_⟩
    simp only [List.append_nil, run_nil, ← hcore]
  case checking certificate parents looped =>
    obtain ⟨more, hinternal, hrun⟩ := @exists_run_checking sync content capacity self
      certificate parents looped hcore hchecked (by omega)
    by_cases hready : sync.CertificateReady self.store certificate
    · rw [if_pos hready] at hrun
      exact ⟨more, [], [certificate], hinternal, by simp [CoreTask.held], by simpa using hrun⟩
    · rw [if_neg hready] at hrun
      exact ⟨more, [certificate], [], hinternal, by simp [CoreTask.held], by simpa using hrun⟩
  case sending certificate =>
    refine ⟨[.coreResume], [certificate], [], by decide,
      by simp [CoreTask.held], ?_⟩
    rw [run_cons_of_moves (.coreSend hcore (by omega))]
    simp

/-- With room on `tx_core`, the waiter finishes its pending send. -/
theorem exists_run_waiter_idle
    (hroom : self.toCore.length + self.waiterSending.toList.length ≤ capacity) :
    ∃ more, (∀ e ∈ more, e.isInternal = true) ∧
      self.run sync content capacity more =
        some { self with
          toCore := self.toCore ++ self.waiterSending.toList
          waiterSending := none } := by
  cases hsending : self.waiterSending with
  | none =>
      refine ⟨[], by simp, ?_⟩
      simp only [Option.toList_none, List.append_nil, run_nil]
      rw [← hsending]
  | some certificate =>
      have hlt : self.toCore.length < capacity := by
        simp only [hsending, Option.toList_some, List.length_singleton] at hroom
        omega
      exact ⟨[.waiterResume], by decide,
        run_cons_of_moves (.waiterSend hsending hlt)⟩

/-- While the tasks hold at most `capacity` certificates, the core and the waiter come to
rest by their own steps, with what they held on a channel, in the pool or delivered. -/
theorem exists_run_atRest (h : Consistent sync content self)
    (hcapacity : self.held.length ≤ capacity) :
    ∃ more a, (∀ e ∈ more, e.isInternal = true) ∧
      self.run sync content capacity more = some (atRest a) ∧ a.store = self.store ∧
      a.pending.length ≤ self.held.length ∧ ∀ c ∈ self.held, c ∈ a.inFlight := by
  simp only [held, List.length_append] at hcapacity
  obtain ⟨coreMore, sent, done, hcoreInternal, hperm, hcoreRun⟩ :=
    @exists_run_core_idle sync content capacity self h.checked (by omega)
  obtain ⟨waiterMore, hwaiterInternal, hwaiterRun⟩ :=
    @exists_run_waiter_idle sync content capacity
      { self with
        toWaiter := self.toWaiter ++ sent
        delivered := self.delivered ++ done
        core := .idle } (by simp only; omega)
  have hlength := hperm.length_eq
  refine ⟨coreMore ++ waiterMore, ⟨self.store, self.toWaiter ++ sent, self.waiter,
    self.toCore ++ self.waiterSending.toList, self.delivered ++ done⟩,
    List.forall_mem_append.mpr ⟨hcoreInternal, hwaiterInternal⟩,
    by rw [run_append, hcoreRun, Option.some_bind, hwaiterRun]; rfl, rfl, ?_, fun c hc => ?_⟩
  · simp only [Delivery.pending, held, List.length_append, List.length_map] at hlength ⊢
    omega
  · simp only [held, List.mem_append, ← hperm.mem_iff] at hc
    simp only [Delivery.inFlight, List.mem_append]
    rcases hc with ((((hc | hc) | hc) | hc) | hc) | hc <;> simp only [hc, true_or, or_true]

/-!
## Matching the atomic pipeline from rest
-/

/-- From rest, while the certificates pending fit a channel, a step of the core or the
waiter in the atomic pipeline is matched by a run of the two tasks that ends at rest. -/
theorem exists_run_atRest_of_moves {a b : Delivery} {event : DeliveryEvent}
    (hmoves : Delivery.Moves sync content a event b) (hevent : event.isInternal = true)
    (hcapacity : a.pending.length ≤ capacity) :
    ∃ more, (∀ e ∈ more, e.isInternal = true) ∧
      (atRest a).run sync content capacity more = some (atRest b) := by
  cases hmoves with
  | write _ | submit _ => cases hevent
  | loopBack htoCore =>
      rename_i certificate rest
      have hroom : a.toWaiter.length < capacity := by
        simp only [Delivery.pending, htoCore, List.length_append, List.length_cons] at hcapacity
        omega
      have hloop : Moves sync content capacity (atRest a) .loopBack
          ({ atRest a with toCore := rest }.receive certificate true) := .loopBack rfl htoCore
      cases hread : a.store.read certificate.headerId with
      | none =>
          have hready : ¬ sync.CertificateReady a.store certificate :=
            fun ⟨_, hstored, _⟩ => by simp [hread] at hstored
          have hcore : ({ atRest a with toCore := rest }.receive certificate true).core =
              .sending certificate := by
            simp [receive, atRest, hread]
          refine ⟨[.loopBack, .coreResume], by decide, ?_⟩
          rw [run_cons_of_moves hloop, run_cons_of_moves (.coreSend hcore hroom), run_nil,
            @Delivery.deliver_of_not_ready sync { a with toCore := rest } certificate hready]
          rfl
      | some headerMsg =>
          have hcore : ({ atRest a with toCore := rest }.receive certificate true).core =
              .checking certificate headerMsg.parents true := by
            simp [receive, atRest, hread]
          obtain ⟨more, hinternal, hrun⟩ := @exists_run_checking sync content capacity _ _ _ _ hcore
            (by rw [hcore]; exact ⟨headerMsg, [], hread, rfl, by simp⟩) hroom
          refine ⟨.loopBack :: more, List.forall_mem_cons.mpr ⟨rfl, hinternal⟩, ?_⟩
          rw [run_cons_of_moves hloop, hrun]
          split_ifs with hready
          · rw [@Delivery.deliver_of_ready sync { a with toCore := rest } certificate hready]
            rfl
          · rw [@Delivery.deliver_of_not_ready sync { a with toCore := rest } certificate hready]
            rfl
  | waiterReceive htoWaiter =>
      exact ⟨[.waiterReceive], by decide,
        run_cons_of_moves (.waiterReceive rfl htoWaiter)⟩
  | waiterComplete hindex hready =>
      rename_i index _ certificate
      have hroom : a.toCore.length < capacity := by
        have hpool := List.length_pos_of_mem (List.getElem?_mem hindex)
        simp only [Delivery.pending, List.length_append, List.length_map] at hcapacity
        omega
      have hcomplete : Moves sync content capacity (atRest a) (.waiterComplete index) _ :=
        .waiterComplete rfl hindex hready
      have hsend : Moves sync content capacity
          { atRest a with
            waiter := ⟨a.waiter.waiting.eraseIdx index⟩
            waiterSending := some certificate } .waiterResume _ := .waiterSend rfl hroom
      exact ⟨[.waiterComplete index, .waiterResume],
        List.forall_mem_cons.mpr ⟨rfl, List.forall_mem_singleton.mpr rfl⟩,
        (run_cons_of_moves hcomplete).trans (run_cons_of_moves hsend)⟩

/-- From rest, while the certificates pending fit a channel, a run of the core and the
waiter in the atomic pipeline is matched by a run of the two tasks that ends at rest. -/
theorem exists_run_atRest_of_run {a b : Delivery} {more : List DeliveryEvent}
    (hrun : a.run sync content more = some b) (hinternal : ∀ e ∈ more, e.isInternal = true)
    (hcapacity : a.pending.length ≤ capacity) :
    ∃ tasksMore, (∀ e ∈ tasksMore, e.isInternal = true) ∧
      (atRest a).run sync content capacity tasksMore = some (atRest b) := by
  induction more generalizing a with
  | nil =>
      cases hrun
      exact ⟨[], by simp, rfl⟩
  | cons event more ih =>
      obtain ⟨mid, hmid, hrest⟩ := Option.bind_eq_some.mp hrun
      have hmoves := Delivery.moves_of_step hmid
      have hevent := hinternal event (List.mem_cons_self _ _)
      obtain ⟨first, hfirstInternal, hfirst⟩ :=
        exists_run_atRest_of_moves hmoves hevent hcapacity
      obtain ⟨rest, hrestInternal, hrestRun⟩ :=
        ih hrest (fun e he => hinternal e (List.mem_cons_of_mem _ he))
          ((Delivery.length_pending_le_of_moves hmoves hevent).trans hcapacity)
      exact ⟨first ++ rest, List.forall_mem_append.mpr ⟨hfirstInternal, hrestInternal⟩,
        by rw [run_append, hfirst, Option.some_bind, hrestRun]⟩

/-!
## Delivery within capacity
-/

theorem deliveryTasks_delivers_within_capacity {store : Store}
    (hstore : ContentAddressed content store) {events : List TaskEvent}
    (hrun : (init store).run sync content capacity events = some self)
    (hcapacity : self.held.length ≤ capacity) {certificate : Certificate}
    (hc : certificate ∈ self.held) {headerMsg : HeaderType}
    (hheader : self.store.read certificate.headerId = some headerMsg)
    (hparents : ∀ p ∈ headerMsg.parents, (self.store.read p).isSome) :
    ∃ more next, self.run sync content capacity more = some next ∧
      (∀ e ∈ more, e.isInternal = true) ∧ certificate ∈ next.delivered := by
  have hinit : Consistent sync content (init store) := ⟨hstore, trivial⟩
  obtain ⟨settle, a, hsettleInternal, hsettle, hstoreEq, hpending, hmem⟩ :=
    exists_run_atRest (hinit.run hrun).1 hcapacity
  have hreach : (init store).run sync content capacity (events ++ settle) = some (atRest a) := by
    rw [run_append, hrun, Option.some_bind, hsettle]
  obtain ⟨-, abstractEvents, habstract, -⟩ := hinit.run hreach
  rw [abstract_init, abstract_atRest] at habstract
  rw [← hstoreEq] at hheader hparents
  obtain ⟨more, b, hmore, hinternal, hb⟩ :=
    ((Delivery.accounts_init hstore).run habstract).exists_internal_run_delivering
      (hmem certificate hc) hheader hparents
  obtain ⟨tasksMore, htasksInternal, htasksRun⟩ :=
    exists_run_atRest_of_run hmore hinternal (hpending.trans hcapacity)
  exact ⟨settle ++ tasksMore, atRest b, by rw [run_append, hsettle, Option.some_bind, htasksRun],
    List.forall_mem_append.mpr ⟨hsettleInternal, htasksInternal⟩, hb⟩

section Held

open CertificateWaiter (parkedCertificate parkedHeaderId parkedHeader parkedGenesisHeader
  storeWithoutHeader)
open Delivery (noGenesisSynchronizer storeWithGenesis)

/-- The certificate of the round-1 header reaches the core before its header, and the
header and its parent are written while the core waits to send it to the waiter. -/
def heldRun : List TaskEvent :=
  [.submit parkedCertificate, .write parkedHeaderId, .write default]

def heldTasks : DeliveryTasks :=
  ⟨(storeWithoutHeader.write parkedHeaderId (.header parkedHeader)).write default
    (.header parkedGenesisHeader), [], ⟨[]⟩, [], [], .sending parkedCertificate, none⟩

theorem heldTasks_delivers_parkedCertificate :
    ContentAddressed storeWithGenesis.read storeWithoutHeader ∧
    (init storeWithoutHeader).run noGenesisSynchronizer storeWithGenesis.read 1000 heldRun =
      some heldTasks ∧
    heldTasks.held.length ≤ 1000 ∧ parkedCertificate ∈ heldTasks.held ∧
    heldTasks.store.read parkedCertificate.headerId = some (.header parkedHeader) ∧
    (∀ p ∈ (HeaderType.header parkedHeader).parents, (heldTasks.store.read p).isSome) ∧
    ∃ more next, heldTasks.run noGenesisSynchronizer storeWithGenesis.read 1000 more =
        some next ∧ (∀ e ∈ more, e.isInternal = true) ∧ parkedCertificate ∈ next.delivered := by
  have hstore : ContentAddressed storeWithGenesis.read storeWithoutHeader :=
    fun _ _ h => Option.noConfusion h
  have hrun : (init storeWithoutHeader).run noGenesisSynchronizer storeWithGenesis.read 1000
      heldRun = some heldTasks := rfl
  have hcapacity : heldTasks.held.length ≤ 1000 := by decide
  have hc : parkedCertificate ∈ heldTasks.held := List.mem_singleton_self _
  have hheader : heldTasks.store.read parkedCertificate.headerId =
      some (.header parkedHeader) := rfl
  have hparents : ∀ p ∈ (HeaderType.header parkedHeader).parents,
      (heldTasks.store.read p).isSome := fun p hp => by
    rw [List.mem_singleton.mp hp]
    rfl
  exact ⟨hstore, hrun, hcapacity, hc, hheader, hparents,
    deliveryTasks_delivers_within_capacity hstore hrun hcapacity hc hheader hparents⟩

end Held

end DeliveryTasks

end Sailfish
