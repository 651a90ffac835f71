import Sailfish.Delivery

/-!
# How often a certificate reaches the waiter

A certificate that `deliver_certificate` reports not ready goes to the waiter.  If its
header is stored when the waiter receives it, the waiter parks it on the parents of the
header, and once they are all stored the certificate comes back ready.  If the header is
missing, the waiter parks it on the header id and sends it back once the header is
stored; the certificate may then go to the waiter a second time, but never a third.

The argument is a potential: each certificate in the pipeline counts for the number of
times it may still reach the waiter.  A new certificate raises the potential by at most
two, each receive of the waiter lowers it by one, and no other step raises it.
-/

namespace Sailfish

def DeliveryEvent.isWaiterReceive : DeliveryEvent → Bool
  | .waiterReceive => true
  | _ => false

namespace Delivery

open CertificateWaiter (StoreLe waitFor waiterReady)

/-- A certificate on its way to the waiter reaches it once more if its header is stored,
and at most twice if not. -/
def toWaiterPasses (store : Store) (certificate : Certificate) : Nat :=
  if (store.read certificate.headerId).isSome then 1 else 2

/-- A certificate parked on the parents of its stored header comes back ready; one
parked on anything else may reach the waiter once more. -/
def waitingPasses (store : Store) (entry : List Digest × Certificate) : Nat :=
  match store.read entry.2.headerId with
  | some headerMsg => if entry.1 = headerMsg.parents then 0 else 1
  | none => 1

/-- A certificate on its way to the core reaches the waiter once more exactly when
`deliver_certificate` would send it there. -/
def toCorePasses (sync : Synchronizer) (store : Store) (certificate : Certificate) : Nat :=
  (sync.deliverCertificate store certificate).2.length

/-- How many more times the certificates in the pipeline may reach the waiter. -/
def passes (sync : Synchronizer) (self : Delivery) : Nat :=
  (self.toWaiter.map (toWaiterPasses self.store)).sum +
    (self.waiter.waiting.map (waitingPasses self.store)).sum +
    (self.toCore.map (toCorePasses sync self.store)).sum

/-!
## Each contribution
-/

section Contributions

variable {sync : Synchronizer} {S S' : Store}

theorem toWaiterPasses_le_two (store : Store) (certificate : Certificate) :
    toWaiterPasses store certificate ≤ 2 := by
  unfold toWaiterPasses
  split_ifs <;> omega

theorem waitingPasses_le_one (store : Store) (entry : List Digest × Certificate) :
    waitingPasses store entry ≤ 1 := by
  unfold waitingPasses
  split
  · split_ifs <;> omega
  · exact le_rfl

theorem toCorePasses_le_one (sync : Synchronizer) (store : Store) (certificate : Certificate) :
    toCorePasses sync store certificate ≤ 1 := by
  by_cases h : sync.CertificateReady store certificate
  · simp [toCorePasses, Synchronizer.deliverCertificate_of_ready h]
  · simp [toCorePasses, Synchronizer.deliverCertificate_of_not_ready h]

theorem toCorePasses_of_ready {certificate : Certificate}
    (h : sync.CertificateReady S certificate) : toCorePasses sync S certificate = 0 := by
  simp [toCorePasses, Synchronizer.deliverCertificate_of_ready h]

theorem toCorePasses_of_not_ready {certificate : Certificate}
    (h : ¬ sync.CertificateReady S certificate) : toCorePasses sync S certificate = 1 := by
  simp [toCorePasses, Synchronizer.deliverCertificate_of_not_ready h]

theorem waitingPasses_waitFor_add_one (store : Store) (certificate : Certificate) :
    waitingPasses store (waitFor store certificate, certificate) + 1 =
      toWaiterPasses store certificate := by
  unfold waitingPasses toWaiterPasses waitFor
  cases store.read certificate.headerId <;> simp

theorem toCorePasses_le_waitingPasses {keys : List Digest} {certificate : Certificate}
    (hkeys : waiterReady S keys = true) :
    toCorePasses sync S certificate ≤ waitingPasses S (keys, certificate) := by
  unfold waitingPasses
  cases hread : S.read certificate.headerId with
  | none => exact toCorePasses_le_one sync S certificate
  | some headerMsg =>
      dsimp only
      split_ifs with hparents
      · subst hparents
        simp only [waiterReady, List.all_eq_true] at hkeys
        exact (toCorePasses_of_ready ⟨headerMsg, hread, fun p hp => .inr (hkeys p hp)⟩).le
      · exact toCorePasses_le_one sync S certificate

theorem toWaiterPasses_mono (hle : StoreLe S S') (certificate : Certificate) :
    toWaiterPasses S' certificate ≤ toWaiterPasses S certificate := by
  unfold toWaiterPasses
  by_cases h : (S.read certificate.headerId).isSome
  · simp [h, isSome_read_of_storeLe hle h]
  · rw [if_neg h]
    split_ifs <;> omega

theorem waitingPasses_mono (hle : StoreLe S S') (entry : List Digest × Certificate) :
    waitingPasses S' entry ≤ waitingPasses S entry := by
  cases hread : S.read entry.2.headerId with
  | none => simpa [waitingPasses, hread] using waitingPasses_le_one S' entry
  | some headerMsg => simp [waitingPasses, hread, hle _ _ hread]

theorem toCorePasses_mono (hle : StoreLe S S') (certificate : Certificate) :
    toCorePasses sync S' certificate ≤ toCorePasses sync S certificate := by
  by_cases h : sync.CertificateReady S certificate
  · simp [toCorePasses_of_ready (h.mono hle)]
  · simpa [toCorePasses_of_not_ready h] using toCorePasses_le_one sync S' certificate

end Contributions

/-!
## Each step
-/

variable {sync : Synchronizer} {content : Digest → Option HeaderType} {self next : Delivery}
  {events : List DeliveryEvent}

theorem passes_deliver_of_ready {certificate : Certificate}
    (h : sync.CertificateReady self.store certificate) :
    passes sync (self.deliver sync certificate) = passes sync self := by
  rw [deliver_of_ready h]
  rfl

theorem passes_deliver_of_not_ready {certificate : Certificate}
    (h : ¬ sync.CertificateReady self.store certificate) :
    passes sync (self.deliver sync certificate) =
      passes sync self + toWaiterPasses self.store certificate := by
  rw [deliver_of_not_ready h]
  simp only [passes, List.map_append, List.sum_append, List.map_singleton, List.sum_singleton]
  omega

theorem passes_step (h : Accounts sync content self events) {event : DeliveryEvent}
    (hstep : self.step sync content event = some next) :
    passes sync next + (if event.isWaiterReceive then 1 else 0) ≤
      passes sync self + 2 * event.submitted.length := by
  simp only [DeliveryEvent.isWaiterReceive, DeliveryEvent.submitted]
  cases moves_of_step hstep with
  | write hkey =>
      have hle := storeLe_write h.contentAddressed hkey
      have hwaiter := List.sum_le_sum fun c (_ : c ∈ self.toWaiter) => toWaiterPasses_mono hle c
      have hpool := List.sum_le_sum fun e (_ : e ∈ self.waiter.waiting) =>
        waitingPasses_mono hle e
      have hcore := List.sum_le_sum fun c (_ : c ∈ self.toCore) =>
        @toCorePasses_mono sync _ _ hle c
      simp only [passes, Bool.false_eq_true, if_false, List.length_nil]
      omega
  | submit certificate =>
      simp only [List.length_singleton, Bool.false_eq_true, if_false]
      by_cases hready : sync.CertificateReady self.store certificate
      · rw [passes_deliver_of_ready hready]
        omega
      · rw [passes_deliver_of_not_ready hready]
        have := toWaiterPasses_le_two self.store certificate
        omega
  | @loopBack certificate rest hcore =>
      have hself : passes sync self = passes sync { self with toCore := rest } +
          toCorePasses sync self.store certificate := by
        simp only [passes, hcore, List.map_cons, List.sum_cons]
        omega
      simp only [Bool.false_eq_true, if_false, List.length_nil]
      by_cases hready : sync.CertificateReady self.store certificate
      · rw [@passes_deliver_of_ready sync { self with toCore := rest } certificate hready]
        omega
      · have hstored := h.toCore_stored certificate (by simp [hcore])
        rw [@passes_deliver_of_not_ready sync { self with toCore := rest } certificate hready,
          hself, toCorePasses_of_not_ready hready]
        simp [toWaiterPasses, hstored]
  | @waiterReceive certificate rest hwaiter =>
      have hspend := waitingPasses_waitFor_add_one self.store certificate
      simp only [passes, hwaiter, List.map_cons, List.sum_cons, List.map_append,
        List.sum_append, List.map_singleton, List.sum_singleton, List.map_nil, List.sum_nil,
        if_true, List.length_nil]
      omega
  | @waiterComplete index keys certificate hindex hready =>
      have hpool := ((CertificateWaiter.perm_cons_eraseIdx hindex).map
        (waitingPasses self.store)).sum_eq
      have hcore := @toCorePasses_le_waitingPasses sync self.store keys certificate hready
      simp only [passes, List.map_cons, List.sum_cons, List.map_append, List.sum_append,
        List.map_singleton, List.sum_singleton, List.map_nil, List.sum_nil,
        Bool.false_eq_true, if_false, List.length_nil] at hpool ⊢
      omega

/-- Receives so far and passes still possible stay within two per certificate
submitted. -/
def PassesBounded (sync : Synchronizer) (self : Delivery) (events : List DeliveryEvent) :
    Prop :=
  events.countP DeliveryEvent.isWaiterReceive + passes sync self ≤
    2 * (events.flatMap DeliveryEvent.submitted).length

theorem PassesBounded.step (h : Accounts sync content self events)
    (hb : PassesBounded sync self events) {event : DeliveryEvent}
    (hstep : self.step sync content event = some next) :
    PassesBounded sync next (events ++ [event]) := by
  have hpasses := passes_step h hstep
  unfold PassesBounded at hb ⊢
  rw [List.countP_append, List.countP_singleton, List.flatMap_append, List.flatMap_singleton,
    List.length_append]
  omega

theorem PassesBounded.run (h : Accounts sync content self events)
    (hb : PassesBounded sync self events) {more : List DeliveryEvent}
    (hrun : self.run sync content more = some next) :
    PassesBounded sync next (events ++ more) := by
  induction more generalizing self events with
  | nil =>
      cases hrun
      simpa using hb
  | cons event more ih =>
      obtain ⟨mid, hmid, hrest⟩ := Option.bind_eq_some.mp hrun
      simpa using ih (h.step hmid) (hb.step h hmid) hrest

end Delivery

end Sailfish
