import Sailfish.Synchronizer

/-!
# The certificate waiter

`CertificateWaiter::run` receives the certificates `deliver_certificate` could not
deliver, parks each on a future that resolves once some keys are in the store, and
loops each certificate back to the core when its future resolves.  The keys are read
from the store when the certificate arrives: the parents of its header if the header is
stored, or the header id if not.

The loop is modelled as a step function over its pool of pending futures, with the store
of the moment as an input of each step.  The keys are all the parents, genesis digests
included, while `deliver_certificate` never looks genesis digests up in the store.  When
a header arrives between the synchronizer's read and the waiter's read, a certificate
whose header has a genesis parent is parked on a key that nothing stores.
-/

namespace Sailfish

namespace CertificateWaiter

/-- The keys `run` waits on for `certificate`, reading `store`. -/
def waitFor (store : Store) (certificate : Certificate) : List Digest :=
  match store.read certificate.headerId with
  | some headerMsg => headerMsg.parents
  | none => [certificate.headerId]

/-- `waiter`: its future resolves once `notify_read` resolves for every key. -/
def waiterReady (store : Store) (missing : List Digest) : Bool :=
  missing.all fun key => (store.read key).isSome

end CertificateWaiter

/-- The pool of pending `waiter` futures of `run`, each with its keys. -/
structure CertificateWaiter where
  waiting : List (List Digest × Certificate)

namespace CertificateWaiter

/-- What `tokio::select!` picks in `run`: a certificate from the synchronizer, or the
`index`-th pending future. -/
inductive Event where
  | receive (certificate : Certificate)
  | complete (index : Nat)

/-- One turn of the `select!` loop against the store of the moment; it returns the
certificates sent to the core.  Completing a future that is not ready is not a step. -/
def step (self : CertificateWaiter) (input : Store × Event) :
    Option (List Certificate × CertificateWaiter) :=
  match input with
  | (store, .receive certificate) =>
      some ([], ⟨self.waiting ++ [(waitFor store certificate, certificate)]⟩)
  | (store, .complete index) =>
      match self.waiting[index]? with
      | some (keys, certificate) =>
          if waiterReady store keys then some ([certificate], ⟨self.waiting.eraseIdx index⟩)
          else none
      | none => none

theorem perm_cons_eraseIdx {α : Type} {l : List α} {index : Nat} {x : α}
    (h : l[index]? = some x) : l.Perm (x :: l.eraseIdx index) := by
  obtain ⟨hindex, rfl⟩ := List.getElem?_eq_some_iff.mp h
  rw [List.eraseIdx_eq_take_drop_succ]
  conv_lhs => rw [← List.take_append_drop index l, List.drop_eq_getElem_cons hindex]
  exact List.perm_middle

theorem step_complete_eq_some_iff {self : CertificateWaiter} {store : Store} {index : Nat}
    {sent : List Certificate} {next : CertificateWaiter} :
    self.step (store, .complete index) = some (sent, next) ↔
      ∃ keys certificate, self.waiting[index]? = some (keys, certificate) ∧
        waiterReady store keys = true ∧ sent = [certificate] ∧
        next = ⟨self.waiting.eraseIdx index⟩ := by
  simp only [step]
  cases self.waiting[index]? with
  | none => simp
  | some pending =>
      obtain ⟨keys, certificate⟩ := pending
      by_cases hready : waiterReady store keys
      · simp only [hready, if_true]
        constructor
        · intro h
          cases h
          exact ⟨keys, certificate, rfl, hready, rfl, rfl⟩
        · rintro ⟨_, _, h, -, rfl, rfl⟩
          cases h
          rfl
      · simp [hready]

/-- The store only grows from `S` to `S'`. -/
def StoreLe (S S' : Store) : Prop :=
  ∀ key headerMsg, S.read key = some headerMsg → S'.read key = some headerMsg

/-!
## A certificate parked on a genesis digest

One authority, whose genesis header has the zero digest as id, and its round-1 header,
whose only parent is that genesis digest.  The certificate of the round-1 header reaches
`deliver_certificate` before the header is stored, and the waiter after.
-/

def parkedAuthor : PublicKey := ⟨List.replicate 32 0, List.length_replicate 32 0⟩

def parkedGenesisHeader : Header :=
  ⟨parkedAuthor, 0, ⟨[], .nil⟩, ⟨[], .nil⟩, default, ⟨0, []⟩, ⟨0, []⟩⟩

def parkedHeaderId : Digest := ⟨List.replicate 31 0 ++ [1], by simp⟩

def parkedHeader : Header :=
  ⟨parkedAuthor, 1, ⟨[], .nil⟩, ⟨[default], List.pairwise_singleton _ _⟩, parkedHeaderId,
    ⟨0, []⟩, ⟨0, []⟩⟩

def parkedSynchronizer : Synchronizer := ⟨parkedAuthor, [(default, parkedGenesisHeader)]⟩

def parkedCertificate : Certificate := ⟨parkedHeaderId, 1, parkedAuthor, ([], default)⟩

def storeWithoutHeader : Store := ⟨fun _ => none⟩

def storeWithHeader : Store :=
  ⟨fun key => if key = parkedHeaderId then some (.header parkedHeader) else none⟩

theorem certificateWaiter_parks_on_genesis_parent :
    parkedSynchronizer.deliverCertificate storeWithoutHeader parkedCertificate =
      (.ok false, [parkedCertificate]) ∧
    waitFor storeWithHeader parkedCertificate = [default] ∧
    parkedSynchronizer.deliverCertificate storeWithHeader parkedCertificate = (.ok true, []) ∧
    parkedSynchronizer.isGenesis default = true ∧
    storeWithHeader.read default = none ∧
    ∀ store : Store, store.read default = none →
      waiterReady store (waitFor storeWithHeader parkedCertificate) = false := by
  have hwait : waitFor storeWithHeader parkedCertificate = [default] := by
    simp [waitFor, storeWithHeader, parkedCertificate, parkedHeader, HeaderType.parents]
  refine ⟨rfl, hwait, ?_, rfl, ?_, fun store hstore => by simp [hwait, waiterReady, hstore]⟩
  · simp [Synchronizer.deliverCertificate, storeWithHeader, parkedCertificate, parkedHeader,
      HeaderType.parents, Synchronizer.deliverParents, parkedSynchronizer, Synchronizer.isGenesis]
  · have hne : (default : Digest) ≠ parkedHeaderId := by decide
    simp [storeWithHeader, hne]

end CertificateWaiter

end Sailfish
