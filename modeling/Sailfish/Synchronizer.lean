import Sailfish.Messages

/-!
# The synchronizer

`Synchronizer::get_parents` and `Synchronizer::deliver_certificate` decide whether the
parents of a header are available: a parent is available when it is one of the genesis
headers, which every node fabricates locally, or when the store holds it.  What is
missing is handed to a waiter over a channel.  Each function is modelled with the store
it reads as an argument and returns, next to its result, the messages it sends.

The store maps digests to the header messages stored under them; its reads do not fail
in this model (a failed read is fatal or propagated in the code, and every statement
about the synchronizer assumes reads succeed).
-/

namespace Sailfish

/-- Modelled from the spec: the contents of `store::Store`, each key with the header
message `bincode` reads back from it. -/
structure Store where
  read : Digest → Option HeaderType

/-- Modelled from the spec: `Header::genesis`, one header per authority, at round 0 with
empty payload and parents, its id the digest of that template. -/
def Header.genesis (sha512Truncated : List UInt8 → Digest) (committee : Committee) :
    List Header :=
  committee.authorities.map fun entry =>
    Header.new sha512Truncated entry.1 0 ⟨[], .nil⟩ ⟨[], .nil⟩ ⟨0, []⟩ ⟨0, []⟩

/-- Modelled from the spec: `header_waiter::WaiterMessage`
(`primary/src/header_waiter.rs`), the request `get_parents` sends. -/
inductive WaiterMessage where
  | syncParents (missing : List Digest) (headerMsg : HeaderType)

/-- The synchronizer's own state; the store and the two channels are the arguments and
results of its functions. -/
structure Synchronizer where
  name : PublicKey
  genesis : List (Digest × Header)

namespace Synchronizer

def new (sha512Truncated : List UInt8 → Digest) (name : PublicKey) (committee : Committee) :
    Synchronizer :=
  ⟨name, (Header.genesis sha512Truncated committee).map fun x => (x.id, x)⟩

/-- The genesis header `get_parents` substitutes for `digest`, found with `find`. -/
def genesisHeader (self : Synchronizer) (digest : Digest) : Option Header :=
  (self.genesis.find? fun entry => entry.1 == digest).map Prod.snd

/-- The genesis test of `deliver_certificate`, made with `any`. -/
def isGenesis (self : Synchronizer) (digest : Digest) : Bool :=
  self.genesis.any fun entry => entry.1 == digest

/-- One turn of the loop of `get_parents`, on the accumulators `(missing, parents)`. -/
def getParentsStep (self : Synchronizer) (store : Store)
    (acc : List Digest × List HeaderType) (parent : Digest) : List Digest × List HeaderType :=
  match self.genesisHeader parent with
  | some genesis => (acc.1, acc.2 ++ [.header genesis])
  | none =>
      match store.read parent with
      | some headerMsg => (acc.1, acc.2 ++ [headerMsg])
      | none => (acc.1 ++ [parent], acc.2)

/-- `get_parents`: all parents, or the empty list and a `SyncParents` request. -/
def getParents (self : Synchronizer) (store : Store) (headerMsg : HeaderType) :
    DagResult (List HeaderType) × List WaiterMessage :=
  let acc := headerMsg.parents.foldl (self.getParentsStep store) ([], [])
  if acc.1.isEmpty then (.ok acc.2, [])
  else (.ok [], [.syncParents acc.1 headerMsg])

/-- The loop of `deliver_certificate` over the parents: it sends the certificate and
returns `false` at the first parent that is neither genesis nor stored. -/
def deliverParents (self : Synchronizer) (store : Store) (certificate : Certificate) :
    List Digest → DagResult Bool × List Certificate
  | [] => (.ok true, [])
  | cert :: rest =>
      if self.isGenesis cert then self.deliverParents store certificate rest
      else if (store.read cert).isNone then (.ok false, [certificate])
      else self.deliverParents store certificate rest

/-- `deliver_certificate`. -/
def deliverCertificate (self : Synchronizer) (store : Store) (certificate : Certificate) :
    DagResult Bool × List Certificate :=
  match store.read certificate.headerId with
  | some headerMsg => self.deliverParents store certificate headerMsg.parents
  | none => (.ok false, [certificate])

/-!
## Available parents

A parent is available when it is a genesis digest or a key of the store; it then
resolves to the local genesis header, or else to the stored message.
-/

def available (self : Synchronizer) (store : Store) (parent : Digest) : Bool :=
  self.isGenesis parent || (store.read parent).isSome

def resolveParent (self : Synchronizer) (store : Store) (parent : Digest) :
    Option HeaderType :=
  match self.genesisHeader parent with
  | some genesis => some (.header genesis)
  | none => store.read parent

theorem isGenesis_iff_mem (self : Synchronizer) (digest : Digest) :
    self.isGenesis digest = true ↔ digest ∈ self.genesis.map Prod.fst := by
  simp only [isGenesis, List.any_eq_true, beq_iff_eq, List.mem_map]

theorem genesisHeader_eq_none_iff (self : Synchronizer) (digest : Digest) :
    self.genesisHeader digest = none ↔ self.isGenesis digest = false := by
  simp [genesisHeader, isGenesis, List.find?_eq_none]

theorem isSome_resolveParent (self : Synchronizer) (store : Store) (parent : Digest) :
    (self.resolveParent store parent).isSome = self.available store parent := by
  unfold resolveParent available
  cases hgenesis : self.genesisHeader parent with
  | none => simp [(genesisHeader_eq_none_iff self parent).mp hgenesis]
  | some genesis =>
      have hgen : self.isGenesis parent = true := by
        rw [← Bool.not_eq_false, ← genesisHeader_eq_none_iff, hgenesis]
        simp
      simp [hgen]

/-- One turn of `get_parents` moves the parent to `missing` or its resolution to
`parents`. -/
theorem getParentsStep_eq (self : Synchronizer) (store : Store)
    (acc : List Digest × List HeaderType) (parent : Digest) :
    self.getParentsStep store acc parent =
      (acc.1 ++ (if self.available store parent then [] else [parent]),
        acc.2 ++ (self.resolveParent store parent).toList) := by
  unfold getParentsStep
  cases hgenesis : self.genesisHeader parent with
  | some genesis =>
      have : (self.resolveParent store parent).isSome := by simp [resolveParent, hgenesis]
      rw [isSome_resolveParent] at this
      simp [this, resolveParent, hgenesis]
  | none =>
      have hnot := (genesisHeader_eq_none_iff self parent).mp hgenesis
      cases hread : store.read parent <;> simp [available, resolveParent, hgenesis, hnot, hread]

/-- The loop of `get_parents` collects the unavailable parents and the resolutions of
the available ones, both in order. -/
theorem foldl_getParentsStep (self : Synchronizer) (store : Store) (parents : List Digest) :
    ∀ acc : List Digest × List HeaderType, parents.foldl (self.getParentsStep store) acc =
      (acc.1 ++ parents.filter (fun parent => !self.available store parent),
        acc.2 ++ parents.filterMap (self.resolveParent store)) := by
  induction parents with
  | nil => intro acc; simp
  | cons parent rest ih =>
      intro acc
      rw [List.foldl_cons, ih, getParentsStep_eq]
      cases havailable : self.available store parent <;>
      cases hresolve : self.resolveParent store parent <;>
        simp_all [← isSome_resolveParent, List.filter_cons, List.filterMap_cons]

theorem deliverParents_eq (self : Synchronizer) (store : Store) (certificate : Certificate)
    (parents : List Digest) :
    self.deliverParents store certificate parents =
      if parents.all (self.available store) then (.ok true, []) else (.ok false, [certificate]) := by
  induction parents with
  | nil => rfl
  | cons cert rest ih =>
      unfold deliverParents
      cases hgenesis : self.isGenesis cert <;> cases hread : store.read cert <;>
        simp [ih, available, hgenesis, hread]

theorem all_available_iff (self : Synchronizer) (store : Store) (parents : List Digest) :
    parents.all (self.available store) = true ↔
      ∀ p ∈ parents, self.isGenesis p = true ∨ (store.read p).isSome := by
  simp [available]

theorem getParents_eq (self : Synchronizer) (store : Store) (headerMsg : HeaderType) :
    self.getParents store headerMsg =
      if headerMsg.parents.all (self.available store) then
        (.ok (headerMsg.parents.filterMap (self.resolveParent store)), [])
      else
        (.ok [], [.syncParents (headerMsg.parents.filter fun p => !self.available store p)
          headerMsg]) := by
  unfold getParents
  rw [foldl_getParentsStep]
  by_cases hall : headerMsg.parents.all (self.available store) <;>
    simp_all [List.filter_eq_nil_iff]

theorem map_some_filterMap {α β : Type} {f : α → Option β} {l : List α}
    (h : ∀ a ∈ l, (f a).isSome) : (l.filterMap f).map some = l.map f := by
  induction l with
  | nil => rfl
  | cons a rest ih =>
      obtain ⟨b, hb⟩ := Option.isSome_iff_exists.mp (h a (List.mem_cons_self a rest))
      simp [List.filterMap_cons, hb, ih fun x hx => h x (List.mem_cons_of_mem a hx)]

theorem getParents_all_or_nothing (self : Synchronizer) (store : Store)
    (headerMsg : HeaderType) :
    ((∀ p ∈ headerMsg.parents, p ∈ self.genesis.map Prod.fst ∨ (store.read p).isSome) →
      ∃ parents, self.getParents store headerMsg = (.ok parents, []) ∧
        parents.map some = headerMsg.parents.map (self.resolveParent store)) ∧
    ((∃ p ∈ headerMsg.parents, p ∉ self.genesis.map Prod.fst ∧ store.read p = none) →
      self.getParents store headerMsg =
        (.ok [], [.syncParents (headerMsg.parents.filter fun p =>
          decide (p ∉ self.genesis.map Prod.fst) && (store.read p).isNone) headerMsg])) := by
  rw [getParents_eq]
  refine ⟨fun hall => ?_, fun ⟨p, hp, hgenesis, hread⟩ => ?_⟩
  · have hall' := (all_available_iff self store _).mpr fun p hp =>
      (hall p hp).imp_left (isGenesis_iff_mem self p).mpr
    refine ⟨_, by simp [hall'], map_some_filterMap fun p hp => ?_⟩
    rw [isSome_resolveParent]
    exact List.all_eq_true.mp hall' p hp
  · have hnot : headerMsg.parents.all (self.available store) = false :=
      List.all_eq_false.mpr ⟨p, hp, by
        simp [available, Bool.eq_false_iff.mpr (mt (isGenesis_iff_mem self p).mp hgenesis),
          hread]⟩
    have hfilter : (fun p => !self.available store p) =
        fun p => decide (p ∉ self.genesis.map Prod.fst) && (store.read p).isNone :=
      funext fun p => by
        simp only [available, ← isGenesis_iff_mem]
        cases self.isGenesis p <;> cases store.read p <;> rfl
    simp only [hnot, Bool.false_eq_true, ↓reduceIte, hfilter]

theorem deliverCertificate_eq (self : Synchronizer) (store : Store) (certificate : Certificate) :
    self.deliverCertificate store certificate =
      if (store.read certificate.headerId).any
          (fun headerMsg => headerMsg.parents.all (self.available store)) then
        (.ok true, [])
      else (.ok false, [certificate]) := by
  unfold deliverCertificate
  cases store.read certificate.headerId <;> simp [deliverParents_eq]

theorem deliverCertificate_fst_eq_ok_true_iff (self : Synchronizer) (store : Store)
    (certificate : Certificate) :
    (self.deliverCertificate store certificate).1 = .ok true ↔
      ∃ headerMsg, store.read certificate.headerId = some headerMsg ∧
        ∀ p ∈ headerMsg.parents, self.isGenesis p = true ∨ (store.read p).isSome := by
  rw [deliverCertificate_eq]
  cases store.read certificate.headerId with
  | none => simp
  | some headerMsg =>
      simp only [Option.any_some, Option.some.injEq, exists_eq_left', ← all_available_iff]
      split_ifs with hall <;> simp [hall]

theorem deliverCertificate_ready_iff (self : Synchronizer) (store : Store)
    (certificate : Certificate) :
    ((self.deliverCertificate store certificate).1 = .ok true ↔
      ∃ headerMsg, store.read certificate.headerId = some headerMsg ∧
        ∀ p ∈ headerMsg.parents, p ∈ self.genesis.map Prod.fst ∨ (store.read p).isSome) ∧
    ((self.deliverCertificate store certificate).1 = .ok true ∨
      (self.deliverCertificate store certificate).1 = .ok false) ∧
    ((self.deliverCertificate store certificate).1 = .ok false →
      (self.deliverCertificate store certificate).2 = [certificate]) ∧
    ((self.deliverCertificate store certificate).1 = .ok true →
      (self.deliverCertificate store certificate).2 = []) := by
  simp only [← isGenesis_iff_mem]
  refine ⟨deliverCertificate_fst_eq_ok_true_iff self store certificate, ?_⟩
  rw [deliverCertificate_eq]
  split_ifs <;> simp

end Synchronizer

end Sailfish
