import Sailfish.Bytes
import Sailfish.Config
import Sailfish.Trace

/-!
# Messages

Headers, votes, timeouts, no-votes and their certificates (`messages.rs`).

`messages.rs` and the files that use it disagree on several shapes:
`aggregators.rs` reads `vote.signature`, `timeout.signature` and
`no_vote_msg.signature`, fills `TimeoutCert` and `NoVoteCert` with (author, signature)
pairs, and builds a `Certificate` from `header_id`, `round`, `origin` and `votes`, all of
which `messages.rs` lacks.  Each message below has the fields its users read; the two
certificate lists take their entry type as a parameter, so that `add_timeout` and
`add_no_vote` keep the author lists of `messages.rs` while the aggregators keep their
pairs.
-/

namespace Sailfish

/-- `primary::Round`. -/
abbrev Round := UInt64

/-- `config::WorkerId`. -/
abbrev WorkerId := UInt32

/-- Modelled from the spec: `error::DagError` (`primary/src/error.rs`), the variant the
modelled code raises. -/
inductive DagError where
  | authorityReuse (author : PublicKey)
  deriving DecidableEq

/-- `error::DagResult`. -/
abbrev DagResult (α : Type) := Except DagError α

/-- `BTreeSet<Digest>`, as the digests its iterator yields: increasing. -/
@[ext] structure DigestSet where
  toList : List Digest
  sorted : toList.Pairwise (· < ·)

/-- `BTreeMap<Digest, WorkerId>`, as the entries its iterator yields: keys increasing. -/
@[ext] structure PayloadMap where
  toList : List (Digest × WorkerId)
  sorted : (toList.map Prod.fst).Pairwise (· < ·)

/-!
## Timeout and no-vote certificates

`add_timeout` and `add_no_vote` share one body, `pushNewAuthor`.
-/

structure TimeoutCert (Entry : Type) where
  round : Round
  timeouts : List Entry

structure NoVoteCert (Entry : Type) where
  round : Round
  noVotes : List Entry

/-- The body of `add_timeout` and `add_no_vote`: refuse an author the list holds, else
push it. -/
def pushNewAuthor (authors : List PublicKey) (author : PublicKey) :
    DagResult Unit × List PublicKey :=
  if authors.any (· == author) then (.error (.authorityReuse author), authors)
  else (.ok (), authors ++ [author])

def TimeoutCert.new {Entry : Type} (round : Round) : TimeoutCert Entry := ⟨round, []⟩

def TimeoutCert.addTimeout (self : TimeoutCert PublicKey) (author : PublicKey) :
    DagResult Unit × TimeoutCert PublicKey :=
  ((pushNewAuthor self.timeouts author).1,
    { self with timeouts := (pushNewAuthor self.timeouts author).2 })

def NoVoteCert.new {Entry : Type} (round : Round) : NoVoteCert Entry := ⟨round, []⟩

def NoVoteCert.addNoVote (self : NoVoteCert PublicKey) (author : PublicKey) :
    DagResult Unit × NoVoteCert PublicKey :=
  ((pushNewAuthor self.noVotes author).1,
    { self with noVotes := (pushNewAuthor self.noVotes author).2 })

theorem pushNewAuthor_of_mem {authors : List PublicKey} {author : PublicKey}
    (h : author ∈ authors) :
    pushNewAuthor authors author = (.error (.authorityReuse author), authors) := by
  simp [pushNewAuthor, h]

theorem pushNewAuthor_of_not_mem {authors : List PublicKey} {author : PublicKey}
    (h : author ∉ authors) : pushNewAuthor authors author = (.ok (), authors ++ [author]) := by
  simp [pushNewAuthor, h]

/-- From the empty list, `pushNewAuthor` keeps the first arrival of each author. -/
theorem runSteps_pushNewAuthor (authors : List PublicKey) :
    (runSteps pushNewAuthor [] authors).2 = firstArrivals id authors := by
  induction authors using List.reverseRecOn with
  | nil => rfl
  | append_singleton l x ih =>
      rw [runSteps_append_singleton, ih, firstArrivals_append_singleton]
      by_cases hx : x ∈ l
      · have hmem : x ∈ firstArrivals id l := by
          simpa using (mem_map_firstArrivals id l x).mpr (by simpa using hx)
        simp [pushNewAuthor_of_mem hmem, hx]
      · have hmem : x ∉ firstArrivals id l := by
          simpa using mt (mem_map_firstArrivals id l x).mp (by simpa using hx)
        simp [pushNewAuthor_of_not_mem hmem, hx]

theorem TimeoutCert.addTimeout_of_mem {cert : TimeoutCert PublicKey} {author : PublicKey}
    (h : author ∈ cert.timeouts) :
    cert.addTimeout author = (.error (.authorityReuse author), cert) := by
  simp [TimeoutCert.addTimeout, pushNewAuthor_of_mem h]

theorem TimeoutCert.addTimeout_of_not_mem {cert : TimeoutCert PublicKey} {author : PublicKey}
    (h : author ∉ cert.timeouts) :
    cert.addTimeout author = (.ok (), { cert with timeouts := cert.timeouts ++ [author] }) := by
  simp [TimeoutCert.addTimeout, pushNewAuthor_of_not_mem h]

theorem NoVoteCert.addNoVote_of_mem {cert : NoVoteCert PublicKey} {author : PublicKey}
    (h : author ∈ cert.noVotes) :
    cert.addNoVote author = (.error (.authorityReuse author), cert) := by
  simp [NoVoteCert.addNoVote, pushNewAuthor_of_mem h]

theorem NoVoteCert.addNoVote_of_not_mem {cert : NoVoteCert PublicKey} {author : PublicKey}
    (h : author ∉ cert.noVotes) :
    cert.addNoVote author = (.ok (), { cert with noVotes := cert.noVotes ++ [author] }) := by
  simp [NoVoteCert.addNoVote, pushNewAuthor_of_not_mem h]

theorem runSteps_addTimeout (round : Round) (authors : List PublicKey) :
    (runSteps TimeoutCert.addTimeout (TimeoutCert.new round) authors).2 =
      ⟨round, firstArrivals id authors⟩ := by
  rw [← runSteps_pushNewAuthor]
  exact congrArg Prod.snd
    (runSteps_wrap (TimeoutCert.mk round) (fun _ _ => rfl) [] authors)

theorem runSteps_addNoVote (round : Round) (authors : List PublicKey) :
    (runSteps NoVoteCert.addNoVote (NoVoteCert.new round) authors).2 =
      ⟨round, firstArrivals id authors⟩ := by
  rw [← runSteps_pushNewAuthor]
  exact congrArg Prod.snd
    (runSteps_wrap (NoVoteCert.mk round) (fun _ _ => rfl) [] authors)

theorem nodup_firstArrivals_id (authors : List PublicKey) : (firstArrivals id authors).Nodup := by
  simpa using nodup_map_firstArrivals id authors

theorem addTimeout_addNoVote_keep_authors_distinct :
    (∀ (cert : TimeoutCert PublicKey) (author : PublicKey),
      ((cert.addTimeout author).1 = .error (.authorityReuse author) ↔ author ∈ cert.timeouts) ∧
      (author ∈ cert.timeouts → (cert.addTimeout author).2 = cert) ∧
      (author ∉ cert.timeouts →
        cert.addTimeout author = (.ok (), { cert with timeouts := cert.timeouts ++ [author] }))) ∧
    (∀ (round : Round) (authors : List PublicKey),
      let cert := (runSteps TimeoutCert.addTimeout (TimeoutCert.new round) authors).2
      cert.round = round ∧ cert.timeouts = firstArrivals id authors ∧ cert.timeouts.Nodup) ∧
    (∀ (cert : NoVoteCert PublicKey) (author : PublicKey),
      ((cert.addNoVote author).1 = .error (.authorityReuse author) ↔ author ∈ cert.noVotes) ∧
      (author ∈ cert.noVotes → (cert.addNoVote author).2 = cert) ∧
      (author ∉ cert.noVotes →
        cert.addNoVote author = (.ok (), { cert with noVotes := cert.noVotes ++ [author] }))) ∧
    (∀ (round : Round) (authors : List PublicKey),
      let cert := (runSteps NoVoteCert.addNoVote (NoVoteCert.new round) authors).2
      cert.round = round ∧ cert.noVotes = firstArrivals id authors ∧ cert.noVotes.Nodup) := by
  refine ⟨fun cert author => ?_, fun round authors => ?_, fun cert author => ?_,
    fun round authors => ?_⟩
  · by_cases h : author ∈ cert.timeouts
    · simp [TimeoutCert.addTimeout_of_mem h, h]
    · simp [TimeoutCert.addTimeout_of_not_mem h, h]
  · simpa [runSteps_addTimeout] using nodup_firstArrivals_id authors
  · by_cases h : author ∈ cert.noVotes
    · simp [NoVoteCert.addNoVote_of_mem h, h]
    · simp [NoVoteCert.addNoVote_of_not_mem h, h]
  · simpa [runSteps_addNoVote] using nodup_firstArrivals_id authors

/-!
## Headers, votes and certificates
-/

structure Header where
  author : PublicKey
  round : Round
  payload : PayloadMap
  parents : DigestSet
  id : Digest
  timeoutCert : TimeoutCert PublicKey
  noVoteCert : NoVoteCert PublicKey

/-- The bytes `Header::digest` feeds the hasher, in order: the author, the round, each
payload entry, each parent. -/
def Header.hasherInput (self : Header) : List UInt8 :=
  self.author.bytes ++ UInt64.toLeBytes self.round ++
    self.payload.toList.flatMap (fun entry => entry.1.bytes ++ UInt32.toLeBytes entry.2) ++
    self.parents.toList.flatMap Digest.bytes

/-- `Header::digest`, with SHA-512 cut to its first 32 bytes as a parameter. -/
def Header.digest (sha512Truncated : List UInt8 → Digest) (self : Header) : Digest :=
  sha512Truncated self.hasherInput

/-- `Header::new`: the header with its digest as id. -/
def Header.new (sha512Truncated : List UInt8 → Digest) (author : PublicKey) (round : Round)
    (payload : PayloadMap) (parents : DigestSet) (timeoutCert : TimeoutCert PublicKey)
    (noVoteCert : NoVoteCert PublicKey) : Header :=
  let header : Header := ⟨author, round, payload, parents, default, timeoutCert, noVoteCert⟩
  { header with id := header.digest sha512Truncated }

/-- Modelled from the spec: `primary::HeaderInfo` (`primary/src/primary.rs`), the compact
header without its payload.  The modelled code reads only its parents. -/
structure HeaderInfo where
  parents : List Digest

/-- Modelled from the spec: `primary::HeaderType`, what the store holds under a header
id. -/
inductive HeaderType where
  | header (header : Header)
  | headerInfo (headerInfo : HeaderInfo)

/-- The parent digests of a stored header, as the `match` in `get_parents`,
`deliver_certificate` and `CertificateWaiter::run` extracts them. -/
def HeaderType.parents : HeaderType → List Digest
  | .header h => h.parents.toList
  | .headerInfo info => info.parents

structure Vote where
  id : Digest
  round : Round
  origin : PublicKey
  author : PublicKey
  signature : SignatureShareG1

structure Timeout where
  round : Round
  author : PublicKey
  signature : Signature

structure NoVoteMsg where
  round : Round
  author : PublicKey
  signature : Signature

/-- The certificate `aggregators.rs` builds: the header it certifies and the vote
bitmap with the aggregated signature. -/
structure Certificate where
  headerId : Digest
  round : Round
  origin : PublicKey
  votes : List (BitVec 128) × SignatureShareG1

end Sailfish
