import Sailfish.Messages

/-!
# Digests of timeouts, no-votes, votes and certificates

Each of these messages hashes a few fixed-width fields: a round as 8 little-endian bytes,
and 32-byte digests and keys.  The pre-images are therefore injective in the fields they
read, and say nothing of the others.  A timeout and a no-vote of one author and round
feed the hasher the same 40 bytes, so their digests are equal and do not tell which of
the two messages was meant.  A vote's digest reads the header it votes for but not its
author, so every vote on one header has one digest.  Two certificates are equal
(`PartialEq`) exactly when their digests' pre-images are.
-/

namespace Sailfish

def Timeout.hasherInput (self : Timeout) : List UInt8 :=
  UInt64.toLeBytes self.round ++ self.author.bytes

/-- `Timeout::digest`, with SHA-512 cut to its first 32 bytes as a parameter. -/
def Timeout.digest (sha512Truncated : List UInt8 → Digest) (self : Timeout) : Digest :=
  sha512Truncated self.hasherInput

def NoVoteMsg.hasherInput (self : NoVoteMsg) : List UInt8 :=
  UInt64.toLeBytes self.round ++ self.author.bytes

/-- `NoVoteMsg::digest`. -/
def NoVoteMsg.digest (sha512Truncated : List UInt8 → Digest) (self : NoVoteMsg) : Digest :=
  sha512Truncated self.hasherInput

/-- `Vote::new`: the vote of `author` on `header`.  The signature share, which
`aggregators.rs` reads and `messages.rs` lacks, is passed in. -/
def Vote.new (header : Header) (author : PublicKey) (signature : SignatureShareG1) : Vote :=
  ⟨header.id, header.round, header.author, author, signature⟩

def Vote.hasherInput (self : Vote) : List UInt8 :=
  self.id.bytes ++ UInt64.toLeBytes self.round ++ self.origin.bytes

/-- `Vote::digest`. -/
def Vote.digest (sha512Truncated : List UInt8 → Digest) (self : Vote) : Digest :=
  sha512Truncated self.hasherInput

/-- The bytes `Certificate::digest` hashes: `header.id`, `round()` and `origin()`, which
are the fields `headerId`, `round` and `origin` of the certificate `aggregators.rs`
builds. -/
def Certificate.hasherInput (self : Certificate) : List UInt8 :=
  self.headerId.bytes ++ UInt64.toLeBytes self.round ++ self.origin.bytes

/-- `Certificate::digest`. -/
def Certificate.digest (sha512Truncated : List UInt8 → Digest) (self : Certificate) :
    Digest :=
  sha512Truncated self.hasherInput

/-- `PartialEq for Certificate`: the header id, then `&=` the round and the origin. -/
def Certificate.eq (self other : Certificate) : Bool :=
  (self.headerId == other.headerId && self.round == other.round) &&
    self.origin == other.origin

/-- A round followed by a key: 40 bytes that give both back. -/
theorem roundKeyBytes_eq_iff {r r' : Round} {k k' : PublicKey} :
    UInt64.toLeBytes r ++ k.bytes = UInt64.toLeBytes r' ++ k'.bytes ↔ r = r' ∧ k = k' := by
  refine ⟨fun h => ?_, fun ⟨hr, hk⟩ => hr ▸ hk ▸ rfl⟩
  obtain ⟨hr, hk⟩ := List.append_inj h (by simp)
  exact ⟨UInt64.toLeBytes_injective hr, PublicKey.ext hk⟩

/-- A digest, a round and a key: 72 bytes that give all three back. -/
theorem digestRoundKeyBytes_eq_iff {d d' : Digest} {r r' : Round} {k k' : PublicKey} :
    d.bytes ++ UInt64.toLeBytes r ++ k.bytes = d'.bytes ++ UInt64.toLeBytes r' ++ k'.bytes ↔
      d = d' ∧ r = r' ∧ k = k' := by
  rw [List.append_assoc, List.append_assoc]
  refine ⟨fun h => ?_, fun ⟨hd, hr, hk⟩ => hd ▸ hr ▸ hk ▸ rfl⟩
  obtain ⟨hd, h⟩ := List.append_inj h (d.length_bytes.trans d'.length_bytes.symm)
  exact ⟨Digest.ext hd, roundKeyBytes_eq_iff.mp h⟩

theorem timeout_noVote_digests_coincide :
    (∀ t t' : Timeout,
      t.hasherInput = t'.hasherInput ↔ t.round = t'.round ∧ t.author = t'.author) ∧
    (∀ m m' : NoVoteMsg,
      m.hasherInput = m'.hasherInput ↔ m.round = m'.round ∧ m.author = m'.author) ∧
    ∀ (sha512Truncated : List UInt8 → Digest) (round : Round) (author : PublicKey)
      (signature signature' : Signature),
      (Timeout.mk round author signature).digest sha512Truncated =
        (NoVoteMsg.mk round author signature').digest sha512Truncated :=
  ⟨fun _ _ => roundKeyBytes_eq_iff, fun _ _ => roundKeyBytes_eq_iff, fun _ _ _ _ _ => rfl⟩

theorem vote_digest_ignores_author :
    (∀ v v' : Vote, v.hasherInput = v'.hasherInput ↔
      v.id = v'.id ∧ v.round = v'.round ∧ v.origin = v'.origin) ∧
    ∀ (sha512Truncated : List UInt8 → Digest) (header : Header) (author author' : PublicKey)
      (signature signature' : SignatureShareG1),
      (Vote.new header author signature).digest sha512Truncated =
        (Vote.new header author' signature').digest sha512Truncated :=
  ⟨fun _ _ => digestRoundKeyBytes_eq_iff, fun _ _ _ _ _ _ => rfl⟩

/-- `PartialEq for Certificate` holds exactly when the two certificates feed the hasher
the same bytes, so equal certificates have equal digests. -/
theorem certificate_eq_iff_hasherInput_eq (c c' : Certificate) :
    c.eq c' = true ↔ c.hasherInput = c'.hasherInput := by
  rw [Certificate.hasherInput, Certificate.hasherInput, digestRoundKeyBytes_eq_iff]
  simp [Certificate.eq, and_assoc]

end Sailfish
