import Sailfish.Messages

/-!
# The header digest pre-image

`Header::digest` hashes the author, the round, the payload entries and the parents one
after the other, with no length or separator between the payload and the parents.  The
author and the round have fixed widths, so the pre-image determines them.  Payload
entries take 36 bytes and parents 32, so the rest of the pre-image splits back into
payload and parents once the number of payload entries is known; without it, nine
parents spell the same bytes as eight payload entries, and two different headers feed
the hasher the same string.  The timeout and no-vote certificates a header carries are
not hashed at all, so its id does not commit to them.
-/

namespace Sailfish

/-- The 36 bytes one payload entry adds to the pre-image. -/
def payloadEntryBytes (entry : Digest × WorkerId) : List UInt8 :=
  entry.1.bytes ++ UInt32.toLeBytes entry.2

theorem length_payloadEntryBytes (entry : Digest × WorkerId) :
    (payloadEntryBytes entry).length = 36 := by
  simp [payloadEntryBytes, entry.1.length_bytes]

theorem payloadEntryBytes_injective (a b : Digest × WorkerId)
    (h : payloadEntryBytes a = payloadEntryBytes b) : a = b := by
  obtain ⟨hdigest, hworker⟩ :=
    List.append_inj h (a.1.length_bytes.trans b.1.length_bytes.symm)
  exact Prod.ext (Digest.ext hdigest) (UInt32.toLeBytes_injective hworker)

theorem Header.hasherInput_eq (h : Header) :
    h.hasherInput = h.author.bytes ++ (UInt64.toLeBytes h.round ++
      (h.payload.toList.flatMap payloadEntryBytes ++ h.parents.toList.flatMap Digest.bytes)) := by
  simp only [Header.hasherInput, List.append_assoc]
  rfl

theorem length_flatMap_payloadEntryBytes (entries : List (Digest × WorkerId)) :
    (entries.flatMap payloadEntryBytes).length = 36 * entries.length := by
  induction entries with
  | nil => rfl
  | cons entry rest ih =>
      rw [List.flatMap_cons, List.length_append, length_payloadEntryBytes, ih,
        List.length_cons]
      omega

/-- Equal pre-images give equal authors and rounds, and, for payloads of one size, equal
payloads and parents. -/
theorem Header.hasherInput_determines (h₁ h₂ : Header)
    (h : h₁.hasherInput = h₂.hasherInput) :
    h₁.author = h₂.author ∧ h₁.round = h₂.round ∧
      (h₁.payload.toList.length = h₂.payload.toList.length →
        h₁.payload = h₂.payload ∧ h₁.parents = h₂.parents) := by
  rw [Header.hasherInput_eq, Header.hasherInput_eq] at h
  obtain ⟨hauthor, h⟩ :=
    List.append_inj h (h₁.author.length_bytes.trans h₂.author.length_bytes.symm)
  obtain ⟨hround, h⟩ := List.append_inj h (by simp)
  refine ⟨PublicKey.ext hauthor, UInt64.toLeBytes_injective hround, fun hlen => ?_⟩
  have hpayloadLen : (h₁.payload.toList.flatMap payloadEntryBytes).length =
      (h₂.payload.toList.flatMap payloadEntryBytes).length := by
    rw [length_flatMap_payloadEntryBytes, length_flatMap_payloadEntryBytes, hlen]
  obtain ⟨hpayload, hparents⟩ := List.append_inj h hpayloadLen
  exact ⟨PayloadMap.ext (flatMap_injective_of_length (by decide) length_payloadEntryBytes
      payloadEntryBytes_injective hpayload),
    DigestSet.ext (flatMap_injective_of_length (by decide) Digest.length_bytes
      (fun a b hab => Digest.ext hab) hparents)⟩

/-!
## Two headers with one pre-image

Read the byte string `k ↦ ⌊k / 4⌋`, `k < 288`, once as eight 36-byte payload entries
and once as nine 32-byte parents.  Both readings are increasing, so both are valid
`BTreeMap` and `BTreeSet` contents.
-/

/-- The 32 bytes `k ↦ ⌊k / 4⌋` from position `start`. -/
def collisionDigest (start : Nat) : Digest :=
  ⟨(List.range 32).map fun k => ((start + k) / 4).toUInt8, by simp⟩

def collisionAuthor : PublicKey := ⟨List.replicate 32 0, List.length_replicate 32 0⟩

/-- The string as eight payload entries: the worker id takes the last four bytes. -/
def eightEntryHeader : Header :=
  ⟨collisionAuthor, 0,
    ⟨(List.range 8).map fun i => (collisionDigest (36 * i), ((9 * i + 8) * 0x01010101).toUInt32),
      by decide⟩,
    ⟨[], List.Pairwise.nil⟩, default, ⟨0, []⟩, ⟨0, []⟩⟩

/-- The string as nine parents. -/
def nineParentHeader : Header :=
  ⟨collisionAuthor, 0, ⟨[], List.Pairwise.nil⟩,
    ⟨(List.range 9).map fun j => collisionDigest (32 * j), by decide⟩,
    default, ⟨0, []⟩, ⟨0, []⟩⟩

set_option maxRecDepth 8000 in
theorem eightEntryHeader_hasherInput :
    eightEntryHeader.hasherInput = nineParentHeader.hasherInput := rfl

/-- The pre-image encoding is not injective on (author, round, payload, parents). -/
theorem Header.hasherInput_not_injective :
    ¬ ∀ h₁ h₂ : Header, h₁.hasherInput = h₂.hasherInput →
      h₁.author = h₂.author ∧ h₁.round = h₂.round ∧ h₁.payload = h₂.payload ∧
        h₁.parents = h₂.parents := by
  intro hinjective
  have hpayload := congrArg (fun payload => payload.toList.length)
    (hinjective _ _ eightEntryHeader_hasherInput).2.2.1
  exact absurd hpayload (by decide)

/-- The colliding headers agree on author and round, and their payload sizes differ. -/
theorem eightEntryHeader_hasherInput_determines :
    eightEntryHeader.author = nineParentHeader.author ∧
      eightEntryHeader.round = nineParentHeader.round ∧
      (eightEntryHeader.payload.toList.length = nineParentHeader.payload.toList.length →
        eightEntryHeader.payload = nineParentHeader.payload ∧
          eightEntryHeader.parents = nineParentHeader.parents) :=
  Header.hasherInput_determines _ _ eightEntryHeader_hasherInput

end Sailfish
