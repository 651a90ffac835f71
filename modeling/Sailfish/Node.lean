import Sailfish.BinarySearch
import Sailfish.Config

/-!
# The node's sorted BLS keys

`run` in `node/src/main.rs` collects the committee's BLS keys with
`get_bls_public_keys` and sorts them; the sorted list becomes the `sorted_keys` of every
`VotesAggregator`, where a voter's position in it is the voter's bit.  When the keys are
distinct, the sorted list is strictly increasing and holds every member's key, so
`binary_search` finds each member's key at its position.
-/

namespace Sailfish

/-- `sorted_keys` in `run`: `committee.get_bls_public_keys()` after `sort()`. -/
def sortedKeys (committee : Committee) : List PublicKeyShareG2 :=
  committee.getBlsPublicKeys.mergeSort fun a b => decide (a ≤ b)

theorem perm_sortedKeys (committee : Committee) :
    (sortedKeys committee).Perm committee.getBlsPublicKeys :=
  List.mergeSort_perm _ _

@[simp] theorem length_sortedKeys (committee : Committee) :
    (sortedKeys committee).length = committee.authorities.length := by
  simp [(perm_sortedKeys committee).length_eq, Committee.getBlsPublicKeys]

theorem sortedKeys_pairwise_lt {committee : Committee}
    (hkeys : committee.getBlsPublicKeys.Nodup) : (sortedKeys committee).Pairwise (· < ·) := by
  have hle : (sortedKeys committee).Sorted (· ≤ ·) := by
    simpa using @List.sorted_mergeSort _ (fun a b => decide (a ≤ b))
      (fun a b c hab hbc => by simpa using le_trans (by simpa using hab) (by simpa using hbc))
      (fun a b => by simpa using le_total a b) committee.getBlsPublicKeys
  exact hle.lt_of_le ((perm_sortedKeys committee).nodup_iff.mpr hkeys)

theorem getBlsPublicG2_mem_sortedKeys {committee : Committee} {name : PublicKey}
    (hmember : committee.IsMember name) :
    committee.getBlsPublicG2 name ∈ sortedKeys committee := by
  rw [(perm_sortedKeys committee).mem_iff]
  obtain ⟨authority, hlookup⟩ : ∃ authority, committee.authorities.lookup name = some authority :=
    Option.isSome_iff_exists.mp (List.lookup_isSome_iff.mpr (by
      obtain ⟨entry, hentry, rfl⟩ := List.mem_map.mp hmember
      exact ⟨entry, hentry, by simp⟩))
  obtain ⟨l₁, l₂, hsplit, -⟩ := List.lookup_eq_some_iff.mp hlookup
  simp only [Committee.getBlsPublicG2, hlookup, Committee.getBlsPublicKeys]
  exact List.mem_map.mpr ⟨(name, authority), by simp [hsplit], rfl⟩

/-- With distinct keys, `binary_search` finds a member's key in `sorted_keys`, at an
index of the list. -/
theorem binarySearch_sortedKeys {committee : Committee}
    (hkeys : committee.getBlsPublicKeys.Nodup) {name : PublicKey}
    (hmember : committee.IsMember name) :
    ∃ i, binarySearch (sortedKeys committee) (committee.getBlsPublicG2 name) = .ok i ∧
      (sortedKeys committee)[i]? = some (committee.getBlsPublicG2 name) :=
  binarySearch_eq_ok_of_mem (sortedKeys_pairwise_lt hkeys) (getBlsPublicG2_mem_sortedKeys hmember)

end Sailfish
