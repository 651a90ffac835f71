import Sailfish.BinarySearch
import Sailfish.Messages

/-!
# The votes aggregator

`VotesAggregator::append` collects the votes for one header.  Each new voter's stake is
added to a committee weight and, for members of the clan, to a clan weight; the voter's
bit in a bitmap of 128-bit words is cleared, at the position of the voter's BLS key in
the sorted key list; the voter's signature share is folded into an aggregate.  When both
weights reach their thresholds the aggregator returns a certificate carrying the bitmap
and the aggregate, and sets the committee weight back to 0.

Two steps of `append` can panic: `binary_search(..).unwrap()` on a key that is not in
the list, and the indexing of the bitmap.  The model returns `none` there.  The
aggregate signature is folded with `crypto::aggregate_sign`, a parameter here.
-/

namespace Sailfish

structure VotesAggregator where
  committeeWeight : Stake
  clanWeight : Stake
  votes : List (PublicKeyShareG2 × SignatureShareG1)
  used : List PublicKey
  aggSign : SignatureShareG1
  pkBitVec : List (BitVec 128)
  sortedKeys : List PublicKeyShareG2

/-!
## The bitmap

Bit `j` of the bitmap is bit `j % 128` of word `j / 128`.
-/

def bitAt (words : List (BitVec 128)) (j : Nat) : Bool :=
  (words.getD (j / 128) 0).getLsbD (j % 128)

/-- `pk_bit_vec[id / 128] &= !(1 << (id % 128))`; `none` where the index panics. -/
def clearBit (words : List (BitVec 128)) (id : Nat) : Option (List (BitVec 128)) :=
  if h : id / 128 < words.length then
    some (words.set (id / 128) (words[id / 128] &&& ~~~(1#128 <<< (id % 128))))
  else none

/-- The bitmap with `key`'s bit cleared: `binary_search(&key).unwrap()` on the sorted
keys, then `clearBit`; `none` where either panics. -/
def clearKeyBit (sortedKeys : List PublicKeyShareG2) (words : List (BitVec 128))
    (key : PublicKeyShareG2) : Option (List (BitVec 128)) :=
  match binarySearch sortedKeys key with
  | .ok id => clearBit words id
  | .error _ => none

theorem getLsbD_and_not_one_shiftLeft (w : BitVec 128) {b i : Nat} (hb : b < 128)
    (hi : i < 128) :
    (w &&& ~~~(1#128 <<< b)).getLsbD i = (w.getLsbD i && decide (i ≠ b)) := by
  have htwoPow : (1#128 <<< b) = BitVec.twoPow 128 b := rfl
  rw [htwoPow, BitVec.getLsbD_and, BitVec.getLsbD_not, BitVec.getLsbD_twoPow]
  by_cases h : b = i <;> simp [h, hb, hi, Ne.symm]

theorem bitAt_replicate_allOnes {n j : Nat} (hj : j < 128 * n) :
    bitAt (List.replicate n (BitVec.allOnes 128)) j = true := by
  have hword : j / 128 < n := by omega
  simp only [bitAt, List.getD_eq_getElem?_getD, List.getElem?_replicate, if_pos hword,
    Option.getD_some, BitVec.getLsbD_allOnes]
  exact decide_eq_true (Nat.mod_lt _ (by decide))

theorem length_of_clearBit {words words' : List (BitVec 128)} {id : Nat}
    (h : clearBit words id = some words') : words'.length = words.length := by
  unfold clearBit at h
  split at h
  · cases h
    simp
  · cases h

/-- Clearing bit `id` clears exactly bit `id`. -/
theorem bitAt_of_clearBit {words words' : List (BitVec 128)} {id : Nat}
    (h : clearBit words id = some words') (j : Nat) :
    bitAt words' j = (bitAt words j && decide (j ≠ id)) := by
  unfold clearBit at h
  split at h
  · rename_i hid
    cases h
    unfold bitAt
    rw [List.getD_eq_getElem?_getD, List.getD_eq_getElem?_getD, List.getElem?_set]
    by_cases hword : id / 128 = j / 128
    · rw [if_pos hword, if_pos hid, Option.getD_some,
        getLsbD_and_not_one_shiftLeft _ (Nat.mod_lt _ (by decide)) (Nat.mod_lt _ (by decide)),
        ← hword, List.getElem?_eq_getElem hid, Option.getD_some]
      congr 1
      simp only [decide_eq_decide]
      omega
    · rw [if_neg hword]
      have hne : j ≠ id := fun hj => hword (hj ▸ rfl)
      simp [hne]
  · cases h

theorem clearKeyBit_eq_some {sortedKeys : List PublicKeyShareG2} {words : List (BitVec 128)}
    {key : PublicKeyShareG2} (hs : sortedKeys.Pairwise (· < ·)) (hkey : key ∈ sortedKeys)
    (hlen : sortedKeys.length ≤ 128 * words.length) :
    ∃ words', clearKeyBit sortedKeys words key = some words' ∧
      words'.length = words.length ∧
      ∀ j, bitAt words' j = (bitAt words j && decide (sortedKeys[j]? ≠ some key)) := by
  obtain ⟨i, hsearch, hi⟩ := binarySearch_eq_ok_of_mem hs hkey
  have hilen : i < sortedKeys.length := (List.getElem?_eq_some_iff.mp hi).1
  have hword : i / 128 < words.length := by omega
  have hclear : clearBit words i = some _ := dif_pos hword
  refine ⟨_, by rw [clearKeyBit, hsearch]; exact hclear, length_of_clearBit hclear, fun j => ?_⟩
  rw [bitAt_of_clearBit hclear]
  congr 1
  have hpos : j = i ↔ sortedKeys[j]? = some key :=
    ⟨fun hj => hj ▸ hi, fun hj =>
      (List.getElem?_inj hilen (hs.imp ne_of_lt) (hi.trans hj.symm)).symm⟩
  simp only [ne_eq, decide_not, hpos]

/-!
## Appending a vote
-/

namespace VotesAggregator

def new (sortedKeys : List PublicKeyShareG2) (totalNodes : Nat) : VotesAggregator :=
  ⟨0, 0, [], [], default, List.replicate ((totalNodes + 127) / 128) (BitVec.allOnes 128),
    sortedKeys⟩

/-- `VotesAggregator::append`; `none` where it panics. -/
def append (aggregateSign : SignatureShareG1 → SignatureShareG1 → SignatureShareG1)
    (self : VotesAggregator) (vote : Vote) (committee : Committee) (clan : Clan) :
    Option (DagResult (Option Certificate) × VotesAggregator) :=
  let author := vote.author
  let authorBls := committee.getBlsPublicG2 author
  if author ∈ self.used then some (.error (.authorityReuse author), self)
  else
    let votes := self.votes ++ [(authorBls, vote.signature)]
    let committeeWeight := self.committeeWeight + committee.stake author
    let clanWeight :=
      if clan.isMember author then self.clanWeight + clan.stake author else self.clanWeight
    match clearKeyBit self.sortedKeys self.pkBitVec authorBls with
    | none => none
    | some pkBitVec =>
        let aggSign :=
          if votes.length = 1 then vote.signature
          else if 2 ≤ votes.length then aggregateSign self.aggSign vote.signature
          else self.aggSign
        if committee.quorumThreshold ≤ committeeWeight ∧
            clan.validityThreshold ≤ clanWeight then
          some (.ok (some ⟨vote.id, vote.round, vote.origin, (pkBitVec, aggSign)⟩),
            ⟨0, clanWeight, votes, self.used ++ [author], aggSign, pkBitVec, self.sortedKeys⟩)
        else
          some (.ok none, ⟨committeeWeight, clanWeight, votes, self.used ++ [author], aggSign,
            pkBitVec, self.sortedKeys⟩)

theorem append_of_mem {self : VotesAggregator} {vote : Vote}
    (aggregateSign : SignatureShareG1 → SignatureShareG1 → SignatureShareG1)
    (committee : Committee) (clan : Clan) (h : vote.author ∈ self.used) :
    self.append aggregateSign vote committee clan =
      some (.error (.authorityReuse vote.author), self) := by
  simp [append, h]

theorem append_of_not_mem {self : VotesAggregator} {vote : Vote}
    (aggregateSign : SignatureShareG1 → SignatureShareG1 → SignatureShareG1)
    (committee : Committee) (clan : Clan) (h : vote.author ∉ self.used) :
    self.append aggregateSign vote committee clan =
      (clearKeyBit self.sortedKeys self.pkBitVec
          (committee.getBlsPublicG2 vote.author)).map fun pkBitVec =>
        let aggSign :=
          if self.votes = [] then vote.signature else aggregateSign self.aggSign vote.signature
        let next : VotesAggregator :=
          ⟨self.committeeWeight + committee.stake vote.author,
            self.clanWeight + clan.stake vote.author,
            self.votes ++ [(committee.getBlsPublicG2 vote.author, vote.signature)],
            self.used ++ [vote.author], aggSign, pkBitVec, self.sortedKeys⟩
        if committee.quorumThreshold ≤ next.committeeWeight ∧
            clan.validityThreshold ≤ next.clanWeight then
          (.ok (some ⟨vote.id, vote.round, vote.origin, (pkBitVec, aggSign)⟩),
            { next with committeeWeight := 0 })
        else (.ok none, next) := by
  have hclan : (if clan.isMember vote.author then self.clanWeight + clan.stake vote.author
      else self.clanWeight) = self.clanWeight + clan.stake vote.author := by
    cases hm : clan.isMember vote.author
    · simp [Clan.stake_eq_zero_of_not_isMember hm]
    · rfl
  have hsign : (if (self.votes ++ [(committee.getBlsPublicG2 vote.author, vote.signature)]).length
        = 1 then vote.signature
      else if 2 ≤ (self.votes ++ [(committee.getBlsPublicG2 vote.author, vote.signature)]).length
        then aggregateSign self.aggSign vote.signature else self.aggSign) =
      if self.votes = [] then vote.signature else aggregateSign self.aggSign vote.signature := by
    cases self.votes <;> simp
  simp only [append, h, if_false, hclan, hsign]
  cases clearKeyBit self.sortedKeys self.pkBitVec (committee.getBlsPublicG2 vote.author) with
  | none => rfl
  | some pkBitVec => exact (apply_ite some _ _ _).symm

end VotesAggregator

end Sailfish
