import Sailfish.Aggregators.Certificates
import Sailfish.Aggregators.Timeouts
import Sailfish.Aggregators.Votes
import Sailfish.Node

/-!
# The votes aggregator over a run

A `VotesAggregator` receives the votes for one header, one call at a time.  Over every
run from `new`, with the sorted keys `main` builds and a bitmap wide enough for them, no
call panics and the aggregator records the first vote of each author: the used set, the
vote list and the aggregate signature are those of the accepted votes in arrival order,
and the 0 bits of the bitmap are exactly the positions of their keys (`Records`).

The committee weight is the accepted stake until both thresholds are met; the call that
meets them returns the certificate and sets the weight to 0.  From then on the weight is
what was added since, at least the quorum threshold below the accepted stake
(`WeightFor`); when twice the threshold exceeds the total stake it never reaches the
threshold again, so the certificate is returned once.
-/

namespace Sailfish

/-- The authors whose votes `append` accepts from a stream: the first of each. -/
def acceptedAuthors (votes : List Vote) : List PublicKey :=
  (firstArrivals Vote.author votes).map Vote.author

/-- The authors `names` reach both thresholds that `append` checks. -/
def QuorumMet (committee : Committee) (clan : Clan) (names : List PublicKey) : Prop :=
  committee.quorumThreshold ≤ committee.stakeSum names ∧
    clan.validityThreshold ≤ clan.stakeSum names

instance (committee : Committee) (clan : Clan) (names : List PublicKey) :
    Decidable (QuorumMet committee clan names) :=
  inferInstanceAs (Decidable (_ ∧ _))

/-- The aggregate signature of a list of shares as `append` builds it: the first share,
then each next one combined with `aggregate_sign`. -/
def foldSigns (aggregateSign : SignatureShareG1 → SignatureShareG1 → SignatureShareG1) :
    List SignatureShareG1 → SignatureShareG1
  | [] => default
  | first :: rest => rest.foldl aggregateSign first

/-- The certificate in a result of `append`, if any. -/
def issuedCertificate : DagResult (Option Certificate) → Option Certificate
  | .ok certificate => certificate
  | .error _ => none

/-- The bitmap `words` has a 0 bit exactly at the positions in `sortedKeys` of `keys`. -/
def MarksKeys (sortedKeys : List PublicKeyShareG2) (words : List (BitVec 128))
    (keys : List PublicKeyShareG2) : Prop :=
  ∀ j < 128 * words.length, bitAt words j = false ↔ ∃ key ∈ keys, sortedKeys[j]? = some key

theorem foldSigns_append_singleton
    (aggregateSign : SignatureShareG1 → SignatureShareG1 → SignatureShareG1)
    (signs : List SignatureShareG1) (sign : SignatureShareG1) :
    foldSigns aggregateSign (signs ++ [sign]) =
      if signs = [] then sign else aggregateSign (foldSigns aggregateSign signs) sign := by
  cases signs <;> simp [foldSigns, List.foldl_append]

theorem marksKeys_replicate_allOnes (sortedKeys : List PublicKeyShareG2) (n : Nat) :
    MarksKeys sortedKeys (List.replicate n (BitVec.allOnes 128)) [] := by
  intro j hj
  rw [List.length_replicate] at hj
  rw [bitAt_replicate_allOnes hj]
  simp

/-- Clearing the bit at `key`'s position marks `key` as well. -/
theorem MarksKeys.clear {sortedKeys : List PublicKeyShareG2} {words words' : List (BitVec 128)}
    {keys : List PublicKeyShareG2} {key : PublicKeyShareG2}
    (h : MarksKeys sortedKeys words keys) (hlen : words'.length = words.length)
    (hbits : ∀ j, bitAt words' j = (bitAt words j && decide (sortedKeys[j]? ≠ some key))) :
    MarksKeys sortedKeys words' (keys ++ [key]) := by
  intro j hj
  rw [hlen] at hj
  rw [hbits, Bool.and_eq_false_iff, h j hj]
  simp [or_comm]

/-!
## The committee weight
-/

section Weight

variable {committee : Committee} {clan : Clan}

theorem not_quorumMet_nil : ¬ QuorumMet committee clan [] := by
  simp [QuorumMet, Clan.validityThreshold]

theorem QuorumMet.append_singleton {names : List PublicKey}
    (h : QuorumMet committee clan names) (name : PublicKey) :
    QuorumMet committee clan (names ++ [name]) := by
  simp only [QuorumMet, Committee.stakeSum_append_singleton, Clan.stakeSum_append_singleton] at *
  unfold Stake at *
  omega

variable (committee clan) in
/-- The committee weight `append` keeps for the accepted authors `names`: their stake
until both thresholds are met; from then on what was added since, at least the quorum
threshold below their stake. -/
def WeightFor (weight : Stake) (names : List PublicKey) : Prop :=
  (¬ QuorumMet committee clan names → weight = committee.stakeSum names) ∧
    (QuorumMet committee clan names →
      weight + committee.quorumThreshold ≤ committee.stakeSum names)

variable {weight : Stake} {names : List PublicKey}

theorem weightFor_nil : WeightFor committee clan 0 [] :=
  ⟨fun _ => rfl, fun h => absurd h not_quorumMet_nil⟩

theorem WeightFor.le (h : WeightFor committee clan weight names) :
    weight ≤ committee.stakeSum names := by
  by_cases hmet : QuorumMet committee clan names
  · have := h.2 hmet
    unfold Stake at *
    omega
  · exact (h.1 hmet).le

theorem WeightFor.check_iff (h : WeightFor committee clan weight names)
    (hnot : ¬ QuorumMet committee clan names) (name : PublicKey) :
    (committee.quorumThreshold ≤ weight + committee.stake name ∧
        clan.validityThreshold ≤ clan.stakeSum (names ++ [name])) ↔
      QuorumMet committee clan (names ++ [name]) := by
  rw [QuorumMet, Committee.stakeSum_append_singleton, h.1 hnot]

theorem WeightFor.not_check (hquorum : committee.totalStake < 2 * committee.quorumThreshold)
    (h : WeightFor committee clan weight names) (hmet : QuorumMet committee clan names)
    {name : PublicKey} (hnodup : (names ++ [name]).Nodup) :
    ¬ committee.quorumThreshold ≤ weight + committee.stake name := by
  have htotal := committee.stakeSum_le_totalStake hnodup
  have hweight := h.2 hmet
  rw [Committee.stakeSum_append_singleton] at htotal
  unfold Stake at *
  omega

theorem WeightFor.check_iff_first
    (hquorum : committee.totalStake < 2 * committee.quorumThreshold)
    (h : WeightFor committee clan weight names) {name : PublicKey}
    (hnodup : (names ++ [name]).Nodup) :
    (committee.quorumThreshold ≤ weight + committee.stake name ∧
        clan.validityThreshold ≤ clan.stakeSum (names ++ [name])) ↔
      QuorumMet committee clan (names ++ [name]) ∧ ¬ QuorumMet committee clan names := by
  by_cases hmet : QuorumMet committee clan names
  · simp only [hmet, not_true_eq_false, and_false, iff_false]
    exact fun hcheck => h.not_check hquorum hmet hnodup hcheck.1
  · simp only [hmet, not_false_eq_true, and_true]
    exact h.check_iff hmet name

theorem WeightFor.append (h : WeightFor committee clan weight names) (name : PublicKey) :
    WeightFor committee clan
      (if committee.quorumThreshold ≤ weight + committee.stake name ∧
          clan.validityThreshold ≤ clan.stakeSum (names ++ [name]) then 0
        else weight + committee.stake name) (names ++ [name]) := by
  have hle := h.le
  unfold WeightFor QuorumMet at *
  simp only [Committee.stakeSum_append_singleton, Clan.stakeSum_append_singleton] at *
  unfold Stake at *
  split_ifs <;> omega

end Weight

/-!
## The run invariant
-/

section Run

variable (aggregateSign : SignatureShareG1 → SignatureShareG1 → SignatureShareG1)
  (committee : Committee) (clan : Clan) (totalNodes : Nat)

/-- What the aggregator has recorded of the accepted votes `accepted`: their authors,
their pairs and the aggregate of their signature shares, in arrival order, and a bitmap
of the width `new` gives whose 0 bits are the positions of their keys. -/
structure Records (s : VotesAggregator) (accepted : List Vote) : Prop where
  used_eq : s.used = accepted.map Vote.author
  votes_eq : s.votes =
    accepted.map fun vote => (committee.getBlsPublicG2 vote.author, vote.signature)
  aggSign_eq : s.aggSign = foldSigns aggregateSign (accepted.map Vote.signature)
  length_pkBitVec : s.pkBitVec.length = (totalNodes + 127) / 128
  marks : MarksKeys (sortedKeys committee) s.pkBitVec (s.used.map committee.getBlsPublicG2)

/-- `Records`, with the weights and the key list that `append` keeps. -/
structure Tracks (s : VotesAggregator) (accepted : List Vote)
    extends Records aggregateSign committee totalNodes s accepted : Prop where
  clanWeight_eq : s.clanWeight = clan.stakeSum s.used
  weightFor : WeightFor committee clan s.committeeWeight s.used
  sortedKeys_eq : s.sortedKeys = sortedKeys committee

theorem tracks_new :
    Tracks aggregateSign committee clan totalNodes
      (VotesAggregator.new (sortedKeys committee) totalNodes) [] where
  used_eq := rfl
  votes_eq := rfl
  aggSign_eq := rfl
  length_pkBitVec := List.length_replicate _ _
  marks := marksKeys_replicate_allOnes _ _
  clanWeight_eq := rfl
  weightFor := weightFor_nil
  sortedKeys_eq := rfl

variable {aggregateSign committee clan totalNodes}

theorem Records.mem_used_iff {s : VotesAggregator} {votes : List Vote}
    (hs : Records aggregateSign committee totalNodes s (firstArrivals Vote.author votes))
    {author : PublicKey} : author ∈ s.used ↔ author ∈ votes.map Vote.author := by
  rw [hs.used_eq]
  exact mem_map_firstArrivals _ _ _

theorem Records.nodup_used {s : VotesAggregator} {votes : List Vote}
    (hs : Records aggregateSign committee totalNodes s (firstArrivals Vote.author votes)) :
    s.used.Nodup :=
  hs.used_eq ▸ nodup_map_firstArrivals _ _

theorem Tracks.append {s : VotesAggregator} {accepted : List Vote} {vote : Vote}
    (hs : Tracks aggregateSign committee clan totalNodes s accepted)
    (hsorted : (sortedKeys committee).Pairwise (· < ·))
    (hfit : (sortedKeys committee).length ≤ 128 * ((totalNodes + 127) / 128))
    (hmember : committee.IsMember vote.author) (hnew : vote.author ∉ s.used) :
    ∃ after, Tracks aggregateSign committee clan totalNodes after (accepted ++ [vote]) ∧
      s.append aggregateSign vote committee clan =
        some (if committee.quorumThreshold ≤ s.committeeWeight + committee.stake vote.author ∧
            clan.validityThreshold ≤ clan.stakeSum (s.used ++ [vote.author]) then
          .ok (some ⟨vote.id, vote.round, vote.origin, (after.pkBitVec, after.aggSign)⟩)
        else .ok none, after) := by
  obtain ⟨words, hclear, hlen, hbits⟩ := clearKeyBit_eq_some (hs.sortedKeys_eq ▸ hsorted)
    (hs.sortedKeys_eq ▸ getBlsPublicG2_mem_sortedKeys hmember)
    (by rw [hs.sortedKeys_eq, hs.length_pkBitVec]; exact hfit)
  have hclan : s.clanWeight + clan.stake vote.author =
      clan.stakeSum (s.used ++ [vote.author]) := by
    rw [hs.clanWeight_eq, Clan.stakeSum_append_singleton]
  have hvotes : s.votes = [] ↔ accepted.map Vote.signature = [] := by
    simp [hs.votes_eq]
  refine ⟨⟨if committee.quorumThreshold ≤ s.committeeWeight + committee.stake vote.author ∧
          clan.validityThreshold ≤ clan.stakeSum (s.used ++ [vote.author]) then 0
        else s.committeeWeight + committee.stake vote.author,
      clan.stakeSum (s.used ++ [vote.author]),
      s.votes ++ [(committee.getBlsPublicG2 vote.author, vote.signature)],
      s.used ++ [vote.author],
      if s.votes = [] then vote.signature else aggregateSign s.aggSign vote.signature,
      words, s.sortedKeys⟩,
    ⟨⟨?_, ?_, ?_, hlen.trans hs.length_pkBitVec, ?_⟩, rfl, hs.weightFor.append vote.author,
      hs.sortedKeys_eq⟩, ?_⟩
  · simp [hs.used_eq]
  · simp [hs.votes_eq]
  · simp only [List.map_append, List.map_singleton, foldSigns_append_singleton,
      ← hs.aggSign_eq, hvotes]
  · rw [List.map_append, List.map_singleton]
    exact hs.marks.clear hlen (hs.sortedKeys_eq ▸ hbits)
  · rw [VotesAggregator.append_of_not_mem _ _ _ hnew, hclear, Option.map_some', hclan]
    dsimp only
    split_ifs <;> rfl

theorem Tracks.step {s : VotesAggregator} {votes : List Vote} {vote : Vote}
    (hs : Tracks aggregateSign committee clan totalNodes s (firstArrivals Vote.author votes))
    (hsorted : (sortedKeys committee).Pairwise (· < ·))
    (hfit : (sortedKeys committee).length ≤ 128 * ((totalNodes + 127) / 128))
    (hmember : committee.IsMember vote.author) :
    ∃ r after, s.append aggregateSign vote committee clan = some (r, after) ∧
      Tracks aggregateSign committee clan totalNodes after
        (firstArrivals Vote.author (votes ++ [vote])) ∧
      (vote.author ∈ votes.map Vote.author →
        r = .error (.authorityReuse vote.author) ∧ after = s) ∧
      (vote.author ∉ votes.map Vote.author →
        after.used = s.used ++ [vote.author] ∧ after.used.Nodup ∧
        r = if committee.quorumThreshold ≤ s.committeeWeight + committee.stake vote.author ∧
            clan.validityThreshold ≤ clan.stakeSum after.used then
          .ok (some ⟨vote.id, vote.round, vote.origin, (after.pkBitVec, after.aggSign)⟩)
        else .ok none) := by
  by_cases hdup : vote.author ∈ votes.map Vote.author
  · exact ⟨_, _, VotesAggregator.append_of_mem _ _ _ (hs.mem_used_iff.mpr hdup),
      firstArrivals_append_singleton_of_mem _ hdup ▸ hs, fun _ => ⟨rfl, rfl⟩,
      fun h => absurd hdup h⟩
  · obtain ⟨after, hafter, heq⟩ := hs.append hsorted hfit hmember (mt hs.mem_used_iff.mp hdup)
    rw [← firstArrivals_append_singleton_of_not_mem _ hdup] at hafter
    have hused : after.used = s.used ++ [vote.author] := by
      rw [hafter.used_eq, hs.used_eq, firstArrivals_append_singleton_of_not_mem _ hdup,
        List.map_append, List.map_singleton]
    exact ⟨_, after, heq, hafter, fun h => absurd h hdup,
      fun _ => ⟨hused, hafter.nodup_used, by rw [hused]⟩⟩

/-- The invariant of every run of member votes from `new`. -/
theorem runStepsOpt_tracks (hsorted : (sortedKeys committee).Pairwise (· < ·))
    (hfit : (sortedKeys committee).length ≤ 128 * ((totalNodes + 127) / 128))
    (votes : List Vote) (hmembers : ∀ vote ∈ votes, committee.IsMember vote.author) :
    ∃ outs s, runStepsOpt (fun s vote => s.append aggregateSign vote committee clan)
        (VotesAggregator.new (sortedKeys committee) totalNodes) votes = some (outs, s) ∧
      Tracks aggregateSign committee clan totalNodes s (firstArrivals Vote.author votes) ∧
      (committee.totalStake < 2 * committee.quorumThreshold →
        (outs.filterMap issuedCertificate).length =
          if QuorumMet committee clan s.used then 1 else 0) := by
  induction votes using List.reverseRecOn with
  | nil => exact ⟨[], _, rfl, tracks_new .., fun _ => (if_neg not_quorumMet_nil).symm⟩
  | append_singleton votes vote ih =>
      obtain ⟨outs, s, hrun, hs, hcount⟩ :=
        ih fun v hv => hmembers v (List.mem_append_left _ hv)
      obtain ⟨r, after, heq, hafter, hdupCase, hnewCase⟩ := hs.step hsorted hfit
        (hmembers vote (List.mem_append_right _ (List.mem_singleton_self _)))
      rw [runStepsOpt_append_singleton, hrun, Option.some_bind, heq, Option.map_some']
      refine ⟨_, _, rfl, hafter, fun hq => ?_⟩
      rw [List.filterMap_append, List.length_append, hcount hq]
      by_cases hdup : vote.author ∈ votes.map Vote.author
      · obtain ⟨rfl, rfl⟩ := hdupCase hdup
        simp [issuedCertificate]
      obtain ⟨hused, hnodup, rfl⟩ := hnewCase hdup
      rw [hused] at hnodup ⊢
      rw [if_congr (hs.weightFor.check_iff_first hq hnodup) rfl rfl]
      by_cases hmet : QuorumMet committee clan s.used
      · simp [hmet, hmet.append_singleton, issuedCertificate]
      · by_cases hnext : QuorumMet committee clan (s.used ++ [vote.author]) <;>
          simp [hmet, hnext, issuedCertificate]

end Run

/-!
## One certificate per header, and what it carries
-/

/-- What the calls of one aggregator return over a stream of member votes from `new`, and
on the next member vote. -/
def CertifiesFirstQuorumOnce
    (aggregateSign : SignatureShareG1 → SignatureShareG1 → SignatureShareG1)
    (committee : Committee) (clan : Clan) (totalNodes : Nat) : Prop :=
  ∀ votes : List Vote, (∀ vote ∈ votes, committee.IsMember vote.author) →
    ∃ outs before,
      runStepsOpt (fun s vote => s.append aggregateSign vote committee clan)
        (VotesAggregator.new (sortedKeys committee) totalNodes) votes = some (outs, before) ∧
      (outs.filterMap issuedCertificate).length =
        (if QuorumMet committee clan (acceptedAuthors votes) then 1 else 0) ∧
      before.committeeWeight ≤ committee.totalStake ∧
      before.clanWeight ≤ committee.totalStake ∧
      ∀ vote : Vote, committee.IsMember vote.author →
        (vote.author ∈ votes.map Vote.author →
          before.append aggregateSign vote committee clan =
            some (.error (.authorityReuse vote.author), before)) ∧
        (vote.author ∉ votes.map Vote.author →
          before.committeeWeight + committee.stake vote.author ≤ committee.totalStake ∧
          before.clanWeight + clan.stake vote.author ≤ committee.totalStake ∧
          ∃ after, before.append aggregateSign vote committee clan =
            some (if QuorumMet committee clan (acceptedAuthors (votes ++ [vote])) ∧
                ¬ QuorumMet committee clan (acceptedAuthors votes) then
              .ok (some ⟨vote.id, vote.round, vote.origin, (after.pkBitVec, after.aggSign)⟩)
            else .ok none, after))

theorem votesAggregator_certifies_first_quorum_once
    (aggregateSign : SignatureShareG1 → SignatureShareG1 → SignatureShareG1)
    (committee : Committee) (clanId totalNodes : Nat)
    (hquorum : committee.totalStake < 2 * committee.quorumThreshold)
    (hkeys : committee.getBlsPublicKeys.Nodup)
    (hnodes : (sortedKeys committee).length ≤ totalNodes) :
    CertifiesFirstQuorumOnce aggregateSign committee
      (Clan.createClanFromCommittee committee clanId) totalNodes := by
  intro votes hmembers
  have hsorted := sortedKeys_pairwise_lt hkeys
  have hfit : (sortedKeys committee).length ≤ 128 * ((totalNodes + 127) / 128) := by omega
  obtain ⟨outs, before, hrun, hs, hcount⟩ :=
    @runStepsOpt_tracks aggregateSign committee (Clan.createClanFromCommittee committee clanId)
      totalNodes hsorted hfit votes hmembers
  have hused : before.used = acceptedAuthors votes := hs.used_eq
  have hclanTotal := Clan.totalStake_createClanFromCommittee_le committee clanId
  refine ⟨outs, before, hrun, hused ▸ hcount hquorum,
    hs.weightFor.le.trans (committee.stakeSum_le_totalStake hs.nodup_used),
    hs.clanWeight_eq.trans_le ((Clan.stakeSum_le_totalStake _ hs.nodup_used).trans hclanTotal),
    fun vote hmember => ?_⟩
  obtain ⟨r, after, heq, hafter, hdupCase, hnewCase⟩ := hs.step hsorted hfit hmember
  refine ⟨fun hdup => ?_, fun hdup => ?_⟩
  · obtain ⟨rfl, rfl⟩ := hdupCase hdup
    exact heq
  obtain ⟨hused', hnodup, rfl⟩ := hnewCase hdup
  have hstake := committee.stakeSum_le_totalStake hnodup
  have hclanStake := (Clan.stakeSum_le_totalStake _ hnodup).trans hclanTotal
  rw [hused', Committee.stakeSum_append_singleton] at hstake
  rw [hused', Clan.stakeSum_append_singleton] at hclanStake
  refine ⟨(Nat.add_le_add_right hs.weightFor.le _).trans hstake,
    hs.clanWeight_eq ▸ hclanStake, after, heq.trans ?_⟩
  have haccepted : acceptedAuthors (votes ++ [vote]) = before.used ++ [vote.author] :=
    hafter.used_eq.symm.trans hused'
  rw [haccepted, ← hused, hused', if_congr (hs.weightFor.check_iff_first hquorum
    (hused' ▸ hnodup)) rfl rfl]

/-- What a state reached by member votes from `new` records, and what its next call on a
member vote returns. -/
def MarksAcceptedVoters
    (aggregateSign : SignatureShareG1 → SignatureShareG1 → SignatureShareG1)
    (committee : Committee) (clan : Clan) (totalNodes : Nat) : Prop :=
  ∀ votes : List Vote, (∀ vote ∈ votes, committee.IsMember vote.author) →
    ∃ outs s,
      runStepsOpt (fun s vote => s.append aggregateSign vote committee clan)
        (VotesAggregator.new (sortedKeys committee) totalNodes) votes = some (outs, s) ∧
      Records aggregateSign committee totalNodes s (firstArrivals Vote.author votes) ∧
      (∀ j, (sortedKeys committee).length ≤ j → j < 128 * s.pkBitVec.length →
        bitAt s.pkBitVec j = true) ∧
      ∀ vote : Vote, committee.IsMember vote.author →
        (∃ i, binarySearch s.sortedKeys (committee.getBlsPublicG2 vote.author) = .ok i ∧
          s.sortedKeys[i]? = some (committee.getBlsPublicG2 vote.author) ∧
          i / 128 < s.pkBitVec.length) ∧
        (∃ r after, s.append aggregateSign vote committee clan = some (r, after)) ∧
        ∀ certificate after,
          s.append aggregateSign vote committee clan = some (.ok (some certificate), after) →
          certificate = ⟨vote.id, vote.round, vote.origin, (after.pkBitVec, after.aggSign)⟩ ∧
          Records aggregateSign committee totalNodes after
            (firstArrivals Vote.author (votes ++ [vote])) ∧
          QuorumMet committee clan after.used

theorem votesAggregator_bitmap_marks_accepted_voters
    (aggregateSign : SignatureShareG1 → SignatureShareG1 → SignatureShareG1)
    (committee : Committee) (clan : Clan) (totalNodes : Nat)
    (hkeys : committee.getBlsPublicKeys.Nodup)
    (hnodes : (sortedKeys committee).length ≤ totalNodes) :
    MarksAcceptedVoters aggregateSign committee clan totalNodes := by
  intro votes hmembers
  have hsorted := sortedKeys_pairwise_lt hkeys
  have hfit : (sortedKeys committee).length ≤ 128 * ((totalNodes + 127) / 128) := by omega
  obtain ⟨outs, s, hrun, hs, -⟩ :=
    @runStepsOpt_tracks aggregateSign committee clan totalNodes hsorted hfit votes hmembers
  refine ⟨outs, s, hrun, hs.toRecords, fun j hlen hj => ?_, fun vote hmember => ⟨?_, ?_, ?_⟩⟩
  · rw [← Bool.not_eq_false]
    intro hbit
    obtain ⟨key, -, hkey⟩ := (hs.marks j hj).mp hbit
    rw [List.getElem?_eq_none hlen] at hkey
    cases hkey
  · obtain ⟨i, hsearch, hi⟩ := binarySearch_sortedKeys hkeys hmember
    have hilen := (List.getElem?_eq_some_iff.mp hi).1
    refine ⟨i, hs.sortedKeys_eq ▸ hsearch, hs.sortedKeys_eq ▸ hi, ?_⟩
    rw [hs.length_pkBitVec]
    omega
  · obtain ⟨r, after, heq, -⟩ := hs.step hsorted hfit hmember
    exact ⟨r, after, heq⟩
  · intro certificate after hcall
    obtain ⟨r, after', heq, hafter, hdupCase, hnewCase⟩ := hs.step hsorted hfit hmember
    obtain ⟨rfl, rfl⟩ : r = .ok (some certificate) ∧ after' = after := by
      simpa [heq] using hcall
    by_cases hdup : vote.author ∈ votes.map Vote.author
    · cases (hdupCase hdup).1
    obtain ⟨hused, -, hr⟩ := hnewCase hdup
    split_ifs at hr with hcheck
    · refine ⟨by simpa using hr, hafter.toRecords, ⟨?_, hcheck.2⟩⟩
      rw [hused, Committee.stakeSum_append_singleton]
      exact hcheck.1.trans (Nat.add_le_add_right hs.weightFor.le _)
    · cases hr

/-!
## Stake sums fit in `u32`

`Stake` is `u32` in the code and a natural number here.  Every weight an aggregator adds
up is the stake of distinct authors, so when the committee's total stake fits in `u32`,
no addition wraps and the two agree.
-/

theorem aggregator_stake_sums_fit_u32 (committee : Committee)
    (htotal : committee.totalStake < 2 ^ 32) :
    (∀ leadersPerRound certificates origin,
      let before := (runSteps (fun s c => s.append c committee leadersPerRound)
        CertificatesAggregator.new certificates).2
      origin ∉ before.used → before.weight + committee.stake origin < 2 ^ 32) ∧
    (∀ pairs author,
      let before := (runSteps (fun s (pair : PublicKey × Signature) =>
        s.append pair.1 pair.2 committee) SignatureAggregator.new pairs).2
      author ∉ before.used → before.weight + committee.stake author < 2 ^ 32) ∧
    (∀ aggregateSign clanId totalNodes votes, committee.getBlsPublicKeys.Nodup →
      (sortedKeys committee).length ≤ totalNodes →
      (∀ vote ∈ votes, committee.IsMember vote.author) →
      ∃ outs before, runStepsOpt (fun s vote => s.append aggregateSign vote committee
          (Clan.createClanFromCommittee committee clanId))
          (VotesAggregator.new (sortedKeys committee) totalNodes) votes = some (outs, before) ∧
        ∀ author ∉ before.used, before.committeeWeight + committee.stake author < 2 ^ 32 ∧
          before.clanWeight + (Clan.createClanFromCommittee committee clanId).stake author <
            2 ^ 32) := by
  refine ⟨fun leadersPerRound certificates origin h =>
      (CertificatesAggregator.weight_add_stake_le_totalStake committee leadersPerRound
        certificates h).trans_lt htotal,
    fun pairs author h =>
      (SignatureAggregator.weight_add_stake_le_totalStake committee pairs h).trans_lt htotal,
    fun aggregateSign clanId totalNodes votes hkeys hnodes hmembers => ?_⟩
  have hfit : (sortedKeys committee).length ≤ 128 * ((totalNodes + 127) / 128) := by omega
  obtain ⟨outs, before, hrun, hs, -⟩ :=
    @runStepsOpt_tracks aggregateSign committee (Clan.createClanFromCommittee committee clanId)
      totalNodes (sortedKeys_pairwise_lt hkeys) hfit votes hmembers
  refine ⟨outs, before, hrun, fun author hauthor => ?_⟩
  have hnodup : (before.used ++ [author]).Nodup :=
    hs.nodup_used.append (List.nodup_singleton _) (List.disjoint_singleton.mpr hauthor)
  have hstake := committee.stakeSum_le_totalStake hnodup
  have hclanStake := (Clan.stakeSum_le_totalStake _ hnodup).trans
    (Clan.totalStake_createClanFromCommittee_le committee clanId)
  rw [Committee.stakeSum_append_singleton] at hstake
  rw [Clan.stakeSum_append_singleton, ← hs.clanWeight_eq] at hclanStake
  have hweight := hs.weightFor.le
  unfold Stake at *
  constructor <;> omega

/-!
## Four authorities in two clans
-/

/-- The Ed25519 key of 31 zero bytes and then `n`. -/
def authorityKey (n : UInt8) : PublicKey := ⟨List.replicate 31 0 ++ [n], by simp⟩

/-- Stakes 1 to 4, clans 0 and 1, BLS keys out of order, and a quorum threshold of 6 out
of a total stake of 10. -/
def twoClanCommittee : Committee :=
  ⟨[(authorityKey 1, ⟨1, 0, ⟨7⟩⟩), (authorityKey 2, ⟨2, 0, ⟨2⟩⟩),
    (authorityKey 3, ⟨3, 1, ⟨5⟩⟩), (authorityKey 4, ⟨4, 1, ⟨3⟩⟩)], 6, fun _ _ => []⟩

/-- Combines shares by adding their encodings. -/
def addShares (first second : SignatureShareG1) : SignatureShareG1 :=
  ⟨first.encoding + second.encoding⟩

theorem twoClanCommittee_certifies_first_quorum_once :
    twoClanCommittee.totalStake < 2 * twoClanCommittee.quorumThreshold ∧
      twoClanCommittee.getBlsPublicKeys.Nodup ∧
      (sortedKeys twoClanCommittee).length ≤ 4 ∧
      CertifiesFirstQuorumOnce addShares twoClanCommittee
        (Clan.createClanFromCommittee twoClanCommittee 1) 4 :=
  ⟨by decide, by decide, by simp [sortedKeys, twoClanCommittee, Committee.getBlsPublicKeys],
    votesAggregator_certifies_first_quorum_once _ _ 1 4 (by decide) (by decide)
      (by simp [sortedKeys, twoClanCommittee, Committee.getBlsPublicKeys])⟩

theorem twoClanCommittee_bitmap_marks_accepted_voters :
    twoClanCommittee.getBlsPublicKeys.Nodup ∧
      (sortedKeys twoClanCommittee).length ≤ 4 ∧
      MarksAcceptedVoters addShares twoClanCommittee
        (Clan.createClanFromCommittee twoClanCommittee 1) 4 :=
  ⟨by decide, by simp [sortedKeys, twoClanCommittee, Committee.getBlsPublicKeys],
    votesAggregator_bitmap_marks_accepted_voters _ _ _ 4 (by decide)
      (by simp [sortedKeys, twoClanCommittee, Committee.getBlsPublicKeys])⟩

theorem twoClanCommittee_stake_sums_fit_u32 :
    twoClanCommittee.totalStake < 2 ^ 32 ∧
    (∀ leadersPerRound certificates origin,
      let before := (runSteps (fun s c => s.append c twoClanCommittee leadersPerRound)
        CertificatesAggregator.new certificates).2
      origin ∉ before.used → before.weight + twoClanCommittee.stake origin < 2 ^ 32) ∧
    (∀ pairs author,
      let before := (runSteps (fun s (pair : PublicKey × Signature) =>
        s.append pair.1 pair.2 twoClanCommittee) SignatureAggregator.new pairs).2
      author ∉ before.used → before.weight + twoClanCommittee.stake author < 2 ^ 32) ∧
    (∀ aggregateSign clanId totalNodes votes, twoClanCommittee.getBlsPublicKeys.Nodup →
      (sortedKeys twoClanCommittee).length ≤ totalNodes →
      (∀ vote ∈ votes, twoClanCommittee.IsMember vote.author) →
      ∃ outs before, runStepsOpt (fun s vote => s.append aggregateSign vote twoClanCommittee
          (Clan.createClanFromCommittee twoClanCommittee clanId))
          (VotesAggregator.new (sortedKeys twoClanCommittee) totalNodes) votes =
            some (outs, before) ∧
        ∀ author ∉ before.used,
          before.committeeWeight + twoClanCommittee.stake author < 2 ^ 32 ∧
          before.clanWeight + (Clan.createClanFromCommittee twoClanCommittee clanId).stake author <
            2 ^ 32) :=
  ⟨by decide, aggregator_stake_sums_fit_u32 twoClanCommittee (by decide)⟩

end Sailfish
