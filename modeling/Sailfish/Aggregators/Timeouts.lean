import Sailfish.Messages

/-!
# Timeout and no-vote aggregators

`TimeoutAggregator` and `NoVoteAggregator` differ only in the message they accept and
the certificate they build: both refuse a second message of an author, add the stake of
each new author to a weight, and return the certificate of all pairs received so far
whenever the weight reaches the quorum threshold.  Their common body is
`SignatureAggregator.append`.

Nothing resets the weight, so every message after the quorum returns a certificate
again; each of those lists distinct authors whose stake reaches the threshold.
-/

namespace Sailfish

/-- The fields of `TimeoutAggregator` and `NoVoteAggregator` (`timeouts` and `no_votes`
are `signatures`). -/
structure SignatureAggregator where
  weight : Stake
  signatures : List (PublicKey × Signature)
  used : List PublicKey

abbrev TimeoutAggregator := SignatureAggregator

abbrev NoVoteAggregator := SignatureAggregator

namespace SignatureAggregator

def new : SignatureAggregator := ⟨0, [], []⟩

/-- The body of both `append`s, for a message of `author` signed `signature`; on quorum
it returns the pairs of the certificate. -/
def append (self : SignatureAggregator) (author : PublicKey) (signature : Signature)
    (committee : Committee) :
    DagResult (Option (List (PublicKey × Signature))) × SignatureAggregator :=
  if author ∈ self.used then (.error (.authorityReuse author), self)
  else
    let next : SignatureAggregator :=
      ⟨self.weight + committee.stake author, self.signatures ++ [(author, signature)],
        self.used ++ [author]⟩
    if committee.quorumThreshold ≤ next.weight then (.ok (some next.signatures), next)
    else (.ok none, next)

theorem append_of_mem {self : SignatureAggregator} {author : PublicKey}
    (signature : Signature) (committee : Committee) (h : author ∈ self.used) :
    self.append author signature committee = (.error (.authorityReuse author), self) := by
  simp [append, h]

theorem append_of_not_mem {self : SignatureAggregator} {author : PublicKey}
    (signature : Signature) (committee : Committee) (h : author ∉ self.used) :
    self.append author signature committee =
      (if committee.quorumThreshold ≤ self.weight + committee.stake author then
        .ok (some (self.signatures ++ [(author, signature)])) else .ok none,
       ⟨self.weight + committee.stake author, self.signatures ++ [(author, signature)],
        self.used ++ [author]⟩) := by
  simp only [append, h, if_false]
  split <;> rfl

theorem runSteps_append (committee : Committee) (pairs : List (PublicKey × Signature)) :
    (runSteps (fun s pair => s.append pair.1 pair.2 committee) new pairs).2 =
      ⟨committee.stakeSum ((firstArrivals Prod.fst pairs).map Prod.fst),
        firstArrivals Prod.fst pairs, (firstArrivals Prod.fst pairs).map Prod.fst⟩ := by
  induction pairs using List.reverseRecOn with
  | nil => rfl
  | append_singleton pairs pair ih =>
      rw [runSteps_append_singleton, ih]
      by_cases h : pair.1 ∈ pairs.map Prod.fst
      · have hused := (mem_map_firstArrivals Prod.fst pairs pair.1).mpr h
        rw [append_of_mem _ _ hused, firstArrivals_append_singleton_of_mem _ h]
      · have hused := mt (mem_map_firstArrivals Prod.fst pairs pair.1).mp h
        rw [append_of_not_mem _ _ hused, firstArrivals_append_singleton_of_not_mem _ h]
        simp

theorem weight_add_stake_le_totalStake (committee : Committee)
    (pairs : List (PublicKey × Signature)) {author : PublicKey}
    (h : author ∉ (runSteps (fun s pair => s.append pair.1 pair.2 committee) new pairs).2.used) :
    (runSteps (fun s pair => s.append pair.1 pair.2 committee) new pairs).2.weight +
      committee.stake author ≤ committee.totalStake := by
  rw [runSteps_append] at h ⊢
  rw [← Committee.stakeSum_append_singleton]
  exact committee.stakeSum_le_totalStake (List.Nodup.append (nodup_map_firstArrivals _ _)
    (List.nodup_singleton _) (List.disjoint_singleton.mpr h))

theorem append_after_runSteps (committee : Committee) (pairs : List (PublicKey × Signature))
    (author : PublicKey) (signature : Signature) :
    let before := (runSteps (fun s pair => s.append pair.1 pair.2 committee) new pairs).2
    let accepted := firstArrivals Prod.fst (pairs ++ [(author, signature)])
    (author ∈ pairs.map Prod.fst →
      before.append author signature committee =
        (.error (.authorityReuse author), before)) ∧
    (author ∉ pairs.map Prod.fst →
      (before.append author signature committee).1 =
        if committee.quorumThreshold ≤ committee.stakeSum (accepted.map Prod.fst) then
          .ok (some accepted) else .ok none) ∧
    (before.append author signature committee).2.weight =
      committee.stakeSum (accepted.map Prod.fst) := by
  intro before accepted
  have hbefore : before = _ := runSteps_append committee pairs
  by_cases h : author ∈ pairs.map Prod.fst
  · have hused : author ∈ before.used := by
      rw [hbefore]
      exact (mem_map_firstArrivals Prod.fst pairs author).mpr h
    have haccepted : accepted = firstArrivals Prod.fst pairs :=
      firstArrivals_append_singleton_of_mem Prod.fst h
    refine ⟨fun _ => append_of_mem _ _ hused, fun hn => absurd h hn, ?_⟩
    rw [append_of_mem _ _ hused, haccepted, hbefore]
  · have hused : author ∉ before.used := by
      rw [hbefore]
      exact mt (mem_map_firstArrivals Prod.fst pairs author).mp h
    have haccepted : accepted = firstArrivals Prod.fst pairs ++ [(author, signature)] :=
      firstArrivals_append_singleton_of_not_mem Prod.fst h
    refine ⟨fun hm => absurd hm h, fun _ => ?_, ?_⟩ <;>
      rw [append_of_not_mem _ _ hused, haccepted, hbefore] <;> simp

/-- An aggregator of the family: it reads the author and signature off its message
`msg` and builds its certificate from `msg` and the pairs with `mk`. -/
def appendMessage {Msg Cert : Type} (author : Msg → PublicKey) (signature : Msg → Signature)
    (mk : Msg → List (PublicKey × Signature) → Cert) (self : SignatureAggregator) (msg : Msg)
    (committee : Committee) : DagResult (Option Cert) × SignatureAggregator :=
  let call := self.append (author msg) (signature msg) committee
  (call.1.map (Option.map (mk msg)), call.2)

/-- The common body of the two aggregators, over every stream of messages from `new`. -/
theorem appendMessage_after_runSteps {Msg Cert : Type} (author : Msg → PublicKey)
    (signature : Msg → Signature) (mk : Msg → List (PublicKey × Signature) → Cert)
    (committee : Committee) (msgs : List Msg) (msg : Msg) :
    let before := (runSteps (fun s m => appendMessage author signature mk s m committee)
      new msgs).2
    let call := appendMessage author signature mk before msg committee
    let accepted := firstArrivals Prod.fst
      ((msgs ++ [msg]).map fun m => (author m, signature m))
    (author msg ∈ msgs.map author →
      call = (.error (.authorityReuse (author msg)), before)) ∧
    (author msg ∉ msgs.map author →
      (call.1 = .ok none ∧
          committee.stakeSum (accepted.map Prod.fst) < committee.quorumThreshold) ∨
        (call.1 = .ok (some (mk msg accepted)) ∧ (accepted.map Prod.fst).Nodup ∧
          committee.quorumThreshold ≤ committee.stakeSum (accepted.map Prod.fst))) ∧
    call.2.weight = committee.stakeSum (accepted.map Prod.fst) ∧
    call.2.weight ≤ committee.totalStake := by
  intro before call accepted
  have hbefore : before = (runSteps (fun s pair => s.append pair.1 pair.2 committee) new
      (msgs.map fun m => (author m, signature m))).2 := by
    exact runSteps_snd_map (fun s pair => s.append pair.1 pair.2 committee)
      (fun s m => appendMessage author signature mk s m committee)
      (fun m => (author m, signature m)) (fun _ _ => rfl) new msgs
  have haccepted : accepted = firstArrivals Prod.fst
      ((msgs.map fun m => (author m, signature m)) ++ [(author msg, signature msg)]) := by
    simp [accepted]
  have hmem : author msg ∈ msgs.map author ↔
      author msg ∈ (msgs.map fun m => (author m, signature m)).map Prod.fst := by
    simp
  obtain ⟨hdup, hnew, hweight⟩ := append_after_runSteps committee
    (msgs.map fun m => (author m, signature m)) (author msg) (signature msg)
  rw [← hbefore] at hdup hnew hweight
  rw [← haccepted] at hnew hweight
  have hnodup : (accepted.map Prod.fst).Nodup := nodup_map_firstArrivals _ _
  refine ⟨fun h => ?_, fun h => ?_, hweight,
    hweight ▸ committee.stakeSum_le_totalStake hnodup⟩
  · show (_, _) = _
    rw [hdup (hmem.mp h)]
    rfl
  · have hcall : call.1 = ((before.append (author msg) (signature msg) committee).1).map
        (Option.map (mk msg)) := rfl
    rw [hcall, hnew (mt hmem.mpr h)]
    by_cases hq : committee.quorumThreshold ≤ committee.stakeSum (accepted.map Prod.fst)
    · rw [if_pos hq]
      exact .inr ⟨rfl, hnodup, hq⟩
    · rw [if_neg hq]
      exact .inl ⟨rfl, Nat.lt_of_not_le hq⟩

end SignatureAggregator

def TimeoutAggregator.new : TimeoutAggregator := SignatureAggregator.new

def TimeoutAggregator.append (self : TimeoutAggregator) (timeout : Timeout)
    (committee : Committee) :
    DagResult (Option (TimeoutCert (PublicKey × Signature))) × TimeoutAggregator :=
  SignatureAggregator.appendMessage Timeout.author Timeout.signature
    (fun timeout timeouts => ⟨timeout.round, timeouts⟩) self timeout committee

def NoVoteAggregator.new : NoVoteAggregator := SignatureAggregator.new

def NoVoteAggregator.append (self : NoVoteAggregator) (noVoteMsg : NoVoteMsg)
    (committee : Committee) :
    DagResult (Option (NoVoteCert (PublicKey × Signature))) × NoVoteAggregator :=
  SignatureAggregator.appendMessage NoVoteMsg.author NoVoteMsg.signature
    (fun noVoteMsg noVotes => ⟨noVoteMsg.round, noVotes⟩) self noVoteMsg committee

theorem timeout_noVote_aggregators_certify_quorum (committee : Committee) :
    (∀ (timeouts : List Timeout) (timeout : Timeout),
      let before := (runSteps (fun s t => TimeoutAggregator.append s t committee)
        TimeoutAggregator.new timeouts).2
      let call := TimeoutAggregator.append before timeout committee
      let accepted := firstArrivals Prod.fst
        ((timeouts ++ [timeout]).map fun t => (t.author, t.signature))
      (timeout.author ∈ timeouts.map Timeout.author →
        call = (.error (.authorityReuse timeout.author), before)) ∧
      (timeout.author ∉ timeouts.map Timeout.author →
        (call.1 = .ok none ∧
            committee.stakeSum (accepted.map Prod.fst) < committee.quorumThreshold) ∨
          (call.1 = .ok (some ⟨timeout.round, accepted⟩) ∧ (accepted.map Prod.fst).Nodup ∧
            committee.quorumThreshold ≤ committee.stakeSum (accepted.map Prod.fst))) ∧
      call.2.weight = committee.stakeSum (accepted.map Prod.fst) ∧
      call.2.weight ≤ committee.totalStake) ∧
    (∀ (noVotes : List NoVoteMsg) (noVoteMsg : NoVoteMsg),
      let before := (runSteps (fun s m => NoVoteAggregator.append s m committee)
        NoVoteAggregator.new noVotes).2
      let call := NoVoteAggregator.append before noVoteMsg committee
      let accepted := firstArrivals Prod.fst
        ((noVotes ++ [noVoteMsg]).map fun m => (m.author, m.signature))
      (noVoteMsg.author ∈ noVotes.map NoVoteMsg.author →
        call = (.error (.authorityReuse noVoteMsg.author), before)) ∧
      (noVoteMsg.author ∉ noVotes.map NoVoteMsg.author →
        (call.1 = .ok none ∧
            committee.stakeSum (accepted.map Prod.fst) < committee.quorumThreshold) ∨
          (call.1 = .ok (some ⟨noVoteMsg.round, accepted⟩) ∧ (accepted.map Prod.fst).Nodup ∧
            committee.quorumThreshold ≤ committee.stakeSum (accepted.map Prod.fst))) ∧
      call.2.weight = committee.stakeSum (accepted.map Prod.fst) ∧
      call.2.weight ≤ committee.totalStake) :=
  ⟨fun _ _ => SignatureAggregator.appendMessage_after_runSteps _ _ _ committee _ _,
    fun _ _ => SignatureAggregator.appendMessage_after_runSteps _ _ _ committee _ _⟩

end Sailfish
