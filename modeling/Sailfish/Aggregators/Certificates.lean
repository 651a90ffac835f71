import Sailfish.Messages

/-!
# The certificates aggregator

`CertificatesAggregator::append` collects the certificates of one round, one per
origin, and hands the collected batch on once every leader of the round has contributed
and the contributors' stake reaches the quorum threshold.  The reset of the weight is
commented out in the code, so the weight and the origins seen keep growing and every
later new origin yields a batch of its own: the batches returned over a run, followed by
the certificates still pending, are exactly the first certificate of each origin, in
arrival order.
-/

namespace Sailfish

structure CertificatesAggregator where
  weight : Stake
  certificates : List Certificate
  used : List PublicKey

namespace CertificatesAggregator

def new : CertificatesAggregator := ⟨0, [], []⟩

def append (self : CertificatesAggregator) (certificate : Certificate) (committee : Committee)
    (leadersPerRound : Nat) : DagResult (Option (List Certificate)) × CertificatesAggregator :=
  let origin := certificate.origin
  if origin ∈ self.used then (.ok none, self)
  else
    let next : CertificatesAggregator :=
      ⟨self.weight + committee.stake origin, self.certificates ++ [certificate],
        self.used ++ [origin]⟩
    let leaders := committee.leaderList leadersPerRound certificate.round.toNat
    if leaders.all (· ∈ next.used) then
      if committee.quorumThreshold ≤ next.weight then
        (.ok (some next.certificates), { next with certificates := [] })
      else (.ok none, next)
    else (.ok none, next)

/-- The certificates a call handed on. -/
def batch : DagResult (Option (List Certificate)) → List Certificate
  | .ok (some certificates) => certificates
  | _ => []

theorem append_of_mem {self : CertificatesAggregator} {certificate : Certificate}
    (committee : Committee) (leadersPerRound : Nat) (h : certificate.origin ∈ self.used) :
    self.append certificate committee leadersPerRound = (.ok none, self) := by
  simp [append, h]

theorem append_of_not_mem {self : CertificatesAggregator} {certificate : Certificate}
    (committee : Committee) (leadersPerRound : Nat) (h : certificate.origin ∉ self.used) :
    self.append certificate committee leadersPerRound =
      if (∀ leader ∈ committee.leaderList leadersPerRound certificate.round.toNat,
            leader ∈ self.used ++ [certificate.origin]) ∧
          committee.quorumThreshold ≤ self.weight + committee.stake certificate.origin then
        (.ok (some (self.certificates ++ [certificate])),
          ⟨self.weight + committee.stake certificate.origin, [],
            self.used ++ [certificate.origin]⟩)
      else
        (.ok none, ⟨self.weight + committee.stake certificate.origin,
          self.certificates ++ [certificate], self.used ++ [certificate.origin]⟩) := by
  simp only [append, h, if_false, List.all_eq_true, decide_eq_true_eq]
  split_ifs <;> simp_all

theorem runSteps_append (committee : Committee) (leadersPerRound : Nat)
    (certificates : List Certificate) :
    let run := runSteps (fun s c => s.append c committee leadersPerRound) new certificates
    run.2.used = (firstArrivals Certificate.origin certificates).map Certificate.origin ∧
    run.2.weight = committee.stakeSum run.2.used ∧
    run.1.flatMap batch ++ run.2.certificates = firstArrivals Certificate.origin certificates := by
  induction certificates using List.reverseRecOn with
  | nil => simp [new, batch]
  | append_singleton certificates certificate ih =>
      simp only [runSteps_append_singleton]
      generalize runSteps (fun s c => s.append c committee leadersPerRound) new certificates
        = run at ih ⊢
      obtain ⟨hused, hweight, hbatches⟩ := ih
      by_cases h : certificate.origin ∈ certificates.map Certificate.origin
      · have hmem : certificate.origin ∈ run.2.used :=
          hused ▸ (mem_map_firstArrivals _ _ _).mpr h
        rw [append_of_mem _ _ hmem, firstArrivals_append_singleton_of_mem _ h]
        simpa [batch] using ⟨hused, hweight, hbatches⟩
      · have hmem : certificate.origin ∉ run.2.used :=
          hused ▸ mt (mem_map_firstArrivals _ _ _).mp h
        rw [append_of_not_mem _ _ hmem, firstArrivals_append_singleton_of_not_mem _ h]
        split_ifs <;> refine ⟨by simp [hused], by simp [hweight], ?_⟩ <;>
          simp [batch, ← hbatches]

theorem weight_add_stake_le_totalStake (committee : Committee) (leadersPerRound : Nat)
    (certificates : List Certificate) {origin : PublicKey}
    (h : origin ∉ (runSteps (fun s c => s.append c committee leadersPerRound) new
      certificates).2.used) :
    (runSteps (fun s c => s.append c committee leadersPerRound) new certificates).2.weight +
      committee.stake origin ≤ committee.totalStake := by
  obtain ⟨hused, hweight, -⟩ := runSteps_append committee leadersPerRound certificates
  rw [hweight, ← Committee.stakeSum_append_singleton]
  refine committee.stakeSum_le_totalStake (List.Nodup.append ?_ (List.nodup_singleton _)
    (List.disjoint_singleton.mpr h))
  rw [hused]
  exact nodup_map_firstArrivals _ _

theorem certificatesAggregator_batches_first_arrivals (committee : Committee)
    (leadersPerRound : Nat) :
    (∀ (certificates : List Certificate) (certificate : Certificate),
      let before := (runSteps (fun s c => s.append c committee leadersPerRound) new
        certificates).2
      let call := before.append certificate committee leadersPerRound
      let origins := (firstArrivals Certificate.origin (certificates ++ [certificate])).map
        Certificate.origin
      (certificate.origin ∈ certificates.map Certificate.origin → call = (.ok none, before)) ∧
      (certificate.origin ∉ certificates.map Certificate.origin →
        ((∃ batch, call.1 = .ok (some batch)) ↔
          (∀ leader ∈ committee.leaderList leadersPerRound certificate.round.toNat,
            leader ∈ origins) ∧ committee.quorumThreshold ≤ committee.stakeSum origins) ∧
        (call.1 = .ok none ∨ ∃ batch, call.1 = .ok (some batch)))) ∧
    (∀ certificates : List Certificate,
      let run := runSteps (fun s c => s.append c committee leadersPerRound) new certificates
      run.1.flatMap batch ++ run.2.certificates =
        firstArrivals Certificate.origin certificates) := by
  refine ⟨fun certificates certificate => ?_, fun certificates =>
    (runSteps_append committee leadersPerRound certificates).2.2⟩
  intro before call origins
  obtain ⟨hused, hweight, -⟩ : before.used = _ ∧ before.weight = _ ∧ _ :=
    runSteps_append committee leadersPerRound certificates
  refine ⟨fun h => append_of_mem _ _ (hused ▸ (mem_map_firstArrivals _ _ _).mpr h),
    fun h => ?_⟩
  have hnot : certificate.origin ∉ before.used :=
    hused ▸ mt (mem_map_firstArrivals _ _ _).mp h
  have horigins : origins = before.used ++ [certificate.origin] := by
    simp [origins, firstArrivals_append_singleton_of_not_mem _ h, hused]
  have hstake : committee.stakeSum (before.used ++ [certificate.origin]) =
      before.weight + committee.stake certificate.origin := by
    rw [Committee.stakeSum_append_singleton, ← hweight]
  simp only [call, append_of_not_mem _ _ hnot, horigins, hstake]
  split_ifs with hcond
  · exact ⟨⟨fun _ => hcond, fun _ => ⟨_, rfl⟩⟩, .inr ⟨_, rfl⟩⟩
  · exact ⟨⟨fun ⟨_, hbatch⟩ => by simp at hbatch, fun hc => absurd hc hcond⟩, .inl rfl⟩

end CertificatesAggregator

end Sailfish
