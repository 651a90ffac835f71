import Sailfish.Crypto

/-!
# Committee and clans

The `config` crate is not part of the repository; the primary uses it through
`Committee::stake`, `quorum_threshold`, `leader_list`, `get_bls_public_g2`,
`get_bls_public_keys` and `Clan::{is_member, stake, validity_threshold}`.  Following the
specification, a committee maps each authority to its stake, clan and BLS key, and a clan
is the part of the committee that shares one `clan_id`.  The quorum threshold and the
leader schedule are left as parameters of the committee: the specification only fixes
that the schedule is deterministic, and its formula for the threshold disagrees with its
own scenario S1, so every result below holds for each choice.

Stakes are summed as natural numbers, while `Stake` is `u32` in the code.  A list of
distinct authorities carries at most the committee's total stake; `Aggregators/VotesRun`
derives from it that no weight an aggregator adds up wraps when the total fits in `u32`.
-/

namespace Sailfish

/-- `config::Stake`. -/
abbrev Stake := Nat

/-- Modelled from the spec: what the committee records for one authority. -/
structure Authority where
  stake : Stake
  clanId : Nat
  blsPubkeyG2 : PublicKeyShareG2

/-- The stake an authority table gives `name`: its entry's stake, or 0 outside it. -/
def lookupStake (authorities : List (PublicKey × Authority)) (name : PublicKey) : Stake :=
  match authorities.lookup name with
  | some authority => authority.stake
  | none => 0

/-- The total stake of an authority table. -/
def tableStake (authorities : List (PublicKey × Authority)) : Stake :=
  (authorities.map fun entry => entry.2.stake).sum

/-- Modelled from the spec: `config::Committee`, with its threshold and leader schedule
as parameters. -/
structure Committee where
  authorities : List (PublicKey × Authority)
  quorumThreshold : Stake
  leaderList : Nat → Nat → List PublicKey

namespace Committee

def stake (self : Committee) (name : PublicKey) : Stake :=
  lookupStake self.authorities name

def totalStake (self : Committee) : Stake :=
  tableStake self.authorities

/-- Modelled from the spec: the key of an authority; outside the committee the default
key. -/
def getBlsPublicG2 (self : Committee) (name : PublicKey) : PublicKeyShareG2 :=
  match self.authorities.lookup name with
  | some authority => authority.blsPubkeyG2
  | none => default

def getBlsPublicKeys (self : Committee) : List PublicKeyShareG2 :=
  self.authorities.map fun entry => entry.2.blsPubkeyG2

def IsMember (self : Committee) (name : PublicKey) : Prop :=
  name ∈ self.authorities.map Prod.fst

instance (self : Committee) (name : PublicKey) : Decidable (self.IsMember name) :=
  inferInstanceAs (Decidable (name ∈ self.authorities.map Prod.fst))

/-- The stake of a list of authorities. -/
def stakeSum (self : Committee) (names : List PublicKey) : Stake :=
  (names.map self.stake).sum

end Committee

/-- Modelled from the spec: `config::Clan`, the authorities of one `clan_id`. -/
structure Clan where
  authorities : List (PublicKey × Authority)

namespace Clan

/-- Modelled from the spec: the clan of `clanId`, cut out of the committee; `main` builds
the node's clan this way. -/
def createClanFromCommittee (committee : Committee) (clanId : Nat) : Clan :=
  ⟨committee.authorities.filter fun entry => entry.2.clanId = clanId⟩

def isMember (self : Clan) (name : PublicKey) : Bool :=
  (self.authorities.lookup name).isSome

def stake (self : Clan) (name : PublicKey) : Stake :=
  lookupStake self.authorities name

def totalStake (self : Clan) : Stake :=
  tableStake self.authorities

/-- `V_clan = ⌊T_clan / 3⌋ + 1`. -/
def validityThreshold (self : Clan) : Stake :=
  self.totalStake / 3 + 1

/-- The clan stake of a list of authorities; non-members add nothing. -/
def stakeSum (self : Clan) (names : List PublicKey) : Stake :=
  (names.map self.stake).sum

end Clan

/-!
## Stake sums

A list of distinct authorities never carries more stake than the table: each entry of
the table pays for at most one of them.
-/

@[simp] theorem lookupStake_nil : lookupStake [] = fun _ => 0 := rfl

@[simp] theorem lookupStake_cons_self (key : PublicKey) (authority : Authority)
    (rest : List (PublicKey × Authority)) :
    lookupStake ((key, authority) :: rest) key = authority.stake := by
  simp [lookupStake]

theorem lookupStake_cons_of_ne {key name : PublicKey} (authority : Authority)
    (rest : List (PublicKey × Authority)) (h : name ≠ key) :
    lookupStake ((key, authority) :: rest) name = lookupStake rest name := by
  have hbeq : (name == key) = false := by simpa using h
  simp [lookupStake, List.lookup_cons, hbeq]

theorem lookupStake_eq_zero_of_lookup_eq_none {authorities : List (PublicKey × Authority)}
    {name : PublicKey} (h : authorities.lookup name = none) :
    lookupStake authorities name = 0 := by
  simp [lookupStake, h]

/-- Summing over names that avoid `key` does not see `key`'s entry. -/
theorem sum_lookupStake_cons_of_not_mem {key : PublicKey} (authority : Authority)
    (rest : List (PublicKey × Authority)) {names : List PublicKey} (h : key ∉ names) :
    (names.map (lookupStake ((key, authority) :: rest))).sum =
      (names.map (lookupStake rest)).sum := by
  congr 1
  exact List.map_congr_left fun name hname =>
    lookupStake_cons_of_ne authority rest fun heq => h (heq ▸ hname)

theorem sum_lookupStake_le (authorities : List (PublicKey × Authority)) :
    ∀ {names : List PublicKey}, names.Nodup →
      (names.map (lookupStake authorities)).sum ≤ tableStake authorities := by
  induction authorities with
  | nil =>
      intro names _
      simp [tableStake]
  | cons entry rest ih =>
      intro names hnodup
      obtain ⟨key, authority⟩ := entry
      have htable : tableStake ((key, authority) :: rest) =
          authority.stake + tableStake rest := by
        simp [tableStake]
      rw [htable]
      by_cases hkey : key ∈ names
      · have hperm := (List.perm_cons_erase hkey).map (lookupStake ((key, authority) :: rest))
        rw [hperm.sum_eq, List.map_cons, List.sum_cons, lookupStake_cons_self,
          sum_lookupStake_cons_of_not_mem authority rest (hnodup.not_mem_erase)]
        exact Nat.add_le_add_left (ih (hnodup.erase key)) _
      · rw [sum_lookupStake_cons_of_not_mem authority rest hkey]
        exact le_add_left (ih hnodup)

namespace Committee

@[simp] theorem stakeSum_nil (self : Committee) : self.stakeSum [] = 0 := rfl

@[simp] theorem stakeSum_append_singleton (self : Committee) (names : List PublicKey)
    (name : PublicKey) :
    self.stakeSum (names ++ [name]) = self.stakeSum names + self.stake name := by
  simp [stakeSum]

theorem stakeSum_le_totalStake (self : Committee) {names : List PublicKey}
    (h : names.Nodup) : self.stakeSum names ≤ self.totalStake :=
  sum_lookupStake_le self.authorities h

end Committee

namespace Clan

@[simp] theorem stakeSum_nil (self : Clan) : self.stakeSum [] = 0 := rfl

@[simp] theorem stakeSum_append_singleton (self : Clan) (names : List PublicKey)
    (name : PublicKey) :
    self.stakeSum (names ++ [name]) = self.stakeSum names + self.stake name := by
  simp [stakeSum]

theorem stake_eq_zero_of_not_isMember {self : Clan} {name : PublicKey}
    (h : self.isMember name = false) : self.stake name = 0 :=
  lookupStake_eq_zero_of_lookup_eq_none (by simpa [isMember] using h)

theorem stakeSum_le_totalStake (self : Clan) {names : List PublicKey}
    (h : names.Nodup) : self.stakeSum names ≤ self.totalStake :=
  sum_lookupStake_le self.authorities h

theorem totalStake_createClanFromCommittee_le (committee : Committee) (clanId : Nat) :
    (createClanFromCommittee committee clanId).totalStake ≤ committee.totalStake := by
  unfold totalStake Committee.totalStake createClanFromCommittee tableStake
  exact ((List.filter_sublist _).map _).sum_le_sum fun _ _ => Nat.zero_le _

end Clan

end Sailfish
