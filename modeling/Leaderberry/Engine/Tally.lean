import Leaderberry.Engine.VoteSet

/-!
# Vote accounting

What `AddVote` does to a `VoteSet`, and the invariant it keeps.

- `VoteSet.addVote_eq_store` / `VoteSet.addVote_rejected`: a vote is either
  verified, new and stored, or it changes nothing. Every later proof uses these
  two and never unfolds the checks again.
- `VoteSet.Inv`: stored votes are verified votes, one per validator; `sum` and
  the per-block totals are the power of the voters they count; `maj23` is set
  exactly when some block has a quorum.
- `VoteSet.majority_quorum`: a 2/3+ majority is a quorum of verified voters for
  the same key.
-/

namespace Leaderberry

theorem GoMap.lookup_insert_eq {K V : Type} [DecidableEq K] (m : GoMap K V) (k k' : K)
    (v : V) : (m.insert k v).lookup k' = if k' = k then some v else m.lookup k' := by
  by_cases h : k' = k
  · subst h
    rw [if_pos rfl]
    exact AList.lookup_insert m
  · rw [if_neg h]
    exact AList.lookup_insert_ne h

namespace VoteSet

variable {vs : VoteSet} {i : Nat} {vote : Vote} {val : NamedValidator} {hash : Option Hash}

section

variable [Externals]

/-- The vote passes every check of `AddVote` that does not depend on the clock
or on the votes already stored; `val` is its signer. -/
structure Verified (vs : VoteSet) (vote : Vote) (val : NamedValidator) : Prop where
  height : vote.height = vs.height
  round : vote.round = vs.round
  type : vote.type = vs.voteType
  found : vs.validatorSet.getByIndex vote.validatorIndex = some val
  name : val.name = vote.validator
  signature : verifySignature val.publicKey (voteSignBytes vs.chainID vote)
    vote.signature = true

theorem addVoteInternal_cases (vs : VoteSet) (vote : Vote) :
    ((vs.addVoteInternal vote).1 ≠ .ok true ∧ (vs.addVoteInternal vote).2 = vs) ∨
    ∃ val, vs.validatorSet.getByIndex vote.validatorIndex = some val ∧
      val.name = vote.validator ∧
      verifySignature val.publicKey (voteSignBytes vs.chainID vote) vote.signature = true ∧
      vs.votes.lookup vote.validatorIndex = none ∧
      vs.addVoteInternal vote = (.ok true, vs.store val vote) := by
  unfold addVoteInternal
  split
  · exact .inl ⟨by simp, rfl⟩
  · rename_i val hval
    split
    · exact .inl ⟨by simp, rfl⟩
    · split
      · exact .inl ⟨by simp, rfl⟩
      · rename_i hname hsig
        split
        · split <;> exact .inl ⟨by simp, rfl⟩
        · rename_i hnone
          split
          · exact .inl ⟨by simp, rfl⟩
          · split
            · exact .inl ⟨by simp, rfl⟩
            · exact .inr ⟨val, hval, not_not.mp hname, by simpa using hsig, hnone, rfl⟩

omit [Externals] in
theorem matchesSet_iff (vs : VoteSet) (vote : Vote) :
    vs.matchesSet vote = true ↔
      vote.height = vs.height ∧ vote.round = vs.round ∧ vote.type = vs.voteType := by
  simp [matchesSet, and_assoc]

/-- A vote that is not reported as added changes nothing. -/
theorem addVote_rejected {vs : VoteSet} {g : Nat} {now : Int} {vote : Vote}
    (h : (vs.addVote g now vote).1 ≠ .ok true) : (vs.addVote g now vote).2 = vs := by
  unfold addVote at h ⊢
  split
  · rfl
  split
  · rfl
  split
  · rfl
  split
  · rfl
  rename_i h₁ h₂ h₃ h₄
  rw [if_neg h₁, if_neg h₂, if_neg h₃, if_neg h₄] at h
  rcases vs.addVoteInternal_cases vote with ⟨-, heq⟩ | ⟨val, -, -, -, -, heq⟩
  · exact heq
  · exact absurd (by rw [heq]) h

/-- A vote that is reported as added is verified, new and stored. -/
theorem addVote_eq_store {vs : VoteSet} {g : Nat} {now : Int} {vote : Vote}
    (h : (vs.addVote g now vote).1 = .ok true) :
    ∃ val, vs.Verified vote val ∧ vs.votes.lookup vote.validatorIndex = none ∧
      (vs.addVote g now vote).2 = vs.store val vote := by
  unfold addVote at h ⊢
  split at h
  · cases h
  split at h
  · cases h
  split at h
  · cases h
  split at h
  · cases h
  rename_i h₁ h₂ h₃ h₄
  rw [if_neg h₁, if_neg h₂, if_neg h₃, if_neg h₄]
  rcases vs.addVoteInternal_cases vote with ⟨hne, -⟩ | ⟨val, hval, hname, hsig, hnone, heq⟩
  · exact absurd h hne
  · obtain ⟨hh, hr, ht⟩ := (vs.matchesSet_iff vote).mp (by simpa using h₂)
    exact ⟨val, ⟨hh, hr, ht, hval, hname, hsig⟩, hnone, by rw [heq]⟩

end

/-! ## Voters and totals -/

/-- The validators with a stored vote. -/
def voters (vs : VoteSet) : Finset Nat := vs.votes.keys.toFinset

/-- The key of the block a validator's stored vote is for. -/
def votedKey (vs : VoteSet) (i : Nat) : Option BlockKey :=
  (vs.votes.lookup i).map fun vote => blockHashKey vote.blockHash

/-- The validators whose stored vote is for a key. -/
def votersFor (vs : VoteSet) (key : BlockKey) : Finset Nat :=
  vs.voters.filter fun i => vs.votedKey i = some key

/-- The power recorded for a key. -/
def tally (vs : VoteSet) (key : BlockKey) : Int :=
  ((vs.votesByBlock.lookup key).map BlockVotes.totalPower).getD 0

theorem mem_voters : i ∈ vs.voters ↔ (vs.votes.lookup i).isSome := by
  rw [voters, List.mem_toFinset, AList.lookup_isSome, AList.mem_keys]

theorem mem_votersFor {key : BlockKey} :
    i ∈ vs.votersFor key ↔ ∃ vote, vs.votes.lookup i = some vote ∧
      blockHashKey vote.blockHash = key := by
  rw [votersFor, Finset.mem_filter, mem_voters, votedKey]
  cases vs.votes.lookup i <;> simp

theorem votersFor_subset_voters (vs : VoteSet) (key : BlockKey) :
    vs.votersFor key ⊆ vs.voters :=
  Finset.filter_subset _ _

@[simp] theorem blockVotes_totalPower (vs : VoteSet) (hash : Option Hash) :
    (vs.blockVotes hash).totalPower = vs.tally (blockHashKey hash) := by
  unfold blockVotes tally
  cases vs.votesByBlock.lookup (blockHashKey hash) <;> rfl

section store

variable (vs : VoteSet) (val : NamedValidator) (vote : Vote)

theorem lookup_store (i : Nat) : (vs.store val vote).votes.lookup i =
    if i = vote.validatorIndex then some vote else vs.votes.lookup i :=
  GoMap.lookup_insert_eq ..

theorem tally_store (key : BlockKey) : (vs.store val vote).tally key =
    if key = blockHashKey vote.blockHash then vs.tally key + val.votingPower
    else vs.tally key := by
  show ((AList.lookup key (AList.insert _ _ vs.votesByBlock)).map _).getD 0 = _
  rw [GoMap.lookup_insert_eq]
  split
  · rename_i h
    simp [h]
  · rfl

variable {vs vote}

theorem voters_store : (vs.store val vote).voters = insert vote.validatorIndex vs.voters := by
  ext i
  rw [mem_voters, lookup_store, Finset.mem_insert, mem_voters]
  split <;> simp_all

theorem votersFor_store (h : vs.votes.lookup vote.validatorIndex = none) (key : BlockKey) :
    (vs.store val vote).votersFor key =
      if key = blockHashKey vote.blockHash then insert vote.validatorIndex (vs.votersFor key)
      else vs.votersFor key := by
  ext i
  rw [mem_votersFor, lookup_store]
  by_cases hi : i = vote.validatorIndex
  · subst hi
    by_cases hkey : key = blockHashKey vote.blockHash
    · simp [hkey]
    · simp [hkey, mem_votersFor, h, Ne.symm hkey]
  · by_cases hkey : key = blockHashKey vote.blockHash
    · simp [hkey, hi, mem_votersFor]
    · simp [hkey, hi, mem_votersFor]

end store

theorem mem_getVotes :
    vote ∈ vs.getVotes ↔ ∃ i, vs.votes.lookup i = some vote := by
  unfold getVotes
  rw [List.mem_insertionSort, List.mem_map]
  constructor
  · rintro ⟨⟨i, v⟩, hmem, rfl⟩
    exact ⟨i, AList.mem_lookup_iff.mpr hmem⟩
  · rintro ⟨i, hi⟩
    exact ⟨⟨i, vote⟩, AList.mem_lookup_iff.mp hi, rfl⟩

/-! ## The invariant -/

variable [Externals]

/-- The accounting invariant of a `VoteSet`. -/
structure Inv (vs : VoteSet) : Prop where
  wf : vs.validatorSet.Wf
  verified : ∀ i vote, vs.votes.lookup i = some vote →
    vote.validatorIndex = i ∧ ∃ val, vs.Verified vote val
  sum_eq : vs.sum = wf.electorate.power vs.voters
  tally_eq : ∀ key, vs.tally key = wf.electorate.power (vs.votersFor key)
  key_eq : ∀ key bv, vs.votesByBlock.lookup key = some bv → blockHashKey bv.blockHash = key
  maj_some : ∀ key, vs.maj23 = some key →
    vs.validatorSet.twoThirdsMajority ≤ vs.tally key
  maj_none : vs.maj23 = none →
    ∀ key, vs.tally key < vs.validatorSet.twoThirdsMajority

theorem inv_new {chainID : GoString} {height round : Int} {t : VoteType}
    {validatorSet : ValidatorSet} {g : Option Nat} (h : validatorSet.Wf) :
    (VoteSet.new chainID height round t validatorSet g).Inv where
  wf := h
  verified := by
    intro i vote hv
    simp [VoteSet.new] at hv
  sum_eq := rfl
  tally_eq := fun _ => rfl
  key_eq := by
    intro key bv hbv
    simp [VoteSet.new] at hbv
  maj_some := by
    intro key hkey
    simp [VoteSet.new] at hkey
  maj_none := by
    intro _ key
    have hpos := h.totalPower_pos
    by_contra hge
    have hge : validatorSet.twoThirdsMajority ≤ 0 := not_lt.mp hge
    rw [ValidatorSet.twoThirdsMajority_le_iff hpos] at hge
    omega

namespace Inv

variable (h : vs.Inv)

include h

theorem mem_members (hi : i ∈ vs.voters) : i ∈ h.wf.electorate.members := by
  obtain ⟨vote, hvote⟩ := Option.isSome_iff_exists.mp (mem_voters.mp hi)
  obtain ⟨rfl, val, hval⟩ := h.verified i vote hvote
  exact Finset.mem_range.mpr (h.wf.lt_of_getByIndex hval.found)

theorem voters_subset : vs.voters ⊆ h.wf.electorate.members :=
  fun _ hi => h.mem_members hi

/-- No total of a vote set exceeds the total power of the validators. -/
theorem sum_le : vs.sum ≤ vs.validatorSet.totalPower := by
  rw [h.sum_eq, ← h.wf.total_electorate]
  exact Electorate.power_mono h.voters_subset

theorem tally_le (key : BlockKey) : vs.tally key ≤ vs.validatorSet.totalPower := by
  rw [h.tally_eq, ← h.wf.total_electorate]
  exact Electorate.power_mono ((vs.votersFor_subset_voters key).trans h.voters_subset)

theorem verified_store (hv : vs.Verified vote val) (i : Nat) (v : Vote)
    (hi : (vs.store val vote).votes.lookup i = some v) :
    v.validatorIndex = i ∧ ∃ w, (vs.store val vote).Verified v w := by
  rw [lookup_store] at hi
  split at hi
  · obtain rfl := Option.some_inj.mp hi
    exact ⟨by simp_all, val, ⟨hv.height, hv.round, hv.type, hv.found, hv.name, hv.signature⟩⟩
  · obtain ⟨hidx, w, hw⟩ := h.verified i v hi
    exact ⟨hidx, w, ⟨hw.height, hw.round, hw.type, hw.found, hw.name, hw.signature⟩⟩

theorem key_eq_store (key : BlockKey) (bv : BlockVotes)
    (hbv : (vs.store val vote).votesByBlock.lookup key = some bv) :
    blockHashKey bv.blockHash = key := by
  change AList.lookup key (AList.insert _ _ vs.votesByBlock) = some bv at hbv
  rw [GoMap.lookup_insert_eq] at hbv
  split at hbv
  · rename_i hkey
    obtain rfl := Option.some_inj.mp hbv
    show blockHashKey (vs.blockVotes vote.blockHash).blockHash = key
    unfold blockVotes
    cases hl : vs.votesByBlock.lookup (blockHashKey vote.blockHash) with
    | none => exact hkey.symm
    | some old => rw [hkey]; exact h.key_eq _ old hl
  · exact h.key_eq key bv hbv

/-- A majority that is recorded is one, before and after. -/
theorem maj_some_store (hnonneg : 0 ≤ val.votingPower) (key : BlockKey)
    (hmaj : (vs.store val vote).maj23 = some key) :
    vs.validatorSet.twoThirdsMajority ≤ (vs.store val vote).tally key := by
  rw [tally_store]
  change (if _ then _ else vs.maj23) = some key at hmaj
  split at hmaj
  · rename_i hq
    obtain rfl := Option.some_inj.mp hmaj
    rw [if_pos rfl]
    simpa using hq.1
  · have := h.maj_some key hmaj
    split <;> omega

/-- No majority goes unrecorded: only the block of the new vote can have got one. -/
theorem maj_none_store (hmaj : (vs.store val vote).maj23 = none) (key : BlockKey) :
    (vs.store val vote).tally key < vs.validatorSet.twoThirdsMajority := by
  change (if _ then _ else vs.maj23) = none at hmaj
  split at hmaj
  · cases hmaj
  · rename_i hq
    rw [tally_store]
    split
    · rename_i hkey
      by_contra hge
      refine hq ⟨?_, hmaj⟩
      simp only [blockVotes_totalPower, ← hkey]
      omega
    · exact h.maj_none hmaj key

/-- Storing a new verified vote keeps the accounting. -/
theorem store (hv : vs.Verified vote val) (hnone : vs.votes.lookup vote.validatorIndex = none) :
    (vs.store val vote).Inv := by
  have hpower : h.wf.electorate.weight vote.validatorIndex = val.votingPower :=
    ValidatorSet.power_of_getByIndex hv.found
  have hnew : vote.validatorIndex ∉ vs.voters := by simp [mem_voters, hnone]
  have hnonneg : 0 ≤ val.votingPower := by
    rw [← hpower]
    exact h.wf.electorate.weight_nonneg _
  refine { wf := h.wf, verified := h.verified_store hv, sum_eq := ?_, tally_eq := ?_,
           key_eq := h.key_eq_store, maj_some := h.maj_some_store hnonneg,
           maj_none := h.maj_none_store }
  · rw [voters_store]
    show vs.sum + val.votingPower = h.wf.electorate.power _
    rw [Electorate.power_insert hnew, hpower, h.sum_eq, add_comm]
  · intro key
    rw [tally_store, votersFor_store val hnone]
    show _ = h.wf.electorate.power _
    split
    · have hnew' : vote.validatorIndex ∉ vs.votersFor key :=
        fun hin => hnew (vs.votersFor_subset_voters key hin)
      rw [Electorate.power_insert hnew', hpower, h.tally_eq, add_comm]
    · exact h.tally_eq key

/-- Every total has room for the power of one more validator: the overflow checks pass. -/
theorem room (hfound : vs.validatorSet.getByIndex i = some val) (hash : Option Hash) :
    vs.sum ≤ maxInt64 - val.votingPower ∧
      (vs.blockVotes hash).totalPower ≤ maxInt64 - val.votingPower := by
  have hpower : val.votingPower ≤ maxTotalVotingPower := by
    have hmem : {i} ⊆ h.wf.electorate.members :=
      Finset.singleton_subset_iff.mpr (Finset.mem_range.mpr (h.wf.lt_of_getByIndex hfound))
    have hle : h.wf.electorate.power _ ≤ _ := Electorate.power_mono hmem
    rw [Electorate.power, Finset.sum_singleton] at hle
    change vs.validatorSet.power i ≤ h.wf.electorate.total at hle
    rw [ValidatorSet.power_of_getByIndex hfound, h.wf.total_electorate] at hle
    exact hle.trans h.wf.total_le
  have hsum := h.sum_le.trans h.wf.total_le
  have htally := (h.tally_le (blockHashKey hash)).trans h.wf.total_le
  rw [blockVotes_totalPower]
  simp only [maxTotalVotingPower, maxInt64] at hpower hsum htally ⊢
  omega

/-- A verified vote from a validator that has not voted yet is stored: the overflow
branches are dead. -/
theorem addVoteInternal_accepts (hv : vs.Verified vote val)
    (hnone : vs.votes.lookup vote.validatorIndex = none) :
    vs.addVoteInternal vote = (.ok true, vs.store val vote) := by
  obtain ⟨hsum, hblock⟩ := h.room hv.found vote.blockHash
  simp only [addVoteInternal, hv.found, hnone]
  rw [if_neg (by simp [hv.name]), if_neg (by simp [hv.signature]), if_neg (by omega),
    if_neg (by omega)]

/-- With an acceptable timestamp `AddVote` adds it. -/
theorem addVote_accepts {g : Nat} {now : Int} (hv : vs.Verified vote val)
    (hnone : vs.votes.lookup vote.validatorIndex = none) (hg : vs.isStale g = false)
    (hfuture : vote.timestamp ≤ now + maxTimestampDrift)
    (hpast : now - maxTimestampDrift ≤ vote.timestamp) :
    vs.addVote g now vote = (.ok true, vs.store val vote) := by
  have hmatch : vs.matchesSet vote = true :=
    (vs.matchesSet_iff vote).mpr ⟨hv.height, hv.round, hv.type⟩
  unfold VoteSet.addVote
  rw [if_neg (by simp [hg]), if_neg (by simp [hmatch]), if_neg (by omega), if_neg (by omega)]
  exact h.addVoteInternal_accepts hv hnone

/-! ## Majorities -/

/-- The key of a reported majority. -/
theorem key_of_majority (hmaj : vs.twoThirdsMajority = some hash) :
    vs.maj23 = some (blockHashKey hash) := by
  obtain ⟨key, hkey, rfl⟩ := Option.map_eq_some_iff.mp hmaj
  rw [hkey]
  have hq := h.maj_some key hkey
  cases hl : vs.votesByBlock.lookup key with
  | none =>
    -- a missing entry has no power, but a quorum is positive
    have hpos := h.wf.totalPower_pos
    rw [ValidatorSet.twoThirdsMajority_le_iff hpos] at hq
    simp only [tally, hl, Option.map_none, Option.getD_none] at hq
    omega
  | some bv => simp [h.key_eq key bv hl]

/-- A majority, once reached, stays. -/
theorem twoThirdsMajority_store (hmaj : vs.twoThirdsMajority = some hash) :
    (vs.store val vote).twoThirdsMajority = some hash := by
  have hkey := h.key_of_majority hmaj
  have hstore : (vs.store val vote).maj23 = some (blockHashKey hash) := by
    show (if _ then _ else vs.maj23) = _
    rw [if_neg (by simp [hkey]), hkey]
  rw [twoThirdsMajority, hkey] at hmaj
  rw [twoThirdsMajority, hstore, ← hmaj]
  simp only [Option.map_some, Option.some_inj]
  show (Option.map _ (AList.lookup _ (AList.insert _ _ vs.votesByBlock))).getD none = _
  rw [GoMap.lookup_insert_eq]
  split
  · rename_i hsame
    cases hl : vs.votesByBlock.lookup (blockHashKey vote.blockHash) with
    | none =>
      have hq := h.maj_some _ hkey
      rw [ValidatorSet.twoThirdsMajority_le_iff h.wf.totalPower_pos, tally, hsame, hl] at hq
      simp only [Option.map_none, Option.getD_none] at hq
      have := h.wf.totalPower_pos
      omega
    | some bv => rw [hsame, hl]; simp [blockVotes, hl]
  · rfl

/-- A majority that was not there before is for what the new vote is for. -/
theorem key_of_new_majority (hv : vs.Verified vote val)
    (hnone : vs.votes.lookup vote.validatorIndex = none) (hbefore : vs.twoThirdsMajority = none)
    (hmaj : (vs.store val vote).twoThirdsMajority = some hash) :
    blockHashKey vote.blockHash = blockHashKey hash := by
  have hkey := (h.store hv hnone).key_of_majority hmaj
  change (if _ then some (blockHashKey vote.blockHash) else vs.maj23) = _ at hkey
  split at hkey
  · exact Option.some_inj.mp hkey
  · rw [Option.map_eq_none_iff.mp hbefore] at hkey
    cases hkey

/-- A reported majority is a quorum of voters for its key. -/
theorem majority_quorum (hmaj : vs.twoThirdsMajority = some hash) :
    h.wf.electorate.IsQuorum (vs.votersFor (blockHashKey hash)) := by
  have hsub := (vs.votersFor_subset_voters (blockHashKey hash)).trans h.voters_subset
  rw [h.wf.isQuorum_iff hsub, ← h.tally_eq]
  exact h.maj_some _ (h.key_of_majority hmaj)

/-- At most one key has a quorum: two quorums share a voter, who votes for one key. -/
theorem key_unique {key key' : BlockKey} (hquorum : h.wf.electorate.IsQuorum (vs.votersFor key))
    (hquorum' : h.wf.electorate.IsQuorum (vs.votersFor key')) : key = key' := by
  obtain ⟨i, hi, hi', -⟩ := hquorum.exists_common hquorum' Electorate.minor_nobody
  obtain ⟨vote, hvote, hkey⟩ := mem_votersFor.mp hi
  obtain ⟨vote', hvote', hkey'⟩ := mem_votersFor.mp hi'
  rw [hvote] at hvote'
  obtain rfl := Option.some_inj.mp hvote'
  exact hkey.symm.trans hkey'

/-! ### The list of stored votes -/

/-- The stored votes list each voter once. -/
theorem getVotes_perm : (vs.getVotes.map Vote.validatorIndex).Perm vs.votes.keys := by
  refine ((List.perm_insertionSort _ _).map _).trans ?_
  rw [List.map_map]
  refine List.Perm.of_eq (List.map_congr_left fun entry hentry => ?_)
  exact (h.verified entry.1 entry.2 (AList.mem_lookup_iff.mpr hentry)).1

theorem getVotes_nodup : (vs.getVotes.map Vote.validatorIndex).Nodup :=
  h.getVotes_perm.nodup_iff.mpr vs.votes.keys_nodup

/-- The power of the stored votes is the sum of the vote set. -/
theorem getVotes_power :
    (vs.getVotes.map fun v => vs.validatorSet.power v.validatorIndex).sum = vs.sum := by
  have hperm := (h.getVotes_perm.map vs.validatorSet.power).sum_eq
  rw [List.map_map] at hperm
  rw [h.sum_eq]
  show _ = ∑ i ∈ vs.votes.keys.toFinset, vs.validatorSet.power i
  rw [List.sum_toFinset _ vs.votes.keys_nodup]
  exact hperm

/-- A set with a majority holds at least that much power. -/
theorem twoThirds_le_sum (hmaj : vs.twoThirdsMajority = some hash) :
    vs.validatorSet.twoThirdsMajority ≤ vs.sum := by
  have hquorum := h.majority_quorum hmaj
  have hle := (h.wf.isQuorum_iff hquorum.subset).mp hquorum
  rw [h.sum_eq]
  exact hle.trans (Electorate.power_mono (vs.votersFor_subset_voters _))

/-- Where there is no majority no key has a quorum. -/
theorem no_majority (hmaj : vs.twoThirdsMajority = none) (key : BlockKey) :
    ¬ h.wf.electorate.IsQuorum (vs.votersFor key) := by
  intro hq
  have hsub := (vs.votersFor_subset_voters key).trans h.voters_subset
  rw [h.wf.isQuorum_iff hsub, ← h.tally_eq] at hq
  have hlt := h.maj_none (Option.map_eq_none_iff.mp hmaj) key
  omega

end Inv

end VoteSet

namespace HeightVoteSet

/-! ## The vote sets of a height -/

section put

variable (hvs : HeightVoteSet) (t : VoteType) (r : Int) (vs : VoteSet)

@[simp] theorem put_chainID : (hvs.put t r vs).chainID = hvs.chainID := by
  cases t <;> rfl

@[simp] theorem put_height : (hvs.put t r vs).height = hvs.height := by
  cases t <;> rfl

@[simp] theorem put_validatorSet : (hvs.put t r vs).validatorSet = hvs.validatorSet := by
  cases t <;> rfl

@[simp] theorem put_generation : (hvs.put t r vs).generation = hvs.generation := by
  cases t <;> rfl

variable {t}

theorem voteSetAt_put (ht : t = .prevote ∨ t = .precommit) (t' : VoteType) (r' : Int) :
    (hvs.put t r vs).voteSetAt t' r' =
      if t' = t ∧ r' = r then some vs else hvs.voteSetAt t' r' := by
  rcases ht with rfl | rfl <;> cases t' <;>
    simp [put, voteSetAt, GoMap.lookup_insert_eq]

end put

variable [Externals] {hvs : HeightVoteSet} {t : VoteType} {r now : Int} {vs : VoteSet} {vote : Vote}

/-- A rejected vote leaves the height's sets as they are, except that it may
create an empty one; an added vote is stored in the set of its type and round. -/
theorem addVote_cases (hvs : HeightVoteSet) (now : Int) (vote : Vote) :
    ((hvs.addVote now vote).1 ≠ .ok true ∧
      ((hvs.addVote now vote).2 = hvs ∨
        (vote.type = .prevote ∨ vote.type = .precommit) ∧
        (hvs.addVote now vote).2 =
          hvs.put vote.type vote.round (hvs.voteSetOrNew vote.type vote.round))) ∨
    (vote.type = .prevote ∨ vote.type = .precommit) ∧ vote.height = hvs.height ∧
      ∃ val, (hvs.voteSetOrNew vote.type vote.round).Verified vote val ∧
        (hvs.voteSetOrNew vote.type vote.round).votes.lookup vote.validatorIndex = none ∧
        hvs.addVote now vote = (.ok true, hvs.put vote.type vote.round
          ((hvs.voteSetOrNew vote.type vote.round).store val vote)) := by
  unfold addVote addVoteWith
  by_cases hh : vote.height ≠ hvs.height
  · rw [if_pos hh]
    exact .inl ⟨by simp, .inl rfl⟩
  rw [if_neg hh]
  by_cases ht : vote.type = .prevote ∨ vote.type = .precommit
  · rw [if_pos ht]
    dsimp only
    by_cases hok : ((hvs.voteSetOrNew vote.type vote.round).addVote hvs.generation now
        vote).1 = .ok true
    · obtain ⟨val, hval, hnone, heq⟩ := VoteSet.addVote_eq_store hok
      exact .inr ⟨ht, not_not.mp hh, val, hval, hnone, by rw [heq, hok]⟩
    · exact .inl ⟨hok, .inr ⟨ht, by rw [VoteSet.addVote_rejected hok]⟩⟩
  · rw [if_neg ht]
    exact .inl ⟨by simp, .inl rfl⟩

/-- The set belongs to this height. -/
structure Owns (hvs : HeightVoteSet) (t : VoteType) (r : Int) (vs : VoteSet) : Prop where
  chainID : vs.chainID = hvs.chainID
  height : vs.height = hvs.height
  round : vs.round = r
  voteType : vs.voteType = t
  validatorSet : vs.validatorSet = hvs.validatorSet
  generation : vs.myGeneration = some hvs.generation

/-- Every set of the height is its own and keeps its accounts. -/
structure Inv (hvs : HeightVoteSet) : Prop where
  wf : hvs.validatorSet.Wf
  owns : ∀ t r vs, hvs.voteSetAt t r = some vs → hvs.Owns t r vs
  inv : ∀ t r vs, hvs.voteSetAt t r = some vs → vs.Inv

omit [Externals] in
theorem voteSetAt_empty (h₁ : hvs.prevotes = ∅) (h₂ : hvs.precommits = ∅) (t : VoteType) (r : Int) :
    hvs.voteSetAt t r = none := by
  cases t <;> simp [voteSetAt, h₁, h₂]

theorem inv_new {chainID : GoString} {height : Int} {validatorSet : ValidatorSet}
    (h : validatorSet.Wf) : (HeightVoteSet.new chainID height validatorSet).Inv where
  wf := h
  owns := by
    intro t r vs hvs
    rw [voteSetAt_empty rfl rfl] at hvs
    cases hvs
  inv := by
    intro t r vs hvs
    rw [voteSetAt_empty rfl rfl] at hvs
    cases hvs

theorem inv_reset (hvs : HeightVoteSet) {height : Int} {validatorSet : ValidatorSet}
    (h : validatorSet.Wf) : (hvs.reset height validatorSet).Inv where
  wf := h
  owns := by
    intro t r vs hvs
    rw [voteSetAt_empty rfl rfl] at hvs
    cases hvs
  inv := by
    intro t r vs hvs
    rw [voteSetAt_empty rfl rfl] at hvs
    cases hvs

theorem Inv.owns_orNew (h : hvs.Inv) (t : VoteType) (r : Int) :
    hvs.Owns t r (hvs.voteSetOrNew t r) := by
  unfold voteSetOrNew
  cases hl : hvs.voteSetAt t r with
  | none => exact ⟨rfl, rfl, rfl, rfl, rfl, rfl⟩
  | some vs => exact h.owns t r vs hl

theorem Inv.inv_orNew (h : hvs.Inv) (t : VoteType) (r : Int) :
    (hvs.voteSetOrNew t r).Inv := by
  unfold voteSetOrNew
  cases hl : hvs.voteSetAt t r with
  | none => exact VoteSet.inv_new h.wf
  | some vs => exact h.inv t r vs hl

theorem Inv.put (h : hvs.Inv) (ht : t = .prevote ∨ t = .precommit) (hown : hvs.Owns t r vs)
    (hinv : vs.Inv) :
    (hvs.put t r vs).Inv := by
  refine { wf := by simpa using h.wf, owns := ?_, inv := ?_ }
  · intro t' r' vs' hvs'
    have hown' : hvs.Owns t' r' vs' := by
      rw [voteSetAt_put _ _ _ ht] at hvs'
      split at hvs'
      · rename_i heq
        obtain rfl := Option.some_inj.mp hvs'
        rwa [heq.1, heq.2]
      · exact h.owns t' r' vs' hvs'
    exact ⟨by simpa using hown'.chainID, by simpa using hown'.height, hown'.round,
      hown'.voteType, by simpa using hown'.validatorSet, by simpa using hown'.generation⟩
  · intro t' r' vs' hvs'
    rw [voteSetAt_put _ _ _ ht] at hvs'
    split at hvs'
    · obtain rfl := Option.some_inj.mp hvs'
      exact hinv
    · exact h.inv t' r' vs' hvs'

theorem Inv.addVote (h : hvs.Inv) (now : Int) (vote : Vote) :
    (hvs.addVote now vote).2.Inv := by
  rcases hvs.addVote_cases now vote with ⟨-, heq | ⟨ht, heq⟩⟩ | ⟨ht, -, val, hval, hnone, heq⟩
  · rw [heq]
    exact h
  · rw [heq]
    exact h.put ht (h.owns_orNew _ _) (h.inv_orNew _ _)
  · rw [heq]
    have hown := h.owns_orNew vote.type vote.round
    exact h.put ht ⟨hown.chainID, hown.height, hown.round, hown.voteType, hown.validatorSet,
      hown.generation⟩ ((h.inv_orNew _ _).store hval hnone)

/-! ## What consensus sees of the votes -/

/-- The configuration of a height's votes, which `AddVote` never touches. -/
structure SameHeight (hvs hvs' : HeightVoteSet) : Prop where
  chainID : hvs'.chainID = hvs.chainID
  height : hvs'.height = hvs.height
  validatorSet : hvs'.validatorSet = hvs.validatorSet
  generation : hvs'.generation = hvs.generation

/-- `vote` was verified, new, and is now the stored vote of its validator. -/
structure Added (hvs : HeightVoteSet) (vote : Vote) (hvs' : HeightVoteSet) : Prop where
  type : vote.type = .prevote ∨ vote.type = .precommit
  height : vote.height = hvs.height
  signed : ∃ val, hvs.validatorSet.getByIndex vote.validatorIndex = some val ∧
    val.name = vote.validator ∧
    verifySignature val.publicKey (voteSignBytes hvs.chainID vote) vote.signature = true
  fresh : hvs.voteOf vote.type vote.round vote.validatorIndex = none
  voteOf_eq : ∀ t r i, hvs'.voteOf t r i =
    if t = vote.type ∧ r = vote.round ∧ i = vote.validatorIndex then some vote
    else hvs.voteOf t r i
  majority_eq : ∀ t r, ¬ (t = vote.type ∧ r = vote.round) →
    hvs'.majority t r = hvs.majority t r
  majority_mono : ∀ t r hash, hvs.majority t r = some hash → hvs'.majority t r = some hash
  majority_new : hvs.majority vote.type vote.round = none → ∀ hash,
    hvs'.majority vote.type vote.round = some hash →
    blockHashKey vote.blockHash = blockHashKey hash

theorem sameHeight_addVote (hvs : HeightVoteSet) (now : Int) (vote : Vote) :
    SameHeight hvs (hvs.addVote now vote).2 := by
  rcases hvs.addVote_cases now vote with ⟨-, heq | ⟨-, heq⟩⟩ | ⟨-, -, val, -, -, heq⟩ <;>
    · rw [heq]
      constructor <;> simp

section

omit [Externals]

theorem voteOf_put (ht : t = .prevote ∨ t = .precommit) (t' : VoteType) (r' : Int) (i : Nat) :
    (hvs.put t r vs).voteOf t' r' i =
      if t' = t ∧ r' = r then vs.votes.lookup i else hvs.voteOf t' r' i := by
  rw [voteOf, voteSetAt_put _ _ _ ht]
  split <;> rfl

theorem majority_of_voteSetAt (h : hvs.voteSetAt t r = some vs) :
    hvs.majority t r = vs.twoThirdsMajority := by
  rw [majority, h, Option.bind_some]

theorem majority_absent (h : hvs.voteSetAt t r = none) : hvs.majority t r = none := by
  rw [majority, h, Option.bind_none]

theorem majority_put (ht : t = .prevote ∨ t = .precommit) (t' : VoteType) (r' : Int) :
    (hvs.put t r vs).majority t' r' =
      if t' = t ∧ r' = r then vs.twoThirdsMajority else hvs.majority t' r' := by
  rw [majority, voteSetAt_put _ _ _ ht]
  split <;> rfl

theorem lookup_orNew (hvs : HeightVoteSet) (t : VoteType) (r : Int) (i : Nat) :
    (hvs.voteSetOrNew t r).votes.lookup i = hvs.voteOf t r i := by
  unfold voteSetOrNew voteOf
  cases hvs.voteSetAt t r <;> rfl

theorem majority_orNew (hvs : HeightVoteSet) (t : VoteType) (r : Int) :
    (hvs.voteSetOrNew t r).twoThirdsMajority = hvs.majority t r := by
  unfold voteSetOrNew majority
  cases hvs.voteSetAt t r <;> rfl

end

/-- A rejected vote is invisible: at most an empty set was created. -/
theorem voteOf_addVote_rejected (h : (hvs.addVote now vote).1 ≠ .ok true) (t : VoteType) (r : Int)
    (i : Nat) :
    (hvs.addVote now vote).2.voteOf t r i = hvs.voteOf t r i := by
  rcases hvs.addVote_cases now vote with ⟨-, heq | ⟨ht, heq⟩⟩ | ⟨-, -, val, -, -, heq⟩
  · rw [heq]
  · rw [heq, voteOf_put ht]
    split
    · rename_i hcond
      rw [lookup_orNew, hcond.1, hcond.2]
    · rfl
  · exact absurd (by rw [heq]) h

theorem majority_addVote_rejected (h : (hvs.addVote now vote).1 ≠ .ok true) (t : VoteType)
    (r : Int) :
    (hvs.addVote now vote).2.majority t r = hvs.majority t r := by
  rcases hvs.addVote_cases now vote with ⟨-, heq | ⟨ht, heq⟩⟩ | ⟨-, -, val, -, -, heq⟩
  · rw [heq]
  · rw [heq, majority_put ht]
    split
    · rename_i hcond
      rw [majority_orNew, hcond.1, hcond.2]
    · rfl
  · exact absurd (by rw [heq]) h

/-- A vote reported as added is `Added`. -/
theorem Inv.added_addVote (hinv : hvs.Inv) (h : (hvs.addVote now vote).1 = .ok true) :
    Added hvs vote (hvs.addVote now vote).2 := by
  rcases hvs.addVote_cases now vote with ⟨hne, -⟩ | ⟨ht, hh, val, hval, hnone, heq⟩
  · exact absurd h hne
  have hown := hinv.owns_orNew vote.type vote.round
  rw [heq]
  refine { type := ht, height := hh, signed := ⟨val, ?_, hval.name, ?_⟩,
           fresh := by rw [← lookup_orNew]; exact hnone,
           voteOf_eq := ?_, majority_eq := ?_, majority_mono := ?_, majority_new := ?_ }
  · rw [← hown.validatorSet]
    exact hval.found
  · rw [← hown.chainID]
    exact hval.signature
  · intro t r i
    rw [voteOf_put ht, VoteSet.lookup_store, lookup_orNew]
    by_cases htr : t = vote.type ∧ r = vote.round
    · obtain ⟨rfl, rfl⟩ := htr
      simp
    · rw [if_neg htr, if_neg fun hall => htr ⟨hall.1, hall.2.1⟩]
  · intro t r htr
    rw [majority_put ht, if_neg htr]
  · intro t r hash hmaj
    rw [majority_put ht]
    split
    · rename_i htr
      obtain ⟨rfl, rfl⟩ := htr
      rw [← majority_orNew] at hmaj
      exact (hinv.inv_orNew _ _).twoThirdsMajority_store hmaj
    · exact hmaj
  · intro hbefore hash hmaj
    rw [majority_put ht, if_pos ⟨rfl, rfl⟩] at hmaj
    rw [← majority_orNew] at hbefore
    exact (hinv.inv_orNew _ _).key_of_new_majority hval hnone hbefore hmaj

/-- The stored votes are verified votes of their validators. -/
theorem Inv.voteOf_verified (h : hvs.Inv) {i : Nat} (hv : hvs.voteOf t r i = some vote) :
    vote.type = t ∧ vote.height = hvs.height ∧ vote.round = r ∧ vote.validatorIndex = i ∧
      ∃ val, hvs.validatorSet.getByIndex i = some val ∧ val.name = vote.validator ∧
        verifySignature val.publicKey (voteSignBytes hvs.chainID vote) vote.signature = true := by
  obtain ⟨vs, hvs', hl⟩ := Option.bind_eq_some_iff.mp hv
  have hown := h.owns t r vs hvs'
  obtain ⟨rfl, val, hval⟩ := (h.inv t r vs hvs').verified i vote hl
  exact ⟨hval.type.trans hown.voteType, hval.height.trans hown.height,
    hval.round.trans hown.round, rfl, val, by rw [← hown.validatorSet]; exact hval.found,
    hval.name, by rw [← hown.chainID]; exact hval.signature⟩

/-- A majority is a quorum of validators whose stored votes have its key. -/
theorem Inv.majority_quorum (h : hvs.Inv) {hash : Option Hash}
    (hmaj : hvs.majority t r = some hash) :
    ∃ S, h.wf.electorate.IsQuorum S ∧ ∀ i ∈ S, ∃ vote, hvs.voteOf t r i = some vote ∧
      blockHashKey vote.blockHash = blockHashKey hash := by
  obtain ⟨vs, hvs', hmaj'⟩ := Option.bind_eq_some_iff.mp hmaj
  have hown := h.owns t r vs hvs'
  refine ⟨vs.votersFor (blockHashKey hash), ?_, ?_⟩
  · exact h.wf.isQuorum_of_eq hown.validatorSet
      ((h.inv t r vs hvs').majority_quorum hmaj')
  · intro i hi
    obtain ⟨vote, hvote, hkey⟩ := VoteSet.mem_votersFor.mp hi
    exact ⟨vote, by rw [voteOf, hvs']; exact hvote, hkey⟩

/-- A verified vote of a validator that has not voted yet, with an acceptable timestamp. -/
theorem Inv.addVote_ok {hvs : HeightVoteSet} (h : hvs.Inv) {now : Int} {vote : Vote}
    (htype : vote.type = .prevote ∨ vote.type = .precommit) (hheight : vote.height = hvs.height)
    (hsigned : ∃ val, hvs.validatorSet.getByIndex vote.validatorIndex = some val ∧
      val.name = vote.validator ∧
      verifySignature val.publicKey (voteSignBytes hvs.chainID vote) vote.signature = true)
    (hnone : hvs.voteOf vote.type vote.round vote.validatorIndex = none)
    (hfuture : vote.timestamp ≤ now + maxTimestampDrift)
    (hpast : now - maxTimestampDrift ≤ vote.timestamp) :
    (hvs.addVote now vote).1 = .ok true := by
  obtain ⟨val, hfound, hname, hsignature⟩ := hsigned
  have hown := h.owns_orNew vote.type vote.round
  have hverified : (hvs.voteSetOrNew vote.type vote.round).Verified vote val :=
    { height := hheight.trans hown.height.symm
      round := hown.round.symm
      type := hown.voteType.symm
      found := by rw [hown.validatorSet]; exact hfound
      name := hname
      signature := by rw [hown.chainID]; exact hsignature }
  have hfresh : (hvs.voteSetOrNew vote.type vote.round).isStale hvs.generation = false := by
    unfold VoteSet.isStale
    rw [hown.generation]
    simp
  unfold HeightVoteSet.addVote HeightVoteSet.addVoteWith
  rw [if_neg (not_not.mpr hheight), if_pos htype]
  dsimp only
  rw [(h.inv_orNew _ _).addVote_accepts hverified (by rw [lookup_orNew]; exact hnone) hfresh
    hfuture hpast]

end HeightVoteSet

end Leaderberry
