import Leaderberry.Engine.Tally
import Leaderberry.Engine.Scenario

/-!
# Runs of a vote set

A `VoteSet` keeps the same facts four times: the votes by validator, the votes by block,
the running totals and the cached majority. Here it is run through any sequence of
`AddVote` and `addVoteForReplay` calls, with any votes, clocks and parent generations.

- `call_cases`: a call stores a verified new vote or leaves the set as it is.
- `Filed`: the entries of `votesByBlock` are the stored votes, sorted by what they are for.
- `accounted_calls`: the books agree after every run, and no call is half done.
-/

namespace Leaderberry

/-- The two overflow errors of `addVoteInternal`. -/
def VoteError.isOverflow : VoteError → Bool
  | .sumOverflow _ _ => true
  | .blockSumOverflow _ _ => true
  | _ => false

namespace VoteSet

/-- A call that may add a vote, with what it reads besides: the parent's generation and,
for `AddVote`, the clock. -/
inductive Call where
  | addVote (generation : Nat) (now : Int) (vote : Vote)
  | addVoteForReplay (generation : Nat) (vote : Vote)

def Call.vote : Call → Vote
  | .addVote _ _ vote => vote
  | .addVoteForReplay _ vote => vote

section

variable [Externals] {vs : VoteSet} {vote w : Vote} {val : NamedValidator} {key : BlockKey}

/-- What a call returns and leaves. -/
def call (vs : VoteSet) : Call → Except VoteError Bool × VoteSet
  | .addVote generation now vote => vs.addVote generation now vote
  | .addVoteForReplay generation vote => vs.addVoteForReplay generation vote

/-- The set after a sequence of calls. -/
def calls (vs : VoteSet) (cs : List Call) : VoteSet :=
  cs.foldl (fun vs c => (vs.call c).2) vs

@[simp] theorem calls_nil (vs : VoteSet) : vs.calls [] = vs := rfl

@[simp] theorem calls_cons (vs : VoteSet) (c : Call) (cs : List Call) :
    vs.calls (c :: cs) = (vs.call c).2.calls cs := rfl

/-- A call stores a verified new vote or leaves the set as it is. -/
theorem call_cases (vs : VoteSet) (c : Call) :
    ((vs.call c).1 ≠ .ok true ∧ (vs.call c).2 = vs) ∨
    ∃ val, vs.Verified c.vote val ∧ vs.votes.lookup c.vote.validatorIndex = none ∧
      vs.call c = (.ok true, vs.store val c.vote) := by
  cases c with
  | addVote g now vote =>
    by_cases hok : (vs.addVote g now vote).1 = .ok true
    · obtain ⟨val, hval, hnone, heq⟩ := addVote_eq_store hok
      exact .inr ⟨val, hval, hnone, Prod.ext hok heq⟩
    · exact .inl ⟨hok, addVote_rejected hok⟩
  | addVoteForReplay g vote =>
    show ((vs.addVoteForReplay g vote).1 ≠ _ ∧ (vs.addVoteForReplay g vote).2 = vs) ∨
      ∃ val, vs.Verified vote val ∧ _ ∧ vs.addVoteForReplay g vote = _
    unfold addVoteForReplay
    split
    · exact .inl ⟨by simp, rfl⟩
    split
    · exact .inl ⟨by simp, rfl⟩
    rename_i hmatch
    rcases vs.addVoteInternal_cases vote with ⟨hne, heq⟩ | ⟨val, hval, hname, hsig, hnone, heq⟩
    · exact .inl ⟨hne, heq⟩
    · obtain ⟨hh, hr, ht⟩ := (vs.matchesSet_iff vote).mp (by simpa using hmatch)
      exact .inr ⟨val, ⟨hh, hr, ht, hval, hname, hsig⟩, hnone, heq⟩

/-- A property that storing a new verified vote keeps holds after every run. -/
theorem calls_induction {P : VoteSet → Prop}
    (hstep : ∀ vs val vote, P vs → vs.Verified vote val →
      vs.votes.lookup vote.validatorIndex = none → P (vs.store val vote))
    (cs : List Call) : ∀ {vs : VoteSet}, P vs → P (vs.calls cs) := by
  induction cs with
  | nil => exact fun h => h
  | cons c cs ih =>
    intro vs h
    rw [calls_cons]
    refine ih ?_
    rcases vs.call_cases c with ⟨-, heq⟩ | ⟨val, hval, hnone, heq⟩
    · rw [heq]
      exact h
    · rw [heq]
      exact hstep vs val c.vote h hval hnone

theorem Inv.calls (h : vs.Inv) (cs : List Call) : (vs.calls cs).Inv :=
  calls_induction (fun _ _ _ hinv hval hnone => hinv.store hval hnone) cs h

/-- The overflow branches of `addVoteInternal` are dead. -/
theorem Inv.addVoteInternal_error (h : vs.Inv) {e : VoteError}
    (herror : (vs.addVoteInternal vote).1 = .error e) : e.isOverflow = false := by
  unfold addVoteInternal at herror
  split at herror
  · cases herror
    rfl
  rename_i val hfound
  obtain ⟨hsum, hblock⟩ := h.room hfound vote.blockHash
  split at herror
  · cases herror
    rfl
  split at herror
  · cases herror
    rfl
  split at herror
  · split at herror
    · cases herror
    · cases herror
      rfl
  · rw [if_neg (by omega), if_neg (by omega)] at herror
    cases herror

theorem Inv.call_error (h : vs.Inv) {c : Call} {e : VoteError} (herror : (vs.call c).1 = .error e) :
    e.isOverflow = false := by
  cases c with
  | addVote g now vote =>
    change (vs.addVote g now vote).1 = _ at herror
    unfold VoteSet.addVote at herror
    split at herror
    · cases herror
      rfl
    split at herror
    · cases herror
      rfl
    split at herror
    · cases herror
      rfl
    split at herror
    · cases herror
      rfl
    exact h.addVoteInternal_error herror
  | addVoteForReplay g vote =>
    change (vs.addVoteForReplay g vote).1 = _ at herror
    unfold addVoteForReplay at herror
    split at herror
    · cases herror
      rfl
    split at herror
    · cases herror
      rfl
    exact h.addVoteInternal_error herror

/-! ## Votes by block -/

/-- The entries of `votesByBlock` hold the stored votes, each in the entry of its own key
and there once, and an entry holds something. -/
structure Filed (vs : VoteSet) : Prop where
  covered : ∀ i vote, vs.votes.lookup i = some vote →
    ∃ bv, vs.votesByBlock.lookup (blockHashKey vote.blockHash) = some bv ∧ vote ∈ bv.votes
  stored : ∀ key bv, vs.votesByBlock.lookup key = some bv → ∀ vote ∈ bv.votes,
    vs.votes.lookup vote.validatorIndex = some vote ∧ blockHashKey vote.blockHash = key
  once : ∀ key bv, vs.votesByBlock.lookup key = some bv →
    (bv.votes.map Vote.validatorIndex).Nodup
  nonempty : ∀ key bv, vs.votesByBlock.lookup key = some bv → bv.votes ≠ []

section

omit [Externals]

theorem filed_new {chainID : GoString} {height round : Int} {t : VoteType}
    {validatorSet : ValidatorSet} {g : Option Nat} :
    (VoteSet.new chainID height round t validatorSet g).Filed where
  covered := by
    intro i vote hvote
    simp [VoteSet.new] at hvote
  stored := by
    intro key bv hbv
    simp [VoteSet.new] at hbv
  once := by
    intro key bv hbv
    simp [VoteSet.new] at hbv
  nonempty := by
    intro key bv hbv
    simp [VoteSet.new] at hbv

/-- The entries after a store: the one of the vote's key is the old one with the vote at
its end, or a new one. -/
theorem lookup_votesByBlock_store {bv : BlockVotes}
    (hbv : (vs.store val vote).votesByBlock.lookup key = some bv) :
    (key = blockHashKey vote.blockHash ∧
      bv.votes = (vs.blockVotes vote.blockHash).votes ++ [vote]) ∨
    (key ≠ blockHashKey vote.blockHash ∧ vs.votesByBlock.lookup key = some bv) := by
  change AList.lookup key (AList.insert _ _ vs.votesByBlock) = some bv at hbv
  rw [GoMap.lookup_insert_eq] at hbv
  split at hbv
  · rename_i hkey
    obtain rfl := Option.some_inj.mp hbv
    exact .inl ⟨hkey, rfl⟩
  · rename_i hkey
    exact .inr ⟨hkey, hbv⟩

/-- The votes of the entry that a store extends are stored votes for its key. -/
theorem Filed.mem_blockVotes (h : vs.Filed) {hash : Option Hash}
    (hw : w ∈ (vs.blockVotes hash).votes) :
    vs.votes.lookup w.validatorIndex = some w ∧ blockHashKey w.blockHash = blockHashKey hash := by
  unfold blockVotes at hw
  cases hl : vs.votesByBlock.lookup (blockHashKey hash) with
  | none =>
    rw [hl] at hw
    cases hw
  | some bv =>
    rw [hl] at hw
    exact h.stored _ bv hl w hw

theorem Filed.nodup_blockVotes (h : vs.Filed) (hash : Option Hash) :
    ((vs.blockVotes hash).votes.map Vote.validatorIndex).Nodup := by
  unfold blockVotes
  cases hl : vs.votesByBlock.lookup (blockHashKey hash) with
  | none => exact List.nodup_nil
  | some bv => exact h.once _ bv hl

/-- A vote that was stored before is not of the validator whose vote is new. -/
theorem lookup_store_of_stored (hnone : vs.votes.lookup vote.validatorIndex = none)
    (hw : vs.votes.lookup w.validatorIndex = some w) :
    (vs.store val vote).votes.lookup w.validatorIndex = some w := by
  rw [lookup_store, if_neg, hw]
  intro heq
  rw [heq, hnone] at hw
  cases hw

/-- After a store every stored vote is in the entry of its key. -/
theorem Filed.covered_store (h : vs.Filed) {i : Nat}
    (hw : (vs.store val vote).votes.lookup i = some w) :
    ∃ bv, (vs.store val vote).votesByBlock.lookup (blockHashKey w.blockHash) = some bv ∧
      w ∈ bv.votes := by
  rw [lookup_store] at hw
  show ∃ bv, AList.lookup _ (AList.insert _ _ vs.votesByBlock) = some bv ∧ w ∈ bv.votes
  rw [GoMap.lookup_insert_eq]
  by_cases hi : i = vote.validatorIndex
  · rw [if_pos hi] at hw
    obtain rfl := Option.some_inj.mp hw
    rw [if_pos rfl]
    exact ⟨_, rfl, List.mem_append_right _ (List.mem_singleton.mpr rfl)⟩
  · rw [if_neg hi] at hw
    obtain ⟨bv, hbv, hmem⟩ := h.covered i w hw
    by_cases hkey : blockHashKey w.blockHash = blockHashKey vote.blockHash
    · -- its entry is the one that the new vote extends
      rw [if_pos hkey]
      refine ⟨_, rfl, List.mem_append_left _ ?_⟩
      show w ∈ (vs.blockVotes vote.blockHash).votes
      rw [blockVotes, ← hkey, hbv]
      exact hmem
    · rw [if_neg hkey]
      exact ⟨bv, hbv, hmem⟩

theorem Filed.store (h : vs.Filed) (hnone : vs.votes.lookup vote.validatorIndex = none) :
    (vs.store val vote).Filed where
  covered := fun _ _ hw => h.covered_store hw
  stored := by
    intro key bv hbv w hw
    rcases lookup_votesByBlock_store hbv with ⟨rfl, hvotes⟩ | ⟨-, hold⟩
    · rw [hvotes] at hw
      rcases List.mem_append.mp hw with hw | hw
      · obtain ⟨hstored, hkey⟩ := h.mem_blockVotes hw
        exact ⟨lookup_store_of_stored hnone hstored, hkey⟩
      · rw [List.mem_singleton.mp hw, lookup_store, if_pos rfl]
        exact ⟨rfl, rfl⟩
    · obtain ⟨hstored, hkey⟩ := h.stored key bv hold w hw
      exact ⟨lookup_store_of_stored hnone hstored, hkey⟩
  once := by
    intro key bv hbv
    rcases lookup_votesByBlock_store hbv with ⟨rfl, hvotes⟩ | ⟨-, hold⟩
    · rw [hvotes, List.map_append, List.map_singleton, List.nodup_append]
      refine ⟨h.nodup_blockVotes _, List.nodup_singleton _, fun i hi j hj => ?_⟩
      -- the new index is not among the old ones: their votes are stored
      obtain ⟨w, hw, rfl⟩ := List.mem_map.mp hi
      rw [List.mem_singleton.mp hj]
      intro heq
      have hstored := (h.mem_blockVotes hw).1
      rw [heq, hnone] at hstored
      cases hstored
    · exact h.once key bv hold
  nonempty := by
    intro key bv hbv
    rcases lookup_votesByBlock_store hbv with ⟨rfl, hvotes⟩ | ⟨-, hold⟩
    · rw [hvotes]
      exact List.append_ne_nil_of_right_ne_nil _ (List.cons_ne_nil _ _)
    · exact h.nonempty key bv hold

end

theorem Filed.calls (h : vs.Filed) (cs : List Call) : (vs.calls cs).Filed :=
  calls_induction (fun _ _ _ hfiled _ hnone => hfiled.store hnone) cs h

/-! ## The majority -/

/-- The cached majority is the one key with a quorum. -/
theorem Inv.maj23_iff_tally (h : vs.Inv) (key : BlockKey) :
    vs.maj23 = some key ↔ vs.validatorSet.twoThirdsMajority ≤ vs.tally key := by
  constructor
  · exact h.maj_some key
  · intro hquorum
    cases hmaj : vs.maj23 with
    | none =>
      have hlt := h.maj_none hmaj key
      omega
    | some key' =>
      have hq : ∀ k, vs.validatorSet.twoThirdsMajority ≤ vs.tally k →
          h.wf.electorate.IsQuorum (vs.votersFor k) := by
        intro k hk
        rw [h.wf.isQuorum_iff ((vs.votersFor_subset_voters k).trans h.voters_subset),
          ← h.tally_eq]
        exact hk
      rw [h.key_unique (hq key hquorum) (hq key' (h.maj_some key' hmaj))]

/-- So it points to an entry, since a key without one has no power. -/
theorem Inv.maj23_iff (h : vs.Inv) (key : BlockKey) : vs.maj23 = some key ↔
    ∃ bv, vs.votesByBlock.lookup key = some bv ∧
      vs.validatorSet.twoThirdsMajority ≤ bv.totalPower := by
  rw [h.maj23_iff_tally, tally]
  cases hl : vs.votesByBlock.lookup key with
  | none =>
    have hpos := h.wf.totalPower_pos
    rw [ValidatorSet.twoThirdsMajority_le_iff hpos]
    simp only [Option.map_none, Option.getD_none, reduceCtorEq, false_and, exists_false,
      iff_false]
    omega
  | some bv => simp

/-- A majority, once cached, stays. -/
theorem maj23_calls (cs : List Call) (hmaj : vs.maj23 = some key) :
    (vs.calls cs).maj23 = some key := by
  refine calls_induction (P := fun vs => vs.maj23 = some key) ?_ cs hmaj
  intro vs val vote hmaj _ _
  show (if _ then _ else vs.maj23) = some key
  rw [if_neg (by simp [hmaj]), hmaj]

/-! ## The books -/

/-- The redundant parts of a `VoteSet` agree. -/
structure Accounted (vs : VoteSet) : Prop where
  signer : ∀ i vote, vs.votes.lookup i = some vote →
    vote.validatorIndex = i ∧ (vs.validatorSet.getByIndex i).isSome
  sum_eq : vs.sum = ∑ i ∈ vs.voters, vs.validatorSet.power i
  filed : vs.Filed
  key_eq : ∀ key bv, vs.votesByBlock.lookup key = some bv → blockHashKey bv.blockHash = key
  total_eq : ∀ key bv, vs.votesByBlock.lookup key = some bv →
    bv.totalPower = (bv.votes.map fun vote => vs.validatorSet.power vote.validatorIndex).sum
  sum_le : vs.sum ≤ vs.validatorSet.totalPower
  majority : ∀ key, vs.maj23 = some key ↔ ∃ bv, vs.votesByBlock.lookup key = some bv ∧
    vs.validatorSet.twoThirdsMajority ≤ bv.totalPower

/-- The voters for a key are those whose votes its entry holds. -/
theorem Inv.votersFor_eq (h : vs.Inv) (hfiled : vs.Filed) {bv : BlockVotes}
    (hbv : vs.votesByBlock.lookup key = some bv) :
    vs.votersFor key = (bv.votes.map Vote.validatorIndex).toFinset := by
  ext i
  rw [mem_votersFor, List.mem_toFinset, List.mem_map]
  constructor
  · rintro ⟨vote, hvote, rfl⟩
    obtain ⟨bv', hbv', hmem⟩ := hfiled.covered i vote hvote
    rw [hbv] at hbv'
    obtain rfl := Option.some_inj.mp hbv'
    exact ⟨vote, hmem, (h.verified i vote hvote).1⟩
  · rintro ⟨vote, hmem, rfl⟩
    exact ⟨vote, hfiled.stored key bv hbv vote hmem⟩

theorem Inv.accounted (h : vs.Inv) (hfiled : vs.Filed) : vs.Accounted where
  signer := by
    intro i vote hvote
    obtain ⟨rfl, val, hval⟩ := h.verified i vote hvote
    exact ⟨rfl, by rw [hval.found]; rfl⟩
  sum_eq := h.sum_eq
  filed := hfiled
  key_eq := h.key_eq
  total_eq := by
    intro key bv hbv
    have htally := h.tally_eq key
    rw [h.votersFor_eq hfiled hbv, Electorate.power,
      List.sum_toFinset _ (hfiled.once key bv hbv), List.map_map, tally, hbv] at htally
    exact htally
  sum_le := h.sum_le
  majority := h.maj23_iff

/-- **The books of a vote set agree after every run.** A call that does not report an added
vote changes nothing, none fails for an overflow, and a majority is final. -/
theorem accounted_calls (chainID : GoString) (height round : Int) (t : VoteType)
    (validatorSet : ValidatorSet) (hwf : validatorSet.Wf) (generation : Option Nat)
    (cs : List Call) :
    let vs := (VoteSet.new chainID height round t validatorSet generation).calls cs
    vs.Accounted ∧
      (∀ c, (vs.call c).1 ≠ .ok true → (vs.call c).2 = vs) ∧
      (∀ c e, (vs.call c).1 = .error e → e.isOverflow = false) ∧
      ∀ key, vs.maj23 = some key → ∀ more, (vs.calls more).maj23 = some key := by
  intro vs
  have hinv : vs.Inv := (inv_new hwf).calls cs
  refine ⟨hinv.accounted (filed_new.calls cs), fun c hc => ?_, fun c e he => ?_,
    fun key hkey more => ?_⟩
  · rcases vs.call_cases c with ⟨-, heq⟩ | ⟨val, -, -, heq⟩
    · exact heq
    · exact absurd (congrArg Prod.fst heq) hc
  · exact hinv.call_error he
  · exact maj23_calls more hkey

end

attribute [local instance] transparent

/-- Validator 1 holds 9 of 10: its first vote is a majority, its second conflicts with it. -/
theorem accounted_strong :
    let vs := (VoteSet.new [] 1 0 .prevote (Scenario.validatorSet _ Scenario.isOk_strong).1
      none).calls [.addVote 0 0 (Scenario.vote 1 0 .prevote 1 0 (some (Scenario.block 1 1))),
        .addVoteForReplay 0 (Scenario.vote 1 0 .prevote 1 0 none)]
    vs.sum = 9 ∧ vs.maj23.isSome = true ∧ vs.Accounted :=
  ⟨by decide +kernel, by decide +kernel,
    (accounted_calls [] 1 0 .prevote _ (Scenario.validatorSet _ Scenario.isOk_strong).2 none
      [.addVote 0 0 (Scenario.vote 1 0 .prevote 1 0 (some (Scenario.block 1 1))),
        .addVoteForReplay 0 (Scenario.vote 1 0 .prevote 1 0 none)]).1⟩

end VoteSet

end Leaderberry
