import Leaderberry.Engine.MakeCommit

/-!
# The order of votes

Nodes receive the same votes in different orders. What they can observe of a vote set is a
function of which votes are stored (`SameVotes`): the totals are those of the voters, the
majority is the key with a quorum, and the lists are sorted. And a run of valid votes of
distinct validators stores exactly these votes (`lookup_calls`), so the order is forgotten
(`order_irrelevant`).

The hash that `TwoThirdsMajority` returns is the one of the first vote for the majority's
key. For the key of nil that can be nil or a zero hash of any length, so the result is
compared by key.
-/

namespace Leaderberry

namespace VoteSet

section

/-- `VotingPower`. -/
def votingPower (vs : VoteSet) : Int := vs.sum

/-! ## What the stored votes determine -/

/-- The same votes stored in the same setting. -/
structure SameVotes (vs ws : VoteSet) : Prop where
  setting : vs.SameSetting ws
  lookup : ∀ i, ws.votes.lookup i = vs.votes.lookup i

namespace SameVotes

variable {vs ws : VoteSet}

variable (h : vs.SameVotes ws)

include h

theorem voters_eq : ws.voters = vs.voters := by
  ext i
  rw [mem_voters, mem_voters, h.lookup]

theorem votersFor_eq (key : BlockKey) : ws.votersFor key = vs.votersFor key := by
  ext i
  rw [mem_votersFor, mem_votersFor, h.lookup]

theorem perm_entries : (ws.votes.entries.map Sigma.snd).Perm (vs.votes.entries.map Sigma.snd) :=
  (AList.perm_of_lookup_eq h.lookup).map _

variable [Externals]

theorem sum_eq (hvs : vs.Inv) (hws : ws.Inv) : ws.sum = vs.sum := by
  rw [hws.sum_eq, hvs.sum_eq, h.voters_eq]
  show ∑ i ∈ vs.voters, ws.validatorSet.power i = ∑ i ∈ vs.voters, vs.validatorSet.power i
  rw [h.setting.validatorSet]

theorem tally_eq (hvs : vs.Inv) (hws : ws.Inv) (key : BlockKey) : ws.tally key = vs.tally key := by
  rw [hws.tally_eq, hvs.tally_eq, h.votersFor_eq]
  show ∑ i ∈ vs.votersFor key, ws.validatorSet.power i =
    ∑ i ∈ vs.votersFor key, vs.validatorSet.power i
  rw [h.setting.validatorSet]

theorem hasTwoThirdsAny_eq (hvs : vs.Inv) (hws : ws.Inv) :
    ws.hasTwoThirdsAny = vs.hasTwoThirdsAny := by
  rw [hasTwoThirdsAny, hasTwoThirdsAny, h.sum_eq hvs hws, h.setting.validatorSet]

/-- `GetVotes` reads the map in some order and sorts. -/
theorem getVotes_eq (hws : ws.Inv) : ws.getVotes = vs.getVotes := by
  refine KeyedSort.insertionSort_congr h.perm_entries ?_
  have hnodup := hws.getVotes_nodup
  unfold getVotes at hnodup
  exact ((List.perm_insertionSort _ _).map _).nodup_iff.mp hnodup

/-- The majority is the key with a quorum, whichever vote completed it. -/
theorem maj23_eq (hvs : vs.Inv) (hws : ws.Inv) : ws.maj23 = vs.maj23 := by
  have hiff : ∀ key, ws.maj23 = some key ↔ vs.maj23 = some key := by
    intro key
    rw [hws.maj23_iff_tally, hvs.maj23_iff_tally, h.tally_eq hvs hws, h.setting.validatorSet]
  exact Option.ext hiff

end SameVotes

variable [Externals] {vs : VoteSet}

/-- The result of `TwoThirdsMajority` up to the choice of a nil hash. -/
theorem Inv.key_twoThirdsMajority (h : vs.Inv) :
    vs.twoThirdsMajority.map blockHashKey = vs.maj23 := by
  cases hmaj : vs.twoThirdsMajority with
  | none => exact (Option.map_eq_none_iff.mp hmaj).symm
  | some hash => exact (h.key_of_majority hmaj).symm

section

omit [Externals]

theorem exists_hash_of_key {hash : Option Hash} {data : Bytes}
    (h : blockHashKey hash = some data) : ∃ x, hash = some x ∧ isHashEmpty (some x) = false := by
  cases hash with
  | none => cases h
  | some x =>
    refine ⟨x, rfl, Bool.eq_false_iff.mpr fun hempty => ?_⟩
    rw [blockHashKey, if_pos hempty] at h
    cases h

/-- A nil key is no block to commit. -/
theorem makeCommit_of_nil {hash : Option Hash} (hmaj : vs.twoThirdsMajority = some hash)
    (hkey : blockHashKey hash = none) :
    vs.makeCommit = none := by
  cases hc : vs.makeCommit with
  | none => rfl
  | some c =>
    obtain ⟨-, hmaj', hne, -⟩ := makeCommit_some hc
    rw [hmaj'] at hmaj
    obtain rfl := Option.some_inj.mp hmaj
    simp [blockHashKey, hne] at hkey

theorem makeCommit_of_type (htype : vs.voteType ≠ .precommit) :
    vs.makeCommit = none :=
  if_pos htype

theorem makeCommit_of_none (hmaj : vs.twoThirdsMajority = none) :
    vs.makeCommit = none := by
  cases hc : vs.makeCommit with
  | none => rfl
  | some c =>
    rw [(makeCommit_some hc).2.1] at hmaj
    cases hmaj

end

theorem SameVotes.makeCommit_eq {ws : VoteSet} (h : vs.SameVotes ws) (hvs : vs.Inv) (hws : ws.Inv) :
    ws.makeCommit = vs.makeCommit := by
  by_cases htype : vs.voteType = .precommit
  swap
  · rw [makeCommit_of_type htype, makeCommit_of_type (h.setting.voteType ▸ htype)]
  have hmajority : ws.twoThirdsMajority.map blockHashKey =
      vs.twoThirdsMajority.map blockHashKey := by
    rw [hws.key_twoThirdsMajority, hvs.key_twoThirdsMajority, h.maj23_eq hvs hws]
  cases hmaj : vs.twoThirdsMajority with
  | none =>
    rw [hmaj, Option.map_none, Option.map_eq_none_iff] at hmajority
    rw [makeCommit_of_none hmaj, makeCommit_of_none hmajority]
  | some hash =>
    rw [hmaj] at hmajority
    obtain ⟨hash', hmaj', hkey⟩ := Option.map_eq_some_iff.mp hmajority
    cases hnil : blockHashKey hash with
    | none => rw [makeCommit_of_nil hmaj hnil, makeCommit_of_nil hmaj' (hkey.trans hnil)]
    | some data =>
      -- a key that is not nil determines the hash
      obtain ⟨x, rfl, hne⟩ := exists_hash_of_key hnil
      obtain rfl := blockHash_of_key hne hkey
      rw [makeCommit_of_majority htype hmaj hne,
        makeCommit_of_majority (h.setting.voteType.trans htype) hmaj' hne, h.setting.height,
        h.setting.round]
      refine congrArg (fun sigs => some (Commit.mk _ _ _ sigs)) ?_
      refine KeyedSort.insertionSort_congr ((h.perm_entries.filter _).map _) ?_
      rw [List.map_map]
      exact hws.votesForBlock_nodup x

/-! ## Runs of valid votes -/

/-- The parent's generation at the call. -/
def Call.generation : Call → Nat
  | .addVote generation _ _ => generation
  | .addVoteForReplay generation _ => generation

/-- `AddVote` looks at the clock, `addVoteForReplay` does not. -/
def Call.Timely : Call → Prop
  | .addVote _ now vote =>
    vote.timestamp ≤ now + maxTimestampDrift ∧ now - maxTimestampDrift ≤ vote.timestamp
  | .addVoteForReplay _ _ => True

/-- A call with a valid vote: one of a known validator, correctly signed, for this height,
round and type, and in time. -/
structure Call.Valid (vs : VoteSet) (c : Call) : Prop where
  verified : ∃ val, vs.Verified c.vote val
  fresh : vs.isStale c.generation = false
  timely : c.Timely

theorem Call.Valid.congr {ws : VoteSet} {c : Call} (h : c.Valid vs) (hsame : vs.SameSetting ws) :
    c.Valid ws := by
  obtain ⟨val, hval⟩ := h.verified
  refine ⟨⟨val, ?_⟩, ?_, h.timely⟩
  · exact
      { height := hval.height.trans hsame.height.symm
        round := hval.round.trans hsame.round.symm
        type := hval.type.trans hsame.voteType.symm
        found := by rw [hsame.validatorSet]; exact hval.found
        name := hval.name
        signature := by rw [hsame.chainID]; exact hval.signature }
  · unfold isStale
    rw [hsame.generation]
    exact h.fresh

/-- A valid vote is stored, unless its validator has voted before. -/
theorem Inv.call_valid (h : vs.Inv) {c : Call} (hvalid : c.Valid vs)
    (hnone : vs.votes.lookup c.vote.validatorIndex = none) :
    ∃ val, vs.Verified c.vote val ∧ vs.call c = (.ok true, vs.store val c.vote) := by
  obtain ⟨val, hval⟩ := hvalid.verified
  refine ⟨val, hval, ?_⟩
  cases c with
  | addVote g now vote =>
    exact h.addVote_accepts hval hnone hvalid.fresh hvalid.timely.1 hvalid.timely.2
  | addVoteForReplay g vote =>
    have hmatch : vs.matchesSet vote = true :=
      (vs.matchesSet_iff vote).mpr ⟨hval.height, hval.round, hval.type⟩
    have hfresh : vs.isStale g = false := hvalid.fresh
    show vs.addVoteForReplay g vote = _
    unfold addVoteForReplay
    rw [if_neg (by simp [hfresh]), if_neg (by simp [hmatch])]
    exact h.addVoteInternal_accepts hval hnone

/-- A run of valid votes of validators that have not voted adds these votes and no others. -/
theorem Inv.lookup_calls (cs : List Call) : ∀ {vs : VoteSet}, vs.Inv →
    (∀ c ∈ cs, c.Valid vs) → (cs.map fun c => c.vote.validatorIndex).Nodup →
    (∀ c ∈ cs, vs.votes.lookup c.vote.validatorIndex = none) → ∀ i vote,
    (vs.calls cs).votes.lookup i = some vote ↔
      vs.votes.lookup i = some vote ∨ vote ∈ cs.map Call.vote ∧ vote.validatorIndex = i := by
  induction cs with
  | nil =>
    intro vs _ _ _ _ i vote
    simp
  | cons c cs ih =>
    intro vs h hvalid hnodup hnone i vote
    rw [List.map_cons, List.nodup_cons] at hnodup
    obtain ⟨hnew, hnodup⟩ := hnodup
    have hc := hnone c (List.mem_cons_self ..)
    obtain ⟨val, hval, heq⟩ := h.call_valid (hvalid c (List.mem_cons_self ..)) hc
    rw [calls_cons, heq]
    have hsame : vs.SameSetting (vs.store val c.vote) := ⟨rfl, rfl, rfl, rfl, rfl, rfl⟩
    rw [ih (h.store hval hc) (fun d hd => (hvalid d (List.mem_cons_of_mem _ hd)).congr hsame)
      hnodup ?fresh, lookup_store]
    case fresh =>
      intro d hd
      rw [lookup_store, if_neg, hnone d (List.mem_cons_of_mem _ hd)]
      intro heq
      exact hnew (heq ▸ List.mem_map_of_mem (f := fun c : Call => c.vote.validatorIndex) hd)
    -- the first vote is the one stored for its own validator, and for no other
    by_cases hi : i = c.vote.validatorIndex
    · subst hi
      rw [if_pos rfl, hc, List.map_cons, List.mem_cons]
      constructor
      · rintro (hvote | ⟨hmem, hindex⟩)
        · obtain rfl := Option.some_inj.mp hvote
          exact .inr ⟨.inl rfl, rfl⟩
        · exact .inr ⟨.inr hmem, hindex⟩
      · rintro (hvote | ⟨rfl | hmem, hindex⟩)
        · cases hvote
        · exact .inl rfl
        · exact .inr ⟨hmem, hindex⟩
    · rw [if_neg hi, List.map_cons, List.mem_cons]
      constructor
      · rintro (hvote | ⟨hmem, hindex⟩)
        · exact .inl hvote
        · exact .inr ⟨.inr hmem, hindex⟩
      · rintro (hvote | ⟨rfl | hmem, hindex⟩)
        · exact .inl hvote
        · exact absurd hindex.symm hi
        · exact .inr ⟨hmem, hindex⟩

/-- **The order of votes does not matter.** -/
theorem order_irrelevant (chainID : GoString) (height round : Int) (t : VoteType)
    (validatorSet : ValidatorSet) (hwf : validatorSet.Wf) (generation : Option Nat)
    (cs cs' : List Call) :
    let empty := VoteSet.new chainID height round t validatorSet generation
    (∀ c ∈ cs, c.Valid empty) → (∀ c ∈ cs', c.Valid empty) →
    (cs.map fun c => c.vote.validatorIndex).Nodup →
    (cs.map Call.vote).Perm (cs'.map Call.vote) →
    let vs := empty.calls cs
    let ws := empty.calls cs'
    ws.votingPower = vs.votingPower ∧ ws.hasTwoThirdsAny = vs.hasTwoThirdsAny ∧
      ws.getVotes = vs.getVotes ∧ ws.makeCommit = vs.makeCommit ∧
      ws.twoThirdsMajority.map blockHashKey = vs.twoThirdsMajority.map blockHashKey := by
  intro empty hvalid hvalid' hnodup hperm vs ws
  have hempty : empty.Inv := inv_new hwf
  have hnone : ∀ i, empty.votes.lookup i = none := fun i => rfl
  have hnodup' : (cs'.map fun c => c.vote.validatorIndex).Nodup := by
    have hindices := hperm.map Vote.validatorIndex
    rw [List.map_map, List.map_map] at hindices
    exact hindices.nodup_iff.mp hnodup
  -- the two runs store the same votes; all else follows from the invariant of each
  have hsame : vs.SameVotes ws := by
    have hvs := sameSetting_calls empty cs
    have hws := sameSetting_calls empty cs'
    refine ⟨⟨hws.chainID.trans hvs.chainID.symm, hws.height.trans hvs.height.symm,
      hws.round.trans hvs.round.symm, hws.voteType.trans hvs.voteType.symm,
      hws.validatorSet.trans hvs.validatorSet.symm,
      hws.generation.trans hvs.generation.symm⟩, fun i => Option.ext fun vote => ?_⟩
    rw [hempty.lookup_calls cs hvalid hnodup (fun c _ => hnone _),
      hempty.lookup_calls cs' hvalid' hnodup' (fun c _ => hnone _), hperm.mem_iff]
  have hvs : vs.Inv := hempty.calls cs
  have hws : ws.Inv := hempty.calls cs'
  refine ⟨hsame.sum_eq hvs hws, hsame.hasTwoThirdsAny_eq hvs hws, hsame.getVotes_eq hws,
    hsame.makeCommit_eq hvs hws, ?_⟩
  rw [hws.key_twoThirdsMajority, hvs.key_twoThirdsMajority, hsame.maj23_eq hvs hws]

end

attribute [local instance] transparent

/-- Votes of the validators of a concrete set are valid. -/
theorem valid_vote {vs : VoteSet} {k : Byte} {index : Nat} {b : Option Block}
    (hchain : vs.chainID = []) (hgeneration : vs.myGeneration = none)
    (hval : (vs.validatorSet.getByIndex index).map (fun v => (v.name, v.publicKey)) =
      some (⟨some [k]⟩, Scenario.key k)) :
    Call.Valid vs (.addVote 0 0 (Scenario.vote k index vs.voteType vs.height vs.round b)) := by
  obtain ⟨val, hfound, heq⟩ := Option.map_eq_some_iff.mp hval
  obtain ⟨hname, hkey⟩ := Prod.mk.inj heq
  refine ⟨⟨val, rfl, rfl, rfl, hfound, hname, ?_⟩, ?_, ?_⟩
  · rw [hkey, hchain]
    exact Scenario.verify_signature k _
  · unfold isStale
    rw [hgeneration]
  · exact ⟨show (0 : Int) ≤ 0 + maxTimestampDrift by decide,
      show 0 - maxTimestampDrift ≤ (0 : Int) by decide⟩

theorem order_irrelevant_strong :
    let empty := VoteSet.new [] 1 0 .precommit (Scenario.validatorSet _ Scenario.isOk_strong).1 none
    let first := Call.addVote 0 0 (Scenario.vote 1 0 .precommit 1 0 (some (Scenario.block 1 1)))
    let second := Call.addVote 0 0 (Scenario.vote 2 1 .precommit 1 0 none)
    (empty.calls [first, second]).makeCommit.isSome = true ∧
      (empty.calls [second, first]).makeCommit = (empty.calls [first, second]).makeCommit := by
  intro empty first second
  have hfirst : first.Valid empty := valid_vote rfl rfl (by decide +kernel)
  have hsecond : second.Valid empty := valid_vote rfl rfl (by decide +kernel)
  refine ⟨by decide +kernel, ?_⟩
  refine (order_irrelevant [] 1 0 .precommit _ (Scenario.validatorSet _ Scenario.isOk_strong).2
    none [first, second] [second, first] ?_ ?_ (by decide) (List.Perm.swap _ _ _)).2.2.2.1
  · rintro c hc
    rcases List.mem_pair.mp hc with rfl | rfl
    · exact hfirst
    · exact hsecond
  · rintro c hc
    rcases List.mem_pair.mp hc with rfl | rfl
    · exact hsecond
    · exact hfirst

end VoteSet

end Leaderberry
