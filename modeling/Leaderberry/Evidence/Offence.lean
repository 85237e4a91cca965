import Leaderberry.Evidence.Pool
import Leaderberry.Engine.Scenario

/-!
# One offence, one piece of evidence

The evidence for a pair of conflicting votes carries the time at which a node found it, and
so does its key. The pool knows committed evidence only by its key; a `Ledger` is a pool with
the evidence behind these keys.

- `single_evidence_iff`: the pending and the committed evidence about a pair of votes is at
  most one piece exactly as long as no delivery builds a second one while there is one, and
  no other one is marked as committed.
- `redelivery_duplicates`: delivering the second vote twice is enough to have two.
-/

namespace Leaderberry.Byzantine

/-- What reaches the pool of a node: votes that `ConsensusState.handleVote` gets, with the
time and the validator set at that moment, and the calls of the application. -/
inductive NodeOp where
  | handleVote (now : Int) (order : List GoString) (vote : Option Vote)
      (valSet : Option ValidatorSet)
  | markCommitted (evidence : List Evidence)
  | update (height blockTime : Int)

/-- The pool, and the evidence that was marked as committed and is not forgotten yet. -/
structure Ledger where
  pool : Pool
  marked : List Evidence

/-- The proof is about the two votes, in one order or the other. -/
def DuplicateVoteEvidence.About (dve : DuplicateVoteEvidence) (a b : Vote) : Prop :=
  (dve.voteA = a ∧ dve.voteB = b) ∨ (dve.voteA = b ∧ dve.voteB = a)

/-- The evidence holds a proof about the two votes. Whoever built it, and when. -/
def Evidence.About [Encoder] (ev : Evidence) (a b : Vote) : Prop :=
  ev.type = .duplicateVote ∧ ∃ dve : DuplicateVoteEvidence, dve.About a b ∧
    Encoder.marshalDuplicateVoteEvidence dve = some ev.data

section

variable [Externals] {p : Pool}

namespace Ledger

/-- The pool changed: what is not committed any more is dropped. -/
def settle (p : Pool) (marked : List Evidence) : Ledger :=
  ⟨p, marked.filter fun ev => evidenceKey ev ∈ p.committed⟩

/-- The evidence is pending or committed. -/
def Holds (l : Ledger) (ev : Evidence) : Prop := ev ∈ l.pool.pending ∨ ev ∈ l.marked

variable [Encoder]

/-- All evidence about the pair has one key: pending evidence has distinct keys, and
committed evidence is known by its key. -/
def Single (a b : Vote) (l : Ledger) : Prop :=
  ∀ ev ev', l.Holds ev → l.Holds ev' → ev.About a b → ev'.About a b →
    evidenceKey ev = evidenceKey ev'

/-- One event. -/
def step (chainID : GoString) (l : Ledger) : NodeOp → Ledger
  | .handleVote now order vote valSet =>
    { l with pool := l.pool.handleVote now order vote valSet chainID }
  | .markCommitted evidence => settle (l.pool.markCommitted evidence) (l.marked ++ evidence)
  | .update height blockTime => settle (l.pool.update height blockTime) l.marked

/-- A sequence of events. -/
def run (chainID : GoString) (l : Ledger) (ops : List NodeOp) : Ledger :=
  ops.foldl (step chainID) l

end Ledger

variable [Encoder]

/-- The delivery of `vote` at time `now` adds evidence: a known validator signed it, the pool
remembers a vote of its for another block, whose signature is good under the same validator
set, and the pool has a place for the evidence. Its key has `now` in it. -/
structure Pool.Rebuilds (chainID : GoString) (p : Pool) (now : Int) (vote : Vote)
    (vs : ValidatorSet) (existing : Vote) (val : NamedValidator) (data : Bytes) : Prop where
  known : vs.getByName (accountNameString vote.validator) = some val
  signed : unlessEmpty chainID (verifyVoteSignature chainID vote val.publicKey) = .ok ()
  remembered : p.seenVotes.lookup (voteKey vote) = some existing
  conflict : votesForSameBlock existing vote = false
  verified : unlessEmpty chainID (verifyDuplicateVoteEvidence
    (Pool.equivocation now existing vote vs val) chainID vs) = .ok ()
  encoded : Encoder.marshalDuplicateVoteEvidence (Pool.equivocation now existing vote vs val) =
    some data
  place : p.Accepts ((Pool.equivocation now existing vote vs val).wrap data)

/-- The event is a second one about the pair: a delivery that adds evidence about the pair
while there is some, or a call of `MarkCommitted` with evidence about the pair while other
evidence about it stays or is in the same call. -/
def Ledger.Repeats (chainID : GoString) (a b : Vote) (l : Ledger) : NodeOp → Prop
  | .handleVote now _ vote valSet => ∃ v vs existing val data, vote = some v ∧
      valSet = some vs ∧ l.pool.Rebuilds chainID now v vs existing val data ∧
      ((Pool.equivocation now existing v vs val).wrap data).About a b ∧
      ∃ ev, l.Holds ev ∧ ev.About a b
  | .markCommitted evidence => ∃ ev ∈ evidence, ev.About a b ∧
      ∃ ev', ev'.About a b ∧ evidenceKey ev' ≠ evidenceKey ev ∧
        (ev' ∈ evidence ∨ ev' ∈ l.marked ∨
          ev' ∈ l.pool.pending ∧ evidenceKey ev' ∉ evidence.map evidenceKey)
  | .update _ _ => False

variable {chainID : GoString} {now : Int} {order : List GoString} {vote : Option Vote}
  {valSet : Option ValidatorSet}

/-- Evidence that was found goes to `AddEvidence` if it can be encoded: the second check is
the one it has passed before. -/
theorem Pool.handleVote_found {dve : DuplicateVoteEvidence}
    (hfound : (p.checkVote now order vote valSet chainID).1 = .ok (some dve)) :
    p.handleVote now order vote valSet chainID =
      match Encoder.marshalDuplicateVoteEvidence dve with
      | none => p
      | some data => (p.addEvidence (some (dve.wrap data))).2 := by
  obtain ⟨hpool, v, vs, val, existing, -, rfl, -, -, -, -, hverify, -⟩ := checkVote_found hfound
  have hcall : p.checkVote now order vote (some vs) chainID = (.ok (some dve), p) :=
    Prod.ext hfound hpool
  rw [handleVote, hcall]
  dsimp only
  rw [addDuplicateVoteEvidence, hverify]
  cases Encoder.marshalDuplicateVoteEvidence dve <;> rfl

/-- Without evidence only the votes change. -/
theorem Pool.handleVote_none
    (hnone : ∀ dve, (p.checkVote now order vote valSet chainID).1 ≠ .ok (some dve)) :
    ∃ m, p.handleVote now order vote valSet chainID = { p with seenVotes := m } := by
  obtain ⟨m, hm⟩ := p.checkVote_pool now order vote valSet chainID
  refine ⟨m, ?_⟩
  rw [handleVote, ← hm]
  split
  · rename_i hcall
    exact absurd (congrArg Prod.fst hcall) (hnone _)
  · rename_i hcall
    rw [hcall]

/-- A delivery that adds evidence appends it. -/
theorem Pool.Rebuilds.handleVote {v existing : Vote} {vs : ValidatorSet} {val : NamedValidator}
    {data : Bytes} (h : p.Rebuilds chainID now v vs existing val data) :
    p.handleVote now order (some v) (some vs) chainID =
      { p with pending := p.pending ++ [(equivocation now existing v vs val).wrap data] } := by
  have hfound : (p.checkVote now order (some v) (some vs) chainID).1 =
      .ok (some (equivocation now existing v vs val)) := by
    unfold checkVote
    simp only [h.known, h.signed, h.remembered, h.conflict, h.verified, Bool.false_eq_true,
      if_false]
  rw [handleVote_found hfound, h.encoded]
  exact addEvidence_of_accepts h.place

/-- A delivery adds evidence, or leaves what is pending and what is committed. -/
theorem Pool.handleVote_cases (chainID : GoString) (now : Int) (order : List GoString)
    (vote : Option Vote) (valSet : Option ValidatorSet) (p : Pool) :
    ((p.handleVote now order vote valSet chainID).pending = p.pending ∧
      (p.handleVote now order vote valSet chainID).committed = p.committed) ∨
    ∃ v vs existing val data, vote = some v ∧ valSet = some vs ∧
      p.Rebuilds chainID now v vs existing val data := by
  by_cases hfound : ∃ dve, (p.checkVote now order vote valSet chainID).1 = .ok (some dve)
  · obtain ⟨dve, hfound⟩ := hfound
    rw [handleVote_found hfound]
    obtain ⟨-, v, vs, val, existing, hv, hvs, hknown, hsigned, hseen, hconflict, hverify, rfl⟩ :=
      checkVote_found hfound
    cases hdata : Encoder.marshalDuplicateVoteEvidence (equivocation now existing v vs val) with
    | none => exact .inl ⟨rfl, rfl⟩
    | some data =>
      dsimp only
      obtain hsame | ⟨e, he, haccepts, -⟩ :=
        p.addEvidence_cases (some ((equivocation now existing v vs val).wrap data))
      · rw [hsame]
        exact .inl ⟨rfl, rfl⟩
      · cases he
        exact .inr ⟨v, vs, existing, val, data, hv, hvs,
          ⟨hknown, hsigned, hseen, hconflict, hverify, hdata, haccepts⟩⟩
  · obtain ⟨m, hm⟩ := handleVote_none fun dve hdve => hfound ⟨dve, hdve⟩
    rw [hm]
    exact .inl ⟨rfl, rfl⟩

namespace Ledger

variable {a b : Vote} {l : Ledger} {ev : Evidence}

theorem run_concat (l : Ledger) (ops : List NodeOp) (op : NodeOp) :
    l.run chainID (ops ++ [op]) = (l.run chainID ops).step chainID op :=
  List.foldl_concat ..

/-- What is marked is committed. -/
def Kept (l : Ledger) : Prop := ∀ ev ∈ l.marked, evidenceKey ev ∈ l.pool.committed

omit [Encoder] in
theorem kept_settle (p : Pool) (marked : List Evidence) : (settle p marked).Kept :=
  fun _ hev => of_decide_eq_true (List.mem_filter.mp hev).2

theorem Kept.step (h : l.Kept) (op : NodeOp) : (l.step chainID op).Kept := by
  cases op with
  | handleVote now order vote valSet =>
    intro ev hev
    show evidenceKey ev ∈ (l.pool.handleVote now order vote valSet chainID).committed
    obtain ⟨-, hcommitted⟩ | ⟨v, vs, existing, val, data, rfl, rfl, hbuilt⟩ :=
      l.pool.handleVote_cases chainID now order vote valSet
    · rw [hcommitted]
      exact h ev hev
    · rw [hbuilt.handleVote]
      exact h ev hev
  | markCommitted | update => exact kept_settle _ _

theorem kept_run (config : Config) (ops : List NodeOp) :
    (run chainID ⟨newPool config, []⟩ ops).Kept := by
  induction ops using List.reverseRecOn with
  | nil => exact fun ev hev => by cases hev
  | append_singleton ops op ih =>
    rw [run_concat]
    exact ih.step op

/-- What is there after `MarkCommitted`: what it got, and what was there and has not left the
pending evidence. -/
theorem holds_markCommitted {evidence : List Evidence} (hkept : l.Kept) :
    (l.step chainID (.markCommitted evidence)).Holds ev ↔ ev ∈ evidence ∨ ev ∈ l.marked ∨
      ev ∈ l.pool.pending ∧ evidenceKey ev ∉ evidence.map evidenceKey := by
  have hmarked : ∀ ev ∈ l.marked ++ evidence,
      evidenceKey ev ∈ (l.pool.markCommitted evidence).committed := by
    intro ev hev
    rcases List.mem_append.mp hev with hev | hev
    · exact Finset.mem_union_left _ (hkept ev hev)
    · exact Finset.mem_union_right _ (List.mem_toFinset.mpr (List.mem_map_of_mem hev))
  have hsettled : (l.step chainID (.markCommitted evidence)).marked = l.marked ++ evidence :=
    List.filter_eq_self.mpr fun ev hev => decide_eq_true (hmarked ev hev)
  have hpending : ev ∈ (l.step chainID (.markCommitted evidence)).pool.pending ↔
      ev ∈ l.pool.pending ∧ evidenceKey ev ∉ evidence.map evidenceKey := by
    simp [Ledger.step, settle, Pool.markCommitted]
  rw [Holds, hsettled, hpending, List.mem_append]
  tauto

/-- What is there after `Update` was there before. -/
theorem holds_update {height blockTime : Int}
    (h : (l.step chainID (.update height blockTime)).Holds ev) : l.Holds ev :=
  h.imp List.mem_of_mem_filter List.mem_of_mem_filter

/-- An event that is no second one leaves at most one piece of evidence. -/
theorem Single.step (hone : l.Single a b) (hkept : l.Kept) {op : NodeOp}
    (hno : ¬ l.Repeats chainID a b op) : (l.step chainID op).Single a b := by
  intro ev ev' hev hev' habout habout'
  cases op with
  | handleVote now order vote valSet =>
    obtain ⟨hpending, -⟩ | ⟨v, vs, existing, val, data, rfl, rfl, hbuilt⟩ :=
      l.pool.handleVote_cases chainID now order vote valSet
    · simp only [Ledger.step, Holds, hpending] at hev hev'
      exact hone ev ev' hev hev' habout habout'
    · -- if the new piece is about the pair, then nothing about the pair was there
      have hnew (e e' : Evidence)
          (he : e = (Pool.equivocation now existing v vs val).wrap data) (habout : e.About a b)
          (hold : l.Holds e') (habout' : e'.About a b) : False :=
        hno ⟨v, vs, existing, val, data, rfl, rfl, hbuilt, he ▸ habout, e', hold, habout'⟩
      have hcases (e : Evidence) (he : (l.step chainID (.handleVote now order (some v)
          (some vs))).Holds e) :
          l.Holds e ∨ e = (Pool.equivocation now existing v vs val).wrap data := by
        simp only [Ledger.step, Holds, hbuilt.handleVote, List.mem_append,
          List.mem_singleton] at he
        unfold Holds
        tauto
      rcases hcases ev hev with hold | hlast
      · rcases hcases ev' hev' with hold' | hlast'
        · exact hone ev ev' hold hold' habout habout'
        · exact (hnew ev' ev hlast' habout' hold habout).elim
      · rcases hcases ev' hev' with hold' | hlast'
        · exact (hnew ev ev' hlast habout hold' habout').elim
        · rw [hlast, hlast']
  | markCommitted evidence =>
    by_contra hne
    rw [holds_markCommitted hkept] at hev hev'
    rcases hev with hin | hold
    · exact hno ⟨ev, hin, habout, ev', habout', Ne.symm hne, hev'⟩
    · rcases hev' with hin' | hold'
      · exact hno ⟨ev', hin', habout', ev, habout, hne, .inr hold⟩
      · have hholds (e : Evidence) (he : e ∈ l.marked ∨
            e ∈ l.pool.pending ∧ evidenceKey e ∉ evidence.map evidenceKey) : l.Holds e :=
          he.symm.imp_left And.left
        exact hne (hone ev ev' (hholds ev hold) (hholds ev' hold') habout habout')
  | update height blockTime =>
    exact hone ev ev' (holds_update hev) (holds_update hev') habout habout'

/-- A second event leaves two pieces: the new one has a key that was not in the pool. -/
theorem Repeats.not_single (hkept : l.Kept) {op : NodeOp} (h : l.Repeats chainID a b op) :
    ¬ (l.step chainID op).Single a b := by
  intro hone
  cases op with
  | handleVote now order vote valSet =>
    obtain ⟨v, vs, existing, val, data, rfl, rfl, hbuilt, hnew, ev, hev, habout⟩ := h
    have hpool : (l.step chainID (.handleVote now order (some v) (some vs))).pool =
        { l.pool with pending := l.pool.pending ++
            [(Pool.equivocation now existing v vs val).wrap data] } := hbuilt.handleVote
    have hold : (l.step chainID (.handleVote now order (some v) (some vs))).Holds ev := by
      rw [Holds, hpool]
      exact hev.imp_left (List.mem_append_left _)
    have hlast : (l.step chainID (.handleVote now order (some v) (some vs))).Holds
        ((Pool.equivocation now existing v vs val).wrap data) := by
      rw [Holds, hpool]
      exact .inl (List.mem_append_right _ (List.mem_singleton_self _))
    have hkey := hone _ _ hold hlast habout hnew
    rcases hev with hpending | hmarked
    · exact hbuilt.place.fresh (hkey ▸ List.mem_map_of_mem hpending)
    · exact hbuilt.place.uncommitted (hkey ▸ hkept ev hmarked)
  | markCommitted evidence =>
    obtain ⟨ev, hin, habout, ev', habout', hne, hev'⟩ := h
    exact hne (hone ev' ev ((holds_markCommitted hkept).mpr hev')
      ((holds_markCommitted hkept).mpr (.inl hin)) habout' habout)
  | update height blockTime => exact h

omit [Externals] [Encoder] in
theorem not_holds_newPool {config : Config} :
    ¬ Holds ⟨newPool config, []⟩ ev := by
  simp [Holds, newPool]

/-- **One offence, one piece of evidence, unless there is a second one.** In a run of a new
pool, the evidence about a pair of votes that is pending or committed is at most one piece,
at every moment, exactly if no delivery of one vote while the other is remembered adds
evidence while there is some, and `MarkCommitted` does not get other evidence about the pair
than what is there. The key of a piece has the time of the delivery in it, so that only a
delivery at the same nanosecond is taken for the same piece. -/
theorem single_evidence_iff (config : Config) (a b : Vote) (ops : List NodeOp) :
    (∀ before, before <+: ops → (run chainID ⟨newPool config, []⟩ before).Single a b) ↔
      ∀ before op, before ++ [op] <+: ops →
        ¬ (run chainID ⟨newPool config, []⟩ before).Repeats chainID a b op := by
  constructor
  · intro hone before op hbefore hrepeat
    refine hrepeat.not_single (kept_run config before) ?_
    rw [← run_concat]
    exact hone _ hbefore
  · intro hrepeat before
    induction before using List.reverseRecOn with
    | nil => exact fun _ ev _ hev => (not_holds_newPool hev).elim
    | append_singleton before op ih =>
      intro hbefore
      rw [run_concat]
      refine (ih ?_).step (kept_run config before) (hrepeat before op hbefore)
      exact (List.prefix_append before [op]).trans hbefore

end Ledger

end

namespace Ledger

attribute [local instance] transparent

/-- Both votes and the time, for concrete runs. -/
@[reducible] def pairEncoder : Encoder where
  marshalDuplicateVoteEvidence dve := some (Externals.marshalVote dve.voteA ++
    Externals.marshalVote dve.voteB ++ [toByte dve.timestamp])

attribute [local instance] pairEncoder

def soleSet : ValidatorSet := (Scenario.validatorSet [(1, 1)] Scenario.isOk_sole).1

/-- The prevote for `hash` reaches the node at time `now`. -/
def delivery (now : Int) (hash : Hash) : NodeOp :=
  .handleVote now [] (some (Scenario.ballot 1 0 (some hash))) (some soleSet)

/-- The proof about the two prevotes that is built at time `now`. -/
def proofAt (now : Int) : DuplicateVoteEvidence where
  voteA := Scenario.ballot 1 0 (some ⟨[1]⟩)
  voteB := Scenario.ballot 1 0 (some ⟨[2]⟩)
  totalVotingPower := 1
  validatorPower := 1
  timestamp := now

/-- The evidence of a node that found the pair at time `now`. -/
def pieceAt (now : Int) : Evidence :=
  (proofAt now).wrap (Externals.marshalVote (proofAt now).voteA ++
    Externals.marshalVote (proofAt now).voteB ++ [toByte now])

theorem pieceAt_about (now : Int) : (pieceAt now).About
    (Scenario.ballot 1 0 (some ⟨[1]⟩)) (Scenario.ballot 1 0 (some ⟨[2]⟩)) :=
  ⟨rfl, proofAt now, .inl ⟨rfl, rfl⟩, rfl⟩

/-- Two prevotes of one validator for different blocks, the second of them delivered again
one nanosecond later: the pool holds the same offence twice. -/
theorem redelivery_duplicates :
    let l := run [7] ⟨newPool defaultConfig, []⟩
      [delivery 1 ⟨[1]⟩, delivery 2 ⟨[2]⟩, delivery 3 ⟨[2]⟩]
    l.pool.pending = [pieceAt 2, pieceAt 3] ∧
      ¬ l.Single (Scenario.ballot 1 0 (some ⟨[1]⟩)) (Scenario.ballot 1 0 (some ⟨[2]⟩)) := by
  intro l
  have hpending : l.pool.pending = [pieceAt 2, pieceAt 3] := by decide +kernel
  refine ⟨hpending, fun hone => ?_⟩
  have hkey := hone (pieceAt 2) (pieceAt 3) (.inl (by simp [hpending])) (.inl (by simp [hpending]))
    (pieceAt_about 2) (pieceAt_about 3)
  exact absurd (evidenceKey_inj hkey).2 (by decide)

end Ledger

end Leaderberry.Byzantine
