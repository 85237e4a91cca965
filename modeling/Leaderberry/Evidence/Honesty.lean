import Leaderberry.Evidence.Accountability
import Leaderberry.Privval.DoubleSign
import Leaderberry.Types.Messages

/-!
# Honest validators are not convicted

Duplicate-vote evidence is two votes of one validator for different blocks at one position.
A validator whose key is only used through its `FilePV` never gives out two such signatures
(`Privval.DoubleSign`), but what `FilePV` keeps apart are sign bytes and what the evidence
compares are votes. The two fit together on one chain:

- a signature that is out is one on the sign bytes of a vote or a proposal that the validator
  was asked to sign (`SignerState.mem_released_run`);
- sign bytes of a vote are not those of a proposal (`proposal_ne_vote`), and sign bytes tell
  the vote (`Vote.agrees_of_encodeTo`), so they tell the position under which `FilePV` filed
  them (`slot_of_signBytes`).

On two chains they do not: that is what `signBytes_confused` is about.
-/

namespace Leaderberry

open FieldLoop

/-- The chain that a call names. -/
def SignEvent.chainID : SignEvent → Option GoString
  | .vote chainID _ _ => some chainID
  | .proposal chainID _ _ => some chainID
  | .load => none

/-- The step under which `FilePV` files a vote depends on the number of its type only. -/
theorem voteStep_eq {t t' : VoteType} {step step' : Int} (hcode : t.code = t'.code)
    (h : voteStep t = some step) (h' : voteStep t' = some step') : step = step' := by
  cases t <;> cases t' <;> cases h <;> cases h' <;> first | rfl | cases hcode

/-! ## What comes out was asked for -/

namespace SignerState

variable {s : SignerState} {r : Release}

theorem mem_released_called {payload : Option SignPayload}
    {result : SignOutcome × Option FilePV × FilePVState}
    (hr : r ∈ (s.called payload result).released) :
    r ∈ s.released ∨ payload = some r.payload := by
  unfold called at hr
  dsimp only at hr
  split at hr
  · rcases List.mem_cons.mp hr with rfl | hr
    · exact .inr rfl
    · exact .inl hr
  · exact .inl hr

variable [Externals]

theorem mem_released_step {event : SignEvent} (hr : r ∈ (s.step event).released) :
    r ∈ s.released ∨ event.payload = some r.payload := by
  unfold step at hr
  split at hr
  · exact .inl hr
  · exact mem_released_called hr
  · exact mem_released_called hr
  · exact .inl hr

theorem mem_released_run (events : List SignEvent) : ∀ {s : SignerState},
    r ∈ (s.run events).released →
      r ∈ s.released ∨ ∃ event ∈ events, event.payload = some r.payload := by
  induction events with
  | nil => exact fun hr => .inl hr
  | cons event rest ih =>
    intro s hr
    rcases ih hr with hr | ⟨e, he, hpayload⟩
    · exact (mem_released_step hr).imp id fun hp => ⟨event, List.mem_cons_self .., hp⟩
    · exact .inr ⟨e, List.mem_cons_of_mem _ he, hpayload⟩

end SignerState

section

variable [Externals] [Cramberry]

/-! ## Positions -/

/-- On one chain, what has the sign bytes of a vote was filed under the vote's position. -/
theorem slot_of_signBytes (hvote : ∀ v, Externals.marshalVote v = v.encodeTo)
    (hproposal : ∀ p, Externals.marshalProposal p = p.encodeTo) {chainID : GoString}
    {event : SignEvent} {payload : SignPayload} (hevent : event.payload = some payload)
    (hchain : ∀ c ∈ event.chainID, c = chainID) {vote : Vote}
    (hbytes : payload.signBytes = voteSignBytes chainID vote) :
    payload.height = vote.height ∧ payload.round = vote.round ∧
      ∃ v : Vote, v.type.code = vote.type.code ∧ voteStep v.type = some payload.step := by
  cases event with
  | vote chainID' v _ =>
    obtain rfl : chainID' = chainID := hchain _ rfl
    obtain ⟨step, hstep, rfl⟩ := Option.map_eq_some_iff.mp hevent
    have hencoded : Vote.encodeTo { v with signature := ⟨[]⟩ } =
        Vote.encodeTo { vote with signature := ⟨[]⟩ } := by
      rw [← hvote, ← hvote]
      exact List.append_cancel_left hbytes
    have hagrees := Vote.agrees_of_encodeTo hencoded
    exact ⟨hagrees.height, hagrees.round, v, hagrees.type, hstep⟩
  | proposal chainID' p _ =>
    -- a proposal is no vote
    obtain rfl : chainID' = chainID := hchain _ rfl
    cases hevent
    have hencoded := List.append_cancel_left hbytes
    rw [hvote, hproposal] at hencoded
    exact absurd (congrArg (· ++ []) hencoded) (proposal_ne_vote _ _ [] [])
  | load => cases hevent

/-! ## Evidence -/

/-- A vote whose signature verifies was signed by the validator itself. -/
def SignedBy (chainID : GoString) (pubKey : PublicKey) (s : SignerState) (vote : Vote) : Prop :=
  verifyVoteSignature chainID vote pubKey = .ok () →
    ∃ r ∈ s.released, r.payload.signBytes = voteSignBytes chainID vote

/-- **An honest validator is not convicted.** Its key is used through its `FilePV` only, for one
chain, with whatever is presented to it and wherever it crashes, and signatures on the two votes
that verify under its public key are among those it released. Then
`VerifyDuplicateVoteEvidence` refuses the votes as evidence. -/
theorem honest_not_convicted (hvote : ∀ v, Externals.marshalVote v = v.encodeTo)
    (hproposal : ∀ p, Externals.marshalProposal p = p.encodeTo) {vs : ValidatorSet}
    {dve : Byzantine.DuplicateVoteEvidence} {val : NamedValidator}
    (hval : vs.getByName (accountNameString dve.voteA.validator) = some val) {privKey : Bytes}
    (crypto : SoundCrypto val.publicKey privKey) {chainID : GoString} {events : List SignEvent}
    (hfree : CollisionFree fun m => ∃ event ∈ events, ∃ payload,
      event.payload = some payload ∧ payload.signBytes = m)
    (hchain : ∀ event ∈ events, ∀ c ∈ event.chainID, c = chainID)
    (hA : SignedBy chainID val.publicKey ((SignerState.generate val.publicKey privKey).run events)
      dve.voteA)
    (hB : SignedBy chainID val.publicKey ((SignerState.generate val.publicKey privKey).run events)
      dve.voteB) :
    Byzantine.verifyDuplicateVoteEvidence (some dve) chainID (some vs) ≠ .ok () := by
  intro hok
  obtain ⟨hheight, hround, htype, -, hblock, hsigA, hsigB⟩ :=
    (Byzantine.verifyDuplicateVoteEvidence_ok_iff hval).mp hok
  obtain ⟨rA, hrA, hbytesA⟩ := hA hsigA
  obtain ⟨rB, hrB, hbytesB⟩ := hB hsigB
  have hsafe := Safe.run crypto hfree events safe_generate
    fun event hevent payload hpayload => ⟨event, hevent, payload, hpayload, rfl⟩
  -- both signatures were asked for on this chain
  obtain hnone | ⟨eventA, heventA, hpayloadA⟩ := SignerState.mem_released_run events hrA
  · cases hnone
  obtain hnone | ⟨eventB, heventB, hpayloadB⟩ := SignerState.mem_released_run events hrB
  · cases hnone
  obtain ⟨hheightA, hroundA, vA, htypeA, hstepA⟩ :=
    slot_of_signBytes hvote hproposal hpayloadA (hchain _ heventA) hbytesA
  obtain ⟨hheightB, hroundB, vB, htypeB, hstepB⟩ :=
    slot_of_signBytes hvote hproposal hpayloadB (hchain _ heventB) hbytesB
  -- at one position, so they are on the same bytes
  have hstep : rA.payload.step = rB.payload.step :=
    voteStep_eq (htypeA.trans (htype.trans htypeB.symm)) hstepA hstepB
  have hslot : rA.payload.slot = rB.payload.slot := by
    rw [SignPayload.slot, SignPayload.slot, hheightA, hheightB, hroundA, hroundB, hheight, hround,
      hstep]
  have hbytes := congrArg Watermark.Entry.value
    (hsafe.guarded.unique (List.mem_map_of_mem hrA) (List.mem_map_of_mem hrB) hslot)
  have hencoded : voteSignBytes chainID dve.voteA = voteSignBytes chainID dve.voteB :=
    hbytesA.symm.trans (hbytes.trans hbytesB)
  rw [voteSignBytes, voteSignBytes, hvote, hvote] at hencoded
  have hagrees := Vote.agrees_of_encodeTo (List.append_cancel_left hencoded)
  exact beq_eq_false_iff_ne.mp hblock hagrees.blockHash

end

section framed

attribute [local instance] varintCramberry

@[reducible] def framedExternals : Externals :=
  { transparent with marshalVote := Vote.encodeTo, marshalProposal := Proposal.encodeTo }

attribute [local instance] framedExternals

theorem isOk_seven : (newValidatorSet (Scenario.validators [(7, 1)])).isOk = true := by
  decide +kernel

/-- The set of the validator that `crashHistory` is about. -/
def accusedSet : ValidatorSet := (Scenario.validatorSet [(7, 1)] isOk_seven).1

/-- The vote with the signature of the validator's key. -/
def signedVote (vote : Vote) : Vote :=
  { vote with signature := ⟨Externals.ed25519Sign (List.replicate 64 7) (voteSignBytes [] vote)⟩ }

/-- Evidence of the precommit that the validator signed and of another vote. -/
def accusation (vote : Vote) : Byzantine.DuplicateVoteEvidence where
  voteA := signedVote (unsignedVote .precommit 0 1)
  voteB := vote
  totalVotingPower := 1
  validatorPower := 1
  timestamp := 0

/-- A forged precommit for another block, and a prevote of the next round for another block
that the validator did sign. -/
def accusations : List Byzantine.DuplicateVoteEvidence :=
  [accusation { unsignedVote .precommit 0 2 with signature := ⟨[9]⟩ },
    accusation (signedVote (unsignedVote .prevote 1 2))]

theorem honest_not_convicted_framed :
    (∀ dve ∈ accusations, verifyVoteSignature [] dve.voteA (Scenario.key 7) = .ok ()) ∧
    ∀ dve ∈ accusations,
      Byzantine.verifyDuplicateVoteEvidence (some dve) [] (some accusedSet) ≠ .ok () := by
  have hfree : ∀ event ∈ crashHistory, ∀ event' ∈ crashHistory, ∀ payload ∈ event.payload,
      ∀ payload' ∈ event'.payload,
      Externals.sha256 payload.signBytes = Externals.sha256 payload'.signBytes →
      payload.signBytes = payload'.signBytes := by
    decide +kernel
  have hkey : ∀ dve ∈ accusations, (accusedSet.getByName
      (accountNameString dve.voteA.validator)).map NamedValidator.publicKey =
        some (Scenario.key 7) := by
    decide +kernel
  have hsigned : ∀ dve ∈ accusations, ∀ vote ∈ [dve.voteA, dve.voteB],
      verifyVoteSignature [] vote (Scenario.key 7) = .ok () →
      ∃ r ∈ ((SignerState.generate (Scenario.key 7) (List.replicate 64 7)).run
        crashHistory).released, r.payload.signBytes = voteSignBytes [] vote := by
    decide +kernel
  refine ⟨by decide +kernel, fun dve hdve => ?_⟩
  obtain ⟨val, hval, hpublic⟩ := Option.map_eq_some_iff.mp (hkey dve hdve)
  have crypto : SoundCrypto (Scenario.key 7) (List.replicate 64 7) :=
    ⟨List.length_replicate, fun _ => length_fitTo _ _, fun _ => length_fitTo _ _,
      fun _ => beq_iff_eq.mpr rfl⟩
  have hA := hsigned dve hdve dve.voteA (by simp)
  have hB := hsigned dve hdve dve.voteB (by simp)
  rw [← hpublic] at crypto hA hB
  refine honest_not_convicted (fun _ => rfl) (fun _ => rfl) hval crypto ?_ (by decide +kernel)
    hA hB
  rintro _ _ ⟨event, hevent, payload, hpayload, rfl⟩ ⟨event', hevent', payload', hpayload', rfl⟩
  exact hfree event hevent event' hevent' payload hpayload payload' hpayload'

end framed

end Leaderberry
