import Leaderberry.Types.Messages

/-!
# Consensus messages on the network (`engine/engine.go`)

`EncodeProposalMessage` and `EncodeVoteMessage` put one byte for the kind in front of the
encoded message. `HandleConsensusMessage` reads them back; what follows the message is ignored,
as `UnmarshalCramberry` stops at the end marker.

`consensusMessage_round_trip`: a message arrives as it was sent, and whatever is accepted at
all is a message that could have been sent.
-/

namespace Leaderberry

open FieldLoop

inductive ConsensusMessage where
  | proposal (p : Proposal)
  | vote (v : Vote)
deriving DecidableEq

/-- Why `HandleConsensusMessage` refuses some bytes. -/
inductive MessageError where
  | empty
  | emptyProposal
  | invalidProposal
  | emptyVote
  | invalidVote
  | unknownType (type : Byte)
deriving DecidableEq

/-- `ConsensusMessageTypeProposal` and `ConsensusMessageTypeVote`. -/
def proposalType : Byte := 1
def voteType : Byte := 2

def ConsensusMessage.Canonical : ConsensusMessage → Prop
  | .proposal p => p.Canonical
  | .vote v => v.Canonical

variable [Cramberry]

/-- `EncodeProposalMessage`. -/
def encodeProposalMessage (p : Proposal) : Bytes := proposalType :: p.encodeTo

/-- `EncodeVoteMessage`. -/
def encodeVoteMessage (v : Vote) : Bytes := voteType :: v.encodeTo

def ConsensusMessage.encode : ConsensusMessage → Bytes
  | .proposal p => encodeProposalMessage p
  | .vote v => encodeVoteMessage v

/-- `HandleConsensusMessage` up to the call of `AddProposal` or `AddVote`. -/
def handleConsensusMessage (data : Bytes) : Except MessageError ConsensusMessage :=
  match data with
  | [] => .error .empty
  | msgType :: payload =>
    if msgType = proposalType then
      if payload.length = 0 then .error .emptyProposal
      else
        match unmarshal (Proposal.decodeFrom .zero) payload with
        | none => .error .invalidProposal
        | some p => .ok (.proposal p)
    else if msgType = voteType then
      if payload.length = 0 then .error .emptyVote
      else
        match unmarshal (Vote.decodeFrom .zero) payload with
        | none => .error .invalidVote
        | some v => .ok (.vote v)
    else .error (.unknownType msgType)

/-- A message arrives, whatever is behind it. -/
theorem handleConsensusMessage_encode {m : ConsensusMessage} (hm : m.Canonical) (rest : Bytes) :
    handleConsensusMessage (m.encode ++ rest) = .ok m := by
  cases m with
  | proposal p =>
    have hne : (p.encodeTo ++ rest).length ≠ 0 := by
      obtain ⟨tag, tail, hp, -⟩ := p.encodeTo_tag
      have hpos := List.length_pos_of_ne_nil (writeCompactTag_ne_nil tag)
      rw [hp, writeCompactTag, List.length_append, List.length_append]
      omega
    show handleConsensusMessage (proposalType :: (p.encodeTo ++ rest)) = _
    rw [handleConsensusMessage, if_pos rfl, if_neg hne,
      unmarshal_of_restores Proposal.restores hm rest]
  | vote v =>
    have hne : (v.encodeTo ++ rest).length ≠ 0 := by
      have hpos := List.length_pos_of_ne_nil
        (writeCompactTag_ne_nil ⟨1, .bytes, by decide⟩)
      rw [Vote.encodeTo_option, writeCompactTag]
      simp only [List.length_append]
      omega
    show handleConsensusMessage (voteType :: (v.encodeTo ++ rest)) = _
    rw [handleConsensusMessage, if_neg (by decide), if_pos rfl, if_neg hne,
      unmarshal_of_restores Vote.restores hm rest]

/-- What is accepted could have been sent. -/
theorem canonical_of_handleConsensusMessage {data : Bytes} {m : ConsensusMessage}
    (h : handleConsensusMessage data = .ok m) : m.Canonical := by
  unfold handleConsensusMessage at h
  split at h
  · cases h
  split at h
  · split at h
    · cases h
    split at h
    · cases h
    · rename_i p hp
      cases h
      obtain ⟨⟨p', rest⟩, hdecode, rfl⟩ := Option.map_eq_some_iff.mp hp
      exact Proposal.canonical_decodeFrom (fun v hv => by cases hv) hdecode
  split at h
  · split at h
    · cases h
    split at h
    · cases h
    · rename_i v hv
      cases h
      obtain ⟨⟨v', rest⟩, hdecode, rfl⟩ := Option.map_eq_some_iff.mp hv
      exact Vote.canonical_decodeFrom Vote.zero_canonical hdecode
  · cases h

/-- **Consensus messages round-trip.** A proposal or vote with the type numbers of the schema
arrives exactly as it was encoded, whatever bytes follow it, and never as a message of the
other kind; and every byte string that is accepted is read as a message that, encoded again,
is read as the same message. -/
theorem consensusMessage_round_trip :
    (∀ m : ConsensusMessage, m.Canonical → ∀ rest,
      handleConsensusMessage (m.encode ++ rest) = .ok m) ∧
    ∀ data m, handleConsensusMessage data = .ok m →
      m.Canonical ∧ handleConsensusMessage m.encode = .ok m := by
  refine ⟨fun m hm rest => handleConsensusMessage_encode hm rest, fun data m h => ?_⟩
  have hm := canonical_of_handleConsensusMessage h
  have hagain := handleConsensusMessage_encode hm []
  rw [List.append_nil] at hagain
  exact ⟨hm, hagain⟩

/-- A precommit for no block. -/
def nilPrecommit : Vote :=
  { Vote.zero with type := .precommit, height := 7, round := -1, validatorIndex := 300 }

omit [Cramberry] in
/-- It arrives with a byte behind it, as a vote that could have been sent. -/
theorem nilPrecommit_arrives :
    letI := varintCramberry
    handleConsensusMessage (encodeVoteMessage nilPrecommit ++ [9]) = .ok (.vote nilPrecommit) ∧
    (ConsensusMessage.vote nilPrecommit).Canonical := by
  let := varintCramberry
  have harrives := consensusMessage_round_trip.1 (.vote nilPrecommit) rfl [9]
  exact ⟨harrives, (consensusMessage_round_trip.2 _ _ harrives).1⟩

end Leaderberry
