import Leaderberry.Lib.Quorum

/-!
# Voting in rounds with locks

Voters cast prevotes and precommits in rounds; a ballot names a value or nothing.
`History` lists the ballots of honest voters, newest first, each of which obeyed
`Rule` when it was cast:

- rounds never go back, and a voter precommits once per round;
- a precommit for `x` is backed by a quorum of prevotes for `x` in its round;
- a voter that precommitted `x` prevotes another value in a later round only
  after a quorum prevoted something other than `x` in between.

Dishonest voters are unconstrained: a quorum *backs* a value when its honest
members voted for it. `agreement` says that two values backed by precommits are
equal. The argument is `no_rival`: once `x` is backed by precommits at round `r`,
no prefix of the history backs another value by prevotes at a round after `r`.
-/

namespace LockedVoting

inductive Kind where
  | prevote
  | precommit
deriving DecidableEq

/-- One ballot of one voter; `value = none` is a vote for nothing. -/
structure Ballot (ι ν : Type*) where
  voter : ι
  kind : Kind
  round : ℤ
  value : Option ν

variable {ι ν : Type*} (E : Electorate ι) (honest : ι → Prop) {r : ℤ}

/-- A quorum whose honest members all voted for `x`. -/
def Backed (H : List (Ballot ι ν)) (kind : Kind) (round : ℤ) (x : ν) : Prop :=
  ∃ S, E.IsQuorum S ∧ ∀ i ∈ S, honest i → ⟨i, kind, round, some x⟩ ∈ H

/-- What an honest voter guarantees about a ballot `b` cast after `H`. -/
structure Rule (H : List (Ballot ι ν)) (b : Ballot ι ν) : Prop where
  mono : ∀ b' ∈ H, b'.voter = b.voter → b'.round ≤ b.round
  single : b.kind = .precommit → ∀ b' ∈ H, b'.voter = b.voter → b'.kind = .precommit →
    b'.round ≠ b.round
  justified : b.kind = .precommit → ∀ x, b.value = some x →
    Backed E honest H .prevote b.round x
  locked : b.kind = .prevote → ∀ y, b.value = some y → ∀ r x,
    ⟨b.voter, .precommit, r, some x⟩ ∈ H → r < b.round → y ≠ x →
    ∃ q z, r < q ∧ z ≠ x ∧ Backed E honest H .prevote q z

/-- The ballots of honest voters in the order they were cast, newest first. -/
inductive History : List (Ballot ι ν) → Prop
  | nil : History []
  | cast {H b} : History H → Rule E honest H b → History (b :: H)

variable {E honest} {H H' : List (Ballot ι ν)}

/-- Every ballot obeyed the rule with respect to the part of the history that is
older than it. -/
theorem History.rule_at {b : Ballot ι ν} {newer older : List (Ballot ι ν)}
    (hH : History E honest (newer ++ b :: older)) : Rule E honest older b := by
  induction newer with
  | nil =>
    cases hH with
    | cast _ hrule => exact hrule
  | cons c rest ih =>
    cases hH with
    | cast hH _ => exact ih hH

theorem History.pairwise_round (hH : History E honest H) :
    H.Pairwise fun b b' => b'.voter = b.voter → b'.round ≤ b.round := by
  induction hH with
  | nil => exact List.Pairwise.nil
  | cast _ hrule ih => exact List.pairwise_cons.mpr ⟨hrule.mono, ih⟩

theorem History.pairwise_precommit (hH : History E honest H) :
    H.Pairwise fun b b' => b.kind = .precommit → b'.kind = .precommit →
      b'.voter = b.voter → b'.round ≠ b.round := by
  induction hH with
  | nil => exact List.Pairwise.nil
  | cast _ hrule ih =>
    refine List.pairwise_cons.mpr ⟨fun b' hb' hk hk' hv => ?_, ih⟩
    exact hrule.single hk b' hb' hv hk'

/-- A voter precommits one value per round. -/
theorem History.precommit_unique (hH : History E honest H) {i : ι} {u v : Option ν}
    (hu : ⟨i, .precommit, r, u⟩ ∈ H) (hv : ⟨i, .precommit, r, v⟩ ∈ H) :
    u = v := by
  obtain ⟨newer, older, rfl⟩ := List.append_of_mem hu
  have hpair := List.pairwise_append.mp hH.pairwise_precommit
  rcases List.mem_append.mp hv with hnew | hold
  · have hne := hpair.2.2 _ hnew _ (List.mem_cons_self ..) rfl rfl rfl
    exact absurd rfl hne
  · rcases List.mem_cons.mp hold with heq | hold
    · exact (congrArg Ballot.value heq).symm
    · have hne := (List.pairwise_cons.mp hpair.2.1).1 _ hold rfl rfl rfl
      exact absurd rfl hne

/-- A ballot of a lower round is older. -/
theorem History.older_of_round_lt {b c : Ballot ι ν} {newer older : List (Ballot ι ν)}
    (hH : History E honest (newer ++ b :: older)) (hc : c ∈ newer ++ b :: older)
    (hvoter : b.voter = c.voter) (hlt : c.round < b.round) : c ∈ older := by
  rcases List.mem_append.mp hc with hnew | hold
  · have hle := (List.pairwise_append.mp hH.pairwise_round).2.2 c hnew b (by simp) hvoter
    omega
  · rcases List.mem_cons.mp hold with rfl | hold
    · omega
    · exact hold

/-- **No rival.** Once `x` is backed by precommits at round `r`, no part of the
history backs another value by prevotes at a later round. -/
theorem History.no_rival (hH : History E honest H) (hbyz : E.Minor fun i => ¬ honest i) {x : ν}
    (hx : Backed E honest H .precommit r x) (H' : List (Ballot ι ν)) (hsuf : H' <:+ H) :
    ∀ q z, r < q → z ≠ x → ¬ Backed E honest H' .prevote q z := by
  -- induction on the length: what is older than one of the prevotes is shorter
  induction hn : H'.length using Nat.strong_induction_on generalizing H' with
  | _ n ih =>
    rintro q z hq hz ⟨S, hS, hSmem⟩
    obtain ⟨T, hT, hTmem⟩ := hx
    obtain ⟨i, hiS, hiT, hi⟩ := hS.exists_common hT hbyz
    have hpre := hTmem i hiT (not_not.mp hi)
    obtain ⟨before, rfl⟩ := hsuf
    obtain ⟨newer, older, rfl⟩ := List.append_of_mem (hSmem i hiS (not_not.mp hi))
    rw [← List.append_assoc] at hH hpre
    have hold := hH.older_of_round_lt hpre rfl hq
    obtain ⟨q', z', hq', hz', hback⟩ := hH.rule_at.locked rfl z rfl r x hold hq hz
    refine ih older.length ?_ older ?_ rfl q' z' hq' hz' hback
    · rw [← hn, List.length_append, List.length_cons]
      omega
    · exact ⟨before ++ newer ++ [⟨i, .prevote, q, some z⟩], by simp⟩

/-- **Agreement.** Two values backed by precommits are equal. -/
theorem History.agreement (hH : History E honest H) (hbyz : E.Minor fun i => ¬ honest i) {r' : ℤ}
    {x y : ν} (hx : Backed E honest H .precommit r x) (hy : Backed E honest H .precommit r' y) :
    x = y := by
  by_contra hne
  wlog hle : r ≤ r' generalizing r r' x y
  · exact this hy hx (Ne.symm hne) (le_of_not_ge hle)
  obtain ⟨S, hS, hSmem⟩ := id hx
  obtain ⟨T, hT, hTmem⟩ := id hy
  obtain ⟨i, hiS, hiT, hi⟩ := hS.exists_common hT hbyz
  have hix := hSmem i hiS (not_not.mp hi)
  have hiy := hTmem i hiT (not_not.mp hi)
  rcases lt_or_eq_of_le hle with hlt | rfl
  · obtain ⟨newer, older, rfl⟩ := List.append_of_mem hiy
    have hback := hH.rule_at.justified rfl y rfl
    exact hH.no_rival hbyz hx older ⟨newer ++ [⟨i, .precommit, r', some y⟩], by simp⟩
      r' y hlt (Ne.symm hne) hback
  · exact hne (Option.some_inj.mp (hH.precommit_unique hix hiy))

end LockedVoting
