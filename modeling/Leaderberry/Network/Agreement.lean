import Leaderberry.Network.Scenario

/-!
# Agreement

No two correct nodes apply different blocks at one height, in every run in which no
node gives up a lock because 2/3+ of the prevotes of a round are nil.

All votes cast by correct nodes, in the order they were cast, form a log. `Consistent`
ties the nodes to it: what a node relied on is in the log if a correct key signed it
(`View`), and the log of each height obeys the voting rules with respect to the
validators in force there (`LockedVoting.History`). A cast vote extends the log, and
`Caster.rule` shows that it obeys the rules. Agreement at a height is then
`LockedVoting.History.agreement`. It also makes the validators of the next height the
same at all nodes, since they follow from the applied block.
-/

namespace Leaderberry

open LockedVoting

section

variable [Externals] {ι : Type} (S : Network ι) {i : ι} {cs : ConsensusState} {t : VoteType}

/-- A correct node has, or had, these validators at this height. -/
def InForce (net : ι → Node) (height : Int) (vs : ValidatorSet) : Prop :=
  ∃ i, ∃ cs ∈ (net i).states, cs.height = height ∧ cs.validatorSet = vs

/-- The condition on a run: locks are not given up for nil, faulty validators hold at
most a third of the power wherever a validator set is in force, executors give the same
validator updates for the same block, and blocks of one hash that are applied at a height
are one block. `blockHash` covers the header only, so the last does not follow from the
hash function. -/
structure Careful (net : ι → Node) : Prop where
  nil : ∀ i cs, (cs, .unlockNil) ∈ (net i).trace → cs.lockedBlock = none
  minor : ∀ height vs, InForce net height vs → ∀ hwf : vs.Wf,
    hwf.electorate.Minor fun index => ¬ S.Correct vs index
  deterministic : ∀ i j cs b c updates cs' c' updates',
    (cs, .applyBlock b c (some updates)) ∈ (net i).trace →
    (cs', .applyBlock b c' (some updates')) ∈ (net j).trace →
    cs.height = cs'.height → updates = updates'
  hashed : ∀ i j cs b c updates cs' b' c' updates',
    (cs, .applyBlock b c (some updates)) ∈ (net i).trace →
    (cs', .applyBlock b' c' (some updates')) ∈ (net j).trace →
    cs.height = cs'.height → blockHash b = blockHash b' → b = b'

/-- What each node keeps, whatever the others do. -/
structure Member (log : List Vote) (i : ι) (n : Node) : Prop where
  view : View (S.Genuine log) n
  casts : CastsWell n
  wiring : n.cs.wiring = (S.launch i).wiring
  descends : AllDescend S.height S.validatorSet n

/-- The log of a height obeys the voting rules under the validators in force. -/
def Lawful (net : ι → Node) (log : List Vote) (height : Int) : Prop :=
  ∀ vs, InForce net height vs → ∀ hwf : vs.Wf,
    History hwf.electorate (S.Correct vs) (ballots log height)

/-- The nodes and the log of all votes cast. -/
structure Consistent (net : ι → Node) (log : List Vote) : Prop where
  logged : ∀ v, v ∈ log ↔ ∃ i cs, (cs, v) ∈ (net i).casts
  member : ∀ i, Member S log i (net i)
  lawful : ∀ height, Lawful S net log height

variable {S} {net : ι → Node} {log : List Vote}

theorem Careful.nilUnlocks (h : Careful S net) (i : ι) : NilUnlocks False (net i).trace :=
  fun cs hmem => .inr (h.nil i cs hmem)

/-! ## Members -/

namespace Member

variable {i : ι} {n : Node} {cs : ConsensusState}

variable (h : Member S log i n)

include h

theorem sound : Sound n.cs := h.view.remembers.sound

theorem state_grows (hcs : cs ∈ n.states) : Grows cs n.cs := by
  rcases List.mem_cons.mp hcs with rfl | hcs
  · exact .of_votes rfl rfl rfl le_rfl rfl rfl
  · obtain ⟨x, hx, rfl⟩ := List.mem_map.mp hcs
    exact h.view.past x hx

theorem chainID (hcs : cs ∈ n.states) : cs.config.chainID = S.chainID := by
  rw [← (h.state_grows hcs).config, ← S.launch_chainID i, ← h.wiring]
  rfl

theorem privVal (hcs : cs ∈ n.states) : cs.privVal = some (S.key i) := by
  rw [← (h.state_grows hcs).privVal, ← S.launch_privVal i, ← h.wiring]
  rfl

theorem hasExecutor : n.cs.hasExecutor = true := by
  rw [← S.launch_executor i, ← h.wiring]
  rfl

/-- What a node applied is backed by precommits in the log. -/
theorem applied_backed {b : Block} {c : Commit} {result : Option (List ValidatorUpdate)}
    (hmem : (cs, .applyBlock b c result) ∈ n.trace) (hwf : cs.validatorSet.Wf) :
    ∃ r, Backed hwf.electorate (S.Correct cs.validatorSet)
      (ballots log cs.height) .precommit r (blockHash b) := by
  obtain ⟨r, hr⟩ := h.view.applied cs b c result hmem
  have hcs : cs ∈ n.states := List.mem_cons_of_mem _ (List.mem_map_of_mem hmem)
  exact ⟨r, hr.backed (h.chainID hcs) hwf⟩

theorem atoms {env : Env} {input : Option Event} {m : Node} (ha : Atoms env input n m)
    (hcasts : CastsWell m) (hnil : NilUnlocks False m.trace)
    (hinput : ∀ event, input = some event → ∀ v ∈ event.votes, S.Genuine log v)
    (hlog : ∀ cs v, (cs, v) ∈ m.casts → v ∈ log) : Member S log i m := by
  have hboth := ha.invariant
    (P := fun k => k.cs.wiring = n.cs.wiring ∧ AllDescend S.height S.validatorSet k)
    ⟨rfl, h.descends⟩ fun k k' hk hatom => by
      have hexec : k.cs.hasExecutor = true :=
        (congrArg Wiring.hasExecutor hk.1).trans h.hasExecutor
      exact ⟨hatom.changes.wiring.trans hk.1, hk.2.atom hexec hatom⟩
  exact { view := h.view.atoms ha hnil hinput fun cs v hmem =>
            S.genuine_of_mem (hlog cs v (Node.mem_casts.mpr hmem))
          casts := hcasts
          wiring := hboth.1.trans h.wiring
          descends := hboth.2 }

theorem mono {log' : List Vote} (hsub : log ⊆ log') : Member S log' i n :=
  { h with view := h.view.mono fun _ hv => hv.mono hsub }

end Member

/-! ## One validator set per height -/

omit [Externals] in
theorem inForce_of_mem {a : Action} (h : (cs, a) ∈ (net i).trace) :
    InForce net cs.height cs.validatorSet :=
  ⟨i, cs, List.mem_cons_of_mem _ (List.mem_map_of_mem h), rfl, rfl⟩

/-- Blocks applied at one height under one validator set have the same hash. -/
theorem Careful.applied_unique (hcareful : Careful S net) (hmember : ∀ i, Member S log i (net i))
    {j : ι} {cs' : ConsensusState} {b b' : Block} {c c' : Commit}
    {result result' : Option (List ValidatorUpdate)}
    (hmem : (cs, .applyBlock b c result) ∈ (net i).trace)
    (hmem' : (cs', .applyBlock b' c' result') ∈ (net j).trace) (hheight : cs.height = cs'.height)
    (hset : cs.validatorSet = cs'.validatorSet) (hlawful : Lawful S net log cs.height) :
    blockHash b = blockHash b' := by
  obtain ⟨-, ⟨hwf, -⟩⟩ := (hmember i).view.applied cs b c result hmem
  obtain ⟨r, hr⟩ := (hmember i).applied_backed hmem hwf
  obtain ⟨r', hr'⟩ := (hmember j).applied_backed hmem' (hset ▸ hwf)
  have hforce := inForce_of_mem hmem
  simp only [← hset, ← hheight] at hr'
  exact (hlawful _ hforce hwf).agreement (hcareful.minor _ _ hforce hwf) hr hr'

theorem Careful.set_unique (hcareful : Careful S net) (hmember : ∀ i, Member S log i (net i))
    (k : Nat) : ∀ height, height = S.height + k →
      (∀ height' < height, Lawful S net log height') →
      ∀ vs vs', InForce net height vs → InForce net height vs' → vs = vs' := by
  induction k with
  | zero =>
    intro height hheight _ vs vs' ⟨i, cs, hcs, hh, hset⟩ ⟨j, cs', hcs', hh', hset'⟩
    have hinit : ∀ i cs, cs ∈ (net i).states → cs.height = height →
        cs.validatorSet = S.validatorSet := by
      intro i cs hcs hh
      rcases (hmember i).descends cs hcs with ⟨-, heq⟩ | ⟨hlt, -⟩
      · exact heq
      · omega
    rw [← hset, ← hset', hinit i cs hcs hh, hinit j cs' hcs' hh']
  | succ k ih =>
    intro height hheight hlawful vs vs' ⟨i, cs, hcs, hh, hset⟩ ⟨j, cs', hcs', hh', hset'⟩
    -- both sets come from blocks applied at the height before
    have hprev : ∀ i cs, cs ∈ (net i).states → cs.height = height → ∃ cs₁ b c updates,
        (cs₁, .applyBlock b c (some updates)) ∈ (net i).trace ∧ cs₁.height = height - 1 ∧
        Node.nextValidatorSet cs₁.validatorSet updates = .ok cs.validatorSet := by
      intro i cs hcs hh
      rcases (hmember i).descends cs hcs with ⟨heq, -⟩ |
        ⟨-, cs₁, b, c, updates, hmem, hbefore, hnext⟩
      · omega
      · exact ⟨cs₁, b, c, updates, hmem, by omega, hnext⟩
    obtain ⟨cs₁, b, c, updates, hmem, hbefore, hnext⟩ := hprev i cs hcs hh
    obtain ⟨cs₁', b', c', updates', hmem', hbefore', hnext'⟩ := hprev j cs' hcs' hh'
    have hsame : cs₁.validatorSet = cs₁'.validatorSet := by
      refine ih (height - 1) (by omega) (fun height' hlt => hlawful height' (by omega)) _ _ ?_ ?_
      · exact hbefore ▸ inForce_of_mem hmem
      · exact hbefore' ▸ inForce_of_mem hmem'
    have hheight' : cs₁.height = cs₁'.height := hbefore.trans hbefore'.symm
    have hblock := hcareful.applied_unique hmember hmem hmem' hheight' hsame
      (hlawful _ (by omega))
    obtain rfl := hcareful.hashed i j _ _ _ _ _ _ _ _ hmem hmem' hheight' hblock
    have hupdates := hcareful.deterministic i j _ _ _ _ _ _ _ hmem hmem' hheight'
    rw [hsame, hupdates, hnext'] at hnext
    rw [← hset, ← hset']
    exact (Except.ok.inj hnext).symm

theorem Member.height_le {n : Node} (h : Member S log i n) (hcs : cs ∈ n.states) :
    S.height ≤ cs.height :=
  (h.descends cs hcs).height_le

/-- The validators in force at a height, once the log is lawful below it. -/
theorem Careful.inForce_unique (hcareful : Careful S net)
    (hmember : ∀ i, Member S log i (net i)) {height : Int}
    (hlawful : ∀ height' < height, Lawful S net log height') {vs vs' : ValidatorSet}
    (h : InForce net height vs) (h' : InForce net height vs') : vs = vs' := by
  obtain ⟨i, cs, hcs, hh, -⟩ := id h
  have hle := (hmember i).height_le hcs
  exact hcareful.set_unique hmember (height - S.height).toNat height (by omega) hlawful vs vs' h h'

/-! ## A cast vote obeys the rules -/

/-- The votes in the log under the index that a node votes as are its own. -/
theorem Consistent.own_casts (h : Consistent S net log) (hcareful : Careful S net)
    (hforce : InForce net cs.height cs.validatorSet) (hwf : cs.validatorSet.Wf)
    (hkey : cs.privVal = some (S.key i)) {index : Nat} {val : NamedValidator}
    (hown : cs.ownValidator = some (index, val)) {v : Vote} (hv : v ∈ log)
    (hheight : v.height = cs.height) (hindex : v.validatorIndex = index) :
    ∃ cs', (cs', v) ∈ (net i).casts := by
  obtain ⟨j, cs', hmem⟩ := (h.logged v).mp hv
  have hcast := (h.member j).casts cs' v hmem
  have htrace := Node.mem_casts.mp hmem
  have hset : cs'.validatorSet = cs.validatorSet := by
    refine hcareful.inForce_unique h.member (fun height _ => h.lawful height) ?_ hforce
    rw [← hheight, hcast.height]
    exact inForce_of_mem htrace
  -- both vote as the same validator, so both have its key
  obtain ⟨val', hval'⟩ := hcast.voter
  have hj := ownValidator_key (hset ▸ hwf) hval'
  have hi := ownValidator_key hwf hown
  rw [hset, hindex, hi.1] at hj
  obtain ⟨heq, hkey'⟩ := hj
  cases heq
  have hkeyj := (h.member j).privVal (List.mem_cons_of_mem _ (List.mem_map_of_mem htrace))
  rw [hkey', ← hi.2, hkey] at hkeyj
  cases S.key_injective (Option.some_inj.mp hkeyj)
  exact ⟨cs', hmem⟩

omit [Externals] in
theorem kind_precommit (h : t.kind = .precommit) : t = .precommit := by
  cases t <;> first | rfl | cases h

/-- The ballots of a node about to vote, at its height, are votes that it cast itself. -/
theorem Consistent.earlier (h : Consistent S net log) (hcareful : Careful S net) {env : Env}
    {input : Option Event} {k m : Node} {hash : Option Hash} {vote : Vote}
    (hstart : VoteStart env input (net i) k t hash) (hk : Member S log i k)
    (hcast : Cast k env t hash vote m) (hwf : k.cs.validatorSet.Wf) {b : Ballot Nat Hash}
    (hb : b ∈ ballots log k.cs.height) (hvoter : b.voter = vote.validatorIndex) :
    ∃ cs v, v.ballot = b ∧ (cs, .castVote v) ∈ k.trace ∧ CastAt cs v ∧ Grows cs k.cs ∧
      k.cs.height = cs.height := by
  obtain ⟨v, hv, hheight, rfl⟩ := mem_ballots.mp hb
  obtain ⟨val, hval, -⟩ := hcast.own.validator
  have hforce : InForce net k.cs.height k.cs.validatorSet :=
    ⟨i, (net i).cs, List.mem_cons_self .., hstart.frame.1.symm, hstart.frame.2.symm⟩
  have hkey := hk.privVal (List.mem_cons_self ..)
  obtain ⟨cs, hmem⟩ := h.own_casts hcareful hforce hwf hkey hval hv hheight hvoter
  have htrace := hstart.atoms.trace_suffix.subset (Node.mem_casts.mp hmem)
  have hat := (h.member i).casts cs v hmem
  exact ⟨cs, v, rfl, htrace, hat, hk.view.past _ htrace, hheight.symm.trans hat.height⟩

/-- A vote that node `i` casts obeys the rules of the log. -/
theorem Consistent.rule (h : Consistent S net log) (hcareful : Careful S net) {env : Env}
    {input : Option Event} {k m : Node} {hash : Option Hash} {vote : Vote}
    (hstart : VoteStart env input (net i) k t hash) (hk : Member S log i k)
    (hcast : Cast k env t hash vote m) (hwf : k.cs.validatorSet.Wf) :
    Rule hwf.electorate (S.Correct k.cs.validatorSet) (ballots log k.cs.height) vote.ballot := by
  have hown := hcast.own
  have hbacked : ∀ {r x}, Evidence (S.Genuine log) k.cs .prevote r x →
      Backed hwf.electorate (S.Correct k.cs.validatorSet) (ballots log k.cs.height) .prevote r x :=
    fun hev => hev.backed (hk.chainID (List.mem_cons_self ..)) hwf
  have hearlier := fun b hb => h.earlier hcareful hstart hk hcast hwf (b := b) hb
  refine { mono := ?_, single := ?_, justified := ?_, locked := ?_ }
  · intro b hb hvoter
    obtain ⟨cs, v, rfl, -, hat, hgrows, hheight⟩ := hearlier b hb hvoter
    show v.round ≤ vote.round
    rw [hat.round, hown.round]
    exact hgrows.round hheight
  · intro hkind b hb hvoter hkind' hround
    obtain ⟨cs, v, rfl, -, hat, hgrows, hheight⟩ := hearlier b hb hvoter
    -- the earlier precommit is still stored, so this one could not be added
    have htype := kind_precommit hkind
    have htype' := kind_precommit hkind'
    have hstored := hgrows.voteOf hheight _ _ _ _ hat.stored
    obtain ⟨now, hok, -⟩ := hcast.added
    have hfresh := (hk.sound.votes.added_addVote hok).fresh
    have hvoter : v.validatorIndex = vote.validatorIndex := hvoter
    have hround : v.round = vote.round := hround
    rw [htype, ← hround, ← hvoter, ← htype', hstored] at hfresh
    cases hfresh
  · intro hkind x hx
    have htype := kind_precommit hkind
    have ht := hown.type.symm.trans htype
    obtain ⟨hround, block, hblock, rfl⟩ := hstart.locked ht (hown.blockHash.symm.trans hx)
    have hlock := hk.sound.lock
    rw [hblock, hround] at hlock
    show Backed _ _ _ _ vote.round _
    rw [hown.round]
    exact hbacked (hk.sound.evidence hk.view.stored hlock.2.2.1 hlock.2.2.2)
  · intro hkind y hy r x hmem hr hne
    obtain ⟨cs, v, hballot, htrace, hat, hgrows, hheight⟩ := hearlier _ hmem rfl
    have htype : v.type = .precommit := kind_precommit (congrArg Ballot.kind hballot)
    have hround : v.round = r := congrArg Ballot.round hballot
    have hvalue : v.blockHash = some x := congrArg Ballot.value hballot
    obtain ⟨hlockedRound, block, hblock, rfl⟩ := hat.locked htype x hvalue
    have ht : t = .prevote := by
      rcases hstart.type with ht | ht
      · exact ht
      · have : vote.type.kind = .prevote := hkind
        rw [hown.type, ht] at this
        cases this
    rcases (hk.view.remembers.locks _ htrace).2 hheight.symm block hblock with
      ⟨block', hblock', hhash, -⟩ | hreleased
    · -- still locked on `x`: it prevotes nothing else
      have hsame := hstart.prevote_locked ht (hown.blockHash.symm.trans hy) hblock'
      exact absurd (hsame.trans hhash) hne
    · obtain ⟨q, z, hq, hz, hev⟩ := hk.view.released hreleased
      refine ⟨q, z, ?_, hz, hbacked hev⟩
      rw [← hround, hat.round, ← hlockedRound]
      exact hq

/-! ## One step of one node -/

section step

variable [DecidableEq ι] {i : ι} {env : Env} {input : Option Event} {m : Node}

theorem InForce.update {height : Int} {vs : ValidatorSet} (h : InForce net height vs)
    (hexec : (net i).cs.hasExecutor = true) (ha : Atoms env input (net i) m) :
    InForce (Function.update net i m) height vs := by
  obtain ⟨j, cs, hcs, hh, hs⟩ := h
  by_cases hij : j = i
  · subst hij
    obtain ⟨cs', hcs', hh', hs'⟩ := ha.states hexec hcs
    exact ⟨j, cs', by rw [Function.update_self]; exact hcs', hh'.trans hh, hs'.trans hs⟩
  · exact ⟨j, cs, by rw [Function.update_of_ne hij]; exact hcs, hh, hs⟩

omit [Externals] in
theorem mem_trace_update {j : ι} {x : ConsensusState × Action} (h : x ∈ (net j).trace)
    (hsuf : (net i).trace <:+ m.trace) : x ∈ (Function.update net i m j).trace := by
  by_cases hij : j = i
  · subst hij
    rw [Function.update_self]
    exact hsuf.subset h
  · rw [Function.update_of_ne hij]
    exact h

/-- The condition on a run was met before the step if it is met after it. -/
theorem Careful.before (h : Careful S (Function.update net i m))
    (hexec : (net i).cs.hasExecutor = true) (ha : Atoms env input (net i) m) :
    Careful S net where
  nil := fun j cs hmem => h.nil j cs (mem_trace_update hmem ha.trace_suffix)
  minor := fun height vs hforce => h.minor height vs (hforce.update hexec ha)
  deterministic := fun j j' _ _ _ _ _ _ _ hmem hmem' =>
    h.deterministic j j' _ _ _ _ _ _ _ (mem_trace_update hmem ha.trace_suffix)
      (mem_trace_update hmem' ha.trace_suffix)
  hashed := fun j j' _ _ _ _ _ _ _ _ hmem hmem' =>
    h.hashed j j' _ _ _ _ _ _ _ _ (mem_trace_update hmem ha.trace_suffix)
      (mem_trace_update hmem' ha.trace_suffix)

/-- The log grows by at most one ballot, which obeys the rules under validators in
force. -/
def Extends (S : Network ι) (net : ι → Node) (log log' : List Vote) (height : Int) : Prop :=
  ballots log' height = ballots log height ∨
    ∃ b vs, InForce net height vs ∧ ballots log' height = b :: ballots log height ∧
      ∀ hwf : vs.Wf, Rule hwf.electorate (S.Correct vs) (ballots log height) b

namespace Consistent

variable (h : Consistent S net log)

include h

/-- A log that was lawful stays lawful: by induction on the height, since below it the
validators in force are already known to be unique. -/
theorem lawful_extend {log' : List Vote} (hcareful : Careful S (Function.update net i m))
    (ha : Atoms env input (net i) m) (hmember : ∀ j, Member S log' j (Function.update net i m j))
    (hext : ∀ height, Extends S net log log' height) (k : Nat) :
    ∀ height < S.height + k, Lawful S (Function.update net i m) log' height := by
  have hexec := (h.member i).hasExecutor
  induction k with
  | zero =>
    rintro height hlt vs ⟨j, cs, hcs, hh, -⟩
    have hle := (hmember j).height_le hcs
    omega
  | succ k ih =>
    intro height hlt vs hforce hwf
    by_cases hbelow : height < S.height + k
    · exact ih height hbelow vs hforce hwf
    have hunique : ∀ vs', InForce net height vs' → vs' = vs := fun vs' hforce' =>
      hcareful.inForce_unique hmember (fun height' hlt' => ih height' (by omega))
        (hforce'.update hexec ha) hforce
    rcases hext height with hsame | ⟨b, vs', hforce', hcons, hrule⟩
    · rw [hsame]
      cases hb : ballots log height with
      | nil => exact .nil
      | cons b rest =>
        -- somebody cast the newest ballot, under the same validators
        obtain ⟨v, hv, hheight, -⟩ :=
          mem_ballots.mp (show b ∈ ballots log height by rw [hb]; exact List.mem_cons_self ..)
        obtain ⟨j, cs, hmem⟩ := (h.logged v).mp hv
        have hforce' := inForce_of_mem (Node.mem_casts.mp hmem)
        rw [← ((h.member j).casts cs v hmem).height, hheight] at hforce'
        rw [← hb]
        exact h.lawful height vs (hunique _ hforce' ▸ hforce') hwf
    · obtain rfl := hunique vs' hforce'
      rw [hcons]
      exact .cast (h.lawful height vs' hforce' hwf) (hrule hwf)

theorem extend {log' : List Vote} (hcareful : Careful S (Function.update net i m))
    (ha : Atoms env input (net i) m) (hcasts : CastsWell m)
    (hinput : ∀ event, input = some event → ∀ v ∈ event.votes, S.Genuine log v) (hsub : log ⊆ log')
    (hlogged : ∀ v, v ∈ log' ↔ v ∈ log ∨ ∃ cs, (cs, v) ∈ m.casts)
    (hext : ∀ height, Extends S net log log' height) :
    Consistent S (Function.update net i m) log' := by
  have hnil := hcareful.nilUnlocks i
  rw [Function.update_self] at hnil
  have hmember : ∀ j, Member S log' j (Function.update net i m j) := by
    intro j
    by_cases hij : j = i
    · subst hij
      rw [Function.update_self]
      exact ((h.member j).mono hsub).atoms ha hcasts hnil
        (fun event hevent v hv => (hinput event hevent v hv).mono hsub)
        fun cs v hmem => (hlogged v).mpr (.inr ⟨cs, hmem⟩)
    · rw [Function.update_of_ne hij]
      exact (h.member j).mono hsub
  refine { logged := fun v => ?_, member := hmember, lawful := fun height => ?_ }
  · rw [hlogged, h.logged]
    constructor
    · rintro (⟨j, cs, hmem⟩ | ⟨cs, hmem⟩)
      · exact ⟨j, cs, Node.mem_casts.mpr
          (mem_trace_update (Node.mem_casts.mp hmem) ha.trace_suffix)⟩
      · exact ⟨i, cs, by rw [Function.update_self]; exact hmem⟩
    · rintro ⟨j, cs, hmem⟩
      by_cases hij : j = i
      · subst hij
        rw [Function.update_self] at hmem
        exact .inr ⟨cs, hmem⟩
      · rw [Function.update_of_ne hij] at hmem
        exact .inl ⟨j, cs, hmem⟩
  · refine h.lawful_extend hcareful ha hmember hext (height - S.height + 1).toNat height ?_
    omega

/-- A micro-step of one node keeps the network consistent. -/
theorem step {re : Bool} (hstep : MicroStep re env input (net i) m)
    (hinput : ∀ event, input = some event → ∀ v ∈ event.votes, S.Genuine log v)
    (hcareful : Careful S (Function.update net i m)) :
    ∃ log', log ⊆ log' ∧ Consistent S (Function.update net i m) log' := by
  have hi := h.member i
  have hcasts := hi.casts.step hi.sound hstep
  have hlog : ∀ cs v, (cs, v) ∈ (net i).casts → v ∈ log :=
    fun cs v hmem => (h.logged v).mpr ⟨i, cs, hmem⟩
  -- a step without a new cast leaves the log alone
  have hquiet : m.casts = (net i).casts →
      ∃ log', log ⊆ log' ∧ Consistent S (Function.update net i m) log' := by
    intro hsame
    refine ⟨log, List.Subset.refl _, h.extend hcareful hstep.atoms hcasts hinput
      (List.Subset.refl _) (fun v => ⟨.inl, ?_⟩) fun height => .inl rfl⟩
    rintro (hv | ⟨cs, hmem⟩)
    · exact hv
    · exact hlog cs v (hsame ▸ hmem)
  cases hstep.voting with
  | none hsame => exact hquiet hsame.casts
  | failed _ _ _ _ hsame => exact hquiet hsame
  | @cast k t hash vote hstart halive hcast _ hnew =>
    have hkcasts := hstart.sameVotes.casts
    have hnil : NilUnlocks False k.trace := by
      have hm := hcareful.nilUnlocks i
      rw [Function.update_self] at hm
      refine hm.of_suffix ?_
      rw [hcast.trace]
      exact (List.suffix_cons _ _).trans (List.suffix_append _ _)
    have hk : Member S log i k := by
      refine hi.atoms hstart.atoms ?_ hnil hinput fun cs v hmem => hlog cs v (hkcasts ▸ hmem)
      intro cs v hmem
      exact hi.casts cs v (hkcasts ▸ hmem)
    refine ⟨vote :: log, List.subset_cons_self _ _, h.extend hcareful hstep.atoms hcasts hinput
      (List.subset_cons_self _ _) (fun v => ?_) fun height => ?_⟩
    · rw [List.mem_cons, hnew]
      constructor
      · rintro (rfl | hv)
        · exact .inr ⟨_, List.mem_cons_self ..⟩
        · exact .inl hv
      · rintro (hv | ⟨cs, hmem⟩)
        · exact .inr hv
        · rcases List.mem_cons.mp hmem with heq | hmem
          · exact .inl (congrArg Prod.snd heq)
          · exact .inr (hlog cs v hmem)
    · by_cases hheight : vote.height = height
      · subst hheight
        refine .inr ⟨vote.ballot, k.cs.validatorSet, ?_, ballots_cons_same vote log, ?_⟩
        · rw [hcast.own.height]
          exact ⟨i, (net i).cs, List.mem_cons_self .., hstart.frame.1.symm, hstart.frame.2.symm⟩
        · intro hwf
          rw [hcast.own.height]
          exact h.rule (hcareful.before hi.hasExecutor hstep.atoms) hstart hk hcast hwf
      · exact .inl (ballots_cons_other hheight log)

/-- Any number of micro-steps of one node. -/
theorem steps {re : Bool} (hsteps : Steps re env input (net i) m)
    (hinput : ∀ event, input = some event → ∀ v ∈ event.votes, S.Genuine log v) :
    Careful S (Function.update net i m) →
      ∃ log', log ⊆ log' ∧ Consistent S (Function.update net i m) log' := by
  induction hsteps with
  | refl =>
    intro _
    rw [Function.update_eq_self]
    exact ⟨log, List.Subset.refl _, h⟩
  | @tail k m hsteps hlast ih =>
    intro hcareful
    have hexec : (Function.update net i k i).cs.hasExecutor = true := by
      rw [Function.update_self]
      exact (congrArg Wiring.hasExecutor (Steps.wiring hsteps)).trans (h.member i).hasExecutor
    have hk : MicroStep re env input (Function.update net i k i) m := by
      rw [Function.update_self]
      exact hlast
    rw [← Function.update_idem (a := i) k m net] at hcareful ⊢
    obtain ⟨log₁, hsub, hcons⟩ := ih (hcareful.before hexec hk.atoms)
    obtain ⟨log₂, hsub', hcons'⟩ := hcons.step hk
      (fun event hevent v hv => (hinput event hevent v hv).mono hsub) hcareful
    exact ⟨log₂, List.Subset.trans hsub hsub', hcons'⟩

end Consistent

/-! ## Runs -/

omit [DecidableEq ι] in
theorem consistent_fresh : Consistent S (fun i => (S.launch i).fresh) [] where
  logged := fun v => by
    constructor
    · intro hv
      cases hv
    · rintro ⟨i, cs, hmem⟩
      cases hmem
  member := fun i =>
    { view := view_fresh _
      casts := fun cs v hmem => by cases hmem
      wiring := rfl
      descends := fun cs hcs => by
        cases List.mem_singleton.mp hcs
        exact .inl ⟨S.launch_height i, S.launch_validatorSet i⟩ }
  lawful := fun height vs _ hwf => .nil

/-- Every network run that meets the condition is consistent. -/
theorem Network.Reachable.consistent (h : S.Reachable net) (hcareful : Careful S net) :
    ∃ log, Consistent S net log := by
  induction h with
  | init => exact ⟨[], consistent_fresh⟩
  | @start net i env hreach hfresh ih =>
    have hsteps : Steps true env none (net i) ((S.launch i).start env) := by
      rw [hfresh]
      exact (S.launch i).start_steps env
    obtain ⟨log, hcons⟩ := ih (hcareful.before (hreach.hasExecutor i) hsteps.atoms)
    obtain ⟨log', -, hcons'⟩ := hcons.steps hsteps (fun event hevent => by cases hevent) hcareful
    exact ⟨log', hcons'⟩
  | @handle net i env event hreach _ hdeliver ih =>
    have hsteps : Steps true env (some event) (net i) (Leaderberry.handle env event (net i)) :=
      handle_steps event (.inl rfl)
    obtain ⟨log, hcons⟩ := ih (hcareful.before (hreach.hasExecutor i) hsteps.atoms)
    have hgenuine : ∀ v, S.Authentic net v → S.Genuine log v := by
      intro v hv j hj
      obtain ⟨x, hx, heq⟩ := hv j hj
      exact ⟨x.2, (hcons.logged x.2).mpr ⟨j, x.1, hx⟩, heq⟩
    obtain ⟨log', -, hcons'⟩ := hcons.steps hsteps (fun event' hevent v hv => by
      cases hevent
      exact hgenuine v (hdeliver.authentic v hv)) hcareful
    exact ⟨log', hcons'⟩

/-- **Agreement.** In every run in which no node holding a lock meets a 2/3+ majority of
nil prevotes when it enters Precommit, two blocks that correct nodes pass to
`ApplyBlock` at one height have the same hash. -/
theorem correct_nodes_agree (h : S.Reachable net) (hcareful : Careful S net) (i j : ι)
    (cs cs' : ConsensusState) (b b' : Block) (hmem : (cs, b) ∈ (net i).applied)
    (hmem' : (cs', b') ∈ (net j).applied) (hheight : cs.height = cs'.height) :
    blockHash b = blockHash b' := by
  obtain ⟨c, result, hmem⟩ := Node.mem_applied.mp hmem
  obtain ⟨c', result', hmem'⟩ := Node.mem_applied.mp hmem'
  obtain ⟨log, hcons⟩ := h.consistent hcareful
  refine hcareful.applied_unique hcons.member hmem hmem' hheight ?_ (hcons.lawful _)
  refine hcareful.inForce_unique hcons.member (fun height _ => hcons.lawful height)
    (inForce_of_mem hmem) ?_
  rw [hheight]
  exact inForce_of_mem hmem'

end step

end

section runs

attribute [local instance] transparent

/-- Validators 1 and 2 are correct, validator 3 is faulty. -/
def forkValidators : { vs : ValidatorSet // vs.Wf } :=
  Scenario.validatorSet [(1, 1), (2, 5), (3, 2)] Scenario.isOk_three

def forkNetwork : Network (Fin 2) := Scenario.network 1 2 (by decide) forkValidators

/-- The state of the network after node 1 and then node 0 handled their events. -/
def forkNet (events₀ events₁ : List Event) : Fin 2 → Node :=
  Scenario.pair forkNetwork
    (events₀.foldl (fun n e => handle (Scenario.env 1) e n)
      ((forkNetwork.launch 0).start (Scenario.env 1)))
    (events₁.foldl (fun n e => handle (Scenario.env 2) e n)
      ((forkNetwork.launch 1).start (Scenario.env 2)))

/-- Validator 1 hears of the proposal of validator 2 and of two precommits for it. -/
def decisionEvents : List Event :=
  [.proposal (Scenario.proposal 2 1 0 (Scenario.block 1 1) (-1) []),
    .vote (Scenario.vote 2 1 .precommit 1 0 (Scenario.block 1 1)),
    .vote (Scenario.vote 3 2 .precommit 1 0 (Scenario.block 1 1))]

/-- Validator 2 locks on its own block and precommits it in round 0, but sees no
quorum of precommits. In round 1 nobody proposes, so it prevotes nil although it is
locked, and the nil vote of validator 3 makes a majority that takes the lock away. In
round 2 it follows another block of validator 3. -/
def forkEvents : List Event :=
  [.vote (Scenario.vote 3 2 .prevote 1 0 (Scenario.block 1 1)),
    .vote (Scenario.vote 3 2 .precommit 1 0 none),
    .timeout ⟨1, 0, .precommitWait⟩,
    .timeout ⟨1, 1, .propose⟩,
    .vote (Scenario.vote 3 2 .prevote 1 1 none),
    .vote (Scenario.vote 3 2 .precommit 1 1 none),
    .timeout ⟨1, 1, .precommitWait⟩,
    .proposal (Scenario.proposal 3 1 2 (Scenario.block 1 2) (-1) []),
    .vote (Scenario.vote 3 2 .prevote 1 2 (Scenario.block 1 2)),
    .vote (Scenario.vote 3 2 .precommit 1 2 (Scenario.block 1 2))]

/-- A run with a fork: faulty validators hold less than a third of the power, and the
two correct nodes apply different blocks at height 1. -/
theorem fork_by_nil_majority :
    forkNetwork.Reachable (forkNet decisionEvents forkEvents) ∧
    3 * forkNetwork.faultyPower forkNetwork.validatorSet < forkNetwork.validatorSet.totalPower ∧
    ∃ x ∈ (forkNet decisionEvents forkEvents 0).applied,
      ∃ y ∈ (forkNet decisionEvents forkEvents 1).applied,
        x.1.height = y.1.height ∧ blockHash x.2 ≠ blockHash y.2 := by
  refine ⟨Scenario.reachable_pair _ _ _ _ ?_ ?_, ?_, ?_⟩ <;> decide +kernel

/-- Validator 2 sees two precommits for its block. -/
def proposerEvents : List Event :=
  [.vote (Scenario.vote 3 2 .prevote 1 0 (Scenario.block 1 1)),
    .vote (Scenario.vote 3 2 .precommit 1 0 (Scenario.block 1 1))]

/-- What `ApplyBlock` was called with and what updates it returned. -/
def appliedBlock : Action → Option (Block × List ValidatorUpdate)
  | .applyBlock b _ (some updates) => some (b, updates)
  | _ => none

theorem careful_decision : Careful forkNetwork (forkNet decisionEvents proposerEvents) := by
  have hnil : ∀ i, ∀ x ∈ (forkNet decisionEvents proposerEvents i).trace,
      x.2 = .unlockNil → x.1.lockedBlock = none := by
    decide +kernel
  have hminor : ∀ i, ∀ cs ∈ (forkNet decisionEvents proposerEvents i).states,
      3 * forkNetwork.faultyPower cs.validatorSet ≤ cs.validatorSet.totalPower := by
    decide +kernel
  have happlied : ∀ i, ∀ x ∈ (forkNet decisionEvents proposerEvents i).trace,
      ∀ y ∈ appliedBlock x.2, y = (Scenario.block 1 1, []) := by
    decide +kernel
  refine { nil := fun i cs hmem => hnil i _ hmem rfl, minor := ?_, deterministic := ?_,
           hashed := ?_ }
  · rintro height vs ⟨i, cs, hcs, -, rfl⟩ hwf
    exact forkNetwork.minor_of_faultyPower hwf (hminor i cs hcs)
  · intro i j cs b c updates cs' c' updates' hmem hmem' _
    have h := happlied i _ hmem _ rfl
    have h' := happlied j _ hmem' _ rfl
    exact (Prod.mk.inj (h.trans h'.symm)).2
  · intro i j cs b c updates cs' b' c' updates' hmem hmem' _ _
    have h := happlied i _ hmem _ rfl
    have h' := happlied j _ hmem' _ rfl
    exact (Prod.mk.inj (h.trans h'.symm)).1

theorem correct_nodes_agree_decision :
    ∃ x ∈ (forkNet decisionEvents proposerEvents 0).applied,
      ∃ y ∈ (forkNet decisionEvents proposerEvents 1).applied,
        x.1.height = y.1.height ∧ blockHash x.2 = blockHash y.2 := by
  have hreach : forkNetwork.Reachable (forkNet decisionEvents proposerEvents) := by
    refine Scenario.reachable_pair _ _ _ _ ?_ ?_ <;> decide +kernel
  have happlied : ∃ x ∈ (forkNet decisionEvents proposerEvents 0).applied,
      ∃ y ∈ (forkNet decisionEvents proposerEvents 1).applied, x.1.height = y.1.height := by
    decide +kernel
  obtain ⟨x, hx, y, hy, hheight⟩ := happlied
  exact ⟨x, hx, y, hy, hheight,
    correct_nodes_agree hreach careful_decision 0 1 x.1 y.1 x.2 y.2 hx hy hheight⟩

end runs

end Leaderberry
