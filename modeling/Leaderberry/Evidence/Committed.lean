import Leaderberry.Evidence.Pool

/-!
# Committed evidence does not come back

`Update` forgets a committed key once the height in it is too old. `AddEvidence` refuses
evidence by a test of its own on the height. `Settled` says that the two agree: a key that
was marked is still remembered, or evidence with this key has expired and stays so.

- `Settled.step`: every call keeps the invariant.
- `pending_never_committed`: what follows for every run of a new pool.
-/

namespace Leaderberry.Byzantine

/-- The height of an `Update` call. -/
def PoolOp.updateHeight : PoolOp → Option Int
  | .update height _ => some height
  | _ => none

/-- The heights of the evidence that a call brings. -/
def PoolOp.evidenceHeights : PoolOp → List Int
  | .addEvidence ev => ev.toList.map Evidence.height
  | .addDuplicateVoteEvidence dve _ _ => dve.toList.map fun d => d.voteA.height
  | .markCommitted evidence => evidence.map Evidence.height
  | _ => []

/-- Evidence heights are not negative, and the heights of the `Update` calls are not
negative and do not decrease. -/
structure OrderedRun (ops : List PoolOp) : Prop where
  evidence : ∀ op ∈ ops, ∀ h ∈ op.evidenceHeights, 0 ≤ h
  updates : ∀ h ∈ ops.filterMap PoolOp.updateHeight, 0 ≤ h ∧ h ≤ maxInt64
  sorted : (ops.filterMap PoolOp.updateHeight).Pairwise (· ≤ ·)

section

variable [Externals]

/-- The keys that a call passes to `MarkCommitted`. -/
def PoolOp.markedKeys : PoolOp → List GoString
  | .markCommitted evidence => evidence.map evidenceKey
  | _ => []

/-- A marked key is remembered, or too old to come back. -/
def Remembered (p : Pool) (key : GoString) : Prop :=
  ∃ ev : Evidence, evidenceKey ev = key ∧ 0 ≤ ev.height ∧
    (key ∈ p.committed ∨
      ev.height < p.currentHeight ∧ p.config.maxAgeBlocks < p.currentHeight - ev.height)

/-- The invariant of a pool in which the keys `marked` were marked as committed. -/
structure Settled (marked : List GoString) (p : Pool) : Prop where
  height : 0 ≤ p.currentHeight ∧ p.currentHeight ≤ maxInt64
  nodup : (p.pending.map evidenceKey).Nodup
  fresh : ∀ ev ∈ p.pending, evidenceKey ev ∉ marked
  bounded : p.pending.length ≤ maxPendingEvidence
  remembered : ∀ key ∈ marked, Remembered p key

theorem settled_newPool (config : Config) : Settled [] (newPool config) where
  height := ⟨le_rfl, (by decide : (0 : Int) ≤ maxInt64)⟩
  nodup := List.nodup_nil
  fresh _ h := nomatch h
  bounded := Nat.zero_le _
  remembered _ h := nomatch h

omit [Externals] in
/-- Between heights that are not negative the subtraction does not wrap around. -/
theorem wrapInt64_age {height current : Int} (hheight : 0 ≤ height) (hlt : height < current)
    (hcurrent : current ≤ maxInt64) : wrapInt64 (current - height) = current - height :=
  wrapInt64_eq_self (by rw [minInt64]; omega) (by omega)

namespace Settled

variable {marked : List GoString} {p : Pool}

variable (h : Settled marked p)

include h

/-- Only the votes changed. -/
theorem votes (m : GoMap GoString Vote) : Settled marked { p with seenVotes := m } :=
  ⟨h.height, h.nodup, h.fresh, h.bounded, h.remembered⟩

/-- Evidence with a marked key is turned away: as a duplicate while the key is remembered,
as expired afterwards. -/
theorem notMem_of_accepts {ev : Evidence} (haccepts : p.Accepts ev) : evidenceKey ev ∉ marked := by
  intro hmarked
  obtain ⟨old, hkey, hheight, hmem | ⟨hlt, hage⟩⟩ := h.remembered _ hmarked
  · exact haccepts.uncommitted hmem
  · have hsame := (evidenceKey_inj hkey).1
    rw [hsame] at hheight hlt hage
    have : p.isExpired ev = true := by
      simp [Pool.isExpired, wrapInt64_age hheight hlt h.height.2, hage]
    rw [haccepts.unexpired] at this
    cases this

theorem addEvidence (ev : Option Evidence) : Settled marked (p.addEvidence ev).2 := by
  obtain hsame | ⟨e, -, haccepts, hadd⟩ := p.addEvidence_cases ev
  · rw [hsame]
    exact h
  · rw [hadd]
    refine ⟨h.height, ?_, ?_, ?_, h.remembered⟩
    · rw [List.map_append]
      exact h.nodup.append (List.nodup_singleton _) (by simpa using haccepts.fresh)
    · intro ev' hev'
      obtain hold | hnew := List.mem_append.mp hev'
      · exact h.fresh ev' hold
      · rw [List.mem_singleton.mp hnew]
        exact h.notMem_of_accepts haccepts
    · rw [List.length_append, List.length_singleton]
      exact haccepts.room

theorem markCommitted {evidence : List Evidence} (hheights : ∀ ev ∈ evidence, 0 ≤ ev.height) :
    Settled (marked ++ evidence.map evidenceKey) (p.markCommitted evidence) where
  height := h.height
  nodup := h.nodup.sublist (List.filter_sublist.map _)
  fresh ev hev := by
    obtain ⟨hold, hkept⟩ := List.mem_filter.mp hev
    rw [List.mem_append, not_or]
    exact ⟨h.fresh ev hold, by simpa using hkept⟩
  bounded := (List.length_filter_le ..).trans h.bounded
  remembered key hkey := by
    obtain hold | hnew := List.mem_append.mp hkey
    · obtain ⟨ev, heq, hheight, hmem | hage⟩ := h.remembered key hold
      · exact ⟨ev, heq, hheight, .inl (Finset.mem_union_left _ hmem)⟩
      · exact ⟨ev, heq, hheight, .inr hage⟩
    · obtain ⟨ev, hev, rfl⟩ := List.mem_map.mp hnew
      exact ⟨ev, rfl, hheights ev hev,
        .inl (Finset.mem_union_right _ (List.mem_toFinset.mpr hnew))⟩

/-- The key that `Update` forgets has the height of its evidence in it. -/
theorem update {height : Int} (hle : p.currentHeight ≤ height) (hmax : height ≤ maxInt64)
    (blockTime : Int) : Settled marked (p.update height blockTime) where
  height := ⟨h.height.1.trans hle, hmax⟩
  nodup := h.nodup.sublist (List.filter_sublist.map _)
  fresh ev hev := h.fresh ev (List.mem_of_mem_filter hev)
  bounded := (List.length_filter_le ..).trans h.bounded
  remembered key hkey := by
    obtain ⟨ev, rfl, hheight, hmem | ⟨hlt, hage⟩⟩ := h.remembered key hkey
    · set q : Pool := { p with currentHeight := height, currentTime := blockTime }
      refine ⟨ev, rfl, hheight, ?_⟩
      cases hforgets : q.forgets (evidenceKey ev) with
      | false => exact .inl (Finset.mem_filter.mpr ⟨hmem, congrArg (!·) hforgets⟩)
      | true =>
        unfold Pool.forgets at hforgets
        split at hforgets
        · rename_i hscan
          simp only [Pool.outOfAge, Bool.and_eq_true, decide_eq_true_eq] at hforgets
          rw [height_of_scanKey hscan] at hforgets
          rw [wrapInt64_age hheight hforgets.1 hmax] at hforgets
          exact .inr hforgets
        · cases hforgets
    · refine ⟨ev, rfl, hheight, .inr ⟨hlt.trans_le hle, hage.trans_le ?_⟩⟩
      exact Int.sub_le_sub_right hle _

variable [Encoder]

/-- Every call keeps the invariant. -/
theorem step {op : PoolOp} (hevidence : ∀ height ∈ op.evidenceHeights, 0 ≤ height)
    (hupdate : ∀ height ∈ op.updateHeight, p.currentHeight ≤ height ∧ height ≤ maxInt64) :
    Settled (marked ++ op.markedKeys) (p.step op) := by
  cases op with
  | markCommitted evidence =>
    exact h.markCommitted fun ev hev => hevidence _ (List.mem_map_of_mem hev)
  | checkVote now order vote valSet chainID =>
    obtain ⟨m, hm⟩ := p.checkVote_pool now order vote valSet chainID
    change Settled (marked ++ []) (p.checkVote now order vote valSet chainID).2
    rw [List.append_nil, hm]
    exact h.votes m
  | addEvidence ev =>
    change Settled (marked ++ []) (p.addEvidence ev).2
    rw [List.append_nil]
    exact h.addEvidence ev
  | addDuplicateVoteEvidence dve chainID valSet =>
    change Settled (marked ++ []) (p.addDuplicateVoteEvidence dve chainID valSet).2
    rw [List.append_nil]
    obtain hsame | ⟨d, data, -, -, hadd⟩ := p.addDuplicateVoteEvidence_cases dve chainID valSet
    · rw [hsame]
      exact h
    · rw [hadd]
      exact h.addEvidence _
  | pendingEvidence maxBytes =>
    change Settled (marked ++ []) p
    rw [List.append_nil]
    exact h
  | update height blockTime =>
    change Settled (marked ++ []) (p.update height blockTime)
    rw [List.append_nil]
    exact h.update (hupdate height rfl).1 (hupdate height rfl).2 blockTime

end Settled

variable [Encoder]

/-- Only `Update` changes the height. -/
theorem currentHeight_step (p : Pool) (op : PoolOp) :
    (p.step op).currentHeight = op.updateHeight.getD p.currentHeight := by
  cases op with
  | checkVote now order vote valSet chainID =>
    obtain ⟨m, hm⟩ := p.checkVote_pool now order vote valSet chainID
    rw [Pool.step, hm]
    rfl
  | addEvidence ev =>
    obtain ⟨pending, hframe⟩ := p.addEvidence_frame ev
    rw [Pool.step, hframe]
    rfl
  | addDuplicateVoteEvidence dve chainID valSet =>
    obtain ⟨pending, hframe⟩ := p.addDuplicateVoteEvidence_frame dve chainID valSet
    rw [Pool.step, hframe]
    rfl
  | markCommitted | pendingEvidence | update => rfl

/-- The height of a pool comes from an `Update`, or is the first one. -/
theorem currentHeight_run (p : Pool) (ops : List PoolOp) :
    (p.run ops).currentHeight = p.currentHeight ∨
      (p.run ops).currentHeight ∈ ops.filterMap PoolOp.updateHeight := by
  induction ops using List.reverseRecOn with
  | nil => exact .inl rfl
  | append_singleton ops op ih =>
    rw [Pool.run_concat, currentHeight_step, List.filterMap_append, List.mem_append]
    cases hop : op.updateHeight with
    | none => exact ih.imp_right .inl
    | some height =>
      exact .inr (.inr (List.mem_filterMap.mpr ⟨op, List.mem_singleton_self op, hop⟩))

theorem settled_run (config : Config) {ops : List PoolOp} (hops : OrderedRun ops) :
    Settled (ops.flatMap PoolOp.markedKeys) ((newPool config).run ops) := by
  induction ops using List.reverseRecOn with
  | nil => exact settled_newPool config
  | append_singleton ops op ih =>
    have hsorted := hops.sorted
    rw [List.filterMap_append, List.pairwise_append] at hsorted
    have hbefore : OrderedRun ops :=
      { evidence := fun o ho => hops.evidence o (List.mem_append_left _ ho)
        updates := fun h hh => hops.updates h (by
          rw [List.filterMap_append]
          exact List.mem_append_left _ hh)
        sorted := hsorted.1 }
    rw [Pool.run_concat, List.flatMap_append, List.flatMap_singleton]
    refine (ih hbefore).step (hops.evidence op (by simp)) fun height hheight => ?_
    have hmem : height ∈ [op].filterMap PoolOp.updateHeight :=
      List.mem_filterMap.mpr ⟨op, List.mem_singleton_self op, hheight⟩
    have hrange := hops.updates height (by
      rw [List.filterMap_append]
      exact List.mem_append_right _ hmem)
    refine ⟨?_, hrange.2⟩
    obtain hzero | hprevious := currentHeight_run (newPool config) ops
    · exact hzero ▸ hrange.1
    · exact hsorted.2.2 _ hprevious _ hmem

/-- **Committed evidence never comes back.** In a run with heights that are not negative and
`Update` heights that do not decrease, the pending items have distinct keys, none of these
was marked as committed before, and there are at most `MaxPendingEvidence` of them. -/
theorem pending_never_committed (config : Config) {ops : List PoolOp} (hops : OrderedRun ops) :
    (((newPool config).run ops).pending.map evidenceKey).Nodup ∧
      (∀ ev ∈ ((newPool config).run ops).pending,
        evidenceKey ev ∉ ops.flatMap PoolOp.markedKeys) ∧
      ((newPool config).run ops).pending.length ≤ maxPendingEvidence := by
  have h := settled_run config hops
  exact ⟨h.nodup, h.fresh, h.bounded⟩

end

attribute [local instance] transparent timeEncoder

/-- Evidence of height 3 is committed, forgotten at height 20 and offered again. -/
theorem forgotten_not_pending :
    let ev : Evidence := ⟨.duplicateVote, 3, 7, [1]⟩
    let ops := [.addEvidence (some ev), .markCommitted [ev], .update 20 0, .addEvidence (some ev)]
    (((newPool ⟨100, 10, 1000⟩).run ops).pending.map evidenceKey).Nodup ∧
      (∀ e ∈ ((newPool ⟨100, 10, 1000⟩).run ops).pending,
        evidenceKey e ∉ ops.flatMap PoolOp.markedKeys) ∧
      ((newPool ⟨100, 10, 1000⟩).run ops).pending.length ≤ maxPendingEvidence := by
  intro ev ops
  refine pending_never_committed _ ⟨?_, ?_, ?_⟩
  · decide
  · decide
  · decide

end Leaderberry.Byzantine
