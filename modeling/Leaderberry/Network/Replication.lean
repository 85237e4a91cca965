import Leaderberry.Engine.Chain
import Leaderberry.Network.SyncSafety

/-!
# The replicated log

Agreement is about one height. The executor of a node sees a whole sequence of `ApplyBlock`
calls, one per height and none left out (`Consecutive`), so the nodes agree on positions as
well: of two correct nodes, one has seen what the other has, and perhaps more. That holds for
the blocks and for the validators under which each was decided.
-/

namespace Leaderberry

section

variable [Externals] {ι : Type} {S : Network ι} {net : ι → Node}
  {x : ConsensusState × Block × Commit}

/-- What the executor of a node was given, oldest first: the height, the hash of the block and
the validators of that height. -/
def Node.chain (n : Node) : List (Int × Hash × ValidatorSet) :=
  n.calls.reverse.map fun x => (x.1.height, blockHash x.2.1, x.1.validatorSet)

theorem Network.Reachable.chained [DecidableEq ι] (h : S.Reachable net) (i : ι) :
    Chained (S.launch i) (net i) := by
  rcases h.run i with heq | ⟨env, events, heq⟩
  · rw [heq]
    exact chained_fresh (S.launch_executor i)
  · rw [heq]
    exact chained_run (S.launch_executor i) env events

omit [Externals] in
/-- The calls of a chain are numbered by their heights. -/
theorem Consecutive.height_getElem {l : Launch} {calls : List (ConsensusState × Block × Commit)}
    (h : Consecutive l calls) {k : Nat} (hx : calls.reverse[k]? = some x) :
    x.1.height = l.height + k := by
  have hmap := congrArg (fun heights => heights[k]?) h
  obtain ⟨hk, -⟩ := List.getElem?_eq_some_iff.mp hx
  rw [List.length_reverse] at hk
  simp only [List.getElem?_map, hx, List.getElem?_range hk, Option.map_some] at hmap
  exact Option.some_inj.mp hmap

omit [Externals] in
theorem mem_applied_of_calls {n : Node} (hx : x ∈ n.calls) : (x.1, x.2.1) ∈ n.applied := by
  obtain ⟨⟨cs, a⟩, ha, heq⟩ := List.mem_filterMap.mp hx
  obtain ⟨call, hcall, rfl⟩ := Option.map_eq_some_iff.mp heq
  cases a with
  | applyBlock b c result =>
    cases hcall
    exact Node.mem_applied.mpr ⟨c, result, ha⟩
  | _ => cases hcall

/-- Two nodes that have both got to a position were given the same there. -/
theorem same_position [DecidableEq ι] (h : S.Reachable net) (hcareful : Careful S net) {i j : ι}
    {k : Nat} {y : ConsensusState × Block × Commit} (hx : (net i).calls.reverse[k]? = some x)
    (hy : (net j).calls.reverse[k]? = some y) :
    (x.1.height, blockHash x.2.1, x.1.validatorSet) =
      (y.1.height, blockHash y.2.1, y.1.validatorSet) := by
  obtain ⟨log, hcons⟩ := h.consistent hcareful
  have hxmem := List.mem_reverse.mp (List.mem_of_getElem? hx)
  have hymem := List.mem_reverse.mp (List.mem_of_getElem? hy)
  have hheight : x.1.height = y.1.height := by
    rw [(h.chained i).consecutive.height_getElem hx, (h.chained j).consecutive.height_getElem hy,
      S.launch_height, S.launch_height]
  have hdecided := decidedAt_applied hcons (mem_applied_of_calls hymem)
  rw [← hheight] at hdecided
  have hhash :=
    (decidedAt_applied hcons (mem_applied_of_calls hxmem)).unique hcons hcareful hdecided
  have hset : x.1.validatorSet = y.1.validatorSet :=
    hcareful.inForce_unique hcons.member (fun height _ => hcons.lawful height)
      ⟨i, x.1, mem_states_of_calls hxmem, rfl, rfl⟩
      ⟨j, y.1, mem_states_of_calls hymem, hheight.symm, rfl⟩
  rw [hheight, hhash, hset]

/-- **One log.** In every network run in which no lock is given up for nil, of two correct
nodes one has applied a beginning of what the other has applied: the same heights, blocks of
the same hashes and the same validator sets, in the same order. -/
theorem replicated_log [DecidableEq ι] (h : S.Reachable net) (hcareful : Careful S net)
    (i j : ι) : (net i).chain <+: (net j).chain ∨ (net j).chain <+: (net i).chain := by
  have hshorter : ∀ i j, (net i).calls.length ≤ (net j).calls.length →
      (net i).chain <+: (net j).chain := by
    intro i j hle
    rw [List.prefix_iff_getElem?]
    intro k hk
    have hki : k < (net i).calls.reverse.length := by
      rwa [Node.chain, List.length_map] at hk
    have hkj : k < (net j).calls.reverse.length := by
      rw [List.length_reverse] at hki ⊢
      omega
    have hx := List.getElem?_eq_getElem hki
    have hy := List.getElem?_eq_getElem hkj
    simp only [Node.chain, List.getElem?_map, List.getElem_map, hy, Option.map_some]
    rw [same_position h hcareful hx hy]
  rcases Nat.le_total (net i).calls.length (net j).calls.length with hle | hle
  · exact .inl (hshorter i j hle)
  · exact .inr (hshorter j i hle)

end

section runs

attribute [local instance] transparent

/-- Both nodes have applied the first block. -/
theorem replicated_log_decision :
    (forkNet decisionEvents proposerEvents 0).chain.length = 1 ∧
    ((forkNet decisionEvents proposerEvents 0).chain <+:
        (forkNet decisionEvents proposerEvents 1).chain ∨
      (forkNet decisionEvents proposerEvents 1).chain <+:
        (forkNet decisionEvents proposerEvents 0).chain) := by
  exact ⟨by decide +kernel, replicated_log reachable_decision careful_decision 0 1⟩

end runs

end Leaderberry
