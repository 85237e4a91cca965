import Mathlib.Data.Nat.Log
import Mathlib.Data.List.Basic

/-!
# Merkle trees over a list of nodes

A tree is built level by level: `levelUp` combines neighbours, and a node without a
neighbour is combined with itself. Nodes are of any type, and `comb` is any function
of two nodes.

- `siblings`: the node each position is combined with.
- `climb`: what a verifier computes from a node, its position and a list of siblings.
- `IsRoot comb h l r`: `h` levels above `l` stands the single node `r`.
- `path`: the siblings on the way from a position to the root.
- `IsRoot.climb_path`: the own path of a position leads to the root.
- `IsRoot.mem_of_climb`, `IsRoot.leaf_of_climb`: with `comb` injective on the pairs that
  are combined, whatever climbs to the root in `h` steps is a node of `l`, and the one at
  the position it climbed from. The siblings are arbitrary.
- `IsRoot.leaves_eq`: in the same sense the root determines as many nodes at the bottom as
  one knows there are.
-/

namespace MerkleTree

variable {α : Type*} (comb : α → α → α)

/-! ## One level -/

/-- The level above `l`. -/
def levelUp : List α → List α
  | a :: b :: rest => comb a b :: levelUp rest
  | [a] => [comb a a]
  | [] => []

/-- The pairs that are combined to the level above. -/
def levelPairs : List α → List (α × α)
  | a :: b :: rest => (a, b) :: levelPairs rest
  | [a] => [(a, a)]
  | [] => []

/-- The node that each node of a level is combined with. -/
def siblings : List α → List α
  | a :: b :: rest => b :: a :: siblings rest
  | [a] => [a]
  | [] => []

/-- A node at position `j` with its sibling: even positions are on the left. -/
def join (j : Nat) (x s : α) : α := if j % 2 = 0 then comb x s else comb s x

@[simp] theorem length_levelUp : ∀ l : List α, (levelUp comb l).length = (l.length + 1) / 2
  | a :: b :: rest => by
    simp only [levelUp, List.length_cons, length_levelUp rest]
    omega
  | [a] => by simp [levelUp]
  | [] => by simp [levelUp]

@[simp] theorem length_siblings : ∀ l : List α, (siblings l).length = l.length
  | a :: b :: rest => by simp only [siblings, List.length_cons, length_siblings rest]
  | [a] => rfl
  | [] => rfl

theorem exists_sibling {l : List α} {j : Nat} (hj : j < l.length) :
    ∃ s, (siblings l)[j]? = some s :=
  ⟨_, List.getElem?_eq_getElem (by simpa using hj)⟩

/-- Every node above stems from one of the pairs. -/
theorem mem_levelUp {x : α} : ∀ {l : List α},
    x ∈ levelUp comb l ↔ ∃ p ∈ levelPairs l, x = comb p.1 p.2
  | a :: b :: rest => by simp [levelUp, levelPairs, mem_levelUp (l := rest)]
  | [a] => by simp [levelUp, levelPairs]
  | [] => by simp [levelUp, levelPairs]

theorem mem_of_mem_levelPairs {p : α × α} : ∀ {l : List α},
    p ∈ levelPairs l → p.1 ∈ l ∧ p.2 ∈ l
  | a :: b :: rest, h => by
    rcases List.mem_cons.mp h with rfl | h
    · simp
    · exact (mem_of_mem_levelPairs h).imp (by simp +contextual) (by simp +contextual)
  | [a], h => by simp_all [levelPairs]
  | [], h => by simp [levelPairs] at h

/-- The parent of a position joins the node with its sibling. -/
theorem levelUp_join {l : List α} : ∀ {j : Nat} {x s : α},
    l[j]? = some x → (siblings l)[j]? = some s →
    (levelUp comb l)[j / 2]? = some (join comb j x s) := by
  induction l using levelUp.induct with
  | case1 a b rest ih =>
    intro j x s hx hs
    match j with
    | 0 | 1 => simp_all [siblings, levelUp, join]
    | j + 2 =>
      have hjoin : join comb (j + 2) x s = join comb j x s := by simp [join]
      rw [show (j + 2) / 2 = j / 2 + 1 by omega, hjoin]
      exact ih hx hs
  | case2 a =>
    intro j x s hx hs
    match j with
    | 0 => simp_all [siblings, levelUp, join]
    | j + 1 => simp at hx
  | case3 => simp

/-- The pair behind a parent, read from the position of one of its children. -/
theorem mem_levelPairs_join {l : List α} : ∀ {j : Nat} {x s : α},
    l[j]? = some x → (siblings l)[j]? = some s →
    (if j % 2 = 0 then (x, s) else (s, x)) ∈ levelPairs l := by
  induction l using levelUp.induct with
  | case1 a b rest ih =>
    intro j x s hx hs
    match j with
    | 0 | 1 => simp_all [siblings, levelPairs]
    | j + 2 =>
      rw [show (j + 2) % 2 = j % 2 by omega]
      exact List.mem_cons_of_mem _ (ih hx hs)
  | case2 a =>
    intro j x s hx hs
    match j with
    | 0 => simp_all [siblings, levelPairs]
    | j + 1 => simp at hx
  | case3 => simp

/-- The level above determines a level of known length. -/
theorem levelUp_inj {l : List α} : ∀ {l' : List α},
    (∀ q ∈ levelPairs l, ∀ q' ∈ levelPairs l', comb q.1 q.2 = comb q'.1 q'.2 → q = q') →
    l.length = l'.length → levelUp comb l = levelUp comb l' → l = l' := by
  induction l using levelUp.induct with
  | case1 a b rest ih =>
    intro l' hinj hlen hup
    match l', hlen with
    | a' :: b' :: rest', hlen =>
      obtain ⟨hcomb, hrest⟩ := List.cons.inj hup
      obtain ⟨rfl, rfl⟩ := Prod.mk.inj
        (hinj (a, b) (List.mem_cons_self ..) (a', b') (List.mem_cons_self ..) hcomb)
      have htail := ih (fun q hq q' hq' =>
        hinj q (List.mem_cons_of_mem _ hq) q' (List.mem_cons_of_mem _ hq')) (by simpa using hlen)
        hrest
      rw [htail]
  | case2 a =>
    -- the odd node is paired with itself in both
    intro l' hinj hlen hup
    match l', hlen with
    | [a'], _ =>
      have hpair := hinj (a, a) (List.mem_cons_self ..) (a', a') (List.mem_cons_self ..)
        (List.cons.inj hup).1
      rw [(Prod.mk.inj hpair).1]
  | case3 =>
    intro l' _ hlen _
    exact (List.length_eq_zero_iff.mp hlen.symm).symm

/-! ## Climbing -/

/-- The node reached from `x` at position `j` by joining the given siblings, lowest
first. -/
def climb : Nat → α → List α → α
  | _, x, [] => x
  | j, x, s :: rest => climb (j / 2) (join comb j x s) rest

/-- The pairs `climb` combines. -/
def climbPairs : Nat → α → List α → List (α × α)
  | _, _, [] => []
  | j, x, s :: rest =>
    (if j % 2 = 0 then (x, s) else (s, x)) :: climbPairs (j / 2) (join comb j x s) rest

theorem join_eq (j : Nat) (x s : α) :
    join comb j x s =
      comb (if j % 2 = 0 then (x, s) else (s, x)).1 (if j % 2 = 0 then (x, s) else (s, x)).2 := by
  unfold join
  split <;> rfl

/-! ## Trees -/

/-- `h` levels above `l` there is one node, `r`. A level of one node is the last. -/
inductive IsRoot : Nat → List α → α → Prop
  | single (x : α) : IsRoot 0 [x] x
  | level {h : Nat} {l : List α} {r : α} (two : 2 ≤ l.length)
      (up : IsRoot h (levelUp comb l) r) : IsRoot (h + 1) l r

/-- The pairs combined on all levels below the root. -/
def treePairs : Nat → List α → List (α × α)
  | 0, _ => []
  | h + 1, l => levelPairs l ++ treePairs h (levelUp comb l)

/-- The siblings on the way from position `j` to the root. -/
def path : Nat → List α → Nat → List α
  | 0, _, _ => []
  | h + 1, l, j => (siblings l)[j]?.toList ++ path h (levelUp comb l) (j / 2)

variable {comb} {h : Nat} {l : List α} {r : α}

section forall_pairs

variable {P : α → Prop} (hcomb : ∀ a b, P (comb a b))
include hcomb

/-- What holds of the nodes at the bottom and of every combined node holds in the tree. -/
theorem forall_treePairs : ∀ {h : Nat} {l : List α}, (∀ x ∈ l, P x) →
    ∀ q ∈ treePairs comb h l, P q.1 ∧ P q.2
  | 0, _, _, _, hq => nomatch hq
  | h + 1, l, hl, q, hq => by
    rcases List.mem_append.mp hq with hq | hq
    · exact (mem_of_mem_levelPairs hq).imp (hl _) (hl _)
    · refine forall_treePairs (fun x hx => ?_) q hq
      obtain ⟨p, -, rfl⟩ := (mem_levelUp comb).mp hx
      exact hcomb ..

/-- One side of a pair that `climb` combines is the node it has reached. -/
theorem forall_climbPairs {j : Nat} {x : α} {p : List α} (hx : P x) :
    ∀ q ∈ climbPairs comb j x p, P q.1 ∨ P q.2 := by
  induction p generalizing j x with
  | nil => nofun
  | cons s rest ih =>
    intro q hq
    rcases List.mem_cons.mp hq with rfl | hq
    · split
      · exact .inl hx
      · exact .inr hx
    · refine ih ?_ q hq
      unfold join
      split <;> exact hcomb ..

end forall_pairs

namespace IsRoot

variable {j k : Nat} {x : α} {p : List α}

/-- The height of a tree is the logarithm of its width. -/
theorem height_eq (hroot : IsRoot comb h l r) : h = Nat.clog 2 l.length := by
  induction hroot with
  | single x => simp
  | level two up ih =>
    rw [Nat.clog_of_two_le (by omega) two, ih, length_levelUp]
    rfl

theorem height_lt (hroot : IsRoot comb h l r) : h < l.length := by
  induction hroot with
  | single x => simp
  | level two up ih =>
    rw [length_levelUp] at ih
    omega

theorem ne_nil (hroot : IsRoot comb h l r) : l ≠ [] :=
  List.ne_nil_of_length_pos (Nat.zero_lt_of_lt hroot.height_lt)

theorem unique {h' : Nat} {r' : α} (hroot : IsRoot comb h l r) (hroot' : IsRoot comb h' l r') :
    r = r' := by
  induction hroot generalizing h' with
  | single x =>
    cases hroot' with
    | single => rfl
    | level two => simp at two
  | level two up ih =>
    cases hroot' with
    | single => simp at two
    | level _ up' => exact ih up'

/-- **The own path of a position leads to the root.** -/
theorem climb_path (hroot : IsRoot comb h l r) (hx : l[j]? = some x) :
    climb comb j x (path comb h l j) = r := by
  induction hroot generalizing j x with
  | single y =>
    match j with
    | 0 => exact (Option.some.inj hx).symm
    | j + 1 => simp at hx
  | @level h l r two up ih =>
    obtain ⟨hj, -⟩ := List.getElem?_eq_some_iff.mp hx
    obtain ⟨s, hs⟩ := exists_sibling hj
    rw [path, hs]
    exact ih (levelUp_join comb hx hs)

/-- What climbs to the root in as many steps as the tree has levels is one of the nodes
at the bottom, whatever position it claims. -/
theorem mem_of_climb (hroot : IsRoot comb h l r) {j : Nat} {x : α} {p : List α}
    (hinj : ∀ q ∈ treePairs comb h l, ∀ q' ∈ climbPairs comb j x p,
      comb q.1 q.2 = comb q'.1 q'.2 → q = q')
    (hlen : p.length = h) (hclimb : climb comb j x p = r) : x ∈ l := by
  induction hroot generalizing j x p with
  | single y =>
    obtain rfl := List.length_eq_zero_iff.mp hlen
    exact List.mem_singleton.mpr hclimb
  | @level h l r two up ih =>
    match p, hlen with
    | s :: rest, hlen =>
      have hparent : join comb j x s ∈ levelUp comb l :=
        ih (fun q hq q' hq' => hinj q (List.mem_append_right _ hq) q' (List.mem_cons_of_mem _ hq'))
          (Nat.succ.inj hlen) hclimb
      obtain ⟨q, hq, heq⟩ := (mem_levelUp comb).mp hparent
      rw [join_eq] at heq
      have hpair := hinj q (List.mem_append_left _ hq) _ (List.mem_cons_self ..) heq.symm
      have hmem := mem_of_mem_levelPairs hq
      rw [hpair] at hmem
      split at hmem
      · exact hmem.1
      · exact hmem.2

/-- **Whatever climbs to the root from a position of the tree, in as many steps as the
tree has levels, is the node at this position.** -/
theorem leaf_of_climb (hroot : IsRoot comb h l r) {j : Nat} {x : α} {p : List α}
    (hinj : ∀ q ∈ treePairs comb h l, ∀ q' ∈ climbPairs comb j x p,
      comb q.1 q.2 = comb q'.1 q'.2 → q = q')
    (hlen : p.length = h) (hj : j < l.length) (hclimb : climb comb j x p = r) :
    l[j]? = some x := by
  induction hroot generalizing j x p with
  | single y =>
    obtain rfl := List.length_eq_zero_iff.mp hlen
    obtain rfl : j = 0 := by simpa using hj
    exact congrArg some hclimb.symm
  | @level h l r two up ih =>
    match p, hlen with
    | s :: rest, hlen =>
      have hparent : (levelUp comb l)[j / 2]? = some (join comb j x s) :=
        ih (fun q hq q' hq' => hinj q (List.mem_append_right _ hq) q' (List.mem_cons_of_mem _ hq'))
          (Nat.succ.inj hlen) (by rw [length_levelUp]; omega) hclimb
      -- The tree joins the node at `j` with its own sibling to the same parent.
      have hx : l[j]? = some l[j] := List.getElem?_eq_getElem hj
      obtain ⟨s', hs⟩ := exists_sibling hj
      have heq := Option.some.inj ((levelUp_join comb hx hs).symm.trans hparent)
      rw [join_eq, join_eq] at heq
      have hpair := hinj _ (List.mem_append_left _ (mem_levelPairs_join hx hs)) _
        (List.mem_cons_self ..) heq
      rw [hx]
      split at hpair
      · exact congrArg some (Prod.mk.inj hpair).1
      · exact congrArg some (Prod.mk.inj hpair).2

/-- **The root determines the nodes at the bottom**, if their number is known. -/
theorem leaves_eq {h' : Nat} {l' : List α} (hroot : IsRoot comb h l r)
    (hroot' : IsRoot comb h' l' r)
    (hinj : ∀ q ∈ treePairs comb h l, ∀ q' ∈ treePairs comb h' l',
      comb q.1 q.2 = comb q'.1 q'.2 → q = q')
    (hlen : l.length = l'.length) : l = l' := by
  induction hroot generalizing h' l' with
  | single x =>
    cases hroot' with
    | single => rfl
    | level two => exact absurd hlen (Nat.ne_of_lt two)
  | @level h l r two up ih =>
    cases hroot' with
    | single => exact absurd hlen.symm (Nat.ne_of_lt two)
    | level two' up' =>
      have hlevel := ih up'
        (fun q hq q' hq' => hinj q (List.mem_append_right _ hq) q' (List.mem_append_right _ hq'))
        (by rw [length_levelUp, length_levelUp, hlen])
      exact levelUp_inj comb
        (fun q hq q' hq' => hinj q (List.mem_append_left _ hq) q' (List.mem_append_left _ hq'))
        hlen hlevel

/-- The levels of a tree: the root stands `k` levels above the nodes of a level. -/
theorem above (hroot : IsRoot comb h l r) (hk : k ≤ h) :
    IsRoot comb k ((levelUp comb)^[h - k] l) r := by
  induction hroot with
  | single x =>
    obtain rfl : k = 0 := by omega
    exact .single x
  | @level h l r two up ih =>
    rcases Nat.lt_or_ge h k with hlt | hge
    · obtain rfl : k = h + 1 := by omega
      rw [Nat.sub_self]
      exact .level two up
    · rw [show h + 1 - k = (h - k) + 1 by omega, Function.iterate_succ_apply]
      exact ih hge

/-- The pairs of an upper level are pairs of the tree. -/
theorem treePairs_above {m : Nat} {q : α × α} :
    q ∈ treePairs comb k ((levelUp comb)^[m] l) → q ∈ treePairs comb (k + m) l := by
  induction m generalizing l with
  | zero => exact id
  | succ m ih =>
    rw [Function.iterate_succ_apply]
    exact fun hq => List.mem_append_right _ (ih hq)

/-- A node above the bottom stems from a pair of the tree. -/
theorem mem_above {m : Nat} (hx : x ∈ (levelUp comb)^[m + 1] l) :
    ∃ q ∈ treePairs comb (k + (m + 1)) l, x = comb q.1 q.2 := by
  rw [Function.iterate_succ_apply'] at hx
  obtain ⟨q, hq, rfl⟩ := (mem_levelUp comb).mp hx
  refine ⟨q, ?_, rfl⟩
  rw [show k + (m + 1) = (k + 1) + m by omega]
  exact treePairs_above (List.mem_append_left _ hq)

/-- **A path shorter than the tree is high presents an inner node.** -/
theorem inner_of_climb (hroot : IsRoot comb h l r) {j : Nat} {x : α} {p : List α}
    (hinj : ∀ q ∈ treePairs comb h l, ∀ q' ∈ climbPairs comb j x p,
      comb q.1 q.2 = comb q'.1 q'.2 → q = q')
    (hlen : p.length < h) (hclimb : climb comb j x p = r) :
    ∃ q ∈ treePairs comb h l, x = comb q.1 q.2 := by
  obtain ⟨m, rfl⟩ : ∃ m, h = p.length + (m + 1) := ⟨h - p.length - 1, by omega⟩
  have habove := hroot.above hlen.le
  rw [show p.length + (m + 1) - p.length = m + 1 by omega] at habove
  have hmem := habove.mem_of_climb (fun q hq => hinj q (treePairs_above hq)) rfl hclimb
  exact mem_above hmem

end IsRoot

/-- A tree with at least one node has a root. -/
theorem exists_isRoot (comb : α → α → α) (l : List α) (hl : l ≠ []) :
    ∃ h r, IsRoot comb h l r := by
  induction hn : l.length using Nat.strong_induction_on generalizing l with
  | _ n ih =>
    match l, hl with
    | [x], _ => exact ⟨0, x, .single x⟩
    | a :: b :: rest, _ =>
      have htwo : 2 ≤ (a :: b :: rest).length := by simp
      have hup : levelUp comb (a :: b :: rest) ≠ [] := by simp [levelUp]
      obtain ⟨h, r, hroot⟩ := ih _ (by rw [← hn, length_levelUp]; omega) _ hup rfl
      exact ⟨h + 1, r, .level htwo hroot⟩

end MerkleTree
