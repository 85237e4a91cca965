import Mathlib.Logic.Relation
import Mathlib.Algebra.BigOperators.Group.List.Basic
import Leaderberry.Types.Account

/-!
# More authorization, and its order

The weight that `VerifyAuthorization` returns depends on the authorization tree through two
sums at each level: over the keys that signed, and over what each delegated authorization
contributes. So it does not depend on the order of the entries, and an additional entry
anywhere in the tree cannot lower it: a nested weight that grows can only satisfy a
threshold that was missed before.
-/

namespace Leaderberry

namespace Authorization

/-- One more signature or delegated authorization, somewhere in the tree. -/
inductive Inserts : Authorization → Authorization → Prop where
  | signature (before after : List SignatureProof) (sig : SignatureProof)
      (auths : List (AccountName × Authorization)) :
      Inserts (.mk (before ++ after) auths) (.mk (before ++ sig :: after) auths)
  | delegated (signatures : List SignatureProof)
      (before after : List (AccountName × Authorization))
      (accAuth : AccountName × Authorization) :
      Inserts (.mk signatures (before ++ after)) (.mk signatures (before ++ accAuth :: after))
  | nested (signatures : List SignatureProof)
      (before after : List (AccountName × Authorization)) (account : AccountName)
      {auth auth' : Authorization} (h : Inserts auth auth') :
      Inserts (.mk signatures (before ++ (account, auth) :: after))
        (.mk signatures (before ++ (account, auth') :: after))

/-- The signatures or the delegated authorizations of one level, in another order. -/
inductive Permutes : Authorization → Authorization → Prop where
  | signatures {signatures signatures' : List SignatureProof} (h : signatures.Perm signatures')
      (auths : List (AccountName × Authorization)) :
      Permutes (.mk signatures auths) (.mk signatures' auths)
  | delegated (signatures : List SignatureProof)
      {auths auths' : List (AccountName × Authorization)} (h : auths.Perm auths') :
      Permutes (.mk signatures auths) (.mk signatures auths')
  | nested (signatures : List SignatureProof)
      (before after : List (AccountName × Authorization)) (account : AccountName)
      {auth auth' : Authorization} (h : Permutes auth auth') :
      Permutes (.mk signatures (before ++ (account, auth) :: after))
        (.mk signatures (before ++ (account, auth') :: after))

end Authorization

open Authorization Relation

section order

variable [Externals] (signBytes : Bytes) (getAccount : AccountGetter) {auth auth' : Authorization}

/-- What one delegated authorization adds. -/
def contribution (authority : Authority) (visited : List GoString)
    (accAuth : AccountName × Authorization) : Nat :=
  if grants signBytes getAccount authority visited accAuth then
    authority.accountWeight accAuth.1
  else 0

/-- The weight of the keys of one level. -/
def signatureWeight (authority : Authority) (signatures : List SignatureProof) : Nat :=
  ∑ key ∈ signedKeys signBytes authority signatures, authority.keyWeight key

theorem sum_granted (authority : Authority) (visited : List GoString)
    (auths : List (AccountName × Authorization)) :
    (((auths.filter (grants signBytes getAccount authority visited)).map Prod.fst).map
      authority.accountWeight).sum =
    (auths.map (contribution signBytes getAccount authority visited)).sum := by
  induction auths with
  | nil => rfl
  | cons accAuth rest ih =>
    rw [List.map_cons, List.sum_cons, ← ih, contribution]
    by_cases hgrants : grants signBytes getAccount authority visited accAuth = true
    · rw [List.filter_cons_of_pos hgrants, if_pos hgrants]
      rfl
    · rw [List.filter_cons_of_neg hgrants, if_neg hgrants, Nat.zero_add]

/-- The weight of a level as two sums. -/
theorem verifyWeight_mk (authority : Authority) (visited : List GoString)
    (signatures : List SignatureProof) (auths : List (AccountName × Authorization)) :
    verifyWeight signBytes getAccount authority visited (.mk signatures auths) =
      min maxAuthWeight (signatureWeight signBytes authority signatures +
        (auths.map (contribution signBytes getAccount authority visited)).sum) := by
  rw [verifyWeight_eq, granted, sum_granted]
  rfl

/-! ## Signatures -/

theorem signatureWeight_le (authority : Authority) (before after : List SignatureProof)
    (sig : SignatureProof) :
    signatureWeight signBytes authority (before ++ after) ≤
      signatureWeight signBytes authority (before ++ sig :: after) := by
  refine Finset.sum_le_sum_of_subset fun key hkey => ?_
  unfold signedKeys at hkey ⊢
  rw [List.mem_toFinset] at hkey ⊢
  have hsub : (before ++ after).Sublist (before ++ sig :: after) :=
    (List.sublist_cons_self sig after).append_left before
  exact ((hsub.filter _).map _).subset hkey

theorem signatureWeight_perm (authority : Authority) {signatures signatures' : List SignatureProof}
    (h : signatures.Perm signatures') :
    signatureWeight signBytes authority signatures =
      signatureWeight signBytes authority signatures' := by
  unfold signatureWeight signedKeys
  rw [List.toFinset_eq_of_perm _ _ ((h.filter _).map _)]

/-! ## Delegated authorizations -/

/-- A nested weight that grows for the account's own authority. -/
theorem contribution_le (authority : Authority) (visited : List GoString) (account : AccountName)
    {auth auth' : Authorization}
    (h : ∀ authority visited, verifyWeight signBytes getAccount authority visited auth ≤
      verifyWeight signBytes getAccount authority visited auth') :
    contribution signBytes getAccount authority visited (account, auth) ≤
      contribution signBytes getAccount authority visited (account, auth') := by
  unfold contribution
  by_cases hgrants : grants signBytes getAccount authority visited (account, auth) = true
  · -- the threshold was met before, so it is met now
    have hgrants' : grants signBytes getAccount authority visited (account, auth') = true := by
      unfold grants at hgrants ⊢
      rw [Bool.and_eq_true] at hgrants ⊢
      refine ⟨hgrants.1, ?_⟩
      have hmet := hgrants.2
      dsimp only at hmet ⊢
      cases hacc : getAccount account with
      | none =>
        rw [hacc] at hmet
        cases hmet
      | some acc =>
        rw [hacc] at hmet
        exact decide_eq_true ((of_decide_eq_true hmet).trans (h _ _))
    rw [if_pos hgrants, if_pos hgrants']
  · rw [if_neg hgrants]
    exact Nat.zero_le _

theorem sum_contribution_cons (authority : Authority) (visited : List GoString)
    (before after : List (AccountName × Authorization)) (accAuth : AccountName × Authorization) :
    ((before ++ accAuth :: after).map (contribution signBytes getAccount authority visited)).sum =
      contribution signBytes getAccount authority visited accAuth +
        ((before ++ after).map (contribution signBytes getAccount authority visited)).sum := by
  rw [List.map_append, List.sum_append, List.map_cons, List.sum_cons, List.map_append,
    List.sum_append]
  omega

/-! ## Trees -/

/-- One insertion, at any depth, does not lower the weight. -/
theorem verifyWeight_le_of_inserts (h : Inserts auth auth') (authority : Authority)
    (visited : List GoString) :
    verifyWeight signBytes getAccount authority visited auth ≤
      verifyWeight signBytes getAccount authority visited auth' := by
  -- the authority changes on the way down
  induction h generalizing authority visited with
  | signature before after sig auths =>
    rw [verifyWeight_mk, verifyWeight_mk]
    have hkeys := signatureWeight_le signBytes authority before after sig
    omega
  | delegated signatures before after accAuth =>
    rw [verifyWeight_mk, verifyWeight_mk, sum_contribution_cons]
    omega
  | nested signatures before after account h ih =>
    rw [verifyWeight_mk, verifyWeight_mk, sum_contribution_cons, sum_contribution_cons]
    have hnested := contribution_le signBytes getAccount authority visited account ih
    omega

/-- One permutation, at any depth, does not change the weight. -/
theorem verifyWeight_eq_of_permutes (h : Permutes auth auth') (authority : Authority)
    (visited : List GoString) :
    verifyWeight signBytes getAccount authority visited auth' =
      verifyWeight signBytes getAccount authority visited auth := by
  induction h generalizing authority visited with
  | signatures h auths =>
    rw [verifyWeight_mk, verifyWeight_mk, signatureWeight_perm signBytes authority h]
  | delegated signatures h =>
    rw [verifyWeight_mk, verifyWeight_mk, (h.map _).sum_eq]
  | nested signatures before after account h ih =>
    -- equal weights for every authority are contributions that bound each other
    have hle := contribution_le signBytes getAccount authority visited account
      fun authority visited => (ih authority visited).ge
    have hge := contribution_le signBytes getAccount authority visited account
      fun authority visited => (ih authority visited).le
    rw [verifyWeight_mk, verifyWeight_mk, sum_contribution_cons, sum_contribution_cons,
      le_antisymm hle hge]

/-- **More authorization never hurts, and its order does not matter.** The weight is the sum
of what is counted, up to the cap; insertions anywhere in the tree do not lower it, and
permutations at any level do not change it. -/
theorem verifyAuthorization_monotone (authority : Authority) (visited : List GoString)
    (auth : Authorization) :
    verifyAuthorization signBytes getAccount (some auth) (some authority) visited =
      .ok (min maxAuthWeight (keySum signBytes authority auth +
        ((granted signBytes getAccount authority visited auth).map
          authority.accountWeight).sum)) ∧
    (∀ auth', ReflTransGen Inserts auth auth' → ∃ weight weight',
      verifyAuthorization signBytes getAccount (some auth) (some authority) visited = .ok weight ∧
      verifyAuthorization signBytes getAccount (some auth') (some authority) visited =
        .ok weight' ∧ weight ≤ weight') ∧
    ∀ auth', ReflTransGen Permutes auth auth' →
      verifyAuthorization signBytes getAccount (some auth') (some authority) visited =
        verifyAuthorization signBytes getAccount (some auth) (some authority) visited := by
  refine ⟨?_, fun auth' h => ⟨_, _, rfl, rfl, ?_⟩, fun auth' h => ?_⟩
  · rw [← verifyWeight_eq]
    rfl
  · induction h with
    | refl => exact le_rfl
    | tail _ hstep ih =>
      exact ih.trans (verifyWeight_le_of_inserts signBytes getAccount hstep authority visited)
  · induction h with
    | refl => rfl
    | tail _ hstep ih =>
      rw [← ih]
      exact congrArg Except.ok
        (verifyWeight_eq_of_permutes signBytes getAccount hstep authority visited)

end order

/-! ## One delegate -/

section delegate

attribute [local instance] transparent

/-- An account that asks for no weight of its own. -/
def openAccount : Account := ⟨⟨some [1]⟩, ⟨0, [], []⟩⟩

/-- The authorization of that account is inserted, and a level with it and another entry is
reversed. -/
theorem verifyAuthorization_monotone_delegate :
    (∃ weight weight',
      verifyAuthorization [] (fun _ => some openAccount) (some (.mk [] []))
        (some ⟨1, [], [⟨⟨some [1]⟩, 1⟩]⟩) [] = .ok weight ∧
      verifyAuthorization [] (fun _ => some openAccount)
        (some (.mk [] [(⟨some [1]⟩, .mk [] [])])) (some ⟨1, [], [⟨⟨some [1]⟩, 1⟩]⟩) [] =
          .ok weight' ∧
      weight ≤ weight') ∧
    verifyAuthorization [] (fun _ => some openAccount)
      (some (.mk [] [(⟨some [2]⟩, .mk [] []), (⟨some [1]⟩, .mk [] [])]))
      (some ⟨1, [], [⟨⟨some [1]⟩, 1⟩]⟩) [] =
    verifyAuthorization [] (fun _ => some openAccount)
      (some (.mk [] [(⟨some [1]⟩, .mk [] []), (⟨some [2]⟩, .mk [] [])]))
      (some ⟨1, [], [⟨⟨some [1]⟩, 1⟩]⟩) [] :=
  ⟨(verifyAuthorization_monotone [] _ _ [] (.mk [] [])).2.1 _
      (.single (.delegated [] [] [] (⟨some [1]⟩, .mk [] []))),
    (verifyAuthorization_monotone [] _ _ [] _).2.2 _ (.single (.delegated [] (.swap ..)))⟩

end delegate

end Leaderberry
