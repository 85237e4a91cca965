import Mathlib.Algebra.Order.BigOperators.Group.Finset
import Mathlib.Algebra.GroupWithZero.Nat
import Leaderberry.Types.Basic

/-!
# Authorizations (`types/account.go`)

An authority asks for a weight, from keys that sign and from accounts that delegate. An
authorization is a tree: signatures, and authorizations in the name of such accounts.

- `verifyWeight` is the recursion of `VerifyAuthorization`, on the tree.
- `verifyWeight_eq`: the weight is a sum, capped at `MaxAuthWeight`. Keys are counted
  once. Accounts are counted as often as they are listed.
-/

namespace Leaderberry

/-! ## Messages (`account.cram`, `transaction.cram`) -/

structure KeyWeight where
  publicKey : PublicKey
  weight : Nat
deriving DecidableEq

structure AccountWeight where
  account : AccountName
  weight : Nat
deriving DecidableEq

structure Authority where
  threshold : Nat
  keys : List KeyWeight
  accounts : List AccountWeight
deriving DecidableEq

/-- `Account`, of which only the authority is read here. -/
structure Account where
  name : AccountName
  authority : Authority
deriving DecidableEq

structure SignatureProof where
  publicKey : PublicKey
  signature : Signature
deriving DecidableEq

/-- `Authorization`; an `AccountAuthorization` is the account with its authorization. -/
inductive Authorization where
  | mk (signatures : List SignatureProof)
      (accountAuthorizations : List (AccountName × Authorization))

/-- `AccountGetter`; `none` is an error. -/
abbrev AccountGetter := AccountName → Option Account

/-- The error that `VerifyAuthorization` returns. -/
inductive AuthorizationError where
  | insufficientWeight
deriving DecidableEq

/-! ## Verification -/

/-- `MaxAuthWeight`. -/
def maxAuthWeight : Nat := 2 ^ 31 - 1

/-- `safeAddWeight`. -/
def safeAddWeight (total add : Nat) : Nat :=
  if maxAuthWeight - total < add then maxAuthWeight else total + add

section verification

variable [Externals] (signBytes : Bytes)

/-- The loop over the signatures. Only the first entry of a key is looked at, and a key
is marked as seen once a signature of it was valid. -/
def countKeys (keys : List KeyWeight) : List SignatureProof → List Bytes → Nat → Nat
  | [], _, total => total
  | sig :: rest, seenKeys, total =>
    if sig.publicKey.data ∈ seenKeys then countKeys keys rest seenKeys total
    else
      match keys.find? fun kw => sig.publicKey.data == kw.publicKey.data with
      | none => countKeys keys rest seenKeys total
      | some kw =>
        if verifySignature kw.publicKey signBytes sig.signature then
          countKeys keys rest (sig.publicKey.data :: seenKeys) (safeAddWeight total kw.weight)
        else countKeys keys rest seenKeys total

/-- The loop over the authority's accounts for one delegated authorization, whose weight
for an account's authority is given. An unknown account continues the loop. -/
def addDelegated (getAccount : AccountGetter) (account : AccountName)
    (weight : Authority → Nat) (total : Nat) : List AccountWeight → Nat
  | [] => total
  | aw :: rest =>
    if aw.account = account then
      match getAccount aw.account with
      | none => addDelegated getAccount account weight total rest
      | some acc =>
        if acc.authority.threshold ≤ weight acc.authority then safeAddWeight total aw.weight
        else total
    else addDelegated getAccount account weight total rest

variable (getAccount : AccountGetter)

mutual

/-- `VerifyAuthorization` for an authorization and an authority that are there. -/
def verifyWeight (authority : Authority) (visited : List GoString) : Authorization → Nat
  | .mk signatures accountAuthorizations =>
    addAccounts authority visited (countKeys signBytes authority.keys signatures [] 0)
      accountAuthorizations
termination_by structural auth => auth

/-- The loop over the delegated authorizations. -/
def addAccounts (authority : Authority) (visited : List GoString) (total : Nat) :
    List (AccountName × Authorization) → Nat
  | [] => total
  | accAuth :: rest =>
    addAccounts authority visited (addAccount authority visited total accAuth) rest
termination_by structural auths => auths

/-- One delegated authorization. The branch has its own copy of `visited`. -/
def addAccount (authority : Authority) (visited : List GoString) (total : Nat) :
    AccountName × Authorization → Nat
  | (account, authorization) =>
    if accountNameString account ∈ visited then total
    else
      addDelegated getAccount account
        (fun delegated =>
          verifyWeight delegated (accountNameString account :: visited) authorization)
        total authority.accounts
termination_by structural accAuth => accAuth

end

/-- `VerifyAuthorization`. -/
def verifyAuthorization (auth : Option Authorization) (authority : Option Authority)
    (visited : List GoString) : Except AuthorizationError Nat :=
  match auth, authority with
  | some auth, some authority => .ok (verifyWeight signBytes getAccount authority visited auth)
  | _, _ => .error .insufficientWeight

/-- `IsAuthoritySatisfied`. -/
def isAuthoritySatisfied (auth : Option Authorization) (authority : Option Authority) :
    Except AuthorizationError Bool :=
  match auth, authority with
  | some auth, some authority =>
    match verifyAuthorization signBytes getAccount (some auth) (some authority) [] with
    | .error e => .error e
    | .ok weight => .ok (decide (authority.threshold ≤ weight))
  | _, _ => .error .insufficientWeight

end verification

/-! ## The weight as a sum -/

theorem safeAddWeight_eq {total : Nat} (h : total ≤ maxAuthWeight) (add : Nat) :
    safeAddWeight total add = min maxAuthWeight (total + add) := by
  unfold safeAddWeight
  split <;> omega

namespace Authority

/-- The weight of a key, that of its first entry. -/
def keyWeight (authority : Authority) (key : Bytes) : Nat :=
  ((authority.keys.find? fun kw => key == kw.publicKey.data).map KeyWeight.weight).getD 0

/-- The weight of an account, that of its first entry. -/
def accountWeight (authority : Authority) (account : AccountName) : Nat :=
  ((authority.accounts.find? fun aw => aw.account = account).map AccountWeight.weight).getD 0

end Authority

section weights

variable [Externals] (signBytes : Bytes)

/-- A valid signature of a key of the authority. -/
def validSignature (keys : List KeyWeight) (sig : SignatureProof) : Bool :=
  keys.any (fun kw => sig.publicKey.data == kw.publicKey.data) &&
    verifySignature sig.publicKey signBytes sig.signature

/-- The keys that signed. -/
def signedKeys (authority : Authority) (signatures : List SignatureProof) : Finset Bytes :=
  ((signatures.filter (validSignature signBytes authority.keys)).map
    fun sig => sig.publicKey.data).toFinset

/-- One round of the loop over signatures. -/
theorem countKeys_cons (authority : Authority) (sig : SignatureProof)
    (rest : List SignatureProof) (seen : List Bytes) (total : Nat) :
    countKeys signBytes authority.keys (sig :: rest) seen total =
      if validSignature signBytes authority.keys sig ∧ sig.publicKey.data ∉ seen then
        countKeys signBytes authority.keys rest (sig.publicKey.data :: seen)
          (safeAddWeight total (authority.keyWeight sig.publicKey.data))
      else countKeys signBytes authority.keys rest seen total := by
  rw [countKeys]
  by_cases hseen : sig.publicKey.data ∈ seen
  · rw [if_pos hseen, if_neg (fun h => h.2 hseen)]
  rw [if_neg hseen]
  unfold validSignature Authority.keyWeight
  cases hfind : authority.keys.find? fun kw => sig.publicKey.data == kw.publicKey.data with
  | none =>
    have hany : authority.keys.any (fun kw => sig.publicKey.data == kw.publicKey.data) = false := by
      rw [List.any_eq_false]
      exact fun kw hkw => List.find?_eq_none.mp hfind kw hkw
    rw [hany]
    simp
  | some kw =>
    have hkw : sig.publicKey.data = kw.publicKey.data := by
      simpa using List.find?_some hfind
    have hkey : kw.publicKey = sig.publicKey := by
      cases hpk : kw.publicKey
      cases hsk : sig.publicKey
      rw [hpk, hsk] at hkw
      exact congrArg PublicKey.mk hkw.symm
    have hany : authority.keys.any (fun kw => sig.publicKey.data == kw.publicKey.data) = true :=
      List.any_eq_true.mpr ⟨kw, List.mem_of_find?_eq_some hfind, by simpa using hkw⟩
    rw [hany]
    dsimp only
    rw [hkey]
    simp [hseen]

/-- Every key counts once, whatever was seen before. -/
theorem countKeys_eq (authority : Authority) :
    ∀ (signatures : List SignatureProof) (seen : List Bytes) (total : Nat),
      total ≤ maxAuthWeight →
      countKeys signBytes authority.keys signatures seen total = min maxAuthWeight
        (total + ∑ key ∈ signedKeys signBytes authority signatures \ seen.toFinset,
          authority.keyWeight key)
  | [], seen, total, h => by
    rw [countKeys]
    simpa [signedKeys] using h
  | sig :: rest, seen, total, h => by
    rw [countKeys_cons]
    have hcap : safeAddWeight total (authority.keyWeight sig.publicKey.data) ≤ maxAuthWeight := by
      rw [safeAddWeight_eq h]
      exact min_le_left _ _
    split
    · rename_i hvalid
      have hset : signedKeys signBytes authority (sig :: rest) \ seen.toFinset =
          insert sig.publicKey.data (signedKeys signBytes authority rest \
            (sig.publicKey.data :: seen).toFinset) := by
        ext key
        simp only [signedKeys, List.filter_cons_of_pos hvalid.1, List.map_cons,
          List.toFinset_cons, Finset.mem_sdiff, Finset.mem_insert, List.mem_toFinset]
        by_cases hkey : key = sig.publicKey.data
        · simp [hkey, hvalid.2]
        · simp [hkey]
      rw [countKeys_eq authority rest _ _ hcap, hset, Finset.sum_insert (by simp),
        safeAddWeight_eq h]
      omega
    · rename_i hskip
      have hset : signedKeys signBytes authority (sig :: rest) \ seen.toFinset =
          signedKeys signBytes authority rest \ seen.toFinset := by
        cases hvalid : validSignature signBytes authority.keys sig with
        | false => rw [signedKeys, List.filter_cons_of_neg (by simp [hvalid]), ← signedKeys]
        | true =>
          have hseen : sig.publicKey.data ∈ seen := by
            by_contra hseen
            exact hskip ⟨hvalid, hseen⟩
          rw [signedKeys, List.filter_cons_of_pos hvalid, List.map_cons, List.toFinset_cons,
            Finset.insert_sdiff_of_mem _ (List.mem_toFinset.mpr hseen), ← signedKeys]
      rw [countKeys_eq authority rest _ _ h, hset]

variable (getAccount : AccountGetter)

/-- The delegated authorization counts: its account is not in the branch already, belongs
to the authority, and its own authority is satisfied. -/
def grants (authority : Authority) (visited : List GoString)
    (accAuth : AccountName × Authorization) : Bool :=
  !decide (accountNameString accAuth.1 ∈ visited) &&
  authority.accounts.any (fun aw => aw.account = accAuth.1) &&
  match getAccount accAuth.1 with
  | none => false
  | some acc =>
    decide (acc.authority.threshold ≤ verifyWeight signBytes getAccount acc.authority
      (accountNameString accAuth.1 :: visited) accAuth.2)

/-- The accounts that are counted, as often as they are counted. -/
def granted (authority : Authority) (visited : List GoString) :
    Authorization → List AccountName
  | .mk _ accountAuthorizations =>
    (accountAuthorizations.filter (grants signBytes getAccount authority visited)).map Prod.fst

/-- The sum over the distinct keys that signed. -/
def keySum (authority : Authority) : Authorization → Nat
  | .mk signatures _ =>
    ∑ key ∈ signedKeys signBytes authority signatures, authority.keyWeight key

omit [Externals] in
theorem addDelegated_eq (account : AccountName) (weight : Authority → Nat) (total : Nat) :
    ∀ accounts : List AccountWeight,
      addDelegated getAccount account weight total accounts =
        if accounts.any (fun aw => aw.account = account) &&
            (match getAccount account with
              | none => false
              | some acc => decide (acc.authority.threshold ≤ weight acc.authority)) then
          safeAddWeight total
            (((accounts.find? fun aw => aw.account = account).map AccountWeight.weight).getD 0)
        else total
  | [] => rfl
  | aw :: rest => by
    rw [addDelegated]
    by_cases haw : aw.account = account
    · rw [if_pos haw, haw]
      cases hacc : getAccount account with
      | none =>
        dsimp only
        rw [addDelegated_eq account weight total rest, hacc]
        simp
      | some acc => simp [haw]
    · rw [if_neg haw, addDelegated_eq account weight total rest]
      simp [haw]

theorem addAccount_eq (authority : Authority) (visited : List GoString) (total : Nat)
    (accAuth : AccountName × Authorization) :
    addAccount signBytes getAccount authority visited total accAuth =
      if grants signBytes getAccount authority visited accAuth then
        safeAddWeight total (authority.accountWeight accAuth.1)
      else total := by
  obtain ⟨account, authorization⟩ := accAuth
  rw [addAccount, addDelegated_eq]
  unfold grants
  by_cases hvisited : accountNameString account ∈ visited
  · simp [hvisited]
  · simp only [hvisited, if_false, decide_false, Bool.not_false, Bool.true_and]
    rfl

theorem addAccounts_eq (authority : Authority) (visited : List GoString) :
    ∀ (auths : List (AccountName × Authorization)) (total : Nat), total ≤ maxAuthWeight →
      addAccounts signBytes getAccount authority visited total auths = min maxAuthWeight
        (total + (((auths.filter (grants signBytes getAccount authority visited)).map
          Prod.fst).map authority.accountWeight).sum)
  | [], total, h => by
    rw [addAccounts]
    simpa using h
  | accAuth :: rest, total, h => by
    rw [addAccounts, addAccount_eq]
    split
    · rename_i hgrants
      have hcap : safeAddWeight total (authority.accountWeight accAuth.1) ≤ maxAuthWeight := by
        rw [safeAddWeight_eq h]
        exact min_le_left _ _
      rw [addAccounts_eq authority visited rest _ hcap, List.filter_cons_of_pos hgrants,
        List.map_cons, List.map_cons, List.sum_cons, safeAddWeight_eq h]
      omega
    · rename_i hgrants
      rw [addAccounts_eq authority visited rest _ h, List.filter_cons_of_neg hgrants]

/-- **The weight of an authorization**: the keys that signed, each once, and the accounts
that are granted, each as often as it is listed, up to the cap. -/
theorem verifyWeight_eq (authority : Authority) (visited : List GoString)
    (auth : Authorization) :
    verifyWeight signBytes getAccount authority visited auth = min maxAuthWeight
      (keySum signBytes authority auth +
        ((granted signBytes getAccount authority visited auth).map
          authority.accountWeight).sum) := by
  cases auth with
  | mk signatures auths =>
    have hkeys := countKeys_eq signBytes authority signatures [] 0 (Nat.zero_le _)
    rw [List.toFinset_nil, Finset.sdiff_empty, Nat.zero_add] at hkeys
    rw [verifyWeight, addAccounts_eq _ _ _ _ _ _ (by rw [hkeys]; exact min_le_left _ _), hkeys]
    rw [keySum, granted]
    omega

end weights

end Leaderberry
