import Leaderberry.Types.Account

/-!
# Who is counted in an authorization

`VerifyAuthorization` remembers the keys it counted, but not the accounts: its `visited`
map is copied for each branch and only stops cycles. Two satisfied entries for one account
count twice.

- `entitled` is the weight with every key and every account counted once, at every level.
- `CountsOnce`: no level of the tree has two counted entries for one account.
- `authorization_counts_once`: where that is so, the weight is bounded by `entitled`, and
  repeating entries changes nothing.
-/

namespace Leaderberry

variable {authority : Authority} {visited : List GoString}

/-- Counting with repetitions gives no more than counting once, exactly if nothing that
has a weight is repeated. -/
theorem sum_map_le_sum_toFinset_iff {ι : Type*} [DecidableEq ι] (l : List ι) (w : ι → Nat) :
    (l.map w).sum ≤ ∑ i ∈ l.toFinset, w i ↔ ∀ i, 0 < w i → l.count i ≤ 1 := by
  rw [Finset.sum_list_map_count]
  have hterm : ∀ i ∈ l.toFinset, w i ≤ l.count i • w i := by
    intro i hi
    exact Nat.le_mul_of_pos_left _ (List.count_pos_iff.mpr (List.mem_toFinset.mp hi))
  constructor
  · intro hle i hpos
    by_contra hcount
    have hmem : i ∈ l.toFinset :=
      List.mem_toFinset.mpr (List.count_pos_iff.mp (by omega))
    refine absurd hle (not_le.mpr (Finset.sum_lt_sum hterm ⟨i, hmem, ?_⟩))
    calc w i < 2 * w i := by omega
      _ ≤ l.count i * w i := Nat.mul_le_mul_right _ (by omega)
  · intro hcount
    refine Finset.sum_le_sum fun i _ => ?_
    rcases Nat.eq_zero_or_pos (w i) with hzero | hpos
    · simp [hzero]
    · calc l.count i • w i ≤ 1 * w i := Nat.mul_le_mul_right _ (hcount i hpos)
        _ = w i := Nat.one_mul _

section counting

variable [Externals] (signBytes : Bytes) (getAccount : AccountGetter)

/-- The sum over the distinct accounts that are granted. -/
def accountSum (authority : Authority) (visited : List GoString) (auth : Authorization) : Nat :=
  ∑ account ∈ (granted signBytes getAccount authority visited auth).toFinset,
    authority.accountWeight account

/-! ## The weight an authorization is entitled to -/

mutual

/-- The distinct keys that signed and the distinct accounts whose own authority is
satisfied in this very sense. -/
def entitled (authority : Authority) (visited : List GoString) : Authorization → Nat
  | .mk signatures auths =>
    (∑ key ∈ signedKeys signBytes authority signatures, authority.keyWeight key) +
      ∑ account ∈ (entitledAccounts authority visited auths).toFinset,
        authority.accountWeight account
termination_by structural auth => auth

def entitledAccounts (authority : Authority) (visited : List GoString) :
    List (AccountName × Authorization) → List AccountName
  | [] => []
  | accAuth :: rest =>
    if isEntitled authority visited accAuth then
      accAuth.1 :: entitledAccounts authority visited rest
    else entitledAccounts authority visited rest
termination_by structural auths => auths

def isEntitled (authority : Authority) (visited : List GoString) :
    AccountName × Authorization → Bool
  | (account, authorization) =>
    !decide (accountNameString account ∈ visited) &&
    authority.accounts.any (fun aw => aw.account = account) &&
    match getAccount account with
    | none => false
    | some acc =>
      decide (acc.authority.threshold ≤
        entitled acc.authority (accountNameString account :: visited) authorization)
termination_by structural accAuth => accAuth

end

theorem entitledAccounts_eq (authority : Authority) (visited : List GoString) :
    ∀ auths, entitledAccounts signBytes getAccount authority visited auths =
      (auths.filter (isEntitled signBytes getAccount authority visited)).map Prod.fst
  | [] => rfl
  | accAuth :: rest => by
    rw [entitledAccounts, entitledAccounts_eq authority visited rest, List.filter_cons]
    split <;> rfl

/-! ## Counting once -/

/-- At no level of the tree that is evaluated is an account of positive weight granted by
more than one entry. -/
inductive CountsOnce : Authority → List GoString → Authorization → Prop
  | mk {authority : Authority} {visited : List GoString} {signatures : List SignatureProof}
      {auths : List (AccountName × Authorization)} :
      (∀ account, 0 < authority.accountWeight account →
        (granted signBytes getAccount authority visited (.mk signatures auths)).count account
          ≤ 1) →
      (∀ e ∈ auths, accountNameString e.1 ∉ visited →
        authority.accounts.any (fun aw => aw.account = e.1) = true →
        ∀ acc, getAccount e.1 = some acc →
          CountsOnce acc.authority (accountNameString e.1 :: visited) e.2) →
      CountsOnce authority visited (.mk signatures auths)

variable {signBytes getAccount}

/-- What `grants` says. -/
theorem grants_iff {e : AccountName × Authorization} :
    grants signBytes getAccount authority visited e = true ↔
      accountNameString e.1 ∉ visited ∧
      authority.accounts.any (fun aw => aw.account = e.1) = true ∧
      ∃ acc, getAccount e.1 = some acc ∧ acc.authority.threshold ≤
        verifyWeight signBytes getAccount acc.authority (accountNameString e.1 :: visited) e.2 := by
  unfold grants
  cases getAccount e.1 <;> simp [and_assoc]

theorem isEntitled_iff {e : AccountName × Authorization} :
    isEntitled signBytes getAccount authority visited e = true ↔
      accountNameString e.1 ∉ visited ∧
      authority.accounts.any (fun aw => aw.account = e.1) = true ∧
      ∃ acc, getAccount e.1 = some acc ∧ acc.authority.threshold ≤
        entitled signBytes getAccount acc.authority (accountNameString e.1 :: visited) e.2 := by
  obtain ⟨account, authorization⟩ := e
  rw [isEntitled]
  cases getAccount account <;> simp [and_assoc]

/-- Counted once everywhere, the weight is what the authorization is entitled to. -/
theorem CountsOnce.weight_le {auth : Authorization}
    (h : CountsOnce signBytes getAccount authority visited auth) :
    verifyWeight signBytes getAccount authority visited auth ≤
      entitled signBytes getAccount authority visited auth := by
  induction h with
  | @mk authority visited signatures auths honce _ ih =>
    have hsub : (granted signBytes getAccount authority visited
        (.mk signatures auths)).toFinset ⊆
        (entitledAccounts signBytes getAccount authority visited auths).toFinset := by
      intro account haccount
      rw [entitledAccounts_eq]
      rw [granted] at haccount
      simp only [List.mem_toFinset, List.mem_map, List.mem_filter] at haccount ⊢
      obtain ⟨e, ⟨he, hgrants⟩, rfl⟩ := haccount
      obtain ⟨hvisited, hknown, acc, hacc, hweight⟩ := grants_iff.mp hgrants
      exact ⟨e, ⟨he, isEntitled_iff.mpr ⟨hvisited, hknown, acc, hacc,
        hweight.trans (ih e he hvisited hknown acc hacc)⟩⟩, rfl⟩
    calc verifyWeight signBytes getAccount authority visited (.mk signatures auths)
        ≤ keySum signBytes authority (.mk signatures auths) +
          ((granted signBytes getAccount authority visited (.mk signatures auths)).map
            authority.accountWeight).sum := by
          rw [verifyWeight_eq]
          exact min_le_right _ _
      _ ≤ keySum signBytes authority (.mk signatures auths) +
          accountSum signBytes getAccount authority visited (.mk signatures auths) :=
          Nat.add_le_add_left ((sum_map_le_sum_toFinset_iff _ _).mpr honce) _
      _ ≤ entitled signBytes getAccount authority visited (.mk signatures auths) := by
          rw [entitled, keySum]
          exact Nat.add_le_add_left (Finset.sum_le_sum_of_subset hsub) _

/-! ## Repetition -/

/-- The second authorization repeats an entry of the first one, somewhere in the tree: a
signature, or, if `delegations` is set, a delegated authorization. -/
inductive Repeats (delegations : Bool) : Authorization → Authorization → Prop
  | signature {before after : List SignatureProof} {sig : SignatureProof}
      {auths : List (AccountName × Authorization)} :
      sig ∈ before ++ after →
      Repeats delegations (.mk (before ++ after) auths) (.mk (before ++ sig :: after) auths)
  | account {signatures : List SignatureProof}
      {before after : List (AccountName × Authorization)} {e : AccountName × Authorization} :
      delegations = true → e ∈ before ++ after →
      Repeats delegations (.mk signatures (before ++ after))
        (.mk signatures (before ++ e :: after))
  | nested {signatures : List SignatureProof}
      {before after : List (AccountName × Authorization)} {account : AccountName}
      {auth auth' : Authorization} : Repeats delegations auth auth' →
      Repeats delegations (.mk signatures (before ++ (account, auth) :: after))
        (.mk signatures (before ++ (account, auth') :: after))

theorem signedKeys_repeat (authority : Authority) {before after : List SignatureProof}
    {sig : SignatureProof} (h : sig ∈ before ++ after) :
    signedKeys signBytes authority (before ++ sig :: after) =
      signedKeys signBytes authority (before ++ after) := by
  ext key
  simp only [signedKeys, List.mem_toFinset, List.mem_map, List.mem_filter]
  have hmem : ∀ s, s ∈ before ++ sig :: after ↔ s ∈ before ++ after := by
    intro s
    simp only [List.mem_append, List.mem_cons] at h ⊢
    constructor
    · rintro (hs | rfl | hs)
      · exact .inl hs
      · exact h
      · exact .inr hs
    · rintro (hs | hs)
      · exact .inl hs
      · exact .inr (.inr hs)
  simp only [hmem]

/-- A repeated entry does not change the weight, if it does not count twice. -/
theorem Repeats.verifyWeight_eq {delegations : Bool} {auth auth' : Authorization}
    (h : Repeats delegations auth auth') : ∀ (authority : Authority) (visited : List GoString),
    (delegations = true → CountsOnce signBytes getAccount authority visited auth') →
    verifyWeight signBytes getAccount authority visited auth =
      verifyWeight signBytes getAccount authority visited auth' := by
  induction h with
  | signature hsig =>
    intro authority visited _
    rw [Leaderberry.verifyWeight_eq, Leaderberry.verifyWeight_eq, keySum, keySum,
      signedKeys_repeat authority hsig]
    rfl
  | @account signatures before after e hd he =>
    intro authority visited honce
    rw [Leaderberry.verifyWeight_eq, Leaderberry.verifyWeight_eq, keySum, keySum, granted, granted]
    cases hgrants : grants signBytes getAccount authority visited e with
    | false => simp [hgrants]
    | true =>
      -- The account is granted by both copies, so it has no weight.
      have hzero : authority.accountWeight e.1 = 0 := by
        by_contra hpos
        cases honce hd with
        | mk hcount _ =>
          have htwo := hcount e.1 (Nat.pos_of_ne_zero hpos)
          have hother : e.1 ∈ ((before ++ after).filter
              (grants signBytes getAccount authority visited)).map Prod.fst :=
            List.mem_map_of_mem (List.mem_filter.mpr ⟨he, hgrants⟩)
          have hpos' := List.count_pos_iff.mpr hother
          rw [granted, List.filter_append, List.filter_cons_of_pos hgrants, List.map_append,
            List.map_cons, List.count_append, List.count_cons_self] at htwo
          rw [List.filter_append, List.map_append, List.count_append] at hpos'
          omega
      simp [hgrants, hzero]
  | @nested signatures before after account auth auth' hrepeats ih =>
    intro authority visited honce
    have hsame : grants signBytes getAccount authority visited (account, auth) =
        grants signBytes getAccount authority visited (account, auth') := by
      rw [Bool.eq_iff_iff, grants_iff, grants_iff]
      refine and_congr_right fun hvisited => and_congr_right fun hknown =>
        exists_congr fun acc => and_congr_right fun hacc => ?_
      rw [ih acc.authority _ fun hd => ?_]
      cases honce hd with
      | mk _ hnested =>
        exact hnested (account, auth') (List.mem_append_right _ (List.mem_cons_self ..))
          hvisited hknown acc hacc
    rw [Leaderberry.verifyWeight_eq, Leaderberry.verifyWeight_eq, keySum, keySum, granted, granted,
      List.filter_append, List.filter_append, List.filter_cons, List.filter_cons, hsame]
    split <;> simp

/-- The weight is at most that of the distinct keys and accounts exactly when no account
of positive weight is granted twice, or the cap is reached anyway. Where this is so at
every level, it is at most the weight the authorization is entitled to, and repeating
entries changes nothing; repeating signatures never does. -/
theorem authorization_counts_once (signBytes : Bytes) (getAccount : AccountGetter)
    (authority : Authority) (visited : List GoString) (auth : Authorization) :
    (verifyWeight signBytes getAccount authority visited auth ≤
        keySum signBytes authority auth + accountSum signBytes getAccount authority visited auth ↔
      (∀ account, 0 < authority.accountWeight account →
        (granted signBytes getAccount authority visited auth).count account ≤ 1) ∨
      maxAuthWeight ≤ keySum signBytes authority auth +
        accountSum signBytes getAccount authority visited auth) ∧
    (CountsOnce signBytes getAccount authority visited auth →
      verifyWeight signBytes getAccount authority visited auth ≤
        entitled signBytes getAccount authority visited auth) ∧
    (∀ auth₀, Repeats false auth₀ auth →
      isAuthoritySatisfied signBytes getAccount (some auth₀) (some authority) =
        isAuthoritySatisfied signBytes getAccount (some auth) (some authority)) ∧
    (CountsOnce signBytes getAccount authority [] auth → ∀ auth₀, Repeats true auth₀ auth →
      isAuthoritySatisfied signBytes getAccount (some auth₀) (some authority) =
        isAuthoritySatisfied signBytes getAccount (some auth) (some authority)) := by
  refine ⟨?_, CountsOnce.weight_le, fun auth₀ h => ?_, fun honce auth₀ h => ?_⟩
  · rw [← sum_map_le_sum_toFinset_iff, verifyWeight_eq]
    show _ ↔ _ ≤ accountSum signBytes getAccount authority visited auth ∨ _
    omega
  · rw [isAuthoritySatisfied, isAuthoritySatisfied, verifyAuthorization, verifyAuthorization,
      h.verifyWeight_eq authority [] fun hd => nomatch hd]
  · rw [isAuthoritySatisfied, isAuthoritySatisfied, verifyAuthorization, verifyAuthorization,
      h.verifyWeight_eq authority [] fun _ => honce]

end counting

section delegation

attribute [local instance] transparent

/-- An account whose one key has a weight that is enough. -/
def delegate : Account where
  name := ⟨some [1]⟩
  authority := ⟨1, [⟨⟨List.replicate publicKeySize 1⟩, 1⟩], []⟩

/-- The store that knows only this account. -/
def delegateOnly : AccountGetter := fun name => if name = delegate.name then some delegate else none

/-- The account signs the empty message. -/
def delegateAuthorization : AccountName × Authorization :=
  (delegate.name,
    .mk [⟨⟨List.replicate publicKeySize 1⟩, ⟨fitTo signatureSize [1]⟩⟩] [])

/-- An authority that the account alone does not satisfy. -/
def jointAuthority : Authority := ⟨2, [], [⟨delegate.name, 1⟩]⟩

/-- Listing the same delegated authorization twice passes a threshold that it does not
reach. -/
theorem repeated_delegation_satisfies :
    Repeats true (.mk [] [delegateAuthorization])
      (.mk [] [delegateAuthorization, delegateAuthorization]) ∧
    isAuthoritySatisfied [] delegateOnly (some (.mk [] [delegateAuthorization]))
      (some jointAuthority) = .ok false ∧
    isAuthoritySatisfied [] delegateOnly
      (some (.mk [] [delegateAuthorization, delegateAuthorization])) (some jointAuthority)
      = .ok true ∧
    entitled [] delegateOnly jointAuthority []
      (.mk [] [delegateAuthorization, delegateAuthorization]) <
    verifyWeight [] delegateOnly jointAuthority []
      (.mk [] [delegateAuthorization, delegateAuthorization]) := by
  refine ⟨?_, by decide +kernel, by decide +kernel, by decide +kernel⟩
  exact @Repeats.account true [] [delegateAuthorization] [] _ rfl (by simp)

/-- Another such account, with its authorization. -/
def secondDelegate : Account where
  name := ⟨some [2]⟩
  authority := ⟨1, [⟨⟨List.replicate publicKeySize 2⟩, 1⟩], []⟩

def secondAuthorization : AccountName × Authorization :=
  (secondDelegate.name,
    .mk [⟨⟨List.replicate publicKeySize 2⟩, ⟨fitTo signatureSize [2]⟩⟩] [])

/-- The store that knows both. -/
def bothDelegates : AccountGetter := fun name =>
  if name = secondDelegate.name then some secondDelegate else delegateOnly name

/-- A key and both accounts. -/
def boardAuthority : Authority :=
  ⟨3, [⟨⟨List.replicate publicKeySize 3⟩, 1⟩], [⟨delegate.name, 1⟩, ⟨secondDelegate.name, 1⟩]⟩

def boardSignature : SignatureProof :=
  ⟨⟨List.replicate publicKeySize 3⟩, ⟨fitTo signatureSize [3]⟩⟩

def boardAuthorization (signatures : List SignatureProof) : Authorization :=
  .mk signatures [delegateAuthorization, secondAuthorization]

/-- A key that signs twice and two accounts: each counts once, and together they are
enough. -/
theorem authorization_counts_once_delegate :
    verifyWeight [] bothDelegates boardAuthority []
      (boardAuthorization [boardSignature, boardSignature]) = 3 ∧
    entitled [] bothDelegates boardAuthority []
      (boardAuthorization [boardSignature, boardSignature]) = 3 ∧
    CountsOnce [] bothDelegates boardAuthority []
      (boardAuthorization [boardSignature, boardSignature]) ∧
    isAuthoritySatisfied [] bothDelegates (some (boardAuthorization [boardSignature]))
      (some boardAuthority) = .ok true := by
  have hplain (authority : Authority) (visited : List GoString)
      (signatures : List SignatureProof) :
      CountsOnce [] bothDelegates authority visited (.mk signatures []) :=
    .mk (fun account _ => by simp [granted]) fun e he => nomatch he
  have honce : CountsOnce [] bothDelegates boardAuthority []
      (boardAuthorization [boardSignature, boardSignature]) := by
    refine .mk (fun account _ => ?_) fun e he _ _ acc hacc => ?_
    · have hgranted : (granted [] bothDelegates boardAuthority []
          (boardAuthorization [boardSignature, boardSignature])).Nodup := by decide +kernel
      exact List.nodup_iff_count_le_one.mp hgranted account
    · rcases List.mem_cons.mp he with rfl | he
      · exact hplain _ _ _
      · rw [List.mem_singleton.mp he]
        exact hplain _ _ _
  obtain ⟨-, hle, hrepeat, -⟩ := authorization_counts_once [] bothDelegates boardAuthority []
    (boardAuthorization [boardSignature, boardSignature])
  have hweight : verifyWeight [] bothDelegates boardAuthority []
      (boardAuthorization [boardSignature, boardSignature]) = 3 := by decide +kernel
  have hentitled : entitled [] bothDelegates boardAuthority []
      (boardAuthorization [boardSignature, boardSignature]) ≤ 3 := by decide +kernel
  refine ⟨hweight, le_antisymm hentitled (hweight ▸ hle honce), honce, ?_⟩
  refine (hrepeat _ (@Repeats.signature false [] [boardSignature] _ _ (by simp))).trans ?_
  decide +kernel

end delegation

end Leaderberry
