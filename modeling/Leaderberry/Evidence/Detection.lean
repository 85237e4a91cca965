import Leaderberry.Evidence.Committed
import Leaderberry.Engine.Pol
import Leaderberry.Engine.Scenario

/-!
# Equivocation is detected

A vote that `CheckVote` has taken stays in the table as long as its height is inside of the
protection window and of the maximal age, whatever else happens to the pool. The vote that
conflicts with it then meets it.

- `Stored`, `Holds`: what the table of votes keeps.
- `equivocation_detected`: the second vote gives evidence that verifies.
- `Wrapped.wrapped_window_loses_vote`: `Update` heights near the least `int64` are an exception. The
  lower end of the window wraps around, and no vote is protected.
-/

namespace Leaderberry.Byzantine

/-! ## Pruning -/

theorem mem_lookup_foldl_erase {K V : Type} [DecidableEq K] {keys : List K} {m : GoMap K V}
    {k : K} {v : V} :
    v ∈ (keys.foldl (fun m key => m.erase key) m).lookup k ↔ v ∈ m.lookup k ∧ k ∉ keys := by
  induction keys generalizing m with
  | nil => simp
  | cons key keys ih =>
    rw [List.foldl_cons, ih, List.mem_cons, not_or, ← and_assoc]
    by_cases heq : k = key
    · subst heq
      simp [AList.lookup_erase]
    · simp [heq, AList.lookup_erase_ne heq]

/-- A list in ascending order starts with its least element. -/
theorem insertionSort_eq_cons {l : List Int} {x : Int} (hx : x ∈ l) (hleast : ∀ y ∈ l, x ≤ y) :
    ∃ tail, l.insertionSort (· ≤ ·) = x :: tail := by
  have hmem : ∀ y, y ∈ l.insertionSort (· ≤ ·) ↔ y ∈ l := fun y =>
    (List.perm_insertionSort (· ≤ ·) l).mem_iff
  have hsorted : (l.insertionSort (· ≤ ·)).Pairwise (· ≤ ·) := List.pairwise_insertionSort _ l
  cases hsort : l.insertionSort (· ≤ ·) with
  | nil => simpa [hsort] using (hmem x).mpr hx
  | cons y tail =>
    rw [hsort] at hmem hsorted
    have hle : x ≤ y := hleast y ((hmem y).mp List.mem_cons_self)
    obtain rfl | htail := List.mem_cons.mp ((hmem x).mpr hx)
    · exact ⟨tail, rfl⟩
    · have hge : y ≤ x := (List.pairwise_cons.mp hsorted).1 x htail
      rw [le_antisymm hge hle]
      exact ⟨tail, rfl⟩

namespace Pool

variable {order : List GoString} {p : Pool} {key : GoString} {v : Vote}

/-- The vote with the least height is the first that goes. -/
theorem oldestFirst_eq_cons {height : Int} (hvote : (height, key) ∈ p.unprotected order)
    (hleast : ∀ v ∈ p.unprotected order, v = (height, key) ∨ height < v.1) :
    ∃ others, p.oldestFirst order = key :: others := by
  obtain ⟨heights, hheights⟩ := insertionSort_eq_cons
    (List.mem_dedup.mpr (List.mem_map_of_mem hvote : height ∈ (p.unprotected order).map Prod.fst))
    (fun y hy => by
      obtain ⟨v, hv, rfl⟩ := List.mem_map.mp (List.mem_dedup.mp hy)
      obtain rfl | hlt := hleast v hv
      · exact le_rfl
      · exact hlt.le)
  have hgroup : ∀ k ∈ ((p.unprotected order).filter fun v => v.1 = height).map Prod.snd,
      k = key := by
    intro k hk
    obtain ⟨v, hv, rfl⟩ := List.mem_map.mp hk
    obtain ⟨hv, hheight⟩ := List.mem_filter.mp hv
    rw [decide_eq_true_eq] at hheight
    obtain rfl | hlt := hleast v hv
    · rfl
    · omega
  have hkey : key ∈ ((p.unprotected order).filter fun v => v.1 = height).map Prod.snd :=
    List.mem_map.mpr ⟨(height, key), List.mem_filter.mpr ⟨hvote, by simp⟩, rfl⟩
  obtain ⟨k, others, hcons⟩ := List.exists_cons_of_ne_nil (List.ne_nil_of_mem hkey)
  rw [oldestFirst, hheights, List.flatMap_cons, hcons, hgroup k (hcons ▸ List.mem_cons_self)]
  exact ⟨_, rfl⟩

/-- `pruneOldestVotes` only deletes votes below the protected heights. -/
theorem mem_oldestFirst (h : key ∈ p.oldestFirst order) :
    ∃ v ∈ p.seenVotes.lookup key, v.height < p.protectedHeight := by
  obtain ⟨height, -, hkey⟩ := List.mem_flatMap.mp h
  obtain ⟨⟨_, _⟩, hvote, rfl⟩ := List.mem_map.mp hkey
  obtain ⟨key, -, hbind⟩ := List.mem_filterMap.mp (List.mem_of_mem_filter hvote)
  obtain ⟨v, hv, hif⟩ := Option.bind_eq_some_iff.mp hbind
  split_ifs at hif with hprotected
  cases hif
  exact ⟨v, hv, lt_of_not_ge hprotected⟩

theorem mem_lookup_pruneOldestVotes {n : Nat} (hv : v ∈ p.seenVotes.lookup key)
    (hprotected : p.protectedHeight ≤ v.height) :
    v ∈ (p.pruneOldestVotes order n).seenVotes.lookup key := by
  refine mem_lookup_foldl_erase.mpr ⟨hv, fun hmem => ?_⟩
  obtain ⟨w, hw, hlt⟩ := mem_oldestFirst (List.mem_of_mem_take hmem)
  rw [Option.mem_unique hv hw] at hprotected
  omega

theorem of_mem_lookup_pruneOldestVotes {n : Nat}
    (hv : v ∈ (p.pruneOldestVotes order n).seenVotes.lookup key) :
    v ∈ p.seenVotes.lookup key :=
  (mem_lookup_foldl_erase.mp hv).1

/-- The votes after `trackVote`: old ones, and the new one. -/
theorem of_mem_lookup_trackVote {vote : Vote}
    (hv : v ∈ (p.trackVote order vote).2.seenVotes.lookup key) :
    v ∈ p.seenVotes.lookup key ∨ key = voteKey vote ∧ v = vote := by
  have hinsert : ∀ {m : GoMap GoString Vote},
      (∀ {w}, w ∈ m.lookup key → w ∈ p.seenVotes.lookup key) →
      v ∈ (m.insert (voteKey vote) vote).lookup key →
      v ∈ p.seenVotes.lookup key ∨ key = voteKey vote ∧ v = vote := by
    intro m hm hmem
    by_cases heq : key = voteKey vote
    · rw [heq, AList.lookup_insert] at hmem
      exact .inr ⟨heq, (Option.some.inj hmem).symm⟩
    · rw [AList.lookup_insert_ne heq] at hmem
      exact .inl (hm hmem)
  unfold trackVote at hv
  dsimp only at hv
  split_ifs at hv
  · exact .inl (of_mem_lookup_pruneOldestVotes hv)
  · exact hinsert of_mem_lookup_pruneOldestVotes hv
  · exact hinsert id hv

/-- A protected vote under another key outlives `trackVote`. -/
theorem mem_lookup_trackVote {vote : Vote} (hv : v ∈ p.seenVotes.lookup key)
    (hprotected : p.protectedHeight ≤ v.height) (hkey : key ≠ voteKey vote) :
    v ∈ (p.trackVote order vote).2.seenVotes.lookup key := by
  unfold trackVote
  dsimp only
  split_ifs
  · exact mem_lookup_pruneOldestVotes hv hprotected
  · rw [AList.lookup_insert_ne hkey]
    exact mem_lookup_pruneOldestVotes hv hprotected
  · rw [AList.lookup_insert_ne hkey]
    exact hv

end Pool

/-! ## What the table of votes keeps -/

/-- The call uses the validator set and the chain ID of the run. -/
def PoolOp.Uses (vs : ValidatorSet) (chainID : GoString) : PoolOp → Prop
  | .checkVote _ _ _ valSet chainID' => chainID' = chainID ∧ ∀ vs' ∈ valSet, vs' = vs
  | _ => True

/-- Some vote for the block of `v` is under the key of `v`. -/
def Holds (v : Vote) (p : Pool) : Prop :=
  ∃ w ∈ p.seenVotes.lookup (voteKey v), votesForSameBlock w v = true

section

variable [Externals] {vs : ValidatorSet} {chainID : GoString} {op : PoolOp} {p : Pool} {v : Vote}

/-- A vote that is signed by the validator it names. -/
def Signed (vs : ValidatorSet) (chainID : GoString) (v : Vote) : Prop :=
  ∃ val, vs.getByName (accountNameString v.validator) = some val ∧
    verifyVoteSignature chainID v val.publicKey = .ok ()

/-- Every vote is under its own key and signed. -/
def Stored (vs : ValidatorSet) (chainID : GoString) (p : Pool) : Prop :=
  ∀ key, ∀ v ∈ p.seenVotes.lookup key, voteKey v = key ∧ Signed vs chainID v

variable [Encoder]

/-- The calls other than `CheckVote` and `Update` leave the votes alone. -/
theorem seenVotes_step (p : Pool)
    (hop : ∀ now order vote valSet chainID, op ≠ .checkVote now order vote valSet chainID)
    (hupdate : op.updateHeight = none) : (p.step op).seenVotes = p.seenVotes := by
  cases op with
  | checkVote => exact absurd rfl (hop _ _ _ _ _)
  | addEvidence ev =>
    obtain ⟨pending, hframe⟩ := p.addEvidence_frame ev
    rw [Pool.step, hframe]
  | addDuplicateVoteEvidence dve chainID valSet =>
    obtain ⟨pending, hframe⟩ := p.addDuplicateVoteEvidence_frame dve chainID valSet
    rw [Pool.step, hframe]
  | markCommitted | pendingEvidence => rfl
  | update => cases hupdate

omit [Encoder] in
theorem Stored.checkVote (h : Stored vs chainID p) (hchain : chainID ≠ []) (now : Int)
    (order : List GoString) (vote : Option Vote) {valSet : Option ValidatorSet}
    (hvs : ∀ vs' ∈ valSet, vs' = vs) :
    Stored vs chainID (p.checkVote now order vote valSet chainID).2 := by
  obtain ⟨e, hcall⟩ | ⟨v, vs', val, -, hset, hval, hsignature, ⟨-, hcall⟩ | ⟨existing, -, hrest⟩⟩ :=
    p.checkVote_cases now order vote valSet chainID
  · rw [hcall]
    exact h
  · rw [hcall]
    intro key w hw
    obtain hold | ⟨rfl, rfl⟩ := Pool.of_mem_lookup_trackVote hw
    · exact h key w hold
    · rw [unlessEmpty, if_pos hchain] at hsignature
      exact ⟨rfl, val, hvs vs' hset ▸ hval, hsignature⟩
  · obtain ⟨-, hcall⟩ | ⟨-, -, hcall⟩ := hrest <;>
    · rw [hcall]
      exact h

theorem Stored.step (h : Stored vs chainID p) (hchain : chainID ≠ []) (hop : op.Uses vs chainID) :
    Stored vs chainID (p.step op) := by
  cases op with
  | checkVote now order vote valSet chainID' =>
    obtain ⟨rfl, hvs⟩ := hop
    exact h.checkVote hchain now order vote hvs
  | update height blockTime => exact fun key v hv => h key v (mem_lookup_retain.mp hv).1
  | addEvidence | addDuplicateVoteEvidence | markCommitted | pendingEvidence =>
    rw [Stored, seenVotes_step p (by simp) rfl]
    exact h

omit [Externals] [Encoder] in
/-- Inside of the window a height is protected, as long as the lower end of the window does
not wrap around. -/
theorem protectedHeight_le {height : Int} (hlow : minInt64 + voteProtectionWindow ≤ p.currentHeight)
    (hhigh : p.currentHeight ≤ maxInt64) (hheight : 0 ≤ height)
    (hwindow : p.currentHeight - height ≤ voteProtectionWindow) : p.protectedHeight ≤ height := by
  have hwrap : wrapInt64 (p.currentHeight - voteProtectionWindow) =
      p.currentHeight - voteProtectionWindow := by
    refine wrapInt64_eq_self (by omega) ?_
    rw [voteProtectionWindow]
    omega
  rw [Pool.protectedHeight, hwrap]
  split <;> omega

/-- The vote stays, if its height is inside of the window before the call and not too old
after it. -/
theorem Holds.step (h : Holds v p) (hstored : Stored vs chainID p) (hheight : 0 ≤ v.height)
    (hlow : minInt64 + voteProtectionWindow ≤ p.currentHeight) (hhigh : p.currentHeight ≤ maxInt64)
    (hwindow : p.currentHeight - v.height ≤ voteProtectionWindow)
    (hhigh' : (p.step op).currentHeight ≤ maxInt64)
    (hage : (p.step op).currentHeight - v.height ≤ p.config.maxAgeBlocks) :
    Holds v (p.step op) := by
  obtain ⟨w, hw, hblock⟩ := h
  have hsame : w.height = v.height := (voteKey_inj (hstored _ w hw).1).2.1
  cases op with
  | checkVote now order vote valSet chainID' =>
    rw [Pool.step]
    obtain ⟨e, hcall⟩ | ⟨u, _, _, -, -, -, -, ⟨hnew, hcall⟩ | ⟨existing, -, hrest⟩⟩ :=
      p.checkVote_cases now order vote valSet chainID'
    · rw [hcall]
      exact ⟨w, hw, hblock⟩
    · rw [hcall]
      refine ⟨w, Pool.mem_lookup_trackVote hw ?_ fun hkey => ?_, hblock⟩
      · rw [hsame]
        exact protectedHeight_le hlow hhigh hheight hwindow
      · rw [← hkey, hw] at hnew
        cases hnew
    · obtain ⟨-, hcall⟩ | ⟨-, -, hcall⟩ := hrest <;>
      · rw [hcall]
        exact ⟨w, hw, hblock⟩
  | update height blockTime =>
    refine ⟨w, mem_lookup_retain.mpr ⟨hw, ?_⟩, hblock⟩
    rw [Bool.not_eq_true', Pool.outOfAge, hsame]
    by_cases hlt : v.height < height
    · have hwrap : wrapInt64 (height - v.height) = height - v.height :=
        wrapInt64_age hheight hlt hhigh'
      simp only [hlt, decide_true, Bool.true_and, hwrap, decide_eq_false_iff_not, not_lt]
      exact hage
    · simp [hlt]
  | addEvidence | addDuplicateVoteEvidence | markCommitted | pendingEvidence =>
    rw [Holds, seenVotes_step p (by simp) rfl]
    exact ⟨w, hw, hblock⟩

omit [Encoder] in
/-- A vote that was taken without complaint is in the table, or another one for its block. -/
theorem holds_checkVote {now : Int} {order : List GoString}
    (hok : (p.checkVote now order (some v) (some vs) chainID).1 = .ok none) :
    Holds v (p.checkVote now order (some v) (some vs) chainID).2 := by
  obtain ⟨e, hcall⟩ | ⟨_, _, _, hv, -, -, -, ⟨-, hcall⟩ | ⟨existing, hexisting, hrest⟩⟩ :=
    p.checkVote_cases now order (some v) (some vs) chainID
  · rw [hcall] at hok
    cases hok
  · cases hv
    rw [hcall] at hok ⊢
    unfold Pool.trackVote at hok ⊢
    dsimp only at hok ⊢
    split_ifs at hok ⊢
    · exact ⟨v, AList.lookup_insert _, by simp [votesForSameBlock]⟩
    · exact ⟨v, AList.lookup_insert _, by simp [votesForSameBlock]⟩
  · cases hv
    obtain ⟨hsame, hcall⟩ | ⟨-, -, hcall⟩ := hrest
    · rw [hcall]
      exact ⟨existing, hexisting, hsame⟩
    · rw [hcall] at hok
      cases hok

theorem config_step (p : Pool) (op : PoolOp) : (p.step op).config = p.config := by
  cases op with
  | checkVote now order vote valSet chainID =>
    obtain ⟨m, hm⟩ := p.checkVote_pool now order vote valSet chainID
    rw [Pool.step, hm]
  | addEvidence ev =>
    obtain ⟨pending, hframe⟩ := p.addEvidence_frame ev
    rw [Pool.step, hframe]
  | addDuplicateVoteEvidence dve chainID valSet =>
    obtain ⟨pending, hframe⟩ := p.addDuplicateVoteEvidence_frame dve chainID valSet
    rw [Pool.step, hframe]
  | markCommitted | pendingEvidence | update => rfl

theorem config_run (p : Pool) (ops : List PoolOp) : (p.run ops).config = p.config := by
  induction ops using List.reverseRecOn with
  | nil => rfl
  | append_singleton ops op ih => rw [Pool.run_concat, config_step, ih]

theorem Stored.run (h : Stored vs chainID p) (hchain : chainID ≠ []) {ops : List PoolOp}
    (hops : ∀ op ∈ ops, op.Uses vs chainID) :
    Stored vs chainID (p.run ops) := by
  induction ops using List.reverseRecOn with
  | nil => exact h
  | append_singleton ops op ih =>
    rw [Pool.run_concat]
    exact (ih fun o ho => hops o (List.mem_append_left _ ho)).step hchain (hops op (by simp))

/-- The vote stays during a whole run. -/
theorem Holds.run {p : Pool} {v : Vote} (h : Holds v p) (hstored : Stored vs chainID p)
    (hchain : chainID ≠ []) (hheight : 0 ≤ v.height) {ops : List PoolOp}
    (hops : ∀ op ∈ ops, op.Uses vs chainID)
    (hrange : ∀ before, before <+: ops → minInt64 + voteProtectionWindow ≤
      (p.run before).currentHeight ∧ (p.run before).currentHeight ≤ maxInt64)
    (hwindow : ∀ before, before <+: ops → (p.run before).currentHeight - v.height ≤
      min voteProtectionWindow p.config.maxAgeBlocks) : Holds v (p.run ops) := by
  induction ops using List.reverseRecOn with
  | nil => exact h
  | append_singleton ops op ih =>
    have hinit : ops <+: ops ++ [op] := List.prefix_append ..
    have hops' : ∀ o ∈ ops, o.Uses vs chainID := fun o ho => hops o (List.mem_append_left _ ho)
    have hbefore := ih hops' (fun b hb => hrange b (hb.trans hinit))
      fun b hb => hwindow b (hb.trans hinit)
    have hafter := hwindow _ List.prefix_rfl
    have hhigh := (hrange _ List.prefix_rfl).2
    rw [Pool.run_concat] at hafter hhigh ⊢
    refine hbefore.step (hstored.run hchain hops') hheight (hrange ops hinit).1
      (hrange ops hinit).2 ((hwindow ops hinit).trans (min_le_left ..)) hhigh ?_
    rw [config_run]
    exact hafter.trans (min_le_right ..)

omit [Encoder] in
/-- A vote that meets one for another block gives evidence that verifies. -/
theorem checkVote_conflict (hstored : Stored vs chainID p) (hchain : chainID ≠ []) {w : Vote}
    (hw : w ∈ p.seenVotes.lookup (voteKey v)) (hblock : votesForSameBlock w v = false)
    (hsigned : Signed vs chainID v) (now : Int) (order : List GoString) :
    ∃ dve, (p.checkVote now order (some v) (some vs) chainID).1 = .ok (some dve) ∧
      votesForSameBlock dve.voteA dve.voteB = false ∧
      verifyDuplicateVoteEvidence (some dve) chainID (some vs) = .ok () := by
  obtain ⟨val, hval, hv⟩ := hsigned
  obtain ⟨hkey, val', hval', hsignature⟩ := hstored _ w hw
  obtain ⟨hname, hheight, hround, htype⟩ := voteKey_inj hkey
  rw [hname, hval] at hval'
  cases hval'
  have hverify : verifyDuplicateVoteEvidence (some (Pool.equivocation now w v vs val)) chainID
      (some vs) = .ok () :=
    (verifyDuplicateVoteEvidence_ok_iff (hname ▸ hval)).mpr
      ⟨hheight, hround, htype, hname, hblock, hsignature, hv⟩
  refine ⟨Pool.equivocation now w v vs val, ?_, hblock, hverify⟩
  have hlookup : p.seenVotes.lookup (voteKey v) = some w := hw
  simp [Pool.checkVote, hval, unlessEmpty, hchain, hv, hlookup, hblock, hverify]

/-- **Equivocation is detected.** The pool has taken a vote. As long as its height is inside
of the protection window and of the maximal age, a signed vote of the same validator for the
same height, round and type, but another block, gives evidence that verifies. The `Update`
heights must not be so low that the protection window wraps around. -/
theorem equivocation_detected {config : Config} (hchain : chainID ≠ [])
    {before between : List PoolOp} (huses : ∀ op ∈ before ++ between, op.Uses vs chainID)
    (hupdates : ∀ h ∈ (before ++ between).filterMap PoolOp.updateHeight,
      minInt64 + voteProtectionWindow ≤ h ∧ h ≤ maxInt64)
    {v₁ v₂ : Vote} {now₁ now₂ : Int} {order₁ order₂ : List GoString} {p : Pool}
    (hp : p = (((newPool config).run before).checkVote now₁ order₁ (some v₁) (some vs) chainID).2)
    (hfirst : (((newPool config).run before).checkVote now₁ order₁ (some v₁) (some vs)
      chainID).1 = .ok none)
    (hheight : 0 ≤ v₁.height)
    (hwindow : ∀ mid, mid <+: between → (p.run mid).currentHeight - v₁.height ≤
      min voteProtectionWindow config.maxAgeBlocks)
    (hkey : accountNameString v₂.validator = accountNameString v₁.validator ∧
      v₂.height = v₁.height ∧ v₂.round = v₁.round ∧ v₂.type = v₁.type)
    (hblock : votesForSameBlock v₁ v₂ = false) (hsigned : Signed vs chainID v₂) :
    ∃ dve, ((p.run between).checkVote now₂ order₂ (some v₂) (some vs) chainID).1 =
        .ok (some dve) ∧
      votesForSameBlock dve.voteA dve.voteB = false ∧
      verifyDuplicateVoteEvidence (some dve) chainID (some vs) = .ok () := by
  have hempty : Stored vs chainID (newPool config) := fun key v hv => nomatch hv
  have hbefore : ∀ op ∈ before, op.Uses vs chainID := fun o ho => huses o (by simp [ho])
  have hbetween : ∀ op ∈ between, op.Uses vs chainID := fun o ho => huses o (by simp [ho])
  have hstored : Stored vs chainID p := by
    rw [hp]
    exact (hempty.run hchain hbefore).checkVote hchain _ _ _ fun _ h => (Option.some.inj h).symm
  obtain ⟨m, hm⟩ := ((newPool config).run before).checkVote_pool now₁ order₁ (some v₁) (some vs)
    chainID
  have hconfig : p.config = config := by rw [hp, hm, config_run]; rfl
  have hcurrent : p.currentHeight = ((newPool config).run before).currentHeight := by rw [hp, hm]
  -- Every height that the pool has had comes from an `Update`, or is zero.
  have hrange : ∀ mid, mid <+: between → minInt64 + voteProtectionWindow ≤
      (p.run mid).currentHeight ∧ (p.run mid).currentHeight ≤ maxInt64 := by
    intro mid hmid
    have hzero : minInt64 + voteProtectionWindow ≤ 0 ∧ (0 : Int) ≤ maxInt64 := by decide
    obtain hsame | hmem := currentHeight_run p mid
    · rw [hsame, hcurrent]
      obtain hnew | hmem := currentHeight_run (newPool config) before
      · rw [hnew]
        exact hzero
      · exact hupdates _ (by rw [List.filterMap_append]; exact List.mem_append_left _ hmem)
    · refine hupdates _ ?_
      rw [List.filterMap_append]
      exact List.mem_append_right _ ((hmid.sublist.filterMap _).subset hmem)
  have hholds : Holds v₁ p := hp ▸ holds_checkVote hfirst
  obtain ⟨w, hw, hsame⟩ := hholds.run hstored hchain hheight hbetween hrange
    fun mid hmid => hconfig.symm ▸ hwindow mid hmid
  have hkeys : voteKey v₁ = voteKey v₂ := by
    rw [voteKey, voteKey, hkey.1, hkey.2.1, hkey.2.2.1, hkey.2.2.2]
  rw [hkeys] at hw
  refine checkVote_conflict (hstored.run hchain hbetween) hchain hw ?_ hsigned now₂ order₂
  rw [votesForSameBlock, beq_eq_false_iff_ne] at hblock ⊢
  rwa [eq_of_beq hsame]

end

/-! ## A window that wraps around -/

namespace Wrapped

variable {p : Pool} {n : Nat}

attribute [local instance] transparent timeEncoder

open Scenario (ballot)

/-- The set of validator 1 alone. -/
def sole : ValidatorSet := (Scenario.validatorSet [(1, 1)] Scenario.isOk_sole).1

/-- The vote that gets lost. -/
def lost : Vote := ballot 0 0 (some ⟨[1]⟩)

/-- Vote `i` of those that fill the table. -/
def filler (order : List GoString) (i : Nat) : PoolOp :=
  .checkVote 0 order (some (ballot 1 i none)) (some sole) [7]

theorem signed_ballot (height round : Int) (hash : Option Hash) :
    Signed sole [7] (ballot height round hash) := by
  have hkey : (sole.getByName [1]).map NamedValidator.publicKey = some (Scenario.key 1) := by
    decide +kernel
  obtain ⟨val, hval, hpublic⟩ := Option.map_eq_some_iff.mp hkey
  refine ⟨val, hval, ?_⟩
  rw [hpublic]
  exact verifyVoteSignature_of_verify (Scenario.verify_signature 1 _)

/-- Five heights later the conflicting vote is still noticed. -/
theorem conflict_noticed :
    let p := ((newPool defaultConfig).checkVote 0 [] (some lost) (some sole) [7]).2
    ∃ dve, ((p.run [.update 5 0]).checkVote 1 [] (some (ballot 0 0 (some ⟨[2]⟩))) (some sole)
        [7]).1 = .ok (some dve) ∧
      votesForSameBlock dve.voteA dve.voteB = false ∧
      verifyDuplicateVoteEvidence (some dve) [7] (some sole) = .ok () := by
  intro p
  have huses : ∀ op ∈ [] ++ [PoolOp.update 5 0], op.Uses sole [7] := by
    intro op hop
    rw [List.nil_append, List.mem_singleton] at hop
    exact hop ▸ trivial
  have hwindow : ∀ mid, mid <+: [PoolOp.update 5 0] →
      (p.run mid).currentHeight - lost.height ≤
        min voteProtectionWindow defaultConfig.maxAgeBlocks := by
    intro mid hmid
    obtain rfl | rfl : mid = [] ∨ mid = [.update 5 0] := by
      rw [List.prefix_cons_iff] at hmid
      obtain rfl | ⟨t, rfl, ht⟩ := hmid
      · exact .inl rfl
      · exact .inr (by rw [List.prefix_nil.mp ht])
    · decide +kernel
    · decide +kernel
  exact equivocation_detected (by decide) huses (by decide) rfl (by decide +kernel) le_rfl hwindow
    ⟨rfl, rfl, rfl, rfl⟩ (by decide +kernel) (signed_ballot ..)

/-- The table holds the vote and the first `n` fillers. -/
structure Filled (n : Nat) (p : Pool) : Prop where
  height : p.currentHeight = minInt64
  size : p.seenVotes.entries.length = n + 1
  first : p.seenVotes.lookup (voteKey lost) = some lost
  rest : ∀ key, ∀ w ∈ p.seenVotes.lookup key, key = voteKey lost ∨ w.height = 1
  fresh : ∀ i : Nat, n ≤ i → p.seenVotes.lookup (voteKey (ballot 1 i none)) = none

theorem voteKey_lost_ne (i : Nat) : voteKey lost ≠ voteKey (ballot 1 i none) :=
  fun h => absurd (voteKey_inj h).2.1 (by decide : (0 : Int) ≠ 1)

/-- A filler that is new is tracked. -/
theorem step_filler (order : List GoString) {i : Nat}
    (hnew : p.seenVotes.lookup (voteKey (ballot 1 i none)) = none) :
    p.step (filler order i) = (p.trackVote order (ballot 1 i none)).2 := by
  obtain ⟨val, hval, hsignature⟩ := signed_ballot 1 i none
  simp [Pool.step, filler, Pool.checkVote, hval, unlessEmpty, hsignature, hnew]

/-- There is room for another vote. -/
theorem Filled.step (h : Filled n p) (hroom : n + 1 < maxSeenVotes) (order : List GoString) :
    Filled (n + 1) (p.step (filler order n)) := by
  have hnew := h.fresh n le_rfl
  have hsize : ¬ maxSeenVotes ≤ p.seenVotes.entries.length := by
    rw [h.size]
    omega
  have hcall : p.step (filler order n) =
      { p with seenVotes := p.seenVotes.insert (voteKey (ballot 1 n none)) (ballot 1 n none) } := by
    rw [step_filler order hnew, Pool.trackVote]
    simp [hsize]
  rw [hcall]
  refine ⟨h.height, ?_, ?_, ?_, ?_⟩
  · have hmem : voteKey (ballot 1 n none) ∉ p.seenVotes := by
      rw [← AList.lookup_eq_none]
      exact hnew
    rw [AList.entries_insert_of_notMem hmem, List.length_cons, h.size]
  · rw [AList.lookup_insert_ne (voteKey_lost_ne n)]
    exact h.first
  · intro key w hw
    by_cases hkey : key = voteKey (ballot 1 n none)
    · rw [hkey, AList.lookup_insert] at hw
      exact .inr (Option.some.inj hw ▸ rfl)
    · rw [AList.lookup_insert_ne hkey] at hw
      exact h.rest key w hw
  · intro i hi
    rw [AList.lookup_insert_ne]
    · exact h.fresh i (by omega)
    · intro hkey
      have hround : (i : Int) = n := (voteKey_inj hkey).2.2.1
      omega

theorem Filled.run (h : Filled 0 p) (hn : n < maxSeenVotes) :
    Filled n (p.run ((List.range n).map (filler []))) := by
  induction n with
  | zero => exact h
  | succ n ih =>
    rw [List.range_succ, List.map_append, List.map_singleton, Pool.run_concat]
    exact (ih (by omega)).step hn []

/-- Near the least `int64` the lower end of the window is a huge height. -/
theorem Filled.protectedHeight (h : Filled n p) : 1 < p.protectedHeight := by
  rw [Pool.protectedHeight, h.height]
  decide

/-- The vote has the least height, so that it goes when the table is full. -/
theorem Filled.pruned (h : Filled n p) {order : List GoString}
    (horder : order.Perm p.seenVotes.keys) (k : Nat) :
    (p.pruneOldestVotes order (k + 1)).seenVotes.lookup (voteKey lost) = none := by
  have hlost : (0, voteKey lost) ∈ p.unprotected order := by
    refine List.mem_filterMap.mpr ⟨voteKey lost, ?_, ?_⟩
    · rw [horder.mem_iff]
      exact AList.lookup_isSome.mp (by rw [h.first]; rfl)
    · rw [h.first, Option.bind_some, if_neg]
      · rfl
      · exact not_le_of_gt (Int.zero_lt_one.trans h.protectedHeight)
  have hleast : ∀ v ∈ p.unprotected order, v = (0, voteKey lost) ∨ 0 < v.1 := by
    intro v hv
    obtain ⟨key, -, hbind⟩ := List.mem_filterMap.mp hv
    obtain ⟨w, hw, hif⟩ := Option.bind_eq_some_iff.mp hbind
    split_ifs at hif
    cases hif
    obtain rfl | hone := h.rest key w hw
    · rw [h.first] at hw
      cases hw
      exact .inl rfl
    · exact .inr (hone ▸ Int.zero_lt_one)
  obtain ⟨others, hfirst⟩ := Pool.oldestFirst_eq_cons hlost hleast
  rw [Option.eq_none_iff_forall_not_mem]
  intro w hw
  refine (mem_lookup_foldl_erase.mp hw).2 ?_
  rw [hfirst, List.take_succ_cons]
  exact List.mem_cons_self

/-- A pool at the least height that has taken the vote. -/
def first : Pool :=
  (((newPool defaultConfig).run [.update minInt64 0]).checkVote 0 [] (some lost) (some sole) [7]).2

theorem filled_first : Filled 0 first := by
  have hentries : first.seenVotes.entries = [⟨voteKey lost, lost⟩] := by decide +kernel
  have hlookup : ∀ {key w}, w ∈ first.seenVotes.lookup key → key = voteKey lost := by
    intro key w hw
    rw [AList.mem_lookup_iff, hentries, List.mem_singleton] at hw
    exact congrArg Sigma.fst hw
  refine ⟨by decide +kernel, by rw [hentries]; rfl, ?_, fun key w hw => .inl (hlookup hw), ?_⟩
  · exact AList.mem_lookup_iff.mpr (hentries ▸ List.mem_singleton_self _)
  · intro i _
    rw [Option.eq_none_iff_forall_not_mem]
    exact fun w hw => voteKey_lost_ne i (hlookup hw).symm

/-- The votes that fill the table. -/
def fillers (n : Nat) : List PoolOp := (List.range n).map (filler [])

/-- When the table is full, another vote throws the first one out. -/
theorem Filled.lost (h : Filled n p) (hfull : maxSeenVotes ≤ n + 1) {order : List GoString}
    (horder : order.Perm p.seenVotes.keys) :
    (p.step (filler order n)).seenVotes.lookup (voteKey lost) = none := by
  have hpruned := h.pruned horder (maxSeenVotes / 10 - 1)
  have hsize : maxSeenVotes ≤ p.seenVotes.entries.length := hfull.trans_eq h.size.symm
  rw [step_filler order (h.fresh n le_rfl), Pool.trackVote]
  simp only [if_pos hsize]
  split
  · exact hpruned
  · rw [AList.lookup_insert_ne (voteKey_lost_ne n)]
    exact hpruned

/-- At the least height the window wraps around: the pool has taken a vote of height 0, the
table is filled up with votes of height 1, and the conflicting vote is not noticed. -/
theorem wrapped_window_loses_vote : ∃ between : List PoolOp,
    (((newPool defaultConfig).run [.update minInt64 0]).checkVote 0 [] (some lost) (some sole)
      [7]).1 = .ok none ∧
    (∀ op ∈ between, op.Uses sole [7]) ∧ between.filterMap PoolOp.updateHeight = [] ∧
    (∀ mid now order vote valSet chainID,
      mid ++ [.checkVote now order vote valSet chainID] <+: between →
      maxSeenVotes ≤ (first.run mid).seenVotes.entries.length →
      order.Perm (first.run mid).seenVotes.keys) ∧
    (∀ mid, mid <+: between → (first.run mid).currentHeight - lost.height ≤
      min voteProtectionWindow defaultConfig.maxAgeBlocks) ∧
    Signed sole [7] (ballot 0 0 (some ⟨[2]⟩)) ∧
    votesForSameBlock lost (ballot 0 0 (some ⟨[2]⟩)) = false ∧
    ∀ now order dve, ((first.run between).checkVote now order (some (ballot 0 0 (some ⟨[2]⟩)))
      (some sole) [7]).1 ≠ .ok (some dve) := by
  obtain ⟨n, hn⟩ : ∃ n, n + 1 = maxSeenVotes := ⟨99999, rfl⟩
  have hfilled := filled_first.run (by omega : n < maxSeenVotes)
  set order := (first.run (fillers n)).seenVotes.keys with horder
  have hops : ∀ op ∈ fillers n ++ [filler order n], ∃ o i, op = filler o i := by
    intro op hop
    obtain hfiller | hlast := List.mem_append.mp hop
    · obtain ⟨i, -, rfl⟩ := List.mem_map.mp hfiller
      exact ⟨[], i, rfl⟩
    · exact ⟨order, n, List.mem_singleton.mp hlast⟩
  have hnoUpdate : (fillers n ++ [filler order n]).filterMap PoolOp.updateHeight = [] := by
    rw [List.filterMap_eq_nil_iff]
    intro op hop
    obtain ⟨o, i, rfl⟩ := hops op hop
    rfl
  refine ⟨fillers n ++ [filler order n], by decide +kernel, ?_, hnoUpdate, ?_, ?_,
    signed_ballot .., by decide +kernel, ?_⟩
  · intro op hop
    obtain ⟨o, i, rfl⟩ := hops op hop
    exact ⟨rfl, fun _ h => (Option.some.inj h).symm⟩
  · intro mid now order' vote valSet chainID hmid hfull
    obtain hlast | hbefore := List.prefix_concat_iff.mp hmid
    · obtain ⟨rfl, hop⟩ := List.append_inj' hlast rfl
      cases hop
      exact .refl _
    · -- The table is not full before.
      have hinit : mid <+: fillers n := (List.prefix_append mid _).trans hbefore
      have hlen : mid.length < n := by
        have := hbefore.length_le
        simp only [fillers, List.length_append, List.length_singleton, List.length_map,
          List.length_range] at this
        omega
      have hmid : mid = (List.range mid.length).map (filler []) := by
        conv_lhs => rw [List.prefix_iff_eq_take.mp hinit, fillers]
        rw [← List.map_take, List.take_range, Nat.min_eq_left hlen.le]
      have hsize := (filled_first.run (by omega : mid.length < maxSeenVotes)).size
      rw [← hmid] at hsize
      omega
  · intro mid hmid
    have hheight : (first.run mid).currentHeight = minInt64 := by
      obtain hsame | hmem := currentHeight_run first mid
      · rw [hsame]
        exact filled_first.height
      · have hmem' := (hmid.sublist.filterMap PoolOp.updateHeight).subset hmem
        rw [hnoUpdate] at hmem'
        cases hmem'
    rw [hheight]
    decide
  · intro now order' dve hfound
    have hnone : (first.run (fillers n ++ [filler order n])).seenVotes.lookup
        (voteKey (ballot 0 0 (some ⟨[2]⟩))) = none := by
      rw [Pool.run_concat]
      exact hfilled.lost hn.ge (.refl _)
    obtain ⟨e, h⟩ | ⟨v, _, _, hv, -, -, -, ⟨-, h⟩ | ⟨existing, hexisting, -⟩⟩ :=
      (first.run (fillers n ++ [filler order n])).checkVote_cases now order'
        (some (ballot 0 0 (some ⟨[2]⟩))) (some sole) [7]
    · rw [h] at hfound
      cases hfound
    · rw [h] at hfound
      exact (Pool.trackVote_spec order' v _).2 dve hfound
    · cases hv
      rw [hnone] at hexisting
      cases hexisting

end Wrapped

end Leaderberry.Byzantine
