import Leaderberry.Lib.KeyedSort
import Leaderberry.Types.Serialization
import Leaderberry.Engine.Lock

/-!
# Validator updates

`applyValidatorUpdates` folds the updates into a map, adds the map up, gives new validators
their penalty and lists the map, in whatever order Go iterates; then it sorts by name. All
nodes must end with the same set.

- `applyValidatorUpdatesIn` is the function with the iteration orders as parameters
  (`MapOrder`); `applyValidatorUpdatesIn_eq`: they do not matter, and `applyValidatorUpdates`
  is the function for any of them.
- `roll` is what the map holds, as functions of a name. Updates of different names commute on
  it (`updateRoll_comm`), so the order of such updates does not matter either.
- `roster` is what the set is for: who is a validator, with which key and power. The new
  roster is the old one with the updates applied from left to right.
-/

namespace Leaderberry

variable {m : GoMap GoString NamedValidator} {acc : GoMap GoString NamedValidator × List GoString}

/-! ## Iteration orders -/

/-- The orders in which Go iterates over the maps of one call. -/
structure MapOrder where
  /-- The loop that adds up the power. -/
  power : List NamedValidator → List NamedValidator
  /-- The loop over the names of new validators. -/
  names : List GoString → List GoString
  /-- The loop that lists the map. -/
  list : List NamedValidator → List NamedValidator
  power_perm : ∀ l, (power l).Perm l
  names_perm : ∀ l, (names l).Perm l
  list_perm : ∀ l, (list l).Perm l

/-- `totalPower += v.VotingPower`, which may wrap at every step. -/
def rangeTotal (vals : List NamedValidator) : Int :=
  vals.foldl (fun total v => wrapInt64 (total + v.votingPower)) 0

/-- Sets the priority of a new validator that is still there. -/
def penalizeOne (penalty : Int) (vals : GoMap GoString NamedValidator) (name : GoString) :
    GoMap GoString NamedValidator :=
  match vals.lookup name with
  | some v => vals.insert name { v with proposerPriority := penalty }
  | none => vals

/-- The loop over the new validators. -/
def penalize (penalty : Int) (names : List GoString) (vals : GoMap GoString NamedValidator) :
    GoMap GoString NamedValidator :=
  names.foldl (penalizeOne penalty) vals

/-- The map of the current validators by name. -/
def currentVals (vs : ValidatorSet) : GoMap GoString NamedValidator :=
  vs.validators.foldl (fun m v => m.insert (accountNameString v.name) v) ∅

/-- `applyValidatorUpdates` when Go iterates in the given orders. -/
def applyValidatorUpdatesIn [Externals] (o : MapOrder) (vs : ValidatorSet)
    (updates : List ValidatorUpdate) : Except ValidatorUpdateError ValidatorSet :=
  let (vals, newNames) := updates.foldl applyUpdate (currentVals vs, [])
  let totalPower := rangeTotal (o.power (vals.entries.map Sigma.snd))
  let penalty := Externals.newValidatorPenalty totalPower
  let vals := penalize penalty (o.names newNames.dedup) vals
  let sorted := (o.list (vals.entries.map Sigma.snd)).insertionSort fun a b =>
    accountNameString a.name ≤ accountNameString b.name
  if sorted.length = 0 then .error .emptyAfterUpdates
  else
    match newValidatorSet (sorted.map some) with
    | .error e => .error (.invalidValidatorSet e)
    | .ok newSet => .ok (newSet.withIncrementedPriority 1)

/-! ## Adding up -/

theorem foldl_wrapInt64 (vals : List NamedValidator) : ∀ total : Int,
    vals.foldl (fun total v => wrapInt64 (total + v.votingPower)) (wrapInt64 total) =
      wrapInt64 (total + (vals.map NamedValidator.votingPower).sum) := by
  induction vals with
  | nil =>
    intro total
    rw [List.foldl_nil, List.map_nil, List.sum_nil, add_zero]
  | cons v vals ih =>
    intro total
    have hstep : wrapInt64 (wrapInt64 total + v.votingPower) =
        wrapInt64 (total + v.votingPower) := Int.bmod_add_bmod
    rw [List.foldl_cons, hstep, ih, List.map_cons, List.sum_cons, add_assoc]

/-- Wrapping at every step is wrapping once, in any order. -/
theorem rangeTotal_eq {vals vals' : List NamedValidator} (h : vals.Perm vals') :
    rangeTotal vals = wrapInt64 (vals'.map NamedValidator.votingPower).sum := by
  have hzero : wrapInt64 0 = 0 := by decide
  have htotal := foldl_wrapInt64 vals 0
  rw [hzero, zero_add, (h.map NamedValidator.votingPower).sum_eq] at htotal
  exact htotal

/-! ## Maps keyed by name -/

/-- Every validator is under its own name. -/
def KeyedByName (m : GoMap GoString NamedValidator) : Prop :=
  ∀ name v, m.lookup name = some v → accountNameString v.name = name

theorem KeyedByName.insert (h : KeyedByName m) {name : GoString} {v : NamedValidator}
    (hv : accountNameString v.name = name) :
    KeyedByName (m.insert name v) := by
  intro name' v' hlookup
  rw [GoMap.lookup_insert_eq] at hlookup
  split at hlookup
  · rename_i heq
    rw [← Option.some_inj.mp hlookup, hv, heq]
  · exact h name' v' hlookup

theorem KeyedByName.erase (h : KeyedByName m) (name : GoString) : KeyedByName (m.erase name) := by
  intro name' v' hlookup
  by_cases heq : name' = name
  · subst heq
    rw [AList.lookup_erase] at hlookup
    cases hlookup
  · rw [AList.lookup_erase_ne heq] at hlookup
    exact h name' v' hlookup

theorem keyedByName_currentVals (vs : ValidatorSet) : KeyedByName (currentVals vs) := by
  unfold currentVals
  induction vs.validators using List.reverseRecOn with
  | nil =>
    intro name v hlookup
    cases hlookup
  | append_singleton vals v ih =>
    rw [List.foldl_append]
    exact ih.insert rfl

theorem KeyedByName.applyUpdate (h : KeyedByName acc.1) (u : ValidatorUpdate) :
    KeyedByName (applyUpdate acc u).1 := by
  unfold Leaderberry.applyUpdate
  dsimp only
  split
  · exact h.erase _
  · split
    · rename_i existing hlookup
      exact h.insert (h _ existing hlookup)
    · exact h.insert rfl

theorem KeyedByName.applyUpdates (updates : List ValidatorUpdate) :
    ∀ {acc : GoMap GoString NamedValidator × List GoString}, KeyedByName acc.1 →
      KeyedByName (updates.foldl Leaderberry.applyUpdate acc).1 := by
  induction updates with
  | nil => exact fun h => h
  | cons u updates ih =>
    intro acc h
    exact ih (h.applyUpdate u)

/-- The values of such a map have different names. -/
theorem KeyedByName.nodup (h : KeyedByName m) :
    (nameStrings (m.entries.map Sigma.snd)).Nodup := by
  have hkeys : nameStrings (m.entries.map Sigma.snd) = m.keys := by
    unfold nameStrings
    rw [List.map_map]
    refine List.map_congr_left fun e he => ?_
    exact h e.1 e.2 (AList.mem_lookup_iff.mpr he)
  rw [hkeys]
  exact m.keys_nodup

theorem GoMap.mem_values {K V : Type} [DecidableEq K] {m : GoMap K V} {v : V} :
    v ∈ m.entries.map Sigma.snd ↔ ∃ k, m.lookup k = some v := by
  rw [List.mem_map]
  constructor
  · rintro ⟨⟨k, w⟩, hmem, rfl⟩
    exact ⟨k, AList.mem_lookup_iff.mpr hmem⟩
  · rintro ⟨k, hk⟩
    exact ⟨⟨k, v⟩, AList.mem_lookup_iff.mp hk, rfl⟩

/-! ## The orders do not matter -/

theorem lookup_penalizeOne (penalty : Int) (m : GoMap GoString NamedValidator)
    (n name : GoString) : (penalizeOne penalty m n).lookup name =
      if name = n then (m.lookup name).map fun v => { v with proposerPriority := penalty }
      else m.lookup name := by
  unfold penalizeOne
  split
  · rename_i v hlookup
    rw [GoMap.lookup_insert_eq]
    split
    · rename_i heq
      rw [heq, hlookup, Option.map_some]
    · rfl
  · rename_i hlookup
    split
    · rename_i heq
      rw [heq, hlookup, Option.map_none]
    · rfl

/-- What the penalty does to an entry. -/
theorem lookup_penalize (penalty : Int) (names : List GoString) :
    ∀ (m : GoMap GoString NamedValidator) (name : GoString),
      (penalize penalty names m).lookup name =
        if name ∈ names then (m.lookup name).map fun v => { v with proposerPriority := penalty }
        else m.lookup name := by
  induction names with
  | nil => exact fun m name => (if_neg List.not_mem_nil).symm
  | cons n names ih =>
    intro m name
    show (penalize penalty names (penalizeOne penalty m n)).lookup name = _
    rw [ih, lookup_penalizeOne]
    by_cases heq : name = n
    · -- a second penalty changes nothing
      rw [if_pos heq, if_pos (List.mem_cons.mpr (.inl heq)), Option.map_map]
      split <;> rfl
    · simp only [List.mem_cons, heq, false_or, if_false]

/-- The list that is sorted, as `applyValidatorUpdates` writes it. -/
def penalized (penalty : Int) (acc : GoMap GoString NamedValidator × List GoString) :
    List NamedValidator :=
  acc.1.entries.map fun e =>
    if e.1 ∈ acc.2 then { e.2 with proposerPriority := penalty } else e.2

theorem mem_penalized {penalty : Int} {v : NamedValidator} :
    v ∈ penalized penalty acc ↔ ∃ name w, acc.1.lookup name = some w ∧
      v = if name ∈ acc.2 then { w with proposerPriority := penalty } else w := by
  unfold penalized
  rw [List.mem_map]
  constructor
  · rintro ⟨⟨name, w⟩, hmem, rfl⟩
    exact ⟨name, w, AList.mem_lookup_iff.mpr hmem, rfl⟩
  · rintro ⟨name, w, hlookup, rfl⟩
    exact ⟨⟨name, w⟩, AList.mem_lookup_iff.mp hlookup, rfl⟩

theorem nameStrings_penalized (penalty : Int)
    (acc : GoMap GoString NamedValidator × List GoString) :
    nameStrings (penalized penalty acc) = nameStrings (acc.1.entries.map Sigma.snd) := by
  unfold nameStrings penalized
  rw [List.map_map, List.map_map]
  refine List.map_congr_left fun e _ => ?_
  simp only [Function.comp_apply]
  split <;> rfl

/-- The penalties, given out in any order. -/
theorem lookup_penalize_names (o : MapOrder) (penalty : Int)
    (acc : GoMap GoString NamedValidator × List GoString) (name : GoString) :
    (penalize penalty (o.names acc.2.dedup) acc.1).lookup name =
      (acc.1.lookup name).map fun w =>
        if name ∈ acc.2 then { w with proposerPriority := penalty } else w := by
  have hnames : name ∈ o.names acc.2.dedup ↔ name ∈ acc.2 := by
    rw [(o.names_perm _).mem_iff, List.mem_dedup]
  rw [lookup_penalize]
  simp only [hnames]
  split
  · rfl
  · exact Option.map_id'.symm

theorem KeyedByName.penalize (h : KeyedByName acc.1) (o : MapOrder) (penalty : Int) :
    KeyedByName (penalize penalty (o.names acc.2.dedup) acc.1) := by
  intro name v hv
  rw [lookup_penalize_names] at hv
  obtain ⟨w, hw, rfl⟩ := Option.map_eq_some_iff.mp hv
  have hname := h name w hw
  split
  · exact hname
  · exact hname

/-- The penalized map, read and sorted in any order, is the sorted list. -/
theorem sorted_penalize (o : MapOrder) (penalty : Int) (h : KeyedByName acc.1) :
    ((o.list ((penalize penalty (o.names acc.2.dedup) acc.1).entries.map
      Sigma.snd)).insertionSort fun a b => accountNameString a.name ≤ accountNameString b.name) =
    (penalized penalty acc).insertionSort fun a b =>
      accountNameString a.name ≤ accountNameString b.name := by
  have hnodup : (nameStrings (penalized penalty acc)).Nodup := by
    rw [nameStrings_penalized]
    exact h.nodup
  have hlist := o.list_perm
    ((penalize penalty (o.names acc.2.dedup) acc.1).entries.map Sigma.snd)
  have hsorted : ∀ {l : List NamedValidator}, (nameStrings l).Nodup →
      (l.insertionSort fun a b => accountNameString a.name ≤ accountNameString b.name).Pairwise
        fun a b => accountNameString a.name < accountNameString b.name :=
    fun hl => KeyedSort.pairwise_lt hl
  -- both sides are strictly sorted, so it is enough that they have the same members
  refine KeyedSort.eq_of_mem_iff
    (hsorted ((hlist.map _).nodup_iff.mpr (h.penalize o penalty).nodup)) (hsorted hnodup)
    fun v => ?_
  rw [List.mem_insertionSort, List.mem_insertionSort, hlist.mem_iff, GoMap.mem_values,
    mem_penalized]
  constructor
  · rintro ⟨name, hv⟩
    rw [lookup_penalize_names] at hv
    obtain ⟨w, hw, rfl⟩ := Option.map_eq_some_iff.mp hv
    exact ⟨name, w, hw, rfl⟩
  · rintro ⟨name, w, hw, rfl⟩
    exact ⟨name, by rw [lookup_penalize_names, hw, Option.map_some]⟩

section

variable [Externals] {vals : List NamedValidator}

/-- The last part of the function, from the list to the set. -/
def buildUpdated (vals : List NamedValidator) : Except ValidatorUpdateError ValidatorSet :=
  let sorted := vals.insertionSort fun a b =>
    accountNameString a.name ≤ accountNameString b.name
  if sorted.length = 0 then .error .emptyAfterUpdates
  else
    match newValidatorSet (sorted.map some) with
    | .error e => .error (.invalidValidatorSet e)
    | .ok newSet => .ok (newSet.withIncrementedPriority 1)

/-- The penalty for the map that the updates leave. -/
def penaltyOf (m : GoMap GoString NamedValidator) : Int :=
  Externals.newValidatorPenalty
    (wrapInt64 ((m.entries.map Sigma.snd).map NamedValidator.votingPower).sum)

theorem applyValidatorUpdates_eq (vs : ValidatorSet) (updates : List ValidatorUpdate) :
    applyValidatorUpdates vs updates =
      buildUpdated (penalized (penaltyOf (updates.foldl applyUpdate (currentVals vs, [])).1)
        (updates.foldl applyUpdate (currentVals vs, []))) := by
  unfold penaltyOf
  rw [List.map_map]
  rfl

/-- **The iteration orders do not matter.** -/
theorem applyValidatorUpdatesIn_eq (o : MapOrder) (vs : ValidatorSet)
    (updates : List ValidatorUpdate) :
    applyValidatorUpdatesIn o vs updates = applyValidatorUpdates vs updates := by
  have hkeyed : KeyedByName (updates.foldl applyUpdate (currentVals vs, [])).1 :=
    KeyedByName.applyUpdates updates (keyedByName_currentVals vs)
  rw [applyValidatorUpdates_eq]
  unfold applyValidatorUpdatesIn buildUpdated
  dsimp only
  rw [rangeTotal_eq (o.power_perm _), sorted_penalize o _ hkeyed]
  rfl

/-! ## The order of updates -/

/-- What the map and the set of new names hold, as functions of a name. -/
def roll (acc : GoMap GoString NamedValidator × List GoString) :
    (GoString → Option NamedValidator) × (GoString → Prop) :=
  (acc.1.lookup, (· ∈ acc.2))

/-- The entry of a name after an update of it, and whether the name is new. -/
def updatedEntry (u : ValidatorUpdate) (entry : Option NamedValidator) (new : Prop) :
    Option NamedValidator × Prop :=
  if u.votingPower = 0 then (none, new)
  else
    match entry with
    | some existing =>
      (some { existing with publicKey := u.publicKey, votingPower := u.votingPower }, new)
    | none =>
      (some { name := u.name, index := 0, publicKey := u.publicKey,
              votingPower := u.votingPower, proposerPriority := 0 }, True)

/-- An update only touches the entry of its own name. -/
def updateRoll (r : (GoString → Option NamedValidator) × (GoString → Prop))
    (u : ValidatorUpdate) : (GoString → Option NamedValidator) × (GoString → Prop) :=
  let name := accountNameString u.name
  let updated := updatedEntry u (r.1 name) (r.2 name)
  (Function.update r.1 name updated.1, Function.update r.2 name updated.2)

section

omit [Externals]

theorem lookup_applyUpdate (acc : GoMap GoString NamedValidator × List GoString)
    (u : ValidatorUpdate) (name : GoString) : (applyUpdate acc u).1.lookup name =
      if name = accountNameString u.name then
        (updatedEntry u (acc.1.lookup (accountNameString u.name))
          (accountNameString u.name ∈ acc.2)).1
      else acc.1.lookup name := by
  unfold applyUpdate updatedEntry
  dsimp only
  by_cases hzero : u.votingPower = 0
  · rw [if_pos hzero, if_pos hzero]
    split
    · rename_i heq
      rw [heq]
      exact AList.lookup_erase _ _
    · rename_i hne
      exact AList.lookup_erase_ne hne
  · rw [if_neg hzero, if_neg hzero]
    cases acc.1.lookup (accountNameString u.name) with
    | some existing => exact GoMap.lookup_insert_eq _ _ _ _
    | none => exact GoMap.lookup_insert_eq _ _ _ _

theorem mem_applyUpdate (acc : GoMap GoString NamedValidator × List GoString)
    (u : ValidatorUpdate) (name : GoString) : name ∈ (applyUpdate acc u).2 ↔
      if name = accountNameString u.name then
        (updatedEntry u (acc.1.lookup (accountNameString u.name))
          (accountNameString u.name ∈ acc.2)).2
      else name ∈ acc.2 := by
  -- only an update that adds a validator marks its name
  have hkept : name ∈ acc.2 ↔ if name = accountNameString u.name then
      accountNameString u.name ∈ acc.2 else name ∈ acc.2 := by
    split
    · rename_i heq
      rw [heq]
    · rfl
  unfold applyUpdate updatedEntry
  dsimp only
  by_cases hzero : u.votingPower = 0
  · rw [if_pos hzero, if_pos hzero]
    exact hkept
  · rw [if_neg hzero, if_neg hzero]
    cases acc.1.lookup (accountNameString u.name) with
    | some existing => exact hkept
    | none =>
      dsimp only
      rw [List.mem_cons]
      split
      · rename_i heq
        simp [heq]
      · rename_i hne
        simp [hne]

theorem roll_applyUpdate (acc : GoMap GoString NamedValidator × List GoString)
    (u : ValidatorUpdate) : roll (applyUpdate acc u) = updateRoll (roll acc) u := by
  refine Prod.ext (funext fun name => ?_) (funext fun name => propext ?_)
  · refine (lookup_applyUpdate acc u name).trans ?_
    exact (Function.update_apply (roll acc).1 _ _ name).symm
  · refine (mem_applyUpdate acc u name).trans (iff_of_eq ?_)
    exact (Function.update_apply (roll acc).2 _ _ name).symm

theorem roll_applyUpdates (updates : List ValidatorUpdate) :
    ∀ acc, roll (updates.foldl applyUpdate acc) = updates.foldl updateRoll (roll acc) := by
  induction updates with
  | nil => exact fun acc => rfl
  | cons u updates ih =>
    intro acc
    rw [List.foldl_cons, List.foldl_cons, ih, roll_applyUpdate]

/-- Updates of different names commute. -/
theorem updateRoll_comm {u w : ValidatorUpdate}
    (hne : accountNameString u.name ≠ accountNameString w.name)
    (r : (GoString → Option NamedValidator) × (GoString → Prop)) :
    updateRoll (updateRoll r u) w = updateRoll (updateRoll r w) u := by
  unfold updateRoll
  dsimp only
  rw [Function.update_of_ne hne, Function.update_of_ne hne, Function.update_of_ne hne.symm,
    Function.update_of_ne hne.symm, Function.update_comm hne, Function.update_comm hne]

/-- What is sorted only depends on the roll. -/
theorem penalized_perm {penalty : Int} {acc acc' : GoMap GoString NamedValidator × List GoString}
    (h : roll acc = roll acc') : (penalized penalty acc).Perm (penalized penalty acc') := by
  obtain ⟨hlookup, hnames⟩ := Prod.mk.inj h
  have hmem : ∀ name, name ∈ acc.2 ↔ name ∈ acc'.2 := fun name => iff_of_eq (congrFun hnames name)
  have heq : penalized penalty acc = acc.1.entries.map fun e =>
      if e.1 ∈ acc'.2 then { e.2 with proposerPriority := penalty } else e.2 :=
    List.map_congr_left fun e _ => by simp only [hmem]
  rw [heq]
  exact (AList.perm_of_lookup_eq (congrFun hlookup)).map _

end

theorem penaltyOf_congr {m m' : GoMap GoString NamedValidator}
    (h : ∀ name, m.lookup name = m'.lookup name) : penaltyOf m = penaltyOf m' := by
  unfold penaltyOf
  rw [(((AList.perm_of_lookup_eq h).map Sigma.snd).map NamedValidator.votingPower).sum_eq]

/-- **The order of updates of different names does not matter.** -/
theorem applyValidatorUpdates_perm (vs : ValidatorSet) {updates updates' : List ValidatorUpdate}
    (hnodup : (updates.map fun u => accountNameString u.name).Nodup)
    (hperm : updates.Perm updates') :
    applyValidatorUpdates vs updates = applyValidatorUpdates vs updates' := by
  have hroll : roll (updates.foldl applyUpdate (currentVals vs, [])) =
      roll (updates'.foldl applyUpdate (currentVals vs, [])) := by
    rw [roll_applyUpdates, roll_applyUpdates]
    refine hperm.foldl_eq' (fun u hu w hw r => ?_) _
    by_cases heq : u = w
    · rw [heq]
    · refine updateRoll_comm (fun hname => heq ?_) r
      exact List.inj_on_of_nodup_map hnodup hu hw hname
  have hkeyed : KeyedByName (updates.foldl applyUpdate (currentVals vs, [])).1 :=
    KeyedByName.applyUpdates updates (keyedByName_currentVals vs)
  have hpenalty := penaltyOf_congr (congrFun (Prod.mk.inj hroll).1)
  rw [applyValidatorUpdates_eq, applyValidatorUpdates_eq, hpenalty]
  unfold buildUpdated
  dsimp only
  rw [KeyedSort.insertionSort_congr (penalized_perm hroll)]
  rw [← nameStrings, nameStrings_penalized]
  exact hkeyed.nodup

/-! ## The roster -/

/-- A validator's name, key and power. -/
def content (v : NamedValidator) : GoString × PublicKey × Int :=
  (accountNameString v.name, v.publicKey, v.votingPower)

/-- Key and power by name. The names of a set are distinct; in any other list the last entry
counts, as it does in a map. -/
def roster (vals : List NamedValidator) (name : GoString) : Option (PublicKey × Int) :=
  ((vals.map content).reverse.find? fun c => c.1 == name).map Prod.snd

/-- An update sets the key and power of its name, or removes the name. -/
def updateRoster (r : GoString → Option (PublicKey × Int)) (u : ValidatorUpdate) :
    GoString → Option (PublicKey × Int) :=
  Function.update r (accountNameString u.name)
    (if u.votingPower = 0 then none else some (u.publicKey, u.votingPower))

section

omit [Externals]

theorem roster_concat (vals : List NamedValidator) (v : NamedValidator) (name : GoString) :
    roster (vals ++ [v]) name = if name = accountNameString v.name then
      some (v.publicKey, v.votingPower) else roster vals name := by
  unfold roster
  rw [List.map_append, List.map_singleton, List.reverse_append, List.reverse_singleton,
    List.singleton_append, List.find?_cons]
  by_cases heq : name = accountNameString v.name
  · rw [if_pos heq, show ((content v).1 == name) = true from beq_iff_eq.mpr heq.symm]
    rfl
  · rw [if_neg heq, show ((content v).1 == name) = false from
      beq_eq_false_iff_ne.mpr (Ne.symm heq)]

/-- In a list of distinct names every entry counts. -/
theorem roster_eq_some_iff (hnodup : (nameStrings vals).Nodup) {name : GoString}
    {seat : PublicKey × Int} : roster vals name = some seat ↔
      ∃ v ∈ vals, accountNameString v.name = name ∧ (v.publicKey, v.votingPower) = seat := by
  induction vals using List.reverseRecOn with
  | nil => simp [roster]
  | append_singleton vals v ih =>
    rw [nameStrings, List.map_append, List.map_singleton, List.nodup_append] at hnodup
    obtain ⟨hvals, -, hnew⟩ := hnodup
    rw [roster_concat]
    by_cases heq : name = accountNameString v.name
    · rw [if_pos heq, Option.some_inj]
      constructor
      · rintro rfl
        exact ⟨v, List.mem_append_right _ (List.mem_singleton.mpr rfl), heq.symm, rfl⟩
      · rintro ⟨w, hw, hname, rfl⟩
        rcases List.mem_append.mp hw with hw | hw
        · exact absurd (hname.trans heq) (hnew _ (List.mem_map_of_mem hw) _
            (List.mem_singleton.mpr rfl))
        · rw [List.mem_singleton.mp hw]
    · rw [if_neg heq, ih hvals]
      constructor
      · rintro ⟨w, hw, hrest⟩
        exact ⟨w, List.mem_append_left _ hw, hrest⟩
      · rintro ⟨w, hw, hname, hseat⟩
        rcases List.mem_append.mp hw with hw | hw
        · exact ⟨w, hw, hname, hseat⟩
        · rw [List.mem_singleton.mp hw] at hname
          exact absurd hname.symm heq

/-- Key and power of what a map holds. -/
def rosterOf (m : GoMap GoString NamedValidator) (name : GoString) : Option (PublicKey × Int) :=
  (m.lookup name).map fun v => (v.publicKey, v.votingPower)

theorem rosterOf_currentVals (vs : ValidatorSet) :
    rosterOf (currentVals vs) = roster vs.validators := by
  funext name
  unfold currentVals
  induction vs.validators using List.reverseRecOn with
  | nil => rfl
  | append_singleton vals v ih =>
    rw [List.foldl_append, roster_concat, ← ih, List.foldl_cons, List.foldl_nil, rosterOf,
      GoMap.lookup_insert_eq]
    split <;> rfl

theorem rosterOf_applyUpdate (acc : GoMap GoString NamedValidator × List GoString)
    (u : ValidatorUpdate) :
    rosterOf (applyUpdate acc u).1 = updateRoster (rosterOf acc.1) u := by
  funext name
  unfold rosterOf updateRoster
  rw [lookup_applyUpdate, Function.update_apply]
  split
  · unfold updatedEntry
    split
    · rfl
    · cases acc.1.lookup (accountNameString u.name) <;> rfl
  · rfl

theorem rosterOf_applyUpdates (updates : List ValidatorUpdate) :
    ∀ acc : GoMap GoString NamedValidator × List GoString,
      rosterOf (updates.foldl applyUpdate acc).1 =
        updates.foldl updateRoster (rosterOf acc.1) := by
  induction updates with
  | nil => exact fun acc => rfl
  | cons u updates ih =>
    intro acc
    rw [List.foldl_cons, List.foldl_cons, ih, rosterOf_applyUpdate]

/-- The list that is sorted has the roster of the map. -/
theorem roster_penalized {penalty : Int} {acc : GoMap GoString NamedValidator × List GoString}
    (h : KeyedByName acc.1) (hperm : vals.Perm (penalized penalty acc)) :
    roster vals = rosterOf acc.1 := by
  have hnodup : (nameStrings vals).Nodup := by
    refine (hperm.map _).nodup_iff.mpr ?_
    show (nameStrings (penalized penalty acc)).Nodup
    rw [nameStrings_penalized]
    exact h.nodup
  funext name
  refine Option.ext fun seat => ?_
  rw [roster_eq_some_iff hnodup, rosterOf, Option.map_eq_some_iff]
  constructor
  · rintro ⟨v, hv, hname, hseat⟩
    obtain ⟨name', w, hw, heq⟩ := mem_penalized.mp (hperm.mem_iff.mp hv)
    have hsame : w.name = v.name ∧ (w.publicKey, w.votingPower) = (v.publicKey, v.votingPower) := by
      rw [heq]
      split <;> exact ⟨rfl, rfl⟩
    have hkey := h name' w hw
    rw [hsame.1, hname] at hkey
    exact ⟨w, hkey ▸ hw, hsame.2.trans hseat⟩
  · rintro ⟨w, hw, hseat⟩
    refine ⟨_, hperm.mem_iff.mpr (mem_penalized.mpr ⟨name, w, hw, rfl⟩), ?_, ?_⟩
    · have hkey := h name w hw
      split
      · exact hkey
      · exact hkey
    · split
      · exact hseat
      · exact hseat

end

/-! ## The new set -/

section

omit [Externals]

theorem content_of_members {vals' : List NamedValidator}
    (h : vals'.map NamedValidator.identity = vals.map NamedValidator.identity) :
    vals'.map content = vals.map content := by
  have hmap := congrArg (List.map content) h
  rwa [List.map_map, List.map_map] at hmap

theorem content_addValidators (vals : List NamedValidator) : ∀ (i : Nat) (vs vs' : ValidatorSet),
    addValidators i (vals.map some) vs = .ok vs' →
      vs'.validators.map content = vs.validators.map content ++ vals.map content := by
  induction vals with
  | nil =>
    intro i vs vs' h
    cases h
    simp
  | cons v vals ih =>
    intro i vs vs' h
    obtain ⟨-, hrest⟩ := addValidators_cons_ok h
    rw [ih _ _ _ hrest, ValidatorSet.push, List.map_append, List.map_singleton,
      List.append_assoc, List.map_cons]
    rfl

/-- `NewValidatorSet` keeps names, keys and powers, in their order. -/
theorem content_newValidatorSet {vs : ValidatorSet} (h : newValidatorSet (vals.map some) = .ok vs) :
    vs.validators.map content = vals.map content := by
  obtain ⟨-, -, built, hadd, hinit⟩ := newValidatorSet_ok h
  have hcontent := content_addValidators vals 0 _ built hadd
  rw [content_of_members hinit.members, hcontent]
  rfl

/-- A set that is built has the contents of the list, strictly sorted. -/
theorem buildUpdated_ok {newSet : ValidatorSet} (hnodup : (nameStrings vals).Nodup)
    (h : buildUpdated vals = .ok newSet) :
    (∃ sorted : List NamedValidator, sorted.Perm vals ∧
      newSet.validators.map content = sorted.map content) ∧
      (newSet.validators.Pairwise fun a b => accountNameString a.name < accountNameString b.name) ∧
      newSet.Wf := by
  have hsorted : (vals.insertionSort fun a b =>
      accountNameString a.name ≤ accountNameString b.name).Pairwise
        fun a b => accountNameString a.name < accountNameString b.name :=
    KeyedSort.pairwise_lt hnodup
  unfold buildUpdated at h
  dsimp only at h
  split at h
  · cases h
  split at h
  · cases h
  rename_i set hset
  cases h
  have hmembers : (set.withIncrementedPriority 1).validators.map content =
      set.validators.map content :=
    content_of_members (ValidatorSet.members_incrementProposerPriority set.copy 1)
  have hcontent := hmembers.trans (content_newValidatorSet hset)
  refine ⟨⟨_, List.perm_insertionSort _ _, hcontent⟩, ?_,
    (wf_newValidatorSet hset).withIncrementedPriority 1⟩
  -- the order is one of the contents
  have hpairs : ∀ {l : List NamedValidator},
      (l.Pairwise fun a b => accountNameString a.name < accountNameString b.name) ↔
        (l.map content).Pairwise fun a b => a.1 < b.1 := by
    intro l
    rw [List.pairwise_map]
    rfl
  rw [hpairs, hcontent, ← hpairs]
  exact hsorted

end

/-- A successful update: the old roster with the updates applied from left to right. -/
theorem applyValidatorUpdates_ok {vs newSet : ValidatorSet} {updates : List ValidatorUpdate}
    (h : applyValidatorUpdates vs updates = .ok newSet) :
    roster newSet.validators = updates.foldl updateRoster (roster vs.validators) ∧
      (newSet.validators.Pairwise fun a b => accountNameString a.name < accountNameString b.name) ∧
      newSet.Wf := by
  have hkeyed : KeyedByName (updates.foldl applyUpdate (currentVals vs, [])).1 :=
    KeyedByName.applyUpdates updates (keyedByName_currentVals vs)
  rw [applyValidatorUpdates_eq] at h
  obtain ⟨⟨sorted, hperm, hcontent⟩, hpairwise, hwf⟩ :=
    buildUpdated_ok (by rw [nameStrings_penalized]; exact hkeyed.nodup) h
  refine ⟨?_, hpairwise, hwf⟩
  have hroster : roster newSet.validators = roster sorted := by
    funext name
    unfold roster
    rw [hcontent]
  rw [hroster, roster_penalized hkeyed hperm, rosterOf_applyUpdates, rosterOf_currentVals]

/-- **Validator updates are the same on every node.** Updates of distinct names may come in
any order, and Go may iterate in any order, with the same error or the same set; and a
successful result is the old roster with the updates applied from left to right, strictly
sorted by name and indexed by position. -/
theorem applyValidatorUpdates_deterministic (vs : ValidatorSet) :
    (∀ (o o' : MapOrder) (updates updates' : List ValidatorUpdate),
      (updates.map fun u => accountNameString u.name).Nodup → updates.Perm updates' →
        applyValidatorUpdatesIn o vs updates = applyValidatorUpdatesIn o' vs updates') ∧
    ∀ (o : MapOrder) (updates : List ValidatorUpdate) (newSet : ValidatorSet),
      applyValidatorUpdatesIn o vs updates = .ok newSet →
        roster newSet.validators = updates.foldl updateRoster (roster vs.validators) ∧
        (newSet.validators.Pairwise fun a b =>
          accountNameString a.name < accountNameString b.name) ∧
        ∀ (i : Nat) v, newSet.validators[i]? = some v → v.index = i := by
  constructor
  · intro o o' updates updates' hnodup hperm
    rw [applyValidatorUpdatesIn_eq, applyValidatorUpdatesIn_eq]
    exact applyValidatorUpdates_perm vs hnodup hperm
  · intro o updates newSet h
    rw [applyValidatorUpdatesIn_eq] at h
    obtain ⟨hroster, hsorted, hwf⟩ := applyValidatorUpdates_ok h
    exact ⟨hroster, hsorted, hwf.index_eq⟩

end

section

attribute [local instance] transparent

/-- A new validator and the removal of an old one, in both orders; Go iterates backwards on
the second node. -/
theorem applyValidatorUpdates_pair :
    let forwards : MapOrder := ⟨id, id, id, .refl, .refl, .refl⟩
    let backwards : MapOrder :=
      ⟨List.reverse, List.reverse, List.reverse, List.reverse_perm, List.reverse_perm,
        List.reverse_perm⟩
    let add : ValidatorUpdate := ⟨⟨some [3]⟩, ⟨[]⟩, 5⟩
    let remove : ValidatorUpdate := ⟨⟨some [1]⟩, ⟨[]⟩, 0⟩
    (applyValidatorUpdatesIn forwards (ValidatorSet.pairSet 1 2) [add, remove]).isOk = true ∧
      applyValidatorUpdatesIn forwards (ValidatorSet.pairSet 1 2) [add, remove] =
        applyValidatorUpdatesIn backwards (ValidatorSet.pairSet 1 2) [remove, add] := by
  intro forwards backwards add remove
  refine ⟨by decide +kernel, ?_⟩
  exact (applyValidatorUpdates_deterministic (ValidatorSet.pairSet 1 2)).1 forwards backwards
    [add, remove] [remove, add] (by decide) (List.Perm.swap _ _ _)

end

end Leaderberry
