import Mathlib.Data.Fin.VecNotation
import Leaderberry.Network.Net

/-!
# Concrete networks of two correct nodes

Builders for runs of a network with two correct nodes, over the transparent externals.
The second node handles all its events before the first one starts with its own, so
that each node's run can be evaluated by itself.
-/

namespace Leaderberry.Scenario

attribute [local instance] transparent

theorem key_injective : Function.Injective key := by
  intro a b h
  have hdata := congrArg (fun k : PublicKey => k.data.head?) h
  simpa [key, publicKeySize, List.replicate] using hdata

/-- Correct validators `a` and `b`; everybody else in the set is faulty. -/
def network (a b : Byte) (hab : a ≠ b) (vs : { vs : ValidatorSet // vs.Wf }) :
    Network (Fin 2) where
  key := fun i => key (![a, b] i)
  key_injective := by
    refine key_injective.comp fun i j h => ?_
    match i, j, h with
    | 0, 0, _ => rfl
    | 1, 1, _ => rfl
    | 0, 1, h => exact absurd h hab
    | 1, 0, h => exact absurd h.symm hab
  chainID := []
  height := 1
  validatorSet := vs.1
  launch := fun i => launch (![a, b] i) vs
  launch_chainID := fun _ => rfl
  launch_privVal := fun _ => rfl
  launch_executor := fun _ => rfl
  launch_height := fun _ => rfl
  launch_validatorSet := fun _ => rfl

instance neZero_two : NeZero 2 := ⟨by decide⟩

/-- The network before anybody starts. -/
def idle (S : Network (Fin 2)) : Fin 2 → Node := fun i => (S.launch i).fresh

/-- The network in which the nodes are in the given states. -/
def pair (S : Network (Fin 2)) (n₀ n₁ : Node) : Fin 2 → Node :=
  Function.update (Function.update (idle S) 1 n₁) 0 n₀

variable {S : Network (Fin 2)}

/-- Node 1 handles its events, then node 0 does. -/
theorem reachable_pair (env₀ env₁ : Env) (events₀ events₁ : List Event)
    (h₁ : S.Delivers (Function.update (idle S) 0 ((S.launch 0).start env₀)) 1 env₁ events₁
      ((S.launch 1).start env₁))
    (h₀ : S.Delivers (Function.update (idle S) 1
      (events₁.foldl (fun n e => handle env₁ e n) ((S.launch 1).start env₁))) 0 env₀ events₀
      ((S.launch 0).start env₀)) :
    S.Reachable (pair S
      (events₀.foldl (fun n e => handle env₀ e n) ((S.launch 0).start env₀))
      (events₁.foldl (fun n e => handle env₁ e n) ((S.launch 1).start env₁))) := by
  have hstart := (Network.Reachable.init (S := S)).start 0 env₀ rfl
  have hstart' := hstart.start 1 env₁ (Function.update_of_ne (by decide) ..)
  have hone := hstart'.deliver events₁ h₁
  rw [Function.update_comm (by decide)] at hone
  exact hone.deliver events₀ h₀

end Leaderberry.Scenario
