import Mathlib.Data.List.Basic
import Mathlib.Data.List.Perm.Basic

/-!
# Bounded channels

A buffered channel whose senders do not wait: what finds the buffer full is refused. Beside
its buffer a channel has the history of both ends, and its last fields say what that history
is worth: the buffer keeps to its capacity, and what was received together with what is in
the buffer is what was let in, in order.

- `send`, `receive`: the two operations.
- `perm_offered`: what was sent was received, is in the buffer or was refused, once each.
-/

structure Channel (capacity : Nat) (α : Type*) where
  queue : List α
  /-- What was received, oldest first. -/
  taken : List α
  /-- What was sent, oldest first, and whether it was let in. -/
  offered : List (α × Bool)
  bound : queue.length ≤ capacity
  fifo : taken ++ queue = (offered.filter Prod.snd).map Prod.fst

namespace Channel

variable {capacity : Nat} {α : Type*} {queue : List α}

def empty : Channel capacity α where
  queue := []
  taken := []
  offered := []
  bound := Nat.zero_le _
  fifo := rfl

/-- What found the buffer full. -/
def refused (c : Channel capacity α) : List α :=
  (c.offered.filter fun o => !o.2).map Prod.fst

theorem bound_send (h : queue.length < capacity) (a : α) :
    (queue ++ [a]).length ≤ capacity := by
  rw [List.length_append, List.length_singleton]
  exact h

theorem fifo_accept {taken : List α} {offered : List (α × Bool)}
    (h : taken ++ queue = (offered.filter Prod.snd).map Prod.fst) (a : α) :
    taken ++ (queue ++ [a]) = ((offered ++ [(a, true)]).filter Prod.snd).map Prod.fst := by
  rw [List.filter_append, List.map_append, ← h, List.append_assoc]
  rfl

theorem fifo_refuse {taken : List α} {offered : List (α × Bool)}
    (h : taken ++ queue = (offered.filter Prod.snd).map Prod.fst) (a : α) :
    taken ++ queue = ((offered ++ [(a, false)]).filter Prod.snd).map Prod.fst := by
  rw [List.filter_append, List.map_append, ← h]
  exact (List.append_nil _).symm

theorem fifo_receive (taken queue : List α) :
    taken ++ queue.head?.toList ++ queue.tail = taken ++ queue := by
  cases queue with
  | nil => rw [List.head?_nil, Option.toList_none, List.tail_nil, List.append_nil]
  | cons a rest => rw [List.head?_cons, Option.toList_some, List.append_assoc]; rfl

/-- A send in a `select` with a `default`. -/
def send (c : Channel capacity α) (a : α) : Channel capacity α :=
  if h : c.queue.length < capacity then
    { queue := c.queue ++ [a]
      taken := c.taken
      offered := c.offered ++ [(a, true)]
      bound := bound_send h a
      fifo := fifo_accept c.fifo a }
  else
    { c with
      offered := c.offered ++ [(a, false)]
      fifo := fifo_refuse c.fifo a }

/-- A receive; it takes `c.queue.head?`. -/
def receive (c : Channel capacity α) : Channel capacity α where
  queue := c.queue.tail
  taken := c.taken ++ c.queue.head?.toList
  offered := c.offered
  bound := Nat.le_trans (List.tail_sublist c.queue).length_le c.bound
  fifo := (fifo_receive c.taken c.queue).trans c.fifo

variable {c : Channel capacity α} {a : α}

@[simp] theorem taken_send : (c.send a).taken = c.taken := by
  unfold send
  split <;> rfl

@[simp] theorem map_offered_send :
    (c.send a).offered.map Prod.fst = c.offered.map Prod.fst ++ [a] := by
  unfold send
  split <;> exact List.map_append

@[simp] theorem offered_receive : c.receive.offered = c.offered := rfl

theorem taken_receive (h : c.queue.head? = some a) : c.receive.taken = c.taken ++ [a] := by
  show c.taken ++ c.queue.head?.toList = _
  rw [h, Option.toList_some]

/-- What was sent was received, is in the buffer or was refused, once each. -/
theorem perm_offered (c : Channel capacity α) :
    (c.offered.map Prod.fst).Perm (c.taken ++ c.queue ++ c.refused) := by
  rw [c.fifo, refused, ← List.map_append]
  exact ((List.filter_append_perm Prod.snd c.offered).map Prod.fst).symm

/-- What was let in keeps the order in which it was sent. -/
theorem sublist_offered (c : Channel capacity α) :
    (c.taken ++ c.queue).Sublist (c.offered.map Prod.fst) := by
  rw [c.fifo]
  exact List.filter_sublist.map Prod.fst

theorem mem_offered_of_mem_taken (h : a ∈ c.taken) : a ∈ c.offered.map Prod.fst :=
  c.sublist_offered.subset (List.mem_append_left _ h)

end Channel
