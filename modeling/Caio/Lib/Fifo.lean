import Caio.Lib.Transition

structure Fifo (α : Type*) where
  sent : List α
  queue : List α
  received : List α

inductive FifoAction (α : Type*)
  | send (a : α)
  | receive

namespace Fifo

variable {α : Type*}

def step (cap : ℕ) (f : Fifo α) : FifoAction α → Option (Fifo α)
  | .send a =>
    if f.queue.length < cap then
      some { f with sent := f.sent ++ [a], queue := f.queue ++ [a] }
    else none
  | .receive =>
    match f.queue with
    | [] => none
    | a :: q => some { f with queue := q, received := f.received ++ [a] }

/-- The channel may start with entries already queued. -/
def system (cap : ℕ) : TransitionSystem (Fifo α) (FifoAction α) where
  init f := f.received = [] ∧ f.queue = f.sent ∧ f.queue.length ≤ cap
  step := step cap

variable {cap : ℕ} {f g : Fifo α}

theorem step_send {a : α} (h : f.queue.length < cap) :
    (system cap).step f (.send a) =
      some { f with sent := f.sent ++ [a], queue := f.queue ++ [a] } := if_pos h

theorem step_receive {a : α} {q : List α} (h : f.queue = a :: q) :
    (system cap).step f .receive = some { f with queue := q, received := f.received ++ [a] } := by
  simp only [system, step, h]

theorem received_append_queue (h : (system cap).Reachable f) : f.received ++ f.queue = f.sent := by
  refine h.invariant (I := fun f => f.received ++ f.queue = f.sent) ?_ ?_
  · rintro f ⟨hr, hq, -⟩
    rw [hr, hq, List.nil_append]
  · intro f a g hi _ hs
    cases a with
    | send a =>
      obtain ⟨-, h⟩ := Option.ite_none_right_eq_some.mp hs
      cases h
      rw [← List.append_assoc, hi]
    | receive =>
      cases hq : f.queue with
      | nil => simp [system, step, hq] at hs
      | cons a q =>
        rw [step_receive hq] at hs
        cases hs
        rw [← hi, hq, List.append_assoc, List.singleton_append]

end Fifo
