import Mathlib.Logic.Function.Basic
import Caio.Lib.Journal
import Caio.Lib.Transition

inductive Executor.Closing
  /-- Tasks that nobody has taken are dropped. -/
  | drop
  /-- The queue is worked off. -/
  | drain
deriving DecidableEq, Repr

@[ext]
structure Executor (α : Type*) where
  capacity : ℕ
  queue : List α
  running : ℕ → Option α
  closing : Option Executor.Closing
  /-- The workers that take no task any more. -/
  gone : ℕ → Bool
  added : List α
  taken : List (ℕ × α)
  finished : List (ℕ × α)

namespace Executor

variable {α : Type*}

inductive Action (α : Type*)
  | submit (task : α)
  | take (w : ℕ)
  | finish (w : ℕ)
  | close (c : Closing)
  | leave (w : ℕ)

def Action.isWorker : Action α → Bool
  | .take _ | .finish _ | .leave _ => true
  | .submit _ | .close _ => false

/-- Whether worker `w` is between two tasks. -/
def idle (e : Executor α) (w : ℕ) : Bool := (e.running w).isNone && !e.gone w

def step (e : Executor α) : Action α → Option (Executor α)
  | .submit task =>
    if e.closing = none ∧ e.queue.length < e.capacity then
      some { e with queue := e.queue ++ [task], added := e.added ++ [task] }
    else none
  | .take w =>
    match e.queue with
    | [] => none
    | task :: queue =>
      if e.idle w ∧ e.closing ≠ some .drop then
        some { e with
          queue, running := Function.update e.running w (some task)
          taken := Journal.write e.taken w [task] }
      else none
  | .finish w => (e.running w).map fun task =>
    { e with
      running := Function.update e.running w none
      finished := Journal.write e.finished w [task] }
  | .close c => if e.closing = none then some { e with closing := some c } else none
  | .leave w =>
    if e.idle w ∧ (e.closing = some .drop ∨ e.closing = some .drain ∧ e.queue = []) then
      some { e with gone := Function.update e.gone w true }
    else none

def empty (capacity : ℕ) : Executor α where
  capacity := capacity
  queue := []
  running _ := none
  closing := none
  gone _ := false
  added := []
  taken := []
  finished := []

def system : TransitionSystem (Executor α) (Action α) where
  init e := ∃ capacity, e = empty capacity
  step := step

variable {e f : Executor α} {w : ℕ} {task : α}

theorem step_submit (hopen : e.closing = none) (hroom : e.queue.length < e.capacity) :
    e.step (.submit task) =
      some { e with queue := e.queue ++ [task], added := e.added ++ [task] } :=
  if_pos ⟨hopen, hroom⟩

theorem step_take {queue : List α} (hqueue : e.queue = task :: queue) (hidle : e.idle w = true)
    (h : e.closing ≠ some .drop) :
    e.step (.take w) = some { e with
      queue, running := Function.update e.running w (some task)
      taken := Journal.write e.taken w [task] } := by
  simp only [step, hqueue]
  exact if_pos ⟨hidle, h⟩

theorem step_finish (h : e.running w = some task) :
    e.step (.finish w) = some { e with
      running := Function.update e.running w none
      finished := Journal.write e.finished w [task] } := by
  simp only [step, h, Option.map_some]

theorem step_close {c : Closing} (h : e.closing = none) :
    e.step (.close c) = some { e with closing := some c } := if_pos h

theorem step_leave (hidle : e.idle w = true)
    (h : e.closing = some .drop ∨ e.closing = some .drain ∧ e.queue = []) :
    e.step (.leave w) = some { e with gone := Function.update e.gone w true } :=
  if_pos ⟨hidle, h⟩

theorem exec_submits {tasks : List α} (hopen : e.closing = none)
    (hroom : e.queue.length + tasks.length ≤ e.capacity) :
    system.exec e (tasks.map .submit) =
      some { e with queue := e.queue ++ tasks, added := e.added ++ tasks } := by
  induction tasks generalizing e with
  | nil =>
    rw [List.append_nil, List.append_nil]
    rfl
  | cons task tasks ih =>
    rw [List.length_cons] at hroom
    have hfirst : e.queue.length < e.capacity := by omega
    have hstep : system.step e (.submit task) = _ := step_submit hopen hfirst
    rw [List.map_cons, TransitionSystem.exec_cons hstep]
    refine (ih (e := { e with queue := e.queue ++ [task], added := e.added ++ [task] })
      hopen ?_).trans ?_
    · show _ ≤ e.capacity
      rw [List.length_append, List.length_singleton]
      omega
    · simp only [List.append_assoc, List.singleton_append]

structure Inv (e : Executor α) : Prop where
  room : e.queue.length ≤ e.capacity
  /-- Tasks are taken in the order in which they have come, each one once. -/
  order : e.taken.map Prod.snd ++ e.queue = e.added
  /-- A worker brings a task to an end before it takes the next one. -/
  runs : ∀ w, Journal.entries e.taken w = Journal.entries e.finished w ++ (e.running w).toList
  gone : ∀ w, e.gone w = true →
    e.running w = none ∧ (e.closing = some .drop ∨ e.closing = some .drain ∧ e.queue = [])

theorem idle_eq_true : e.idle w = true ↔ e.running w = none ∧ e.gone w = false := by
  simp only [idle, Bool.and_eq_true, Option.isNone_iff_eq_none, Bool.not_eq_true']

theorem Inv.step (h : e.Inv) {a : Action α} (hs : e.step a = some f) : f.Inv := by
  cases a with
  | submit task =>
    obtain ⟨⟨hopen, hroom⟩, hs⟩ := Option.ite_none_right_eq_some.mp hs
    cases hs
    refine ⟨?_, ?_, h.runs, fun w hw => ?_⟩
    · rw [List.length_append, List.length_singleton]
      exact hroom
    · rw [← List.append_assoc, h.order]
    · rcases (h.gone w hw).2 with hclosing | ⟨hclosing, -⟩ <;> rw [hopen] at hclosing <;>
        cases hclosing
  | take w =>
    simp only [Executor.step] at hs
    split at hs
    · cases hs
    · rename_i task queue hqueue
      obtain ⟨⟨hidle, hdrop⟩, hs⟩ := Option.ite_none_right_eq_some.mp hs
      obtain ⟨hrunning, hhere⟩ := idle_eq_true.mp hidle
      cases hs
      refine ⟨?_, ?_, fun v => ?_, fun v hv => ?_⟩
      · have hroom := h.room
        rw [hqueue, List.length_cons] at hroom
        exact Nat.le_of_succ_le hroom
      · rw [← h.order, hqueue, Journal.write, List.map_append, List.append_assoc]
        rfl
      · have hv := h.runs v
        dsimp only
        by_cases hvw : v = w
        · subst hvw
          rw [Journal.entries_write_self, Function.update_self, hv, hrunning]
          exact congrArg (· ++ [task]) (List.append_nil _)
        · rw [Journal.entries_write_ne _ _ _ hvw, Function.update_of_ne hvw]
          exact hv
      · rcases (h.gone v hv).2 with hclosing | ⟨-, hempty⟩
        · exact absurd hclosing hdrop
        · rw [hqueue] at hempty
          cases hempty
  | finish w =>
    obtain ⟨task, hrunning, hs⟩ := Option.map_eq_some_iff.mp hs
    cases hs
    refine ⟨h.room, h.order, fun v => ?_, fun v hv => ⟨?_, (h.gone v hv).2⟩⟩
    · have hv := h.runs v
      dsimp only
      by_cases hvw : v = w
      · subst hvw
        rw [Journal.entries_write_self, Function.update_self, hv, hrunning]
        exact (List.append_nil _).symm
      · rw [Journal.entries_write_ne _ _ _ hvw, Function.update_of_ne hvw]
        exact hv
    · by_cases hvw : v = w
      · rw [hvw]
        exact Function.update_self ..
      · exact (Function.update_of_ne hvw ..).trans (h.gone v hv).1
  | close c =>
    obtain ⟨hopen, hs⟩ := Option.ite_none_right_eq_some.mp hs
    cases hs
    refine ⟨h.room, h.order, h.runs, fun w hw => ?_⟩
    rcases (h.gone w hw).2 with hclosing | ⟨hclosing, -⟩ <;> rw [hopen] at hclosing <;>
      cases hclosing
  | leave w =>
    obtain ⟨⟨hidle, hclosed⟩, hs⟩ := Option.ite_none_right_eq_some.mp hs
    obtain ⟨hrunning, -⟩ := idle_eq_true.mp hidle
    cases hs
    refine ⟨h.room, h.order, h.runs, fun v hv => ?_⟩
    by_cases hvw : v = w
    · exact ⟨hvw ▸ hrunning, hclosed⟩
    · exact h.gone v ((Function.update_of_ne hvw ..).symm.trans hv)

theorem inv (h : system.Reachable e) : e.Inv := by
  refine h.invariant ?_ fun _ _ _ h _ hs => h.step hs
  rintro e ⟨capacity, rfl⟩
  exact ⟨Nat.zero_le _, rfl, fun _ => rfl, fun w hw => absurd hw Bool.false_ne_true⟩

/-- Once nobody runs a task, every task that was taken has come to its end. -/
theorem Inv.finished_perm (h : e.Inv) (hquiet : ∀ w, e.running w = none) :
    e.finished.Perm e.taken := by
  apply Journal.perm_of_entries
  intro w
  rw [h.runs w, hquiet w]
  exact (List.append_nil _).symm

end Executor
