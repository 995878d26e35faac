import Caio.Lib.Table
import Caio.PythonAio.Claims

namespace Caio.PythonAio.World

variable {s t : World} {p : OpId}

theorem held_pos_iff (s : World) (p : OpId) :
    0 < s.ledger.held p ↔ ∃ c ∈ s.calls, c.held = some p :=
  List.countP_pos_iff.trans (exists_congr fun _ => and_congr_right fun _ => decide_eq_true_iff)

theorem scheduled_pos_iff (s : World) (p : OpId) :
    0 < s.ledger.scheduled p ↔ ∃ b ∈ s.jobs, b.op = p :=
  List.countP_pos_iff.trans (exists_congr fun _ => and_congr_right fun _ =>
    decide_eq_true_iff.trans eq_comm)

/-- `in_progress` is set exactly while a call has claimed the Operation, or it has a job. -/
theorem inProgress_iff (h : s.ledger.Balanced) (p : OpId) :
    (s.ops p).inProgress = true ↔
      (∃ c ∈ s.calls, c.held = some p) ∨ ∃ b ∈ s.jobs, b.op = p := by
  rw [← held_pos_iff, ← scheduled_pos_iff]
  have howner := h.owner p
  have hclaimed : s.ledger.claimed p = (s.ops p).inProgress := rfl
  rw [hclaimed] at howner
  cases hp : (s.ops p).inProgress with
  | true =>
    rw [hp, Bool.toNat_true] at howner
    exact ⟨fun _ => by omega, fun _ => rfl⟩
  | false =>
    rw [hp, Bool.toNat_false] at howner
    exact ⟨nofun, fun hpos => by omega⟩

/-- Only a claim that has no job is ever taken back, and then nothing is left of it. -/
theorem inProgress_reset (h : s.ledger.Balanced) {a : Action} (hs : s.step a = some t)
    (hset : (s.ops p).inProgress = true) (hreset : (t.ops p).inProgress = false) :
    (∃ c ∈ s.calls, c.held = some p) ∧ (∀ c ∈ t.calls, c.held ≠ some p) ∧
      ∀ b ∈ t.jobs, b.op ≠ p := by
  obtain heq | ⟨e, he⟩ := ledger_step hs
  · have hsame : (t.ops p).inProgress = (s.ops p).inProgress :=
      congrFun (congrArg Ledger.claimed heq) p
    rw [hset, hreset] at hsame
    cases hsame
  · have hnone := (inProgress_iff (h.step he) p).not.mp (by rw [hreset]; decide)
    rw [not_or] at hnone
    refine ⟨?_, fun c hc hp => hnone.1 ⟨c, hc, hp⟩, fun b hb hp => hnone.2 ⟨b, hb, hp⟩⟩
    have hset : s.ledger.claimed p = true := hset
    have hreset : t.ledger.claimed p = false := hreset
    cases e with
    | claim k q =>
      obtain ⟨-, he⟩ := Option.ite_none_right_eq_some.mp he
      rw [← Option.some.inj he] at hreset
      have hreset : Function.update s.ledger.claimed q true p = false := hreset
      by_cases hq : p = q
      · rw [hq, Function.update_self] at hreset
        cases hreset
      · rw [Function.update_of_ne hq, hset] at hreset
        cases hreset
    | schedule k q | release k =>
      obtain ⟨-, he⟩ := Option.ite_none_right_eq_some.mp he
      rw [← Option.some.inj he] at hreset
      have hreset : s.ledger.claimed p = false := hreset
      rw [hset] at hreset
      cases hreset
    | rollback k q =>
      obtain ⟨⟨hheld, -⟩, he⟩ := Option.ite_none_right_eq_some.mp he
      rw [← Option.some.inj he] at hreset
      have hreset : Function.update s.ledger.claimed q false p = false := hreset
      by_cases hq : p = q
      · exact (held_pos_iff s p).mp (hq ▸ hheld)
      · rw [Function.update_of_ne hq, hset] at hreset
        cases hreset

/-- A call whose next Operation is free claims it, if its Context is open and has room. -/
theorem execute_claims {i : ℕ} {c : Call} {ps : List OpId} (hc : s.calls[i]? = some c)
    (hpc : c.pc = .loop) (hrest : c.rest = p :: ps) (hfree : (s.ops p).inProgress = false)
    (hopen : (s.ctxs c.ctx).state = .open)
    (hroom : (s.ctxs c.ctx).inProgress < (s.ctxs c.ctx).maxRequests) :
    ∃ t, s.step (.execute i) = some t ∧ (t.ops p).inProgress = true ∧
      t.calls[i]? = some { c with rest := ps, pc := .claimed p } := by
  have hstep : s.step (.execute i) = some (s.execute i c p ps) := by
    simp only [step, onCall, hc, Option.bind_some, hpc, hrest]
  have hexec : s.execute i c p ps =
      (s.claim c.ctx p).setCall i { c with rest := ps, pc := .claimed p } := by
    rw [execute, if_neg (by rw [hfree]; decide), if_neg (fun hcon => hcon hopen),
      if_neg (Int.not_le.mpr hroom)]
  rw [hexec] at hstep
  refine ⟨_, hstep, ?_, Table.getElem?_set_self hc _⟩
  show (Function.update s.ops p _ p).inProgress = true
  rw [Function.update_self]

/-- Over a whole run an Operation is scheduled at most once and counted by at most one call, and it
is in progress exactly from its claim on, unless that claim is rolled back: then it has no job, and
can be claimed again. -/
theorem runs_at_most_once {s : World} (h : system.Reachable s) (p : OpId) :
    s.jobs.countP (·.isOn p) ≤ 1 ∧
      (s.calls.map fun c => c.counted.count p).sum ≤ 1 ∧
      ((s.ops p).inProgress = true ↔
        (∃ c ∈ s.calls, c.held = some p) ∨ ∃ b ∈ s.jobs, b.op = p) ∧
      (∀ a t, s.step a = some t → (s.ops p).inProgress = true → (t.ops p).inProgress = false →
        (∃ c ∈ s.calls, c.held = some p) ∧ (∀ c ∈ t.calls, c.held ≠ some p) ∧
          ∀ b ∈ t.jobs, b.op ≠ p) ∧
      (∀ i c ps, s.calls[i]? = some c → c.pc = .loop → c.rest = p :: ps →
        (s.ops p).inProgress = false → (s.ctxs c.ctx).state = .open →
        (s.ctxs c.ctx).inProgress < (s.ctxs c.ctx).maxRequests →
        ∃ t, s.step (.execute i) = some t ∧ (t.ops p).inProgress = true ∧
          t.calls[i]? = some { c with rest := ps, pc := .claimed p }) := by
  have hb := balanced h
  have howner : s.jobs.countP (·.isOn p) ≤ 1 := by
    have hle : (s.ledger.claimed p).toNat ≤ 1 := Bool.toNat_le _
    have hsum := hb.owner p
    show s.ledger.scheduled p ≤ 1
    omega
  refine ⟨howner, ?_, inProgress_iff hb p, fun a t hs => inProgress_reset hb hs,
    fun i c ps => execute_claims⟩
  have hcounted : s.ledger.counted p = s.ledger.scheduled p := hb.counted p
  show s.ledger.counted p ≤ 1
  rw [hcounted]
  exact howner

/-- Two Contexts submit one Operation, and the first one cannot schedule it. -/
def rolledBackRun : List Action :=
  [.submit 0 [.operation 0], .submit 1 [.operation 0], .execute 0,
    .applyAsync 0 (some (.valueError "Pool not running")), .rollbackClaim 0, .execute 1,
    .applyAsync 1 none, .run 0 (.ok .nothing), .execute 1]

theorem runs_at_most_once_rolledBack :
    ∃ s, system.exec (.new (fun _ => .fsync 3) 1) rolledBackRun = some s ∧ s.jobs.length = 1 ∧
      s.jobs.countP (·.isOn 0) ≤ 1 ∧ (s.calls.map fun c => c.counted.count 0).sum ≤ 1 := by
  have hrun : ((system.exec (.new (fun _ => .fsync 3) 1) rolledBackRun).any fun s =>
      decide (s.jobs.length = 1)) = true := by decide +kernel
  obtain ⟨s, hexec, hjobs⟩ := (Option.any_eq_true _ _).mp hrun
  have hinit : Init (.new (fun _ => .fsync 3) 1) := new_init (fun _ => rfl) Int.one_pos
  obtain ⟨honce, hcounted, -⟩ := runs_at_most_once (.exec (.init hinit) hexec) 0
  exact ⟨s, hexec, of_decide_eq_true hjobs, honce, hcounted⟩

end Caio.PythonAio.World
