import Mathlib.Data.List.Nodup
import Caio.Lib.Journal
import Caio.Lib.Table
import Caio.PythonAio.Claims

namespace Caio.PythonAio

open Counting

/-- What a job has done so far, where the function of `os` has come to `returned`. -/
def JobPc.effects (returned : Except PyErr Operation.Returned) : JobPc → List Effect
  | .queued => []
  | .ran _ => [.run returned]
  | .released _ => [.run returned, .releaseSlot]
  | .recorded r => [.run returned, .releaseSlot, .record r]
  | .done r callback => [.run returned, .releaseSlot, .record r,
      .invokeCallback callback (World.callbackValue r)]

/-- What the handler of a job has returned or raised. -/
def JobPc.handled? : JobPc → Option (Except PyErr Value)
  | .queued => none
  | .ran r | .released r | .recorded r | .done r _ => some r

/-- The result that a job has recorded on its Operation. -/
def JobPc.result? : JobPc → Option (Except PyErr Value)
  | .recorded r | .done r _ => some r
  | _ => none

/-- The callback that a job has called, or calls if it is not replaced. -/
def JobPc.callback (op : Operation) : JobPc → Option Callback
  | .done _ callback => callback
  | _ => op.callback

def completion (callback : Option Callback) : Except PyErr Operation.Returned → List Effect
  | .ok x => [.run (.ok x), .releaseSlot, .record (.ok x.result), .invokeCallback callback x.result]
  | .error exc => [.run (.error exc), .releaseSlot, .record (.error exc),
      .invokeCallback callback .none]

/-- The Operation shows what the function of `os` has come to. -/
def Operation.Shows (op : Operation) : Except PyErr Operation.Returned → Prop
  | .ok x => op.written = x.result ∧ ∀ content, x = .data content → op.buffer = content
  | .error exc => op.exception = some exc ∧ op.written = .int 0

/-- The fields that `Shows` reads. -/
structure Operation.SameResult (op op' : Operation) : Prop where
  written : op'.written = op.written
  buffer : op'.buffer = op.buffer
  exception : op'.exception = op.exception

theorem Operation.SameResult.refl (op : Operation) : op.SameResult op := ⟨rfl, rfl, rfl⟩

/-- What is known of a job, its effects `es` and its Operation `op`. -/
structure Job.Tells (b : Job) (returned : Except PyErr Operation.Returned) (es : List Effect)
    (op : Operation) : Prop where
  effects : es = b.pc.effects returned
  handled : ∀ r, b.pc.handled? = some r → r = returned.map Operation.Returned.result
  content : ∀ r, b.pc.handled? = some r → ∀ content, returned = .ok (.data content) →
    op.buffer = content
  shows : ∀ r, b.pc.result? = some r → op.Shows returned

section

variable {b : Job} {returned : Except PyErr Operation.Returned} {es : List Effect}
  {op : Operation} {result : Except PyErr Value}

theorem Job.Tells.sameResult {op' : Operation} (h : b.Tells returned es op)
    (hop : op.SameResult op') : b.Tells returned es op' := by
  refine ⟨h.effects, h.handled, fun r hr content hdata => ?_, fun r hr => ?_⟩
  · exact hop.buffer.trans (h.content r hr content hdata)
  · have hshows := h.shows r hr
    cases returned with
    | ok x => exact ⟨hop.written.trans hshows.1, fun content hx =>
        hop.buffer.trans (hshows.2 content hx)⟩
    | error exc => exact ⟨hop.exception.trans hshows.1, hop.written.trans hshows.2⟩

theorem Job.Tells.run (h : b.Tells returned es op) (hpc : b.pc = .queued)
    (returned' : Except PyErr Operation.Returned) :
    Job.Tells { b with pc := .ran (op.handle returned').2 } returned' (es ++ [.run returned'])
      (op.handle returned').1 := by
  have hes := h.effects
  rw [hpc] at hes
  subst hes
  refine ⟨rfl, fun r hr => ?_, fun r _ content hdata => ?_, nofun⟩
  · rw [← Option.some.inj hr]
    exact Operation.handle_result op returned'
  · subst hdata
    rfl

theorem Job.Tells.releaseSlot (h : b.Tells returned es op)
    (hpc : b.pc = .ran result) :
    Job.Tells { b with pc := .released result } returned (es ++ [.releaseSlot]) op := by
  obtain ⟨heffects, hhandled, hcontent, -⟩ := h
  rw [hpc] at heffects hhandled hcontent
  subst heffects
  exact ⟨rfl, hhandled, hcontent, nofun⟩

theorem Job.Tells.record (h : b.Tells returned es op)
    (hpc : b.pc = .released result) :
    Job.Tells { b with pc := .recorded result } returned (es ++ [.record result])
      (op.record result) := by
  obtain ⟨heffects, hhandled, hcontent, -⟩ := h
  rw [hpc] at heffects hhandled hcontent
  subst heffects
  have hresult := hhandled result rfl
  have hbuffer : (op.record result).buffer = op.buffer := by
    cases result <;> rfl
  refine ⟨rfl, hhandled, fun r hr content hdata => ?_, fun r hr => ?_⟩
  · exact hbuffer.trans (hcontent r hr content hdata)
  · cases returned with
    | ok x =>
      rw [hresult]
      exact ⟨rfl, fun content hx => hcontent result rfl content (congrArg Except.ok hx)⟩
    | error exc =>
      rw [hresult]
      exact ⟨rfl, rfl⟩

theorem Job.Tells.invokeCallback (h : b.Tells returned es op)
    (hpc : b.pc = .recorded result) (callback : Option Callback) :
    Job.Tells { b with pc := .done result callback } returned
      (es ++ [.invokeCallback callback (World.callbackValue result)]) op := by
  obtain ⟨heffects, hhandled, hcontent, hshows⟩ := h
  rw [hpc] at heffects hhandled hcontent hshows
  subst heffects
  exact ⟨rfl, hhandled, hcontent, hshows⟩

theorem Job.Tells.done {callback : Option Callback} (h : b.Tells returned es op)
    (hpc : b.pc = .done result callback) : es = completion callback returned := by
  have heffects := h.effects
  have hhandled := h.handled result (by rw [hpc]; rfl)
  rw [hpc, hhandled] at heffects
  rw [heffects]
  cases returned with
  | ok x => rfl
  | error exc => rfl

end

namespace World

variable {s t : World} {i j : ℕ} {c : Call} {b : Job}

/-- The Operations claimed through a Context whose claims are neither completed nor rolled back. -/
def openClaims (s : World) (k : CtxId) : List OpId :=
  (s.calls.filter (·.reserves k)).filterMap Call.held ++
    (s.jobs.filter (·.occupies k)).map Job.op

theorem openClaims_length (s : World) (k : CtxId) :
    (s.openClaims k).length = s.ledger.reserved k + s.ledger.running k := by
  have hcalls : ((s.calls.filter (·.reserves k)).filterMap Call.held).length =
      s.calls.countP (·.reserves k) := by
    rw [List.countP_eq_length_filter, List.length_filterMap_eq_countP]
    apply List.countP_eq_length.mpr
    intro c hc
    have hreserves := (List.mem_filter.mp hc).2
    exact (Bool.and_eq_true_iff.mp hreserves).1
  rw [openClaims, List.length_append, hcalls, List.length_map, ← List.countP_eq_length_filter]
  rfl

theorem openClaims_nodup (h : s.ledger.Balanced) (k : CtxId) : (s.openClaims k).Nodup := by
  rw [List.nodup_iff_count_le_one]
  intro p
  have hheld : ((s.calls.filter (·.reserves k)).filterMap Call.held).count p ≤
      s.ledger.held p := by
    rw [List.count_filterMap, List.countP_filter]
    apply List.countP_mono_left
    intro c _ hc
    exact decide_eq_true (beq_iff_eq.mp (Bool.and_eq_true_iff.mp hc).1)
  have hjobs : ((s.jobs.filter (·.occupies k)).map Job.op).count p ≤ s.ledger.scheduled p := by
    rw [List.count, List.countP_map, List.countP_filter]
    apply List.countP_mono_left
    intro b _ hb
    exact decide_eq_true (beq_iff_eq.mp (Bool.and_eq_true_iff.mp hb).1).symm
  have howner := h.owner p
  have hle : (s.ledger.claimed p).toNat ≤ 1 := Bool.toNat_le _
  rw [openClaims, List.count_append]
  omega

/-- The log tells of every job what its state tells. -/
structure Logged (s : World) : Prop where
  born : ∀ e ∈ s.log, e.1 < s.jobs.length
  tells : ∀ (j : ℕ) (b : Job), s.jobs[j]? = some b →
    ∃ returned, b.Tells returned (Journal.entries s.log j) (s.ops b.op)

theorem Init.logged (h : Init s) : Logged s := by
  refine ⟨fun e he => ?_, fun j b hb => ?_⟩
  · rw [h.log] at he
    cases he
  · rw [h.jobs, List.getElem?_nil] at hb
    cases hb

theorem Logged.frame (h : Logged s) (hjobs : t.jobs = s.jobs) (hlog : t.log = s.log)
    (hops : ∀ p, (s.ops p).SameResult (t.ops p)) : Logged t := by
  refine ⟨?_, fun j b hb => ?_⟩
  · rw [hjobs, hlog]
    exact h.born
  · rw [hjobs] at hb
    obtain ⟨returned, htells⟩ := h.tells j b hb
    rw [hlog]
    exact ⟨returned, htells.sameResult (hops b.op)⟩

theorem ne_op (h : s.ledger.Balanced) {k : ℕ} {d : Job} (hb : s.jobs[j]? = some b)
    (hd : s.jobs[k]? = some d) (hkj : k ≠ j) : d.op ≠ b.op := by
  intro heq
  have hle : s.jobs.countP (·.isOn b.op) ≤ 1 := by
    have howner := h.owner b.op
    have hle : (s.ledger.claimed b.op).toNat ≤ 1 := Bool.toNat_le _
    show s.ledger.scheduled b.op ≤ 1
    omega
  exact hkj (eq_of_countP_le_one hle hd hb (decide_eq_true heq.symm) (decide_eq_true rfl))

theorem modifyOp_ne (s : World) {p q : OpId} (f : Operation → Operation) (hne : q ≠ p) :
    (s.modifyOp p f).ops q = s.ops q := Function.update_of_ne hne ..

theorem modifyOp_self (s : World) (p : OpId) (f : Operation → Operation) :
    (s.modifyOp p f).ops p = f (s.ops p) := Function.update_self ..

theorem modifyOp_sameResult (s : World) (p : OpId) {f : Operation → Operation}
    (hf : ∀ op : Operation, op.SameResult (f op)) (q : OpId) :
    (s.ops q).SameResult ((s.modifyOp p f).ops q) := by
  by_cases hq : q = p
  · subst hq
    rw [modifyOp_self]
    exact hf _
  · rw [modifyOp_ne s f hq]
    exact .refl _

/-- A step of job `j`: its effect goes to the log, and only its Operation changes. -/
theorem Logged.setJob (hledger : s.ledger.Balanced) (h : Logged s) (hb : s.jobs[j]? = some b)
    (pc : JobPc) (e : Effect) (hjobs : t.jobs = s.jobs.set j { b with pc })
    (hlog : t.log = Journal.write s.log j [e])
    (hself : ∀ returned es, b.Tells returned es (s.ops b.op) →
      ∃ returned', Job.Tells { b with pc } returned' (es ++ [e]) (t.ops b.op))
    (hothers : ∀ p, p ≠ b.op → t.ops p = s.ops p) : Logged t := by
  refine ⟨fun e' he => ?_, fun k d hd => ?_⟩
  · rw [hjobs, List.length_set]
    rw [hlog] at he
    obtain he | he := List.mem_append.mp he
    · exact h.born e' he
    · obtain ⟨x, -, rfl⟩ := List.mem_map.mp he
      exact Table.lt_length hb
  · rw [hjobs] at hd
    rw [hlog]
    obtain ⟨rfl, rfl⟩ | ⟨hkj, hd⟩ := Table.getElem?_set_cases hd
    · obtain ⟨returned, htells⟩ := h.tells k b hb
      rw [Journal.entries_write_self]
      exact hself returned _ htells
    · obtain ⟨returned, htells⟩ := h.tells k d hd
      rw [Journal.entries_write_ne _ _ _ hkj, hothers d.op (ne_op hledger hb hd hkj)]
      exact ⟨returned, htells⟩

theorem Logged.step (hb : s.ledger.Balanced) (h : Logged s) {a : Action}
    (hs : s.step a = some t) : Logged t := by
  have hkeep : ∀ p, (s.ops p).SameResult (s.ops p) := fun p => .refl _
  cases a with
  | submit k args =>
    simp only [World.step] at hs
    split at hs
    all_goals
      cases hs
      exact h.frame rfl rfl hkeep
  | execute i =>
    obtain ⟨c, hc, hs⟩ := onCall_eq_some hs
    split at hs
    case h_1 =>
      cases hs
      exact h.frame rfl rfl hkeep
    case h_2 p ps hpc hrest =>
      cases hs
      unfold execute
      split_ifs
      · exact h.frame rfl rfl hkeep
      · exact h.frame rfl rfl hkeep
      · exact h.frame rfl rfl hkeep
      · exact h.frame rfl rfl (modifyOp_sameResult s p
          (f := fun op => { op with inProgress := true }) fun _ => ⟨rfl, rfl, rfl⟩)
    case h_3 => cases hs
  | applyAsync i exc =>
    obtain ⟨c, hc, hs⟩ := onCall_eq_some hs
    split at hs
    case h_1 p hpc hs =>
      obtain ⟨-, hs⟩ := Option.ite_none_right_eq_some.mp hs
      cases hs
      refine ⟨fun e he => ?_, fun j b hj => ?_⟩
      · rw [List.length_append]
        exact Nat.lt_add_right _ (h.born e he)
      · obtain hj | ⟨rfl, rfl⟩ := Table.getElem?_append_one_cases hj
        · exact h.tells j b hj
        · refine ⟨.ok .nothing, Journal.entries_eq_nil _ _ h.born, ?_, ?_, ?_⟩
          all_goals exact fun r hr => absurd hr (Option.some_ne_none r).symm
    case h_2 p exc hpc hs =>
      cases hs
      exact h.frame rfl rfl hkeep
    case h_3 => cases hs
  | rollbackClaim i =>
    obtain ⟨c, hc, hs⟩ := onCall_eq_some hs
    split at hs
    case h_1 p exc hpc =>
      cases hs
      exact h.frame rfl rfl (modifyOp_sameResult s p
        (f := fun op => { op with inProgress := false }) fun _ => ⟨rfl, rfl, rfl⟩)
    case h_2 => cases hs
  | run j returned =>
    obtain ⟨b, hj, hs⟩ := onJob_eq_some hs
    split at hs
    case h_1 hpc =>
      cases hs
      refine h.setJob hb hj (.ran _) (.run returned) rfl rfl (fun _ es htells => ?_)
        fun p hp => Function.update_of_ne hp ..
      refine ⟨returned, ?_⟩
      show Job.Tells _ _ _ ((s.modifyOp b.op fun _ => ((s.ops b.op).handle returned).1).ops b.op)
      rw [modifyOp_self]
      exact htells.run hpc returned
    case h_2 => cases hs
  | releaseSlot j =>
    obtain ⟨b, hj, hs⟩ := onJob_eq_some hs
    split at hs
    case h_1 result hpc =>
      cases hs
      exact h.setJob hb hj (.released result) .releaseSlot rfl rfl
        (fun returned _ htells => ⟨returned, htells.releaseSlot hpc⟩) fun _ _ => rfl
    case h_2 => cases hs
  | record j =>
    obtain ⟨b, hj, hs⟩ := onJob_eq_some hs
    split at hs
    case h_1 result hpc =>
      cases hs
      refine h.setJob hb hj (.recorded result) (.record result) rfl rfl
        (fun returned es htells => ⟨returned, ?_⟩) fun p hp => Function.update_of_ne hp ..
      show Job.Tells _ _ _ ((s.modifyOp b.op (·.record result)).ops b.op)
      rw [modifyOp_self]
      exact htells.record hpc
    case h_2 => cases hs
  | invokeCallback j =>
    obtain ⟨b, hj, hs⟩ := onJob_eq_some hs
    split at hs
    case h_1 result hpc =>
      cases hs
      exact h.setJob hb hj (.done result _) (.invokeCallback _ _) rfl rfl
        (fun returned _ htells => ⟨returned, htells.invokeCallback hpc _⟩) fun _ _ => rfl
    case h_2 => cases hs
  | setCallback p callback =>
    cases hs
    exact h.frame rfl rfl (modifyOp_sameResult s p fun _ => ⟨rfl, rfl, rfl⟩)
  | close k =>
    cases hs
    unfold close
    split_ifs
    · exact h
    · exact h.frame rfl rfl hkeep

theorem logged (h : system.Reachable s) : Logged s :=
  h.invariant_with (fun _ => balanced) (fun _ => Init.logged) fun _ _ _ hb hl _ hs => hl.step hb hs

theorem onJob_set {f : Job → Option World} (hj : s.jobs[j]? = some b) :
    s.onJob j f = f b := by
  rw [onJob, hj]
  rfl

theorem setJob_getElem? (hj : s.jobs[j]? = some b) (d : Job) :
    (s.setJob j d).jobs[j]? = some d :=
  Table.getElem?_set_self hj d

/-- Job `j` can be finished by its own steps, and calls `callback`. -/
def Finishes (s : World) (j : ℕ) (p : OpId) (callback : Option Callback) : Prop :=
  ∃ as t b r, system.exec s as = some t ∧ t.jobs[j]? = some b ∧ b.op = p ∧ b.pc = .done r callback

variable {callback : Option Callback}

theorem Finishes.step {a : Action} {p : OpId} (hs : s.step a = some t)
    (h : t.Finishes j p callback) : s.Finishes j p callback := by
  obtain ⟨as, u, b, r, hexec, hj, hop, hpc⟩ := h
  exact ⟨a :: as, u, b, r, (TransitionSystem.exec_cons hs).trans hexec, hj, hop, hpc⟩

theorem finishes_of_recorded (hj : s.jobs[j]? = some b) {r : Except PyErr Value}
    (hpc : b.pc = .recorded r) : s.Finishes j b.op (s.ops b.op).callback := by
  obtain ⟨t, hs, ht⟩ : ∃ t, s.step (.invokeCallback j) = some t ∧
      t.jobs[j]? = some { b with pc := .done r (s.ops b.op).callback } := by
    simp only [step, onJob_set hj, hpc]
    exact ⟨_, rfl, setJob_getElem? hj _⟩
  exact Finishes.step hs ⟨[], t, _, r, rfl, ht, rfl, rfl⟩

theorem finishes_of_released (hj : s.jobs[j]? = some b) {r : Except PyErr Value}
    (hpc : b.pc = .released r) : s.Finishes j b.op (s.ops b.op).callback := by
  obtain ⟨t, hs, ht, hcallback⟩ : ∃ t, s.step (.record j) = some t ∧
      t.jobs[j]? = some { b with pc := .recorded r } ∧
      (t.ops b.op).callback = (s.ops b.op).callback := by
    simp only [step, onJob_set hj, hpc]
    refine ⟨_, rfl, setJob_getElem? (s := s) hj _, ?_⟩
    show ((s.modifyOp b.op (·.record r)).ops b.op).callback = _
    rw [modifyOp_self]
    cases r <;> rfl
  rw [← hcallback]
  exact Finishes.step hs (finishes_of_recorded (b := { b with pc := .recorded r }) ht rfl)

theorem finishes_of_ran (hj : s.jobs[j]? = some b) {r : Except PyErr Value}
    (hpc : b.pc = .ran r) : s.Finishes j b.op (s.ops b.op).callback := by
  obtain ⟨t, hs, ht, hops⟩ : ∃ t, s.step (.releaseSlot j) = some t ∧
      t.jobs[j]? = some { b with pc := .released r } ∧ t.ops = s.ops := by
    simp only [step, onJob_set hj, hpc]
    exact ⟨_, rfl, setJob_getElem? (s := s) hj _, rfl⟩
  rw [← hops]
  exact Finishes.step hs (finishes_of_released (b := { b with pc := .released r }) ht rfl)

theorem finishes_of_queued (hj : s.jobs[j]? = some b) (hpc : b.pc = .queued)
    (returned : Except PyErr Operation.Returned) :
    s.Finishes j b.op (s.ops b.op).callback := by
  obtain ⟨t, hs, ht, hcallback⟩ : ∃ t, s.step (.run j returned) = some t ∧
      t.jobs[j]? = some { b with pc := .ran ((s.ops b.op).handle returned).2 } ∧
      (t.ops b.op).callback = (s.ops b.op).callback := by
    simp only [step, onJob_set hj, hpc]
    refine ⟨_, rfl, setJob_getElem? (s := s) hj _, ?_⟩
    show ((s.modifyOp b.op fun _ => ((s.ops b.op).handle returned).1).ops b.op).callback = _
    rw [modifyOp_self]
    exact Operation.handle_callback ..
  rw [← hcallback]
  exact Finishes.step hs (finishes_of_ran (b := { b with pc := .ran _ }) ht rfl)

theorem finishes (hj : s.jobs[j]? = some b) :
    s.Finishes j b.op (b.pc.callback (s.ops b.op)) := by
  cases hpc : b.pc with
  | queued => exact finishes_of_queued hj hpc (.ok .nothing)
  | ran r => exact finishes_of_ran hj hpc
  | released r => exact finishes_of_released hj hpc
  | recorded r => exact finishes_of_recorded hj hpc
  | done r callback => exact ⟨[], s, b, r, rfl, hj, rfl, hpc⟩

theorem step_invokeCallback (hj : s.jobs[j]? = some b) (hs : s.step (.invokeCallback j) = some t) :
    ∃ value, Journal.entries t.log j =
      Journal.entries s.log j ++ [.invokeCallback (s.ops b.op).callback value] := by
  obtain ⟨d, hd, hs⟩ := onJob_eq_some hs
  cases hd.symm.trans hj
  split at hs
  case h_1 result _ =>
    cases hs
    exact ⟨_, Journal.entries_write_self s.log j [.invokeCallback _ (callbackValue result)]⟩
  case h_2 => cases hs

/-- In every run `_in_progress` stays between 0 and `max_requests` and counts the open claims of the
Context, which are on different Operations. Every job has had the effects that its state tells, each
once and in this order, with the result or the exception of its handler; the callback is the one
that its Operation has when it is called; and the job can be finished from every state, after
`close` too. -/
theorem slots_accounted {s : World} (h : system.Reachable s) :
    (∀ k, 0 ≤ (s.ctxs k).inProgress ∧ (s.ctxs k).inProgress ≤ (s.ctxs k).maxRequests ∧
      (s.ctxs k).inProgress = (s.openClaims k).length ∧ (s.openClaims k).Nodup) ∧
    ∀ (j : ℕ) (b : Job), s.jobs[j]? = some b →
      (∃ returned, b.Tells returned (Journal.entries s.log j) (s.ops b.op)) ∧
      (∀ t, s.step (.invokeCallback j) = some t → ∃ value, Journal.entries t.log j =
        Journal.entries s.log j ++ [.invokeCallback (s.ops b.op).callback value]) ∧
      ∃ as t d returned, system.exec s as = some t ∧ t.jobs[j]? = some d ∧ d.op = b.op ∧
        Journal.entries t.log j = completion (b.pc.callback (s.ops b.op)) returned ∧
        (t.ops d.op).Shows returned := by
  have hb := balanced h
  have hl := logged h
  refine ⟨fun k => ?_, fun j b hj => ⟨hl.tells j b hj, fun t => step_invokeCallback hj, ?_⟩⟩
  · have hslots : (s.ctxs k).inProgress = (s.openClaims k).length := by
      rw [openClaims_length, Int.natCast_add]
      exact hb.slots k
    refine ⟨?_, hb.room k, hslots, openClaims_nodup hb k⟩
    rw [hslots]
    exact Int.natCast_nonneg _
  · obtain ⟨as, t, d, r, hexec, hd, hop, hpc⟩ := finishes hj
    obtain ⟨returned, htells⟩ := (logged (.exec h hexec)).tells j d hd
    exact ⟨as, t, d, returned, hexec, hd, hop, htells.done hpc, htells.shows r (by rw [hpc]; rfl)⟩

/-- `close` comes while two jobs are queued; one of them then reads, and a further Operation is
refused. -/
def closedRun : List Action :=
  [.setCallback 0 7, .submit 0 [.operation 0, .operation 1], .execute 0, .applyAsync 0 none,
    .execute 0, .applyAsync 0 none, .execute 0, .close 0, .submit 0 [.operation 2], .execute 1,
    .run 0 (.ok (.data [104, 105])), .releaseSlot 0, .record 0, .invokeCallback 0]

theorem slots_accounted_closed :
    ∃ s, system.exec (.new (fun _ => .read 4 3 0) 2) closedRun = some s ∧
      (s.ctxs 0).inProgress = 1 ∧ s.jobs.length = 2 ∧ (s.openClaims 0).length = 1 ∧
      Journal.entries s.log 0 = [.run (.ok (.data [104, 105])), .releaseSlot,
        .record (.ok (.int 2)), .invokeCallback (some 7) (.int 2)] ∧
      (s.ops 0).written = .int 2 ∧ (s.ops 0).buffer = [104, 105] := by
  have hrun : ((system.exec (.new (fun _ => .read 4 3 0) 2) closedRun).any fun s =>
      decide ((s.ctxs 0).inProgress = 1 ∧ s.jobs.length = 2 ∧
        s.jobs[0]? = some ⟨0, 0, .done (.ok (.int 2)) (some 7)⟩ ∧
        Journal.entries s.log 0 = [.run (.ok (.data [104, 105])), .releaseSlot,
          .record (.ok (.int 2)), .invokeCallback (some 7) (.int 2)])) = true := by decide +kernel
  obtain ⟨s, hexec, hs⟩ := (Option.any_eq_true _ _).mp hrun
  obtain ⟨hslots, hcount, hjob, hlog⟩ := of_decide_eq_true hs
  have hinit : Init (.new (fun _ => .read 4 3 0) 2) := new_init (fun _ => rfl) (by decide)
  obtain ⟨hctxs, hjobs⟩ := slots_accounted (.exec (.init hinit) hexec)
  obtain ⟨-, -, hopen, -⟩ := hctxs 0
  obtain ⟨⟨returned, htells⟩, -⟩ := hjobs 0 _ hjob
  have heffects := htells.effects
  rw [hlog] at heffects
  obtain ⟨hreturned, -⟩ := List.cons.inj heffects
  obtain rfl := Effect.run.inj hreturned
  obtain ⟨hwritten, hbuffer⟩ := htells.shows _ rfl
  rw [hslots] at hopen
  exact ⟨s, hexec, hslots, hcount, (Int.natCast_inj.mp hopen).symm, hlog, hwritten,
    hbuffer [104, 105] rfl⟩

end World

end Caio.PythonAio
