import Mathlib.Data.List.Nodup
import Mathlib.Data.List.Count
import Mathlib.Tactic.SplitIfs
import Caio.Asyncio.Base
import Caio.Lib.Table

namespace Caio.Asyncio.Base

variable {cfg : Config} {s t : Base} {i j : ℕ} {c d : Call}

theorem setCall_getElem?_self (hc : s.calls[i]? = some c) (d : Call) :
    (s.setCall i d).calls[i]? = some d := Table.getElem?_set_self hc d

theorem setCall_getElem?_ne (s : Base) (d : Call) (hne : j ≠ i) :
    (s.setCall i d).calls[j]? = s.calls[j]? := List.getElem?_set_ne hne.symm

/-- The state of a call's future goes with the stage of its Operation. -/
structure Fine (x : Future) (c : Call) : Prop where
  undelivered : c.stage.undelivered = true → x = .pending ∨ x = .cancelled
  cancelled : x = .cancelled → c.phase = .unwinding ∨ c.phase = .left
  result : x = .result → c.stage = .delivered
  outside : c.phase = .waiting ∨ c.phase = .granted → c.stage = .idle ∧ x = .pending

/-- A call whose entry is in `_pending`. -/
structure Queued (x : Future) (c : Call) : Prop where
  idle : c.stage = .idle
  entered : c.phase ≠ .waiting ∧ c.phase ≠ .granted
  awaiting : x = .pending → c.phase = .awaiting

structure Owned (s : Base) : Prop where
  distinct : ∀ (i j : ℕ) (c d : Call), s.calls[i]? = some c → s.calls[j]? = some d → c.op = d.op →
    i = j
  own : ∀ (i : ℕ) (c : Call), s.calls[i]? = some c → (s.ops c.op).callback = some (.onDone i)
  unborn : ∀ i, s.calls.length ≤ i → s.futures i = .pending
  fine : ∀ (i : ℕ) (c : Call), s.calls[i]? = some c → Fine (s.futures i) c
  soon : ∀ f ∈ s.soon, ∃ c, s.calls[f]? = some c ∧ c.stage = .delivered
  queued : ∀ i ∈ s.pending, ∃ c, s.calls[i]? = some c ∧ Queued (s.futures i) c
  nodup : s.pending.Nodup

theorem Init.owned (h : Init cfg s) : Owned s := by
  have hnone : ∀ i : ℕ, s.calls[i]? = none := fun i => by rw [h.calls]; exact List.getElem?_nil
  refine ⟨?_, ?_, fun i _ => h.futures i, ?_, ?_, ?_, ?_⟩
  · intro i j c d hc
    rw [hnone] at hc
    cases hc
  · intro i c hc
    rw [hnone] at hc
    cases hc
  · intro i c hc
    rw [hnone] at hc
    cases hc
  · intro f hf
    rw [h.soon] at hf
    cases hf
  · intro i hi
    rw [h.pending] at hi
    cases hi
  · rw [h.pending]
    exact List.nodup_nil

/-- What a step of call `i` may do to the rest of the adapter. -/
structure Touches (s t : Base) (i : ℕ) (c c' : Call) : Prop where
  calls : t.calls = s.calls.set i c'
  op : c'.op = c.op
  callback : ∀ p, (t.ops p).callback = (s.ops p).callback
  futures : ∀ f, f ≠ i → t.futures f = s.futures f
  delivered : c.stage = .delivered → c'.stage = .delivered
  soon : ∀ f ∈ t.soon, f ∈ s.soon ∨ f = i ∧ c'.stage = .delivered

theorem Owned.touch (h : Owned s) (c' : Call) (hc : s.calls[i]? = some c) (ht : Touches s t i c c')
    (hfine : Fine (t.futures i) c') (hpending : ∀ j ∈ t.pending, j ∈ s.pending ∨ j = i)
    (hqueued : i ∈ t.pending → Queued (t.futures i) c') (hnodup : t.pending.Nodup) : Owned t := by
  have hlt : i < s.calls.length := Table.lt_length hc
  have hself : t.calls[i]? = some c' := by
    rw [ht.calls]
    exact Table.getElem?_set_self hc c'
  have hne : ∀ {j : ℕ}, j ≠ i → t.calls[j]? = s.calls[j]? := by
    intro j hj
    rw [ht.calls]
    exact List.getElem?_set_ne hj.symm
  have hback : ∀ {j : ℕ} {d : Call}, t.calls[j]? = some d → ∃ d', s.calls[j]? = some d' ∧
    d.op = d'.op := by
    intro j d hd
    by_cases hji : j = i
    · subst hji
      rw [hself] at hd
      cases hd
      exact ⟨c, hc, ht.op⟩
    · rw [hne hji] at hd
      exact ⟨d, hd, rfl⟩
  refine ⟨?_, ?_, ?_, ?_, ?_, ?_, hnodup⟩
  · intro j k d e hd he heq
    obtain ⟨d', hd', hop⟩ := hback hd
    obtain ⟨e', he', hop'⟩ := hback he
    exact h.distinct j k d' e' hd' he' (by rw [← hop, ← hop', heq])
  · intro j d hd
    obtain ⟨d', hd', hop⟩ := hback hd
    rw [ht.callback, hop]
    exact h.own j d' hd'
  · intro j hj
    rw [ht.calls, List.length_set] at hj
    rw [ht.futures j (by omega)]
    exact h.unborn j hj
  · intro j d hd
    by_cases hji : j = i
    · subst hji
      rw [hself] at hd
      cases hd
      exact hfine
    · rw [ht.futures j hji]
      exact h.fine j d (by rwa [← hne hji])
  · intro f hf
    by_cases hfi : f = i
    · subst hfi
      refine ⟨c', hself, ?_⟩
      obtain hold | ⟨-, hnew⟩ := ht.soon f hf
      · obtain ⟨d, hd, hdone⟩ := h.soon f hold
        rw [hc] at hd
        cases hd
        exact ht.delivered hdone
      · exact hnew
    · rw [hne hfi]
      exact h.soon f ((ht.soon f hf).resolve_right fun hcon => hfi hcon.1)
  · intro j hj
    by_cases hji : j = i
    · subst hji
      exact ⟨c', hself, hqueued hj⟩
    · rw [hne hji, ht.futures j hji]
      exact h.queued j ((hpending j hj).resolve_right hji)

theorem Owned.touch_same (h : Owned s) (c' : Call) (hc : s.calls[i]? = some c)
    (ht : Touches s t i c c') (hfine : Fine (t.futures i) c') (hpending : t.pending = s.pending)
    (hqueued : Queued (s.futures i) c → Queued (t.futures i) c') : Owned t := by
  refine h.touch _ hc ht hfine (fun j hj => .inl (hpending ▸ hj)) (fun hi => ?_)
    (hpending ▸ h.nodup)
  obtain ⟨d, hd, hq⟩ := h.queued i (hpending ▸ hi)
  rw [hc] at hd
  cases hd
  exact hqueued hq

/-- No Operation is passed to `submit` a second time, and a deferred batch skips none of its first
`accepted` entries. -/
def Fresh (s : Base) : Action → Prop
  | .submit p => ∀ c ∈ s.calls, c.op ≠ p
  | .deferredSubmit (.ok accepted) => s.claimed.take accepted = s.live.take accepted
  | _ => True

instance (s : Base) : ∀ a, Decidable (s.Fresh a)
  | .submit _ => inferInstanceAs (Decidable (∀ _ ∈ _, _))
  | .deferredSubmit (.ok _) => inferInstanceAs (Decidable (_ = _))
  | .acquire _ | .enter .. | .start _ | .complete _ | .deliver _ | .runSoon | .resume _ | .cancel _
  | .unwind .. | .deferredSubmit (.error _) | .consumeCancel => isTrue trivial

theorem Owned.submit (h : Owned s) {p : OpId} (hc : s.Fresh (.submit p))
    (hs : s.step cfg (.submit p) = some t) : Owned t := by
  cases hs
  have hnew : ∀ {i : ℕ} {d : Call}, s.calls[i]? = some d → d.op ≠ p :=
    fun hd => hc _ (List.mem_of_getElem? hd)
  refine ⟨?_, ?_, ?_, ?_, ?_, ?_, h.nodup⟩
  · intro i j c d hc hd heq
    obtain hc | ⟨rfl, rfl⟩ := Table.getElem?_append_one_cases hc
    · obtain hd | ⟨rfl, rfl⟩ := Table.getElem?_append_one_cases hd
      · exact h.distinct i j c d hc hd heq
      · exact absurd heq (hnew hc)
    · obtain hd | ⟨rfl, rfl⟩ := Table.getElem?_append_one_cases hd
      · exact absurd heq.symm (hnew hd)
      · rfl
  · intro i c hc
    obtain hc | ⟨rfl, rfl⟩ := Table.getElem?_append_one_cases hc
    · show (Function.update s.ops p _ c.op).callback = _
      rw [Function.update_of_ne (hnew hc)]
      exact h.own i c hc
    · show (Function.update s.ops p _ p).callback = _
      rw [Function.update_self]
  · intro i hi
    exact h.unborn i (by simp only [List.length_append] at hi; omega)
  · intro i c hc
    obtain hc | ⟨rfl, rfl⟩ := Table.getElem?_append_one_cases hc
    · exact h.fine i c hc
    · show Fine (s.futures s.calls.length) _
      rw [h.unborn _ (Nat.le_refl _)]
      exact ⟨nofun, nofun, nofun, fun _ => ⟨rfl, rfl⟩⟩
  · intro f hf
    obtain ⟨c, hc, hdone⟩ := h.soon f hf
    exact ⟨c, Table.getElem?_append_of_some hc _, hdone⟩
  · intro i hi
    obtain ⟨c, hc, hq⟩ := h.queued i hi
    exact ⟨c, Table.getElem?_append_of_some hc _, hq⟩

theorem onCall_eq_some {f : Call → Option Base} (h : s.onCall i f = some t) :
    ∃ c, s.calls[i]? = some c ∧ f c = some t := Option.bind_eq_some_iff.mp h

theorem Touches.callOnly {c' : Call} (hcalls : t.calls = s.calls.set i c') (hops : t.ops = s.ops)
    (hfutures : t.futures = s.futures) (hsoon : t.soon = s.soon) (hop : c'.op = c.op)
    (hdelivered : c.stage = .delivered → c'.stage = .delivered) : Touches s t i c c' :=
  ⟨hcalls, hop, fun _ => by rw [hops], fun _ _ => by rw [hfutures], hdelivered,
    fun _ hf => .inl (hsoon ▸ hf)⟩

theorem Fine.left {x : Future} (h : Fine x c) : Fine x { c with phase := .left } :=
  ⟨h.undelivered, fun _ => .inr rfl, h.result, by rintro (h | h) <;> cases h⟩

theorem Owned.leave (h : Owned s) (hc : s.calls[i]? = some c)
    (hphase : c.phase = .awaiting → (s.futures i).done = true) : Owned (s.leave i c) := by
  have ht : Touches s (s.leave i c) i c { c with phase := .left } :=
    .callOnly rfl rfl rfl rfl rfl id
  refine h.touch_same _ hc ht (h.fine i c hc).left rfl fun hq => ⟨hq.idle, ⟨nofun, nofun⟩, ?_⟩
  intro hx
  have hdone := hphase (hq.awaiting hx)
  have hpending : s.futures i = .pending := hx
  rw [hpending] at hdone
  cases hdone

theorem Owned.acquire (h : Owned s) (hs : s.step cfg (.acquire i) = some t) : Owned t := by
  obtain ⟨c, hc, hs⟩ := onCall_eq_some hs
  obtain ⟨⟨hphase, -⟩, hs⟩ := Option.ite_none_right_eq_some.mp hs
  cases hs
  have hfine := h.fine i c hc
  have hout := hfine.outside (.inl hphase)
  exact h.touch_same { c with phase := .granted } hc (.callOnly rfl rfl rfl rfl rfl id)
    ⟨hfine.undelivered, fun hx => absurd (hout.2.symm.trans hx) (by decide), hfine.result,
      fun _ => hout⟩ rfl fun hq => absurd hphase hq.entered.1

theorem Touches.accept {c' : Call} (hop : c'.op = c.op) (hstage : c.stage ≠ .delivered) :
    Touches s (s.accept i c') i c { c' with stage := .queued } := by
  refine ⟨rfl, hop, fun p => ?_, fun _ _ => rfl, fun hd => absurd hd hstage, fun _ hf => .inl hf⟩
  show (Function.update s.ops c'.op _ p).callback = _
  by_cases hp : p = c'.op
  · rw [hp, Function.update_self]
  · rw [Function.update_of_ne hp]

theorem Owned.enter (h : Owned s) {answer : Answer}
    (hs : s.step cfg (.enter i answer) = some t) : Owned t := by
  obtain ⟨c, hc, hs⟩ := onCall_eq_some hs
  obtain ⟨hphase, hs⟩ := Option.ite_none_right_eq_some.mp hs
  cases hs
  have hfine := h.fine i c hc
  have hout := hfine.outside (.inr hphase)
  have hleave : Owned (s.leave i c) := h.leave hc fun ha => absurd (hphase ▸ ha) (by decide)
  have hne : ∀ {x : Future}, x ≠ .pending → s.futures i ≠ x := by
    intro x hx hcon
    exact hx (hcon ▸ hout.2)
  have hstage : c.stage ≠ .delivered := by
    rw [hout.1]
    decide
  have hnotQueued : i ∉ s.pending := by
    intro hi
    obtain ⟨d, hd, hq⟩ := h.queued i hi
    rw [hc] at hd
    cases hd
    exact hq.entered.2 hphase
  unfold Base.enter
  split_ifs
  · -- a deferred batch will have it
    refine h.touch _ hc ⟨rfl, rfl, fun _ => rfl, fun _ _ => rfl, id, fun _ hf => .inl hf⟩
      ⟨fun hu => .inl hout.2, fun hx => absurd hx (hne (by decide)), hfine.result,
        by rintro (h | h) <;> cases h⟩
      (fun j hj => ?_) (fun _ => ⟨hout.1, ⟨nofun, nofun⟩, fun _ => rfl⟩) ?_
    · exact (List.mem_append.mp hj).imp_right List.mem_singleton.mp
    · exact List.nodup_append.mpr ⟨h.nodup, List.nodup_singleton i, by
        rintro j hj k hk rfl
        exact hnotQueued (List.mem_singleton.mp hk ▸ hj)⟩
  · exact hleave
  · exact hleave
  · cases answer with
    | refused => exact hleave
    | accepted flushed =>
      dsimp only
      split_ifs
      · have hmid : Touches s (s.accept i c) i c _ := .accept rfl hstage
        exact h.touch_same { c with stage := .queued, phase := .left } hc
          ⟨List.set_set .., rfl, hmid.callback, fun _ _ => rfl, fun hd => absurd hd hstage,
            fun _ hf => .inl hf⟩
          ⟨fun _ => .inl hout.2, fun _ => .inr rfl, fun hx => absurd hx (hne (by decide)),
            by rintro (h | h) <;> cases h⟩
          rfl fun hq => absurd hphase hq.entered.2
      · exact h.touch_same _ hc (.accept rfl hstage)
          ⟨fun _ => .inl hout.2, fun hx => absurd hx (hne (by decide)),
            fun hx => absurd hx (hne (by decide)), by rintro (h | h) <;> cases h⟩ rfl
          fun hq => absurd hphase hq.entered.2

theorem Owned.advance (h : Owned s) (hc : s.calls[i]? = some c) {stage : Stage}
    (hfrom : c.stage.undelivered = true) : Owned (s.setCall i { c with stage }) := by
  have hfine := h.fine i c hc
  have hopen := hfine.undelivered hfrom
  have hidle : c.stage ≠ .idle := by
    rintro heq
    rw [heq] at hfrom
    cases hfrom
  have hdelivered : c.stage ≠ .delivered := by
    rintro heq
    rw [heq] at hfrom
    cases hfrom
  refine h.touch_same _ hc
    (.callOnly rfl rfl rfl rfl rfl fun hd => absurd hd hdelivered)
    ⟨fun _ => hopen, hfine.cancelled, fun hx => absurd (hfine.result hx) hdelivered,
      fun hw => absurd (hfine.outside hw).1 hidle⟩ rfl fun hq => absurd hq.idle hidle

theorem Owned.start (h : Owned s) (hs : s.step cfg (.start i) = some t) : Owned t := by
  obtain ⟨c, hc, hs⟩ := onCall_eq_some hs
  obtain ⟨hstage, hs⟩ := Option.ite_none_right_eq_some.mp hs
  cases hs
  exact h.advance hc (by rw [hstage]; rfl)

theorem Owned.complete (h : Owned s) (hs : s.step cfg (.complete i) = some t) : Owned t := by
  obtain ⟨c, hc, hs⟩ := onCall_eq_some hs
  obtain ⟨hstage, hs⟩ := Option.ite_none_right_eq_some.mp hs
  cases hs
  exact h.advance hc (by rw [hstage]; rfl)

theorem deliver_eq (h : Owned s) (hc : s.calls[i]? = some c) :
    s.deliver cfg i c = (s.setCall i { c with stage := .delivered }).onDone cfg i := by
  rw [Base.deliver]
  simp only [h.own i c hc]

theorem onDone_cases (cfg : Config) (s : Base) (f : FutureId) :
    s.onDone cfg f = s ∧ (s.futures f).done = true ∨
      s.futures f = .pending ∧ (s.onDone cfg f = { s with soon := s.soon ++ [f] } ∨
        s.onDone cfg f = s.setFuture f .result) := by
  unfold onDone
  by_cases hdone : (s.futures f).done = true
  · exact .inl ⟨if_pos hdone, hdone⟩
  · have hpending : s.futures f = .pending := by
      cases hx : s.futures f with
      | pending => rfl
      | result | exception | cancelled =>
        rw [hx] at hdone
        exact absurd rfl hdone
    right
    rw [if_neg hdone]
    refine ⟨hpending, ?_⟩
    cases cfg.kind with
    | pythonAio | threadAio => exact .inl rfl
    | linuxUring | linuxAio => exact .inr rfl

theorem setFuture_futures_self (s : Base) (f : FutureId) (x : Future) :
    (s.setFuture f x).futures f = x := Function.update_self ..

theorem setFuture_futures_ne (s : Base) {f g : FutureId} (x : Future) (hne : g ≠ f) :
    (s.setFuture f x).futures g = s.futures g := Function.update_of_ne hne ..

theorem Owned.delivered (h : Owned s) (hc : s.calls[i]? = some c)
    (hstage : c.stage.undelivered = true) : Owned (s.setCall i { c with stage := .delivered }) := by
  have hfine := h.fine i c hc
  have hidle : c.stage ≠ .idle := by
    rintro heq
    rw [heq] at hstage
    cases hstage
  refine h.touch_same _ hc (.callOnly rfl rfl rfl rfl rfl fun _ => rfl)
    ⟨nofun, hfine.cancelled, fun _ => rfl, fun hw => ?_⟩ rfl fun hq => absurd hq.idle hidle
  exact absurd (hfine.outside hw).1 hidle

theorem Owned.resolved (h : Owned s) (hc : s.calls[i]? = some c) (hdone : c.stage = .delivered) :
    Owned (s.setFuture i .result) := by
  have hfine := h.fine i c hc
  have hidle : c.stage ≠ .idle := by
    rw [hdone]
    decide
  refine h.touch_same _ hc ⟨(Table.set_self hc).symm, rfl, fun _ => rfl,
    fun f hf => setFuture_futures_ne _ _ hf, id, fun f hf => .inl hf⟩ ?_ rfl
    fun hq => absurd hq.idle hidle
  rw [setFuture_futures_self]
  exact ⟨fun hu => absurd hu (by rw [hdone]; decide), nofun, fun _ => hdone,
    fun hw => absurd (hfine.outside hw).1 hidle⟩

/-- The lambdas that the loop still has are of calls whose callback has been called. -/
theorem Owned.withSoon (h : Owned s) {fs : List FutureId}
    (hfs : ∀ f ∈ fs, ∃ c, s.calls[f]? = some c ∧ c.stage = .delivered) :
    Owned { s with soon := fs } :=
  ⟨h.distinct, h.own, h.unborn, h.fine, hfs, h.queued, h.nodup⟩

theorem Owned.addSoon (h : Owned s) (hc : s.calls[i]? = some c) (hdone : c.stage = .delivered) :
    Owned { s with soon := s.soon ++ [i] } := by
  apply h.withSoon
  intro f hf
  rcases List.mem_append.mp hf with hf | hf
  · exact h.soon f hf
  · rw [List.mem_singleton.mp hf]
    exact ⟨c, hc, hdone⟩

theorem Owned.deliver_ok (h : Owned s) (cfg : Config) (hc : s.calls[i]? = some c)
    (hstage : c.stage.undelivered = true) : Owned (s.deliver cfg i c) := by
  have hdelivered := h.delivered hc hstage
  have hself := setCall_getElem?_self hc { c with stage := .delivered }
  rw [deliver_eq h hc]
  obtain ⟨heq, -⟩ | ⟨-, heq | heq⟩ :=
    onDone_cases cfg (s.setCall i { c with stage := .delivered }) i
  · rw [heq]
    exact hdelivered
  · rw [heq]
    exact hdelivered.addSoon hself rfl
  · rw [heq]
    exact hdelivered.resolved hself rfl

theorem onDone_frame (cfg : Config) (s : Base) (f : FutureId) :
    (s.onDone cfg f).calls = s.calls ∧ (s.onDone cfg f).slots = s.slots ∧
      (s.onDone cfg f).cancelSqes = s.cancelSqes := by
  obtain ⟨heq, -⟩ | ⟨-, heq | heq⟩ := onDone_cases cfg s f
  · rw [heq]
    exact ⟨rfl, rfl, rfl⟩
  · rw [heq]
    exact ⟨rfl, rfl, rfl⟩
  · rw [heq]
    exact ⟨rfl, rfl, rfl⟩

theorem deliver_frame (cfg : Config) (s : Base) (i : ℕ) (c : Call) :
    (s.deliver cfg i c).calls = s.calls.set i { c with stage := .delivered } ∧
      (s.deliver cfg i c).slots = s.slots ∧ (s.deliver cfg i c).cancelSqes = s.cancelSqes := by
  unfold Base.deliver
  split
  · exact onDone_frame cfg (s.setCall i { c with stage := .delivered }) _
  · exact ⟨rfl, rfl, rfl⟩

theorem deliver_getElem?_self (cfg : Config) (hc : s.calls[i]? = some c) :
    (s.deliver cfg i c).calls[i]? = some { c with stage := .delivered } := by
  rw [(deliver_frame cfg s i c).1]
  exact setCall_getElem?_self hc _

theorem Owned.deliver (h : Owned s) (hs : s.step cfg (.deliver i) = some t) : Owned t := by
  obtain ⟨c, hc, hs⟩ := onCall_eq_some hs
  obtain ⟨hstage, hs⟩ := Option.ite_none_right_eq_some.mp hs
  cases hs
  exact h.deliver_ok cfg hc (by rw [hstage]; rfl)

theorem Owned.runSoon (h : Owned s) (hs : s.step cfg .runSoon = some t) : Owned t := by
  simp only [step] at hs
  split at hs
  case h_1 => cases hs
  case h_2 f fs hsoon =>
    cases hs
    obtain ⟨c, hc, hdone⟩ := h.soon f (by rw [hsoon]; exact List.mem_cons_self)
    have hrest : Owned { s with soon := fs } := by
      apply h.withSoon
      intro g hg
      exact h.soon g (by rw [hsoon]; exact List.mem_cons_of_mem _ hg)
    split_ifs
    · exact hrest
    · exact hrest.resolved hc hdone

theorem Owned.resume (h : Owned s) (hs : s.step cfg (.resume i) = some t) : Owned t := by
  obtain ⟨c, hc, hs⟩ := onCall_eq_some hs
  obtain ⟨⟨-, hdone⟩, hs⟩ := Option.ite_none_right_eq_some.mp hs
  cases hs
  exact h.leave hc fun _ => hdone

theorem Owned.cancel (h : Owned s) (hs : s.step cfg (.cancel i) = some t) : Owned t := by
  obtain ⟨c, hc, hs⟩ := onCall_eq_some hs
  have hfine := h.fine i c hc
  split at hs
  case h_1 hphase =>
    cases hs
    exact h.touch_same _ hc (.callOnly rfl rfl rfl rfl rfl id) hfine.left rfl
      fun hq => absurd hphase hq.entered.1
  case h_2 hphase =>
    cases hs
    exact h.leave hc fun ha => absurd (hphase ▸ ha) (by decide)
  case h_3 hphase =>
    cases hs
    have houtside : ¬(Phase.unwinding = .waiting ∨ Phase.unwinding = .granted) := by decide
    split_ifs with hdone
    · refine h.touch_same { c with phase := .unwinding } hc
        (.callOnly rfl rfl rfl rfl rfl id)
        ⟨hfine.undelivered, fun _ => .inl rfl, hfine.result, fun hw => absurd hw houtside⟩ rfl
        fun hq => ⟨hq.idle, ⟨nofun, nofun⟩, fun hx => ?_⟩
      have hpending : s.futures i = .pending := hx
      have hdone : (s.futures i).done = true := hdone
      rw [hpending] at hdone
      cases hdone
    · refine h.touch_same { c with phase := .unwinding } hc ⟨rfl, rfl, fun _ => rfl,
        fun g hg => setFuture_futures_ne _ _ hg, id, fun _ hf => .inl hf⟩ ?_ rfl fun hq => ?_
      · rw [setFuture_futures_self]
        exact ⟨fun _ => .inr rfl, fun _ => .inl rfl, nofun, fun hw => absurd hw houtside⟩
      · rw [setFuture_futures_self]
        exact ⟨hq.idle, ⟨nofun, nofun⟩, nofun⟩
  case h_4 => cases hs

/-- Cancel requests and slots are not part of the invariant. -/
theorem Owned.congr (h : Owned s) (hcalls : t.calls = s.calls) (hops : t.ops = s.ops)
    (hfutures : t.futures = s.futures) (hsoon : t.soon = s.soon)
    (hpending : t.pending = s.pending) :
    Owned t := by
  cases t
  simp only at hcalls hops hfutures hsoon hpending
  subst hcalls hops hfutures hsoon hpending
  exact ⟨h.distinct, h.own, h.unborn, h.fine, h.soon, h.queued, h.nodup⟩

theorem Owned.unwind (h : Owned s) {cancelled : Bool}
    (hs : s.step cfg (.unwind i cancelled) = some t) : Owned t := by
  obtain ⟨c, hc, hs⟩ := onCall_eq_some hs
  obtain ⟨hphase, hs⟩ := Option.ite_none_right_eq_some.mp hs
  cases hs
  have hleave : Owned (s.leave i c) := h.leave hc fun ha => absurd (hphase ▸ ha) (by decide)
  unfold Base.unwind
  split
  · exact hleave
  · exact hleave
  · split_ifs
    · exact hleave
    · exact hleave.congr rfl rfl rfl rfl rfl
  · split_ifs with hsuccess
    · have hdelivered := h.deliver_ok cfg hc
        (Stage.undelivered_of_outstanding hsuccess.2)
      exact hdelivered.leave (deliver_getElem?_self cfg hc)
        fun ha => absurd (hphase ▸ ha) (by decide)
    · exact hleave

/-- A call whose entry is live may be accepted or failed. -/
structure Ready (s : Base) (i : ℕ) (c : Call) : Prop where
  call : s.calls[i]? = some c
  idle : c.stage = .idle
  awaiting : c.phase = .awaiting
  pending : s.futures i = .pending

theorem Owned.ready (h : Owned s) (hi : i ∈ s.live) : ∃ c, Ready s i c := by
  obtain ⟨hmem, hopen⟩ := List.mem_filter.mp hi
  obtain ⟨c, hc, hq⟩ := h.queued i hmem
  have hpending : s.futures i = .pending := by simpa [Future.done] using hopen
  exact ⟨c, hc, hq.idle, hq.awaiting hpending, hpending⟩

theorem Ready.accept (hr : Ready s j d) (c : Call) (hne : j ≠ i) : Ready (s.accept i c) j d :=
  ⟨(setCall_getElem?_ne s _ hne).trans hr.call, hr.idle, hr.awaiting, hr.pending⟩

theorem Ready.setFuture (hr : Ready s j d) (x : Future) (hne : j ≠ i) :
    Ready (s.setFuture i x) j d :=
  ⟨hr.call, hr.idle, hr.awaiting, (setFuture_futures_ne s x hne).trans hr.pending⟩

/-- The calls of a batch are accepted one by one, and the others stay as they are. -/
theorem acceptAll_induction {I : List ℕ → Base → Prop} {is : List ℕ} (hs : I is s)
    (hnodup : is.Nodup) (hready : ∀ i ∈ is, ∃ c, Ready s i c)
    (hone : ∀ u i is c, I (i :: is) u → Ready u i c → I is (u.accept i c)) :
    I [] (s.acceptAll is) ∧ ∀ j d, j ∉ is → Ready s j d → Ready (s.acceptAll is) j d := by
  induction is generalizing s with
  | nil => exact ⟨hs, fun _ _ _ hr => hr⟩
  | cons i is ih =>
    obtain ⟨hi, hnodup⟩ := List.nodup_cons.mp hnodup
    obtain ⟨c, hr⟩ := hready i List.mem_cons_self
    have hcons : s.acceptAll (i :: is) = (s.accept i c).acceptAll is := by
      rw [acceptAll, hr.call]
    obtain ⟨hI, hothers⟩ := ih (hone s i is c hs hr) hnodup fun j hj => by
      obtain ⟨d, hd⟩ := hready j (List.mem_cons_of_mem _ hj)
      exact ⟨d, hd.accept c fun heq => hi (heq ▸ hj)⟩
    rw [hcons]
    refine ⟨hI, fun j d hj hd => ?_⟩
    rw [List.mem_cons, not_or] at hj
    exact hothers j d hj.2 (hd.accept c hj.1)

theorem failAll_induction {I : Base → Prop} {is : List ℕ} {exc : PyErr} (hs : I s)
    (hnodup : is.Nodup) (hready : ∀ i ∈ is, ∃ c, Ready s i c)
    (hone : ∀ u i c, I u → Ready u i c → I (u.setFuture i (.exception exc))) :
    I (s.failAll exc is) := by
  induction is generalizing s with
  | nil => exact hs
  | cons i is ih =>
    obtain ⟨hi, hnodup⟩ := List.nodup_cons.mp hnodup
    obtain ⟨c, hr⟩ := hready i List.mem_cons_self
    have hopen : ¬(s.futures i).done = true := by
      rw [hr.pending]
      decide
    rw [failAll, if_neg hopen]
    refine ih (hone s i c hs hr) hnodup fun j hj => ?_
    obtain ⟨d, hd⟩ := hready j (List.mem_cons_of_mem _ hj)
    exact ⟨d, hd.setFuture _ fun heq => hi (heq ▸ hj)⟩

theorem Owned.deferredSubmit_induction {I : Base → Prop} (h : Owned s) {answer : Except PyErr ℕ}
    (hc : s.Fresh (.deferredSubmit answer)) (hclear : I { s with pending := [] })
    (haccept : ∀ u i c, I u → Ready u i c → I (u.accept i c))
    (hfail : ∀ u i c exc, I u → Ready u i c → I (u.setFuture i (.exception exc))) :
    I (s.deferredSubmit answer) := by
  have hready : ∀ i ∈ s.live, ∃ c, Ready { s with pending := [] } i c := by
    intro i hi
    obtain ⟨c, hr⟩ := h.ready hi
    exact ⟨c, hr.call, hr.idle, hr.awaiting, hr.pending⟩
  have hnodup : s.live.Nodup := h.nodup.filter _
  cases answer with
  | error exc => exact failAll_induction hclear hnodup hready fun u i c => hfail u i c exc
  | ok accepted =>
    rw [← List.take_append_drop accepted s.live] at hnodup
    obtain ⟨hfirst, hrest, hdisjoint⟩ := List.nodup_append.mp hnodup
    have hclaimed : s.claimed.take accepted = s.live.take accepted := hc
    obtain ⟨hI, hothers⟩ := acceptAll_induction (I := fun _ => I) hclear hfirst
      (fun i hi => hready i (List.mem_of_mem_take hi)) fun u i _ c => haccept u i c
    show I ((({ s with pending := [] } : Base).acceptAll (s.claimed.take accepted)).failAll _ _)
    rw [hclaimed]
    refine failAll_induction hI hrest (fun i hi => ?_) fun u i c => hfail u i c _
    obtain ⟨c, hr⟩ := hready i (List.mem_of_mem_drop hi)
    exact ⟨c, hothers i c (fun hcon => hdisjoint i hcon i hi rfl) hr⟩

theorem Owned.accept (h : Owned s) (hempty : s.pending = []) (hr : Ready s i c) :
    Owned (s.accept i c) := by
  have hstage : c.stage ≠ .delivered := by
    rw [hr.idle]
    decide
  have hfine : Fine (s.futures i) { c with stage := .queued } := by
    rw [hr.pending]
    refine ⟨fun _ => .inl rfl, nofun, nofun, fun hw => ?_⟩
    rw [hr.awaiting] at hw
    exact absurd hw (by decide)
  refine h.touch _ hr.call (.accept rfl hstage) hfine (fun j hj => .inl hj) (fun hi => ?_) h.nodup
  have hi : i ∈ s.pending := hi
  rw [hempty] at hi
  exact absurd hi List.not_mem_nil

theorem Owned.fail (h : Owned s) (hempty : s.pending = []) (hr : Ready s i c) (exc : PyErr) :
    Owned (s.setFuture i (.exception exc)) := by
  have hfine : Fine (.exception exc) c := by
    refine ⟨fun hu => ?_, nofun, nofun, fun hw => ?_⟩
    · rw [hr.idle] at hu
      cases hu
    · rw [hr.awaiting] at hw
      exact absurd hw (by decide)
  refine h.touch _ hr.call ⟨(Table.set_self hr.call).symm, rfl, fun _ => rfl,
    fun f hf => setFuture_futures_ne _ _ hf, id, fun _ hf => .inl hf⟩ ?_ (fun j hj => .inl hj)
    (fun hi => ?_) h.nodup
  · rw [setFuture_futures_self]
    exact hfine
  · have hi : i ∈ s.pending := hi
    rw [hempty] at hi
    exact absurd hi List.not_mem_nil

theorem Owned.clear (h : Owned s) : Owned { s with pending := [] } :=
  ⟨h.distinct, h.own, h.unborn, h.fine, h.soon, fun _ hi => absurd hi List.not_mem_nil,
    List.nodup_nil⟩

theorem Owned.deferredSubmit (h : Owned s) {answer : Except PyErr ℕ}
    (hc : s.Fresh (.deferredSubmit answer)) : Owned (s.deferredSubmit answer) :=
  (h.deferredSubmit_induction (I := fun u => Owned u ∧ u.pending = []) hc ⟨h.clear, rfl⟩
    (fun _ _ _ hu hr => ⟨hu.1.accept hu.2 hr, hu.2⟩)
    (fun _ _ _ exc hu hr => ⟨hu.1.fail hu.2 hr exc, hu.2⟩)).1

theorem deferredSubmit_eq {answer : Except PyErr ℕ}
    (hs : s.step cfg (.deferredSubmit answer) = some t) : t = s.deferredSubmit answer := by
  cases answer with
  | error exc =>
    cases hs
    rfl
  | ok accepted =>
    obtain ⟨-, hs⟩ := Option.ite_none_right_eq_some.mp hs
    cases hs
    rfl

theorem Owned.step (h : Owned s) {a : Action} (hc : s.Fresh a) (hs : s.step cfg a = some t) :
    Owned t := by
  cases a with
  | submit p => exact h.submit hc hs
  | acquire i => exact h.acquire hs
  | enter i answer => exact h.enter hs
  | start i => exact h.start hs
  | complete i => exact h.complete hs
  | deliver i => exact h.deliver hs
  | runSoon => exact h.runSoon hs
  | resume i => exact h.resume hs
  | cancel i => exact h.cancel hs
  | unwind i cancelled => exact h.unwind hs
  | deferredSubmit answer =>
    rw [deferredSubmit_eq hs]
    exact h.deferredSubmit hc
  | consumeCancel =>
    obtain ⟨-, hs⟩ := Option.ite_none_right_eq_some.mp hs
    cases hs
    exact h.congr rfl rfl rfl rfl rfl

end Caio.Asyncio.Base
