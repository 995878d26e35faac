import Caio.Asyncio.Distinct

namespace Caio.Asyncio.Base

variable {cfg : Config} {s t u : Base} {i : ℕ} {c : Call}

/-- Completions reach the calls they belong to, and calls that are not accepted leave no trace. -/
structure Undisturbed (s : Base) : Prop where
  bound : ∀ (i : ℕ) (c : Call), s.calls[i]? = some c → c.stage.undelivered = true →
    (s.ops c.op).callback = some (.onDone i)
  resolved : ∀ (i : ℕ) (c : Call), s.calls[i]? = some c → c.stage = .delivered →
    (s.futures i).done = true ∨ i ∈ s.soon
  restored : ∀ (i : ℕ) (c : Call), s.calls[i]? = some c → c.phase = .left → c.stage = .idle →
    (s.ops c.op).callback = c.before
  /-- A call that awaits the future of an accepted Operation has something to resolve it. -/
  waiting : ∀ (i : ℕ) (c : Call), s.calls[i]? = some c → c.phase = .awaiting → c.stage ≠ .idle →
    s.futures i = .pending →
      c.stage.undelivered = true ∧ (s.ops c.op).callback = some (.onDone i) ∨ i ∈ s.soon

/-- Every call of `submit` is on an Operation of its own and is accepted by the backend. -/
def Accepts (cfg : Config) (s : Base) : Action → Prop
  | .submit p => ∀ c ∈ s.calls, c.op ≠ p
  | .enter i answer => (cfg.kind = .linuxAio ∧ cfg.deferred = true) ∨
      s.calls[i]?.all (fun c => !(s.ops c.op).inProgress) = true ∧ ¬s.Full cfg ∧ answer ≠ .refused
  | .cancel i => s.calls[i]?.all (fun c => c.stage != .idle) = true
  | .deferredSubmit (.ok accepted) => s.claimed = s.live ∧ s.live.length ≤ accepted
  | .deferredSubmit (.error _) => s.live = []
  | _ => True

instance (cfg : Config) (s : Base) : ∀ a, Decidable (Accepts cfg s a)
  | .submit _ => inferInstanceAs (Decidable (∀ _ ∈ _, _))
  | .enter .. => inferInstanceAs (Decidable (_ ∨ _))
  | .cancel _ => inferInstanceAs (Decidable (_ = _))
  | .deferredSubmit (.ok _) => inferInstanceAs (Decidable (_ ∧ _))
  | .deferredSubmit (.error _) => inferInstanceAs (Decidable (_ = _))
  | .acquire _ | .start _ | .complete _ | .deliver _ | .runSoon | .resume _ | .unwind ..
  | .consumeCancel => isTrue trivial

theorem Accepts.fresh {a : Action} (h : Accepts cfg s a) : s.Fresh a := by
  cases a with
  | submit => exact h
  | deferredSubmit answer =>
    cases answer with
    | ok accepted => exact congrArg (List.take accepted) h.1
    | error => trivial
  | enter | unwind | acquire | start | complete | deliver | runSoon | resume | cancel
  | consumeCancel => trivial

/-- A call that is not accepted yet will be: it is on its way, or its entry is in `_pending`. -/
def Coming (pending : List ℕ) (x : Future) (i : ℕ) (c : Call) : Prop :=
  c.stage = .idle → c.phase = .waiting ∨ c.phase = .granted ∨
    c.phase = .awaiting ∧ x = .pending ∧ i ∈ pending

structure Accepted (s : Base) : Prop where
  coming : ∀ (i : ℕ) (c : Call), s.calls[i]? = some c → Coming s.pending (s.futures i) i c
  resolved : ∀ (i : ℕ) (c : Call), s.calls[i]? = some c → c.stage = .delivered →
    (s.futures i).done = true ∨ i ∈ s.soon

theorem Init.accepted (h : Init cfg s) : Accepted s := by
  have hnone : ∀ i : ℕ, s.calls[i]? = none := fun i => by rw [h.calls]; exact List.getElem?_nil
  refine ⟨fun i c hc => ?_, fun i c hc => ?_⟩
  · rw [hnone] at hc
    cases hc
  · rw [hnone] at hc
    cases hc

theorem Accepted.undisturbed (howned : Owned s) (h : Accepted s) : Undisturbed s := by
  refine ⟨fun i c hc _ => howned.own i c hc, h.resolved, ?_, ?_⟩
  · intro i c hc hphase hidle
    obtain hp | hp | ⟨hp, -⟩ := h.coming i c hc hidle
    all_goals
      rw [hphase] at hp
      cases hp
  · intro i c hc hphase hidle hpending
    cases hstage : c.stage with
    | idle => exact absurd hstage hidle
    | queued | running | completed => exact .inl ⟨rfl, howned.own i c hc⟩
    | delivered =>
      obtain hdone | hsoon := h.resolved i c hc hstage
      · rw [hpending] at hdone
        cases hdone
      · exact .inr hsoon

theorem Accepted.touch (h : Accepted s) (hc : s.calls[i]? = some c) (c' : Call)
    (hcalls : t.calls = s.calls.set i c') (hfutures : ∀ f, f ≠ i → t.futures f = s.futures f)
    (hsoon : ∀ f, f ≠ i → f ∈ s.soon → f ∈ t.soon)
    (hpending : ∀ f, f ≠ i → f ∈ s.pending → f ∈ t.pending)
    (hcoming : Coming t.pending (t.futures i) i c')
    (hresolved : c'.stage = .delivered → (t.futures i).done = true ∨ i ∈ t.soon) : Accepted t := by
  have hself : t.calls[i]? = some c' := by
    rw [hcalls]
    exact Table.getElem?_set_self hc c'
  have hne : ∀ {j : ℕ}, j ≠ i → t.calls[j]? = s.calls[j]? := by
    intro j hj
    rw [hcalls]
    exact List.getElem?_set_ne hj.symm
  refine ⟨?_, ?_⟩
  · intro j d hd
    by_cases hji : j = i
    · subst hji
      rw [hself] at hd
      cases hd
      exact hcoming
    · rw [hne hji] at hd
      rw [hfutures j hji]
      intro hidle
      refine (h.coming j d hd hidle).imp_right fun hrest => hrest.imp_right ?_
      rintro ⟨hp, hx, hmem⟩
      exact ⟨hp, hx, hpending j hji hmem⟩
  · intro j d hd hdone
    by_cases hji : j = i
    · subst hji
      rw [hself] at hd
      cases hd
      exact hresolved hdone
    · rw [hne hji] at hd
      rw [hfutures j hji]
      exact (h.resolved j d hd hdone).imp_right (hsoon j hji)

theorem Accepted.callOnly (h : Accepted s) (hc : s.calls[i]? = some c) (c' : Call)
    (hcalls : t.calls = s.calls.set i c') (hfutures : t.futures = s.futures)
    (hsoon : t.soon = s.soon) (hpending : t.pending = s.pending)
    (hcoming : Coming s.pending (s.futures i) i c')
    (hstage : c'.stage = .delivered → c.stage = .delivered) : Accepted t := by
  refine h.touch hc c' hcalls (fun _ _ => by rw [hfutures]) (fun _ _ hf => hsoon ▸ hf)
    (fun _ _ hf => hpending ▸ hf) ?_ fun hd => ?_
  · rw [hpending, hfutures]
    exact hcoming
  · rw [hfutures, hsoon]
    exact h.resolved i c hc (hstage hd)

theorem Coming.of_accepted {pending : List ℕ} {x : Future} (h : c.stage ≠ .idle) :
    Coming pending x i c := fun hidle => absurd hidle h

theorem Accepted.leave (h : Accepted s) (hc : s.calls[i]? = some c) (hstage : c.stage ≠ .idle) :
    Accepted (s.leave i c) :=
  h.callOnly hc { c with phase := .left } rfl rfl rfl rfl (.of_accepted hstage) id

theorem Accepted.submit (h : Accepted s) {p : OpId}
    (hs : s.step cfg (.submit p) = some t) : Accepted t := by
  cases hs
  refine ⟨?_, ?_⟩
  · intro i c hc
    obtain hc | ⟨-, rfl⟩ := Table.getElem?_append_one_cases hc
    · exact h.coming i c hc
    · exact fun _ => .inl rfl
  · intro i c hc hdone
    obtain hc | ⟨-, rfl⟩ := Table.getElem?_append_one_cases hc
    · exact h.resolved i c hc hdone
    · cases hdone

theorem Accepted.enter (howned : Owned s) (h : Accepted s) {answer : Answer}
    (hcond : Accepts cfg s (.enter i answer)) (hs : s.step cfg (.enter i answer) = some t) :
    Accepted t := by
  obtain ⟨c, hc, hs⟩ := onCall_eq_some hs
  obtain ⟨hphase, hs⟩ := Option.ite_none_right_eq_some.mp hs
  cases hs
  obtain ⟨hidle, hpending⟩ := (howned.fine i c hc).outside (.inr hphase)
  unfold Base.enter
  split_ifs with hdeferred hbusy hfull
  · refine h.touch hc { c with phase := .awaiting } rfl (fun _ _ => rfl) (fun _ _ => id)
      (fun f _ hf => List.mem_append_left _ hf) (fun _ => .inr (.inr ⟨rfl, hpending, ?_⟩)) ?_
    · exact List.mem_append_right _ (List.mem_singleton_self i)
    · intro hd
      rw [show c.stage = .delivered from hd] at hidle
      cases hidle
  · have hfree := (hcond.resolve_left hdeferred).1
    rw [hc] at hfree
    simp only [Option.all_some, hbusy] at hfree
    cases hfree
  · exact absurd hfull (hcond.resolve_left hdeferred).2.1
  · cases answer with
    | refused => exact absurd rfl (hcond.resolve_left hdeferred).2.2
    | accepted flushed =>
      dsimp only
      split_ifs
      · exact h.callOnly hc { c with phase := .left, stage := .queued }
          (List.set_set ..) rfl rfl rfl
          (.of_accepted nofun) nofun
      · exact h.callOnly hc { c with phase := .awaiting, stage := .queued } rfl rfl rfl rfl
          (.of_accepted nofun) nofun

theorem Accepted.deliver (howned : Owned s) (h : Accepted s) (hc : s.calls[i]? = some c) :
    Accepted (s.deliver cfg i c) := by
  have hcoming : ∀ pending x, Coming pending x i { c with stage := .delivered } :=
    fun _ _ => .of_accepted nofun
  rw [deliver_eq howned hc]
  obtain ⟨heq, hdone⟩ | ⟨-, heq | heq⟩ :=
    onDone_cases cfg (s.setCall i { c with stage := .delivered }) i
  · rw [heq]
    exact h.touch hc _ rfl (fun _ _ => rfl) (fun _ _ => id) (fun _ _ => id) (hcoming _ _)
      fun _ => .inl hdone
  · rw [heq]
    exact h.touch hc _ rfl (fun _ _ => rfl) (fun _ _ hf => List.mem_append_left _ hf)
      (fun _ _ => id) (hcoming _ _) fun _ => .inr
      (List.mem_append_right _ (List.mem_singleton_self i))
  · rw [heq]
    refine h.touch hc _ rfl (fun f hf => setFuture_futures_ne _ _ hf) (fun _ _ => id)
      (fun _ _ => id) (hcoming _ _) fun _ => .inl ?_
    rw [setFuture_futures_self]
    rfl

theorem Accepted.runSoon (howned : Owned s) (h : Accepted s) (hs : s.step cfg .runSoon = some t) :
    Accepted t := by
  simp only [Base.step] at hs
  split at hs
  case h_1 => cases hs
  case h_2 f fs hsoon =>
    cases hs
    obtain ⟨c, hc, hdone⟩ := howned.soon f (by rw [hsoon]; exact List.mem_cons_self)
    have hcoming : ∀ x, Coming s.pending x f c := by
      intro x
      refine .of_accepted ?_
      rw [hdone]
      decide
    have hrest : ∀ g, g ≠ f → g ∈ s.soon → g ∈ fs := by
      intro g hg hmem
      rw [hsoon] at hmem
      exact (List.mem_cons.mp hmem).resolve_left hg
    split_ifs with hx
    · exact h.touch hc c (Table.set_self hc).symm (fun _ _ => rfl) hrest (fun _ _ => id) (hcoming _)
        fun _ => .inl hx
    · refine h.touch hc c (Table.set_self hc).symm (fun g hg => setFuture_futures_ne _ _ hg) hrest
        (fun _ _ => id) (hcoming _) fun _ => .inl ?_
      rw [setFuture_futures_self]
      rfl

theorem Accepted.resume (h : Accepted s) (hs : s.step cfg (.resume i) = some t) : Accepted t := by
  obtain ⟨c, hc, hs⟩ := onCall_eq_some hs
  obtain ⟨⟨hphase, hdone⟩, hs⟩ := Option.ite_none_right_eq_some.mp hs
  cases hs
  refine h.leave hc fun hidle => ?_
  -- nothing has resolved the future of a call that is still coming
  obtain hp | hp | ⟨-, hpending, -⟩ := h.coming i c hc hidle
  · rw [hphase] at hp
    cases hp
  · rw [hphase] at hp
    cases hp
  · rw [hpending] at hdone
    cases hdone

theorem Accepted.cancel (h : Accepted s) (hcond : Accepts cfg s (.cancel i))
    (hs : s.step cfg (.cancel i) = some t) : Accepted t := by
  obtain ⟨c, hc, hs⟩ := onCall_eq_some hs
  have hstage : c.stage ≠ .idle := by
    have hcond : s.calls[i]?.all (fun c => c.stage != .idle) = true := hcond
    rw [hc] at hcond
    exact bne_iff_ne.mp hcond
  split at hs
  case h_1 =>
    cases hs
    exact h.callOnly hc { c with phase := .left } rfl rfl rfl rfl (.of_accepted hstage) id
  case h_2 =>
    cases hs
    exact h.leave hc hstage
  case h_3 =>
    cases hs
    split_ifs with hdone
    · exact h.callOnly hc { c with phase := .unwinding } rfl rfl rfl rfl (.of_accepted hstage) id
    · refine h.touch hc { c with phase := .unwinding } rfl (fun g hg => setFuture_futures_ne _ _ hg)
        (fun _ _ => id) (fun _ _ => id) (.of_accepted hstage) fun _ => .inl ?_
      rw [setFuture_futures_self]
      rfl
  case h_4 => cases hs

theorem Accepted.unwind (howned : Owned s) (h : Accepted s) {cancelled : Bool}
    (hs : s.step cfg (.unwind i cancelled) = some t) : Accepted t := by
  obtain ⟨c, hc, hs⟩ := onCall_eq_some hs
  obtain ⟨hphase, hs⟩ := Option.ite_none_right_eq_some.mp hs
  cases hs
  have hstage : c.stage ≠ .idle := by
    intro hidle
    obtain hp | hp | ⟨hp, -⟩ := h.coming i c hc hidle
    all_goals
      rw [hphase] at hp
      cases hp
  have hleave := h.leave hc hstage
  unfold Base.unwind
  split
  · exact hleave
  · exact hleave
  · split_ifs
    · exact hleave
    · exact ⟨hleave.coming, hleave.resolved⟩
  · split_ifs
    · exact (h.deliver howned hc).leave (deliver_getElem?_self cfg hc) nofun
    · exact hleave

theorem Accepted.deferredSubmit (howned : Owned s) (h : Accepted s) {answer : Except PyErr ℕ}
    (hcond : Accepts cfg s (.deferredSubmit answer)) : Accepted (s.deferredSubmit answer) := by
  have hlive : ∀ {i : ℕ} {c : Call}, s.calls[i]? = some c → c.stage = .idle → c.phase = .awaiting →
      s.futures i = .pending ∧ i ∈ s.live := by
    intro i c hc hidle hphase
    obtain hp | hp | ⟨-, hpending, hmem⟩ := h.coming i c hc hidle
    · rw [hphase] at hp
      cases hp
    · rw [hphase] at hp
      cases hp
    · exact ⟨hpending, List.mem_filter.mpr ⟨hmem, by rw [hpending]; rfl⟩⟩
  -- the entries still to be accepted play the part of `_pending`
  have hstart : Accepted { s with pending := s.live } := by
    refine ⟨fun i c hc hidle => ?_, h.resolved⟩
    refine (h.coming i c hc hidle).imp_right fun hrest => hrest.imp_right ?_
    rintro ⟨hp, -⟩
    exact ⟨hp, hlive hc hidle hp⟩
  cases answer with
  | error exc =>
    have hempty : s.live = [] := hcond
    rw [hempty] at hstart
    unfold Base.deferredSubmit
    simp only [hempty, failAll]
    exact hstart
  | ok accepted =>
    obtain ⟨hclaimed, hall⟩ := hcond
    have hready : ∀ i ∈ s.live, ∃ c, Ready { s with pending := [] } i c := by
      intro i hi
      obtain ⟨c, hr⟩ := howned.ready hi
      exact ⟨c, hr.call, hr.idle, hr.awaiting, hr.pending⟩
    obtain ⟨⟨haccepted, hempty⟩, -⟩ := acceptAll_induction (s := { s with pending := [] })
      (I := fun is u => Accepted { u with pending := is } ∧ u.pending = []) ⟨hstart, rfl⟩
      (howned.nodup.filter _) hready fun u i is c hu hr => by
        have hidle : Stage.queued ≠ .idle := by decide
        have hdelivered : Stage.queued ≠ .delivered := by decide
        refine ⟨hu.1.touch hr.call { c with stage := .queued } rfl (fun _ _ => rfl) (fun _ _ => id)
          (fun f hf hmem => (List.mem_cons.mp hmem).resolve_left hf) (.of_accepted hidle)
          (fun hd => absurd hd hdelivered), hu.2⟩
    show Accepted ((({ s with pending := [] } : Base).acceptAll
      (s.claimed.take accepted)).failAll _ _)
    rw [hclaimed, List.take_of_length_le hall, List.drop_of_length_le hall]
    refine ⟨fun i c hc => ?_, haccepted.resolved⟩
    rw [failAll, hempty]
    exact haccepted.coming i c hc

theorem Accepted.step (howned : Owned s) (h : Accepted s) {a : Action} (hcond : Accepts cfg s a)
    (hs : s.step cfg a = some t) : Accepted t := by
  cases a with
  | submit p => exact h.submit hs
  | acquire i =>
    obtain ⟨c, hc, hs⟩ := onCall_eq_some hs
    obtain ⟨⟨hphase, -⟩, hs⟩ := Option.ite_none_right_eq_some.mp hs
    cases hs
    exact h.callOnly hc { c with phase := .granted } rfl rfl rfl rfl (fun _ => .inr (.inl rfl)) id
  | enter i answer => exact h.enter howned hcond hs
  | start i =>
    obtain ⟨c, hc, hs⟩ := onCall_eq_some hs
    obtain ⟨-, hs⟩ := Option.ite_none_right_eq_some.mp hs
    cases hs
    exact h.callOnly hc { c with stage := .running } rfl rfl rfl rfl (.of_accepted nofun) nofun
  | complete i =>
    obtain ⟨c, hc, hs⟩ := onCall_eq_some hs
    obtain ⟨-, hs⟩ := Option.ite_none_right_eq_some.mp hs
    cases hs
    exact h.callOnly hc { c with stage := .completed } rfl rfl rfl rfl (.of_accepted nofun) nofun
  | deliver i =>
    obtain ⟨c, hc, hs⟩ := onCall_eq_some hs
    obtain ⟨-, hs⟩ := Option.ite_none_right_eq_some.mp hs
    cases hs
    exact h.deliver howned hc
  | runSoon => exact h.runSoon howned hs
  | resume i => exact h.resume hs
  | cancel i => exact h.cancel hcond hs
  | unwind i cancelled => exact h.unwind howned hs
  | deferredSubmit answer =>
    rw [deferredSubmit_eq hs]
    exact h.deferredSubmit howned hcond
  | consumeCancel =>
    obtain ⟨-, hs⟩ := Option.ite_none_right_eq_some.mp hs
    cases hs
    exact ⟨h.coming, h.resolved⟩

/-- The Operations of the calls, and the callbacks these had. -/
def origins (s : Base) : List (OpId × Option OpCallback) := s.calls.map fun c => (c.op, c.before)

/-- Only `submit` installs callbacks. -/
structure Keeps (s t : Base) : Prop where
  origins : t.origins = s.origins
  callback : ∀ p, (t.ops p).callback = (s.ops p).callback

theorem Keeps.refl (s : Base) : Keeps s s := ⟨rfl, fun _ => rfl⟩

theorem Keeps.trans (h : Keeps s t) (h' : Keeps t u) : Keeps s u :=
  ⟨h'.origins.trans h.origins, fun p => (h'.callback p).trans (h.callback p)⟩

theorem Keeps.of_eq (hcalls : t.calls = s.calls) (hops : t.ops = s.ops) : Keeps s t :=
  ⟨by rw [Base.origins, hcalls, ← Base.origins], fun _ => by rw [hops]⟩

theorem Keeps.set (hc : s.calls[i]? = some c) (c' : Call) (hcalls : t.calls = s.calls.set i c')
    (horigin : (c'.op, c'.before) = (c.op, c.before))
    (hcallback : ∀ p, (t.ops p).callback = (s.ops p).callback) : Keeps s t := by
  refine ⟨?_, hcallback⟩
  rw [Base.origins, hcalls]
  exact Table.map_set_of_eq hc horigin

theorem Keeps.accept (hc : s.calls[i]? = some c) (c' : Call)
    (horigin : (c'.op, c'.before) = (c.op, c.before)) : Keeps s (s.accept i c') := by
  refine .set hc { c' with stage := .queued } rfl horigin fun p => ?_
  show (Function.update s.ops c'.op _ p).callback = _
  by_cases hp : p = c'.op
  · rw [hp, Function.update_self]
  · rw [Function.update_of_ne hp]

theorem Keeps.onDone (cfg : Config) (s : Base) (f : FutureId) : Keeps s (s.onDone cfg f) := by
  obtain ⟨heq, -⟩ | ⟨-, heq | heq⟩ := onDone_cases cfg s f
  all_goals
    rw [heq]
    exact .of_eq rfl rfl

theorem Keeps.deliver (hc : s.calls[i]? = some c) : Keeps s (s.deliver cfg i c) := by
  have hset : Keeps s (s.setCall i { c with stage := .delivered }) :=
    .set hc _ rfl rfl fun _ => rfl
  unfold Base.deliver
  split
  · exact hset.trans (.onDone cfg _ _)
  · exact hset

theorem Keeps.acceptAll (is : List ℕ) (s : Base) : Keeps s (s.acceptAll is) := by
  induction is generalizing s with
  | nil => exact .refl s
  | cons i is ih =>
    rw [Base.acceptAll]
    split
    · exact ih s
    · exact (Keeps.accept ‹_› _ rfl).trans (ih _)

theorem Keeps.failAll (exc : PyErr) (is : List ℕ) (s : Base) : Keeps s (s.failAll exc is) := by
  induction is generalizing s with
  | nil => exact .refl s
  | cons i is ih =>
    rw [Base.failAll]
    split_ifs
    · exact ih s
    · have hset : Keeps s (s.setFuture i (.exception exc)) := .of_eq rfl rfl
      exact hset.trans (ih _)

theorem Keeps.leave (hc : s.calls[i]? = some c) (c' : Call)
    (horigin : (c'.op, c'.before) = (c.op, c.before)) : Keeps s (s.leave i c') :=
  .set hc { c' with phase := .left } rfl horigin fun _ => rfl

theorem Keeps.enter (cfg : Config) (hc : s.calls[i]? = some c) (answer : Answer) :
    Keeps s (s.enter cfg i c answer) := by
  have hleave : Keeps s (s.leave i c) := .leave hc c rfl
  unfold Base.enter
  split_ifs
  · exact .set hc { c with phase := .awaiting } rfl rfl fun _ => rfl
  · exact hleave
  · exact hleave
  · cases answer with
    | refused => exact hleave
    | accepted flushed =>
      dsimp only
      split_ifs
      · have haccept : Keeps s (s.accept i c) := .accept hc c rfl
        have hset : (s.accept i c).calls[i]? = some { c with stage := .queued } :=
          setCall_getElem?_self hc _
        exact haccept.trans (.leave hset { c with stage := .queued } rfl)
      · exact .accept hc { c with phase := .awaiting } rfl

theorem Keeps.unwind (cfg : Config) (hc : s.calls[i]? = some c) (cancelled : Bool) :
    Keeps s (s.unwind cfg i c cancelled) := by
  have hleave : Keeps s (s.leave i c) := .leave hc c rfl
  unfold Base.unwind
  split
  · exact hleave
  · exact hleave
  · split_ifs
    · exact hleave
    · exact hleave.trans (.of_eq rfl rfl)
  · split_ifs
    · have hdeliver : Keeps s (s.deliver cfg i c) := .deliver hc
      exact hdeliver.trans
        (.leave (deliver_getElem?_self cfg hc) { c with stage := .delivered } rfl)
    · exact hleave

theorem Keeps.step {a : Action} (hs : s.step cfg a = some t) (ha : ∀ p, a ≠ .submit p) :
    Keeps s t := by
  cases a with
  | submit p => exact absurd rfl (ha p)
  | acquire i | start i | complete i =>
    obtain ⟨c, hc, hs⟩ := onCall_eq_some hs
    obtain ⟨-, hs⟩ := Option.ite_none_right_eq_some.mp hs
    cases hs
    exact .set hc _ rfl rfl fun _ => rfl
  | enter i answer =>
    obtain ⟨c, hc, hs⟩ := onCall_eq_some hs
    obtain ⟨-, hs⟩ := Option.ite_none_right_eq_some.mp hs
    cases hs
    exact .enter cfg hc answer
  | deliver i =>
    obtain ⟨c, hc, hs⟩ := onCall_eq_some hs
    obtain ⟨-, hs⟩ := Option.ite_none_right_eq_some.mp hs
    cases hs
    exact .deliver hc
  | runSoon =>
    simp only [Base.step] at hs
    split at hs
    case h_1 => cases hs
    case h_2 =>
      cases hs
      split_ifs
      · exact .of_eq rfl rfl
      · exact .of_eq rfl rfl
  | resume i =>
    obtain ⟨c, hc, hs⟩ := onCall_eq_some hs
    obtain ⟨-, hs⟩ := Option.ite_none_right_eq_some.mp hs
    cases hs
    exact .leave hc c rfl
  | cancel i =>
    obtain ⟨c, hc, hs⟩ := onCall_eq_some hs
    split at hs
    case h_1 =>
      cases hs
      exact .set hc _ rfl rfl fun _ => rfl
    case h_2 =>
      cases hs
      exact .leave hc c rfl
    case h_3 =>
      cases hs
      split_ifs
      · exact .set hc { c with phase := .unwinding } rfl rfl fun _ => rfl
      · exact .set hc { c with phase := .unwinding } rfl rfl fun _ => rfl
    case h_4 => cases hs
  | unwind i cancelled =>
    obtain ⟨c, hc, hs⟩ := onCall_eq_some hs
    obtain ⟨-, hs⟩ := Option.ite_none_right_eq_some.mp hs
    cases hs
    exact .unwind cfg hc cancelled
  | deferredSubmit answer =>
    rw [deferredSubmit_eq hs]
    have hclear : Keeps s { s with pending := [] } := .of_eq rfl rfl
    cases answer with
    | error exc => exact hclear.trans (.failAll ..)
    | ok accepted => exact (hclear.trans (.acceptAll ..)).trans (.failAll ..)
  | consumeCancel =>
    obtain ⟨-, hs⟩ := Option.ite_none_right_eq_some.mp hs
    cases hs
    exact .of_eq rfl rfl

/-- The callback of an Operation is that of the last call on it, and no call found its own. -/
structure Installed (s : Base) : Prop where
  last : ∀ (i : ℕ) (x : OpId × Option OpCallback), s.origins[i]? = some x →
    ∃ f, i ≤ f ∧ (s.ops x.1).callback = some (.onDone f)
  earlier : ∀ (i : ℕ) (x : OpId × Option OpCallback), s.origins[i]? = some x →
    ∀ f, x.2 = some (.onDone f) → f < i
  born : ∀ p f, (s.ops p).callback = some (.onDone f) → f < s.origins.length

theorem Installed.keep (h : Installed s) (hk : Keeps s t) : Installed t := by
  refine ⟨fun i x hx => ?_, fun i x hx => ?_, fun p f hf => ?_⟩
  · rw [hk.callback]
    exact h.last i x (hk.origins ▸ hx)
  · exact h.earlier i x (hk.origins ▸ hx)
  · rw [hk.origins]
    exact h.born p f (hk.callback p ▸ hf)

theorem Installed.submit (h : Installed s) {p : OpId} (hs : s.step cfg (.submit p) = some t) :
    Installed t := by
  cases hs
  have hlen : s.origins.length = s.calls.length := List.length_map ..
  have horigins : ({ s with
      ops := Function.update s.ops p { s.ops p with callback := some (.onDone s.calls.length) }
      calls := s.calls ++ [{ op := p, before := (s.ops p).callback }] } : Base).origins =
      s.origins ++ [(p, (s.ops p).callback)] := List.map_append ..
  refine ⟨fun i x hx => ?_, fun i x hx f hf => ?_, fun q f hf => ?_⟩
  · rw [horigins] at hx
    have hi : i ≤ s.calls.length := by
      have hi := Table.lt_length hx
      rw [List.length_append, List.length_singleton] at hi
      omega
    show ∃ f, i ≤ f ∧ (Function.update s.ops p _ x.1).callback = _
    by_cases hp : x.1 = p
    · rw [hp, Function.update_self]
      exact ⟨_, hi, rfl⟩
    · rw [Function.update_of_ne hp]
      obtain hx | ⟨-, rfl⟩ := Table.getElem?_append_one_cases hx
      · exact h.last i x hx
      · exact absurd rfl hp
  · rw [horigins] at hx
    obtain hx | ⟨rfl, rfl⟩ := Table.getElem?_append_one_cases hx
    · exact h.earlier i x hx f hf
    · exact hlen ▸ h.born p f hf
  · rw [horigins, List.length_append, List.length_singleton]
    have hf : (Function.update s.ops p
      { s.ops p with callback := some (.onDone s.calls.length) } q).callback =
        some (.onDone f) := hf
    by_cases hq : q = p
    · rw [hq, Function.update_self] at hf
      cases hf
      exact hlen ▸ Nat.lt_succ_self _
    · rw [Function.update_of_ne hq] at hf
      exact Nat.lt_succ_of_lt (h.born q f hf)

theorem installed (h : (system cfg).Reachable s) : Installed s := by
  refine h.invariant (I := Installed) ?_ ?_
  · intro s hs
    have hs : Init cfg s := hs
    have hnone : ∀ i : ℕ, s.origins[i]? = none := fun i => by
      rw [Base.origins, hs.calls]
      exact List.getElem?_nil
    refine ⟨fun i x hx => ?_, fun i x hx => ?_, fun p f hf => absurd hf (hs.callback p f)⟩
    · rw [hnone] at hx
      cases hx
    · rw [hnone] at hx
      cases hx
  · intro s a t hinv _ hs
    by_cases ha : ∃ p, a = .submit p
    · obtain ⟨p, rfl⟩ := ha
      have hs : s.step cfg (.submit p) = some t := hs
      exact hinv.submit hs
    · exact hinv.keep (.step hs fun p hp => ha ⟨p, hp⟩)

/-- In no run does an Operation get back the callback it had before a call. -/
theorem Installed.ne_before (h : Installed s) (hc : s.calls[i]? = some c) :
    (s.ops c.op).callback ≠ c.before := by
  have hx : s.origins[i]? = some (c.op, c.before) := by
    rw [Base.origins, List.getElem?_map, hc]
    rfl
  obtain ⟨f, hf, hlast⟩ := h.last i _ hx
  intro hcon
  have hbefore : c.before = some (.onDone f) := hcon ▸ hlast
  exact absurd (h.earlier i _ hx f hbefore) (Nat.not_lt.mpr hf)

/-- Runs in which every call is accepted disturb no call; and no run with a call that was not
accepted has put the earlier callback back. -/
theorem resubmission (cfg : Config) (s : Base) :
    ((system cfg).ReachableBy (Accepts cfg) s → Undisturbed s) ∧
      ((system cfg).Reachable s → Undisturbed s →
        ∀ c ∈ s.calls, c.phase = .left → c.stage ≠ .idle) := by
  refine ⟨fun h => ?_, fun h hu c hc hphase hidle => ?_⟩
  · have hinv : Owned s ∧ Accepted s := by
      refine h.invariant (I := fun s => Owned s ∧ Accepted s)
        (fun s hs => ⟨Init.owned hs, Init.accepted hs⟩) ?_
      rintro s a t ⟨howned, haccepted⟩ hcond hs
      exact ⟨howned.step hcond.fresh hs, haccepted.step howned hcond hs⟩
    exact hinv.2.undisturbed hinv.1
  · obtain ⟨i, hi⟩ := List.getElem?_of_mem hc
    exact (installed h).ne_before hi (hu.restored i c hi hphase hidle)

def pair (kind : Kind) : Config where
  kind
  arg := some 2
  sqEntries := 4
  sqEntries_ge := fun _ => by decide

/-- Two calls on different Operations, completed in the other order. -/
def acceptedRun : List Action :=
  [.submit 0, .submit 1, .acquire 0, .enter 0 (.accepted true), .acquire 1,
    .enter 1 (.accepted true), .start 0, .start 1, .complete 1, .deliver 1, .cancel 0, .complete 0,
    .runSoon, .resume 1, .unwind 0 false, .deliver 0]

theorem resubmission_accepted : ∃ s,
    (system (pair .threadAio)).exec (.new (pair .threadAio)) acceptedRun = some s ∧
      s.futures 0 = .cancelled ∧ s.futures 1 = .result ∧ Undisturbed s := by
  have hrun : (((system (pair .threadAio)).exec (.new (pair .threadAio)) acceptedRun).any
      fun s => decide (s.futures 0 = .cancelled ∧ s.futures 1 = .result)) = true := by
    decide +kernel
  have hmeets : (system (pair .threadAio)).Meets (Accepts (pair .threadAio))
      (.new (pair .threadAio)) acceptedRun := by decide +kernel
  obtain ⟨s, hexec, hfutures⟩ := (Option.any_eq_true _ _).mp hrun
  have hreach : (system (pair .threadAio)).ReachableBy (Accepts (pair .threadAio)) s :=
    .exec (.init (new_init _)) hmeets hexec
  obtain ⟨hcancelled, hresult⟩ := of_decide_eq_true hfutures
  exact ⟨s, hexec, hcancelled, hresult, (resubmission (pair .threadAio) s).1 hreach⟩

/-- A second coroutine passes the Operation of the first one. -/
def resubmittedRun : List Action :=
  [.submit 0, .acquire 0, .enter 0 (.accepted true), .submit 0, .acquire 1,
    .enter 1 (.accepted true), .start 0, .complete 0, .deliver 0, .runSoon]

/-- The second call is not accepted, and takes the completion from the first one. -/
theorem resubmission_disturbs : ∃ s,
    (system (pair .pythonAio)).exec (.new (pair .pythonAio)) resubmittedRun = some s ∧
      (∃ c, s.calls[0]? = some c ∧ c.phase = .awaiting ∧ c.stage = .delivered ∧
        s.futures 0 = .pending ∧ s.soon = []) ∧
      (∃ c, s.calls[1]? = some c ∧ c.phase = .left ∧ c.stage = .idle ∧
        (s.ops c.op).callback ≠ c.before) ∧ ¬Undisturbed s := by
  have hrun : (((system (pair .pythonAio)).exec (.new (pair .pythonAio)) resubmittedRun).any
      fun s =>
      s.calls[0]?.any (fun c => decide (c.phase = .awaiting ∧ c.stage = .delivered ∧
        s.futures 0 = .pending ∧ s.soon = [])) &&
      s.calls[1]?.any (fun c => decide (c.phase = .left ∧ c.stage = .idle ∧
        (s.ops c.op).callback ≠ c.before))) = true := by
    decide +kernel
  obtain ⟨s, hexec, hboth⟩ := (Option.any_eq_true _ _).mp hrun
  obtain ⟨hfirst, hsecond⟩ := Bool.and_eq_true_iff.mp hboth
  obtain ⟨c, hc, hlost⟩ := (Option.any_eq_true _ _).mp hfirst
  obtain ⟨d, hd, hover⟩ := (Option.any_eq_true _ _).mp hsecond
  have hlost := of_decide_eq_true hlost
  have hover := of_decide_eq_true hover
  exact ⟨s, hexec, ⟨c, hc, hlost⟩, ⟨d, hd, hover⟩,
    fun hu => hover.2.2 (hu.restored 1 d hd hover.1 hover.2.1)⟩

end Caio.Asyncio.Base
