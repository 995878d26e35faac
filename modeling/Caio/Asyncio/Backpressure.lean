import Caio.Asyncio.Distinct
import Caio.Lib.Counting

namespace Caio.Asyncio

/-- `max_requests` reaches the backend as the semaphore has it. -/
def Config.Fits (cfg : Config) : Prop :=
  match cfg.kind with
  | .threadAio => cfg.maxRequests < 2 ^ 16
  | .linuxUring => cfg.maxRequests + 1 < 2 ^ 32
  | .pythonAio | .linuxAio => True

theorem Config.maxRequests_pos (cfg : Config) : 0 < cfg.maxRequests := by
  unfold maxRequests
  split_ifs <;> omega

theorem threadQueueSize_of_lt {m : ℕ} (hpos : 0 < m) (hm : m < 2 ^ 16) : threadQueueSize m = m := by
  simp only [threadQueueSize, Nat.mod_eq_of_lt hm]
  exact if_neg (by omega)

theorem Config.Fits.lt_sqEntries {cfg : Config} (h : cfg.Fits) (hk : cfg.kind = .linuxUring) :
    cfg.maxRequests < cfg.sqEntries := by
  have hpos := cfg.maxRequests_pos
  have hfits : cfg.maxRequests + 1 < 2 ^ 32 := by simpa only [Config.Fits, hk] using h
  have hge := cfg.sqEntries_ge hk
  have hnat : (UInt32.ofNat cfg.maxRequests).toNat = cfg.maxRequests := by
    rw [UInt32.toNat_ofNat']
    exact Nat.mod_eq_of_lt (by omega)
  have hne : UInt32.ofNat cfg.maxRequests ≠ 0 := by
    intro hzero
    rw [hzero] at hnat
    have hnat : 0 = cfg.maxRequests := hnat
    omega
  have huring : uringMaxRequests cfg.maxRequests = UInt32.ofNat cfg.maxRequests := if_neg hne
  have hge : (uringMaxRequests cfg.maxRequests + 1).toNat ≤ cfg.sqEntries := hge
  rw [huring, UInt32.toNat_add, hnat] at hge
  have hone : (1 : UInt32).toNat = 1 := rfl
  rw [hone, Nat.mod_eq_of_lt hfits] at hge
  omega

namespace Base

variable {cfg : Config} {s t : Base} {i : ℕ} {c : Call}

/-- The backend holds at most `max_requests` Operations, and is not full for a call that the
semaphore has admitted. -/
structure Backpressure (cfg : Config) (s : Base) : Prop where
  held : s.held ≤ cfg.maxRequests
  admitted : ∀ c ∈ s.calls, c.phase = .granted → ¬s.Full cfg

/-- The calls are on distinct Operations, none leaves `async with` with its Operation outstanding,
and cancel requests leave the ring an entry for every slot. -/
def KeepsSlots (cfg : Config) (s : Base) : Action → Prop
  | .enter _ answer => ¬(cfg.flushes = true ∧ answer = .accepted false)
  | .unwind i cancelled =>
    (s.calls[i]?.any (·.stage.outstanding) = true → cfg.kind = .linuxAio ∧ cancelled = true) ∧
      (cfg.kind = .linuxUring → s.cancelSqes + 1 + cfg.maxRequests ≤ cfg.sqEntries)
  | a => s.Fresh a

instance (cfg : Config) (s : Base) : ∀ a, Decidable (KeepsSlots cfg s a)
  | .enter .. => inferInstanceAs (Decidable (¬_))
  | .unwind .. => inferInstanceAs (Decidable (_ ∧ _))
  | .submit p => inferInstanceAs (Decidable (s.Fresh (.submit p)))
  | .deferredSubmit answer => inferInstanceAs (Decidable (s.Fresh (.deferredSubmit answer)))
  | .acquire _ | .start _ | .complete _ | .deliver _ | .runSoon | .resume _ | .cancel _
  | .consumeCancel => isTrue trivial

theorem KeepsSlots.fresh {a : Action} (h : KeepsSlots cfg s a) : s.Fresh a := by
  cases a with
  | enter | unwind => trivial
  | submit | deferredSubmit => exact h
  | acquire | start | complete | deliver | runSoon | resume | cancel | consumeCancel => trivial

/-- Free slots and taken ones add up, and an outstanding Operation is that of a call with a slot. -/
structure Slots (cfg : Config) (s : Base) : Prop where
  total : s.slots + s.calls.countP (·.phase.holds) = cfg.maxRequests
  outstanding : ∀ c ∈ s.calls, c.stage.outstanding = true → c.phase.holds = true
  sqes : cfg.kind = .linuxUring → s.cancelSqes + cfg.maxRequests ≤ cfg.sqEntries

theorem Init.slots_ok (hfits : cfg.Fits) (h : Init cfg s) : Slots cfg s := by
  refine ⟨?_, ?_, fun hk => ?_⟩
  · rw [h.slots, h.calls, List.countP_nil, Nat.add_zero]
  · intro c hc
    rw [h.calls] at hc
    cases hc
  · have := hfits.lt_sqEntries hk
    rw [h.cancelSqes]
    omega

/-- A call that has a slot without an outstanding Operation leaves one for the backend. -/
theorem Slots.held_lt (h : Slots cfg s) (hc : c ∈ s.calls) (hholds : c.phase.holds = true)
    (hidle : c.stage.outstanding = false) : s.held < cfg.maxRequests := by
  have hle : ∀ d ∈ s.calls, d.stage.outstanding = true → d.phase.holds = true := h.outstanding
  have hlt : s.held < s.calls.countP (·.phase.holds) := by
    obtain ⟨l, r, heq⟩ := List.append_of_mem hc
    have hl := List.countP_mono_left fun d hd => hle d
      (by rw [heq]; exact List.mem_append_left _ hd)
    have hr := List.countP_mono_left fun d hd =>
      hle d (by rw [heq]; exact List.mem_append_right _ (List.mem_cons_of_mem _ hd))
    simp only [held, heq, List.countP_append, List.countP_cons, hholds, hidle, if_true] at hl hr ⊢
    simp only [Bool.false_eq_true, if_false]
    omega
  have := h.total
  omega

theorem Slots.held_le (h : Slots cfg s) : s.held ≤ cfg.maxRequests := by
  have hle : s.held ≤ s.calls.countP (·.phase.holds) := List.countP_mono_left h.outstanding
  have := h.total
  omega

theorem queued_le_held (s : Base) : s.queued ≤ s.held := by
  apply List.countP_mono_left
  intro c _ hc
  rw [beq_iff_eq.mp hc]
  rfl

theorem Slots.bounds (hfits : cfg.Fits) (howned : Owned s) (h : Slots cfg s) :
    Backpressure cfg s := by
  refine ⟨h.held_le, fun c hc hphase hfull => ?_⟩
  obtain ⟨i, hi⟩ := List.getElem?_of_mem hc
  have hidle : c.stage = .idle := ((howned.fine i c hi).outside (.inr hphase)).1
  have hlt : s.held < cfg.maxRequests :=
    h.held_lt hc (by rw [hphase]; rfl) (by rw [hidle]; rfl)
  have hqueued := s.queued_le_held
  unfold Full at hfull
  cases hk : cfg.kind with
  | pythonAio =>
    simp only [hk] at hfull
    omega
  | threadAio =>
    have hm : cfg.maxRequests < 2 ^ 16 := by simpa only [Config.Fits, hk] using hfits
    simp only [hk, threadQueueSize_of_lt cfg.maxRequests_pos hm] at hfull
    omega
  | linuxUring =>
    have := h.sqes hk
    simp only [hk] at hfull
    omega
  | linuxAio => simp only [hk] at hfull

/-- A step of call `i` that takes or gives back a slot as the call's phase says. -/
theorem Slots.set (h : Slots cfg s) (hc : s.calls[i]? = some c) (c' : Call)
    (hcalls : t.calls = s.calls.set i c')
    (hslots : t.slots + c'.phase.holds.toNat = s.slots + c.phase.holds.toNat)
    (houtstanding : c'.stage.outstanding = true → c'.phase.holds = true)
    (hsqes : cfg.kind = .linuxUring → t.cancelSqes + cfg.maxRequests ≤ cfg.sqEntries) :
    Slots cfg t := by
  refine ⟨?_, ?_, hsqes⟩
  · have hcount := Counting.countP_set hc c' (·.phase.holds)
    have htotal := h.total
    rw [hcalls]
    omega
  · intro d hd
    rw [hcalls] at hd
    obtain hd | rfl := List.mem_or_eq_of_mem_set hd
    · exact h.outstanding d hd
    · exact houtstanding

theorem Slots.leave (h : Slots cfg s) (hc : s.calls[i]? = some c) (hholds : c.phase.holds = true)
    (hdone : c.stage.outstanding = false) : Slots cfg (s.leave i c) := by
  refine h.set hc { c with phase := .left } rfl ?_ ?_ h.sqes
  · rw [hholds]
    rfl
  · intro hstage
    rw [hdone] at hstage
    cases hstage

/-- A step that neither takes nor gives back a slot, nor starts a call's Operation. -/
theorem Slots.keep (h : Slots cfg s) (hc : s.calls[i]? = some c) (c' : Call)
    (hcalls : t.calls = s.calls.set i c') (hslots : t.slots = s.slots)
    (hsqes : t.cancelSqes = s.cancelSqes) (hphase : c'.phase.holds = c.phase.holds)
    (hstage : c'.stage.outstanding = true → c.stage.outstanding = true) : Slots cfg t := by
  refine h.set hc c' hcalls (by rw [hslots, hphase]) (fun ho => ?_) (fun hk => ?_)
  · rw [hphase]
    exact h.outstanding c (List.mem_of_getElem? hc) (hstage ho)
  · rw [hsqes]
    exact h.sqes hk

theorem Slots.congr (h : Slots cfg s) (hcalls : t.calls = s.calls) (hslots : t.slots = s.slots)
    (hsqes : t.cancelSqes ≤ s.cancelSqes) : Slots cfg t := by
  refine ⟨?_, ?_, fun hk => ?_⟩
  · rw [hcalls, hslots]
    exact h.total
  · rw [hcalls]
    exact h.outstanding
  · have := h.sqes hk
    omega

theorem Slots.submit (h : Slots cfg s) {p : OpId} (hs : s.step cfg (.submit p) = some t) :
    Slots cfg t := by
  cases hs
  refine ⟨?_, ?_, h.sqes⟩
  · rw [Counting.countP_append_one]
    exact h.total
  · intro c hc ho
    obtain hc | hc := List.mem_append.mp hc
    · exact h.outstanding c hc ho
    · rw [List.mem_singleton.mp hc] at ho
      cases ho

theorem Slots.acquire (h : Slots cfg s) (hs : s.step cfg (.acquire i) = some t) :
    Slots cfg t := by
  obtain ⟨c, hc, hs⟩ := onCall_eq_some hs
  obtain ⟨⟨hphase, hslots⟩, hs⟩ := Option.ite_none_right_eq_some.mp hs
  cases hs
  refine h.set hc { c with phase := .granted } rfl ?_ (fun _ => rfl) h.sqes
  show s.slots - 1 + 1 = s.slots + c.phase.holds.toNat
  rw [hphase]
  show s.slots - 1 + 1 = s.slots + 0
  omega

theorem Slots.enter (howned : Owned s) (h : Slots cfg s) {answer : Answer}
    (hcond : KeepsSlots cfg s (.enter i answer)) (hs : s.step cfg (.enter i answer) = some t) :
    Slots cfg t := by
  obtain ⟨c, hc, hs⟩ := onCall_eq_some hs
  obtain ⟨hphase, hs⟩ := Option.ite_none_right_eq_some.mp hs
  cases hs
  have hidle : c.stage = .idle := ((howned.fine i c hc).outside (.inr hphase)).1
  have hholds : c.phase.holds = true := by
    rw [hphase]
    rfl
  have hleave : Slots cfg (s.leave i c) := h.leave hc hholds (by rw [hidle]; rfl)
  unfold Base.enter
  split_ifs
  · exact h.keep hc { c with phase := .awaiting } rfl rfl rfl hholds.symm id
  · exact hleave
  · exact hleave
  · cases answer with
    | refused => exact hleave
    | accepted flushed =>
      dsimp only
      split_ifs with hflush
      · exact absurd ⟨hflush.1, by rw [hflush.2]⟩ hcond
      · refine h.set hc { c with phase := .awaiting, stage := .queued } rfl ?_ (fun _ => rfl) h.sqes
        rw [hholds]
        rfl

theorem Slots.deliver (h : Slots cfg s) (hc : s.calls[i]? = some c) :
    Slots cfg (s.deliver cfg i c) := by
  obtain ⟨hcalls, hslots, hsqes⟩ := deliver_frame cfg s i c
  exact h.keep hc _ hcalls hslots hsqes rfl nofun

theorem Slots.resume (howned : Owned s) (h : Slots cfg s)
    (hs : s.step cfg (.resume i) = some t) : Slots cfg t := by
  obtain ⟨c, hc, hs⟩ := onCall_eq_some hs
  obtain ⟨⟨hphase, hdone⟩, hs⟩ := Option.ite_none_right_eq_some.mp hs
  cases hs
  have hfine := howned.fine i c hc
  refine h.leave hc (by rw [hphase]; rfl) ?_
  by_contra ho
  obtain hx | hx := hfine.undelivered (Stage.undelivered_of_outstanding (Bool.not_eq_false _ ▸ ho))
  · rw [hx] at hdone
    cases hdone
  · obtain hp | hp := hfine.cancelled hx
    · rw [hphase] at hp
      cases hp
    · rw [hphase] at hp
      cases hp

theorem Slots.cancel (howned : Owned s) (h : Slots cfg s)
    (hs : s.step cfg (.cancel i) = some t) : Slots cfg t := by
  obtain ⟨c, hc, hs⟩ := onCall_eq_some hs
  have hidle : c.phase = .waiting ∨ c.phase = .granted → c.stage = .idle :=
    fun hp => ((howned.fine i c hc).outside hp).1
  split at hs
  case h_1 hphase =>
    cases hs
    exact h.keep hc { c with phase := .left } rfl rfl rfl (by rw [hphase]; rfl) id
  case h_2 hphase =>
    cases hs
    exact h.leave hc (by rw [hphase]; rfl) (by rw [hidle (.inr hphase)]; rfl)
  case h_3 hphase =>
    cases hs
    have hkeep : Slots cfg (s.setCall i { c with phase := .unwinding }) :=
      h.keep hc { c with phase := .unwinding } rfl rfl rfl (by rw [hphase]; rfl) id
    split_ifs
    · exact hkeep
    · exact hkeep.congr rfl rfl (Nat.le_refl _)
  case h_4 => cases hs

theorem Slots.unwind (h : Slots cfg s) {cancelled : Bool}
    (hcond : KeepsSlots cfg s (.unwind i cancelled))
    (hs : s.step cfg (.unwind i cancelled) = some t) : Slots cfg t := by
  obtain ⟨c, hc, hs⟩ := onCall_eq_some hs
  obtain ⟨hphase, hs⟩ := Option.ite_none_right_eq_some.mp hs
  cases hs
  have hholds : c.phase.holds = true := by
    rw [hphase]
    rfl
  obtain ⟨hdone, hroom⟩ := hcond
  rw [hc] at hdone
  have hleave : c.stage.outstanding = false → Slots cfg (s.leave i c) := h.leave hc hholds
  cases ho : c.stage.outstanding with
  | false =>
    have hleave := hleave ho
    unfold Base.unwind
    split
    · exact hleave
    · exact hleave
    case h_3 hk =>
      split_ifs
      · exact hleave
      · refine ⟨hleave.total, hleave.outstanding, fun _ => ?_⟩
        exact hroom hk
    · rw [if_neg (by rw [ho]; exact fun hcon => absurd hcon.2 (by decide))]
      exact hleave
  | true =>
    -- `io_cancel` completes the Operation before the coroutine leaves
    obtain ⟨hk, rfl⟩ := hdone ho
    unfold Base.unwind
    simp only [hk]
    rw [if_pos ⟨trivial, ho⟩]
    exact (h.deliver hc).leave (deliver_getElem?_self cfg hc) hholds rfl

theorem Slots.deferredSubmit (howned : Owned s) (h : Slots cfg s) {answer : Except PyErr ℕ}
    (hcond : s.Fresh (.deferredSubmit answer)) : Slots cfg (s.deferredSubmit answer) := by
  refine howned.deferredSubmit_induction hcond (h.congr rfl rfl (Nat.le_refl _)) ?_ ?_
  · intro u i c hu hr
    refine hu.set hr.call { c with stage := .queued } rfl rfl (fun _ => ?_) hu.sqes
    show c.phase.holds = true
    rw [hr.awaiting]
    rfl
  · intro u i c exc hu hr
    exact hu.congr rfl rfl (Nat.le_refl _)

theorem Slots.step (howned : Owned s) (h : Slots cfg s) {a : Action} (hcond : KeepsSlots cfg s a)
    (hs : s.step cfg a = some t) : Slots cfg t := by
  cases a with
  | submit p => exact h.submit hs
  | acquire i => exact h.acquire hs
  | enter i answer => exact h.enter howned hcond hs
  | start i =>
    obtain ⟨c, hc, hs⟩ := onCall_eq_some hs
    obtain ⟨hstage, hs⟩ := Option.ite_none_right_eq_some.mp hs
    cases hs
    exact h.keep hc _ rfl rfl rfl rfl fun _ => by rw [hstage]; rfl
  | complete i =>
    obtain ⟨c, hc, hs⟩ := onCall_eq_some hs
    obtain ⟨-, hs⟩ := Option.ite_none_right_eq_some.mp hs
    cases hs
    exact h.keep hc _ rfl rfl rfl rfl nofun
  | deliver i =>
    obtain ⟨c, hc, hs⟩ := onCall_eq_some hs
    obtain ⟨-, hs⟩ := Option.ite_none_right_eq_some.mp hs
    cases hs
    exact h.deliver hc
  | runSoon =>
    simp only [Base.step] at hs
    split at hs
    case h_1 => cases hs
    case h_2 =>
      cases hs
      split_ifs
      · exact h.congr rfl rfl (Nat.le_refl _)
      · exact h.congr rfl rfl (Nat.le_refl _)
  | resume i => exact h.resume howned hs
  | cancel i => exact h.cancel howned hs
  | unwind i cancelled => exact h.unwind hcond hs
  | deferredSubmit answer =>
    rw [deferredSubmit_eq hs]
    exact h.deferredSubmit howned hcond
  | consumeCancel =>
    obtain ⟨-, hs⟩ := Option.ite_none_right_eq_some.mp hs
    cases hs
    exact h.congr rfl rfl (Nat.sub_le _ _)

/-- Runs in which no slot goes back early keep the semaphore's bound on the backend. -/
theorem backpressure (cfg : Config) (hfits : cfg.Fits) {s : Base}
    (h : (system cfg).ReachableBy (KeepsSlots cfg) s) : Backpressure cfg s := by
  have hinv : Owned s ∧ Slots cfg s := by
    refine h.invariant (I := fun s => Owned s ∧ Slots cfg s)
      (fun s hs => ⟨Init.owned hs, Init.slots_ok hfits hs⟩) ?_
    rintro s a t ⟨howned, hslots⟩ hcond hs
    exact ⟨howned.step hcond.fresh hs, hslots.step howned hcond hs⟩
  exact hinv.2.bounds hfits hinv.1

/-- An adapter with one slot, and a ring of two entries. -/
def single (kind : Kind) : Config where
  kind
  arg := some 1
  sqEntries := 2
  sqEntries_ge := fun _ => by decide

/-- A call whose completion comes before its cancellation, and a second one. -/
def politeRun : List Action :=
  [.submit 0, .acquire 0, .enter 0 (.accepted true), .start 0, .complete 0, .cancel 0,
    .unwind 0 false, .submit 1, .acquire 1, .deliver 0]

theorem backpressure_single :
    ∃ s, (system (single .linuxUring)).exec (.new (single .linuxUring)) politeRun = some s ∧
    s.cancelSqes = 1 ∧ Backpressure (single .linuxUring) s := by
  have hrun : (((system (single .linuxUring)).exec (.new (single .linuxUring)) politeRun).any
      fun s => s.cancelSqes == 1) = true := by decide +kernel
  have hmeets : (system (single .linuxUring)).Meets (KeepsSlots (single .linuxUring))
      (.new (single .linuxUring)) politeRun := by decide +kernel
  obtain ⟨s, hexec, hsqes⟩ := (Option.any_eq_true _ _).mp hrun
  have hreach : (system (single .linuxUring)).ReachableBy (KeepsSlots (single .linuxUring)) s :=
    .exec (.init (new_init _)) hmeets hexec
  have hfits : (single .linuxUring).Fits := show (1 : ℕ) + 1 < 2 ^ 32 by decide
  exact ⟨s, hexec, beq_iff_eq.mp hsqes, backpressure (single .linuxUring) hfits hreach⟩

/-- A call cancelled while its Operation runs, and a second one on another Operation. -/
def cancelledRun : List Action :=
  [.submit 0, .acquire 0, .enter 0 (.accepted true), .start 0, .cancel 0, .unwind 0 false,
    .submit 1, .acquire 1]

/-- The slot of a cancelled call goes to the next one while the worker still has its Operation. -/
theorem backpressure_cancelled :
    (∃ s, (system (single .pythonAio)).exec (.new (single .pythonAio)) cancelledRun = some s ∧
      ∃ c ∈ s.calls, c.phase = .granted ∧ s.Full (single .pythonAio)) ∧
    ∃ s, (system (single .threadAio)).exec (.new (single .threadAio))
        (cancelledRun ++ [.enter 1 (.accepted true)]) = some s ∧
      s.held = 2 ∧ (single .threadAio).maxRequests = 1 := by
  have hpython : (((system (single .pythonAio)).exec (.new (single .pythonAio)) cancelledRun).any
      fun s => decide (∃ c ∈ s.calls, c.phase = .granted ∧ s.Full (single .pythonAio))) = true := by
    decide +kernel
  have hthread : (((system (single .threadAio)).exec (.new (single .threadAio))
      (cancelledRun ++ [.enter 1 (.accepted true)])).any fun s => decide (s.held = 2)) = true := by
    decide +kernel
  obtain ⟨s, hs, hfull⟩ := (Option.any_eq_true _ _).mp hpython
  obtain ⟨t, ht, hheld⟩ := (Option.any_eq_true _ _).mp hthread
  exact ⟨⟨s, hs, of_decide_eq_true hfull⟩, t, ht, of_decide_eq_true hheld, rfl⟩

end Base

end Caio.Asyncio
