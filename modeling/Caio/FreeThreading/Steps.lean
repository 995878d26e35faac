import Caio.FreeThreading.Claims

namespace Caio.FreeThreading

open Counting

namespace State

variable {b : Backend} {s t : State} {c i j : ℕ} {d : Call} {e : Job} {p : OpPtr} {k : CtxId}

theorem Inv.setCall (h : Inv b s) (hd : s.calls[c]? = some d) {d' : Call}
    (hclaims : ∀ p, d'.claims.count p = d.claims.count p) (hheld : d'.held = d.held)
    (hctx : d'.ctx = d.ctx) (hrefs : ∀ k, d'.refs k = d.refs k) : Inv b (s.setCall c d') := by
  refine ⟨fun p => ?_, h.intact.setCall hd (fun p hp => .inl (hheld ▸ hp)) hctx,
    h.refs.setCall hd hrefs⟩
  have hset := claimCount_setCall hd d' p
  have hold := h.claims p
  have hsame := hclaims p
  show (s.setCall c d').claimCount p = (s.inProgress p).toNat
  omega

theorem claimCount_le (h : Inv b s) (p : OpPtr) : s.claimCount p ≤ 1 := by
  rw [h.claims]
  exact Bool.toNat_le _

theorem Inv.setInProgress (h : Inv b s) (hd : s.calls[c]? = some d) {d' : Call} (p : OpPtr)
    (v : Bool)
    (hclaims : ∀ q, d'.claims.count q + (if q = p then (s.inProgress p).toNat else 0) =
      d.claims.count q + if q = p then v.toNat else 0)
    (hheld : ∀ q ∈ d'.held, q ∈ d.held) (hctx : d'.ctx = d.ctx)
    (hrefs : ∀ k, d'.refs k = d.refs k) :
    Inv b ((s.setInProgress p v).setCall c d') := by
  refine ⟨fun q => ?_, Intact.setCall (s := s.setInProgress p v) ⟨h.intact.calls, h.intact.jobs⟩ hd
    (fun q hq => .inl (hheld q hq)) hctx, ?_⟩
  · have hset := claimCount_setCall (s := s.setInProgress p v) hd d' q
    change ((s.setInProgress p v).setCall c d').claimCount q + _ = s.claimCount q + _ at hset
    have hold := h.claims q
    have hmoved := hclaims q
    show _ = (Function.update s.inProgress p v q).toNat
    by_cases hq : q = p
    · rw [hq] at hset hold hmoved ⊢
      rw [if_pos rfl, if_pos rfl] at hmoved
      rw [Function.update_self]
      omega
    · rw [if_neg hq, if_neg hq] at hmoved
      rw [Function.update_of_ne hq]
      omega
  · apply RefsOk.setCall (s := s.setInProgress p v) _ hd hrefs
    cases b with
    | threadAio => exact h.refs
    | linuxAio => exact h.refs

theorem Inv.next (h : Inv b s) (hs : s.step b (.next c) = some t) : Inv b t := by
  obtain ⟨d, hd, hs⟩ := onCall_eq_some hs
  split at hs
  case h_1 p args hpc hargs =>
    have hclaims : d.claims = d.claimed := by
      rw [Call.claims, hpc]
      exact List.append_nil _
    have hheld : d.held = d.claimed := by
      rw [Call.held, hpc]
      exact List.append_nil _
    have hrefs : ∀ k, d.refs k = if d.ctx = k then d.claimed.length else 0 := by
      intro k
      rw [Call.refs, hheld, hpc]
      rfl
    split at hs
    case isTrue =>
      cases hs
      apply h.setCall hd
      · exact fun _ => rfl
      · rfl
      · rfl
      · exact fun _ => rfl
    case isFalse hfree =>
      cases hs
      have hprogress : s.inProgress p = false := Bool.not_eq_true _ ▸ hfree
      apply h.setInProgress hd p true
      · intro q
        rw [hclaims, hprogress]
        show (d.claimed ++ [p]).count q + _ = _
        rw [List.count_append, List.count_singleton]
        by_cases hq : q = p
        · subst hq
          rw [if_pos rfl, if_pos rfl, if_pos (beq_self_eq_true q)]
          rfl
        · rw [if_neg hq, if_neg hq, if_neg fun heq => hq (beq_iff_eq.mp heq).symm]
      · intro q hq
        rw [hheld]
        exact (List.append_nil d.claimed) ▸ hq
      · rfl
      · intro k
        rw [hrefs]
        show (if d.ctx = k then (d.claimed ++ []).length + 0 else 0) = _
        rw [List.append_nil]
        rfl
  case h_2 hpc hargs =>
    cases hs
    have hpc' : ∀ pc : CallPc, pc = (if d.claimed = [] then .returned else .queueing) →
        pc.claims = [] ∧ pc.held = [] ∧ pc.unclaiming? = none := by
      intro pc heq
      split_ifs at heq
      · rw [heq]
        exact ⟨rfl, rfl, rfl⟩
      · rw [heq]
        exact ⟨rfl, rfl, rfl⟩
    obtain ⟨hclaims, hheld, hunclaiming⟩ := hpc' _ rfl
    apply h.setCall hd
    · intro p
      rw [Call.claims, Call.claims, hclaims, hpc]
      rfl
    · rw [Call.held, Call.held, hheld, hpc]
      rfl
    · rfl
    · intro k
      rw [Call.refs, Call.refs, Call.held, Call.held, hheld, hunclaiming, hpc]
      rfl
  case h_3 => cases hs

theorem Inv.unclaim (h : Inv b s) (hs : s.step b (.unclaim c) = some t) : Inv b t := by
  obtain ⟨d, hd, hs⟩ := onCall_eq_some hs
  split at hs
  case h_1 p ps hpc =>
    cases hs
    have hclaims : d.claims = d.claimed ++ p :: ps := by
      rw [Call.claims, hpc]
      rfl
    have hheld : d.held = d.claimed ++ p :: ps := by
      rw [Call.held, hpc]
      rfl
    have hactive : s.inProgress p = true := by
      have hsum := le_sum_map hd fun d => d.claims.count p
      have hold := h.claims p
      rw [hclaims, List.count_append, List.count_cons_self] at hsum
      unfold claimCount at hold
      cases hp : s.inProgress p with
      | true => rfl
      | false =>
        rw [hp, Bool.toNat_false] at hold
        omega
    apply h.setInProgress hd p false
    · intro q
      rw [hclaims, hactive]
      show (d.claimed ++ ps).count q + _ = _
      rw [List.count_append, List.count_append, List.count_cons]
      by_cases hq : q = p
      · subst hq
        rw [if_pos rfl, if_pos rfl, if_pos (beq_self_eq_true q)]
        exact Nat.add_assoc ..
      · rw [if_neg hq, if_neg hq, if_neg fun heq => hq (beq_iff_eq.mp heq).symm]
        rfl
    · intro q hq
      rw [hheld]
      rcases List.mem_append.mp hq with hq | hq
      · exact List.mem_append_left _ hq
      · exact List.mem_append_right _ (List.mem_cons_of_mem _ hq)
    · rfl
    · intro k
      rw [Call.refs, Call.refs, hheld, hpc]
      show (if d.ctx = k then (d.claimed ++ ps).length + 1 else 0) =
        if d.ctx = k then (d.claimed ++ p :: ps).length + 0 else 0
      rw [List.length_append, List.length_append, List.length_cons]
      rfl
  case h_2 => cases hs

theorem Inv.setContext (h : Inv b s) (hs : s.step b (.setContext c) = some t) : Inv b t := by
  obtain ⟨d, hd, hs⟩ := onCall_eq_some hs
  split at hs
  case h_1 p hpc =>
    have hlive : s.live p = false := not_live_of_claiming (claimCount_le h p) hd hpc
    have hheld : d.held = d.claimed := by
      rw [Call.held, hpc]
      exact List.append_nil _
    -- the next place has neither claims nor pointers of its own
    have hgo : ∀ pc : CallPc, pc.claims = [] → pc.held = [] → pc.unclaiming? = none →
        Inv b ((s.setContext b d.ctx p).setCall c { d with claimed := d.claimed ++ [p], pc }) := by
      intro pc hclaims hheld' hunclaiming
      have hnew : Call.held { d with claimed := d.claimed ++ [p], pc } = d.claimed ++ [p] := by
        rw [Call.held, hheld']
        exact List.append_nil _
      refine ⟨fun q => ?_, ?_, ?_⟩
      · have hset := claimCount_setCall hd { d with claimed := d.claimed ++ [p], pc } q
        rw [Call.claims, Call.claims, hclaims, hpc] at hset
        change (s.setCall c _).claimCount q + (d.claimed ++ [p]).count q =
          _ + ((d.claimed ++ [p]) ++ []).count q at hset
        rw [List.append_nil] at hset
        exact (Nat.add_right_cancel hset).trans (h.claims q)
      · have hctx := h.intact.setCtx hlive (some d.ctx)
        apply Intact.setCall (s := s.setContext b d.ctx p) ⟨hctx.calls, hctx.jobs⟩ hd
        · intro q hq
          rw [hnew] at hq
          rcases List.mem_append.mp hq with hq | hq
          · rw [hheld]
            exact .inl hq
          · rw [List.mem_singleton.mp hq]
            exact .inr (Function.update_self ..)
        · rfl
      · have hrefs := h.refs
        cases b with
        | threadAio =>
          intro k
          have hset := sum_map_set hd { d with claimed := d.claimed ++ [p], pc } (·.refs k)
          have hold := hrefs k
          rw [Call.refs, Call.refs, hnew, hheld, hunclaiming, hpc, List.length_append] at hset
          change _ + (if d.ctx = k then d.claimed.length + 0 else 0) =
            _ + (if d.ctx = k then d.claimed.length + 1 + 0 else 0) at hset
          show bump s.ctxRefs d.ctx k =
            s.ctxUsers k + ((s.calls.set c _).map _).sum + s.jobs.countP _
          rw [bump_apply]
          by_cases hk : d.ctx = k
          · rw [if_pos hk, if_pos hk] at hset
            rw [if_pos hk.symm]
            omega
          · rw [if_neg hk, if_neg hk] at hset
            rw [if_neg (Ne.symm hk)]
            omega
        | linuxAio =>
          refine ⟨hrefs.1.update p _, fun k => ?_, hrefs.2.2⟩
          have hlinux := refsOk_linux hrefs p (some d.ctx) k
          show bump (xdecref s.ctxRefs (s.ctx p)) d.ctx k = _
          rw [bump_apply]
          by_cases hk : d.ctx = k
          · rw [hk, decide_eq_true rfl] at hlinux
            rw [if_pos hk.symm, hk]
            exact hlinux
          · rw [decide_eq_false fun heq => hk (Option.some.inj heq)] at hlinux
            rw [if_neg (Ne.symm hk)]
            exact hlinux
    cases hs
    cases b with
    | threadAio => exact hgo .queueing rfl rfl rfl
    | linuxAio => exact hgo .loop rfl rfl rfl
  case h_2 => cases hs

theorem countP_accept (k : CtxId) (ps : List OpPtr) (f : Job → Bool) :
    (s.accept k ps).jobs.countP f =
      s.jobs.countP f + ps.countP fun p => f { ctx := k, op := p } := by
  rw [accept, List.countP_append, List.countP_map]
  rfl

theorem claimCount_accept (k : CtxId) (ps : List OpPtr) (p : OpPtr) :
    (s.accept k ps).claimCount p = s.claimCount p + ps.count p := by
  have hon : (ps.countP fun q => Job.isOn p { ctx := k, op := q }) = ps.count p :=
    List.countP_congr fun q _ => decide_eq_true_iff.trans beq_iff_eq.symm
  rw [claimCount, countP_accept, hon]
  exact (Nat.add_assoc ..).symm

theorem inFlight_accept (k k' : CtxId) (ps : List OpPtr) :
    (s.accept k ps).jobs.countP (·.inFlight k') =
      s.jobs.countP (·.inFlight k') + if k = k' then ps.length else 0 := by
  have hflight : ∀ q, Job.inFlight k' { ctx := k, op := q } = decide (k = k') :=
    fun q => Bool.and_true _
  rw [countP_accept]
  congr 1
  split_ifs with hk
  · apply List.countP_eq_length.mpr
    intro q _
    rw [hflight]
    exact decide_eq_true hk
  · apply List.countP_eq_zero.mpr
    intro q _ hq
    rw [hflight] at hq
    exact hk (of_decide_eq_true hq)

theorem Intact.accept (h : s.Intact) {ps : List OpPtr} (hps : ∀ p ∈ ps, s.ctx p = some k) :
    (s.accept k ps).Intact := by
  refine ⟨h.calls, fun e he => ?_⟩
  rcases List.mem_append.mp he with he | he
  · exact h.jobs e he
  · obtain ⟨p, hp, rfl⟩ := List.mem_map.mp he
    exact hps p hp

theorem Inv.queue {n : ℕ} (h : Inv b s) (hs : s.step b (.queue c n) = some t) : Inv b t := by
  obtain ⟨d, hd, hs⟩ := onCall_eq_some hs
  split at hs
  case h_1 hpc =>
    cases hs
    obtain ⟨hclaims, hheld, hunclaiming⟩ := afterQueue_eq b (d.claimed.drop n)
    have hold : d.held = d.claimed := by
      rw [Call.held, hpc]
      exact List.append_nil _
    have hnew : Call.held { d with claimed := [], pc := afterQueue b (d.claimed.drop n) } =
        d.claimed.drop n := hheld
    refine ⟨fun p => ?_, ?_, ?_⟩
    · have hset := claimCount_setCall (s := s.accept d.ctx (d.claimed.take n)) hd
        { d with claimed := [], pc := afterQueue b (d.claimed.drop n) } p
      have hsplit : d.claimed.count p = (d.claimed.take n).count p +
        (d.claimed.drop n).count p := by
        rw [← List.count_append, List.take_append_drop]
      rw [Call.claims, Call.claims, hclaims, hpc, claimCount_accept] at hset
      change _ + (d.claimed ++ []).count p = _ + (d.claimed.drop n).count p at hset
      rw [List.append_nil] at hset
      have hprogress := h.claims p
      show _ = (s.inProgress p).toNat
      omega
    · apply Intact.setCall (s := s.accept d.ctx (d.claimed.take n)) _ hd
      · intro p hp
        rw [hnew] at hp
        rw [hold]
        exact .inl (List.mem_of_mem_drop hp)
      · rfl
      · apply h.intact.accept
        intro p hp
        apply h.intact.calls d (List.mem_of_getElem? hd) p
        rw [hold]
        exact List.mem_of_mem_take hp
    · have hrefs := h.refs
      cases b with
      | threadAio =>
        intro k
        have hset := sum_map_set hd
          { d with claimed := [], pc := afterQueue .threadAio (d.claimed.drop n) } (·.refs k)
        have hsplit : d.claimed.length = (d.claimed.take n).length + (d.claimed.drop n).length := by
          rw [← List.length_append, List.take_append_drop]
        have hbefore := hrefs k
        rw [Call.refs, Call.refs, hnew, hold, hunclaiming, hpc] at hset
        change _ + (if d.ctx = k then d.claimed.length + 0 else 0) =
          _ + (if d.ctx = k then (d.claimed.drop n).length + 0 else 0) at hset
        show s.ctxRefs k = s.ctxUsers k + ((s.calls.set c _).map _).sum +
          (s.accept d.ctx (d.claimed.take n)).jobs.countP _
        rw [inFlight_accept]
        by_cases hk : d.ctx = k
        · rw [if_pos hk, if_pos hk] at hset
          rw [if_pos hk]
          omega
        · rw [if_neg hk, if_neg hk] at hset
          rw [if_neg hk]
          omega
      | linuxAio =>
        refine ⟨hrefs.1, hrefs.2.1, fun e he => ?_⟩
        rcases List.mem_append.mp he with he | he
        · exact hrefs.2.2 e he
        · obtain ⟨p, -, rfl⟩ := List.mem_map.mp he
          exact .inl rfl
  case h_2 => cases hs

theorem Inv.clearContext (h : Inv b s) (hcareful : Careful s (.clearContext c))
    (hs : s.step b (.clearContext c) = some t) : Inv b t := by
  obtain ⟨d, hd, hs⟩ := onCall_eq_some hs
  split at hs
  case h_1 p ps hpc =>
    cases hs
    have hlive : s.live p = false := by
      rw [Careful, hd, Option.bind_some, hpc] at hcareful
      exact Bool.not_eq_true' _ ▸ hcareful
    have hold : d.held = d.claimed ++ ps := by
      rw [Call.held, hpc]
      rfl
    have hnew : Call.held { d with pc := .rollback ps } = d.claimed ++ ps := by
      rw [Call.held, held_rollback]
    refine ⟨fun q => ?_, ?_, ?_⟩
    · have hset := claimCount_setCall hd { d with pc := .rollback ps } q
      rw [Call.claims, Call.claims, claims_rollback, hpc] at hset
      exact (Nat.add_right_cancel hset).trans (h.claims q)
    · have hctx := h.intact.setCtx hlive none
      apply Intact.setCall (s := s.clearContext b d.ctx p) ⟨hctx.calls, hctx.jobs⟩ hd
      · intro q hq
        rw [hnew] at hq
        rw [hold]
        exact .inl hq
      · rfl
    · have hrefs := h.refs
      cases b with
      | threadAio =>
        intro k
        have hset := sum_map_set hd { d with pc := .rollback ps } (·.refs k)
        have hle := le_sum_map hd (·.refs k)
        have hbefore := hrefs k
        rw [Call.refs, Call.refs, hnew, hold, unclaiming_rollback, hpc] at hset
        rw [Call.refs, hold, hpc] at hle
        change _ + (if d.ctx = k then (d.claimed ++ ps).length + 1 else 0) =
          _ + (if d.ctx = k then (d.claimed ++ ps).length + 0 else 0) at hset
        change (if d.ctx = k then (d.claimed ++ ps).length + 1 else 0) ≤ _ at hle
        show drop s.ctxRefs d.ctx k =
          s.ctxUsers k + ((s.calls.set c _).map _).sum + s.jobs.countP _
        rw [drop_apply]
        by_cases hk : d.ctx = k
        · rw [if_pos hk, if_pos hk] at hset
          rw [if_pos hk] at hle
          rw [if_pos hk.symm]
          omega
        · rw [if_neg hk, if_neg hk] at hset
          rw [if_neg (Ne.symm hk)]
          omega
      | linuxAio =>
        exact ⟨hrefs.1.update p none, fun k => refsOk_linux hrefs p none k, hrefs.2.2⟩
  case h_2 => cases hs

theorem Inv.setJob (h : Inv b s) (he : s.jobs[j]? = some e) {pc : JobPc} (hpc : pc ≠ .queued)
    (hok : Job.Ok s.ctx { e with pc }) (refs : CtxId → ℕ)
    (hrefs : RefsOk b ({ s.setCtx e.op none with ctxRefs := refs }.setJob j { e with pc })) :
    Inv b ({ s.setCtx e.op none with ctxRefs := refs }.setJob j { e with pc }) := by
  have hclaims : ∀ q, (s.setJob j { e with pc }).claimCount q = s.claimCount q :=
    claimCount_setJob he _ rfl
  have hlive : (s.setJob j { e with pc }).live e.op = false := by
    apply not_live_of_job (j := j) (e := { e with pc }) _ _ hpc
    · rw [hclaims]
      exact claimCount_le h e.op
    · exact Table.getElem?_set_self he _
  have hintact : ((s.setJob j { e with pc }).setCtx e.op none).Intact :=
    (h.intact.setJob hok).setCtx hlive none
  exact ⟨fun q => (hclaims q).trans (h.claims q), ⟨hintact.calls, hintact.jobs⟩, hrefs⟩

theorem Inv.goOn (h : Inv .threadAio s) (he : s.jobs[j]? = some e) {pc : JobPc}
    (hpc : pc ≠ .queued) (hok : Job.Ok s.ctx { e with pc })
    (hin : ∀ k, Job.inFlight k { e with pc } = e.inFlight k) :
    Inv .threadAio ((s.setCtx e.op none).setJob j { e with pc }) := by
  apply h.setJob he hpc hok s.ctxRefs
  intro k
  have hsame : (s.jobs.set j { e with pc }).countP (·.inFlight k) =
      s.jobs.countP (·.inFlight k) := countP_set_of_eq he (hin k)
  show s.ctxRefs k = s.ctxUsers k + (s.calls.map _).sum + (s.jobs.set j { e with pc }).countP _
  rw [hsame]
  exact h.refs k

theorem Inv.take (h : Inv b s) (hs : s.step b (.take j) = some t) : Inv b t := by
  obtain ⟨e, he, hs⟩ := onJob_eq_some hs
  have hok := h.intact.jobs e (List.mem_of_getElem? he)
  cases b with
  | linuxAio => cases hs
  | threadAio =>
    split at hs
    case h_1 _ hpc =>
      cases hs
      rw [Job.Ok, hpc] at hok
      refine h.goOn he (fun heq => by cases heq) hok fun k => ?_
      rw [Job.inFlight, Job.inFlight, hpc]
      rfl
    case h_2 => cases hs

theorem Inv.record (h : Inv b s) (hs : s.step b (.record j) = some t) : Inv b t := by
  obtain ⟨e, he, hs⟩ := onJob_eq_some hs
  have hok := h.intact.jobs e (List.mem_of_getElem? he)
  cases b with
  | linuxAio => cases hs
  | threadAio =>
    split at hs
    case h_1 ctx _ hpc =>
      cases hs
      rw [Job.Ok, hpc] at hok
      refine h.goOn he (fun heq => by cases heq) hok fun k => ?_
      rw [Job.inFlight, Job.inFlight, hpc]
      rfl
    case h_2 => cases hs

theorem Inv.complete (h : Inv b s) (hs : s.step b (.complete j) = some t) : Inv b t := by
  obtain ⟨e, he, hs⟩ := onJob_eq_some hs
  have hok := h.intact.jobs e (List.mem_of_getElem? he)
  have hcompleted : Job.Ok s.ctx { e with pc := .completed } := trivial
  cases b with
  | linuxAio =>
    split at hs
    case h_1 heq _ => cases heq
    case h_2 hpc _ =>
      cases hs
      refine h.setJob he (fun heq => by cases heq) hcompleted _
        ⟨h.refs.1.update e.op none, fun k => refsOk_linux h.refs e.op none k, fun x hx => ?_⟩
      rcases Table.mem_set_cases hx with rfl | ⟨i, -, hi⟩
      · exact .inr rfl
      · exact h.refs.2.2 x (List.mem_of_getElem? hi)
    case h_3 => cases hs
  | threadAio =>
    split at hs
    case h_1 k _ hpc =>
      cases hs
      rw [Job.Ok, hpc] at hok
      have hk : k = e.ctx := Option.some.inj hok
      have hclaims : ∀ q, (s.setJob j { e with pc := .completed }).claimCount q = s.claimCount q :=
        claimCount_setJob he _ rfl
      have hintact : (s.setJob j { e with pc := .completed }).Intact := h.intact.setJob hcompleted
      refine ⟨fun q => (hclaims q).trans (h.claims q), ⟨hintact.calls, hintact.jobs⟩, fun k' => ?_⟩
      have hset := countP_set he { e with pc := .completed } (·.inFlight k')
      have hold := h.refs k'
      have hin : e.inFlight k' = decide (e.ctx = k') := by
        rw [Job.inFlight, hpc]
        exact Bool.and_true _
      have hout : Job.inFlight k' { e with pc := .completed } = false := Bool.and_false _
      have hpos : (e.inFlight k').toNat ≤ s.jobs.countP (·.inFlight k') := by
        rw [hout, Bool.toNat_false] at hset
        omega
      rw [hin, hout, Bool.toNat_false] at hset
      rw [hin] at hpos
      show drop s.ctxRefs k k' =
        s.ctxUsers k' + (s.calls.map _).sum + (s.jobs.set j { e with pc := .completed }).countP _
      rw [drop_apply, hk]
      by_cases hctx : e.ctx = k'
      · rw [decide_eq_true hctx, Bool.toNat_true] at hset hpos
        rw [if_pos hctx.symm]
        omega
      · rw [decide_eq_false hctx, Bool.toNat_false] at hset
        rw [if_neg (Ne.symm hctx)]
        omega
    case h_2 heq _ => cases heq
    case h_3 => cases hs

theorem Inv.users (h : Inv b s) {refs users : CtxId → ℕ}
    (hrefs : ∀ k n, s.ctxRefs k = s.ctxUsers k + n → refs k = users k + n) :
    Inv b { s with ctxRefs := refs, ctxUsers := users } := by
  refine ⟨h.claims, ⟨h.intact.calls, h.intact.jobs⟩, ?_⟩
  have hold := h.refs
  cases b with
  | threadAio =>
    intro k
    have := hrefs k _ ((hold k).trans (Nat.add_assoc ..))
    exact this.trans (Nat.add_assoc ..).symm
  | linuxAio => exact ⟨hold.1, fun k => hrefs k _ (hold.2.1 k), hold.2.2⟩

theorem Inv.step {a : Action} (h : Inv b s) (hcareful : Careful s a) (hs : s.step b a = some t) :
    Inv b t := by
  cases a with
  | submit k args =>
    cases hs
    refine ⟨fun p => ?_, ⟨fun d hd p hp => ?_, h.intact.jobs⟩, ?_⟩
    · have hold := h.claims p
      unfold claimCount at hold ⊢
      rw [List.map_append, List.sum_append]
      exact hold
    · rcases List.mem_append.mp hd with hd | hd
      · exact h.intact.calls d hd p hp
      · rw [List.mem_singleton.mp hd] at hp
        cases hp
    · have hrefs := h.refs
      cases b with
      | threadAio =>
        intro k'
        have hold := hrefs k'
        show s.ctxRefs k' = s.ctxUsers k' + ((s.calls ++ _).map _).sum + s.jobs.countP _
        rw [List.map_append, List.sum_append, List.map_singleton, List.sum_singleton]
        have hzero : Call.refs k' { ctx := k, args } = 0 := ite_self 0
        rw [hzero]
        exact hold
      | linuxAio => exact hrefs
  | next c => exact h.next hs
  | setContext c => exact h.setContext hs
  | queue c n => exact h.queue hs
  | unclaim c => exact h.unclaim hs
  | clearContext c => exact h.clearContext hcareful hs
  | take j => exact h.take hs
  | record j => exact h.record hs
  | complete j => exact h.complete hs
  | incref k =>
    obtain ⟨-, hs⟩ := Option.ite_none_right_eq_some.mp hs
    cases hs
    apply h.users
    intro k' n hk'
    rw [bump_apply, bump_apply]
    omega
  | decref k =>
    obtain ⟨hpos, hs⟩ := Option.ite_none_right_eq_some.mp hs
    cases hs
    apply h.users
    intro k' n hk'
    rw [drop_apply, drop_apply]
    split_ifs with heq
    · rw [heq] at hk' ⊢
      omega
    · exact hk'

theorem inv (h : (system b).ReachableBy Careful s) : Inv b s :=
  h.invariant (fun _ => Init.inv) fun _ _ _ h hcareful hs => h.step hcareful hs

end State

end Caio.FreeThreading
