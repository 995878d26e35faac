import Caio.Uring.Resources

namespace Caio.Uring.Setup

/-- How the kernel lays its rings out: powers of two entries, behind the words. -/
structure Params.Layout (params : Params) (flags : UInt32) (sq cq : RingSize) : Prop where
  sqEntries : params.sqEntries = sq.entries
  cqEntries : params.cqEntries = cq.entries
  sqWords : ∀ off ∈ [params.sqOff.head, params.sqOff.tail, params.sqOff.ringMask,
    params.sqOff.ringEntries], off.toNat ≤ params.sqOff.flags.toNat
  array : flags &&& setupNoSqarray = 0 → params.sqOff.flags.toNat + 4 ≤ params.sqOff.array.toNat
  cqWords : ∀ off ∈ [params.cqOff.head, params.cqOff.tail, params.cqOff.ringMask],
    off.toNat + 4 ≤ params.cqOff.cqes.toNat

namespace AIOContext

def mapFailed : ℕ := 2 ^ 64 - 1

/-- From where on and how many bytes are accessed, at any indices of the two rings. -/
inductive Accesses (x : AIOContext) (sq cq : RingSize) : ℕ → ℕ → Prop
  | word {p : ℕ} (h : p ∈ [x.sqHead, x.sqTail, x.sqRingMask, x.sqRingEntries, x.sqFlags, x.cqHead,
      x.cqTail, x.cqRingMask]) : Accesses x sq cq p 4
  | sqe (i : UInt32) :
    Accesses x sq cq (x.sqes.getD mapFailed + (sq.slot i).toNat * 64) 64
  | array (h : x.noSqarray = false) (i : UInt32) :
    Accesses x sq cq (x.sqArray + (sq.slot i).toNat * 4) 4
  | cqe (i : UInt32) : Accesses x sq cq (x.cqes + (cq.slot i).toNat * 16) 16

/-- All of it lies in mappings that the Context has. -/
def Mapped (x : AIOContext) (sq cq : RingSize) : Prop :=
  ∀ p len, x.Accesses sq cq p len →
    ∃ ptr size, .mapping ptr size ∈ x.dealloc ∧ ptr ≤ p ∧ p + len ≤ ptr + size

variable {self : AIOContext} {k : Answers} {params : Params} {r : Tried} {sq cq : RingSize}
  {flags : UInt32} {fd : Fd}

theorem map_ok {region : Region} {size : ℕ} {ptr : Address} (h : map k region size = .ok ptr) :
    k.mmap region = .ok ptr :=
  (if_neg (map_pos h)).symm.trans h

theorem Rings.regions_ok (hr : Rings k params self r) {ptr : Address}
    (hsqes : k.mmap .sqes = .ok ptr) :
    ∀ region ∈ regions params, ∃ ptr, k.mmap region = .ok ptr := by
  intro region hregion
  unfold regions at hregion
  cases hr with
  | shared hsingle hmap =>
    rw [if_pos hsingle] at hregion
    rcases List.mem_pair.mp hregion with rfl | rfl
    · exact ⟨_, map_ok hmap⟩
    · exact ⟨_, hsqes⟩
  | separate hsingle hsq hcq =>
    rw [if_neg hsingle] at hregion
    rcases List.mem_cons.mp hregion with rfl | hregion
    · exact ⟨_, map_ok hsq⟩
    · rcases List.mem_pair.mp hregion with rfl | rfl
      · exact ⟨_, map_ok hcq⟩
      · exact ⟨_, hsqes⟩

theorem mem_unmap {ptr : Option ℕ} {size p n : ℕ} (h : .mapping p n ∈ unmap ptr size) : p ≠ 0 := by
  unfold unmap at h
  split at h
  · cases h
  · split at h
    · rename_i hne
      cases List.mem_singleton.mp h
      exact hne.1
    · cases h

theorem mem_slots {p n : ℕ} (h : .mapping p n ∈ self.slots) : p ≠ 0 := by
  have hfd (num : Int32) : .mapping p n ∉ closeFd num := by
    unfold closeFd
    split <;> simp
  simp only [slots, List.mem_append, hfd, or_false] at h
  rcases h with (h | h) | h <;> exact mem_unmap h

theorem Mapped.heads (h : self.Mapped sq cq) : self.sqHead ≠ 0 ∧ self.cqHead ≠ 0 := by
  have hne {p : ℕ} (hp : self.Accesses sq cq p 4) : p ≠ 0 := by
    obtain ⟨ptr, size, hmem, hle, -⟩ := h p 4 hp
    have hptr := mem_slots ((dealloc_sublist _).subset hmem)
    exact fun hzero => hptr (Nat.le_zero.mp (hzero ▸ hle))
  exact ⟨hne (.word (by simp)), hne (.word (by simp))⟩

theorem slot_lt (n : RingSize) (i : UInt32) : (n.slot i).toNat < n.entries.toNat := by
  rw [RingSize.slot_toNat, RingSize.entries_toNat]
  exact Nat.mod_lt _ (Nat.two_pow_pos _)

/-- The words and the indirection are in the submission ring, the completions in the other. -/
structure Located (x : AIOContext) (params : Params) (sq cq : ℕ) : Prop where
  sqHead : x.sqHead = sq + params.sqOff.head.toNat
  sqTail : x.sqTail = sq + params.sqOff.tail.toNat
  sqRingMask : x.sqRingMask = sq + params.sqOff.ringMask.toNat
  sqRingEntries : x.sqRingEntries = sq + params.sqOff.ringEntries.toNat
  sqFlags : x.sqFlags = sq + params.sqOff.flags.toNat
  sqArray : x.sqArray = sq + params.sqOff.array.toNat
  cqHead : x.cqHead = cq + params.cqOff.head.toNat
  cqTail : x.cqTail = cq + params.cqOff.tail.toNat
  cqRingMask : x.cqRingMask = cq + params.cqOff.ringMask.toNat
  cqes : x.cqes = cq + params.cqOff.cqes.toNat

theorem flags_lt_sqBytes (hlayout : params.Layout flags sq cq)
    (hflags : self.noSqarray = (flags &&& setupNoSqarray ≠ 0)) :
    params.sqOff.flags.toNat + 4 ≤ self.sqBytes params := by
  unfold sqBytes
  split
  · exact Nat.le_refl _
  · rename_i hno
    rw [hflags, ne_eq, not_not] at hno
    exact Nat.le_add_right_of_le (hlayout.array hno)

theorem Located.mapped {sqPtr cqPtr sqesPtr sqSize cqSize : ℕ}
    (hx : self.Located params sqPtr cqPtr) (hlayout : params.Layout flags sq cq)
    (hflags : self.noSqarray = (flags &&& setupNoSqarray ≠ 0))
    (hsq : .mapping sqPtr sqSize ∈ self.dealloc) (hsqSize : self.sqBytes params ≤ sqSize)
    (hcq : .mapping cqPtr cqSize ∈ self.dealloc) (hcqSize : cqBytes params ≤ cqSize)
    (hsqes : self.sqes = some sqesPtr)
    (hsqesSize : .mapping sqesPtr (params.sqEntries.toNat * 64) ∈ self.dealloc) :
    self.Mapped sq cq := by
  have hwords := Nat.le_trans (flags_lt_sqBytes hlayout hflags) hsqSize
  have hsqWord {off : UInt32} (h : off.toNat ≤ params.sqOff.flags.toNat) :
      ∃ ptr size, .mapping ptr size ∈ self.dealloc ∧ ptr ≤ sqPtr + off.toNat ∧
        sqPtr + off.toNat + 4 ≤ ptr + size :=
    ⟨sqPtr, sqSize, hsq, Nat.le_add_right _ _, by omega⟩
  have hcqWord {off : UInt32} (h : off.toNat + 4 ≤ params.cqOff.cqes.toNat) :
      ∃ ptr size, .mapping ptr size ∈ self.dealloc ∧ ptr ≤ cqPtr + off.toNat ∧
        cqPtr + off.toNat + 4 ≤ ptr + size := by
    unfold cqBytes at hcqSize
    exact ⟨cqPtr, cqSize, hcq, Nat.le_add_right _ _, by omega⟩
  have hsqWords := hlayout.sqWords
  have hcqWords := hlayout.cqWords
  simp only [List.forall_mem_cons, List.not_mem_nil, false_imp_iff, implies_true, and_true]
    at hsqWords hcqWords
  obtain ⟨hhead, htail, hmask, hentries⟩ := hsqWords
  obtain ⟨hcqHead, hcqTail, hcqMask⟩ := hcqWords
  intro p len hp
  cases hp with
  | word hp =>
    simp only [List.mem_cons, List.not_mem_nil, or_false] at hp
    rcases hp with rfl | rfl | rfl | rfl | rfl | rfl | rfl | rfl
    · exact hx.sqHead ▸ hsqWord hhead
    · exact hx.sqTail ▸ hsqWord htail
    · exact hx.sqRingMask ▸ hsqWord hmask
    · exact hx.sqRingEntries ▸ hsqWord hentries
    · exact hx.sqFlags ▸ hsqWord (Nat.le_refl _)
    · exact hx.cqHead ▸ hcqWord hcqHead
    · exact hx.cqTail ▸ hcqWord hcqTail
    · exact hx.cqRingMask ▸ hcqWord hcqMask
  | sqe i =>
    have hslot := slot_lt sq i
    rw [← hlayout.sqEntries] at hslot
    rw [hsqes, Option.getD_some]
    exact ⟨sqesPtr, _, hsqesSize, Nat.le_add_right _ _, by omega⟩
  | array hno i =>
    have hslot := slot_lt sq i
    rw [← hlayout.sqEntries] at hslot
    rw [sqBytes, hno, if_neg Bool.false_ne_true] at hsqSize
    rw [hx.sqArray]
    exact ⟨sqPtr, sqSize, hsq, by omega, by omega⟩
  | cqe i =>
    have hslot := slot_lt cq i
    rw [← hlayout.cqEntries] at hslot
    unfold cqBytes at hcqSize
    rw [hx.cqes]
    exact ⟨cqPtr, cqSize, hcq, by omega, by omega⟩

theorem Rings.mapped {x : AIOContext} (hr : Rings k params x r) {ptr : Address}
    (hsqes : map k .sqes (params.sqEntries.toNat * 64) = .ok ptr)
    (hself : self = (locateSq params { r.self with
      sqesSize := params.sqEntries.toNat * 64, sqes := some ptr.num }).locateCq params)
    (hvalid : self.Valid) (hlayout : params.Layout flags sq cq)
    (hflags : x.noSqarray = (flags &&& setupNoSqarray ≠ 0)) : self.Mapped sq cq := by
  have hslots : self.slots = slots { r.self with
      sqesSize := params.sqEntries.toNat * 64, sqes := some ptr.num } := by
    rw [hself]
    rfl
  have hsqesMem : .mapping ptr.num (params.sqEntries.toNat * 64) ∈ self.dealloc := by
    rw [hvalid.dealloc, hslots]
    simp [slots, unmap_address _ (map_pos hsqes)]
  cases hr with
  | @shared rings hsingle hmap =>
    have hmem : .mapping rings.num (max (x.sqBytes params) (cqBytes params)) ∈ self.dealloc := by
      rw [hvalid.dealloc, hslots]
      simp [slots, unmap_address _ (map_pos hmap)]
    subst hself
    refine Located.mapped (?_ : Located _ params rings.num rings.num) hlayout hflags hmem
      (Nat.le_max_left ..) hmem (Nat.le_max_right ..) rfl hsqesMem
    exact ⟨rfl, rfl, rfl, rfl, rfl, rfl, rfl, rfl, rfl, rfl⟩
  | @separate sqPtr cqPtr hsingle hsq hcq =>
    have hsqMem : .mapping sqPtr.num (x.sqBytes params) ∈ self.dealloc := by
      rw [hvalid.dealloc, hslots]
      simp [slots, unmap_address _ (map_pos hsq)]
    have hcqMem : .mapping cqPtr.num (cqBytes params) ∈ self.dealloc := by
      rw [hvalid.dealloc, hslots]
      simp [slots, unmap_address _ (map_pos hcq)]
    subst hself
    refine Located.mapped (?_ : Located _ params sqPtr.num cqPtr.num) hlayout hflags hsqMem
      (Nat.le_refl _) hcqMem (Nat.le_refl _) rfl hsqesMem
    exact ⟨rfl, rfl, rfl, rfl, rfl, rfl, rfl, rfl, rfl, rfl⟩

theorem entries_pos (n : RingSize) : 0 < n.entries.toNat :=
  Nat.lt_of_le_of_lt (Nat.zero_le _) (slot_lt n 0)

theorem init_ring {w : Bool} {eventfd : Fd} (hargs : k.args = .ok w)
    (heventfd : k.eventfd = .ok eventfd)
    (hsetup : setupRing (k.setup ((self.parse k).self.maxRequests + 1)) (flagTable w) 0 =
      .ok (fd, params, flags)) :
    (self.init k).self = (mapRing k fd params flags
      { (self.parse k).self with eventfdFd := eventfd.num }).self := by
  have hparse : (self.parse k).err = none := by
    unfold parse
    rw [hargs]
  have hopen (x : AIOContext) : x.openEventfd k =
      ⟨{ x with eventfdFd := eventfd.num }, [.fd eventfd.num], none⟩ := by
    unfold openEventfd
    rw [heventfd]
  have hwant : k.args.toOption.getD false = w := by rw [hargs]; rfl
  rw [← hwant] at hsetup
  have hring : initRing k { (self.parse k).self with eventfdFd := eventfd.num } = _ :=
    initRing_of_ok hsetup
  unfold init
  rw [Attempt.andThen_of_ok hparse, hopen, Attempt.andThen_of_ok rfl]
  dsimp only
  rw [hring, register_self]

/-- After `io_uring_setup` has succeeded in the first `__init__`, the guard of `submit` and of
`flush` lets calls pass, and what they and `uring_drain_cq` access lies in mappings of the Context
if and only if no `mmap` has failed. -/
theorem init_mapped_iff {w : Bool} {eventfd : Fd} (hargs : k.args = .ok w)
    (heventfd : k.eventfd = .ok eventfd)
    (hsetup : setupRing (k.setup ((new.parse k).self.maxRequests + 1)) (flagTable w) 0 =
      .ok (fd, params, flags))
    (hlayout : params.Layout flags sq cq)
    (hnodup : ((new.init k).acquired.map Resource.handle).Nodup) :
    0 ≤ (new.init k).self.uringFd ∧
      ((new.init k).self.Mapped sq cq ↔
        ∀ region ∈ regions params, ∃ ptr, k.mmap region = .ok ptr) := by
  have hvalid : (new.init k).self.Valid := init_valid k (fun _ => .inl rfl) hnodup
  rw [init_ring hargs heventfd hsetup] at hvalid ⊢
  have hheads : (new.parse k).self.sqHead = 0 ∧ (new.parse k).self.cqHead = 0 := by
    unfold parse
    rw [hargs]
    exact ⟨rfl, rfl⟩
  generalize hx : { (new.parse k).self with eventfdFd := eventfd.num } = x at hvalid ⊢
  have hxheads : x.sqHead = 0 ∧ x.cqHead = 0 := hx ▸ hheads
  have hflags (x : AIOContext) :
      (x.takeRing fd flags).self.noSqarray = (flags &&& setupNoSqarray ≠ 0) :=
    decide_eq_true_eq
  rcases mapRing_cases k fd params flags x with hr | ⟨r, ptr, hr, hsqes, heq⟩
  · refine ⟨hr.uringFd ▸ fd.nonneg, fun h => ?_, fun hall => ?_⟩
    · -- a ring that was not set starts at the null pointer
      rcases hr.heads with heq | heq
      · exact absurd (heq.trans hxheads.1) h.heads.1
      · exact absurd (heq.trans hxheads.2) h.heads.2
    -- the sizes are positive, so a mapping that has failed was refused by the kernel
    · have hsqPos := Nat.lt_of_lt_of_le (Nat.succ_pos _) (flags_lt_sqBytes hlayout (hflags x))
      have hcqPos : 0 < cqBytes params := by
        rw [cqBytes, hlayout.cqEntries]
        exact Nat.add_pos_right _ (Nat.mul_pos (entries_pos cq) (by decide))
      obtain ⟨region, hregion, errno, herr⟩ :=
        hr.refused hsqPos hcqPos (hlayout.sqEntries ▸ entries_pos sq)
      obtain ⟨ptr, hok⟩ := hall region hregion
      cases herr.symm.trans hok
  · have huringFd : r.self.uringFd = fd.num := by cases hr <;> rfl
    rw [heq] at hvalid ⊢
    exact ⟨huringFd ▸ fd.nonneg, fun _ => hr.regions_ok (map_ok hsqes),
      fun _ => hr.mapped hsqes rfl hvalid hlayout (hflags x)⟩

def answersRefused : Answers :=
  { answers with mmap := fun region => if region = .sqes then .error 12 else answers.mmap region }

theorem params64_layout (flags : UInt32) :
    params64.Layout flags ⟨6, by decide⟩ ⟨7, by decide⟩ where
  sqEntries := rfl
  cqEntries := rfl
  sqWords := by
    simp only [List.forall_mem_cons, List.not_mem_nil, false_imp_iff, implies_true, and_true]
    decide
  array _ := by decide
  cqWords := by
    simp only [List.forall_mem_cons, List.not_mem_nil, false_imp_iff, implies_true, and_true]
    decide

theorem init_mapped_iff_refused :
    (new.init answers).self.Mapped ⟨6, by decide⟩ ⟨7, by decide⟩ ∧
      0 ≤ (new.init answersRefused).self.uringFd ∧
      ¬ (new.init answersRefused).self.Mapped ⟨6, by decide⟩ ⟨7, by decide⟩ := by
  have hgranted := init_mapped_iff (k := answers) rfl rfl rfl (params64_layout _) (by decide)
  have hrefused := init_mapped_iff (k := answersRefused) rfl rfl rfl (params64_layout _) (by decide)
  refine ⟨hgranted.2.mpr fun region _ => ?_, hrefused.1, fun h => ?_⟩
  · cases region <;> exact ⟨_, rfl⟩
  · obtain ⟨ptr, hptr⟩ := hrefused.2.mp h .sqes (by decide)
    cases hptr

end AIOContext

end Caio.Uring.Setup
