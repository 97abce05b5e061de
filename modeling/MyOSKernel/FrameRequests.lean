import MyOSKernel.InitSafety
import MyOSKernel.MapPages

/-! What `NULL` means. A request answers `NULL` when no frame is free, but also when the frame it
locks begins at physical address zero, and when the early exit trusts a counter that no longer counts
the array. Nothing is asked of the initialization: the array may lie anywhere, and the loop that locks
its frames may run past them. -/

namespace MyOSKernel.PhysicalMemory

/-- `s'` is `s` with frame `i` granted: its state byte and one unit of two counters have changed. -/
structure Granted (s s' : Kernel) (i : Nat) : Prop where
  state : ∀ j < s.pmem.frames,
    getFrameState s' j = if j = i then FrameState.locked.code else getFrameState s j
  byte : ∀ a, a ≠ s.pmem.statePtr i → s'.mem.byte a = s.mem.byte a
  free : s'.pmem.freeFrames + 1 = s.pmem.freeFrames
  locked : s'.pmem.lockedFrames = s.pmem.lockedFrames + 1
  reserved : s'.pmem.reservedFrames = s.pmem.reservedFrames
  array : s'.pmem.array = s.pmem.array
  frames : s'.pmem.frames = s.pmem.frames
  initialized : s'.pmem.initialized = s.pmem.initialized

/-- `NULL` means exhausted, and only that: `NULL` is returned when no frame is free, with nothing
changed, and otherwise the first free frame is granted. -/
structure RequestContract (s : Kernel) : Prop where
  null_iff : (pmemRequestFrame s).1 = 0 ↔
    ∀ i < s.pmem.frames, getFrameState s i ≠ FrameState.free.code
  exhausted : (∀ i < s.pmem.frames, getFrameState s i ≠ FrameState.free.code) →
    (pmemRequestFrame s).2 = s
  granted : ∀ i < s.pmem.frames, getFrameState s i = FrameState.free.code →
    (∀ j < i, getFrameState s j ≠ FrameState.free.code) →
    (pmemRequestFrame s).1 = getFrameAddr s i ∧ Granted s (pmemRequestFrame s).2 i

/-- What any initialization leaves of the accounts: the locked frames are those of the array and
`extra` more, locked beyond it. -/
structure LockedCount (s : Kernel) (extra : Nat) : Prop where
  frames_le : s.pmem.frames ≤ 2 ^ 52
  free_lt : s.pmem.freeFrames < 2 ^ 64
  locked : s.pmem.lockedFrames =
    tally s.pmem.frames (getFrameState s) FrameState.locked.code + extra

theorem freeFrames_moveCount_lt {pm : PhysicalMemory} (source target : FrameState)
    (h : pm.freeFrames < 2 ^ 64) : (pm.moveCount source target).freeFrames < 2 ^ 64 := by
  have hcount : (pm.moveCount source target).freeFrames =
      (pm.moveCount source target).counter .free := rfl
  rw [hcount]
  simp only [moveCount, counter_setCounter]
  by_cases htarget : FrameState.free = target
  · rw [if_pos htarget]
    exact Nat.mod_lt _ (Nat.two_pow_pos 64)
  · rw [if_neg htarget]
    by_cases hsource : FrameState.free = source
    · rw [if_pos hsource]
      exact Nat.mod_lt _ (Nat.two_pow_pos 64)
    · rw [if_neg hsource]
      exact h

/-- The locked frames after a move, in numbers that do not wrap. -/
theorem lockedFrames_moveCount (pm : PhysicalMemory) {source target : FrameState}
    (hne : source ≠ target) (hpos : source = .locked → 0 < pm.lockedFrames)
    (hlt : pm.lockedFrames + 1 < 2 ^ 64) :
    (pm.moveCount source target).lockedFrames + (if FrameState.locked = source then 1 else 0) =
      pm.lockedFrames + (if FrameState.locked = target then 1 else 0) := by
  have hcount : (pm.moveCount source target).lockedFrames =
      (pm.moveCount source target).counter .locked := rfl
  rw [hcount]
  simp only [moveCount, counter_setCounter]
  by_cases hsource : FrameState.locked = source
  · subst hsource
    have := hpos rfl
    simp only [if_neg hne, if_true, counter]
    omega
  · by_cases htarget : FrameState.locked = target
    · subst htarget
      simp only [if_neg hsource, if_true, counter]
      omega
    · simp only [if_neg hsource, if_neg htarget, counter]

namespace LockedCount
variable {s s' : Kernel} {source target : FrameState} {extra i : Nat}

theorem lockedFrames_le (h : LockedCount s extra) : s.pmem.lockedFrames ≤ 2 ^ 52 + extra := by
  have hle : tally s.pmem.frames (getFrameState s) FrameState.locked.code ≤ s.pmem.frames :=
    (Finset.card_filter_le _ _).trans_eq (Finset.card_range _)
  have := h.frames_le
  rw [h.locked]
  omega

theorem moved (h : LockedCount s extra) (hextra : extra ≤ 2 ^ 52) (hne : source ≠ target)
    (hi : i < s.pmem.frames) (hm : Moved source target s s' i) : LockedCount s' extra := by
  have hle := h.lockedFrames_le
  have htally := hm.tally hi .locked
  have hcount : s'.pmem.lockedFrames = (s.pmem.moveCount source target).lockedFrames :=
    hm.count .locked
  have hpos : source = .locked → 0 < s.pmem.lockedFrames := by
    rintro rfl
    have := tally_pos hi hm.was
    rw [h.locked]
    omega
  have hmove := lockedFrames_moveCount _ hne hpos (by omega)
  have hlocked := h.locked
  refine ⟨hm.frames ▸ h.frames_le, ?_, ?_⟩
  · have hfree : s'.pmem.freeFrames = (s.pmem.moveCount source target).freeFrames := hm.count .free
    rw [hfree]
    exact freeFrames_moveCount_lt _ _ h.free_lt
  · rw [hm.frames, hcount]
    omega

theorem moveFrame (h : LockedCount s extra) (hextra : extra ≤ 2 ^ 52) (hne : source ≠ target)
    (hi : i < s.pmem.frames) : LockedCount (moveFrame source target s i) extra := by
  by_cases hstate : getFrameState s i = source.code
  · have hframes := h.frames_le
    exact h.moved hextra hne hi (moved_moveFrame_of_le (by omega) hi hstate)
  · rw [moveFrame_of_ne hstate]
    exact ⟨h.frames_le, h.free_lt, h.locked⟩

/-- A lock under any index: when it changes the state byte of no frame it is counted as extra. -/
theorem lockFrame (h : LockedCount s extra) (hextra : extra ≤ 2 ^ 52) (i : Nat) :
    ∃ extra' ≤ extra + 1, LockedCount (lockFrame s i) extra' := by
  by_cases hstate : getFrameState s i = FrameState.free.code
  · have hframes : (PhysicalMemory.lockFrame s i).pmem.frames = s.pmem.frames := moveFrame_frames
    have hle := h.lockedFrames_le
    have hcount := lockedFrames_moveCount s.pmem.toPhysicalMemory
      (show FrameState.free ≠ .locked by decide) (fun hc => absurd hc (by decide)) (by omega)
    rw [if_neg (by decide), if_pos rfl, Nat.add_zero] at hcount
    have hpm : (PhysicalMemory.lockFrame s i).pmem.toPhysicalMemory =
        s.pmem.moveCount .free .locked := by
      rw [PhysicalMemory.lockFrame, moveFrame_of_eq hstate]
    have hlt : (PhysicalMemory.lockFrame s i).pmem.freeFrames < 2 ^ 64 := by
      rw [hpm]
      exact freeFrames_moveCount_lt _ _ h.free_lt
    have hcount' : (PhysicalMemory.lockFrame s i).pmem.lockedFrames = s.pmem.lockedFrames + 1 := by
      rw [hpm]
      exact hcount
    have hlocked := h.locked
    by_cases hbyte : ∃ j < s.pmem.frames, s.pmem.statePtr j = s.pmem.statePtr i
    · -- the index goes round to a frame of the array
      obtain ⟨j, hj, heq⟩ := hbyte
      have hfree : getFrameState s j = FrameState.free.code := by
        rw [getFrameState, heq]
        exact hstate
      refine ⟨extra, by omega, hframes ▸ h.frames_le, hlt, ?_⟩
      have htally : tally s.pmem.frames (getFrameState (PhysicalMemory.lockFrame s i))
          FrameState.locked.code = tally s.pmem.frames
            (Function.update (getFrameState s) j FrameState.locked.code) FrameState.locked.code := by
        apply tally_congr
        intro k hk
        have hle := h.frames_le
        rw [PhysicalMemory.lockFrame, getFrameState_moveFrame_byte, Function.update_apply, ← heq]
        by_cases hkj : k = j
        · rw [if_pos hkj, if_pos ⟨by rw [hkj], by rw [hkj, hfree]⟩]
        · rw [if_neg hkj, if_neg fun hc => hkj (statePtr_inj _ (by omega) (by omega) hc.1)]
      have hupdate := tally_update hj (f := getFrameState s) (y := FrameState.locked.code)
        (z := FrameState.locked.code)
      rw [hfree, if_neg (by decide), if_pos rfl] at hupdate
      rw [hcount', hframes, htally]
      omega
    · refine ⟨extra + 1, le_rfl, hframes ▸ h.frames_le, hlt, ?_⟩
      have htally : tally s.pmem.frames (getFrameState (PhysicalMemory.lockFrame s i))
          FrameState.locked.code = tally s.pmem.frames (getFrameState s) FrameState.locked.code := by
        apply tally_congr
        intro k hk
        rw [PhysicalMemory.lockFrame, getFrameState_moveFrame_byte, if_neg]
        exact fun hc => hbyte ⟨k, hk, hc.1⟩
      rw [hcount', hframes, htally]
      omega
  · rw [PhysicalMemory.lockFrame, moveFrame_of_ne hstate]
    exact ⟨extra, by omega, h.frames_le, h.free_lt, h.locked⟩

end LockedCount

/-- No frame is locked and none is counted as locked. -/
structure NoneLocked (s : Kernel) : Prop where
  frames_le : s.pmem.frames ≤ 2 ^ 52
  free_lt : s.pmem.freeFrames < 2 ^ 64
  locked : s.pmem.lockedFrames = 0
  state : ∀ i < s.pmem.frames, getFrameState s i ≠ FrameState.locked.code

namespace NoneLocked
variable {s : Kernel}

theorem lockedCount (h : NoneLocked s) : LockedCount s 0 :=
  ⟨h.frames_le, h.free_lt, h.locked.trans (tally_eq_zero_iff.mpr h.state).symm⟩

theorem setFrameAddr (h : NoneLocked s) (i addr : Nat) : NoneLocked (setFrameAddr s i addr) := by
  refine ⟨h.frames_le, h.free_lt, h.locked, fun j hj => ?_⟩
  have hstate : getFrameState (PhysicalMemory.setFrameAddr s i addr) j = getFrameState s j :=
    Memory.storeLE_byte_of_notMem _ (statePtr_notMem_frameAddr _ j i)
  rw [hstate]
  exact h.state j hj

theorem reserveFrame (h : NoneLocked s) (i : Nat) : NoneLocked (reserveFrame s i) := by
  have hframes : (PhysicalMemory.reserveFrame s i).pmem.frames = s.pmem.frames := moveFrame_frames
  have hstate : ∀ j < s.pmem.frames,
      getFrameState (PhysicalMemory.reserveFrame s i) j ≠ FrameState.locked.code := by
    intro j hj
    rw [PhysicalMemory.reserveFrame, getFrameState_moveFrame_byte]
    split_ifs
    · decide
    · exact h.state j hj
  by_cases hfree : getFrameState s i = FrameState.free.code
  · have hpm : (PhysicalMemory.reserveFrame s i).pmem.toPhysicalMemory =
        s.pmem.moveCount .free .reserved := by
      rw [PhysicalMemory.reserveFrame, moveFrame_of_eq hfree]
    refine ⟨hframes ▸ h.frames_le, ?_, ?_, hframes ▸ hstate⟩
    · rw [hpm]
      exact freeFrames_moveCount_lt _ _ h.free_lt
    · have hlocked := h.locked
      have hcount := lockedFrames_moveCount s.pmem.toPhysicalMemory
        (show FrameState.free ≠ .reserved by decide) (fun hc => absurd hc (by decide)) (by omega)
      rw [if_neg (by decide), if_neg (by decide)] at hcount
      rw [hpm]
      omega
  · rw [PhysicalMemory.reserveFrame, moveFrame_of_ne hfree]
    exact ⟨h.frames_le, h.free_lt, h.locked, h.state⟩

theorem fillPage {fill : FillState} (h : NoneLocked fill.kernel) (desc : EfiMemoryDescriptor)
    (n : Nat) : NoneLocked (fillPage desc n fill).kernel := by
  unfold PhysicalMemory.fillPage
  dsimp only
  split_ifs
  · exact (h.setFrameAddr _ _).reserveFrame _
  · exact h.setFrameAddr _ _

theorem fillFrames (h : NoneLocked s) (memory : MemoryData) (buffer : Nat) :
    NoneLocked (fillFrames memory buffer s).kernel := by
  apply fillFrames_rule memory buffer s (fun _ fill => NoneLocked fill.kernel)
    (fun _ _ fill => NoneLocked fill.kernel) h
  · intro i _ fill hfill
    split_ifs
    · exact hfill
    · exact hfill
  · exact fun i _ n _ fill hfill => hfill.fillPage _ n
  · exact fun i _ fill hfill => hfill

/-- The last loop locks at most one frame beyond the array a round. -/
theorem lockArrayFrames (h : NoneLocked s) (start : Nat) :
    ∃ extra ≤ 2 ^ 52, LockedCount (lockArrayFrames start s) extra := by
  have hframes := h.frames_le
  have hsize : getFramesArraySz s.pmem.toPhysicalMemory / pageSz ≤ 2 ^ 52 := by
    unfold getFramesArraySz sizeofPageFrame pageSz
    omega
  have hloop : ∃ extra ≤ getFramesArraySz s.pmem.toPhysicalMemory / pageSz,
      LockedCount (PhysicalMemory.lockArrayFrames start s) extra := by
    unfold PhysicalMemory.lockArrayFrames
    apply fold_invariant fun count t => ∃ extra ≤ count, LockedCount t extra
    · exact ⟨0, le_rfl, h.lockedCount⟩
    · intro i hi t ht
      obtain ⟨extra, hle, hcount⟩ := ht
      obtain ⟨extra', hle', hcount'⟩ := hcount.lockFrame (by omega) ((start + i) % 2 ^ 64)
      exact ⟨extra', by omega, hcount'⟩
  obtain ⟨extra, hle, hcount⟩ := hloop
  exact ⟨extra, hle.trans hsize, hcount⟩

end NoneLocked

theorem noneLocked_clearedState {memory : MemoryData} (hlayout : PageLayout memory) (buffer : Nat)
    (bytes : Nat → UInt8) : NoneLocked (clearedState memory buffer bytes) := by
  have htotal := hlayout.totalPages_le
  have hmod : totalPages memory % 2 ^ 64 = totalPages memory := Nat.mod_eq_of_lt (by omega)
  have hpm : (clearedState memory buffer bytes).pmem.toPhysicalMemory =
      (setUpArray buffer (totalPages memory % 2 ^ 64) (bootState bytes)).pmem.toPhysicalMemory :=
    clearFrames_pm _
  have hframes : (clearedState memory buffer bytes).pmem.frames = totalPages memory := by
    rw [clearedState_frames, hmod]
  refine ⟨hframes ▸ htotal, ?_, ?_, ?_⟩
  · rw [hpm]
    show totalPages memory % 2 ^ 64 < 2 ^ 64
    omega
  · rw [hpm]
    rfl
  · intro i hi
    rw [clearedState_frames] at hi
    rw [clearedState, getFrameState_clearFrames _ hi]
    decide

/-- Any initialization leaves the locked frames counted. -/
theorem lockedCount_init {kernel : KernelData} {buffer : Nat} {bytes : Nat → UInt8} {s : Kernel}
    (hlayout : PageLayout kernel.memory) (hinit : init kernel buffer (bootState bytes) = some s) :
    ∃ extra ≤ 2 ^ 52, LockedCount s extra := by
  obtain ⟨_, fill, rfl, rfl⟩ := init_eq_some hinit
  have hfill := (noneLocked_clearedState hlayout buffer bytes).fillFrames kernel.memory buffer
  obtain ⟨extra, hle, hcount⟩ := (hfill.reserveFrame _).lockArrayFrames _
  exact ⟨extra, hle, hcount.frames_le, hcount.free_lt, hcount.locked⟩

namespace LockedCount
variable {s : Kernel} {extra : Nat}

/-- What a request does where the early exit does not stop it. -/
theorem request_eq (h : LockedCount s extra) {i : Nat} (hfirst : firstFree s = some i)
    (hfree : s.pmem.freeFrames ≠ 0) :
    (pmemRequestFrame s).1 = getFrameAddr s i ∧ Moved .free .locked s (pmemRequestFrame s).2 i := by
  obtain ⟨hi, hstate, _⟩ := firstFree_eq_some_iff.mp hfirst
  have hframes := h.frames_le
  rw [pmemRequestFrame, if_neg hfree, hfirst]
  exact ⟨getFrameAddr_moveFrame _ _ _ _ _, moved_moveFrame_of_le (by omega) hi hstate⟩

theorem run (h : LockedCount s extra) (hextra : extra ≤ 2 ^ 52) {op : FrameOp}
    (hop : op.InRange s.pmem.frames) :
    LockedCount (op.run s) extra ∧ (op.run s).pmem.frames = s.pmem.frames := by
  cases op with
  | lock index => exact ⟨h.moveFrame hextra (by decide) hop, moveFrame_frames⟩
  | free index => exact ⟨h.moveFrame hextra (by decide) hop, moveFrame_frames⟩
  | reserve index => exact ⟨h.moveFrame hextra (by decide) hop, moveFrame_frames⟩
  | unreserve index => exact ⟨h.moveFrame hextra (by decide) hop, moveFrame_frames⟩
  | request =>
      show LockedCount (pmemRequestFrame s).2 extra ∧ (pmemRequestFrame s).2.pmem.frames = _
      by_cases hfree : s.pmem.freeFrames = 0
      · rw [pmemRequestFrame, if_pos hfree]
        exact ⟨h, rfl⟩
      · cases hfirst : firstFree s with
        | none =>
            rw [pmemRequestFrame, if_neg hfree, hfirst]
            exact ⟨h, rfl⟩
        | some i =>
            have hm := (h.request_eq hfirst hfree).2
            exact ⟨h.moved hextra (by decide) (firstFree_eq_some_iff.mp hfirst).1 hm, hm.frames⟩

theorem runFrameOps (h : LockedCount s extra) (hextra : extra ≤ 2 ^ 52) {ops : List FrameOp}
    (hops : ∀ op ∈ ops, op.InRange s.pmem.frames) : LockedCount (runFrameOps s ops) extra := by
  induction ops generalizing s with
  | nil => exact h
  | cons op ops ih =>
      obtain ⟨hstep, hframes⟩ := h.run hextra (hops op List.mem_cons_self)
      refine ih hstep fun op' hop' => ?_
      rw [hframes]
      exact hops op' (List.mem_cons_of_mem _ hop')

/-- Where the contract holds. -/
theorem requestContract_iff (h : LockedCount s extra) (hextra : extra ≤ 2 ^ 52) :
    RequestContract s ↔
      ∀ i, firstFree s = some i → s.pmem.freeFrames ≠ 0 ∧ getFrameAddr s i ≠ 0 := by
  constructor
  · intro hcontract i hfirst
    obtain ⟨hi, hstate, hbefore⟩ := firstFree_eq_some_iff.mp hfirst
    have hnonnull : (pmemRequestFrame s).1 ≠ 0 := fun hnull =>
      hcontract.null_iff.mp hnull i hi hstate
    constructor
    · intro hzero
      apply hnonnull
      rw [pmemRequestFrame, if_pos hzero]
    · rw [← (hcontract.granted i hi hstate hbefore).1]
      exact hnonnull
  · intro hfirst
    cases hscan : firstFree s with
    | none =>
        have hnone := firstFree_eq_none_iff.mp hscan
        have hrequest : pmemRequestFrame s = (0, s) := by
          rw [pmemRequestFrame, hscan, ite_self]
        refine ⟨?_, ?_, ?_⟩
        · rw [hrequest]
          exact iff_of_true rfl hnone
        · intro _
          rw [hrequest]
        · exact fun i hi hstate => absurd hstate (hnone i hi)
    | some i =>
        obtain ⟨hi, hstate, hbefore⟩ := firstFree_eq_some_iff.mp hscan
        obtain ⟨hfree, haddr⟩ := hfirst i hscan
        obtain ⟨heq, hm⟩ := h.request_eq hscan hfree
        have hle := h.lockedFrames_le
        have hlt := h.free_lt
        refine ⟨?_, ?_, ?_⟩
        · rw [heq]
          exact iff_of_false haddr fun hnone => hnone i hi hstate
        · exact fun hnone => absurd hstate (hnone i hi)
        · intro j hj hstate' hbefore'
          -- the first free frame is unique
          have hji : j = i := by
            rcases lt_trichotomy j i with hlt | heq | hgt
            · exact absurd hstate' (hbefore j hlt)
            · exact heq
            · exact absurd hstate (hbefore' i hgt)
          subst hji
          have hpos : 0 < s.pmem.counter .free := Nat.pos_of_ne_zero hfree
          have hlocked : s.pmem.counter .locked + 1 < 2 ^ 64 :=
            show s.pmem.lockedFrames + 1 < 2 ^ 64 by omega
          have hcount : ∀ k, (pmemRequestFrame s).2.pmem.counter k +
              (if k = FrameState.free then 1 else 0) =
              s.pmem.counter k + (if k = FrameState.locked then 1 else 0) := by
            intro k
            rw [hm.count]
            exact counter_moveCount (by decide) hpos hlt hlocked k
          exact ⟨heq, hm.state, hm.byte, hcount .free, hcount .locked, hcount .reserved, hm.array,
            hm.frames, hm.initialized⟩

end LockedCount

/-- **`NULL` means exhausted, unless a frame is at address zero or the counter is off.** In every state
reached by in-range operations after an initialization from a map of aligned disjoint descriptors, a
request meets its contract exactly when the first free frame, if any, is not at physical address zero
and the counter of free frames is not zero beside it. -/
theorem null_means_exhausted_iff (kernel : KernelData) (bytes : Nat → UInt8) (s₀ : Kernel)
    (hlayout : PageLayout kernel.memory)
    (hinit : initPhysicalMemory kernel (bootState bytes) = some s₀) (ops : List FrameOp)
    (hops : ∀ op ∈ ops, op.InRange s₀.pmem.frames) :
    let s := runFrameOps s₀ ops
    RequestContract s ↔
      ∀ i, firstFree s = some i → s.pmem.freeFrames ≠ 0 ∧ getFrameAddr s i ≠ 0 := by
  obtain ⟨extra, hextra, hcount⟩ := lockedCount_init hlayout hinit
  exact (hcount.runFrameOps hextra hops).requestContract_iff hextra

/-- A kernel on five pages in two conventional descriptors; the stack lies in the second. -/
def lowMemoryKernel : KernelData where
  stack := 0x3800
  framebuffer := { baseAddress := 0, bufferSize := 0 }
  memory := descriptorMap [⟨7, 0, 1⟩, ⟨7, 0x1000, 4⟩]
  hpetAddress := 0
  hpetCapReg := 0

theorem pageLayout_lowMemory : PageLayout lowMemoryKernel.memory := by
  apply PageLayout.of_apart
  · decide +kernel
  · decide +kernel
  · decide +kernel

/-- The machine after its initialization. -/
def lowMemoryMachine : Kernel :=
  (initPhysicalMemory lowMemoryKernel (bootState fun _ => 0xff)).get (by decide +kernel)

theorem initPhysicalMemory_lowMemory :
    initPhysicalMemory lowMemoryKernel (bootState fun _ => 0xff) = some lowMemoryMachine :=
  (Option.some_get (x := initPhysicalMemory lowMemoryKernel (bootState fun _ => 0xff)) _).symm

/-- After a lock and a reservation there, a request meets its contract as far as the two conditions go. -/
theorem null_means_exhausted_iff_lowMemory :
    RequestContract (runFrameOps lowMemoryMachine [.lock 0, .reserve 1]) ↔
      ∀ i, firstFree (runFrameOps lowMemoryMachine [.lock 0, .reserve 1]) = some i →
        (runFrameOps lowMemoryMachine [.lock 0, .reserve 1]).pmem.freeFrames ≠ 0 ∧
          getFrameAddr (runFrameOps lowMemoryMachine [.lock 0, .reserve 1]) i ≠ 0 :=
  null_means_exhausted_iff lowMemoryKernel (fun _ => 0xff) lowMemoryMachine pageLayout_lowMemory
    initPhysicalMemory_lowMemory [.lock 0, .reserve 1] (by decide +kernel)

/-- The first request there answers `NULL`, with every frame but the stack's free. -/
theorem null_not_exhausted : ¬∀ (kernel : KernelData) (bytes : Nat → UInt8) (s₀ : Kernel),
    PageLayout kernel.memory → initPhysicalMemory kernel (bootState bytes) = some s₀ →
    ∀ ops : List FrameOp, (∀ op ∈ ops, op.InRange s₀.pmem.frames) →
      RequestContract (runFrameOps s₀ ops) := by
  intro h
  have hcontract := h lowMemoryKernel (fun _ => 0xff) lowMemoryMachine pageLayout_lowMemory
    initPhysicalMemory_lowMemory [] (fun op hop => absurd hop List.not_mem_nil)
  have hnull : (pmemRequestFrame lowMemoryMachine).1 = 0 := by decide +kernel
  have hfree : getFrameState lowMemoryMachine 0 = FrameState.free.code := by decide +kernel
  exact hcontract.null_iff.mp hnull 0 (by decide +kernel) hfree

end MyOSKernel.PhysicalMemory
