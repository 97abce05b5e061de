import MyOSKernel.FrameArray

/-! The three counters of the allocator always equal the tallies of the array. The invariant is kept
by every state change in range and by every request, from any array in which all frames are free. -/

namespace MyOSKernel.PhysicalMemory

theorem FrameState.code_inj {k l : FrameState} (h : k.code = l.code) : k = l := by
  cases k <;> cases l <;> first | rfl | exact absurd h (by decide)

/-- A move takes one from the tally of its source state and adds one to that of its target. -/
theorem Moved.tally {s s' : Kernel} {source target : FrameState} {i : Nat} (hi : i < s.pmem.frames)
    (h : Moved source target s s' i) (k : FrameState) :
    tally s.pmem.frames (getFrameState s') k.code + (if k = source then 1 else 0) =
      tally s.pmem.frames (getFrameState s) k.code + (if k = target then 1 else 0) := by
  have hafter : MyOSKernel.tally s.pmem.frames (getFrameState s') k.code =
      MyOSKernel.tally s.pmem.frames (Function.update (getFrameState s) i target.code) k.code := by
    apply tally_congr
    intro j hj
    rw [h.state j hj, Function.update_apply]
  have hupdate := tally_update hi (f := getFrameState s) (y := target.code) (z := k.code)
  have hcode : ∀ l : FrameState, l.code = k.code ↔ k = l :=
    fun l => ⟨fun hc => (FrameState.code_inj hc).symm, fun hc => hc ▸ rfl⟩
  rw [h.was] at hupdate
  simp only [hcode] at hupdate
  rw [hafter]
  exact hupdate

/-- The counters count the array, which holds nothing but the three frame states. -/
structure Accounts (s : Kernel) : Prop where
  fits : s.pmem.Fits
  legal : ∀ i < s.pmem.frames, ∃ k : FrameState, getFrameState s i = k.code
  count : ∀ k : FrameState, s.pmem.counter k = tally s.pmem.frames (getFrameState s) k.code

namespace Accounts
variable {s s' : Kernel} {source target : FrameState} {i : Nat}

theorem counter_le (h : Accounts s) (k : FrameState) : s.pmem.counter k ≤ s.pmem.frames := by
  rw [h.count k]
  exact (Finset.card_filter_le _ _).trans_eq (Finset.card_range _)

theorem frames_le (h : Accounts s) : s.pmem.frames ≤ 2 ^ 60 := h.fits.frames_le

/-- A counter that is about to be decremented is positive. -/
theorem counter_pos (h : Accounts s) (hi : i < s.pmem.frames)
    (hstate : getFrameState s i = source.code) : 0 < s.pmem.counter source := by
  rw [h.count source]
  exact tally_pos hi hstate

/-- The counters after a move, in numbers that do not wrap. -/
theorem counter_moved (h : Accounts s) (hne : source ≠ target) (hi : i < s.pmem.frames)
    (hm : Moved source target s s' i) (k : FrameState) :
    s'.pmem.counter k + (if k = source then 1 else 0) =
      s.pmem.counter k + (if k = target then 1 else 0) := by
  have hsource := h.counter_le source
  have htarget := h.counter_le target
  have hframes := h.frames_le
  rw [hm.count]
  exact counter_moveCount hne (h.counter_pos hi hm.was) (by omega) (by omega) k

theorem moved (h : Accounts s) (hne : source ≠ target) (hi : i < s.pmem.frames)
    (hm : Moved source target s s' i) : Accounts s' := by
  refine ⟨hm.fits h.fits, ?_, ?_⟩
  · intro j hj
    rw [hm.frames] at hj
    rw [hm.state j hj]
    by_cases hji : j = i
    · exact ⟨target, if_pos hji⟩
    · rw [if_neg hji]
      exact h.legal j hj
  · intro k
    have hcount := h.counter_moved hne hi hm k
    have htally := hm.tally hi k
    have hk := h.count k
    rw [hm.frames]
    omega

theorem touch (h : Accounts s) : Accounts { s with pmem := s.pmem.touch i } :=
  ⟨h.fits, h.legal, h.count⟩

theorem moveFrame (h : Accounts s) (hne : source ≠ target) (hi : i < s.pmem.frames) :
    Accounts (moveFrame source target s i) := by
  rcases moveFrame_cases source target h.fits hi with hm | ⟨_, heq⟩
  · exact h.moved hne hi hm
  · rw [heq]
    exact h.touch

/-- The early exit and the scan agree. -/
theorem freeFrames_eq_zero_iff (h : Accounts s) : s.pmem.freeFrames = 0 ↔ firstFree s = none := by
  have hcount : s.pmem.freeFrames = tally s.pmem.frames (getFrameState s) FrameState.free.code :=
    h.count .free
  rw [hcount, tally_eq_zero_iff, firstFree_eq_none_iff]

/-- What a request does: nothing when no frame is free, and otherwise it locks the first free frame
and returns its address. -/
theorem request_cases (h : Accounts s) :
    ((∀ i < s.pmem.frames, getFrameState s i ≠ FrameState.free.code) ∧ s.pmem.freeFrames = 0 ∧
        pmemRequestFrame s = (0, s)) ∨
      ∃ i < s.pmem.frames, firstFree s = some i ∧ s.pmem.freeFrames ≠ 0 ∧
        Moved .free .locked s (pmemRequestFrame s).2 i ∧
        (pmemRequestFrame s).1 = getFrameAddr s i := by
  by_cases hzero : s.pmem.freeFrames = 0
  · have hnone := h.freeFrames_eq_zero_iff.mp hzero
    exact Or.inl ⟨firstFree_eq_none_iff.mp hnone, hzero, if_pos hzero⟩
  · cases hfirst : firstFree s with
    | none => exact absurd (h.freeFrames_eq_zero_iff.mpr hfirst) hzero
    | some i =>
        obtain ⟨hi, hfree, _⟩ := firstFree_eq_some_iff.mp hfirst
        have hm : Moved .free .locked s (lockFrame s i) i := moved_moveFrame h.fits hi hfree
        have hrequest : pmemRequestFrame s = (getFrameAddr (lockFrame s i) i, lockFrame s i) := by
          rw [pmemRequestFrame, if_neg hzero, hfirst]
        refine Or.inr ⟨i, hi, rfl, hzero, ?_, ?_⟩
        · rw [hrequest]
          exact hm
        · rw [hrequest]
          exact hm.addr i hi

theorem request (h : Accounts s) : Accounts (pmemRequestFrame s).2 := by
  rcases h.request_cases with ⟨_, _, heq⟩ | ⟨i, hi, _, _, hm, _⟩
  · rw [heq]
    exact h
  · exact h.moved (by decide) hi hm

/-- Every frame is in one of the three states. -/
theorem sum_counters (h : Accounts s) :
    s.pmem.freeFrames + s.pmem.lockedFrames + s.pmem.reservedFrames = s.pmem.frames := by
  have hsum := sum_tally (n := s.pmem.frames) (f := getFrameState s)
    {FrameState.free.code, FrameState.locked.code, FrameState.reserved.code} (fun i hi => by
      obtain ⟨k, hk⟩ := h.legal i hi
      rw [hk]
      cases k <;> decide)
  rw [Finset.sum_insert (by decide), Finset.sum_insert (by decide), Finset.sum_singleton,
    ← h.count .free, ← h.count .locked, ← h.count .reserved] at hsum
  simp only [counter] at hsum
  omega

end Accounts

/-- The five operations on the array. -/
inductive FrameOp where
  | lock (index : Nat)
  | free (index : Nat)
  | reserve (index : Nat)
  | unreserve (index : Nat)
  | request

namespace FrameOp

def run (s : Kernel) : FrameOp → Kernel
  | .lock index => lockFrame s index
  | .free index => freeFrame s index
  | .reserve index => reserveFrame s index
  | .unreserve index => unreserveFrame s index
  | .request => (pmemRequestFrame s).2

/-- The operation names a frame below `frames`. -/
def InRange (frames : Nat) : FrameOp → Prop
  | .lock index | .free index | .reserve index | .unreserve index => index < frames
  | .request => True

instance (frames : Nat) : DecidablePred (InRange frames) := fun op => by
  cases op <;> unfold InRange <;> infer_instance

end FrameOp

def runFrameOps (s : Kernel) (ops : List FrameOp) : Kernel := ops.foldl FrameOp.run s

/-- The array as `PhysicalMemory__init` first sets it up: every frame free, and the counters say
so. -/
structure AllFree (s : Kernel) : Prop where
  fits : s.pmem.Fits
  state : ∀ i < s.pmem.frames, getFrameState s i = FrameState.free.code
  free : s.pmem.freeFrames = s.pmem.frames
  locked : s.pmem.lockedFrames = 0
  reserved : s.pmem.reservedFrames = 0

theorem AllFree.accounts {s : Kernel} (h : AllFree s) : Accounts s := by
  have hother : ∀ k : FrameState, k ≠ .free →
      tally s.pmem.frames (getFrameState s) k.code = 0 := by
    intro k hk
    rw [tally_eq_zero_iff]
    intro i hi hc
    rw [h.state i hi] at hc
    exact hk (FrameState.code_inj hc).symm
  refine ⟨h.fits, fun i hi => ⟨.free, h.state i hi⟩, ?_⟩
  intro k
  cases k with
  | free => exact h.free.trans (tally_const h.state).symm
  | locked => exact h.locked.trans (hother .locked (by decide)).symm
  | reserved => exact h.reserved.trans (hother .reserved (by decide)).symm

/-- What every operation keeps: the place and length of the array and the addresses in it. -/
structure SameFrames (s s' : Kernel) : Prop where
  array : s'.pmem.array = s.pmem.array
  frames : s'.pmem.frames = s.pmem.frames
  addr : ∀ i < s.pmem.frames, getFrameAddr s' i = getFrameAddr s i

namespace SameFrames
variable {s s' s'' : Kernel} {source target : FrameState} {i : Nat}

theorem refl (s : Kernel) : SameFrames s s := ⟨rfl, rfl, fun _ _ => rfl⟩

theorem trans (h : SameFrames s s') (h' : SameFrames s' s'') : SameFrames s s'' :=
  ⟨h'.array.trans h.array, h'.frames.trans h.frames, fun i hi =>
    (h'.addr i (by rw [h.frames]; exact hi)).trans (h.addr i hi)⟩

theorem statePtr_eq (h : SameFrames s s') (j : Nat) : s'.pmem.statePtr j = s.pmem.statePtr j := by
  rw [statePtr, statePtr, h.array]

theorem fits_iff (h : SameFrames s s') : s'.pmem.Fits ↔ s.pmem.Fits := by
  unfold Fits
  rw [h.array, h.frames]

theorem of_moved (h : Moved source target s s' i) : SameFrames s s' :=
  ⟨h.array, h.frames, h.addr⟩

theorem moveFrame (hfits : s.pmem.Fits) (hi : i < s.pmem.frames) :
    SameFrames s (moveFrame source target s i) := by
  rcases moveFrame_cases source target hfits hi with hm | ⟨_, heq⟩
  · exact of_moved hm
  · rw [heq]
    exact ⟨rfl, rfl, fun _ _ => rfl⟩

theorem request (h : Accounts s) : SameFrames s (pmemRequestFrame s).2 := by
  rcases h.request_cases with ⟨_, _, heq⟩ | ⟨i, _, _, _, hm, _⟩
  · rw [heq]
    exact refl s
  · exact of_moved hm

end SameFrames

/-- One operation in range keeps the accounts and the frames. -/
theorem FrameOp.run_keeps {s : Kernel} (h : Accounts s) {op : FrameOp}
    (hop : op.InRange s.pmem.frames) : Accounts (op.run s) ∧ SameFrames s (op.run s) := by
  cases op with
  | lock index => exact ⟨h.moveFrame (by decide) hop, .moveFrame h.fits hop⟩
  | free index => exact ⟨h.moveFrame (by decide) hop, .moveFrame h.fits hop⟩
  | reserve index => exact ⟨h.moveFrame (by decide) hop, .moveFrame h.fits hop⟩
  | unreserve index => exact ⟨h.moveFrame (by decide) hop, .moveFrame h.fits hop⟩
  | request => exact ⟨h.request, .request h⟩

theorem runFrameOps_keeps {s : Kernel} (h : Accounts s) {ops : List FrameOp}
    (hops : ∀ op ∈ ops, op.InRange s.pmem.frames) :
    Accounts (runFrameOps s ops) ∧ SameFrames s (runFrameOps s ops) := by
  induction ops generalizing s with
  | nil => exact ⟨h, .refl s⟩
  | cons op ops ih =>
      obtain ⟨haccounts, hsame⟩ := FrameOp.run_keeps h (hops op List.mem_cons_self)
      have hrest : ∀ op' ∈ ops, op'.InRange (op.run s).pmem.frames := by
        intro op' hop'
        rw [hsame.frames]
        exact hops op' (List.mem_cons_of_mem _ hop')
      obtain ⟨hfinal, hsame'⟩ := ih haccounts hrest
      exact ⟨hfinal, hsame.trans hsame'⟩

/-- **Frame accounting is exact.** After any run of in-range operations from an all-free array the
counters are the tallies of the array and add up to `frames`, the next state change of any frame
decrements a positive counter, no frame address has changed, and the early exit of a request agrees
with its scan. -/
theorem frame_accounting_exact (s : Kernel) (hs : AllFree s) (ops : List FrameOp)
    (hops : ∀ op ∈ ops, op.InRange s.pmem.frames) :
    let s' := runFrameOps s ops
    s'.pmem.frames = s.pmem.frames ∧
    s'.pmem.freeFrames = tally s.pmem.frames (getFrameState s') FrameState.free.code ∧
    s'.pmem.lockedFrames = tally s.pmem.frames (getFrameState s') FrameState.locked.code ∧
    s'.pmem.reservedFrames = tally s.pmem.frames (getFrameState s') FrameState.reserved.code ∧
    s'.pmem.freeFrames + s'.pmem.lockedFrames + s'.pmem.reservedFrames = s.pmem.frames ∧
    (∀ i < s.pmem.frames, ∀ k : FrameState, getFrameState s' i = k.code →
      0 < s'.pmem.counter k) ∧
    (∀ i < s.pmem.frames, getFrameAddr s' i = getFrameAddr s i) ∧
    (s'.pmem.freeFrames = 0 ↔ firstFree s' = none) := by
  intro s'
  obtain ⟨haccounts, hsame⟩ := runFrameOps_keeps hs.accounts hops
  have hframes : s'.pmem.frames = s.pmem.frames := hsame.frames
  refine ⟨hframes, ?_, ?_, ?_, ?_, ?_, hsame.addr, haccounts.freeFrames_eq_zero_iff⟩
  · rw [← hframes]
    exact haccounts.count .free
  · rw [← hframes]
    exact haccounts.count .locked
  · rw [← hframes]
    exact haccounts.count .reserved
  · rw [← hframes]
    exact haccounts.sum_counters
  · intro i hi k hk
    exact haccounts.counter_pos (by rw [hframes]; exact hi) hk

/-- Two free frames, their array at `0x1000`. -/
def twoFreeFrames : Kernel where
  mem := { byte := fun _ => 0, writes := [] }
  pmem :=
    { freeFrames := 2, reservedFrames := 0, lockedFrames := 0, frames := 2, array := 0x1000
      initialized := true, subscripts := [] }

/-- Locked twice, freed twice and reserved, with a request between. -/
theorem frame_accounting_exact_twoFreeFrames :
    let s' := runFrameOps twoFreeFrames
      [.lock 1, .lock 1, .request, .free 1, .free 1, .reserve 1, .free 1]
    s'.pmem.freeFrames + s'.pmem.lockedFrames + s'.pmem.reservedFrames = 2 :=
  (frame_accounting_exact twoFreeFrames
    ⟨by unfold Fits; decide, by decide, rfl, rfl, rfl⟩
    [.lock 1, .lock 1, .request, .free 1, .free 1, .reserve 1, .free 1] (by decide)).2.2.2.2.1

end MyOSKernel.PhysicalMemory
