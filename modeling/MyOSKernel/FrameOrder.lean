import MyOSKernel.FrameAccounting
import Mathlib.Data.List.Nodup

/-! The allocator as a table of frame states: a request takes the least free frame, and the other
operations move one frame. Requests made one after the other therefore take the free frames in the
order of the array. -/

namespace MyOSKernel.PhysicalMemory

def FrameState.ofCode (code : UInt8) : FrameState :=
  if code = FrameState.free.code then .free
  else if code = FrameState.locked.code then .locked
  else .reserved

@[simp] theorem FrameState.ofCode_code (k : FrameState) : ofCode k.code = k := by
  cases k with
  | free => rfl
  | locked => rfl
  | reserved => rfl

/-- The states of the frames. -/
def frameTable (s : Kernel) (j : Nat) : FrameState := FrameState.ofCode (getFrameState s j)

/-- A frame in state `source` goes to `target`; any other is left alone. -/
def moveState (source target : FrameState) (f : Nat → FrameState) (i : Nat) : Nat → FrameState :=
  if f i = source then Function.update f i target else f

def leastFree (frames : Nat) (f : Nat → FrameState) : Option Nat :=
  (List.range frames).find? fun i => f i = .free

/-- What a request grants, and the table after an operation. -/
def FrameOp.apply (frames : Nat) (f : Nat → FrameState) :
    FrameOp → List (Option Nat) × (Nat → FrameState)
  | .lock index => ([], moveState .free .locked f index)
  | .free index => ([], moveState .locked .free f index)
  | .reserve index => ([], moveState .free .reserved f index)
  | .unreserve index => ([], moveState .reserved .free f index)
  | .request => ([leastFree frames f], (leastFree frames f).elim f fun i => Function.update f i .locked)

/-- A run on the table: what its requests grant, and the table after it. -/
def applyFrameOps (frames : Nat) : (Nat → FrameState) → List FrameOp →
    List (Option Nat) × (Nat → FrameState)
  | f, [] => ([], f)
  | f, op :: ops =>
    let (granted, f) := op.apply frames f
    let (later, f) := applyFrameOps frames f ops
    (granted ++ later, f)

/-- The addresses the requests of a run return. -/
def requestedAddrs : Kernel → List FrameOp → List Nat
  | _, [] => []
  | s, .request :: ops => (pmemRequestFrame s).1 :: requestedAddrs (FrameOp.request.run s) ops
  | s, op :: ops => requestedAddrs (op.run s) ops

section Op
variable {s s' : Kernel} {source target : FrameState} {i : Nat}

theorem Accounts.code_frameTable (h : Accounts s) {j : Nat} (hj : j < s.pmem.frames) :
    (frameTable s j).code = getFrameState s j := by
  obtain ⟨k, hk⟩ := h.legal j hj
  rw [frameTable, hk, FrameState.ofCode_code]

theorem Accounts.frameTable_eq_iff (h : Accounts s) {j : Nat} (hj : j < s.pmem.frames)
    (k : FrameState) : frameTable s j = k ↔ getFrameState s j = k.code := by
  rw [← h.code_frameTable hj]
  exact ⟨congrArg FrameState.code, FrameState.code_inj⟩

theorem Moved.frameTable (hm : Moved source target s s' i) {j : Nat} (hj : j < s.pmem.frames) :
    frameTable s' j = Function.update (PhysicalMemory.frameTable s) i target j := by
  rw [PhysicalMemory.frameTable, hm.state j hj]
  by_cases hji : j = i
  · rw [if_pos hji, hji, Function.update_self, FrameState.ofCode_code]
  · rw [if_neg hji, Function.update_of_ne hji]
    rfl

theorem frameTable_moveFrame (h : Accounts s) (hi : i < s.pmem.frames) {j : Nat}
    (hj : j < s.pmem.frames) : frameTable (moveFrame source target s i) j =
      moveState source target (frameTable s) i j := by
  unfold moveState
  by_cases hwas : getFrameState s i = source.code
  · rw [if_pos ((h.frameTable_eq_iff hi source).mpr hwas)]
    exact (moved_moveFrame h.fits hi hwas).frameTable hj
  · rw [if_neg fun hc => hwas ((h.frameTable_eq_iff hi source).mp hc), moveFrame_of_ne hwas]
    rfl

/-- The scan finds the least free frame of the table. -/
theorem Accounts.leastFree_eq (h : Accounts s) :
    leastFree s.pmem.frames (frameTable s) = firstFree s := by
  unfold leastFree firstFree
  apply List.find?_congr
  intro j hj
  exact decide_eq_decide.mpr (h.frameTable_eq_iff (List.mem_range.mp hj) .free)

/-- A request returns the address of the least free frame, `NULL` if there is none. -/
theorem Accounts.request_apply (h : Accounts s) :
    (pmemRequestFrame s).1 = (leastFree s.pmem.frames (frameTable s)).elim 0 (getFrameAddr s) ∧
      ∀ j < s.pmem.frames, frameTable (pmemRequestFrame s).2 j =
        (FrameOp.request.apply s.pmem.frames (frameTable s)).2 j := by
  rw [FrameOp.apply, h.leastFree_eq]
  rcases h.request_cases with ⟨hnone, _, heq⟩ | ⟨i, _, hfirst, _, hm, haddr⟩
  · rw [firstFree_eq_none_iff.mpr hnone, heq]
    exact ⟨rfl, fun j _ => rfl⟩
  · rw [hfirst]
    exact ⟨haddr, fun j hj => hm.frameTable hj⟩

theorem frameTable_run (h : Accounts s) {op : FrameOp} (hop : op.InRange s.pmem.frames) {j : Nat}
    (hj : j < s.pmem.frames) :
    frameTable (op.run s) j = (op.apply s.pmem.frames (frameTable s)).2 j := by
  cases op with
  | lock index => exact frameTable_moveFrame h hop hj
  | free index => exact frameTable_moveFrame h hop hj
  | reserve index => exact frameTable_moveFrame h hop hj
  | unreserve index => exact frameTable_moveFrame h hop hj
  | request => exact h.request_apply.2 j hj

/-- The address a request returns is that of the frame granted. -/
theorem requestedAddrs_cons (h : Accounts s) (op : FrameOp) (ops : List FrameOp) :
    requestedAddrs s (op :: ops) =
      (op.apply s.pmem.frames (frameTable s)).1.map (fun granted => granted.elim 0 (getFrameAddr s)) ++
        requestedAddrs (op.run s) ops := by
  cases op with
  | request =>
      simp only [requestedAddrs, h.request_apply.1]
      rfl
  | _ => rfl

end Op

section Run
variable {s : Kernel} {frames : Nat} {f g : Nat → FrameState}

theorem leastFree_congr (h : ∀ j < frames, f j = g j) : leastFree frames f = leastFree frames g := by
  unfold leastFree
  apply List.find?_congr
  intro j hj
  rw [h j (List.mem_range.mp hj)]

theorem update_congr {i j : Nat} (k : FrameState) (hj : f j = g j) :
    Function.update f i k j = Function.update g i k j := by
  by_cases hji : j = i
  · rw [hji, Function.update_self, Function.update_self]
  · rw [Function.update_of_ne hji, Function.update_of_ne hji, hj]

theorem moveState_congr {source target : FrameState} {i j : Nat} (hi : f i = g i) (hj : f j = g j) :
    moveState source target f i j = moveState source target g i j := by
  unfold moveState
  rw [hi]
  split_ifs
  · exact update_congr target hj
  · exact hj

/-- An operation in range sees the frames below `frames` only. -/
theorem FrameOp.apply_congr {op : FrameOp} (h : ∀ j < frames, f j = g j) (hop : op.InRange frames) :
    (op.apply frames f).1 = (op.apply frames g).1 ∧
      ∀ j < frames, (op.apply frames f).2 j = (op.apply frames g).2 j := by
  cases op with
  | lock index => exact ⟨rfl, fun j hj => moveState_congr (h index hop) (h j hj)⟩
  | free index => exact ⟨rfl, fun j hj => moveState_congr (h index hop) (h j hj)⟩
  | reserve index => exact ⟨rfl, fun j hj => moveState_congr (h index hop) (h j hj)⟩
  | unreserve index => exact ⟨rfl, fun j hj => moveState_congr (h index hop) (h j hj)⟩
  | request =>
      rw [FrameOp.apply, FrameOp.apply, leastFree_congr h]
      refine ⟨rfl, fun j hj => ?_⟩
      cases leastFree frames g with
      | none => exact h j hj
      | some i => exact update_congr .locked (h j hj)

/-- Frames granted are in range. -/
theorem lt_of_mem_applyFrameOps {ops : List FrameOp} {i : Nat}
    (hi : some i ∈ (applyFrameOps frames f ops).1) : i < frames := by
  induction ops generalizing f with
  | nil => exact absurd hi List.not_mem_nil
  | cons op ops ih =>
      rcases List.mem_append.mp hi with hnow | hlater
      · cases op with
        | request =>
            have hleast : leastFree frames f = some i := (List.mem_singleton.mp hnow).symm
            exact List.mem_range.mp (List.mem_of_find?_eq_some hleast)
        | _ => exact absurd hnow List.not_mem_nil
      · exact ih hlater

/-- A run on the array and on a table that agrees with it. -/
theorem requestedAddrs_eq (hs : Accounts s) {ops : List FrameOp}
    (hops : ∀ op ∈ ops, op.InRange s.pmem.frames) (hf : ∀ j < s.pmem.frames, frameTable s j = f j) :
    requestedAddrs s ops = (applyFrameOps s.pmem.frames f ops).1.map
        (fun granted => granted.elim 0 (getFrameAddr s)) ∧
      ∀ j < s.pmem.frames, frameTable (runFrameOps s ops) j =
        (applyFrameOps s.pmem.frames f ops).2 j := by
  induction ops generalizing s f with
  | nil => exact ⟨rfl, hf⟩
  | cons op ops ih =>
      have hop := hops op List.mem_cons_self
      obtain ⟨haccounts, hsame⟩ := FrameOp.run_keeps hs hop
      obtain ⟨hgranted, htable⟩ := FrameOp.apply_congr hf hop
      have hnext : ∀ j < (op.run s).pmem.frames,
          frameTable (op.run s) j = (op.apply s.pmem.frames f).2 j := by
        intro j hj
        rw [hsame.frames] at hj
        rw [frameTable_run hs hop hj, htable j hj]
      obtain ⟨haddrs, hend⟩ := ih haccounts (fun op' hop' => by
        rw [hsame.frames]
        exact hops op' (List.mem_cons_of_mem _ hop')) hnext
      rw [hsame.frames] at haddrs hend
      refine ⟨?_, hend⟩
      have hlater : (applyFrameOps s.pmem.frames (op.apply s.pmem.frames f).2 ops).1.map
          (fun granted => granted.elim 0 (getFrameAddr (op.run s))) =
          (applyFrameOps s.pmem.frames (op.apply s.pmem.frames f).2 ops).1.map
          (fun granted => granted.elim 0 (getFrameAddr s)) := by
        apply List.map_congr_left
        intro granted hmem
        cases granted with
        | none => rfl
        | some i => exact hsame.addr i (lt_of_mem_applyFrameOps hmem)
      rw [requestedAddrs_cons hs, hgranted, haddrs, hlater]
      exact List.map_append.symm

/-- **The allocator is a table of states.** In every run of operations in range each request returns the
address of the least frame that is free in the table then, `NULL` when there is none, and every frame
ends in the state the table has for it. -/
theorem frame_operations_refine_table (s : Kernel) (hs : Accounts s) (ops : List FrameOp)
    (hops : ∀ op ∈ ops, op.InRange s.pmem.frames) :
    requestedAddrs s ops = (applyFrameOps s.pmem.frames (frameTable s) ops).1.map
        (fun granted => granted.elim 0 (getFrameAddr s)) ∧
      ∀ j < s.pmem.frames, frameTable (runFrameOps s ops) j =
        (applyFrameOps s.pmem.frames (frameTable s) ops).2 j :=
  requestedAddrs_eq hs hops fun _ _ => rfl

end Run

/-- A frame locked, another reserved, and then three requests for the two frames there are. -/
theorem frame_operations_refine_table_twoFreeFrames :
    requestedAddrs twoFreeFrames [.lock 1, .reserve 0, .request, .free 1, .request, .request] =
      (applyFrameOps 2 (frameTable twoFreeFrames)
        [.lock 1, .reserve 0, .request, .free 1, .request, .request]).1.map
          (fun granted => granted.elim 0 (getFrameAddr twoFreeFrames)) :=
  (frame_operations_refine_table twoFreeFrames
    (AllFree.accounts ⟨by unfold Fits; decide, by decide, rfl, rfl, rfl⟩)
    [.lock 1, .reserve 0, .request, .free 1, .request, .request] (by decide)).1

/-! ### Requests one after the other -/

/-- The free frames in the order of the array. -/
def freeList (s : Kernel) : List Nat :=
  (List.range s.pmem.frames).filter fun j => getFrameState s j = FrameState.free.code

/-- The addresses of some requests in a row, and the machine after them. -/
def requestFrames : Nat → Kernel → List Nat × Kernel
  | 0, s => ([], s)
  | count + 1, s =>
    let (addr, s) := pmemRequestFrame s
    let (addrs, s) := requestFrames count s
    (addr :: addrs, s)

section Requests
variable {s s' : Kernel} {i : Nat}

theorem mem_freeList :
    i ∈ freeList s ↔ i < s.pmem.frames ∧ getFrameState s i = FrameState.free.code := by
  rw [freeList, List.mem_filter, List.mem_range, decide_eq_true_iff]

theorem nodup_freeList (s : Kernel) : (freeList s).Nodup := List.nodup_range.filter _

theorem firstFree_eq_head? (s : Kernel) : firstFree s = (freeList s).head? :=
  List.head?_filter.symm

theorem Accounts.length_freeList (h : Accounts s) : (freeList s).length = s.pmem.freeFrames := by
  have hcount : s.pmem.freeFrames = tally s.pmem.frames (getFrameState s) FrameState.free.code :=
    h.count .free
  rw [hcount, tally, ← List.toFinset_card_of_nodup (nodup_freeList s)]
  congr 1
  ext j
  rw [List.mem_toFinset, mem_freeList, Finset.mem_filter, Finset.mem_range]

theorem Moved.freeList (hm : Moved .free .locked s s' i) :
    freeList s' = (PhysicalMemory.freeList s).erase i := by
  rw [(nodup_freeList s).erase_eq_filter, PhysicalMemory.freeList, PhysicalMemory.freeList,
    List.filter_filter, hm.frames]
  apply List.filter_congr
  intro j hj
  rw [hm.state j (List.mem_range.mp hj)]
  by_cases hji : j = i
  · rw [if_pos hji, hji]
    simp [FrameState.code]
  · rw [if_neg hji]
    simp [hji]

/-- A request takes the first of the free frames. -/
theorem Accounts.request_freeList (h : Accounts s) :
    (freeList s = [] ∧ pmemRequestFrame s = (0, s)) ∨
      ∃ j rest, freeList s = j :: rest ∧ Moved .free .locked s (pmemRequestFrame s).2 j ∧
        (pmemRequestFrame s).1 = getFrameAddr s j ∧ freeList (pmemRequestFrame s).2 = rest := by
  rcases h.request_cases with ⟨_, hzero, heq⟩ | ⟨j, _, hfirst, _, hm, haddr⟩
  · refine Or.inl ⟨?_, heq⟩
    rw [← List.length_eq_zero_iff, h.length_freeList, hzero]
  · rw [firstFree_eq_head?] at hfirst
    obtain ⟨rest, hrest⟩ := List.head?_eq_some_iff.mp hfirst
    refine Or.inr ⟨j, rest, hrest, hm, haddr, ?_⟩
    rw [hm.freeList, hrest, List.erase_cons_head]

/-- **Requests are served in the order of the array.** The addresses returned are those of the first
free frames, then `NULL` for ever; exactly these frames are locked, and the counters follow. -/
theorem requests_in_order (s : Kernel) (hs : Accounts s) (count : Nat) :
    (requestFrames count s).1 = ((freeList s).take count).map (getFrameAddr s) ++
        List.replicate (count - (freeList s).length) 0 ∧
      (∀ j < s.pmem.frames, getFrameState (requestFrames count s).2 j =
        if j ∈ (freeList s).take count then FrameState.locked.code else getFrameState s j) ∧
      (requestFrames count s).2.pmem.freeFrames = s.pmem.freeFrames - count ∧
      (requestFrames count s).2.pmem.lockedFrames =
        s.pmem.lockedFrames + min count s.pmem.freeFrames := by
  induction count generalizing s with
  | zero => exact ⟨by simp [requestFrames], by simp [requestFrames], rfl, by simp [requestFrames]⟩
  | succ count ih =>
      have hlength := hs.length_freeList
      rcases hs.request_freeList with ⟨hnil, heq⟩ | ⟨j, rest, hcons, hm, haddr, hrest⟩
      · -- no frame is free, now and later
        obtain ⟨haddrs, hstates, hfree, hlocked⟩ := ih s hs
        have hrun : requestFrames (count + 1) s =
            (0 :: (requestFrames count s).1, (requestFrames count s).2) := by
          rw [requestFrames, heq]
        rw [hnil] at haddrs hstates hlength
        rw [hrun, hnil]
        simp only [List.take_nil] at haddrs hstates ⊢
        refine ⟨?_, hstates, ?_, ?_⟩
        · rw [haddrs]
          exact List.replicate_succ.symm
        · rw [hfree, ← hlength, List.length_nil, Nat.zero_sub, Nat.zero_sub]
        · rw [hlocked, ← hlength, List.length_nil, Nat.min_zero, Nat.min_zero]
      · have hj : j < s.pmem.frames := (mem_freeList.mp (hcons ▸ List.mem_cons_self)).1
        obtain ⟨haddrs, hstates, hfree, hlocked⟩ := ih (pmemRequestFrame s).2 hs.request
        have hrun : requestFrames (count + 1) s = (getFrameAddr s j ::
            (requestFrames count (pmemRequestFrame s).2).1,
              (requestFrames count (pmemRequestFrame s).2).2) := by
          rw [requestFrames, ← haddr]
        have hfree' : (pmemRequestFrame s).2.pmem.freeFrames + 1 = s.pmem.freeFrames :=
          hs.counter_moved (by decide) hj hm .free
        have hlocked' : (pmemRequestFrame s).2.pmem.lockedFrames = s.pmem.lockedFrames + 1 :=
          hs.counter_moved (by decide) hj hm .locked
        have hsame : (rest.take count).map (getFrameAddr (pmemRequestFrame s).2) =
            (rest.take count).map (getFrameAddr s) := by
          apply List.map_congr_left
          intro k hk
          have hmem : k ∈ freeList s := hcons ▸ List.mem_cons_of_mem j (List.mem_of_mem_take hk)
          exact hm.addr k (mem_freeList.mp hmem).1
        rw [hrest] at haddrs hstates
        rw [hrun, hcons, List.take_succ_cons, List.length_cons, Nat.add_sub_add_right]
        refine ⟨?_, ?_, ?_, ?_⟩
        · rw [haddrs, hsame]
          rfl
        · intro k hk
          rw [hstates k (hm.frames ▸ hk), hm.state k hk]
          simp only [List.mem_cons]
          by_cases hkj : k = j
          · rw [if_pos hkj, if_pos (Or.inl hkj), ite_self]
          · rw [if_neg hkj]
            simp only [hkj, false_or]
        · dsimp only
          omega
        · dsimp only
          omega

end Requests

theorem requests_in_order_twoFreeFrames :
    (requestFrames 3 twoFreeFrames).1 = [0, 1].map (getFrameAddr twoFreeFrames) ++ [0] :=
  (requests_in_order twoFreeFrames
    (AllFree.accounts ⟨by unfold Fits; decide, by decide, rfl, rfl, rfl⟩) 3).1

end MyOSKernel.PhysicalMemory
