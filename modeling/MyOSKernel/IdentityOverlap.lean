import MyOSKernel.IdentityRange
import MyOSKernel.PagingOrder

/-! A free frame that overlaps the frame array. Taken for a table it is cleared and filled with entries,
and `_identity_paging_memory` reads these as the records of frames it has still to map. The machine runs
like the one without the records overlapped as long as the allocator does not get to them, so what the
loop makes of them is known. -/

namespace MyOSKernel

open PhysicalMemory

section View
variable {σ τ : Type}

/-- A machine with its allocator seen through `f`. -/
def Machine.view (f : σ → τ) (m : Machine σ) : Machine τ := { mem := m.mem, pmem := f m.pmem }

/-- Requests in order are answered alike by the allocator seen through `f`. -/
def AnswersAlike (f : σ → τ) (request : Machine σ → Nat × Machine σ)
    (request' : Machine τ → Nat × Machine τ) (Ok : Machine τ → Prop) : Prop :=
  ∀ m, Ok (m.view f) → request' (m.view f) = ((request m).1, (request m).2.view f)

variable {f : σ → τ} {request : Machine σ → Nat × Machine σ} {request' : Machine τ → Nat × Machine τ}
  {Ok : Machine τ → Prop} {PML4 : PML4Table} {m : Machine σ} {calls : List MapCall}

theorem missing_view {T i : Nat} :
    missing (m.view f) T i = (missing m T i).map (Machine.view f) := by
  unfold missing
  by_cases hpresent : (loadEntry m.mem (entryPtr T i)).present = 0
  · rw [if_pos hpresent, if_pos (show (loadEntry (m.view f).mem _).present = 0 from hpresent)]
    rfl
  · rw [if_neg hpresent, if_neg (show ¬(loadEntry (m.view f).mem _).present = 0 from hpresent)]
    rfl

namespace AnswersAlike

theorem nextTable (h : AnswersAlike f request request' Ok) {T i : Nat}
    (hok : ∀ r ∈ missing (m.view f) T i, Ok r) :
    MyOSKernel.nextTable request' (m.view f) T i =
      ((MyOSKernel.nextTable request m T i).1, (MyOSKernel.nextTable request m T i).2.view f) := by
  unfold MyOSKernel.nextTable
  by_cases hpresent : (loadEntry m.mem (entryPtr T i)).present = 0
  · have hpresent' : (loadEntry (m.view f).mem (entryPtr T i)).present = 0 := hpresent
    have hanswer := h m (hok _ (by rw [missing, if_pos hpresent']; exact List.mem_singleton_self _))
    rw [if_pos hpresent, if_pos hpresent', hanswer]
    rfl
  · rw [if_neg hpresent, if_neg (show ¬(loadEntry (m.view f).mem _).present = 0 from hpresent)]
    rfl

/-- A descent arrives at the same page table, after the same requests. -/
theorem descend (h : AnswersAlike f request request' Ok) {vaddr : Nat}
    (hok : ∀ r ∈ requestsOf request' PML4 (m.view f) vaddr, Ok r) :
    requestsOf request' PML4 (m.view f) vaddr =
        (requestsOf request PML4 m vaddr).map (Machine.view f) ∧
      descendPT request' PML4 (m.view f) vaddr =
        ((descendPT request PML4 m vaddr).1, (descendPT request PML4 m vaddr).2.view f) := by
  simp only [requestsOf, List.mem_append] at hok
  have hPDPT : descendPDPT request' PML4 (m.view f) vaddr =
      ((descendPDPT request PML4 m vaddr).1, (descendPDPT request PML4 m vaddr).2.view f) :=
    h.nextTable fun r hr => hok r (Or.inl (Or.inl hr))
  have hPD : descendPD request' PML4 (m.view f) vaddr =
      ((descendPD request PML4 m vaddr).1, (descendPD request PML4 m vaddr).2.view f) := by
    unfold descendPD
    rw [hPDPT] at hok ⊢
    exact h.nextTable fun r hr => hok r (Or.inl (Or.inr hr))
  have hPT : descendPT request' PML4 (m.view f) vaddr =
      ((descendPT request PML4 m vaddr).1, (descendPT request PML4 m vaddr).2.view f) := by
    unfold descendPT
    rw [hPD] at hok ⊢
    exact h.nextTable fun r hr => hok r (Or.inr hr)
  refine ⟨?_, hPT⟩
  simp only [requestsOf, hPDPT, hPD, missing_view, List.map_append]

theorem map (h : AnswersAlike f request request' Ok) {vaddr : Nat} (paddr : Nat)
    (hok : ∀ r ∈ requestsOf request' PML4 (m.view f) vaddr, Ok r) :
    mapVaddrToPaddr request' PML4 (m.view f) vaddr paddr =
      (mapVaddrToPaddr request PML4 m vaddr paddr).view f := by
  rw [mapVaddrToPaddr, (h.descend hok).2]
  rfl

theorem run (h : AnswersAlike f request request' Ok)
    (hok : ∀ before c after, calls = before ++ c :: after →
      ∀ r ∈ requestsOf request' PML4 (runCalls request' PML4 (m.view f) before) c.vaddr, Ok r) :
    runCalls request' PML4 (m.view f) calls = (runCalls request PML4 m calls).view f := by
  induction calls using List.reverseRecOn with
  | nil => rfl
  | append_singleton calls c ih =>
      have hcall := hok calls c [] rfl
      have hrun := ih fun before c' after heq =>
        hok before c' (after ++ [c]) (by rw [heq, List.append_assoc, List.cons_append])
      rw [hrun] at hcall
      rw [runCalls_append_singleton, runCalls_append_singleton, hrun, h.map c.paddr hcall]

/-- The requests of a run are in order as seen through `f`. -/
theorem requests (h : AnswersAlike f request request' Ok)
    (hok : ∀ before c after, calls = before ++ c :: after →
      ∀ r ∈ requestsOf request' PML4 (runCalls request' PML4 (m.view f) before) c.vaddr, Ok r)
    {before after : List MapCall} {c : MapCall} (heq : calls = before ++ c :: after) :
    ∀ r ∈ requestsOf request PML4 (runCalls request PML4 m before) c.vaddr, Ok (r.view f) := by
  intro r hr
  have hcall := hok before c after heq
  have hrun : runCalls request' PML4 (m.view f) before = (runCalls request PML4 m before).view f :=
    h.run fun before' c' after' heq' => hok before' c' (after' ++ c :: after) (by
      rw [heq, heq', List.append_assoc, List.cons_append])
  rw [hrun] at hcall
  refine hcall _ ?_
  rw [(h.descend hcall).1]
  exact List.mem_map_of_mem hr

end AnswersAlike

end View

/-- The allocator without its last frame, a reserved one. -/
def PhysicalMemory.withoutLast (pm : PhysicalMemory) : PhysicalMemory :=
  { pm with frames := pm.frames - 1, reservedFrames := pm.reservedFrames - 1 }

def withoutLast (pm : Pmem) : Pmem := { pm with toPhysicalMemory := pm.toPhysicalMemory.withoutLast }

namespace PhysicalMemory
variable {k l : FrameState}

theorem counter_withoutLast (pm : PhysicalMemory) (hk : k ≠ .reserved) :
    pm.withoutLast.counter k = pm.counter k := by
  cases k with
  | free => rfl
  | locked => rfl
  | reserved => exact absurd rfl hk

theorem setCounter_withoutLast (pm : PhysicalMemory) (hk : k ≠ .reserved) (value : Nat) :
    pm.withoutLast.setCounter k value = (pm.setCounter k value).withoutLast := by
  cases k with
  | free => rfl
  | locked => rfl
  | reserved => exact absurd rfl hk

theorem moveCount_withoutLast (pm : PhysicalMemory) (hk : k ≠ .reserved) (hl : l ≠ .reserved) :
    pm.withoutLast.moveCount k l = (pm.moveCount k l).withoutLast := by
  simp only [moveCount, counter_withoutLast _ hk, setCounter_withoutLast _ hk,
    counter_withoutLast _ hl, setCounter_withoutLast _ hl]

end PhysicalMemory

section WithoutLast
variable {PML4 : PML4Table} {s m : Kernel} {kernel : KernelData} {calls : List MapCall}

@[simp] theorem array_view (m : Kernel) : (m.view withoutLast).pmem.array = m.pmem.array := rfl

@[simp] theorem getFrameAddr_view (m : Kernel) (i : Nat) :
    getFrameAddr (m.view withoutLast) i = getFrameAddr m i := rfl

theorem lockFrame_view (m : Kernel) (i : Nat) :
    lockFrame (m.view withoutLast) i = (lockFrame m i).view withoutLast := by
  by_cases hfree : getFrameState m i = FrameState.free.code
  · have hfree' : getFrameState (m.view withoutLast) i = FrameState.free.code := hfree
    have hmove : (m.view withoutLast).pmem.moveCount .free .locked =
        (m.pmem.moveCount .free .locked).withoutLast :=
      m.pmem.moveCount_withoutLast (by decide) (by decide)
    rw [lockFrame, moveFrame_of_eq hfree, moveFrame_of_eq hfree', hmove]
    rfl
  · have hfree' : getFrameState (m.view withoutLast) i ≠ FrameState.free.code := hfree
    rw [lockFrame, moveFrame_of_ne hfree, moveFrame_of_ne hfree']
    rfl

/-- A request that finds a frame does not look at the frames after it. -/
theorem answersAlike_withoutLast (PML4 : PML4Table) :
    AnswersAlike withoutLast pmemRequestFrame pmemRequestFrame
      fun m => Accounts m ∧ GrantsTable PML4 m := by
  intro m hok
  obtain ⟨haccounts, hfree, _⟩ := hok
  have hfree' : m.pmem.freeFrames ≠ 0 := hfree
  cases hfirst : firstFree (m.view withoutLast) with
  | none => exact absurd (haccounts.freeFrames_eq_zero_iff.mpr hfirst) hfree
  | some i =>
      obtain ⟨hi, hstate, hbefore⟩ := firstFree_eq_some_iff.mp hfirst
      have hi' : i < m.pmem.frames := lt_of_lt_of_le hi (Nat.sub_le _ _)
      have hfirst' : firstFree m = some i := firstFree_eq_some_iff.mpr ⟨hi', hstate, hbefore⟩
      rw [pmemRequestFrame, pmemRequestFrame, if_neg hfree, if_neg hfree', hfirst, hfirst']
      simp only [lockFrame_view]
      rfl

/-- The allocator has consistent accounts in every request of a run in order. -/
theorem RequestsInOrder.accounts (hworld : FrameWorld PML4 s)
    (hzero : ∀ a ∈ pageBytes PML4.addr, s.mem.byte a = 0) (hok : RequestsInOrder PML4 s calls)
    {before after : List MapCall} {c : MapCall} (heq : calls = before ++ c :: after) :
    ∀ r ∈ requestsOf pmemRequestFrame PML4 (runCalls pmemRequestFrame PML4 s before) c.vaddr,
      Accounts r ∧ GrantsTable PML4 r := by
  have hbefore : RequestsInOrder PML4 s before := by
    rw [heq] at hok
    exact hok.of_append
  obtain ⟨t, htree, htf, _⟩ := runTree_ordered hworld hzero hbefore
  obtain ⟨_, _, _, _, _, hrequests⟩ := descendPT_spec (TableFrames.allocatorSpec hworld [])
    ⟨htree.represents, htf⟩ (hok before c after heq)
  intro r hr
  obtain ⟨v, hv⟩ := hrequests r hr
  exact ⟨hv.allocator.holding.accounts, hok before c after heq r hr⟩

/-- A run that is in order without the last frame is the same run with it. -/
theorem runCalls_withoutLast (hworld : FrameWorld PML4 (m.view withoutLast))
    (hzero : ∀ a ∈ pageBytes PML4.addr, m.mem.byte a = 0)
    (hok : RequestsInOrder PML4 (m.view withoutLast) calls) :
    runCalls pmemRequestFrame PML4 (m.view withoutLast) calls =
        (runCalls pmemRequestFrame PML4 m calls).view withoutLast ∧
      RequestsInOrder PML4 m calls := by
  have hok' : ∀ before c after, calls = before ++ c :: after → ∀ r ∈ requestsOf pmemRequestFrame PML4
      (runCalls pmemRequestFrame PML4 (m.view withoutLast) before) c.vaddr,
      Accounts r ∧ GrantsTable PML4 r := fun before c after heq => hok.accounts hworld hzero heq
  refine ⟨(answersAlike_withoutLast PML4).run hok', fun before c after heq r hr => ?_⟩
  have hview := (answersAlike_withoutLast PML4).requests hok' heq r hr
  have hanswer := answersAlike_withoutLast PML4 r hview
  obtain ⟨_, hfree, hlow, hne⟩ := hview
  rw [hanswer] at hlow hne
  exact ⟨hfree, hlow, hne⟩

/-- A call of the first loop of `_identity_paging_memory`, for the address it reads. -/
def frameCall (PML4 : PML4Table) (s : Kernel) (j : Nat) : MapCall where
  vaddr := getFrameAddr (mapFrames PML4 s j) j
  paddr := getFrameAddr (mapFrames PML4 s j) j

def frameCalls (PML4 : PML4Table) (s : Kernel) (count : Nat) : List MapCall :=
  (List.range count).map (frameCall PML4 s)

theorem frameCalls_succ (s : Kernel) (count : Nat) :
    frameCalls PML4 s (count + 1) = frameCalls PML4 s count ++ [frameCall PML4 s count] := by
  rw [frameCalls, List.range_succ, List.map_append, List.map_singleton]
  rfl

theorem mapFrames_eq_frameCalls (s : Kernel) (count : Nat) :
    mapFrames PML4 s count = runCalls pmemRequestFrame PML4 s (frameCalls PML4 s count) := by
  induction count with
  | zero => rfl
  | succ count ih =>
      rw [frameCalls_succ, runCalls_append_singleton, ← ih, mapFrames_succ]
      rfl

theorem RequestsInOrder.mapFrames {count : Nat}
    (h : RequestsInOrder PML4 s (frameCalls PML4 s count)) :
    ∀ r ∈ mapFramesRequests PML4 s count, GrantsTable PML4 r := by
  intro r hr
  obtain ⟨i, hi, hr⟩ := List.mem_flatMap.mp hr
  obtain ⟨rest, hrange⟩ := exists_range_eq (List.mem_range.mp hi)
  refine h (frameCalls PML4 s i) (frameCall PML4 s i) (rest.map (frameCall PML4 s)) ?_ r ?_
  · rw [frameCalls, hrange, List.map_append, List.map_cons]
    rfl
  · rw [← mapFrames_eq_frameCalls]
    exact hr

theorem identityPagingMemory_eq_calls (kernel : KernelData) (s : Kernel) :
    identityPagingMemory PML4 kernel s = runCalls pmemRequestFrame PML4 s
      (frameCalls PML4 s s.pmem.frames ++ deviceCalls kernel) := by
  rw [identityPagingMemory_eq_devices, framesMapped, mapFrames_eq_frameCalls, runCalls_append]

theorem RequestsInOrder.identityPagingMemory
    (h : RequestsInOrder PML4 s (frameCalls PML4 s s.pmem.frames ++ deviceCalls kernel)) :
    ∀ r ∈ identityPagingMemoryRequests PML4 kernel s, GrantsTable PML4 r := by
  have hframes : framesMapped PML4 s = runCalls pmemRequestFrame PML4 s
      (frameCalls PML4 s s.pmem.frames) := mapFrames_eq_frameCalls s _
  have hdevices := h.after
  rw [← hframes, deviceCalls] at hdevices
  have hapic := hdevices.after
  rw [← identityPaging_eq_runCalls] at hapic
  have hhpet := hapic.after
  rw [← identityPaging_eq_runCalls] at hhpet
  intro r hr
  simp only [identityPagingMemoryRequests, List.mem_append] at hr
  rcases hr with ((hr | hr) | hr) | hr
  · exact h.of_append.mapFrames r hr
  · exact hdevices.of_append.identityPaging r hr
  · exact hapic.of_append.identityPaging r hr
  · exact hhpet.identityPaging r hr

theorem tablesNeeded_append_le (calls calls' : List MapCall) :
    tablesNeeded (calls ++ calls') ≤ tablesNeeded calls + 3 * calls'.length := by
  induction calls' using List.reverseRecOn with
  | nil => rw [List.append_nil]; exact Nat.le_add_right _ _
  | append_singleton calls' c ih =>
      have hcount := tablesNeeded_append_singleton (calls ++ calls') c
      rw [List.append_assoc] at hcount
      rw [hcount, List.length_append, List.length_singleton]
      split_ifs <;> omega

end WithoutLast

/-- A world for tables is told by the allocator, the bytes of its array and the PML4. -/
theorem TableWorld.of_eqOn {PML4 : PML4Table} {m m' : Kernel} (h : TableWorld PML4 m)
    (hpmem : m'.pmem = m.pmem) (hbytes : Set.EqOn m'.mem.byte m.mem.byte m.pmem.arrayBytes)
    (hzero : ∀ a ∈ pageBytes PML4.addr, m'.mem.byte a = 0) : TableWorld PML4 m' := by
  have hfits := h.accounts.fits
  have haddr : ∀ j < m.pmem.frames, getFrameAddr m' j = getFrameAddr m j :=
    fun j hj => getFrameAddr_of_eqOn hfits hj hpmem hbytes
  have hstate : ∀ j < m.pmem.frames, getFrameState m' j = getFrameState m j :=
    fun j hj => getFrameState_of_eqOn hfits hj hpmem hbytes
  refine ⟨⟨h.accounts.of_eqOn hpmem hbytes, ?_, ?_, ?_, ?_⟩, ?_, ?_, hzero⟩
  · intro j hj k hk heq
    rw [hpmem] at hj hk
    rw [haddr j hj, haddr k hk] at heq
    exact h.distinct j hj k hk heq
  · intro j hj
    rw [hpmem] at hj
    rw [haddr j hj]
    exact h.aligned j hj
  · intro j hj hfree
    rw [hpmem] at hj
    rw [hstate j hj] at hfree
    rw [haddr j hj, hpmem]
    exact h.free j hj hfree
  · rw [hpmem]
    exact h.root
  · intro j hj
    rw [hpmem] at hj
    rw [haddr j hj]
    exact h.low j hj
  · intro j hj hfree
    rw [hpmem] at hj
    rw [hstate j hj] at hfree
    rw [haddr j hj]
    exact h.freeRoot j hj hfree

/-- The frames of the first 128 KiB, their array at `0x1e10`: the record of the last one lies in the third,
which is free. -/
def overlappedState (j : Nat) : FrameState :=
  if j = 0 ∨ j = 4 ∨ j = 31 then .reserved else if j = 1 then .locked else .free

def overlappedFrames : Kernel := frameMachine 0x1e10 0 32 overlappedState

theorem getFrameAddr_overlappedFrames {j : Nat} (hj : j < 32) :
    getFrameAddr overlappedFrames j = 4096 * j := by
  rw [overlappedFrames, getFrameAddr_frameMachine (by decide) (by decide) hj]
  omega

/-- Without the last record no free frame overlaps the array. -/
theorem tableWorld_overlappedFrames :
    TableWorld fourthPagePML4 (overlappedFrames.view withoutLast) := by
  have hpmem : (overlappedFrames.view withoutLast).pmem =
      (frameMachine 0x1e10 0 31 overlappedState).pmem := by
    have hfree : tally 32 (fun j => (overlappedState j).code) FrameState.free.code =
        tally 31 (fun j => (overlappedState j).code) FrameState.free.code := by decide +kernel
    have hlocked : tally 32 (fun j => (overlappedState j).code) FrameState.locked.code =
        tally 31 (fun j => (overlappedState j).code) FrameState.locked.code := by decide +kernel
    have hreserved : tally 32 (fun j => (overlappedState j).code) FrameState.reserved.code - 1 =
        tally 31 (fun j => (overlappedState j).code) FrameState.reserved.code := by decide +kernel
    simp only [Machine.view, withoutLast, PhysicalMemory.withoutLast, overlappedFrames, frameMachine,
      hfree, hlocked, hreserved]
  have hbytes : Set.EqOn (overlappedFrames.view withoutLast).mem.byte
      (frameMachine 0x1e10 0 31 overlappedState).mem.byte
      (frameMachine 0x1e10 0 31 overlappedState).pmem.arrayBytes := by
    intro a ha
    have hlow : 0x1e10 ≤ a := ha.1
    have hhigh : a < 0x1e10 + 31 * 16 := ha.2
    show frameBytes 0x1e10 0 32 overlappedState a = frameBytes 0x1e10 0 31 overlappedState a
    rw [frameBytes, if_pos (show 0x1e10 ≤ a ∧ a < 0x1e10 + 32 * 16 by omega), frameBytes,
      if_pos (show 0x1e10 ≤ a ∧ a < 0x1e10 + 31 * 16 by omega)]
  have hworld : TableWorld fourthPagePML4 (frameMachine 0x1e10 0 31 overlappedState) := by
    refine tableWorld_frameMachine (by decide) (by decide) (by decide) ?_ ?_ (by decide)
    · unfold overlappedState
      intro j hj hfree
      split_ifs at hfree
      omega
    · unfold overlappedState
      intro j hj hfree
      split_ifs at hfree
      show 0 + j * 4096 ≠ 0x4000
      omega
  refine hworld.of_eqOn hpmem hbytes fun a ha => zero_frameMachine (Or.inr ?_)
  have hlow : 0x4000 ≤ a := ha.1
  omega

/-- The calls for the frames before the last. -/
theorem requestsInOrder_overlappedFrames {count : Nat} (hcount : count ≤ 31) :
    RequestsInOrder fourthPagePML4 (overlappedFrames.view withoutLast) (identityCalls 0 count) := by
  apply tableWorld_overlappedFrames.requestsInOrder
  have hmono : tablesNeeded (identityCalls 0 count) ≤ tablesNeeded (identityCalls 0 31) :=
    tablesNeeded_mono (List.map_subset _ (List.range_subset.mpr hcount))
  have hneeded : tablesNeeded (identityCalls 0 31) = 3 := by decide +kernel
  have hfree : 3 ≤ (overlappedFrames.view withoutLast).pmem.freeFrames := by decide +kernel
  omega

/-- The loop reads the addresses of the frames before the last. -/
theorem frameCalls_overlappedFrames {count : Nat} (hcount : count ≤ 31) :
    frameCalls fourthPagePML4 overlappedFrames count = identityCalls 0 count := by
  induction count with
  | zero => rfl
  | succ count ih =>
      have hworld := tableWorld_overlappedFrames
      have hok := requestsInOrder_overlappedFrames (Nat.le_of_succ_le hcount)
      have hrun := (runCalls_withoutLast hworld.toFrameWorld hworld.zero hok).1
      obtain ⟨_, _, htf, _⟩ := runTree_ordered hworld.toFrameWorld hworld.zero hok
      rw [hrun, ← ih (Nat.le_of_succ_le hcount), ← mapFrames_eq_frameCalls] at htf
      have haddr : getFrameAddr (mapFrames fourthPagePML4 overlappedFrames count) count =
          pageFrom 0 count := by
        rw [pageFrom_eq (by omega), Nat.zero_add, ← getFrameAddr_overlappedFrames (by omega),
          ← getFrameAddr_view, ← getFrameAddr_view]
        exact htf.holding.same.addr count hcount
      rw [frameCalls_succ, ih (Nat.le_of_succ_le hcount), frameCall, haddr]
      simp only [identityCalls, List.range_succ, List.map_append, List.map_singleton]

/-- The first table is taken from the third frame. -/
theorem created_overlappedFrames : ([0], 0x2000) ∈ createdBy pmemRequestFrame fourthPagePML4
    (overlappedFrames.view withoutLast) 0 := by
  have hpresent : (loadEntry (overlappedFrames.view withoutLast).mem
      (entryPtr fourthPagePML4.addr (extractVaddrPagingIndexes 0).pml4Entry)).present = 0 := by
    decide +kernel
  have hgranted : (pmemRequestFrame (overlappedFrames.view withoutLast)).1 = 0x2000 := by
    decide +kernel
  apply List.mem_append_left
  apply List.mem_append_left
  rw [missing, if_pos hpresent, createdAt, List.map_singleton, hgranted]
  exact List.mem_singleton_self _

/-- What is read as the address of the last frame is an entry of that table, which leads to another one. -/
theorem frameCall_overlappedFrames : ∃ T,
    frameCall fourthPagePML4 overlappedFrames 31 = ⟨T + 3, T + 3⟩ ∧
    4096 ∣ T ∧ T < 0x1f000 := by
  have hworld := tableWorld_overlappedFrames
  have hok := requestsInOrder_overlappedFrames le_rfl
  have hrun := (runCalls_withoutLast hworld.toFrameWorld hworld.zero hok).1
  obtain ⟨t, hpaged, hlast, hcreated⟩ := runCalls_spec (TableFrames.allocatorSpec hworld.toFrameWorld [])
    (paged_start hworld.toFrameWorld hworld.zero) (identityCalls 0 31) hok
  have htable : tableAt fourthPagePML4 t [0] = some 0x2000 :=
    (hcreated [0] 0x2000 (by simp) (by decide)).mpr
      (List.mem_append_left _ created_overlappedFrames)
  have hmapped : ∃ x, t (pathOf 0) = some x := by
    rw [← Option.ne_none_iff_exists', hlast, ne_eq, lastWrite_pageWrites_eq_none_iff]
    exact fun h => h ⟨0, 0⟩ List.mem_cons_self rfl
  obtain ⟨y, hy⟩ := hmapped
  rw [show pathOf 0 = [0, 0] ++ [0, 0] by decide] at hy
  obtain ⟨x, hx⟩ := hpaged.represents.tree.prefix_some (by simp) hy
  have hentry := hpaged.represents.entry [0] 0x2000 (by decide) htable 0 (by decide)
  have harray := hpaged.allocator.holding.same.array
  rw [hrun, ← frameCalls_overlappedFrames le_rfl, ← mapFrames_eq_frameCalls] at hentry harray
  have hword : getFrameAddr (mapFrames fourthPagePML4 overlappedFrames 31) 31 = x.toNat * 4096 + 3 := by
    have harray' : (mapFrames fourthPagePML4 overlappedFrames 31).pmem.array = 0x1e10 := by
      rw [← array_view]
      exact harray
    rw [List.singleton_append, hx, loadEntry] at hentry
    have heq := congrArg PagingEntry.toWord hentry
    rw [PagingEntry.toWord_ofWord (lt_of_lt_of_eq Memory.loadLE_lt (by decide)), entryOf,
      PagingEntry.toWord_linked] at heq
    have hptr : (mapFrames fourthPagePML4 overlappedFrames 31).pmem.framePtr 31 = entryPtr 0x2000 0 := by
      rw [framePtr, harray']
      decide
    rw [getFrameAddr, hptr, Nat.add_comm]
    exact heq
  refine ⟨x.toNat * 4096, ?_, Nat.dvd_mul_left _ _, ?_⟩
  · rw [frameCall, hword]
  · have hT : tableAt fourthPagePML4 t [0, 0] = some (x.toNat * 4096) := by
      rw [tableAt_of_ne_nil (by simp), hx]
      rfl
    rcases hpaged.allocator.locked _ (mem_tables (by decide) hT) with hroot | ⟨j, hj, haddr, _⟩
    · rw [hroot]
      decide
    · have hj' : j < 31 := hj
      rw [← haddr, getFrameAddr_view, getFrameAddr_overlappedFrames (by omega)]
      omega

/-- All calls made there: none of them is for the last frame. -/
theorem calls_overlappedFrames : ∃ calls,
    frameCalls fourthPagePML4 overlappedFrames overlappedFrames.pmem.frames ++ deviceCalls lowKernel = calls ∧
    RequestsInOrder fourthPagePML4 (overlappedFrames.view withoutLast) calls ∧
    ∀ c ∈ calls, ¬SamePage c.vaddr 0x1f000 := by
  obtain ⟨T, hlast, haligned, hbelow⟩ := frameCall_overlappedFrames
  have hdevices : deviceCalls lowKernel =
      [⟨0x80000000, 0x80000000⟩, ⟨0xfee00000, 0xfee00000⟩, ⟨0xfed00000, 0xfed00000⟩] := rfl
  have hframes : frameCalls fourthPagePML4 overlappedFrames overlappedFrames.pmem.frames =
      identityCalls 0 31 ++ [⟨T + 3, T + 3⟩] := by
    rw [show overlappedFrames.pmem.frames = 31 + 1 from rfl, frameCalls_succ,
      frameCalls_overlappedFrames le_rfl, hlast]
  refine ⟨_, rfl, tableWorld_overlappedFrames.requestsInOrder ?_, ?_⟩
  · have hneeded : tablesNeeded (identityCalls 0 31) = 3 := by decide +kernel
    have hfree : 15 ≤ (overlappedFrames.view withoutLast).pmem.freeFrames := by decide +kernel
    have hone := tablesNeeded_append_le (identityCalls 0 31) [⟨T + 3, T + 3⟩]
    have hall := tablesNeeded_append_le (identityCalls 0 31 ++ [⟨T + 3, T + 3⟩]) (deviceCalls lowKernel)
    rw [hdevices] at hall ⊢
    rw [hframes]
    simp only [List.length_cons, List.length_nil] at hone hall
    omega
  · intro c hc
    rw [hframes, hdevices] at hc
    simp only [List.mem_append, List.mem_cons, List.not_mem_nil, or_false] at hc
    unfold SamePage
    rcases hc with (hc | rfl) | rfl | rfl | rfl
    · obtain ⟨j, hj, rfl⟩ := List.mem_map.mp hc
      have hj' := List.mem_range.mp hj
      rw [pageFrom_eq (by omega)]
      dsimp only
      omega
    · dsimp only
      omega
    · decide
    · decide
    · decide

/-- **Identity paging is incomplete where a free frame overlaps the array**: the last of these frames is
left unmapped. -/
theorem identity_paging_incomplete : ¬∀ (PML4 : PML4Table) (kernel : KernelData) (s : Kernel),
    Accounts s → Holding.DistinctAddrs s → (∀ j < s.pmem.frames, 4096 ∣ getFrameAddr s j) →
    (∀ j < s.pmem.frames, getFrameAddr s j < 2 ^ 44) →
    kernel.framebuffer.baseAddress < 2 ^ 44 → kernel.hpetAddress < 2 ^ 44 →
    Disjoint (pageBytes PML4.addr) s.pmem.arrayBytes →
    (∀ a ∈ pageBytes PML4.addr, s.mem.byte a = 0) →
    (∀ r ∈ identityPagingMemoryRequests PML4 kernel s, GrantsTable PML4 r) →
    ∀ j < s.pmem.frames, ∀ offset < 4096,
      translate (identityPagingMemory PML4 kernel s).mem PML4 (getFrameAddr s j + offset) =
        some (getFrameAddr s j + offset) := by
  intro h
  have hworld := tableWorld_overlappedFrames
  obtain ⟨calls, hcalls, hok, hnone⟩ := calls_overlappedFrames
  obtain ⟨hrun, hok'⟩ := runCalls_withoutLast hworld.toFrameWorld hworld.zero hok
  have hself := h fourthPagePML4 lowKernel overlappedFrames (accounts_frameMachine (by decide)) ?_ ?_ ?_
    (by decide) (by decide) ?_ hworld.zero
    (RequestsInOrder.identityPagingMemory (by rw [hcalls]; exact hok')) 31 (by decide) 0 (by decide)
  · have htranslate := (runCalls_first hworld.toFrameWorld hworld.zero hok).1 0x1f000
    rw [hrun, lastWrite_pageWrites_eq_none_iff.mpr hnone] at htranslate
    rw [getFrameAddr_overlappedFrames (by decide), identityPagingMemory_eq_calls, hcalls] at hself
    exact absurd (hself.symm.trans htranslate) (by simp)
  · intro j hj k hk heq
    rw [getFrameAddr_overlappedFrames hj, getFrameAddr_overlappedFrames hk] at heq
    omega
  · intro j hj
    rw [getFrameAddr_overlappedFrames hj]
    exact Nat.dvd_mul_right _ _
  · intro j hj
    have hj' : j < 32 := hj
    rw [getFrameAddr_overlappedFrames hj]
    omega
  · rw [Set.disjoint_left]
    intro a ha ha'
    have hlow : 0x4000 ≤ a := ha.1
    have hhigh : a < 0x1e10 + 32 * 16 := ha'.2
    omega

end MyOSKernel
