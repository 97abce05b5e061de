import MyOSKernel.InitStates

/-! Isolation of the frames handed out. After an initialization that stays in its array the free
frames are pages of usable descriptors, none of them the stack's or one the array lies in; requests
and releases of held frames never make another frame free, and never hand out a held one. -/

namespace MyOSKernel

/-- A map of page-aligned, non-empty, pairwise disjoint descriptors below `2^52`. -/
structure MapLayout (memory : MemoryData) : Prop where
  aligned : ∀ i < memory.entries, 4096 ∣ (getMemoryDescriptor memory i).physicalAddr
  nonempty : ∀ i < memory.entries, 0 < (getMemoryDescriptor memory i).numberOfPages
  below : ∀ i < memory.entries, (getMemoryDescriptor memory i).physicalAddr +
    (getMemoryDescriptor memory i).numberOfPages * 4096 ≤ 2 ^ 52
  disjoint : ∀ i < memory.entries, ∀ j < memory.entries, i ≠ j →
    (getMemoryDescriptor memory i).physicalAddr +
        (getMemoryDescriptor memory i).numberOfPages * 4096 ≤
      (getMemoryDescriptor memory j).physicalAddr ∨
    (getMemoryDescriptor memory j).physicalAddr +
        (getMemoryDescriptor memory j).numberOfPages * 4096 ≤
      (getMemoryDescriptor memory i).physicalAddr

namespace MapLayout
variable {memory : MemoryData} {i j n m : Nat}

theorem toPageLayout (h : MapLayout memory) : PageLayout memory := by
  refine .of_apart h.aligned (fun i hi => ?_) h.disjoint
  have := h.below i hi
  omega

theorem pageAddr_lt (h : MapLayout memory) (hi : i < memory.entries)
    (hn : n < (getMemoryDescriptor memory i).numberOfPages) : pageAddr memory i n + 4096 ≤ 2 ^ 52 := by
  have := h.below i hi
  unfold pageAddr
  omega

theorem pageAddr_aligned (h : MapLayout memory) (hi : i < memory.entries) :
    4096 ∣ pageAddr memory i n := h.toPageLayout.pageAddr_aligned hi

theorem pageAddr_inj (h : MapLayout memory) (hi : i < memory.entries) (hj : j < memory.entries)
    (hn : n < (getMemoryDescriptor memory i).numberOfPages)
    (hm : m < (getMemoryDescriptor memory j).numberOfPages)
    (heq : pageAddr memory i n = pageAddr memory j m) : i = j ∧ n = m :=
  h.toPageLayout.pageAddr_inj hi hj hn hm heq

end MapLayout

namespace PhysicalMemory

variable {kernel : KernelData} {buffer : Nat} {bytes : Nat → UInt8} {s' : Kernel}

/-- What an initialization leaves whose indexes all stayed in the array: the page addresses of the
map, and as free frames only usable ones outside the array's range and not the stack's. -/
structure InitResult (kernel : KernelData) (buffer : Nat) (s' : Kernel) : Prop where
  accounts : Accounts s'
  array : s'.pmem.array = buffer
  frames : s'.pmem.frames = totalPages kernel.memory
  addr : ∀ i < kernel.memory.entries, ∀ n < (getMemoryDescriptor kernel.memory i).numberOfPages,
    getFrameAddr s' (pagesBefore kernel.memory i + n) = pageAddr kernel.memory i n % 2 ^ 64
  usable : ∀ i < kernel.memory.entries, ∀ n < (getMemoryDescriptor kernel.memory i).numberOfPages,
    getFrameState s' (pagesBefore kernel.memory i + n) = FrameState.free.code →
      ¬NotForKernel (getMemoryDescriptor kernel.memory i)
  stack : ∃ stackFrame < s'.pmem.frames, PageContains (getFrameAddr s' stackFrame) kernel.stack ∧
    getFrameState s' stackFrame ≠ FrameState.free.code
  ownFrames : ∀ j < s'.pmem.frames,
    arrayStart kernel.memory buffer kernel.memory.entries ≤ j →
    j < arrayStart kernel.memory buffer kernel.memory.entries + framesLockedForArray kernel.memory →
    getFrameState s' j ≠ FrameState.free.code

/-- A frame left free is usable, not the stack's and outside the range locked for the array. -/
theorem InitStates.of_free {stackFrame i n : Nat} (h : InitStates kernel buffer stackFrame s')
    (hi : i < kernel.memory.entries)
    (hn : n < (getMemoryDescriptor kernel.memory i).numberOfPages)
    (hfree : getFrameState s' (pagesBefore kernel.memory i + n) = FrameState.free.code) :
    ¬NotForKernel (getMemoryDescriptor kernel.memory i) ∧
      pagesBefore kernel.memory i + n ≠ stackFrame ∧
      ¬(arrayStart kernel.memory buffer kernel.memory.entries ≤ pagesBefore kernel.memory i + n ∧
        pagesBefore kernel.memory i + n < arrayStart kernel.memory buffer kernel.memory.entries +
          framesLockedForArray kernel.memory) := by
  rw [h.state i hi n hn] at hfree
  have hstate := FrameState.code_inj hfree
  unfold initState at hstate
  split_ifs at hstate with hres hown
  exact ⟨(not_or.mp hres).1, (not_or.mp hres).2, hown⟩

theorem initResult (hinit : init kernel buffer (bootState bytes) = some s')
    (htotal : totalPages kernel.memory < 2 ^ 60)
    (hfits : buffer + totalPages kernel.memory * 16 ≤ 2 ^ 64)
    (hrange : ∀ idx ∈ s'.pmem.subscripts, idx < totalPages kernel.memory) :
    InitResult kernel buffer s' := by
  obtain ⟨stackFrame, h⟩ := initStates hinit htotal hfits hrange
  refine ⟨h.accounts, h.array, h.frames, h.addr, ?_, ⟨stackFrame, h.stack_lt, h.stack, ?_⟩, ?_⟩
  · exact fun i hi n hn hfree => (h.of_free hi hn hfree).1
  · intro hfree
    obtain ⟨i, n, hi, hn, heq⟩ := exists_descriptor_of_lt _ (h.frames ▸ h.stack_lt)
    rw [heq] at hfree
    exact (h.of_free hi hn hfree).2.1 heq.symm
  · intro j hj hlow hhigh hfree
    obtain ⟨i, n, hi, hn, rfl⟩ := exists_descriptor_of_lt _ (h.frames ▸ hj)
    exact (h.of_free hi hn hfree).2.2 ⟨hlow, hhigh⟩

/-- A page the allocator may hand out. -/
structure Isolated (kernel : KernelData) (s : Kernel) (addr : Nat) : Prop where
  page : ∃ i < kernel.memory.entries, ∃ n < (getMemoryDescriptor kernel.memory i).numberOfPages,
    addr = pageAddr kernel.memory i n ∧
      ((getMemoryDescriptor kernel.memory i).type = EfiMemoryType.conventionalMemory.code ∨
        (getMemoryDescriptor kernel.memory i).type = EfiMemoryType.bootServicesCode.code ∨
        (getMemoryDescriptor kernel.memory i).type = EfiMemoryType.bootServicesData.code)
  stack : kernel.stack ∉ Set.Ico addr (addr + 4096)
  array : Disjoint (Set.Ico addr (addr + 4096)) s.pmem.arrayBytes

namespace InitResult

theorem addr_eq (h : InitResult kernel buffer s') (hlayout : MapLayout kernel.memory) {i n : Nat}
    (hi : i < kernel.memory.entries)
    (hn : n < (getMemoryDescriptor kernel.memory i).numberOfPages) :
    getFrameAddr s' (pagesBefore kernel.memory i + n) = pageAddr kernel.memory i n := by
  have := hlayout.pageAddr_lt hi hn
  rw [h.addr i hi n hn, Nat.mod_eq_of_lt (by omega)]

/-- Every frame is a page of the map. -/
theorem exists_page (h : InitResult kernel buffer s') (hlayout : MapLayout kernel.memory) {j : Nat}
    (hj : j < s'.pmem.frames) : ∃ i < kernel.memory.entries,
      ∃ n < (getMemoryDescriptor kernel.memory i).numberOfPages,
        j = pagesBefore kernel.memory i + n ∧ getFrameAddr s' j = pageAddr kernel.memory i n := by
  obtain ⟨i, n, hi, hn, rfl⟩ := exists_descriptor_of_lt _ (h.frames ▸ hj)
  exact ⟨i, hi, n, hn, rfl, h.addr_eq hlayout hi hn⟩

theorem addr_inj (h : InitResult kernel buffer s') (hlayout : MapLayout kernel.memory) {j k : Nat}
    (hj : j < s'.pmem.frames) (hk : k < s'.pmem.frames)
    (heq : getFrameAddr s' j = getFrameAddr s' k) : j = k := by
  obtain ⟨i, hi, n, hn, rfl, haddr⟩ := h.exists_page hlayout hj
  obtain ⟨l, hl, m, hm, rfl, haddr'⟩ := h.exists_page hlayout hk
  obtain ⟨rfl, rfl⟩ := hlayout.pageAddr_inj hi hl hn hm (by rw [← haddr, ← haddr', heq])
  rfl

theorem stack_notMem (h : InitResult kernel buffer s') (hlayout : MapLayout kernel.memory) {j : Nat}
    (hj : j < s'.pmem.frames) (hfree : getFrameState s' j = FrameState.free.code) :
    kernel.stack ∉ Set.Ico (getFrameAddr s' j) (getFrameAddr s' j + 4096) := by
  intro hin
  obtain ⟨stackFrame, hlt, hcontains, hstate⟩ := h.stack
  have hlow := hin.1
  have hhigh := hin.2
  obtain ⟨i, hi, n, hn, _, haddr⟩ := h.exists_page hlayout hj
  obtain ⟨l, hl, m, hm, _, haddr'⟩ := h.exists_page hlayout hlt
  have hdvd := hlayout.pageAddr_aligned (n := n) hi
  have hdvd' := hlayout.pageAddr_aligned (n := m) hl
  have hbound := hlayout.pageAddr_lt hi hn
  have hbound' := hlayout.pageAddr_lt hl hm
  rw [PageContains, haddr'] at hcontains
  rw [haddr] at hlow hhigh
  -- two aligned pages with a common byte are the same page
  have heq : getFrameAddr s' j = getFrameAddr s' stackFrame := by
    rw [haddr, haddr']
    omega
  rw [h.addr_inj hlayout hj hlt heq] at hfree
  exact hstate hfree

/-- The frames locked for the array cover it. -/
theorem array_disjoint (h : InitResult kernel buffer s') (hlayout : MapLayout kernel.memory)
    (hbuffer : buffer = (getLargestFreeMemSeg kernel.memory 0).2)
    (hpages : 32 ≤ totalPages kernel.memory)
    (hsegment : totalPages kernel.memory * 16 ≤ (getLargestFreeMemSeg kernel.memory 0).1) {j : Nat}
    (hj : j < s'.pmem.frames) (hfree : getFrameState s' j = FrameState.free.code) :
    Disjoint (Set.Ico (getFrameAddr s' j) (getFrameAddr s' j + 4096)) s'.pmem.arrayBytes := by
  rw [Set.disjoint_left]
  intro a ha ha'
  rw [arrayBytes, h.array, h.frames] at ha'
  have hlow' := ha'.1
  have hhigh' := ha'.2
  rcases (getLargestFreeMemSeg_spec kernel.memory 0).found with hnone | ⟨k, hk, _, _, hfound⟩
  · rw [hnone] at hsegment
    simp only at hsegment
    omega
  · have hbelow := hlayout.below k hk
    have hsize : segmentSz kernel.memory k =
        (getMemoryDescriptor kernel.memory k).numberOfPages * 4096 := Nat.mod_eq_of_lt (by
      show _ * 4096 < _
      omega)
    rw [hfound, hsize] at hsegment
    rw [hfound] at hbuffer
    simp only at hsegment hbuffer
    subst buffer
    obtain ⟨i, hi, n, hn, rfl, haddr⟩ := h.exists_page hlayout hj
    rw [haddr] at ha
    have hlow := ha.1
    have hhigh := ha.2
    have hin : a ∈ descriptorBytes kernel.memory k := Set.mem_Ico.mpr ⟨hlow', by omega⟩
    obtain rfl := hlayout.toPageLayout.descriptor_unique hi hk hn ha hin
    -- the page is one of the first `ceil(frames / 256)`, and `frames / 32` are locked
    have hstart := arrayStart_eq hlayout.toPageLayout hlayout.nonempty hi
    refine h.ownFrames _ hj ?_ ?_ hfree
    · omega
    · unfold pageAddr at hlow
      unfold framesLockedForArray
      omega

theorem isolated (h : InitResult kernel buffer s') (hlayout : MapLayout kernel.memory)
    (hbuffer : buffer = (getLargestFreeMemSeg kernel.memory 0).2)
    (hpages : 32 ≤ totalPages kernel.memory)
    (hsegment : totalPages kernel.memory * 16 ≤ (getLargestFreeMemSeg kernel.memory 0).1) {j : Nat}
    (hj : j < s'.pmem.frames) (hfree : getFrameState s' j = FrameState.free.code) :
    Isolated kernel s' (getFrameAddr s' j) := by
  refine ⟨?_, h.stack_notMem hlayout hj hfree,
    h.array_disjoint hlayout hbuffer hpages hsegment hj hfree⟩
  obtain ⟨i, hi, n, hn, rfl, haddr⟩ := h.exists_page hlayout hj
  have husable := h.usable i hi n hn hfree
  refine ⟨i, hi, n, hn, haddr, ?_⟩
  by_contra hnone
  rw [not_or, not_or] at hnone
  exact husable hnone

end InitResult

/-- The machine and the addresses of the frames requesters hold. -/
structure Holding where
  kernel : Kernel
  held : List Nat

namespace Holding

/-- `NULL` is not held by anybody. -/
def grant (addr : Nat) (held : List Nat) : List Nat := if addr = 0 then held else addr :: held

/-- A request by anybody, or the release of a frame that is held. -/
inductive Step : Holding → Holding → Prop
  | request (h : Holding) :
      Step h ⟨(pmemRequestFrame h.kernel).2, grant (pmemRequestFrame h.kernel).1 h.held⟩
  | free (h : Holding) (index : Nat) (hindex : index < h.kernel.pmem.frames)
      (hheld : getFrameAddr h.kernel index ∈ h.held) :
      Step h ⟨freeFrame h.kernel index, h.held.erase (getFrameAddr h.kernel index)⟩

/-- What requests and releases keep, from the machine `s` on: no frame becomes free that was not
free in `s`, and the held frames are locked frames of the array. -/
structure Invariant (s : Kernel) (h : Holding) : Prop where
  accounts : Accounts h.kernel
  same : SameFrames s h.kernel
  free : ∀ j < s.pmem.frames, getFrameState h.kernel j = FrameState.free.code →
    getFrameState s j = FrameState.free.code
  held : ∀ a ∈ h.held, ∃ j < s.pmem.frames, getFrameAddr s j = a ∧
    getFrameState h.kernel j = FrameState.locked.code ∧
    getFrameState s j = FrameState.free.code
  nodup : h.held.Nodup

variable {s : Kernel} {h h' : Holding}

theorem Invariant.init (hs : Accounts s) : Invariant s ⟨s, []⟩ :=
  ⟨hs, .refl s, fun _ _ hfree => hfree, fun _ ha => absurd ha List.not_mem_nil, List.nodup_nil⟩

/-- The frames of `s` have pairwise distinct addresses. -/
def DistinctAddrs (s : Kernel) : Prop :=
  ∀ j < s.pmem.frames, ∀ k < s.pmem.frames, getFrameAddr s j = getFrameAddr s k → j = k

/-- An address about to be handed out is that of a free frame, and nobody holds it. -/
theorem Invariant.request_fresh (hinv : Invariant s h) (hdistinct : DistinctAddrs s)
    (hnull : (pmemRequestFrame h.kernel).1 ≠ 0) :
    ∃ j < s.pmem.frames, (pmemRequestFrame h.kernel).1 = getFrameAddr s j ∧
      getFrameState s j = FrameState.free.code ∧ (pmemRequestFrame h.kernel).1 ∉ h.held := by
  rcases hinv.accounts.request_cases with ⟨_, _, heq⟩ | ⟨j, hj, _, _, hm, haddr⟩
  · rw [heq] at hnull
    exact absurd rfl hnull
  · rw [hinv.same.frames] at hj
    rw [hinv.same.addr j hj] at haddr
    refine ⟨j, hj, haddr, hinv.free j hj hm.was, ?_⟩
    intro hheld
    obtain ⟨k, hk, hka, hlocked, _⟩ := hinv.held _ hheld
    obtain rfl := hdistinct j hj k hk (by rw [hka, haddr])
    rw [hm.was] at hlocked
    exact absurd hlocked (by decide)

theorem Invariant.request (hinv : Invariant s h) (hdistinct : DistinctAddrs s) :
    Invariant s ⟨(pmemRequestFrame h.kernel).2, grant (pmemRequestFrame h.kernel).1 h.held⟩ := by
  have hfresh := hinv.request_fresh hdistinct
  rcases hinv.accounts.request_cases with ⟨_, _, heq⟩ | ⟨j, hj, _, _, hm, haddr⟩
  · rw [heq]
    exact hinv
  · have hj' : j < s.pmem.frames := hinv.same.frames ▸ hj
    have hstate : ∀ k < s.pmem.frames, getFrameState (pmemRequestFrame h.kernel).2 k =
        if k = j then FrameState.locked.code else getFrameState h.kernel k :=
      fun k hk => hm.state k (by rw [hinv.same.frames]; exact hk)
    refine ⟨hinv.accounts.request, hinv.same.trans (.request hinv.accounts), ?_, ?_, ?_⟩
    · intro k hk hfree
      rw [hstate k hk] at hfree
      split_ifs at hfree with hkj
      · exact absurd hfree (by decide)
      · exact hinv.free k hk hfree
    · intro a ha
      have hold : a ∈ h.held → ∃ k < s.pmem.frames, getFrameAddr s k = a ∧
          getFrameState (pmemRequestFrame h.kernel).2 k = FrameState.locked.code ∧
          getFrameState s k = FrameState.free.code := by
        intro hin
        obtain ⟨k, hk, hka, hlocked, hfree⟩ := hinv.held a hin
        refine ⟨k, hk, hka, ?_, hfree⟩
        rw [hstate k hk]
        split_ifs
        · rfl
        · exact hlocked
      simp only [grant] at ha
      split_ifs at ha with hnull
      · exact hold ha
      · rcases List.mem_cons.mp ha with rfl | hin
        · refine ⟨j, hj', ?_, ?_, hinv.free j hj' hm.was⟩
          · rw [haddr, hinv.same.addr j hj']
          · rw [hstate j hj', if_pos rfl]
        · exact hold hin
    · show (grant _ _).Nodup
      unfold grant
      split_ifs with hnull
      · exact hinv.nodup
      · obtain ⟨_, _, _, _, hnot⟩ := hfresh hnull
        exact List.nodup_cons.mpr ⟨hnot, hinv.nodup⟩

theorem Invariant.release (hinv : Invariant s h) (hdistinct : DistinctAddrs s) {index : Nat}
    (hindex : index < h.kernel.pmem.frames) (hheld : getFrameAddr h.kernel index ∈ h.held) :
    Invariant s ⟨freeFrame h.kernel index, h.held.erase (getFrameAddr h.kernel index)⟩ := by
  have hindex' : index < s.pmem.frames := hinv.same.frames ▸ hindex
  obtain ⟨k, hk, hka, hlocked, hfree⟩ := hinv.held _ hheld
  rw [hinv.same.addr index hindex'] at hka
  obtain rfl := hdistinct k hk index hindex' hka
  have hm : Moved .locked .free h.kernel (freeFrame h.kernel k) k :=
    moved_moveFrame hinv.accounts.fits hindex hlocked
  have hstate : ∀ j < s.pmem.frames, getFrameState (freeFrame h.kernel k) j =
      if j = k then FrameState.free.code else getFrameState h.kernel j :=
    fun j hj => hm.state j (by rw [hinv.same.frames]; exact hj)
  refine ⟨hinv.accounts.moved (by decide) hindex hm, hinv.same.trans (.of_moved hm), ?_, ?_,
    hinv.nodup.erase _⟩
  · intro j hj hj'
    rw [hstate j hj] at hj'
    split_ifs at hj' with hjk
    · rw [hjk]
      exact hfree
    · exact hinv.free j hj hj'
  · intro a ha
    obtain ⟨hne, hin⟩ := hinv.nodup.mem_erase_iff.mp ha
    obtain ⟨j, hj, hja, hjlocked, hjfree⟩ := hinv.held a hin
    refine ⟨j, hj, hja, ?_, hjfree⟩
    rw [hstate j hj, if_neg]
    · exact hjlocked
    · rintro rfl
      rw [hinv.same.addr j hj] at hne
      exact hne hja.symm

theorem Invariant.step (hinv : Invariant s h) (hdistinct : DistinctAddrs s) (hstep : Step h h') :
    Invariant s h' := by
  cases hstep with
  | request => exact hinv.request hdistinct
  | free index hindex hheld => exact hinv.release hdistinct hindex hheld

theorem Invariant.run (hs : Accounts s) (hdistinct : DistinctAddrs s)
    (hrun : Relation.ReflTransGen Step ⟨s, []⟩ h) : Invariant s h := by
  induction hrun with
  | refl => exact .init hs
  | tail _ hstep ih => exact ih.step hdistinct hstep

end Holding

theorem SameFrames.arrayBytes_eq {s t : Kernel} (h : SameFrames s t) :
    t.pmem.arrayBytes = s.pmem.arrayBytes := by
  rw [arrayBytes, arrayBytes, h.array, h.frames]

/-- The result of an initialization of a well laid out map that stayed in its array. -/
theorem initResult_of_layout (hlayout : MapLayout kernel.memory)
    (hinit : initPhysicalMemory kernel (bootState bytes) = some s')
    (hsegment : s'.pmem.frames * 16 ≤ (getLargestFreeMemSeg kernel.memory 0).1)
    (hrange : ∀ idx ∈ s'.pmem.subscripts, idx < s'.pmem.frames) :
    totalPages kernel.memory * 16 ≤ (getLargestFreeMemSeg kernel.memory 0).1 ∧
      InitResult kernel (getLargestFreeMemSeg kernel.memory 0).2 s' := by
  have hsize := (getLargestFreeMemSeg_bounds kernel.memory).2.1
  have hframes := init_frames hinit
  -- a total that overflowed would have been used as an index
  have htotal : totalPages kernel.memory < 2 ^ 64 := by
    by_contra hlarge
    have hpast := hrange (totalPages kernel.memory % 2 ^ 64) ((mem_subscripts_init hinit _).mpr
      (Or.inr (Or.inr (Or.inl ⟨totalPages kernel.memory % 2 ^ 64, by omega, by omega⟩))))
    omega
  have hspace : (getLargestFreeMemSeg kernel.memory 0).2 +
      (getLargestFreeMemSeg kernel.memory 0).1 ≤ 2 ^ 64 := by
    rcases (getLargestFreeMemSeg_spec kernel.memory 0).found with hnone | ⟨k, hk, _, _, hfound⟩
    · rw [hnone]
      decide
    · have hbelow := hlayout.below k hk
      have hle : segmentSz kernel.memory k ≤
          (getMemoryDescriptor kernel.memory k).numberOfPages * 4096 := Nat.mod_le _ _
      rw [hfound]
      show (getMemoryDescriptor kernel.memory k).physicalAddr + segmentSz kernel.memory k ≤ 2 ^ 64
      omega
  rw [hframes, Nat.mod_eq_of_lt htotal] at hsegment hrange
  exact ⟨hsegment, initResult hinit (by omega) (by omega) hrange⟩

/-- **Frames handed out are isolated.** After an initialization that stayed in its array and any
sequence of requests and releases, a request that does not fail returns a page of a usable
descriptor that is not the stack's, does not meet the array and is held by nobody. -/
theorem requested_frames_isolated (kernel : KernelData) (bytes : Nat → UInt8) (s' : Kernel)
    (hlayout : MapLayout kernel.memory) (hpages : 32 ≤ totalPages kernel.memory)
    (hinit : initPhysicalMemory kernel (bootState bytes) = some s')
    (hsegment : s'.pmem.frames * 16 ≤ (getLargestFreeMemSeg kernel.memory 0).1)
    (hrange : ∀ idx ∈ s'.pmem.subscripts, idx < s'.pmem.frames)
    (h : Holding) (hrun : Relation.ReflTransGen Holding.Step ⟨s', []⟩ h)
    (hnull : (pmemRequestFrame h.kernel).1 ≠ 0) :
    Isolated kernel h.kernel (pmemRequestFrame h.kernel).1 ∧ (pmemRequestFrame h.kernel).1 ∉ h.held := by
  obtain ⟨hsegment', hresult⟩ := initResult_of_layout hlayout hinit hsegment hrange
  have hdistinct : Holding.DistinctAddrs s' := fun j hj k hk heq => hresult.addr_inj hlayout hj hk heq
  have hinv := Holding.Invariant.run hresult.accounts hdistinct hrun
  obtain ⟨j, hj, haddr, hfree, hnot⟩ := hinv.request_fresh hdistinct hnull
  have hisolated := hresult.isolated hlayout rfl hpages hsegment' hj hfree
  rw [← haddr] at hisolated
  refine ⟨⟨hisolated.page, hisolated.stack, ?_⟩, hnot⟩
  rw [hinv.same.arrayBytes_eq]
  exact hisolated.array

/-- A kernel on 32 pages of conventional memory: the first is the array's, the fourth the stack's. -/
def segmentKernel : KernelData where
  stack := 0x4800
  framebuffer := { baseAddress := 0, bufferSize := 0 }
  memory := soleDescriptor 7 32
  hpetAddress := 0
  hpetCapReg := 0

/-- The machine after its initialization. -/
def segmentMachine : Kernel :=
  (initPhysicalMemory segmentKernel (bootState fun _ => 0xff)).get (by decide +kernel)

theorem initPhysicalMemory_segment :
    initPhysicalMemory segmentKernel (bootState fun _ => 0xff) = some segmentMachine :=
  (Option.some_get (x := initPhysicalMemory segmentKernel (bootState fun _ => 0xff)) _).symm

theorem mapLayout_segment : MapLayout segmentKernel.memory :=
  ⟨by decide +kernel, by decide +kernel, by decide +kernel, by decide +kernel⟩

/-- Somebody has requested a frame there. -/
def segmentHolding : Holding :=
  ⟨(pmemRequestFrame segmentMachine).2, Holding.grant (pmemRequestFrame segmentMachine).1 []⟩

/-- The second request there. -/
theorem requested_frames_isolated_segment :
    Isolated segmentKernel segmentHolding.kernel (pmemRequestFrame segmentHolding.kernel).1 ∧
      (pmemRequestFrame segmentHolding.kernel).1 ∉ segmentHolding.held :=
  requested_frames_isolated segmentKernel (fun _ => 0xff) segmentMachine mapLayout_segment
    (by decide +kernel) initPhysicalMemory_segment (by decide +kernel) (by decide +kernel) segmentHolding
    (Relation.ReflTransGen.single (Holding.Step.request ⟨segmentMachine, []⟩)) (by decide +kernel)

end PhysicalMemory

end MyOSKernel
