import MyOSKernel.InitSafety
import MyOSKernel.MapPages

/-! The state of every frame after an initialization that stays in its array. Frames the kernel must
not use and the stack's are reserved; of the others those in the range locked for the array are
locked, and that range is not the one the array occupies. -/

namespace MyOSKernel.PhysicalMemory

variable {kernel : KernelData} {memory : MemoryData} {buffer : Nat} {bytes : Nat → UInt8}
  {s' : Kernel}

/-- The first `count` frames of the array's range are not free any longer: the free ones have been
locked. -/
structure ArrayLocked (start : Nat) (s : Kernel) (count : Nat) (t : Kernel) : Prop where
  accounts : Accounts t
  same : SameFrames s t
  state : ∀ j < s.pmem.frames, getFrameState t j =
    if (start ≤ j ∧ j < start + count) ∧ getFrameState s j = FrameState.free.code then
      FrameState.locked.code
    else getFrameState s j

theorem arrayLocked_lockArrayFrames (start : Nat) {s : Kernel} (hs : Accounts s)
    (hrange : start + getFramesArraySz s.pmem.toPhysicalMemory / 4096 ≤ s.pmem.frames) :
    ArrayLocked start s (getFramesArraySz s.pmem.toPhysicalMemory / 4096)
      (lockArrayFrames start s) := by
  have hle := hs.frames_le
  unfold lockArrayFrames
  apply fold_invariant (ArrayLocked start s)
  · exact ⟨hs, .refl s, fun j _ => (if_neg fun hc => by omega).symm⟩
  intro i hi t ht
  have hidx : start + i < t.pmem.frames := by
    rw [ht.same.frames]
    omega
  rw [Nat.mod_eq_of_lt (show start + i < 2 ^ 64 by omega)]
  refine ⟨ht.accounts.moveFrame (by decide) hidx,
    ht.same.trans (.moveFrame ht.accounts.fits hidx), ?_⟩
  intro j hj
  have hj' : j < t.pmem.frames := ht.same.frames ▸ hj
  rw [lockFrame, getFrameState_moveFrame .free .locked ht.accounts.fits hidx hj']
  by_cases heq : j = start + i
  · -- no earlier round has touched this frame
    have hbefore : getFrameState t j = getFrameState s j := by
      rw [ht.state j hj, if_neg]
      intro hc
      omega
    have hin : start ≤ j ∧ j < start + (i + 1) := by omega
    rw [hbefore]
    by_cases hfree : getFrameState s j = FrameState.free.code
    · rw [if_pos ⟨heq, hfree⟩, if_pos ⟨hin, hfree⟩]
    · rw [if_neg fun hc => hfree hc.2, if_neg fun hc => hfree hc.2]
  · have hiff : (start ≤ j ∧ j < start + i) ↔ (start ≤ j ∧ j < start + (i + 1)) := by omega
    rw [if_neg fun hc => heq hc.1, ht.state j hj]
    simp only [hiff]

theorem Accounts.setInitialized {s : Kernel} (h : Accounts s) : Accounts (setInitialized s) :=
  ⟨h.fits, h.legal, h.count⟩

/-- The state of frame `j`, of a page of `desc`, when the stack's frame is `stackFrame`. -/
def initState (memory : MemoryData) (buffer stackFrame : Nat) (desc : EfiMemoryDescriptor) (j : Nat) :
    FrameState :=
  if NotForKernel desc ∨ j = stackFrame then .reserved
  else if arrayStart memory buffer memory.entries ≤ j ∧
      j < arrayStart memory buffer memory.entries + framesLockedForArray memory then .locked
  else .free

/-- What an initialization leaves whose indexes all stayed in the array: the page addresses of the
map, and every frame in its state. -/
structure InitStates (kernel : KernelData) (buffer stackFrame : Nat) (s' : Kernel) : Prop where
  accounts : Accounts s'
  array : s'.pmem.array = buffer
  frames : s'.pmem.frames = totalPages kernel.memory
  addr : ∀ i < kernel.memory.entries, ∀ n < (getMemoryDescriptor kernel.memory i).numberOfPages,
    getFrameAddr s' (pagesBefore kernel.memory i + n) = pageAddr kernel.memory i n % 2 ^ 64
  stack_lt : stackFrame < s'.pmem.frames
  stack : PageContains (getFrameAddr s' stackFrame) kernel.stack
  state : ∀ i < kernel.memory.entries, ∀ n < (getMemoryDescriptor kernel.memory i).numberOfPages,
    getFrameState s' (pagesBefore kernel.memory i + n) = (initState kernel.memory buffer stackFrame
      (getMemoryDescriptor kernel.memory i) (pagesBefore kernel.memory i + n)).code

theorem initStates (hinit : init kernel buffer (bootState bytes) = some s')
    (htotal : totalPages kernel.memory < 2 ^ 60)
    (hfits : buffer + totalPages kernel.memory * 16 ≤ 2 ^ 64)
    (hrange : ∀ idx ∈ s'.pmem.subscripts, idx < totalPages kernel.memory) :
    ∃ stackFrame, InitStates kernel buffer stackFrame s' := by
  obtain ⟨hstack, hown⟩ := (subscripts_lt_iff hinit htotal hfits).mp hrange
  obtain ⟨_, fill, rfl, rfl⟩ := init_eq_some hinit
  obtain ⟨hstart, hfilled⟩ := filled_clearedState bytes (by omega) hfits
  have hlt := (stackFrame_lt_iff hfilled (by omega)).mpr hstack
  rw [hstart]
  set t := (fillFrames kernel.memory buffer (clearedState kernel.memory buffer bytes)).kernel
  have hframes : t.pmem.frames = totalPages kernel.memory := by
    rw [hfilled.frames, clearedState_frames, Nat.mod_eq_of_lt (by omega)]
  set stackFrame := getFrameIndexByPtr t kernel.stack with hstackFrame
  -- the frame of the stack is reserved
  have hsame : SameFrames t (reserveFrame t stackFrame) :=
    .moveFrame hfilled.accounts.fits (by omega)
  -- and then the frames of the array are locked
  have hcount : getFramesArraySz (reserveFrame t stackFrame).pmem.toPhysicalMemory / 4096 =
      framesLockedForArray kernel.memory := by
    rw [getFramesArraySz, hsame.frames, hframes]
    rfl
  have hreserved : Accounts (reserveFrame t stackFrame) :=
    hfilled.accounts.moveFrame (by decide) (show stackFrame < _ by omega)
  have hlocked := arrayLocked_lockArrayFrames
    (arrayStart kernel.memory buffer kernel.memory.entries) hreserved
    (by rw [hcount, hsame.frames, hframes]; exact hown)
  rw [hcount] at hlocked
  set u := lockArrayFrames (arrayStart kernel.memory buffer kernel.memory.entries)
    (reserveFrame t stackFrame)
  have hsame' : SameFrames t u := hsame.trans hlocked.same
  have huframes : u.pmem.frames = totalPages kernel.memory := hsame'.frames.trans hframes
  refine ⟨stackFrame, hlocked.accounts.setInitialized, hsame'.array.trans (hfilled.array.trans
    (clearedState_array _ _ _)), huframes, ?_, ?_, ?_, ?_⟩
  · intro i hi n hn
    have hidx := pagesBefore_add_lt _ hi hn
    exact (hsame'.addr _ (by omega)).trans (hfilled.page i hi n hn hidx).1
  · rw [← huframes] at hlt
    exact hlt
  · show PageContains (getFrameAddr u stackFrame) kernel.stack
    rw [hsame'.addr _ (by omega)]
    rcases getFrameIndexByPtr_cases t kernel.stack with ⟨i, _, heq, hcontains, _⟩ | ⟨heq, _⟩
    · rw [hstackFrame, heq]
      exact hcontains
    · omega
  · intro i hi n hn
    have hidx := pagesBefore_add_lt _ hi hn
    have hfill := (hfilled.page i hi n hn hidx).2
    set j := pagesBefore kernel.memory i + n
    have hj : j < t.pmem.frames := by omega
    have hreserve : getFrameState (reserveFrame t stackFrame) j =
        (if NotForKernel (getMemoryDescriptor kernel.memory i) ∨ j = stackFrame then
          FrameState.reserved else .free).code := by
      rw [reserveFrame, getFrameState_moveFrame .free .reserved hfilled.accounts.fits
        (show stackFrame < t.pmem.frames by omega) hj, hfill, fillState]
      by_cases hdesc : NotForKernel (getMemoryDescriptor kernel.memory i)
      · rw [if_pos hdesc, if_pos (Or.inl hdesc), ite_eq_left_iff.mpr fun _ => rfl]
      · rw [if_neg hdesc]
        by_cases hstackj : j = stackFrame
        · rw [if_pos ⟨hstackj, rfl⟩, if_pos (Or.inr hstackj)]
        · rw [if_neg fun hc => hstackj hc.1, if_neg (not_or_intro hdesc hstackj)]
    show getFrameState u j = _
    rw [hlocked.state j (by rw [hsame.frames]; exact hj), hreserve, initState]
    by_cases hres : NotForKernel (getMemoryDescriptor kernel.memory i) ∨ j = stackFrame
    · rw [if_pos hres, if_pos hres, if_neg fun hc => absurd hc.2 (by decide)]
    · rw [if_neg hres, if_neg hres]
      by_cases hown' : arrayStart kernel.memory buffer kernel.memory.entries ≤ j ∧
          j < arrayStart kernel.memory buffer kernel.memory.entries +
            framesLockedForArray kernel.memory
      · rw [if_pos ⟨hown', rfl⟩, if_pos hown']
      · rw [if_neg fun hc => hown' hc.1, if_neg hown']

/-- The array's own descriptor gives the first of its frames. -/
theorem arrayStart_eq (hlayout : PageLayout memory)
    (hnonempty : ∀ i < memory.entries, 0 < (getMemoryDescriptor memory i).numberOfPages) {k : Nat}
    (hk : k < memory.entries) :
    arrayStart memory (getMemoryDescriptor memory k).physicalAddr memory.entries =
      pagesBefore memory k := by
  have hsearch : ∀ count ≤ memory.entries, k < count →
      arrayStart memory (getMemoryDescriptor memory k).physicalAddr count = pagesBefore memory k := by
    intro count
    induction count with
    | zero => intro _ hlt; exact absurd hlt (Nat.not_lt_zero k)
    | succ count ih =>
        intro hcount hlt
        rw [arrayStart]
        split_ifs with heq
        · -- two descriptors with one start have a page in common
          have hstart : pageAddr memory count 0 = pageAddr memory k 0 := by
            unfold pageAddr
            omega
          rw [(hlayout.pageAddr_inj hcount hk (hnonempty count hcount) (hnonempty k hk) hstart).1]
        · exact ih (by omega) (lt_of_le_of_ne (Nat.lt_succ_iff.mp hlt) fun hc => heq (by rw [hc]))
  exact hsearch _ le_rfl hk

/-- The frames the array occupies: its size in bytes, rounded up to whole frames. -/
def framesOfArray (memory : MemoryData) : Nat := (totalPages memory * 16 + 4095) / 4096

/-- With a segment that holds the array, the pages it meets are the first of that segment. -/
theorem array_meets_page_iff (hlayout : PageLayout memory)
    (hnonempty : ∀ i < memory.entries, 0 < (getMemoryDescriptor memory i).numberOfPages)
    (hsegment : totalPages memory * 16 ≤ (getLargestFreeMemSeg memory 0).1) {i n : Nat}
    (hi : i < memory.entries) (hn : n < (getMemoryDescriptor memory i).numberOfPages) :
    let start := arrayStart memory (getLargestFreeMemSeg memory 0).2 memory.entries
    (Set.Ico (pageAddr memory i n) (pageAddr memory i n + 4096) ∩
        Set.Ico (getLargestFreeMemSeg memory 0).2
          ((getLargestFreeMemSeg memory 0).2 + totalPages memory * 16)).Nonempty ↔
      start ≤ pagesBefore memory i + n ∧ pagesBefore memory i + n < start + framesOfArray memory := by
  have htotal := pagesBefore_add_lt memory hi hn
  rcases (getLargestFreeMemSeg_spec memory 0).found with hnone | ⟨k, hk, _, _, hfound⟩
  · rw [hnone] at hsegment
    have hzero : totalPages memory * 16 ≤ 0 := hsegment
    omega
  have hsize : segmentSz memory k ≤ (getMemoryDescriptor memory k).numberOfPages * 4096 :=
    Nat.mod_le _ _
  rw [hfound] at hsegment ⊢
  dsimp only at hsegment ⊢
  rw [arrayStart_eq hlayout hnonempty hk]
  unfold framesOfArray
  constructor
  · intro h
    obtain ⟨a, ha, ha'⟩ := h
    have hin : a ∈ descriptorBytes memory k :=
      Set.mem_Ico.mpr ⟨ha'.1, lt_of_lt_of_le ha'.2 (by omega)⟩
    obtain rfl := hlayout.descriptor_unique hi hk hn ha hin
    have hlow := ha.1
    have hhigh := ha'.2
    unfold pageAddr at hlow
    constructor
    · omega
    · omega
  · intro hj
    obtain ⟨hlow, hhigh⟩ := hj
    -- the index is one of the segment's
    have hm : pagesBefore memory i + n - pagesBefore memory k <
        (getMemoryDescriptor memory k).numberOfPages := by omega
    have heq : pagesBefore memory k + (pagesBefore memory i + n - pagesBefore memory k) =
        pagesBefore memory i + n := by omega
    obtain ⟨rfl, _⟩ := pagesBefore_add_inj memory hm hn heq
    refine ⟨pageAddr memory k n, ?_, ?_⟩
    · exact Set.mem_Ico.mpr ⟨le_rfl, by omega⟩
    · unfold pageAddr
      exact Set.mem_Ico.mpr ⟨by omega, by omega⟩

/-- The frame of page `n` of descriptor `i` is reserved when the kernel must not use it or the stack
lies in it, locked when it is not reserved and meets the array, and otherwise free. -/
structure ExactState (kernel : KernelData) (s' : Kernel) (i n : Nat) : Prop where
  reserved : getFrameState s' (pagesBefore kernel.memory i + n) = FrameState.reserved.code ↔
    NotForKernel (getMemoryDescriptor kernel.memory i) ∨
      kernel.stack ∈ Set.Ico (pageAddr kernel.memory i n) (pageAddr kernel.memory i n + 4096)
  locked : getFrameState s' (pagesBefore kernel.memory i + n) = FrameState.locked.code ↔
    getFrameState s' (pagesBefore kernel.memory i + n) ≠ FrameState.reserved.code ∧
      (Set.Ico (pageAddr kernel.memory i n) (pageAddr kernel.memory i n + 4096) ∩
        s'.pmem.arrayBytes).Nonempty
  free : getFrameState s' (pagesBefore kernel.memory i + n) = FrameState.free.code ↔
    getFrameState s' (pagesBefore kernel.memory i + n) ≠ FrameState.reserved.code ∧
      getFrameState s' (pagesBefore kernel.memory i + n) ≠ FrameState.locked.code

/-- Every usable frame from the array's first on, the stack's apart, is among those locked when it is
among those the array occupies, and the other way round. -/
def LocksTheArray (kernel : KernelData) : Prop :=
  let start := arrayStart kernel.memory (getLargestFreeMemSeg kernel.memory 0).2 kernel.memory.entries
  ∀ i < kernel.memory.entries, ∀ n < (getMemoryDescriptor kernel.memory i).numberOfPages,
    NotForKernel (getMemoryDescriptor kernel.memory i) ∨
      kernel.stack ∈ Set.Ico (pageAddr kernel.memory i n) (pageAddr kernel.memory i n + 4096) ∨
      (start ≤ pagesBefore kernel.memory i + n →
        (pagesBefore kernel.memory i + n < start + framesLockedForArray kernel.memory ↔
          pagesBefore kernel.memory i + n < start + framesOfArray kernel.memory))

namespace InitStates
variable {stackFrame i n : Nat}

/-- The stack's frame is the page the stack lies in. -/
theorem eq_stackFrame_iff (h : InitStates kernel buffer stackFrame s')
    (hlayout : PageLayout kernel.memory) (hi : i < kernel.memory.entries)
    (hn : n < (getMemoryDescriptor kernel.memory i).numberOfPages) :
    pagesBefore kernel.memory i + n = stackFrame ↔
      kernel.stack ∈ Set.Ico (pageAddr kernel.memory i n) (pageAddr kernel.memory i n + 4096) := by
  obtain ⟨l, m, hl, hm, heq⟩ := exists_descriptor_of_lt _ (h.frames ▸ h.stack_lt)
  have hbound := hlayout.pageAddr_lt hl hm
  have hstack := h.stack
  rw [heq, h.addr l hl m hm, Nat.mod_eq_of_lt (by omega), PageContains] at hstack
  have hin : kernel.stack ∈ Set.Ico (pageAddr kernel.memory l m) (pageAddr kernel.memory l m + 4096) :=
    Set.mem_Ico.mpr ⟨hstack.1, hstack.2.trans_le (Nat.mod_le _ _)⟩
  constructor
  · intro hframe
    obtain ⟨rfl, rfl⟩ := pagesBefore_add_inj _ hn hm (hframe.trans heq)
    exact hin
  · intro hstack'
    obtain ⟨rfl, rfl⟩ := hlayout.page_unique hi hl hn hm hstack' hin
    exact heq.symm

theorem exactState_iff (h : InitStates kernel (getLargestFreeMemSeg kernel.memory 0).2 stackFrame s')
    (hlayout : PageLayout kernel.memory) (hnonempty : ∀ i < kernel.memory.entries,
      0 < (getMemoryDescriptor kernel.memory i).numberOfPages)
    (hsegment : totalPages kernel.memory * 16 ≤ (getLargestFreeMemSeg kernel.memory 0).1)
    (hi : i < kernel.memory.entries) (hn : n < (getMemoryDescriptor kernel.memory i).numberOfPages) :
    let start := arrayStart kernel.memory (getLargestFreeMemSeg kernel.memory 0).2
      kernel.memory.entries
    ExactState kernel s' i n ↔
      NotForKernel (getMemoryDescriptor kernel.memory i) ∨
        kernel.stack ∈ Set.Ico (pageAddr kernel.memory i n) (pageAddr kernel.memory i n + 4096) ∨
        (start ≤ pagesBefore kernel.memory i + n →
          (pagesBefore kernel.memory i + n < start + framesLockedForArray kernel.memory ↔
            pagesBefore kernel.memory i + n < start + framesOfArray kernel.memory)) := by
  intro start
  have hstack := h.eq_stackFrame_iff hlayout hi hn
  have hstate := h.state i hi n hn
  have harray : s'.pmem.arrayBytes = Set.Ico (getLargestFreeMemSeg kernel.memory 0).2
      ((getLargestFreeMemSeg kernel.memory 0).2 + totalPages kernel.memory * 16) := by
    rw [arrayBytes, h.array, h.frames]
  have hmeets := array_meets_page_iff hlayout hnonempty hsegment hi hn
  rw [← harray] at hmeets
  set j := pagesBefore kernel.memory i + n
  by_cases hres : NotForKernel (getMemoryDescriptor kernel.memory i) ∨ j = stackFrame
  · rw [initState, if_pos hres] at hstate
    rw [hstack] at hres
    refine iff_of_true ⟨?_, ?_, ?_⟩ (or_assoc.mp (Or.inl hres))
    · exact iff_of_true hstate hres
    · rw [hstate]
      exact iff_of_false (by decide) fun hc => hc.1 rfl
    · rw [hstate]
      exact iff_of_false (by decide) fun hc => hc.1 rfl
  · rw [initState, if_neg hres] at hstate
    rw [hstack] at hres
    have hne : getFrameState s' j ≠ FrameState.reserved.code := by
      rw [hstate]
      split_ifs
      · decide
      · decide
    rw [or_iff_right (not_or.mp hres).1, or_iff_right (not_or.mp hres).2]
    by_cases hown : start ≤ j ∧ j < start + framesLockedForArray kernel.memory
    · rw [if_pos hown] at hstate
      constructor
      · intro hexact _
        exact iff_of_true hown.2 (hmeets.mp (hexact.locked.mp hstate).2).2
      · intro hcount
        refine ⟨iff_of_false hne hres, ?_, ?_⟩
        · exact iff_of_true hstate ⟨hne, hmeets.mpr ⟨hown.1, (hcount hown.1).mp hown.2⟩⟩
        · rw [hstate]
          exact iff_of_false (by decide) fun hc => hc.2 rfl
    · rw [if_neg hown] at hstate
      have hfree : getFrameState s' j ≠ FrameState.locked.code := by
        rw [hstate]
        decide
      constructor
      · intro hexact hlow
        refine iff_of_false (fun hlt => hown ⟨hlow, hlt⟩) fun hlt => ?_
        exact hfree (hexact.locked.mpr ⟨hne, hmeets.mpr ⟨hlow, hlt⟩⟩)
      · intro hcount
        refine ⟨iff_of_false hne hres, iff_of_false hfree fun hc => ?_, ?_⟩
        · obtain ⟨hlow, hlt⟩ := hmeets.mp hc.2
          exact hown ⟨hlow, (hcount hlow).mpr hlt⟩
        · exact iff_of_true hstate ⟨hne, hfree⟩

end InitStates

/-- **What initialization locks.** With a map of aligned, non-empty, disjoint descriptors whose
largest segment holds the array and an initialization that stays in it, every frame has the state it
should exactly when the frames between the `frames / 32` locked and the `ceil(frames / 256)` occupied
are all reserved. -/
theorem init_locks_array_iff (kernel : KernelData) (bytes : Nat → UInt8) (s' : Kernel)
    (hlayout : PageLayout kernel.memory) (hnonempty : ∀ i < kernel.memory.entries,
      0 < (getMemoryDescriptor kernel.memory i).numberOfPages)
    (hinit : initPhysicalMemory kernel (bootState bytes) = some s')
    (hsegment : s'.pmem.frames * 16 ≤ (getLargestFreeMemSeg kernel.memory 0).1)
    (hrange : ∀ idx ∈ s'.pmem.subscripts, idx < s'.pmem.frames) :
    (∀ i < kernel.memory.entries, ∀ n < (getMemoryDescriptor kernel.memory i).numberOfPages,
      ExactState kernel s' i n) ↔ LocksTheArray kernel := by
  have htotal := hlayout.totalPages_le
  have hframes : s'.pmem.frames = totalPages kernel.memory := by
    rw [init_frames hinit, Nat.mod_eq_of_lt (by omega)]
  rw [hframes] at hsegment hrange
  have hspace : (getLargestFreeMemSeg kernel.memory 0).2 + totalPages kernel.memory * 16 ≤ 2 ^ 64 := by
    rcases (getLargestFreeMemSeg_spec kernel.memory 0).found with hnone | ⟨k, hk, _, _, hfound⟩
    · rw [hnone]
      show 0 + _ ≤ _
      omega
    · have hbelow := hlayout.inSpace k hk
      have hle : segmentSz kernel.memory k ≤
          (getMemoryDescriptor kernel.memory k).numberOfPages * 4096 := Nat.mod_le _ _
      rw [hfound] at hsegment ⊢
      exact (Nat.add_le_add_left (hsegment.trans hle) _).trans hbelow
  obtain ⟨stackFrame, hstates⟩ := initStates hinit (by omega) hspace hrange
  unfold LocksTheArray
  refine forall₂_congr fun i hi => forall₂_congr fun n hn => ?_
  exact hstates.exactState_iff hlayout hnonempty hsegment hi hn

/-- A kernel on two pages of conventional memory: the first is the array's, the second the stack's. -/
def twoPageKernel : KernelData where
  stack := 0x2800
  framebuffer := { baseAddress := 0, bufferSize := 0 }
  memory := soleDescriptor 7 2
  hpetAddress := 0
  hpetCapReg := 0

theorem pageLayout_twoPages : PageLayout twoPageKernel.memory := by
  apply PageLayout.of_apart
  · decide +kernel
  · decide +kernel
  · decide +kernel

/-- The machine after its initialization. -/
def twoPageMachine : Kernel :=
  (initPhysicalMemory twoPageKernel (bootState fun _ => 0xff)).get (by decide +kernel)

theorem initPhysicalMemory_twoPages :
    initPhysicalMemory twoPageKernel (bootState fun _ => 0xff) = some twoPageMachine :=
  (Option.some_get (x := initPhysicalMemory twoPageKernel (bootState fun _ => 0xff)) _).symm

theorem init_locks_array_iff_twoPages :
    (∀ i < twoPageKernel.memory.entries,
      ∀ n < (getMemoryDescriptor twoPageKernel.memory i).numberOfPages,
        ExactState twoPageKernel twoPageMachine i n) ↔ LocksTheArray twoPageKernel :=
  init_locks_array_iff twoPageKernel (fun _ => 0xff) twoPageMachine pageLayout_twoPages
    (by decide +kernel) initPhysicalMemory_twoPages (by decide +kernel) (by decide +kernel)

/-- The array lies in the first frame there, which is left free. -/
theorem init_leaves_array_free : ¬∀ (kernel : KernelData) (bytes : Nat → UInt8) (s' : Kernel),
    PageLayout kernel.memory →
    (∀ i < kernel.memory.entries, 0 < (getMemoryDescriptor kernel.memory i).numberOfPages) →
    initPhysicalMemory kernel (bootState bytes) = some s' →
    s'.pmem.frames * 16 ≤ (getLargestFreeMemSeg kernel.memory 0).1 →
    (∀ idx ∈ s'.pmem.subscripts, idx < s'.pmem.frames) →
    ∀ i < kernel.memory.entries, ∀ n < (getMemoryDescriptor kernel.memory i).numberOfPages,
      ExactState kernel s' i n := by
  intro h
  have hexact := h twoPageKernel (fun _ => 0xff) twoPageMachine pageLayout_twoPages
    (by decide +kernel) initPhysicalMemory_twoPages (by decide +kernel) (by decide +kernel) 0
    (by decide +kernel) 0 (by decide +kernel)
  have hstate : getFrameState twoPageMachine (pagesBefore twoPageKernel.memory 0 + 0) =
      FrameState.free.code := by decide +kernel
  have hlocked := hexact.locked.mpr ⟨by rw [hstate]; decide, 0x1000, ?_, ?_⟩
  · rw [hstate] at hlocked
    exact absurd hlocked (by decide)
  · exact Set.mem_Ico.mpr ⟨by decide +kernel, by decide +kernel⟩
  · exact Set.mem_Ico.mpr ⟨by decide +kernel, by decide +kernel⟩

/-- Maps of 32 to 63 pages are the ones for which the two counts agree. -/
theorem locksTheArray_of_pages (hlow : 32 ≤ totalPages kernel.memory)
    (hhigh : totalPages kernel.memory < 64) : LocksTheArray kernel := by
  intro i _ n _
  have hlocked : framesLockedForArray kernel.memory = framesOfArray kernel.memory := by
    unfold framesLockedForArray framesOfArray
    omega
  rw [hlocked]
  exact Or.inr (Or.inr fun _ => Iff.rfl)

end MyOSKernel.PhysicalMemory
