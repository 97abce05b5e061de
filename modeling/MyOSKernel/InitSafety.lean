import MyOSKernel.InitFill

/-! Which indexes and which bytes `PhysicalMemory__init` uses. The indexes stay in range exactly when
the page total fits in 64 bits, the stack lies in a page of the map, and the count of frames locked
for the array, taken from its first frame, ends inside the array. The bytes written while the array
is filled stay in the segment exactly when the segment has sixteen bytes for every page. -/

namespace MyOSKernel.PhysicalMemory

section Search
variable {s : Kernel} {ptr : Nat}

/-- The page at `addr` contains `ptr`, by the comparison of the source. -/
abbrev PageContains (addr ptr : Nat) : Prop := addr ≤ ptr ∧ ptr < (addr + 4096) % 2 ^ 64

/-- The search returns the first frame containing the address, or `(size_t) -1`. -/
theorem getFrameIndexByPtr_cases (s : Kernel) (ptr : Nat) :
    (∃ i < s.pmem.frames, getFrameIndexByPtr s ptr = i ∧ PageContains (getFrameAddr s i) ptr ∧
        ∀ j < i, ¬PageContains (getFrameAddr s j) ptr) ∨
      (getFrameIndexByPtr s ptr = 2 ^ 64 - 1 ∧
        ∀ i < s.pmem.frames, ¬PageContains (getFrameAddr s i) ptr) := by
  unfold getFrameIndexByPtr
  cases hfind : (List.range s.pmem.frames).find? fun i =>
      decide (getFrameAddr s i ≤ ptr ∧ ptr < (getFrameAddr s i + pageSz) % 2 ^ 64) with
  | some i =>
      rw [List.find?_range_eq_some] at hfind
      obtain ⟨hp, hi, hfirst⟩ := hfind
      refine Or.inl ⟨i, List.mem_range.mp hi, rfl, of_decide_eq_true hp, ?_⟩
      intro j hj
      have := hfirst j hj
      rw [Bool.not_eq_true', decide_eq_false_iff_not] at this
      exact this
  | none =>
      rw [List.find?_range_eq_none] at hfind
      refine Or.inr ⟨rfl, ?_⟩
      intro i hi
      have := hfind i hi
      rw [Bool.not_eq_true', decide_eq_false_iff_not] at this
      exact this

theorem getFrameIndexByPtr_lt_iff (ptr : Nat) (hframes : s.pmem.frames < 2 ^ 64) :
    getFrameIndexByPtr s ptr < s.pmem.frames ↔
      ∃ i < s.pmem.frames, PageContains (getFrameAddr s i) ptr := by
  rcases getFrameIndexByPtr_cases s ptr with ⟨i, hi, heq, hc, _⟩ | ⟨heq, hnone⟩
  · exact ⟨fun _ => ⟨i, hi, hc⟩, fun _ => heq ▸ hi⟩
  · refine ⟨fun h => by omega, ?_⟩
    intro hx
    obtain ⟨i, hi, hc⟩ := hx
    exact absurd hc (hnone i hi)

end Search

/-- The subscripts used once the first `count` frames of the array have been locked. -/
structure LockTrace (start : Nat) (s : Kernel) (count : Nat) (t : Kernel) : Prop where
  array : t.pmem.array = s.pmem.array
  frames : t.pmem.frames = s.pmem.frames
  subscripts : ∀ idx, idx ∈ t.pmem.subscripts ↔
    (∃ i < count, idx = (start + i) % 2 ^ 64) ∨ idx ∈ s.pmem.subscripts

theorem lockTrace_lockArrayFrames (start : Nat) (s : Kernel) :
    LockTrace start s (getFramesArraySz s.pmem.toPhysicalMemory / 4096) (lockArrayFrames start s) := by
  unfold lockArrayFrames
  apply fold_invariant (LockTrace start s)
  · exact ⟨rfl, rfl, fun idx => by simp⟩
  intro i _ t ht
  refine ⟨moveFrame_array.trans ht.array, moveFrame_frames.trans ht.frames, ?_⟩
  intro idx
  rw [show idx ∈ (lockFrame t ((start + i) % 2 ^ 64)).pmem.subscripts ↔ _ from
    mem_subscripts_moveFrame, ht.subscripts, Nat.exists_lt_succ_right, or_assoc]
  exact or_left_comm

variable {kernel : KernelData} {buffer : Nat} {bytes : Nat → UInt8} {s' : Kernel}

/-- The machine the fill loop starts from. -/
def clearedState (memory : MemoryData) (buffer : Nat) (bytes : Nat → UInt8) : Kernel :=
  clearFrames (setUpArray buffer (totalPages memory % 2 ^ 64) (bootState bytes))

@[simp] theorem clearedState_frames (memory : MemoryData) (buffer : Nat) (bytes : Nat → UInt8) :
    (clearedState memory buffer bytes).pmem.frames = totalPages memory % 2 ^ 64 := by
  rw [clearedState, clearFrames_pm]
  rfl

@[simp] theorem clearedState_array (memory : MemoryData) (buffer : Nat) (bytes : Nat → UInt8) :
    (clearedState memory buffer bytes).pmem.array = buffer := by
  rw [clearedState, clearFrames_pm]
  rfl

theorem fillArray_eq (memory : MemoryData) (buffer : Nat) (bytes : Nat → UInt8)
    (hentries : memory.entries < 2 ^ 32) : fillArray memory buffer (bootState bytes) =
      some (fillFrames memory buffer (clearedState memory buffer bytes)) := by
  rw [fillArray, getNumberOfPageFrames_eq memory hentries]
  rfl

theorem entries_lt_of_fillArray {memory : MemoryData} {s : Kernel} {fill : FillState}
    (h : fillArray memory buffer s = some fill) : memory.entries < 2 ^ 32 := by
  rw [← getNumberOfPageFrames_isSome_iff]
  unfold fillArray at h
  cases hcount : getNumberOfPageFrames memory with
  | none => rw [hcount] at h; exact absurd h (by simp)
  | some frames => rfl

/-- An initialization that ends has gone through its phases in order. -/
theorem init_eq_some (h : init kernel buffer (bootState bytes) = some s') :
    kernel.memory.entries < 2 ^ 32 ∧
    ∃ fill, fill = fillFrames kernel.memory buffer (clearedState kernel.memory buffer bytes) ∧
      s' = setInitialized (lockArrayFrames fill.arrayFrameId
        (reserveFrame fill.kernel (getFrameIndexByPtr fill.kernel kernel.stack))) := by
  unfold init at h
  rw [if_neg (show ¬(bootState bytes).pmem.initialized = true from Bool.false_ne_true)] at h
  obtain ⟨fill, hfill, rfl⟩ := Option.map_eq_some_iff.mp h
  have hentries := entries_lt_of_fillArray hfill
  rw [fillArray_eq _ _ _ hentries] at hfill
  exact ⟨hentries, fill, (Option.some.inj hfill).symm, rfl⟩

/-- The stack lies in a page of the map. -/
def StackInMap (kernel : KernelData) : Prop :=
  ∃ i < kernel.memory.entries, ∃ n < (getMemoryDescriptor kernel.memory i).numberOfPages,
    PageContains (((getMemoryDescriptor kernel.memory i).physicalAddr + n * 4096) % 2 ^ 64)
      kernel.stack

/-- The subscripts of a whole initialization, phase by phase. -/
theorem mem_subscripts_init (h : init kernel buffer (bootState bytes) = some s') (idx : Nat) :
    let fill := fillFrames kernel.memory buffer (clearedState kernel.memory buffer bytes)
    idx ∈ s'.pmem.subscripts ↔
      (∃ i < getFramesArraySz fill.kernel.pmem.toPhysicalMemory / 4096,
        idx = (fill.arrayFrameId + i) % 2 ^ 64) ∨
      idx = getFrameIndexByPtr fill.kernel kernel.stack ∨
      (∃ k < totalPages kernel.memory, idx = k % 2 ^ 64) ∨
      idx < totalPages kernel.memory % 2 ^ 64 := by
  obtain ⟨_, fill, rfl, rfl⟩ := init_eq_some h
  intro fill
  have hlock := lockTrace_lockArrayFrames fill.arrayFrameId
    (reserveFrame fill.kernel (getFrameIndexByPtr fill.kernel kernel.stack))
  have hframes : (reserveFrame fill.kernel (getFrameIndexByPtr fill.kernel kernel.stack)).pmem.frames =
      fill.kernel.pmem.frames := moveFrame_frames
  have hsize : getFramesArraySz (reserveFrame fill.kernel
      (getFrameIndexByPtr fill.kernel kernel.stack)).pmem.toPhysicalMemory =
      getFramesArraySz fill.kernel.pmem.toPhysicalMemory := by
    rw [getFramesArraySz, getFramesArraySz, hframes]
  have hcleared := cleared_clearFrames
    (setUpArray buffer (totalPages kernel.memory % 2 ^ 64) (bootState bytes))
  have hstart : idx ∈ (clearedState kernel.memory buffer bytes).pmem.subscripts ↔
      idx < totalPages kernel.memory % 2 ^ 64 := by
    have := hcleared.subscripts idx
    rw [clearedState, this]
    exact or_iff_left List.not_mem_nil
  show idx ∈ (lockArrayFrames _ _).pmem.subscripts ↔ _
  rw [hlock.subscripts, hsize, show idx ∈ (reserveFrame fill.kernel _).pmem.subscripts ↔ _ from
    mem_subscripts_moveFrame, (fillTrace_fillFrames _ _ _).2.subscripts, hstart]

theorem init_frames (h : init kernel buffer (bootState bytes) = some s') :
    s'.pmem.frames = totalPages kernel.memory % 2 ^ 64 := by
  obtain ⟨_, fill, rfl, rfl⟩ := init_eq_some h
  show (lockArrayFrames _ _).pmem.frames = _
  rw [(lockTrace_lockArrayFrames _ _).frames]
  exact moveFrame_frames.trans ((fillTrace_fillFrames _ _ _).2.frames.trans (clearedState_frames _ _ _))

/-- The number of frames locked for the array: its size is computed in bytes, eight times over. -/
def framesLockedForArray (memory : MemoryData) : Nat := totalPages memory * 8 * 16 % 2 ^ 64 / 4096

theorem arrayStart_le (memory : MemoryData) (buffer count : Nat) :
    arrayStart memory buffer count ≤ pagesBefore memory count := by
  induction count with
  | zero => exact le_rfl
  | succ count ih =>
      rw [arrayStart, pagesBefore_succ]
      split_ifs
      · exact Nat.le_add_right _ _
      · exact ih.trans (Nat.le_add_right _ _)

/-- What the fill loop leaves of an array that fits in the address space. -/
theorem filled_clearedState {memory : MemoryData} (bytes : Nat → UInt8)
    (htotal : totalPages memory < 2 ^ 64)
    (hfits : buffer + totalPages memory * 16 ≤ 2 ^ 64) :
    (fillFrames memory buffer (clearedState memory buffer bytes)).arrayFrameId =
        arrayStart memory buffer memory.entries ∧
      Filled memory (clearedState memory buffer bytes) (totalPages memory)
        (fillFrames memory buffer (clearedState memory buffer bytes)).kernel := by
  have hmod : totalPages memory % 2 ^ 64 = totalPages memory := Nat.mod_eq_of_lt htotal
  have hfree : AllFree (clearedState memory buffer bytes) :=
    allFree_clearFrames (by rw [hmod]; exact hfits)
  exact filled_fillFrames hfree (by rw [clearedState_frames, hmod])

/-- The search for the stack succeeds exactly when the map describes its page. -/
theorem stackFrame_lt_iff {t : Kernel}
    (h : Filled kernel.memory (clearedState kernel.memory buffer bytes) (totalPages kernel.memory) t)
    (htotal : totalPages kernel.memory < 2 ^ 64) :
    getFrameIndexByPtr t kernel.stack < totalPages kernel.memory ↔ StackInMap kernel := by
  have hframes : t.pmem.frames = totalPages kernel.memory := by
    rw [h.frames, clearedState_frames, Nat.mod_eq_of_lt htotal]
  have hsearch := getFrameIndexByPtr_lt_iff (s := t) kernel.stack (by omega)
  rw [hframes] at hsearch
  rw [hsearch]
  constructor
  · intro hc
    obtain ⟨idx, hidx, hcontains⟩ := hc
    obtain ⟨i, n, hi, hn, rfl⟩ := exists_descriptor_of_lt _ hidx
    rw [(h.page i hi n hn hidx).1] at hcontains
    exact ⟨i, hi, n, hn, hcontains⟩
  · intro hc
    obtain ⟨i, hi, n, hn, hcontains⟩ := hc
    have hidx := pagesBefore_add_lt _ hi hn
    rw [← (h.page i hi n hn hidx).1] at hcontains
    exact ⟨_, hidx, hcontains⟩

/-- The subscripts of an initialization whose array holds every page of the map. -/
theorem subscripts_lt_iff (hinit : init kernel buffer (bootState bytes) = some s')
    (htotal : totalPages kernel.memory < 2 ^ 60)
    (hfits : buffer + totalPages kernel.memory * 16 ≤ 2 ^ 64) :
    (∀ idx ∈ s'.pmem.subscripts, idx < totalPages kernel.memory) ↔
      StackInMap kernel ∧ arrayStart kernel.memory buffer kernel.memory.entries +
        framesLockedForArray kernel.memory ≤ totalPages kernel.memory := by
  have hmem := mem_subscripts_init hinit
  obtain ⟨hstart, hfilled⟩ := filled_clearedState bytes (by omega) hfits
  have hframes := hfilled.frames
  have hmod : totalPages kernel.memory % 2 ^ 64 = totalPages kernel.memory := by omega
  rw [clearedState_frames, hmod] at hframes
  have hstack := stackFrame_lt_iff hfilled (by omega)
  have hle := (arrayStart_le kernel.memory buffer kernel.memory.entries).trans_eq
    (totalPages.eq_1 kernel.memory).symm
  simp only [getFramesArraySz, hframes, hstart, sizeofPageFrame, hmod] at hmem
  have hlocked : framesLockedForArray kernel.memory < 2 ^ 52 := by
    unfold framesLockedForArray
    omega
  constructor
  · intro h
    refine ⟨hstack.mp (h _ ((hmem _).mpr (Or.inr (Or.inl rfl)))), ?_⟩
    by_contra hpast
    -- the last frame of the array's own range is already outside
    have hlast := h _ ((hmem _).mpr (Or.inl ⟨framesLockedForArray kernel.memory - 1,
      show _ < framesLockedForArray kernel.memory by omega, rfl⟩))
    omega
  · intro hc idx hidx
    obtain ⟨hin, hrange⟩ := hc
    rcases (hmem idx).mp hidx with ⟨i, hi, rfl⟩ | rfl | ⟨k, hk, rfl⟩ | hlt
    · have : i < framesLockedForArray kernel.memory := hi
      omega
    · exact hstack.mpr hin
    · omega
    · exact hlt

/-- **Where initialization stays inside the array.** With a segment that holds the array, every
subscript used is below `frames` exactly when the page total does not overflow, the stack lies in a
page of the map and the frames locked for the array end inside it. -/
theorem init_subscripts_lt_iff (kernel : KernelData) (bytes : Nat → UInt8) (s' : Kernel)
    (hinit : initPhysicalMemory kernel (bootState bytes) = some s')
    (hsegment : s'.pmem.frames * 16 ≤ (getLargestFreeMemSeg kernel.memory 0).1)
    (hspace : (getLargestFreeMemSeg kernel.memory 0).2 + (getLargestFreeMemSeg kernel.memory 0).1 ≤
      2 ^ 64) :
    (∀ idx ∈ s'.pmem.subscripts, idx < s'.pmem.frames) ↔
      totalPages kernel.memory < 2 ^ 64 ∧ StackInMap kernel ∧
        arrayStart kernel.memory (getLargestFreeMemSeg kernel.memory 0).2 kernel.memory.entries +
          framesLockedForArray kernel.memory ≤ totalPages kernel.memory := by
  have hsize := (getLargestFreeMemSeg_bounds kernel.memory).2.1
  rw [init_frames hinit] at hsegment ⊢
  by_cases htotal : totalPages kernel.memory < 2 ^ 64
  · rw [Nat.mod_eq_of_lt htotal] at hsegment ⊢
    rw [subscripts_lt_iff hinit (by omega) (by omega)]
    exact (and_iff_right htotal).symm
  · -- the fill loop runs past the reduced count
    refine ⟨fun h => ?_, fun h => absurd h.1 htotal⟩
    have hpast := h (totalPages kernel.memory % 2 ^ 64) ((mem_subscripts_init hinit _).mpr
      (Or.inr (Or.inr (Or.inl ⟨totalPages kernel.memory % 2 ^ 64, by omega, by omega⟩))))
    exact absurd hpast (lt_irrefl _)

/-- A map of one descriptor, of `pages` pages from `0x1000` on. -/
def soleDescriptor (type pages : UInt8) : MemoryData where
  memoryMap := 0
  descriptorSz := 40
  entries := 1
  image :=
    { byte := fun a => if a = 0 then type else if a = 9 then 0x10 else if a = 24 then pages else 0
      writes := [] }

/-- A kernel on some pages of conventional memory. -/
def soleKernel (pages : UInt8) (stack : Nat) : KernelData where
  stack := stack
  framebuffer := { baseAddress := 0, bufferSize := 0 }
  memory := soleDescriptor 7 pages
  hpetAddress := 0
  hpetCapReg := 0

/-- With its stack in the fourth of 32 pages the initialization stays in the array, for which it locks a
frame. -/
theorem init_subscripts_lt_iff_pages :
    ∃ s', initPhysicalMemory (soleKernel 32 0x4800) (bootState fun _ => 0xff) = some s' ∧
      ∀ idx ∈ s'.pmem.subscripts, idx < s'.pmem.frames := by
  refine ⟨(initPhysicalMemory (soleKernel 32 0x4800) (bootState fun _ => 0xff)).get
    (by decide +kernel), by simp, ?_⟩
  refine (init_subscripts_lt_iff (soleKernel 32 0x4800) (fun _ => 0xff) _ (by simp)
    (by decide +kernel) (by decide +kernel)).mpr ⟨by decide +kernel, ?_, by decide +kernel⟩
  exact ⟨0, by decide, 3, by decide +kernel, by decide +kernel⟩

/-- With its stack elsewhere the search fails and frame `(size_t) -1` is reserved. -/
theorem init_subscript_out_of_range :
    ¬∀ (kernel : KernelData) (bytes : Nat → UInt8) (s' : Kernel),
      initPhysicalMemory kernel (bootState bytes) = some s' →
      s'.pmem.frames * 16 ≤ (getLargestFreeMemSeg kernel.memory 0).1 →
      (getLargestFreeMemSeg kernel.memory 0).2 + (getLargestFreeMemSeg kernel.memory 0).1 ≤ 2 ^ 64 →
      ∀ idx ∈ s'.pmem.subscripts, idx < s'.pmem.frames := by
  intro h
  have hrun := h (soleKernel 1 0x5000) (fun _ => 0xff)
    ((initPhysicalMemory (soleKernel 1 0x5000) (bootState fun _ => 0xff)).get (by decide +kernel))
    (by simp) (by decide +kernel) (by decide +kernel) (2 ^ 64 - 1) (by decide +kernel)
  exact absurd hrun (by decide +kernel)

/-! ### Bytes -/

/-- The address lies in the segment of `size` bytes from `segment` on. -/
def InSegment (segment size a : Nat) : Prop := (a + (2 ^ 64 - segment)) % 2 ^ 64 < size

instance (segment size : Nat) : DecidablePred (InSegment segment size) :=
  fun _ => inferInstanceAs (Decidable (_ < _))

/-- The bytes written up to the end of the fill loop, when it is reached. -/
theorem mem_writes_fillFrames {memory : MemoryData} {a : Nat}
    (ha : a ∈ (fillFrames memory buffer (clearedState memory buffer bytes)).kernel.mem.writes) :
    ∃ k < totalPages memory, ∃ j < 16, a % 2 ^ 64 = (buffer + k * 16 + j) % 2 ^ 64 := by
  rcases (fillTrace_fillFrames _ _ _).2.writes a ha with ⟨k, hk, j, hj, heq⟩ | hold
  · rw [clearedState_array] at heq
    exact ⟨k, hk, j, hj, heq⟩
  · rw [clearedState, (cleared_clearFrames _).writes] at hold
    rcases hold with ⟨k, hk, j, hj, heq⟩ | hnil
    · refine ⟨k, lt_of_lt_of_le hk (Nat.mod_le _ _), j, hj, ?_⟩
      rw [heq, Nat.mod_mod]
      rfl
    · exact absurd hnil List.not_mem_nil

/-- **Where the frame array fits.** Everything written until the array is filled lies in the largest
conventional segment exactly when the count of frames does not end, so that nothing is filled, or
the segment has sixteen bytes for every page of the map. -/
theorem fillArray_writes_in_segment_iff (memory : MemoryData) (bytes : Nat → UInt8) :
    (∀ fill, fillArray memory (getLargestFreeMemSeg memory 0).2 (bootState bytes) = some fill →
      ∀ a ∈ fill.kernel.mem.writes,
        InSegment (getLargestFreeMemSeg memory 0).2 (getLargestFreeMemSeg memory 0).1 a) ↔
      2 ^ 32 ≤ memory.entries ∨ totalPages memory * 16 ≤ (getLargestFreeMemSeg memory 0).1 := by
  obtain ⟨hdvd, hsize, hbuffer⟩ := getLargestFreeMemSeg_bounds memory
  constructor
  · intro h
    by_contra hnot
    rw [not_or] at hnot
    obtain ⟨hentries, htotal⟩ := hnot
    have hfill := h _ (fillArray_eq memory _ bytes (by omega))
    -- the first page whose record is outside, or the last one the address space has room for
    have hwritten : ∀ k < totalPages memory, InSegment (getLargestFreeMemSeg memory 0).2
        (getLargestFreeMemSeg memory 0).1
        (((getLargestFreeMemSeg memory 0).2 + k * 16) % 2 ^ 64) := by
      intro k hk
      have hk' := (fillTrace_fillFrames memory (getLargestFreeMemSeg memory 0).2
        (clearedState memory (getLargestFreeMemSeg memory 0).2 bytes)).2.written k hk
      rw [clearedState_array] at hk'
      exact hfill _ hk'
    have hlast := hwritten ((getLargestFreeMemSeg memory 0).1 / 16) (by omega)
    unfold InSegment at hlast
    omega
  · intro hfits fill hfill a ha
    have hentries := entries_lt_of_fillArray hfill
    rw [fillArray_eq memory _ bytes hentries] at hfill
    obtain rfl := Option.some.inj hfill
    obtain ⟨k, hk, j, hj, heq⟩ := mem_writes_fillFrames ha
    unfold InSegment
    omega

/-- A map of one reserved page has no room for the array at all: it is put at address zero. -/
theorem frame_array_outside_segment :
    ¬∀ (memory : MemoryData) (bytes : Nat → UInt8) (fill : FillState),
      fillArray memory (getLargestFreeMemSeg memory 0).2 (bootState bytes) = some fill →
      ∀ a ∈ fill.kernel.mem.writes,
        InSegment (getLargestFreeMemSeg memory 0).2 (getLargestFreeMemSeg memory 0).1 a := by
  intro h
  have hwrite := h (soleDescriptor 0 1) (fun _ => 0xff)
    ((fillArray (soleDescriptor 0 1) (getLargestFreeMemSeg (soleDescriptor 0 1) 0).2
      (bootState fun _ => 0xff)).get (by decide +kernel))
    (by simp) 0 (by decide +kernel)
  exact absurd hwrite (by decide +kernel)

end MyOSKernel.PhysicalMemory
