import MyOSKernel.PhysicalMemory

/-! What the allocator's operations do to the frame array in memory. Each state change either leaves
the machine as it is or rewrites the one state byte of its frame, and everything later proofs need
of it is collected in `Moved`. -/

namespace MyOSKernel.PhysicalMemory

/-- The array ends inside the 64-bit address space. -/
def Fits (pm : PhysicalMemory) : Prop := pm.array + pm.frames * 16 ≤ 2 ^ 64

/-- The bytes `[array, array + frames * sizeof(PageFrame))`. -/
def arrayBytes (pm : PhysicalMemory) : Set Nat :=
  Set.Ico pm.array (pm.array + pm.frames * 16)

section Layout
variable {pm : PhysicalMemory} {i j : Nat}

theorem framePtr_eq (hfits : pm.Fits) (hi : i < pm.frames) :
    pm.framePtr i = pm.array + i * 16 := by
  unfold Fits at hfits
  rw [framePtr, sizeofPageFrame, Nat.mod_eq_of_lt (by omega)]

theorem statePtr_eq (hfits : pm.Fits) (hi : i < pm.frames) :
    pm.statePtr i = pm.array + i * 16 + 8 := by
  unfold Fits at hfits
  rw [statePtr, sizeofPageFrame, Nat.mod_eq_of_lt (by omega)]

theorem statePtr_mem (hfits : pm.Fits) (hi : i < pm.frames) : pm.statePtr i ∈ pm.arrayBytes := by
  rw [statePtr_eq hfits hi]
  exact Set.mem_Ico.mpr ⟨by omega, by omega⟩

/-- With at most `2^60` records no two share a byte of their addresses, wherever the array lies. -/
theorem framePtr_disjoint (pm : PhysicalMemory) (hi : i < 2 ^ 60) (hj : j < 2 ^ 60) (hne : i ≠ j) :
    pm.framePtr i + 8 ≤ pm.framePtr j ∨ pm.framePtr j + 8 ≤ pm.framePtr i := by
  unfold framePtr sizeofPageFrame
  omega

theorem statePtr_inj (pm : PhysicalMemory) (hi : i < 2 ^ 60) (hj : j < 2 ^ 60)
    (h : pm.statePtr i = pm.statePtr j) : i = j := by
  unfold statePtr sizeofPageFrame at h
  omega

theorem Fits.frames_le (hfits : pm.Fits) : pm.frames ≤ 2 ^ 60 := by
  unfold Fits at hfits
  omega

theorem frameAddr_subset (hfits : pm.Fits) (hi : i < pm.frames) :
    Set.Ico (pm.framePtr i) (pm.framePtr i + 8) ⊆ pm.arrayBytes := by
  rw [framePtr_eq hfits hi]
  exact Set.Ico_subset_Ico (by omega) (by omega)

theorem statePtr_notMem_frameAddr (pm : PhysicalMemory) (i j : Nat) :
    pm.statePtr i ∉ Set.Ico (pm.framePtr j) (pm.framePtr j + 8) := by
  unfold statePtr framePtr sizeofPageFrame
  intro h
  have := h.1
  have := h.2
  omega

end Layout

@[simp] theorem setCounter_array (pm : PhysicalMemory) (k : FrameState) (v : Nat) :
    (pm.setCounter k v).array = pm.array := by cases k <;> rfl

@[simp] theorem setCounter_frames (pm : PhysicalMemory) (k : FrameState) (v : Nat) :
    (pm.setCounter k v).frames = pm.frames := by cases k <;> rfl

@[simp] theorem setCounter_initialized (pm : PhysicalMemory) (k : FrameState) (v : Nat) :
    (pm.setCounter k v).initialized = pm.initialized := by cases k <;> rfl

theorem counter_setCounter (pm : PhysicalMemory) (k l : FrameState) (v : Nat) :
    (pm.setCounter k v).counter l = if l = k then v else pm.counter l := by
  cases k <;> cases l <;> rfl

@[simp] theorem moveCount_array (pm : PhysicalMemory) (k l : FrameState) :
    (pm.moveCount k l).array = pm.array := by simp [moveCount]

@[simp] theorem moveCount_frames (pm : PhysicalMemory) (k l : FrameState) :
    (pm.moveCount k l).frames = pm.frames := by simp [moveCount]

@[simp] theorem moveCount_initialized (pm : PhysicalMemory) (k l : FrameState) :
    (pm.moveCount k l).initialized = pm.initialized := by simp [moveCount]

@[simp] theorem moveCount_framePtr (pm : PhysicalMemory) (k l : FrameState) (i : Nat) :
    (pm.moveCount k l).framePtr i = pm.framePtr i := by simp [framePtr]

@[simp] theorem moveCount_statePtr (pm : PhysicalMemory) (k l : FrameState) (i : Nat) :
    (pm.moveCount k l).statePtr i = pm.statePtr i := by simp [statePtr]

theorem moveCount_freeFrames (pm : PhysicalMemory) : (pm.moveCount .free .locked).freeFrames =
    (pm.freeFrames + (2 ^ 64 - 1)) % 2 ^ 64 := by
  simp only [moveCount, setCounter, counter]

theorem counter_moveCount {pm : PhysicalMemory} {source target : FrameState}
    (hne : source ≠ target) (hpos : 0 < pm.counter source) (hsource : pm.counter source < 2 ^ 64)
    (htarget : pm.counter target + 1 < 2 ^ 64) (k : FrameState) :
    (pm.moveCount source target).counter k + (if k = source then 1 else 0) =
      pm.counter k + (if k = target then 1 else 0) := by
  simp only [moveCount, counter_setCounter]
  by_cases hks : k = source
  · subst hks
    simp only [if_neg hne, if_true]
    omega
  · by_cases hkt : k = target
    · subst hkt
      simp only [if_neg hks, if_true]
      omega
    · simp only [if_neg hks, if_neg hkt]

section Read
variable {s s' : Kernel} {i : Nat}

/-- Code that leaves the bytes of the array alone leaves every state alone. -/
theorem getFrameState_of_eqOn (hfits : s.pmem.Fits) (hi : i < s.pmem.frames)
    (hpm : s'.pmem = s.pmem) (h : Set.EqOn s'.mem.byte s.mem.byte s.pmem.arrayBytes) :
    getFrameState s' i = getFrameState s i := by
  rw [getFrameState, getFrameState, hpm]
  exact h (statePtr_mem hfits hi)

theorem getFrameAddr_of_eqOn (hfits : s.pmem.Fits) (hi : i < s.pmem.frames)
    (hpm : s'.pmem = s.pmem) (h : Set.EqOn s'.mem.byte s.mem.byte s.pmem.arrayBytes) :
    getFrameAddr s' i = getFrameAddr s i := by
  rw [getFrameAddr, getFrameAddr, hpm]
  exact Memory.loadLE_congr (h.mono (frameAddr_subset hfits hi))

end Read

/-- `s'` is `s` with frame `i` moved from `source` to `target`. -/
structure Moved (source target : FrameState) (s s' : Kernel) (i : Nat) : Prop where
  was : getFrameState s i = source.code
  array : s'.pmem.array = s.pmem.array
  frames : s'.pmem.frames = s.pmem.frames
  initialized : s'.pmem.initialized = s.pmem.initialized
  count : ∀ k, s'.pmem.counter k = (s.pmem.moveCount source target).counter k
  state : ∀ j < s.pmem.frames,
    getFrameState s' j = if j = i then target.code else getFrameState s j
  addr : ∀ j < s.pmem.frames, getFrameAddr s' j = getFrameAddr s j
  byte : ∀ a, a ≠ s.pmem.statePtr i → s'.mem.byte a = s.mem.byte a
  writes : s'.mem.writes = s.pmem.statePtr i :: s.mem.writes
  subscripts : s'.pmem.subscripts = i :: i :: s.pmem.subscripts

section Move
variable {source target : FrameState} {s s' : Kernel} {i : Nat}

/-- A frame in another state is left alone; only the subscript is noted. -/
theorem moveFrame_of_ne (h : getFrameState s i ≠ source.code) :
    moveFrame source target s i = { s with pmem := s.pmem.touch i } := if_neg h

theorem moveFrame_of_eq (h : getFrameState s i = source.code) :
    moveFrame source target s i =
      ⟨s.mem.store (s.pmem.statePtr i) target.code,
        ⟨s.pmem.moveCount source target, i :: i :: s.pmem.subscripts⟩⟩ := by
  calc moveFrame source target s i
      = setFrameState ⟨s.mem, ⟨s.pmem.moveCount source target, i :: s.pmem.subscripts⟩⟩ i target :=
        if_pos h
    _ = _ := by
      unfold setFrameState Pmem.touch
      rw [moveCount_statePtr]

theorem moveFrame_array : (moveFrame source target s i).pmem.array = s.pmem.array := by
  by_cases h : getFrameState s i = source.code
  · rw [moveFrame_of_eq h]
    exact moveCount_array _ _ _
  · rw [moveFrame_of_ne h]
    rfl

theorem moveFrame_frames : (moveFrame source target s i).pmem.frames = s.pmem.frames := by
  by_cases h : getFrameState s i = source.code
  · rw [moveFrame_of_eq h]
    exact moveCount_frames _ _ _
  · rw [moveFrame_of_ne h]
    rfl

theorem mem_subscripts_moveFrame {idx : Nat} :
    idx ∈ (moveFrame source target s i).pmem.subscripts ↔ idx = i ∨ idx ∈ s.pmem.subscripts := by
  by_cases h : getFrameState s i = source.code
  · rw [moveFrame_of_eq h]
    simp
  · rw [moveFrame_of_ne h]
    simp [Pmem.touch]

theorem mem_writes_moveFrame {a : Nat}
    (ha : a ∈ (moveFrame source target s i).mem.writes) :
    a = s.pmem.statePtr i ∨ a ∈ s.mem.writes := by
  by_cases h : getFrameState s i = source.code
  · rw [moveFrame_of_eq h] at ha
    exact List.mem_cons.mp ha
  · rw [moveFrame_of_ne h] at ha
    exact Or.inr ha

theorem subset_writes_moveFrame :
    s.mem.writes ⊆ (moveFrame source target s i).mem.writes := by
  by_cases h : getFrameState s i = source.code
  · rw [moveFrame_of_eq h]
    exact List.subset_cons_self _ _
  · rw [moveFrame_of_ne h]
    exact List.Subset.refl _

/-- State changes leave the addresses alone, whatever their index. -/
theorem getFrameAddr_moveFrame (source target : FrameState) (s : Kernel) (i j : Nat) :
    getFrameAddr (moveFrame source target s i) j = getFrameAddr s j := by
  by_cases h : getFrameState s i = source.code
  · rw [moveFrame_of_eq h]
    simp only [getFrameAddr, moveCount_framePtr]
    apply Memory.loadLE_congr
    intro a ha
    apply Memory.store_byte_of_ne
    intro heq
    rw [heq] at ha
    exact statePtr_notMem_frameAddr s.pmem.toPhysicalMemory i j ha
  · rw [moveFrame_of_ne h]
    rfl

/-- A state change seen at a frame: the frame changes when it shares its state byte. -/
theorem getFrameState_moveFrame_byte (source target : FrameState) (s : Kernel) (i j : Nat) :
    getFrameState (moveFrame source target s i) j =
      if s.pmem.statePtr j = s.pmem.statePtr i ∧ getFrameState s j = source.code then target.code
      else getFrameState s j := by
  have hsame (heq : s.pmem.statePtr j = s.pmem.statePtr i) :
      getFrameState s j = getFrameState s i := by
    rw [getFrameState, heq, getFrameState]
  by_cases h : getFrameState s i = source.code
  · have hread : getFrameState (moveFrame source target s i) j =
        (s.mem.store (s.pmem.statePtr i) target.code).byte (s.pmem.statePtr j) := by
      rw [moveFrame_of_eq h, getFrameState, moveCount_statePtr]
    rw [hread]
    by_cases heq : s.pmem.statePtr j = s.pmem.statePtr i
    · rw [if_pos ⟨heq, (hsame heq).trans h⟩, heq, Memory.store_byte_self]
    · rw [if_neg fun hc => heq hc.1, Memory.store_byte_of_ne _ _ _ _ heq]
      rfl
  · rw [moveFrame_of_ne h, if_neg fun hc => h ((hsame hc.1).symm.trans hc.2)]
    rfl

theorem moved_moveFrame_of_le (hframes : s.pmem.frames ≤ 2 ^ 60) (hi : i < s.pmem.frames)
    (h : getFrameState s i = source.code) : Moved source target s (moveFrame source target s i) i := by
  refine ⟨h, moveFrame_array, moveFrame_frames, ?_, ?_, ?_,
    fun j _ => getFrameAddr_moveFrame _ _ _ _ _, ?_, ?_, ?_⟩
  · rw [moveFrame_of_eq h]
    exact moveCount_initialized _ _ _
  · intro k
    rw [moveFrame_of_eq h]
  · intro j hj
    rw [getFrameState_moveFrame_byte]
    by_cases hji : j = i
    · subst hji
      rw [if_pos ⟨rfl, h⟩, if_pos rfl]
    · rw [if_neg hji, if_neg]
      exact fun hc => hji (statePtr_inj _ (by omega) (by omega) hc.1)
  · rw [moveFrame_of_eq h]
    exact fun a ha => Memory.store_byte_of_ne _ _ _ _ ha
  · rw [moveFrame_of_eq h]
    rfl
  · rw [moveFrame_of_eq h]

theorem moved_moveFrame (hfits : s.pmem.Fits) (hi : i < s.pmem.frames)
    (h : getFrameState s i = source.code) : Moved source target s (moveFrame source target s i) i :=
  moved_moveFrame_of_le hfits.frames_le hi h

/-- A state change moves its frame or does nothing. -/
theorem moveFrame_cases (source target : FrameState) (hfits : s.pmem.Fits) (hi : i < s.pmem.frames) :
    Moved source target s (moveFrame source target s i) i ∨
      (getFrameState s i ≠ source.code ∧
        moveFrame source target s i = { s with pmem := s.pmem.touch i }) := by
  by_cases h : getFrameState s i = source.code
  · exact Or.inl (moved_moveFrame hfits hi h)
  · exact Or.inr ⟨h, moveFrame_of_ne h⟩

/-- The states after a state change: only its frame's, and only when that was in the source state. -/
theorem getFrameState_moveFrame {j : Nat} (source target : FrameState) (hfits : s.pmem.Fits)
    (hi : i < s.pmem.frames) (hj : j < s.pmem.frames) :
    getFrameState (moveFrame source target s i) j =
      if j = i ∧ getFrameState s j = source.code then target.code else getFrameState s j := by
  rcases moveFrame_cases source target hfits hi with hm | ⟨hne, heq⟩
  · rw [hm.state j hj]
    by_cases hji : j = i
    · rw [if_pos hji, if_pos ⟨hji, hji ▸ hm.was⟩]
    · rw [if_neg hji, if_neg fun h => hji h.1]
  · rw [heq, if_neg]
    · rfl
    · intro hc
      obtain ⟨rfl, h⟩ := hc
      exact hne h

theorem Moved.fits (h : Moved source target s s' i) (hfits : s.pmem.Fits) : s'.pmem.Fits := by
  unfold Fits
  rw [h.array, h.frames]
  exact hfits

/-- Only bytes of the array change. -/
theorem Moved.eqOn_compl (h : Moved source target s s' i) (hfits : s.pmem.Fits)
    (hi : i < s.pmem.frames) : Set.EqOn s'.mem.byte s.mem.byte (s.pmem.arrayBytes)ᶜ := by
  intro a ha
  apply h.byte
  rintro rfl
  exact ha (statePtr_mem hfits hi)

end Move

section Scan
variable {s : Kernel} {i : Nat}

theorem firstFree_eq_some_iff : firstFree s = some i ↔
    i < s.pmem.frames ∧ getFrameState s i = FrameState.free.code ∧
      ∀ j < i, getFrameState s j ≠ FrameState.free.code := by
  rw [firstFree, List.find?_range_eq_some]
  simp only [decide_eq_true_eq, List.mem_range, Bool.not_eq_true', decide_eq_false_iff_not]
  tauto

theorem firstFree_eq_none_iff : firstFree s = none ↔
    ∀ i < s.pmem.frames, getFrameState s i ≠ FrameState.free.code := by
  rw [firstFree, List.find?_range_eq_none]
  simp

end Scan

end MyOSKernel.PhysicalMemory
