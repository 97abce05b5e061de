import MyOSKernel.PhysicalInit

/-! What each phase of `PhysicalMemory__init` leaves behind. The subscripts used and the bytes written
are described for every memory map; the contents of the array are described for an array that fits
in the address space. -/

namespace MyOSKernel.PhysicalMemory

/-- The first `count` frames have been cleared. -/
structure Cleared (s : Kernel) (count : Nat) (t : Kernel) : Prop where
  pm : t.pmem.toPhysicalMemory = s.pmem.toPhysicalMemory
  subscripts : ∀ idx, idx ∈ t.pmem.subscripts ↔ idx < count ∨ idx ∈ s.pmem.subscripts
  writes : ∀ a, a ∈ t.mem.writes ↔
    (∃ k < count, ∃ j < 16, a = (s.pmem.array + k * 16 + j) % 2 ^ 64) ∨ a ∈ s.mem.writes

theorem cleared_clearFrames (s : Kernel) : Cleared s s.pmem.frames (clearFrames s) := by
  unfold clearFrames
  apply fold_invariant (Cleared s)
  · exact ⟨rfl, fun idx => by simp, fun a => by simp⟩
  intro i _ t ht
  have hptr : t.pmem.framePtr i = (s.pmem.array + i * 16) % 2 ^ 64 := by
    rw [framePtr, ht.pm, sizeofPageFrame]
  have hstate : t.pmem.statePtr i = (s.pmem.array + i * 16 + 8) % 2 ^ 64 := by
    rw [statePtr, ht.pm, sizeofPageFrame]
  refine ⟨ht.pm, ?_, ?_⟩
  · intro idx
    simp only [clearFrame, setFrameState, Pmem.touch, List.mem_cons, ht.subscripts]
    constructor
    · intro hc
      obtain rfl | rfl | h | h := hc
      · exact Or.inl (by omega)
      · exact Or.inl (by omega)
      · exact Or.inl (by omega)
      · exact Or.inr h
    · intro hc
      obtain h | h := hc
      · rcases Nat.lt_succ_iff_lt_or_eq.mp h with h | rfl
        · exact Or.inr (Or.inr (Or.inl h))
        · exact Or.inl rfl
      · exact Or.inr (Or.inr (Or.inr h))
  · intro a
    have hmem : a ∈ (clearFrame i t).mem.writes ↔ a = t.pmem.statePtr i ∨
        a ∈ (memset t.mem (t.pmem.framePtr i) 0x0 sizeofPageFrame).writes := List.mem_cons
    rw [hmem, mem_writes_memset (by rw [hptr]; exact Nat.mod_lt _ (by decide)), ht.writes, hptr,
      hstate]
    constructor
    · intro hc
      obtain rfl | ⟨j, hj, rfl⟩ | ⟨k, hk, j, hj, rfl⟩ | h := hc
      · exact Or.inl ⟨i, by omega, 8, by omega, rfl⟩
      · exact Or.inl ⟨i, by omega, j, hj, by omega⟩
      · exact Or.inl ⟨k, by omega, j, hj, rfl⟩
      · exact Or.inr h
    · intro hc
      obtain ⟨k, hk, j, hj, rfl⟩ | h := hc
      · rcases Nat.lt_succ_iff_lt_or_eq.mp hk with hlt | rfl
        · exact Or.inr (Or.inr (Or.inl ⟨k, hlt, j, hj, rfl⟩))
        · exact Or.inr (Or.inl ⟨j, hj, by omega⟩)
      · exact Or.inr (Or.inr (Or.inr h))

/-- The first `count` frames are free and nothing outside the array has changed. -/
structure ClearedFree (s : Kernel) (count : Nat) (t : Kernel) : Prop where
  pm : t.pmem.toPhysicalMemory = s.pmem.toPhysicalMemory
  state : ∀ i < count, getFrameState t i = FrameState.free.code
  outside : Set.EqOn t.mem.byte s.mem.byte (s.pmem.arrayBytes)ᶜ

theorem clearedFree_clearFrames {s : Kernel} (hfits : s.pmem.Fits) :
    ClearedFree s s.pmem.frames (clearFrames s) := by
  unfold clearFrames
  apply fold_invariant (ClearedFree s)
  · exact ⟨rfl, fun i hi => absurd hi (Nat.not_lt_zero i), fun a _ => rfl⟩
  intro n hn t h
  obtain ⟨hpm, hstate, hout⟩ := h
  have hptr : t.pmem.framePtr n = s.pmem.array + n * 16 := by
    rw [hpm]
    exact framePtr_eq hfits hn
  have hsptr : ∀ i < n + 1, t.pmem.statePtr i = s.pmem.array + i * 16 + 8 := by
    intro i hi
    rw [hpm]
    exact statePtr_eq hfits (by omega)
  have hbound : s.pmem.array + n * 16 + 16 ≤ 2 ^ 64 := by
    unfold Fits at hfits
    omega
  -- a round only changes the sixteen bytes of its own record
  have hbyte : ∀ a, a ∉ Set.Ico (s.pmem.array + n * 16) (s.pmem.array + n * 16 + 16) →
      (clearFrame n t).mem.byte a = t.mem.byte a := by
    intro a ha
    have hne : a ≠ t.pmem.statePtr n := by
      rw [hsptr n (by omega)]
      rintro rfl
      exact ha (Set.mem_Ico.mpr ⟨by omega, by omega⟩)
    exact (Memory.store_byte_of_ne _ _ _ _ hne).trans
      (memset_byte_of_notMem (by rw [hptr]; exact hbound) (by rw [hptr]; exact ha))
  refine ⟨hpm, ?_, ?_⟩
  · intro i hi
    rcases Nat.lt_succ_iff_lt_or_eq.mp hi with hlt | rfl
    · rw [← hstate i hlt]
      have hsame : (clearFrame n t).pmem.statePtr i = t.pmem.statePtr i := rfl
      rw [getFrameState, getFrameState, hsame]
      apply hbyte
      rw [hsptr i hi]
      intro hc
      have := hc.1
      have := hc.2
      omega
    · exact Memory.store_byte_self _ _ _
  · intro a ha
    rw [hbyte a, hout ha]
    exact fun hc => ha (Set.Ico_subset_Ico (by omega) (by omega) hc)

@[simp] theorem clearFrames_pm (s : Kernel) :
    (clearFrames s).pmem.toPhysicalMemory = s.pmem.toPhysicalMemory := (cleared_clearFrames s).pm

/-- The array is all free even where it goes round the end of the address space: only zeros are
stored. -/
theorem getFrameState_clearFrames (s : Kernel) {i : Nat} (hi : i < s.pmem.frames) :
    getFrameState (clearFrames s) i = FrameState.free.code := by
  have hloop : (clearFrames s).pmem.toPhysicalMemory = s.pmem.toPhysicalMemory ∧
      ∀ j < s.pmem.frames, getFrameState (clearFrames s) j = FrameState.free.code := by
    unfold clearFrames
    apply fold_invariant fun count t => t.pmem.toPhysicalMemory = s.pmem.toPhysicalMemory ∧
      ∀ j < count, getFrameState t j = FrameState.free.code
    · exact ⟨rfl, fun j hj => absurd hj (Nat.not_lt_zero j)⟩
    · intro n _ t ht
      refine ⟨ht.1, fun j hj => ?_⟩
      have hptr : (clearFrame n t).pmem.statePtr j = t.pmem.statePtr j := rfl
      rw [getFrameState, hptr]
      by_cases heq : t.pmem.statePtr j = t.pmem.statePtr n
      · rw [heq]
        exact Memory.store_byte_self _ _ _
      · have hstore : (clearFrame n t).mem.byte (t.pmem.statePtr j) =
            (memset t.mem (t.pmem.framePtr n) 0x0 sizeofPageFrame).byte (t.pmem.statePtr j) :=
          Memory.store_byte_of_ne _ _ _ _ heq
        rw [hstore]
        rcases memset_byte_cases sizeofPageFrame (t.pmem.statePtr j) with hzero | hkept
        · rw [hzero]
          rfl
        · rw [hkept]
          exact ht.2 j (lt_of_le_of_ne (Nat.lt_succ_iff.mp hj) fun hc => heq (by rw [hc]))
  exact hloop.2 i hi

/-- The all-free array `PhysicalMemory__init` starts from. -/
theorem allFree_clearFrames {s : Kernel} {buffer frames : Nat}
    (hfits : buffer + frames * 16 ≤ 2 ^ 64) :
    AllFree (clearFrames (setUpArray buffer frames s)) := by
  have hpm := clearFrames_pm (setUpArray buffer frames s)
  have hfits' : (setUpArray buffer frames s).pmem.Fits := hfits
  refine ⟨?_, ?_, ?_, ?_, ?_⟩
  · rw [hpm]
    exact hfits'
  · rw [hpm]
    exact (clearedFree_clearFrames hfits').state
  · rw [hpm]
    rfl
  · rw [hpm]
    rfl
  · rw [hpm]
    rfl

end MyOSKernel.PhysicalMemory
