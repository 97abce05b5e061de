import MyOSKernel.FrameIsolation

/-! Looking up a frame by an address inside it. With frames at distinct aligned addresses the search
inverts the address map, and freeing the frame found for any address of a frame just requested
restores the allocator and the array. -/

namespace MyOSKernel.PhysicalMemory

/-- The frames are pages at pairwise distinct aligned addresses below `2^52`. -/
structure AlignedFrames (s : Kernel) : Prop where
  aligned : ∀ i < s.pmem.frames, 4096 ∣ getFrameAddr s i
  below : ∀ i < s.pmem.frames, getFrameAddr s i < 2 ^ 52
  distinct : Holding.DistinctAddrs s

/-- Frame `i` is the page the address lies in. -/
abbrev Contains (s : Kernel) (i ptr : Nat) : Prop :=
  getFrameAddr s i ≤ ptr ∧ ptr < getFrameAddr s i + 4096

namespace AlignedFrames
variable {s s' : Kernel} {i j ptr : Nat}

theorem congr (h : AlignedFrames s) (hsame : SameFrames s s') : AlignedFrames s' := by
  have hlt {k : Nat} (hk : k < s'.pmem.frames) : k < s.pmem.frames := hsame.frames ▸ hk
  refine ⟨?_, ?_, ?_⟩
  · intro k hk
    rw [hsame.addr k (hlt hk)]
    exact h.aligned k (hlt hk)
  · intro k hk
    rw [hsame.addr k (hlt hk)]
    exact h.below k (hlt hk)
  · intro k hk l hl heq
    rw [hsame.addr k (hlt hk), hsame.addr l (hlt hl)] at heq
    exact h.distinct k (hlt hk) l (hlt hl) heq

/-- The comparison of the source is the mathematical one. -/
theorem pageContains_iff (h : AlignedFrames s) (hi : i < s.pmem.frames) :
    PageContains (getFrameAddr s i) ptr ↔ Contains s i ptr := by
  have := h.below i hi
  rw [PageContains, Nat.mod_eq_of_lt (by omega)]

/-- No address lies in two frames. -/
theorem contains_unique (h : AlignedFrames s) (hi : i < s.pmem.frames) (hj : j < s.pmem.frames)
    (hci : Contains s i ptr) (hcj : Contains s j ptr) : i = j := by
  have hdvd := h.aligned i hi
  have hdvd' := h.aligned j hj
  exact h.distinct i hi j hj (by omega)

/-- The search finds the frame an address lies in. -/
theorem getFrameIndexByPtr_eq (h : AlignedFrames s) (hi : i < s.pmem.frames)
    (hc : Contains s i ptr) : getFrameIndexByPtr s ptr = i := by
  rcases getFrameIndexByPtr_cases s ptr with ⟨j, hj, heq, hcj, _⟩ | ⟨_, hnone⟩
  · rw [heq]
    exact h.contains_unique hj hi ((h.pageContains_iff hj).mp hcj) hc
  · exact absurd ((h.pageContains_iff hi).mpr hc) (hnone i hi)

end AlignedFrames

/-- The counters determine the structure beside the fields that no operation changes. -/
theorem toPhysicalMemory_eq {s s' : Kernel} (hsame : SameFrames s s')
    (hinitialized : s'.pmem.initialized = s.pmem.initialized)
    (hcount : ∀ k, s'.pmem.counter k = s.pmem.counter k) :
    s'.pmem.toPhysicalMemory = s.pmem.toPhysicalMemory := by
  have hfree : s'.pmem.freeFrames = s.pmem.freeFrames := hcount .free
  have hreserved : s'.pmem.reservedFrames = s.pmem.reservedFrames := hcount .reserved
  have hlocked : s'.pmem.lockedFrames = s.pmem.lockedFrames := hcount .locked
  have harray := hsame.array
  have hframes := hsame.frames
  cases h : s.pmem.toPhysicalMemory with
  | mk free reserved locked frames array initialized =>
      cases h' : s'.pmem.toPhysicalMemory with
      | mk free' reserved' locked' frames' array' initialized' =>
          simp only [h, h'] at hfree hreserved hlocked harray hframes hinitialized
          rw [hfree, hreserved, hlocked, harray, hframes, hinitialized]

/-- Moving a frame and moving it back changes nothing. -/
theorem Moved.restores {k l : FrameState} {s t s' : Kernel} {i : Nat} (hs : Accounts s) (hne : k ≠ l)
    (hi : i < s.pmem.frames) (h : Moved k l s t i) (h' : Moved l k t s' i) :
    s'.pmem.toPhysicalMemory = s.pmem.toPhysicalMemory ∧ s'.mem.byte = s.mem.byte := by
  have hi' : i < t.pmem.frames := h.frames ▸ hi
  have ht := hs.moved hne hi h
  have hsame : SameFrames s s' := (SameFrames.of_moved h).trans (.of_moved h')
  constructor
  · refine toPhysicalMemory_eq hsame (h'.initialized.trans h.initialized) fun c => ?_
    have hthere := hs.counter_moved hne hi h c
    have hback := ht.counter_moved hne.symm hi' h' c
    omega
  · funext a
    by_cases ha : a = s.pmem.statePtr i
    · -- the state byte is back
      have hstate : getFrameState s' i = k.code := by
        rw [h'.state i hi', if_pos rfl]
      calc s'.mem.byte a
          = getFrameState s' i := by rw [ha, getFrameState, hsame.statePtr_eq]
        _ = getFrameState s i := hstate.trans h.was.symm
        _ = s.mem.byte a := by rw [ha, getFrameState]
    · have ha' : a ≠ t.pmem.statePtr i := by
        rw [(SameFrames.of_moved h).statePtr_eq]
        exact ha
      exact (h'.byte a ha').trans (h.byte a ha)

/-- **Lookup inverts the address map, and freeing what was requested restores the machine.** The
search returns the only frame an address lies in, or `(size_t) -1`; with a free frame, a request
followed by freeing the frame found for any address inside the one returned leaves the structure and
every byte as they were. -/
theorem lookup_inverts_and_restores (s : Kernel) (hframes : AlignedFrames s) (haccounts : Accounts s) :
    (∀ ptr, (∃ i < s.pmem.frames, getFrameIndexByPtr s ptr = i ∧ Contains s i ptr ∧
        ∀ j < s.pmem.frames, Contains s j ptr → j = i) ∨
      (getFrameIndexByPtr s ptr = 2 ^ 64 - 1 ∧ ∀ i < s.pmem.frames, ¬Contains s i ptr)) ∧
    ∀ offset < 4096, (∃ i < s.pmem.frames, getFrameState s i = FrameState.free.code) →
      let granted := pmemRequestFrame s
      let s' := freeFrame granted.2 (getFrameIndexByPtr granted.2 (granted.1 + offset))
      s'.pmem.toPhysicalMemory = s.pmem.toPhysicalMemory ∧ s'.mem.byte = s.mem.byte := by
  constructor
  · intro ptr
    rcases getFrameIndexByPtr_cases s ptr with ⟨i, hi, heq, hc, _⟩ | ⟨heq, hnone⟩
    · have hci := (hframes.pageContains_iff hi).mp hc
      exact Or.inl ⟨i, hi, heq, hci, fun j hj hcj => hframes.contains_unique hj hi hcj hci⟩
    · exact Or.inr ⟨heq, fun i hi hc => hnone i hi ((hframes.pageContains_iff hi).mpr hc)⟩
  · intro offset hoffset hfree granted s'
    rcases haccounts.request_cases with ⟨hnone, _, _⟩ | ⟨i, hi, _, _, hm, haddr⟩
    · obtain ⟨i, hi, hstate⟩ := hfree
      exact absurd hstate (hnone i hi)
    · have hsame : SameFrames s granted.2 := .of_moved hm
      have hi' : i < granted.2.pmem.frames := hm.frames ▸ hi
      -- the frame found is the one granted
      have hindex : getFrameIndexByPtr granted.2 (granted.1 + offset) = i := by
        refine (hframes.congr hsame).getFrameIndexByPtr_eq hi' ?_
        rw [Contains, hsame.addr i hi, ← haddr]
        exact ⟨Nat.le_add_right _ _, Nat.add_lt_add_left hoffset _⟩
      have hlocked : getFrameState granted.2 i = FrameState.locked.code := by
        rw [hm.state i hi, if_pos rfl]
      have hback : Moved .locked .free granted.2 s' i := by
        show Moved _ _ _ (freeFrame granted.2 (getFrameIndexByPtr granted.2 _)) i
        rw [hindex]
        exact moved_moveFrame (hm.fits haccounts.fits) hi' hlocked
      exact hm.restores haccounts (by decide) hi hback

/-- What an initialization of a well laid out map leaves. -/
theorem InitResult.alignedFrames {kernel : KernelData} {buffer : Nat} {s : Kernel}
    (h : InitResult kernel buffer s) (hlayout : MapLayout kernel.memory) : AlignedFrames s := by
  refine ⟨?_, ?_, fun j hj k hk heq => h.addr_inj hlayout hj hk heq⟩
  · intro j hj
    obtain ⟨i, hi, n, _, _, haddr⟩ := h.exists_page hlayout hj
    rw [haddr]
    exact hlayout.pageAddr_aligned hi
  · intro j hj
    obtain ⟨i, hi, n, hn, _, haddr⟩ := h.exists_page hlayout hj
    have hlt := hlayout.pageAddr_lt hi hn
    omega

theorem initResult_segment : InitResult segmentKernel
    (getLargestFreeMemSeg segmentKernel.memory 0).2 segmentMachine :=
  (initResult_of_layout mapLayout_segment initPhysicalMemory_segment (by decide +kernel)
    (by decide +kernel)).2

/-- A frame requested there is freed by an address inside it. -/
theorem lookup_inverts_and_restores_segment :
    let granted := pmemRequestFrame segmentMachine
    (freeFrame granted.2 (getFrameIndexByPtr granted.2 (granted.1 + 0x123))).mem.byte =
      segmentMachine.mem.byte :=
  ((lookup_inverts_and_restores segmentMachine (initResult_segment.alignedFrames mapLayout_segment)
    initResult_segment.accounts).2 0x123 (by decide) ⟨5, by decide +kernel, by decide +kernel⟩).2

end MyOSKernel.PhysicalMemory
