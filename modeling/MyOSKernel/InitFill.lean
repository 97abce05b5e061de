import MyOSKernel.InitPhases

/-! The fill loop of `PhysicalMemory__init`: descriptor by descriptor and page by page the array is
given the frame addresses of the memory map, and frames the kernel must not use are reserved. -/

namespace MyOSKernel.PhysicalMemory

/-- `s'` is `s` with the address of frame `i` replaced. -/
structure AddrSet (s s' : Kernel) (i addr : Nat) : Prop where
  array : s'.pmem.array = s.pmem.array
  frames : s'.pmem.frames = s.pmem.frames
  count : ∀ k, s'.pmem.counter k = s.pmem.counter k
  state : ∀ j < s.pmem.frames, getFrameState s' j = getFrameState s j
  addr : ∀ j < s.pmem.frames, getFrameAddr s' j = if j = i then addr else getFrameAddr s j
  outside : Set.EqOn s'.mem.byte s.mem.byte (s.pmem.arrayBytes)ᶜ

theorem addrSet_setFrameAddr {s : Kernel} {i addr : Nat} (hfits : s.pmem.Fits)
    (hi : i < s.pmem.frames) (haddr : addr < 2 ^ 64) : AddrSet s (setFrameAddr s i addr) i addr := by
  refine ⟨rfl, rfl, fun k => rfl, ?_, ?_, ?_⟩
  · exact fun j _ => Memory.storeLE_byte_of_notMem _ (statePtr_notMem_frameAddr _ j i)
  · intro j hj
    by_cases hji : j = i
    · subst hji
      rw [if_pos rfl]
      exact (Memory.loadLE_storeLE _).trans (Nat.mod_eq_of_lt haddr)
    · rw [if_neg hji]
      apply Memory.loadLE_storeLE_of_disjoint
      have hi' : s.pmem.framePtr i = s.pmem.array + i * 16 := framePtr_eq hfits hi
      have hj' : (setFrameAddr s i addr).pmem.framePtr j = s.pmem.array + j * 16 :=
        framePtr_eq hfits hj
      omega
  · intro a ha
    apply Memory.storeLE_byte_of_notMem
    exact fun hc => ha (frameAddr_subset hfits hi hc)

theorem AddrSet.accounts {s s' : Kernel} {i addr : Nat} (h : AddrSet s s' i addr)
    (hs : Accounts s) : Accounts s' := by
  refine ⟨?_, ?_, ?_⟩
  · unfold Fits
    rw [h.array, h.frames]
    exact hs.fits
  · intro j hj
    rw [h.frames] at hj
    rw [h.state j hj]
    exact hs.legal j hj
  · intro k
    rw [h.count, h.frames, hs.count k]
    exact (tally_congr h.state).symm

variable {memory : MemoryData} {buffer : Nat} {s : Kernel}

/-- The invariant rule of the fill loops: `outer` holds between descriptors, `inner` between the
pages of one. -/
theorem fillFrames_rule (memory : MemoryData) (buffer : Nat) (s : Kernel)
    (outer : Nat → FillState → Prop) (inner : Nat → Nat → FillState → Prop)
    (hstart : outer 0 { kernel := s, frameId := 0, arrayFrameId := 0 })
    (henter : ∀ i < memory.entries, ∀ fill, outer i fill → inner i 0
      (if (getMemoryDescriptor memory i).physicalAddr = buffer then
        { fill with arrayFrameId := fill.frameId } else fill))
    (hpage : ∀ i < memory.entries, ∀ n < (getMemoryDescriptor memory i).numberOfPages, ∀ fill,
      inner i n fill → inner i (n + 1) (fillPage (getMemoryDescriptor memory i) n fill))
    (hleave : ∀ i < memory.entries, ∀ fill,
      inner i (getMemoryDescriptor memory i).numberOfPages fill → outer (i + 1) fill) :
    outer memory.entries (fillFrames memory buffer s) := by
  unfold fillFrames
  apply fold_invariant outer hstart
  intro i hi fill hfill
  apply hleave i hi
  unfold fillDescriptor
  exact fold_invariant (inner i) (henter i hi fill hfill) fun n hn fill' => hpage i hi n hn fill'

/-- The subscripts used and the bytes written once `count` pages have been filled in. -/
structure FillTrace (s : Kernel) (count : Nat) (t : Kernel) : Prop where
  array : t.pmem.array = s.pmem.array
  frames : t.pmem.frames = s.pmem.frames
  subscripts : ∀ idx, idx ∈ t.pmem.subscripts ↔
    (∃ k < count, idx = k % 2 ^ 64) ∨ idx ∈ s.pmem.subscripts
  writes : ∀ a ∈ t.mem.writes,
    (∃ k < count, ∃ j < 16, a % 2 ^ 64 = (s.pmem.array + k * 16 + j) % 2 ^ 64) ∨ a ∈ s.mem.writes
  written : ∀ k < count, (s.pmem.array + k * 16) % 2 ^ 64 ∈ t.mem.writes
  kept : s.mem.writes ⊆ t.mem.writes

namespace FillTrace
variable {t : Kernel} {count : Nat}

theorem setFrameAddr (h : FillTrace s count t) (addr : Nat) :
    FillTrace s (count + 1) (setFrameAddr t (count % 2 ^ 64) addr) := by
  have hptr : t.pmem.framePtr (count % 2 ^ 64) = (s.pmem.array + count * 16) % 2 ^ 64 := by
    rw [framePtr, h.array, sizeofPageFrame]
    omega
  have hmem : ∀ a, a ∈ (PhysicalMemory.setFrameAddr t (count % 2 ^ 64) addr).mem.writes ↔
      a ∈ Set.Ico (t.pmem.framePtr (count % 2 ^ 64)) (t.pmem.framePtr (count % 2 ^ 64) + 8) ∨
        a ∈ t.mem.writes :=
    fun a => Memory.mem_writes_storeLE _
  refine ⟨h.array, h.frames, ?_, ?_, ?_, fun a ha => (hmem a).mpr (Or.inr (h.kept ha))⟩
  · intro idx
    have hidx : idx ∈ (PhysicalMemory.setFrameAddr t (count % 2 ^ 64) addr).pmem.subscripts ↔
        idx = count % 2 ^ 64 ∨ idx ∈ t.pmem.subscripts := List.mem_cons
    rw [hidx, h.subscripts, Nat.exists_lt_succ_right, or_assoc]
    exact or_left_comm
  · intro a ha
    rcases (hmem a).mp ha with hin | hold
    · have hlow := hin.1
      have hhigh := hin.2
      rw [hptr] at hlow hhigh
      exact Or.inl ⟨count, by omega, a - (s.pmem.array + count * 16) % 2 ^ 64, by omega, by omega⟩
    · rcases h.writes a hold with ⟨k, hk, j, hj, heq⟩ | hs
      · exact Or.inl ⟨k, by omega, j, hj, heq⟩
      · exact Or.inr hs
  · intro k hk
    rw [hmem]
    rcases Nat.lt_succ_iff_lt_or_eq.mp hk with hlt | rfl
    · exact Or.inr (h.written k hlt)
    · rw [hptr]
      exact Or.inl (Set.mem_Ico.mpr ⟨le_rfl, by omega⟩)

theorem reserveFrame (h : FillTrace s (count + 1) t) :
    FillTrace s (count + 1) (reserveFrame t (count % 2 ^ 64)) := by
  have hsubset : t.mem.writes ⊆ (PhysicalMemory.reserveFrame t (count % 2 ^ 64)).mem.writes :=
    subset_writes_moveFrame
  refine ⟨moveFrame_array.trans h.array, moveFrame_frames.trans h.frames, ?_, ?_,
    fun k hk => hsubset (h.written k hk), fun a ha => hsubset (h.kept ha)⟩
  · intro idx
    rw [show idx ∈ (PhysicalMemory.reserveFrame t (count % 2 ^ 64)).pmem.subscripts ↔ _ from
      mem_subscripts_moveFrame, h.subscripts]
    constructor
    · intro hc
      obtain rfl | hs := hc
      · exact Or.inl ⟨count, by omega, rfl⟩
      · exact hs
    · exact Or.inr
  · intro a ha
    rcases mem_writes_moveFrame ha with heq | hold
    · refine Or.inl ⟨count, by omega, 8, by omega, ?_⟩
      rw [heq, statePtr, h.array, sizeofPageFrame]
      omega
    · exact h.writes a hold

end FillTrace

theorem fillTrace_fillPage {count n : Nat} {fill : FillState} {desc : EfiMemoryDescriptor}
    (hid : fill.frameId = count % 2 ^ 64) (h : FillTrace s count fill.kernel) :
    (fillPage desc n fill).frameId = (count + 1) % 2 ^ 64 ∧
      FillTrace s (count + 1) (fillPage desc n fill).kernel := by
  have hstore := h.setFrameAddr ((desc.physicalAddr + n * pageSz) % 2 ^ 64)
  constructor
  · show (fill.frameId + 1) % 2 ^ 64 = _
    omega
  · show FillTrace s (count + 1) (if NotForKernel desc then
      reserveFrame (setFrameAddr fill.kernel fill.frameId _) fill.frameId else
      setFrameAddr fill.kernel fill.frameId _)
    rw [hid]
    split_ifs
    · exact hstore.reserveFrame
    · exact hstore

theorem fillTrace_fillFrames (memory : MemoryData) (buffer : Nat) (s : Kernel) :
    (fillFrames memory buffer s).frameId = totalPages memory % 2 ^ 64 ∧
      FillTrace s (totalPages memory) (fillFrames memory buffer s).kernel := by
  apply fillFrames_rule memory buffer s
    (fun i fill => fill.frameId = pagesBefore memory i % 2 ^ 64 ∧
      FillTrace s (pagesBefore memory i) fill.kernel)
    (fun i n fill => fill.frameId = (pagesBefore memory i + n) % 2 ^ 64 ∧
      FillTrace s (pagesBefore memory i + n) fill.kernel)
  · exact ⟨rfl, rfl, rfl, fun idx => by simp, fun a ha => Or.inr ha,
      fun k hk => absurd hk (Nat.not_lt_zero k), List.Subset.refl _⟩
  · intro i _ fill h
    split_ifs
    · exact h
    · exact h
  · exact fun i _ n _ fill h => fillTrace_fillPage h.1 h.2
  · intro i _ fill h
    rw [pagesBefore_succ]
    exact h

/-- The frame number at which the array is taken to start: that of the last descriptor among the
first `count` that begins at `buffer`, and zero without one. -/
def arrayStart (memory : MemoryData) (buffer : Nat) : Nat → Nat
  | 0 => 0
  | count + 1 =>
      if (getMemoryDescriptor memory count).physicalAddr = buffer then pagesBefore memory count
      else arrayStart memory buffer count

/-- The state the fill loop gives the frames of a descriptor. -/
def fillState (desc : EfiMemoryDescriptor) : FrameState :=
  if NotForKernel desc then .reserved else .free

/-- The array once `count` pages have been filled in. -/
structure Filled (memory : MemoryData) (s : Kernel) (count : Nat) (t : Kernel) : Prop where
  accounts : Accounts t
  array : t.pmem.array = s.pmem.array
  frames : t.pmem.frames = s.pmem.frames
  page : ∀ i < memory.entries, ∀ n < (getMemoryDescriptor memory i).numberOfPages,
    pagesBefore memory i + n < count →
    getFrameAddr t (pagesBefore memory i + n) =
      ((getMemoryDescriptor memory i).physicalAddr + n * 4096) % 2 ^ 64 ∧
    getFrameState t (pagesBefore memory i + n) = (fillState (getMemoryDescriptor memory i)).code
  rest : ∀ idx, count ≤ idx → idx < s.pmem.frames → getFrameState t idx = FrameState.free.code
  outside : Set.EqOn t.mem.byte s.mem.byte (s.pmem.arrayBytes)ᶜ

namespace Filled
variable {t t' : Kernel} {count i n : Nat}

theorem arrayBytes_eq (h : Filled memory s count t) : t.pmem.arrayBytes = s.pmem.arrayBytes := by
  rw [arrayBytes, arrayBytes, h.array, h.frames]

/-- One page: its address is stored, and then its state is as its descriptor says. -/
theorem step (h : Filled memory s count t) (hcount : count < s.pmem.frames)
    (hi : i < memory.entries) (hn : n < (getMemoryDescriptor memory i).numberOfPages)
    (hpos : count = pagesBefore memory i + n) (haccounts : Accounts t')
    (harray : t'.pmem.array = t.pmem.array) (hframes : t'.pmem.frames = t.pmem.frames)
    (haddr : ∀ j < t.pmem.frames, getFrameAddr t' j = if j = count then
      ((getMemoryDescriptor memory i).physicalAddr + n * 4096) % 2 ^ 64 else getFrameAddr t j)
    (hstate : ∀ j < t.pmem.frames, getFrameState t' j = if j = count then
      (fillState (getMemoryDescriptor memory i)).code else getFrameState t j)
    (houtside : Set.EqOn t'.mem.byte t.mem.byte (t.pmem.arrayBytes)ᶜ) :
    Filled memory s (count + 1) t' := by
  have htframes := h.frames
  refine ⟨haccounts, harray.trans h.array, hframes.trans h.frames, ?_, ?_, ?_⟩
  · intro k hk m hm hlt
    rw [haddr _ (by omega), hstate _ (by omega)]
    by_cases heq : pagesBefore memory k + m = count
    · obtain ⟨rfl, rfl⟩ := pagesBefore_add_inj memory hm hn (heq.trans hpos)
      rw [if_pos heq, if_pos heq]
      exact ⟨rfl, rfl⟩
    · rw [if_neg heq, if_neg heq]
      exact h.page k hk m hm (by omega)
  · intro idx hlow hhigh
    rw [hstate _ (by omega), if_neg (by omega)]
    exact h.rest idx (by omega) hhigh
  · rw [← h.arrayBytes_eq]
    exact houtside.trans (h.arrayBytes_eq ▸ h.outside)

theorem fillPage {fill : FillState} (h : Filled memory s count fill.kernel)
    (hcount : count < s.pmem.frames) (hid : fill.frameId = count)
    (hi : i < memory.entries) (hn : n < (getMemoryDescriptor memory i).numberOfPages)
    (hpos : count = pagesBefore memory i + n) :
    Filled memory s (count + 1) (fillPage (getMemoryDescriptor memory i) n fill).kernel := by
  have hcount' : count < fill.kernel.pmem.frames := by
    rw [h.frames]
    exact hcount
  have haddr := addrSet_setFrameAddr h.accounts.fits hcount'
    (Nat.mod_lt ((getMemoryDescriptor memory i).physicalAddr + n * 4096) (by decide : 0 < 2 ^ 64))
  have haccounts := haddr.accounts h.accounts
  have hfree : getFrameState fill.kernel count = FrameState.free.code := h.rest count le_rfl hcount
  show Filled memory s (count + 1) (if NotForKernel (getMemoryDescriptor memory i) then
    reserveFrame (setFrameAddr fill.kernel fill.frameId _) fill.frameId else
    setFrameAddr fill.kernel fill.frameId _)
  rw [hid]
  by_cases hdesc : NotForKernel (getMemoryDescriptor memory i)
  · rw [if_pos hdesc]
    have hmoved : Moved .free .reserved (setFrameAddr fill.kernel count _) (reserveFrame _ count)
        count :=
      moved_moveFrame haccounts.fits (haddr.frames ▸ hcount')
        ((haddr.state count hcount').trans hfree)
    have hstate : fillState (getMemoryDescriptor memory i) = .reserved := if_pos hdesc
    refine h.step hcount hi hn hpos (haccounts.moved (by decide) (haddr.frames ▸ hcount') hmoved)
      (hmoved.array.trans haddr.array) (hmoved.frames.trans haddr.frames) ?_ ?_ ?_
    · intro j hj
      rw [← haddr.addr j hj]
      exact hmoved.addr j (haddr.frames ▸ hj)
    · intro j hj
      rw [hstate, ← haddr.state j hj]
      exact hmoved.state j (haddr.frames ▸ hj)
    · have hbytes : (setFrameAddr fill.kernel count
          (((getMemoryDescriptor memory i).physicalAddr + n * 4096) % 2 ^ 64)).pmem.arrayBytes =
          fill.kernel.pmem.arrayBytes := rfl
      exact (hbytes ▸ hmoved.eqOn_compl haccounts.fits (haddr.frames ▸ hcount')).trans haddr.outside
  · rw [if_neg hdesc]
    have hstate : fillState (getMemoryDescriptor memory i) = .free := if_neg hdesc
    refine h.step hcount hi hn hpos haccounts haddr.array haddr.frames haddr.addr ?_ haddr.outside
    intro j hj
    rw [hstate, haddr.state j hj]
    by_cases hj' : j = count
    · rw [if_pos hj', hj', hfree]
    · rw [if_neg hj']

end Filled

/-- The fill loop gives every page of the map its address and state. -/
theorem filled_fillFrames (hs : AllFree s) (htotal : totalPages memory ≤ s.pmem.frames) :
    (fillFrames memory buffer s).arrayFrameId = arrayStart memory buffer memory.entries ∧
      Filled memory s (totalPages memory) (fillFrames memory buffer s).kernel := by
  have hframes := hs.accounts.frames_le
  have hid {count : Nat} (hcount : count ≤ totalPages memory) : count % 2 ^ 64 = count :=
    Nat.mod_eq_of_lt (by omega)
  have hloop := fillFrames_rule memory buffer s
    (fun i fill => fill.frameId = pagesBefore memory i ∧
      fill.arrayFrameId = arrayStart memory buffer i ∧ Filled memory s (pagesBefore memory i) fill.kernel)
    (fun i n fill => fill.frameId = pagesBefore memory i + n ∧
      fill.arrayFrameId = arrayStart memory buffer (i + 1) ∧
      Filled memory s (pagesBefore memory i + n) fill.kernel)
    ⟨rfl, rfl, hs.accounts, rfl, rfl, fun k _ m _ hlt => absurd hlt (Nat.not_lt_zero _),
      fun idx _ hidx => hs.state idx hidx, fun a _ => rfl⟩
    (by
      intro i _ fill h
      obtain ⟨hid, hstart, hfilled⟩ := h
      rw [arrayStart]
      split_ifs
      · exact ⟨hid, hid, hfilled⟩
      · exact ⟨hid, hstart, hfilled⟩)
    (by
      intro i hi n hn fill h
      obtain ⟨hfid, hstart, hfilled⟩ := h
      have hlt := pagesBefore_add_lt memory hi hn
      refine ⟨?_, hstart, hfilled.fillPage (by omega) hfid hi hn rfl⟩
      show (fill.frameId + 1) % 2 ^ 64 = _
      rw [hfid]
      exact hid (by omega))
    (by
      intro i _ fill h
      obtain ⟨hfid, hstart, hfilled⟩ := h
      rw [pagesBefore_succ]
      exact ⟨hfid, hstart, hfilled⟩)
  exact hloop.2

end MyOSKernel.PhysicalMemory
