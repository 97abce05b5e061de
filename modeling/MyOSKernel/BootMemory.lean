import MyOSKernel.EnablePaging
import MyOSKernel.FrameIsolation
import MyOSKernel.Hpet
import MyOSKernel.IdentityRange
import MyOSKernel.PagingOrder
import MyOSKernel.PagingSelfTest

/-! From the memory map to the page tables: `init_physical_memory` followed by `init_paging`. The calls
the second makes are those for the pages of the map, for three devices and for the self-test, and the
tables are the first frames the first has left free. -/

namespace MyOSKernel

open PhysicalMemory

/-- The pages of the map in the order of the array. -/
def mapPages (memory : MemoryData) : List Nat :=
  (List.range memory.entries).flatMap fun i =>
    (List.range (getMemoryDescriptor memory i).numberOfPages).map (pageAddr memory i)

/-- The calls of `_identity_paging_memory`. -/
def identityMemoryCalls (kernel : KernelData) : List MapCall :=
  (mapPages kernel.memory).map (fun a => ⟨a, a⟩) ++
    (identityCalls kernel.framebuffer.baseAddress
        (identityPagingRounds kernel.framebuffer.bufferSize) ++
      (identityCalls apicBaseAddr (identityPagingRounds 4096) ++
        identityCalls kernel.hpetAddress (identityPagingRounds (hpetGetMmioSz kernel))))

/-- The calls of `init_paging`. -/
def initPagingCalls (kernel : KernelData) : List MapCall :=
  identityMemoryCalls kernel ++ [⟨testAddr, 0⟩]

section Calls
variable {PML4 : PML4Table} {kernel : KernelData} {s : Kernel}

/-- The first loop reads the addresses while it changes the states, which are elsewhere. -/
theorem mapFrames_eq_runCalls (hworld : FrameWorld PML4 s)
    (hzero : ∀ a ∈ pageBytes PML4.addr, s.mem.byte a = 0) {count : Nat} (hcount : count ≤ s.pmem.frames)
    (hok : RequestsInOrder PML4 s ((List.range count).map fun j => ⟨getFrameAddr s j, getFrameAddr s j⟩)) :
    mapFrames PML4 s count = runCalls pmemRequestFrame PML4 s
      ((List.range count).map fun j => ⟨getFrameAddr s j, getFrameAddr s j⟩) := by
  induction count with
  | zero => rfl
  | succ count ih =>
      rw [List.range_succ, List.map_append, List.map_singleton] at hok ⊢
      have hrun := ih (Nat.le_of_succ_le hcount) hok.of_append
      obtain ⟨_, _, htf, _, _⟩ := runTree_ordered hworld hzero hok.of_append
      rw [runCalls_append_singleton, mapFrames_succ, hrun, htf.holding.same.addr count hcount]

/-- An array that holds the pages of the map. -/
theorem map_getFrameAddr_eq (hframes : s.pmem.frames = totalPages kernel.memory)
    (haddr : ∀ i < kernel.memory.entries, ∀ n < (getMemoryDescriptor kernel.memory i).numberOfPages,
      getFrameAddr s (pagesBefore kernel.memory i + n) = pageAddr kernel.memory i n) :
    (List.range s.pmem.frames).map (getFrameAddr s) = mapPages kernel.memory := by
  have hbefore : ∀ i ≤ kernel.memory.entries,
      (List.range (pagesBefore kernel.memory i)).map (getFrameAddr s) =
        (List.range i).flatMap fun k =>
          (List.range (getMemoryDescriptor kernel.memory k).numberOfPages).map
            (pageAddr kernel.memory k) := by
    intro i
    induction i with
    | zero => exact fun _ => rfl
    | succ i ih =>
        intro hi
        have hpages : (List.range (getMemoryDescriptor kernel.memory i).numberOfPages).map
            (fun n => getFrameAddr s (pagesBefore kernel.memory i + n)) =
            (List.range (getMemoryDescriptor kernel.memory i).numberOfPages).map
              (pageAddr kernel.memory i) :=
          List.map_congr_left fun n hn => haddr i hi n (List.mem_range.mp hn)
        rw [pagesBefore_succ, List.range_add, List.map_append, ih (Nat.le_of_succ_le hi),
          List.range_succ, List.flatMap_append, List.flatMap_singleton, List.map_map, ← hpages]
        rfl
  rw [hframes, totalPages, hbefore kernel.memory.entries le_rfl, mapPages]

theorem identityPagingMemory_eq_runCalls (hworld : FrameWorld PML4 s)
    (hzero : ∀ a ∈ pageBytes PML4.addr, s.mem.byte a = 0)
    (hpages : (List.range s.pmem.frames).map (getFrameAddr s) = mapPages kernel.memory)
    (hok : RequestsInOrder PML4 s (identityMemoryCalls kernel)) :
    identityPagingMemory PML4 kernel s = runCalls pmemRequestFrame PML4 s (identityMemoryCalls kernel) := by
  have hcalls : (mapPages kernel.memory).map (fun a => (⟨a, a⟩ : MapCall)) =
      (List.range s.pmem.frames).map fun j => ⟨getFrameAddr s j, getFrameAddr s j⟩ := by
    rw [← hpages, List.map_map]
    rfl
  rw [identityMemoryCalls, hcalls] at hok ⊢
  rw [identityPagingMemory_eq_devices, framesMapped,
    mapFrames_eq_runCalls hworld hzero le_rfl hok.of_append, runCalls_append]
  rfl

end Calls

/-- `CR3_PWT`. -/
def cr3Pwt : Nat := 3

/-- `CR3_PCD`. -/
def cr3Pcd : Nat := 4

/-- What `set_cr3_register` loads. -/
def setCr3Register (paddr : BitVec 64) (pwt pcd : Bool) : BitVec 64 :=
  let cr3 := if pwt then setBit paddr cr3Pwt else paddr
  if pcd then setBit cr3 cr3Pcd else cr3

/-- The table from which the processor walks: bits 12 to 51. -/
def cr3Root (cr3 : BitVec 64) : Nat := cr3.toNat / 2 ^ 12 % 2 ^ 40 * 2 ^ 12

theorem setBit_div {v : BitVec 64} {pos : Nat} (hpos : pos < 12) :
    (setBit v pos).toNat / 2 ^ 12 = v.toNat / 2 ^ 12 := by
  have hbit : ((1#32 <<< pos).signExtend 64).toNat >>> 12 = 0 := by
    revert pos
    decide
  rw [← Nat.shiftRight_eq_div_pow, ← Nat.shiftRight_eq_div_pow, setBit, BitVec.toNat_or,
    Nat.shiftRight_or_distrib, hbit, Nat.or_zero]

/-- The flags are below the address. -/
theorem cr3Root_setCr3Register (paddr : Nat) (pwt pcd : Bool) (haligned : 4096 ∣ paddr)
    (hlt : paddr < 2 ^ 52) : cr3Root (setCr3Register (BitVec.ofNat 64 paddr) pwt pcd) = paddr := by
  have hdiv : (setCr3Register (BitVec.ofNat 64 paddr) pwt pcd).toNat / 2 ^ 12 =
      (BitVec.ofNat 64 paddr).toNat / 2 ^ 12 := by
    have hpwt (v : BitVec 64) : (setBit v cr3Pwt).toNat / 2 ^ 12 = v.toNat / 2 ^ 12 :=
      setBit_div (by decide)
    have hpcd (v : BitVec 64) : (setBit v cr3Pcd).toNat / 2 ^ 12 = v.toNat / 2 ^ 12 :=
      setBit_div (by decide)
    cases pwt with
    | false =>
        cases pcd with
        | false => rfl
        | true => exact hpcd _
    | true =>
        cases pcd with
        | false => exact hpwt _
        | true => exact (hpcd _).trans (hpwt _)
  rw [cr3Root, hdiv, BitVec.toNat_ofNat]
  omega

/-- The array stays where it is and nothing outside it changes. -/
structure KeepsOutside (s t : Kernel) : Prop where
  array : t.pmem.array = s.pmem.array
  frames : t.pmem.frames = s.pmem.frames
  bytes : Set.EqOn t.mem.byte s.mem.byte (s.pmem.arrayBytes)ᶜ

namespace KeepsOutside
variable {s t u : Kernel} {source target : FrameState} {i : Nat}

theorem arrayBytes_eq (h : KeepsOutside s t) : t.pmem.arrayBytes = s.pmem.arrayBytes := by
  rw [arrayBytes, arrayBytes, h.array, h.frames]

theorem trans (h : KeepsOutside s t) (h' : KeepsOutside t u) : KeepsOutside s u := by
  refine ⟨h'.array.trans h.array, h'.frames.trans h.frames, fun a ha => ?_⟩
  rw [h'.bytes (h.arrayBytes_eq ▸ ha), h.bytes ha]

theorem moveFrame (hfits : s.pmem.Fits) (hi : i < s.pmem.frames) :
    KeepsOutside s (moveFrame source target s i) := by
  refine ⟨moveFrame_array, moveFrame_frames, ?_⟩
  rcases moveFrame_cases source target hfits hi with hm | ⟨_, heq⟩
  · exact hm.eqOn_compl hfits hi
  · rw [heq]
    exact fun a _ => rfl

theorem fits (h : KeepsOutside s t) (hfits : s.pmem.Fits) : t.pmem.Fits := by
  unfold Fits at *
  rw [h.array, h.frames]
  exact hfits

theorem lockArrayFrames {start : Nat} (hfits : s.pmem.Fits)
    (hrange : start + getFramesArraySz s.pmem.toPhysicalMemory / 4096 ≤ s.pmem.frames) :
    KeepsOutside s (lockArrayFrames start s) := by
  have hle := hfits.frames_le
  unfold PhysicalMemory.lockArrayFrames
  apply fold_invariant fun _ t => KeepsOutside s t
  · exact ⟨rfl, rfl, fun a _ => rfl⟩
  · intro i hi t ht
    have hi' : i < getFramesArraySz s.pmem.toPhysicalMemory / 4096 := hi
    apply ht.trans
    apply KeepsOutside.moveFrame (ht.fits hfits)
    rw [ht.frames]
    omega

end KeepsOutside

/-- An initialization that stays in its array stores nowhere else. -/
theorem init_bytes_eq {kernel : KernelData} {buffer : Nat} {bytes : Nat → UInt8} {s' : Kernel}
    (hinit : init kernel buffer (bootState bytes) = some s')
    (htotal : totalPages kernel.memory < 2 ^ 60)
    (hfits : buffer + totalPages kernel.memory * 16 ≤ 2 ^ 64)
    (hrange : ∀ idx ∈ s'.pmem.subscripts, idx < totalPages kernel.memory) :
    Set.EqOn s'.mem.byte bytes (s'.pmem.arrayBytes)ᶜ := by
  obtain ⟨hstack, hown⟩ := (subscripts_lt_iff hinit htotal hfits).mp hrange
  obtain ⟨_, fill, rfl, rfl⟩ := init_eq_some hinit
  obtain ⟨hstart, hfilled⟩ := filled_clearedState bytes (by omega) hfits
  have hlt := (stackFrame_lt_iff hfilled (by omega)).mpr hstack
  rw [hstart]
  have hmod : totalPages kernel.memory % 2 ^ 64 = totalPages kernel.memory :=
    Nat.mod_eq_of_lt (by omega)
  set t := (fillFrames kernel.memory buffer (clearedState kernel.memory buffer bytes)).kernel
  have hframes : t.pmem.frames = totalPages kernel.memory := by
    rw [hfilled.frames, clearedState_frames, hmod]
  have hcleared : KeepsOutside (setUpArray buffer (totalPages kernel.memory % 2 ^ 64) (bootState bytes))
      (clearedState kernel.memory buffer bytes) := by
    have hclear := clearedFree_clearFrames
      (s := setUpArray buffer (totalPages kernel.memory % 2 ^ 64) (bootState bytes)) (by
        rw [hmod]
        exact hfits)
    exact ⟨congrArg PhysicalMemory.array hclear.pm, congrArg PhysicalMemory.frames hclear.pm,
      hclear.outside⟩
  have hfill : KeepsOutside (clearedState kernel.memory buffer bytes) t :=
    ⟨hfilled.array, hfilled.frames, hfilled.outside⟩
  have hreserve : KeepsOutside t (reserveFrame t (getFrameIndexByPtr t kernel.stack)) :=
    .moveFrame hfilled.accounts.fits (by omega)
  have hlock : KeepsOutside (reserveFrame t (getFrameIndexByPtr t kernel.stack))
      (lockArrayFrames (arrayStart kernel.memory buffer kernel.memory.entries)
        (reserveFrame t (getFrameIndexByPtr t kernel.stack))) := by
    apply KeepsOutside.lockArrayFrames (hreserve.fits hfilled.accounts.fits)
    rw [getFramesArraySz, hreserve.frames, hframes]
    exact hown
  have hall := ((hcleared.trans hfill).trans hreserve).trans hlock
  exact hall.arrayBytes_eq ▸ hall.bytes

/-- A map of disjoint descriptors in which no usable memory begins at address zero, and a kernel image,
in memory that is not usable, with the PML4 in it, all zero. -/
structure BootLayout (PML4 : PML4Table) (kernel : KernelData) (bytes : Nat → UInt8) : Prop where
  layout : MapLayout kernel.memory
  pages : 32 ≤ totalPages kernel.memory
  usable : ∀ i < kernel.memory.entries, ¬NotForKernel (getMemoryDescriptor kernel.memory i) →
    0 < (getMemoryDescriptor kernel.memory i).physicalAddr
  image : ∃ i < kernel.memory.entries, NotForKernel (getMemoryDescriptor kernel.memory i) ∧
    ∃ n < (getMemoryDescriptor kernel.memory i).numberOfPages,
      PML4.addr = pageAddr kernel.memory i n
  root : 0 < PML4.addr
  zero : ∀ a ∈ pageBytes PML4.addr, bytes a = 0

/-- What `init_paging` finds: the array lists the pages of the map, and neither the array nor a free
frame is the first page of memory or meets the PML4. -/
structure BootMachine (PML4 : PML4Table) (kernel : KernelData) (s : Kernel) : Prop where
  world : FrameWorld PML4 s
  zero : ∀ a ∈ pageBytes PML4.addr, s.mem.byte a = 0
  pages : (List.range s.pmem.frames).map (getFrameAddr s) = mapPages kernel.memory
  free : ∀ j < s.pmem.frames, getFrameState s j = FrameState.free.code →
    0 < getFrameAddr s j ∧ getFrameAddr s j ≠ PML4.addr
  array : 4096 ≤ s.pmem.array
  root : 4096 ≤ PML4.addr

section Boot
variable {PML4 : PML4Table} {kernel : KernelData} {bytes : Nat → UInt8} {s s' : Kernel}

/-- The array lies in a usable descriptor. -/
theorem exists_arrayDescriptor (hlayout : MapLayout kernel.memory)
    (hinit : initPhysicalMemory kernel (bootState bytes) = some s')
    (hsegment : s'.pmem.frames * 16 ≤ (getLargestFreeMemSeg kernel.memory 0).1)
    (hrange : ∀ idx ∈ s'.pmem.subscripts, idx < s'.pmem.frames)
    (hpages : 0 < totalPages kernel.memory) : ∃ k < kernel.memory.entries,
      ¬NotForKernel (getMemoryDescriptor kernel.memory k) ∧
      s'.pmem.array = (getMemoryDescriptor kernel.memory k).physicalAddr ∧
      s'.pmem.arrayBytes ⊆ descriptorBytes kernel.memory k := by
  obtain ⟨hsegment', hresult⟩ := initResult_of_layout hlayout hinit hsegment hrange
  rcases (getLargestFreeMemSeg_spec kernel.memory 0).found with hnone | ⟨k, hk, hconv, _, hfound⟩
  · rw [hnone] at hsegment'
    simp only at hsegment'
    omega
  · have hsize : segmentSz kernel.memory k ≤
        (getMemoryDescriptor kernel.memory k).numberOfPages * 4096 := Nat.mod_le _ _
    have harray : s'.pmem.array = (getMemoryDescriptor kernel.memory k).physicalAddr := by
      rw [hresult.array, hfound]
    rw [hfound] at hsegment'
    simp only at hsegment'
    refine ⟨k, hk, fun hnot => hnot.1 hconv, harray, ?_⟩
    rw [arrayBytes, harray, hresult.frames]
    exact Set.Ico_subset_Ico_right (by omega)

theorem BootLayout.bootMachine (h : BootLayout PML4 kernel bytes)
    (hinit : initPhysicalMemory kernel (bootState bytes) = some s')
    (hsegment : s'.pmem.frames * 16 ≤ (getLargestFreeMemSeg kernel.memory 0).1)
    (hrange : ∀ idx ∈ s'.pmem.subscripts, idx < s'.pmem.frames) : BootMachine PML4 kernel s' := by
  obtain ⟨hsegment', hresult⟩ := initResult_of_layout h.layout hinit hsegment hrange
  obtain ⟨k, hk, husable, harray, hsubset⟩ := exists_arrayDescriptor h.layout hinit hsegment hrange
    (lt_of_lt_of_le (by decide) h.pages)
  obtain ⟨i, hi, himage, n, hn, hroot⟩ := h.image
  -- the kernel image is another descriptor
  have hdisjoint : Disjoint (pageBytes PML4.addr) s'.pmem.arrayBytes := by
    rw [Set.disjoint_left]
    intro a ha ha'
    rw [hroot] at ha
    obtain rfl := h.layout.toPageLayout.descriptor_unique hi hk hn ha (hsubset ha')
    exact husable himage
  have hpage : ∀ l < kernel.memory.entries, ¬NotForKernel (getMemoryDescriptor kernel.memory l) →
      4096 ≤ (getMemoryDescriptor kernel.memory l).physicalAddr := by
    intro l hl hnot
    exact Nat.le_of_dvd (h.usable l hl hnot) (h.layout.aligned l hl)
  refine ⟨.of_init h.layout h.pages hinit hsegment hrange hdisjoint, ?_,
    map_getFrameAddr_eq hresult.frames fun l hl m hm => hresult.addr_eq h.layout hl hm, ?_,
    harray ▸ hpage k hk husable, Nat.le_of_dvd h.root PML4.aligned⟩
  · intro a ha
    have hsize := (getLargestFreeMemSeg_bounds kernel.memory).2.1
    have hfits := hresult.accounts.fits
    rw [Fits, hresult.array, hresult.frames] at hfits
    rw [init_bytes_eq hinit (by omega) hfits (hresult.frames ▸ hrange)
      (Set.disjoint_left.mp hdisjoint ha)]
    exact h.zero a ha
  · intro j hj hfree
    obtain ⟨l, hl, m, hm, rfl, haddr⟩ := hresult.exists_page h.layout hj
    have hfree' := hresult.usable l hl m hm hfree
    rw [haddr]
    refine ⟨?_, ?_⟩
    · have hpos := h.usable l hl hfree'
      unfold pageAddr
      omega
    · rw [hroot]
      intro heq
      obtain ⟨rfl, _⟩ := h.layout.pageAddr_inj hl hi hm hn heq
      exact hfree' himage

theorem identityCalls_paddr {c : MapCall} {addr rounds : Nat} (hc : c ∈ identityCalls addr rounds) :
    c.paddr = c.vaddr := by
  obtain ⟨i, _, rfl⟩ := List.mem_map.mp hc
  rfl

theorem identityMemoryCalls_paddr {c : MapCall} (hc : c ∈ identityMemoryCalls kernel) :
    c.paddr = c.vaddr := by
  simp only [identityMemoryCalls, List.mem_append] at hc
  rcases hc with hc | hc | hc | hc
  · obtain ⟨a, _, rfl⟩ := List.mem_map.mp hc
    rfl
  · exact identityCalls_paddr hc
  · exact identityCalls_paddr hc
  · exact identityCalls_paddr hc

theorem mem_mapPages {a : Nat} : a ∈ mapPages kernel.memory ↔ ∃ i < kernel.memory.entries,
    ∃ n < (getMemoryDescriptor kernel.memory i).numberOfPages, pageAddr kernel.memory i n = a := by
  simp only [mapPages, List.mem_flatMap, List.mem_map, List.mem_range]

/-- The last call about a page other than the test page maps it to itself. -/
theorem lastWrite_initPagingCalls {c : MapCall} {v : Nat} (hc : c ∈ identityMemoryCalls kernel)
    (hpage : SamePage c.vaddr v) (htest : ¬SamePage testAddr v) :
    RadixTree.lastWrite (pageWrites (initPagingCalls kernel)) (pathOf v) =
      some (BitVec.ofNat 32 (v / 4096)) := by
  cases hx : RadixTree.lastWrite (pageWrites (initPagingCalls kernel)) (pathOf v) with
  | none =>
      exact absurd hpage (lastWrite_pageWrites_eq_none_iff.mp hx c (List.mem_append_left _ hc))
  | some x =>
      obtain ⟨c', hc', hwrite⟩ := List.mem_map.mp (RadixTree.mem_of_lastWrite hx)
      obtain ⟨hpath, rfl⟩ := Prod.mk.inj hwrite
      have hpage' : SamePage c'.vaddr v := (pathOf_eq_iff _ _).mp hpath
      rcases List.mem_append.mp hc' with hmem | hmem
      · rw [identityMemoryCalls_paddr hmem, Nat.shiftRight_eq_div_pow]
        unfold SamePage at hpage'
        congr 1
        apply BitVec.eq_of_toNat_eq
        rw [BitVec.toNat_ofNat, BitVec.toNat_ofNat]
        omega
      · rw [List.mem_singleton.mp hmem] at hpage'
        exact absurd hpage' htest

/-- The machine `m` that `init_paging` leaves, from the machine `s`: the pages of the calls are mapped to
themselves, the test page to the first of physical memory and no other page at all, and the tables are
in the first free frames, which are locked. -/
structure PagedMachine (PML4 : PML4Table) (kernel : KernelData) (s m : Kernel) : Prop where
  identity : ∀ c ∈ identityMemoryCalls kernel, ∀ v, SamePage c.vaddr v → v < 2 ^ 44 →
    ¬SamePage testAddr v → translate m.mem PML4 v = some v
  test : ∀ v, SamePage testAddr v → translate m.mem PML4 v = some (v % 4096)
  unmapped : ∀ v, (∀ c ∈ initPagingCalls kernel, ¬SamePage c.vaddr v) → translate m.mem PML4 v = none
  states : ∀ j < s.pmem.frames, getFrameState m j =
    if j ∈ (freeList s).take (tablesNeeded (initPagingCalls kernel)) then FrameState.locked.code
    else getFrameState s j
  tables : ∀ q T, q.length < 4 → (∀ i ∈ q, i < 512) →
    walkTo PagingEntry.kernelTable m.mem PML4.addr q = some T → T = PML4.addr ∨
      ∃ j ∈ (freeList s).take (tablesNeeded (initPagingCalls kernel)), getFrameAddr s j = T

/-- Storing to the first page of memory changes no table and no frame's state. -/
theorem BootMachine.store_first_page (h : BootMachine PML4 kernel s) {m : Kernel} {t : PageTree}
    (hrep : Represents PML4 m.mem t) (htf : TableFrames PML4 s [] (tables PML4 t) m) {a : Nat}
    (ha : a < 4096) (v : UInt8) :
    Represents PML4 (m.mem.store a v) t ∧
      (∀ vaddr, translate (m.mem.store a v) PML4 vaddr = translate m.mem PML4 vaddr) ∧
      ∀ j < s.pmem.frames, getFrameState { m with mem := m.mem.store a v } j = getFrameState m j := by
  have hsame (S : Set Nat) (hS : ∀ b ∈ S, 4096 ≤ b) : Set.EqOn (m.mem.store a v).byte m.mem.byte S := by
    intro b hb
    have hle := hS b hb
    exact Memory.store_byte_of_ne _ _ _ _ (by omega)
  have hrep' : Represents PML4 (m.mem.store a v) t := by
    refine hrep.congr fun T hT => hsame _ fun b hb => ?_
    have hpage : 4096 ≤ T := by
      rcases htf.locked T hT with hroot | ⟨j, hj, hjT, _, hfree⟩
      · exact hroot ▸ h.root
      · rw [← hjT]
        exact Nat.le_of_dvd (h.free j hj hfree).1 (h.world.aligned j hj)
    exact hpage.trans hb.1
  refine ⟨hrep', ?_, ?_⟩
  · intro vaddr
    rw [hrep'.translate_eq, hrep.translate_eq]
  · intro j hj
    have hj' : j < m.pmem.frames := htf.frames_eq ▸ hj
    refine getFrameState_of_eqOn htf.holding.accounts.fits hj' rfl (hsame _ fun b hb => ?_)
    rw [htf.arrayBytes_eq] at hb
    exact h.array.trans hb.1

/-- With a free frame for every table, the first ones below `2^32`, `init_paging` succeeds. -/
theorem BootMachine.initPaging (h : BootMachine PML4 kernel s)
    (hle : tablesNeeded (initPagingCalls kernel) ≤ s.pmem.freeFrames)
    (hlow : ∀ j ∈ (freeList s).take (tablesNeeded (initPagingCalls kernel)), getFrameAddr s j < 2 ^ 32) :
    ∃ m, MyOSKernel.initPaging PML4 kernel s = some m ∧ PagedMachine PML4 kernel s m := by
  have hok : RequestsInOrder PML4 s (initPagingCalls kernel) := by
    refine requestsInOrder_of_first h.world h.zero hle fun j hj => ⟨hlow j hj, ?_⟩
    obtain ⟨hlt, hfree⟩ := mem_freeList.mp (List.mem_of_mem_take hj)
    exact (h.free j hlt hfree).2
  have hrun : testMapped PML4 (identityPagingMemory PML4 kernel s) =
      runCalls pmemRequestFrame PML4 s (initPagingCalls kernel) := by
    rw [initPagingCalls] at hok ⊢
    rw [runCalls_append_singleton, identityPagingMemory_eq_runCalls h.world h.zero h.pages hok.of_append]
    rfl
  obtain ⟨htranslate, hstates⟩ := runCalls_first h.world h.zero hok
  obtain ⟨t, htree, htf, _⟩ := runTree_ordered h.world h.zero hok
  have htest (v : Nat) (hv : SamePage testAddr v) :
      translate (runCalls pmemRequestFrame PML4 s (initPagingCalls kernel)).mem PML4 v =
        some (v % 4096) := by
    rw [htranslate, initPagingCalls, lastWrite_pageWrites_of_last (c := ⟨testAddr, 0⟩) hv
      fun c' hc' => absurd hc' List.not_mem_nil]
    exact congrArg some (Nat.zero_add _)
  have hself : selfTest PML4 (identityPagingMemory PML4 kernel s) = _ :=
    selfTest_eq (by rw [hrun]; exact htest testAddr rfl)
  rw [hrun] at hself
  generalize runCalls pmemRequestFrame PML4 s (initPagingCalls kernel) = m at *
  obtain ⟨hrep, hwalk, hstate⟩ := h.store_first_page htree.represents htf (a := 0x999) (by decide) 123
  refine ⟨_, hself, ?_, ?_, ?_, ?_, ?_⟩
  · intro c hc v hpage hv hnot
    have hlast := lastWrite_initPagingCalls hc hpage hnot
    have hsame : translate m.mem PML4 v = some v := by
      rw [htranslate, hlast, Option.map_some, BitVec.toNat_ofNat]
      exact congrArg some (by omega)
    exact (hwalk v).trans hsame
  · exact fun v hv => (hwalk v).trans (htest v hv)
  · intro v hnone
    refine (hwalk v).trans ?_
    rw [htranslate, lastWrite_pageWrites_eq_none_iff.mpr hnone]
    rfl
  · exact fun j hj => (hstate j hj).trans (hstates j hj)
  · intro q T hq hindex hT
    rw [hrep.walkTo_root decodes_kernelTable hq hindex] at hT
    rcases htf.locked T (mem_tables hq hT) with hroot | ⟨j, hj, hjT, hlocked, hfree⟩
    · exact Or.inl hroot
    · refine Or.inr ⟨j, ?_, hjT⟩
      by_contra hnot
      rw [hstates j hj, if_neg hnot, hfree] at hlocked
      exact absurd hlocked (by decide)

/-- So every byte of the map is mapped to itself. -/
theorem PagedMachine.descriptor {m : Kernel} (h : PagedMachine PML4 kernel s m)
    (hlayout : MapLayout kernel.memory) {i a : Nat} (hi : i < kernel.memory.entries)
    (ha : a ∈ descriptorBytes kernel.memory i) (hsmall : a < 2 ^ 44) (htest : ¬SamePage testAddr a) :
    translate m.mem PML4 a = some a := by
  obtain ⟨hbase, hend⟩ := Set.mem_Ico.mp ha
  -- the page of the byte is one of the map's
  have haligned := hlayout.aligned i hi
  set n := (a - (getMemoryDescriptor kernel.memory i).physicalAddr) / 4096 with hn
  have hmem : pageAddr kernel.memory i n ∈ mapPages kernel.memory :=
    mem_mapPages.mpr ⟨i, hi, n, by omega, rfl⟩
  refine h.identity ⟨pageAddr kernel.memory i n, pageAddr kernel.memory i n⟩
    (List.mem_append_left _ (List.mem_map_of_mem hmem)) a ?_ hsmall htest
  unfold SamePage pageAddr
  dsimp only
  omega

/-- **The machine boots into its page tables.** On a well laid out map whose array stays in range and
whose first free frames, one for every table, are below `2^32`, `init_physical_memory` and then
`init_paging` succeed: from the table CR3 names every byte of the map below `2^44` is mapped to itself,
the test page apart, so are the pages of the devices that `_identity_paging` counts, nothing else is
mapped, and only frames taken for tables change state. -/
theorem boot_memory_mapped (PML4 : PML4Table) (kernel : KernelData) (bytes : Nat → UInt8) (s : Kernel)
    (hboot : BootLayout PML4 kernel bytes)
    (hinit : initPhysicalMemory kernel (bootState bytes) = some s)
    (hsegment : s.pmem.frames * 16 ≤ (getLargestFreeMemSeg kernel.memory 0).1)
    (hrange : ∀ idx ∈ s.pmem.subscripts, idx < s.pmem.frames)
    (hle : tablesNeeded (initPagingCalls kernel) ≤ s.pmem.freeFrames)
    (hlow : ∀ j ∈ (freeList s).take (tablesNeeded (initPagingCalls kernel)), getFrameAddr s j < 2 ^ 32) :
    cr3Root (setCr3Register (BitVec.ofNat 64 PML4.addr) false false) = PML4.addr ∧
      ∃ m, initPaging PML4 kernel s = some m ∧ PagedMachine PML4 kernel s m ∧
      ∀ i < kernel.memory.entries, ∀ a ∈ descriptorBytes kernel.memory i, a < 2 ^ 44 →
        ¬SamePage testAddr a → translate m.mem PML4 a = some a := by
  obtain ⟨m, hm, hpaged⟩ := (hboot.bootMachine hinit hsegment hrange).initPaging hle hlow
  obtain ⟨i, hi, _, n, hn, himage⟩ := hboot.image
  have hbelow := hboot.layout.pageAddr_lt hi hn
  exact ⟨cr3Root_setCr3Register PML4.addr false false PML4.aligned (by omega), m, hm, hpaged,
    fun i hi a ha => hpaged.descriptor hboot.layout hi ha⟩

/-- What the kernel goes on using through the tables in `m` is where it was in `s`. -/
structure Reachable (PML4 : PML4Table) (kernel : KernelData) (s m : Kernel) : Prop where
  array : ∀ a ∈ s.pmem.arrayBytes, translate m.mem PML4 a = some a
  frames : ∀ j < s.pmem.frames, ∀ a ∈ pageBytes (getFrameAddr s j), translate m.mem PML4 a = some a
  tables : ∀ q T, q.length < 4 → (∀ i ∈ q, i < 512) →
    walkTo PagingEntry.kernelTable m.mem PML4.addr q = some T →
    ∀ a ∈ pageBytes T, translate m.mem PML4 a = some a
  framebuffer : ∀ a, kernel.framebuffer.baseAddress ≤ a →
    a < kernel.framebuffer.baseAddress + kernel.framebuffer.bufferSize → translate m.mem PML4 a = some a
  apic : ∀ a ∈ pageBytes apicBaseAddr, translate m.mem PML4 a = some a
  hpet : ∀ ptr, HpetRegister kernel ptr → ∀ k < 8, translate m.mem PML4 (ptr + k) = some (ptr + k)

/-- Devices below `2^43`: a framebuffer all of whose pages are counted, and registers of the HPET that
are on one page. -/
structure DeviceLayout (kernel : KernelData) : Prop where
  aligned : 4096 ∣ kernel.framebuffer.baseAddress
  framebuffer : kernel.framebuffer.baseAddress + kernel.framebuffer.bufferSize < 2 ^ 43
  counted : kernel.framebuffer.bufferSize / 4097 + kernel.framebuffer.bufferSize % 4097 ≤ 4096
  hpet : kernel.hpetAddress + 4096 < 2 ^ 43
  registers : kernel.hpetAddress % 4096 + 272 + 32 * (kernel.hpetCapReg / 2 ^ 8 % 2 ^ 5) ≤ 4096

/-- The pages of a device are mapped. -/
theorem PagedMachine.device {m : Kernel} (h : PagedMachine PML4 kernel s m) {addr rounds a : Nat}
    (hcalls : ∀ c ∈ identityCalls addr rounds, c ∈ identityMemoryCalls kernel) (haligned : 4096 ∣ addr)
    (hlow : addr ≤ a) (hhigh : a < addr + 4096 * rounds) (hsmall : a < 2 ^ 43) :
    translate m.mem PML4 a = some a := by
  have hfrom : pageFrom addr ((a - addr) / 4096) = addr + 4096 * ((a - addr) / 4096) :=
    pageFrom_eq (by omega)
  refine h.identity ⟨pageFrom addr ((a - addr) / 4096), pageFrom addr ((a - addr) / 4096)⟩
    (hcalls _ (List.mem_map.mpr ⟨(a - addr) / 4096, List.mem_range.mpr (by omega), rfl⟩)) a ?_ (by omega) ?_
  · unfold SamePage
    dsimp only
    rw [hfrom]
    omega
  · unfold SamePage testAddr
    omega

/-- **The kernel finds its things again after it has enabled paging.** Under the conditions of the
boot, with the map below `2^43`, all pages of the framebuffer counted and the registers of the HPET on
one page, the array of the frames, every frame, every table of the walk, the framebuffer and the
registers of the APIC and the HPET are translated to themselves. -/
theorem boot_memory_reachable (PML4 : PML4Table) (kernel : KernelData) (bytes : Nat → UInt8) (s : Kernel)
    (hboot : BootLayout PML4 kernel bytes) (hdevices : DeviceLayout kernel)
    (hmap : ∀ i < kernel.memory.entries, (getMemoryDescriptor kernel.memory i).physicalAddr +
      (getMemoryDescriptor kernel.memory i).numberOfPages * 4096 ≤ 2 ^ 43)
    (hinit : initPhysicalMemory kernel (bootState bytes) = some s)
    (hsegment : s.pmem.frames * 16 ≤ (getLargestFreeMemSeg kernel.memory 0).1)
    (hrange : ∀ idx ∈ s.pmem.subscripts, idx < s.pmem.frames)
    (hle : tablesNeeded (initPagingCalls kernel) ≤ s.pmem.freeFrames)
    (hlow : ∀ j ∈ (freeList s).take (tablesNeeded (initPagingCalls kernel)), getFrameAddr s j < 2 ^ 32) :
    ∃ m, initPaging PML4 kernel s = some m ∧ Reachable PML4 kernel s m := by
  obtain ⟨m, hm, hpaged⟩ := (hboot.bootMachine hinit hsegment hrange).initPaging hle hlow
  obtain ⟨_, hresult⟩ := initResult_of_layout hboot.layout hinit hsegment hrange
  have hdescriptor : ∀ i < kernel.memory.entries, ∀ a ∈ descriptorBytes kernel.memory i,
      translate m.mem PML4 a = some a := by
    intro i hi a ha
    have hbelow := hmap i hi
    obtain ⟨_, hend⟩ := Set.mem_Ico.mp ha
    refine hpaged.descriptor hboot.layout hi ha (by omega) ?_
    unfold SamePage testAddr
    omega
  have hframes : ∀ j < s.pmem.frames, ∀ a ∈ pageBytes (getFrameAddr s j),
      translate m.mem PML4 a = some a := by
    intro j hj a ha
    obtain ⟨i, hi, n, hn, _, haddr⟩ := hresult.exists_page hboot.layout hj
    rw [haddr] at ha
    exact hdescriptor i hi a (PageLayout.page_subset hn ha)
  refine ⟨m, hm, ?_, hframes, ?_, ?_, ?_, ?_⟩
  · obtain ⟨k, hk, _, _, hsubset⟩ := exists_arrayDescriptor hboot.layout hinit hsegment hrange
      (lt_of_lt_of_le (by decide) hboot.pages)
    exact fun a ha => hdescriptor k hk a (hsubset ha)
  · intro q T hq hindex hT a ha
    rcases hpaged.tables q T hq hindex hT with hroot | ⟨j, hj, hjT⟩
    · obtain ⟨i, hi, _, n, hn, himage⟩ := hboot.image
      rw [hroot, himage] at ha
      exact hdescriptor i hi a (PageLayout.page_subset hn ha)
    · rw [← hjT] at ha
      exact hframes j (mem_freeList.mp (List.mem_of_mem_take hj)).1 a ha
  · intro a hfrom hto
    have hcover := (identityPagingRounds_cover_iff _).mpr hdevices.counted
    have hbelow := hdevices.framebuffer
    have hpages : a < kernel.framebuffer.baseAddress +
        4096 * identityPagingRounds kernel.framebuffer.bufferSize := by omega
    refine hpaged.device (fun c hc => ?_) hdevices.aligned hfrom hpages (by omega)
    simp only [identityMemoryCalls, List.mem_append]
    exact Or.inr (Or.inl hc)
  · intro a ha
    obtain ⟨hfrom, hto⟩ := Set.mem_Ico.mp ha
    have hrounds : a < apicBaseAddr + 4096 * identityPagingRounds 4096 := hto
    have hsmall : apicBaseAddr + 4096 < 2 ^ 43 := by decide
    refine hpaged.device (fun c hc => ?_) (by decide) hfrom hrounds (hto.trans hsmall)
    simp only [identityMemoryCalls, List.mem_append]
    exact Or.inr (Or.inr (Or.inl hc))
  · intro ptr hptr k hk
    have hbelow := hdevices.hpet
    have hsame := (registers_samePage_iff (by omega)).mpr hdevices.registers ptr hptr k hk
    obtain ⟨hfrom, hto⟩ := hptr.bounds (by omega)
    have hcall : (⟨kernel.hpetAddress, kernel.hpetAddress⟩ : MapCall) ∈ identityMemoryCalls kernel := by
      simp only [identityMemoryCalls, List.mem_append]
      refine Or.inr (Or.inr (Or.inr (List.mem_map.mpr ⟨0, ?_, rfl⟩)))
      rw [identityPagingRounds_hpetGetMmioSz]
      decide
    have hregisters := hdevices.registers
    refine hpaged.identity _ hcall (ptr + k) hsame (by omega) ?_
    unfold SamePage testAddr
    omega

end Boot

/-- A kernel whose image is the page at `0x40000`, on 32 pages of conventional memory. -/
def imageKernel : KernelData where
  stack := 0x4800
  framebuffer := { baseAddress := 0x80000000, bufferSize := 4096 }
  memory := descriptorMap [⟨7, 0x1000, 32⟩, ⟨2, 0x40000, 1⟩]
  hpetAddress := 0xfed00000
  hpetCapReg := 0

/-- The PML4 in the image. -/
def imagePML4 : PML4Table := ⟨0x40000, by decide, by decide⟩

/-- The machine after its initialization. -/
def imageMachine : Kernel :=
  (initPhysicalMemory imageKernel (bootState fun _ => 0)).get (by decide +kernel)

theorem initPhysicalMemory_image :
    initPhysicalMemory imageKernel (bootState fun _ => 0) = some imageMachine :=
  (Option.some_get (x := initPhysicalMemory imageKernel (bootState fun _ => 0)) _).symm

theorem bootLayout_image : BootLayout imagePML4 imageKernel fun _ => 0 where
  layout := ⟨by decide +kernel, by decide +kernel, by decide +kernel, by decide +kernel⟩
  pages := by decide +kernel
  usable := by decide +kernel
  image := ⟨1, by decide, by decide +kernel, 0, by decide +kernel, by decide +kernel⟩
  root := by decide
  zero := fun _ _ => rfl

theorem segment_image :
    imageMachine.pmem.frames * 16 ≤ (getLargestFreeMemSeg imageKernel.memory 0).1 := by decide +kernel

theorem subscripts_image : ∀ idx ∈ imageMachine.pmem.subscripts, idx < imageMachine.pmem.frames := by
  decide +kernel

theorem enough_image : tablesNeeded (initPagingCalls imageKernel) ≤ imageMachine.pmem.freeFrames := by
  decide +kernel

theorem low_image : ∀ j ∈ (freeList imageMachine).take (tablesNeeded (initPagingCalls imageKernel)),
    getFrameAddr imageMachine j < 2 ^ 32 := by
  decide +kernel

theorem deviceLayout_image : DeviceLayout imageKernel :=
  ⟨by decide, by decide, by decide, by decide, by decide⟩

theorem boot_memory_mapped_image : ∃ m, initPaging imagePML4 imageKernel imageMachine = some m ∧
    PagedMachine imagePML4 imageKernel imageMachine m ∧
      ∀ i < imageKernel.memory.entries, ∀ a ∈ descriptorBytes imageKernel.memory i, a < 2 ^ 44 →
        ¬SamePage testAddr a → translate m.mem imagePML4 a = some a :=
  (boot_memory_mapped imagePML4 imageKernel (fun _ => 0) imageMachine bootLayout_image
    initPhysicalMemory_image segment_image subscripts_image enough_image low_image).2

theorem boot_memory_reachable_image : ∃ m, initPaging imagePML4 imageKernel imageMachine = some m ∧
    Reachable imagePML4 imageKernel imageMachine m :=
  boot_memory_reachable imagePML4 imageKernel (fun _ => 0) imageMachine bootLayout_image
    deviceLayout_image (by decide +kernel) initPhysicalMemory_image segment_image subscripts_image
    enough_image low_image

end MyOSKernel
