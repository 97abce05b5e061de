import MyOSKernel.IdentityPaging
import MyOSKernel.PagingEnough

/-! `init_paging` and the self-test at its end, which maps a page, stores a byte through it and reads
it back. The page mapped is the one at physical address 0, whoever it belongs to. -/

namespace MyOSKernel

open PhysicalMemory

abbrev testAddr : Nat := 0x99999999999

/-- `*vaddr = v`; there is nothing after a page fault. -/
def storeVirtual (PML4 : PML4Table) (m : Kernel) (vaddr : Nat) (v : UInt8) : Option Kernel :=
  (translate m.mem PML4 vaddr).map fun paddr => { m with mem := m.mem.store paddr v }

/-- `*vaddr`. -/
def loadVirtual (PML4 : PML4Table) (m : Kernel) (vaddr : Nat) : Option UInt8 :=
  (translate m.mem PML4 vaddr).map m.mem.byte

/-- The mapping of the self-test. -/
def testMapped (PML4 : PML4Table) (m : Kernel) : Kernel :=
  mapVaddrToPaddr pmemRequestFrame PML4 m testAddr 0

/-- The self-test; `none` when it faults or ends in `kpanic`. -/
def selfTest (PML4 : PML4Table) (m : Kernel) : Option Kernel := do
  let m ← storeVirtual PML4 (testMapped PML4 m) testAddr 123
  let v ← loadVirtual PML4 m testAddr
  if v = 123 then some m else none

/-- `init_paging`. The tables and the array are accessed at their physical addresses, before the page
tables are loaded and after, where they are mapped to themselves. -/
def initPaging (PML4 : PML4Table) (kernel : KernelData) (s : Kernel) : Option Kernel :=
  selfTest PML4 (identityPagingMemory PML4 kernel s)

section SelfTest
variable {PML4 : PML4Table} {mem : Memory} {T T' i : Nat} {q : List Nat}

/-- The byte the self-test stores to is in the entry number 307 of whatever table is there. -/
theorem notMem_entry_testByte (haligned : 4096 ∣ T) (hspace : T + 4096 ≤ 2 ^ 64) (hi : i < 512)
    (hne : i ≠ 307) : 0x999 ∉ Set.Ico (entryPtr T i) (entryPtr T i + 8) := by
  rw [entryPtr_eq hspace hi]
  intro hc
  obtain ⟨h, h'⟩ := hc
  omega

theorem ne_of_mem_path (hi : i ∈ pathOf testAddr) : i ≠ 307 := by
  rintro rfl
  exact absurd hi (by decide)

/-- Wherever the processor goes it finds whole pages. -/
theorem walkTo_page (h : 4096 ∣ T ∧ T + 4096 ≤ 2 ^ 64)
    (hT' : walkTo PagingEntry.hardwareTable mem T q = some T') : 4096 ∣ T' ∧ T' + 4096 ≤ 2 ^ 64 := by
  induction q generalizing T with
  | nil => exact Option.some.inj hT' ▸ h
  | cons i q ih =>
      obtain ⟨T₁, hnext, hrest⟩ := Option.bind_eq_some_iff.mp hT'
      refine ih ?_ hrest
      unfold PagingEntry.hardwareTable at hnext
      split_ifs at hnext
      rw [← Option.some.inj hnext, PagingEntry.physAddr]
      omega

/-- So the walk of the test address does not see the store. -/
theorem translate_store_testByte (v : UInt8) :
    translate (mem.store 0x999 v) PML4 testAddr = translate mem PML4 testAddr := by
  rw [translate_eq_pageBehind, translate_eq_pageBehind, pageBehind_congr fun q i T hq hT => ?_]
  have hi : i ∈ pathOf testAddr := hq.subset (by simp)
  obtain ⟨haligned, hspace⟩ := walkTo_page ⟨PML4.aligned, PML4.inSpace⟩ hT
  refine loadEntry_congr fun a ha => Memory.store_byte_of_ne _ _ _ _ ?_
  rintro rfl
  exact notMem_entry_testByte haligned hspace (pathOf_lt testAddr i hi) (ne_of_mem_path hi) ha

/-- A table there with 123 in that byte has flags that the kernel never sets. -/
theorem flags_ne_zero_of_testByte (h : mem.byte 0x999 = 123) :
    (loadEntry mem (entryPtr 0 307)).flags ≠ 0 := by
  have hbyte : (mem.byte (0x998 + 1)).toNat = mem.loadLE 0x998 8 / 256 ^ 1 % 256 :=
    Memory.byte_toNat_eq_loadLE_div (by decide)
  rw [show 0x998 + 1 = 0x999 from rfl, h] at hbyte
  intro hflags
  have hzero : (BitVec.ofNat 10 (mem.loadLE 0x998 8 / 2 ^ 2)).toNat = (0 : BitVec 10).toNat :=
    congrArg BitVec.toNat hflags
  rw [BitVec.toNat_ofNat] at hzero
  have hcode : (123 : UInt8).toNat = 123 := rfl
  have hnone : (0 : BitVec 10).toNat = 0 := rfl
  omega

/-- When the test page is mapped the self-test succeeds, and it has stored to one byte. -/
theorem selfTest_eq {m : Kernel} (h : translate (testMapped PML4 m).mem PML4 testAddr = some 0x999) :
    selfTest PML4 m =
      some { testMapped PML4 m with mem := (testMapped PML4 m).mem.store 0x999 123 } := by
  unfold selfTest storeVirtual loadVirtual
  rw [h]
  simp only [Option.map_some, Option.bind_eq_bind, Option.bind_some, translate_store_testByte, h,
    Memory.store_byte_self, if_true]

end SelfTest

/-- The byte is the state of a frame taken between two machines. -/
def TakenState (m m' : Kernel) (a : Nat) : Prop :=
  ∃ j < m.pmem.frames, a = m.pmem.statePtr j ∧ getFrameState m j = FrameState.free.code ∧
    getFrameState m' j = FrameState.locked.code

/-- What a harmless self-test leaves as it was, `m` being the machine before it: the bytes of frames in
use, but for the entries on the path of the test address and the records of the frames taken, and every
entry of every table, of those on the path the flags. -/
structure Harmless (PML4 : PML4Table) (m m' : Kernel) : Prop where
  bytes : ∀ j < m.pmem.frames, getFrameState m j ≠ FrameState.free.code →
    ∀ a ∈ pageBytes (getFrameAddr m j),
    (∀ ptr, PathEntry PML4 m.mem testAddr ptr → a ∉ Set.Ico ptr (ptr + 8)) →
    ¬TakenState m m' a → m'.mem.byte a = m.mem.byte a
  entries : ∀ q i T, q.length < 4 → (∀ k ∈ q, k < 512) → i < 512 →
    walkTo PagingEntry.kernelTable m.mem PML4.addr q = some T →
    (loadEntry m'.mem (entryPtr T i)).flags = (loadEntry m.mem (entryPtr T i)).flags ∧
      (loadEntry m'.mem (entryPtr T i)).upper = (loadEntry m.mem (entryPtr T i)).upper ∧
      (¬q ++ [i] <+: pathOf testAddr →
        loadEntry m'.mem (entryPtr T i) = loadEntry m.mem (entryPtr T i))

/-- The byte `0x999` of physical memory is not in the PML4, nor in a frame in use unless it is 123
already. -/
def TestByteUnused (PML4 : PML4Table) (m : Kernel) : Prop :=
  PML4.addr ≠ 0 ∧ ∀ j < m.pmem.frames, getFrameAddr m j = 0 →
    getFrameState m j ≠ FrameState.free.code → m.mem.byte 0x999 = 123

section SelfTest
variable {PML4 : PML4Table} {m m' : Kernel} {t : PageTree} {q q' : List Nat} {J : List Nat}
  {i k T T' vaddr paddr a : Nat}

/-- A byte of a frame in use is in an entry on the path or the state of a frame taken, or it is as it
was. -/
theorem Succeeds.byte_eq (hm : PageTableState PML4 m t)
    (h : Succeeds PML4 m t vaddr paddr m' q i T J) {j : Nat} (hj : j < m.pmem.frames)
    (hstate : getFrameState m j ≠ FrameState.free.code) (ha : a ∈ pageBytes (getFrameAddr m j))
    (hpath : ∀ ptr, PathEntry PML4 m.mem vaddr ptr → a ∉ Set.Ico ptr (ptr + 8))
    (htaken : ¬TakenState m m' a) : m'.mem.byte a = m.mem.byte a := by
  have htable : walkTo PagingEntry.kernelTable m.mem PML4.addr q = some T := by
    rw [hm.represents.walkTo_root decodes_kernelTable h.length_lt h.path_lt.1, h.table]
  have hslot : a ∉ slotBytes T i := hpath _ ⟨q, i, T, h.path, htable, rfl⟩
  by_cases hrecord : ∃ k < m.pmem.frames, a = m.pmem.statePtr k
  · obtain ⟨k, hk, rfl⟩ := hrecord
    have hnow : m'.mem.byte (m.pmem.statePtr k) = getFrameState m' k := by
      rw [getFrameState, h.reached.same.statePtr_eq]
    rw [hnow, h.reached.states k hk, if_neg]
    · rfl
    · intro hJ
      exact htaken ⟨k, hk, rfl, (h.reached.granted k hJ).2, by rw [h.reached.states k hk, if_pos hJ]⟩
  · refine h.reached.bytes a hslot (fun k hk hc => hrecord ⟨k, hk, hc⟩) ?_
    rintro _ ⟨k, hk, hfree, rfl⟩
    have hne : getFrameAddr m j ≠ getFrameAddr m k := by
      intro hc
      obtain rfl := hm.distinct j hj k hk hc
      exact hstate hfree
    exact Set.disjoint_left.mp (pageBytes_disjoint (hm.aligned j hj) (hm.aligned k hk) hne) ha

/-- Every entry keeps its other bits, and off the path it is as it was. -/
theorem Succeeds.entry_eq (hm : PageTableState PML4 m t)
    (h : Succeeds PML4 m t vaddr paddr m' q i T J) (hq : q'.length < 4) (hk : k < 512)
    (hT' : tableAt PML4 t q' = some T') :
    (loadEntry m'.mem (entryPtr T' k)).flags = (loadEntry m.mem (entryPtr T' k)).flags ∧
      (loadEntry m'.mem (entryPtr T' k)).upper = (loadEntry m.mem (entryPtr T' k)).upper ∧
      (¬q' ++ [k] <+: pathOf vaddr →
        loadEntry m'.mem (entryPtr T' k) = loadEntry m.mem (entryPtr T' k)) := by
  by_cases heq : q' ++ [k] = q ++ [i]
  · -- the slot that has been filled
    obtain ⟨rfl, hki⟩ := List.append_inj' heq rfl
    obtain rfl := List.singleton_inj.mp hki
    obtain rfl := Option.some.inj (hT'.symm.trans h.table)
    obtain ⟨x, hx⟩ := h.link
    rw [hx, hm.represents.entry _ _ hq hT' _ hk, flags_entryOf, upper_entryOf]
    exact ⟨rfl, rfl, fun hc => absurd h.path hc⟩
  · have hsame := h.reached.loadEntry_eq hm h.length_lt h.table h.path_lt.2 hq hT' hk heq
    rw [hsame]
    exact ⟨rfl, rfl, fun _ => rfl⟩

/-- A path leads through no entry with the test byte. -/
theorem PageTableState.notMem_pathEntry (hm : PageTableState PML4 m t) {ptr : Nat}
    (h : PathEntry PML4 m.mem testAddr ptr) : 0x999 ∉ Set.Ico ptr (ptr + 8) := by
  obtain ⟨q, i, T, hpath, hT, rfl⟩ := h
  have hlen := hpath.length_le
  rw [List.length_append, List.length_singleton, show (pathOf testAddr).length = 4 from rfl] at hlen
  have hi : i ∈ pathOf testAddr := hpath.subset (by simp)
  rw [hm.represents.walkTo_root decodes_kernelTable (by omega)
    fun k hk => pathOf_lt testAddr k (hpath.subset (List.mem_append_left _ hk))] at hT
  obtain ⟨haligned, hspace⟩ := hm.represents.table_bounds (mem_tables (by omega) hT)
  exact notMem_entry_testByte haligned hspace (pathOf_lt testAddr i hi) (ne_of_mem_path hi)

/-- The machine the self-test leaves. -/
def testStored (m' : Kernel) : Kernel := { m' with mem := m'.mem.store 0x999 123 }

/-- A harmless self-test has not stored to what is in use. -/
theorem testByteUnused_of_harmless (hm : PageTableState PML4 m t)
    (h : Succeeds PML4 m t testAddr 0 m' q i T J) (hharmless : Harmless PML4 m (testStored m')) :
    TestByteUnused PML4 m := by
  have hbyte : (testStored m').mem.byte 0x999 = 123 := Memory.store_byte_self _ _ _
  refine ⟨fun hroot => ?_, fun j hj haddr hstate => ?_⟩
  · obtain ⟨hflags, _⟩ := hharmless.entries [] 307 PML4.addr (by simp) (by simp) (by decide) rfl
    rw [hm.represents.entry [] PML4.addr (by simp) tableAt_nil 307 (by decide), flags_entryOf,
      hroot] at hflags
    exact flags_ne_zero_of_testByte hbyte hflags
  · rw [← hbyte]
    refine (hharmless.bytes j hj hstate 0x999 ?_ (fun ptr => hm.notMem_pathEntry) ?_).symm
    · rw [haddr]
      exact ⟨by decide, by decide⟩
    · intro hc
      obtain ⟨k, hk, hptr, _, hlocked⟩ := hc
      have hnow : getFrameState (testStored m') k = 123 := by
        rw [getFrameState, show (testStored m').pmem = m'.pmem from rfl, h.reached.same.statePtr_eq,
          ← hptr, hbyte]
      rw [hnow] at hlocked
      exact absurd hlocked (by decide)

/-- With the test byte in nothing that is in use the self-test is harmless. -/
theorem harmless_of_testByteUnused (hm : PageTableState PML4 m t)
    (h : Succeeds PML4 m t testAddr 0 m' q i T J) (hunused : TestByteUnused PML4 m) :
    Harmless PML4 m (testStored m') := by
  have hbyte : (testStored m').mem.byte 0x999 = 123 := Memory.store_byte_self _ _ _
  have hother {a : Nat} (ha : a ≠ 0x999) : (testStored m').mem.byte a = m'.mem.byte a :=
    Memory.store_byte_of_ne _ _ _ _ ha
  refine ⟨fun j hj hstate a ha hpath htaken => ?_, fun q' k T' hq hindex hk hT' => ?_⟩
  · by_cases ha' : a = 0x999
    · have hzero : getFrameAddr m j = 0 := by
        have haligned := hm.aligned j hj
        have := ha.1
        omega
      rw [ha', hbyte, hunused.2 j hj hzero hstate]
    · rw [hother ha']
      refine h.byte_eq hm hj hstate ha hpath fun hc => htaken ?_
      obtain ⟨k, hk, hptr, hfree, hlocked⟩ := hc
      refine ⟨k, hk, hptr, hfree, ?_⟩
      rw [getFrameState, show (testStored m').pmem = m'.pmem from rfl, h.reached.same.statePtr_eq,
        ← hptr, hother ha', hptr, ← h.reached.same.statePtr_eq]
      exact hlocked
  · rw [hm.represents.walkTo_root decodes_kernelTable hq hindex] at hT'
    have hbounds := hm.represents.table_bounds (mem_tables hq hT')
    have hsame : loadEntry (testStored m').mem (entryPtr T' k) =
        loadEntry m'.mem (entryPtr T' k) := by
      refine loadEntry_congr fun a ha => hother ?_
      rintro rfl
      -- no table is at address 0
      have hk' : k = 307 := by
        by_contra hne
        exact notMem_entry_testByte hbounds.1 hbounds.2 hk hne ha
      obtain rfl : T' = 0 := by
        have := (entry_subset_page hbounds.2 hk ha).1
        have := hbounds.1
        omega
      rcases hm.locked 0 (mem_tables hq hT') with hroot | ⟨j, hj, haddr, hlocked⟩
      · exact hunused.1 hroot.symm
      · refine flags_ne_zero_of_testByte (hunused.2 j hj haddr (by rw [hlocked]; decide)) ?_
        rw [← hk', hm.represents.entry q' 0 hq hT' k hk, flags_entryOf]
    rw [hsame]
    exact h.entry_eq hm hq hk hT'

end SelfTest

/-- **When the self-test of paging is harmless.** From every state of the page tables with frames enough
for the test page `init_paging` returns, and it has changed nothing that was in use exactly when the
byte it stores to was in nothing that was. -/
theorem paging_self_test_harmless_iff (PML4 : PML4Table) (kernel : KernelData) (s : Kernel)
    (t : PageTree) (hm : PageTableState PML4 (identityPagingMemory PML4 kernel s) t)
    (henough : (stuck (identityPagingMemory PML4 kernel s).mem PML4 testAddr).1 ≤
      (identityPagingMemory PML4 kernel s).pmem.freeFrames) :
    ∃ m', initPaging PML4 kernel s = some m' ∧
      (Harmless PML4 (identityPagingMemory PML4 kernel s) m' ↔
        TestByteUnused PML4 (identityPagingMemory PML4 kernel s)) := by
  obtain ⟨q, i, T, J, h⟩ := mapVaddrToPaddr_succeeds testAddr 0 hm henough
  exact ⟨_, selfTest_eq h.translation, testByteUnused_of_harmless hm h,
    harmless_of_testByteUnused hm h⟩

/-- Identity paging leaves such a state when it is granted its tables. -/
theorem pageTableState_identityPagingMemory {PML4 : PML4Table} {kernel : KernelData} {s : Kernel}
    (hworld : TableWorld PML4 s)
    (hok : ∀ r ∈ identityPagingMemoryRequests PML4 kernel s, GrantsTable PML4 r) :
    ∃ t, PageTableState PML4 (identityPagingMemory PML4 kernel s) t := by
  obtain ⟨t, ht⟩ := identityMapped_identityPagingMemory hworld.toFrameWorld hworld.zero hok
  exact ⟨t, SystemInvariant.pageTableState (h := ⟨_, []⟩) hworld ht.paged⟩

theorem stuck_le (mem : Memory) (PML4 : PML4Table) (vaddr : Nat) : (stuck mem PML4 vaddr).1 ≤ 3 := by
  unfold stuck
  dsimp only
  split_ifs <;> simp

/-- The frames from `0x1000` to `0x20000`, the first with the array, the fourth with the PML4; there is
none at address 0. -/
def upperFrames : Kernel := frameMachine 0x1000 0x1000 31 fun j =>
  if j = 3 then .reserved else if j = 0 then .locked else .free

theorem tableWorld_upperFrames : TableWorld fourthPagePML4 upperFrames := by
  refine tableWorld_frameMachine (by decide) (by decide) (by decide) ?_ ?_ (by decide)
  · intro j hj hfree
    split_ifs at hfree
    omega
  · intro j hj hfree
    split_ifs at hfree
    show 0x1000 + j * 4096 ≠ 0x4000
    omega

theorem getFrameAddr_upperFrames {j : Nat} (hj : j < 31) :
    getFrameAddr upperFrames j = 0x1000 + j * 4096 :=
  getFrameAddr_frameMachine (by decide) (by decide) hj

theorem requests_upperFrames :
    (∀ r ∈ identityPagingMemoryRequests fourthPagePML4 lowKernel upperFrames,
      GrantsTable fourthPagePML4 r) ∧
    3 ≤ (identityPagingMemory fourthPagePML4 lowKernel upperFrames).pmem.freeFrames := by
  refine identityPagingMemory_grant tableWorld_upperFrames ?_ (by decide) (by decide) (by decide)
  intro j hj
  rw [getFrameAddr_upperFrames hj, getFrameAddr_upperFrames (by decide)]
  revert j
  decide +kernel

/-- There the self-test is harmless. -/
theorem paging_self_test_harmless_iff_upperFrames : ∃ m',
    initPaging fourthPagePML4 lowKernel upperFrames = some m' ∧
      Harmless fourthPagePML4 (identityPagingMemory fourthPagePML4 lowKernel upperFrames) m' := by
  obtain ⟨hok, hleft⟩ := requests_upperFrames
  obtain ⟨t, ht⟩ := identityMapped_identityPagingMemory tableWorld_upperFrames.toFrameWorld
    tableWorld_upperFrames.zero hok
  obtain ⟨t', hm⟩ := pageTableState_identityPagingMemory tableWorld_upperFrames hok
  obtain ⟨m', hm', hiff⟩ := paging_self_test_harmless_iff fourthPagePML4 lowKernel upperFrames t' hm
    ((stuck_le _ _ _).trans hleft)
  refine ⟨m', hm', hiff.mpr ⟨by decide, fun j hj haddr => ?_⟩⟩
  have hj' : j < 31 := lt_of_lt_of_eq hj ht.paged.allocator.frames_eq
  rw [ht.paged.allocator.holding.same.addr j hj', getFrameAddr_upperFrames hj'] at haddr
  omega

/-- No table lies below `0x2000` in the frames from address 0 on. -/
theorem le_of_mem_tables_lowFrames {pages : Set Nat} {m : Kernel} {t : PageTree} {T : Nat}
    (h : IdentityMapped fourthPagePML4 lowFrames pages m t) (hT : T ∈ tables fourthPagePML4 t) :
    0x2000 ≤ T := by
  rcases h.paged.allocator.locked T hT with hroot | ⟨j, hj, hja, _, hfree⟩
  · rw [hroot]
    decide
  · rw [getFrameAddr_lowFrames hj] at hja
    rw [getFrameState_lowFrames hj] at hfree
    have hj' : j ≠ 0 ∧ j ≠ 1 := by
      refine ⟨?_, ?_⟩ <;> rintro rfl <;> exact absurd hfree (by decide)
    omega

/-- Of these frames the first is reserved, and the self-test changes a byte of it, which is in no entry
and no record. -/
theorem paging_self_test_not_harmless : ∃ m',
    initPaging fourthPagePML4 lowKernel lowFrames = some m' ∧
    ∃ j < lowFrames.pmem.frames,
      getFrameState (identityPagingMemory fourthPagePML4 lowKernel lowFrames) j =
        FrameState.reserved.code ∧
      ∃ a ∈ pageBytes (getFrameAddr (identityPagingMemory fourthPagePML4 lowKernel lowFrames) j),
        (∀ ptr, PathEntry fourthPagePML4
            (identityPagingMemory fourthPagePML4 lowKernel lowFrames).mem testAddr ptr →
          a ∉ Set.Ico ptr (ptr + 8)) ∧
        ¬TakenState (identityPagingMemory fourthPagePML4 lowKernel lowFrames) m' a ∧
        m'.mem.byte a ≠
          (identityPagingMemory fourthPagePML4 lowKernel lowFrames).mem.byte a := by
  obtain ⟨hok, hleft⟩ := requests_lowFrames
  obtain ⟨t, ht⟩ := identityMapped_identityPagingMemory tableWorld_lowFrames.toFrameWorld
    tableWorld_lowFrames.zero hok
  obtain ⟨t', hm⟩ := pageTableState_identityPagingMemory tableWorld_lowFrames hok
  obtain ⟨q, i, T, J, h⟩ := mapVaddrToPaddr_succeeds testAddr 0 hm ((stuck_le _ _ _).trans hleft)
  have hptr {j : Nat} (hj : j < 32) : lowFrames.pmem.statePtr j = 0x1000 + j * 16 + 8 :=
    statePtr_eq (frameMachine_fits (by decide)) hj
  have hsame := ht.paged.allocator.holding.same
  refine ⟨_, selfTest_eq h.translation, 0, by decide, ?_, 0x999, ?_, fun ptr => hm.notMem_pathEntry,
    ?_, ?_⟩
  · rcases ht.taken.states 0 (by decide) with hstate | ⟨hfree, _⟩
    · rw [hstate, getFrameState_lowFrames (by decide)]
      rfl
    · rw [getFrameState_lowFrames (by decide)] at hfree
      exact absurd hfree (by decide)
  · rw [hsame.addr 0 (by decide), getFrameAddr_lowFrames (by decide)]
    exact ⟨by decide, by decide⟩
  · intro hc
    obtain ⟨k, hk, hak, _⟩ := hc
    have hk' : k < 32 := lt_of_lt_of_eq hk ht.paged.allocator.frames_eq
    rw [hsame.statePtr_eq, hptr hk'] at hak
    omega
  · have hbyte : (identityPagingMemory fourthPagePML4 lowKernel lowFrames).mem.byte 0x999 = 0 := by
      refine (ht.taken.bytes 0x999 (fun j hj hc => ?_) fun T hT hc => ?_).trans
        (zero_frameMachine (Or.inl (by decide)))
      · rw [hptr hj] at hc
        omega
      · have hle := le_of_mem_tables_lowFrames ht hT
        have := hc.1
        omega
    rw [hbyte, Memory.store_byte_self]
    decide

end MyOSKernel
