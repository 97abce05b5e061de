import MyOSKernel.FrameIsolation
import MyOSKernel.PagingMap

/-! The page tables and the frame allocator together. Tables live in frames of the array that are
locked and that nobody else holds, whatever the order in which pages are mapped and other code
requests and releases frames. -/

namespace MyOSKernel

open PhysicalMemory

/-- The frames an allocator starts from: aligned and at pairwise distinct addresses, the free ones
apart from the array, and the array apart from the PML4. -/
structure FrameWorld (PML4 : PML4Table) (s : Kernel) : Prop where
  accounts : Accounts s
  distinct : Holding.DistinctAddrs s
  aligned : ∀ j < s.pmem.frames, 4096 ∣ getFrameAddr s j
  free : ∀ j < s.pmem.frames, getFrameState s j = FrameState.free.code →
    Disjoint (pageBytes (getFrameAddr s j)) s.pmem.arrayBytes
  root : Disjoint (pageBytes PML4.addr) s.pmem.arrayBytes

/-- An initialization that stayed in its array leaves such frames, wherever the PML4 is but in the
array. -/
theorem FrameWorld.of_init {PML4 : PML4Table} {kernel : KernelData} {bytes : Nat → UInt8} {s : Kernel}
    (hlayout : MapLayout kernel.memory) (hpages : 32 ≤ totalPages kernel.memory)
    (hinit : initPhysicalMemory kernel (bootState bytes) = some s)
    (hsegment : s.pmem.frames * 16 ≤ (getLargestFreeMemSeg kernel.memory 0).1)
    (hrange : ∀ idx ∈ s.pmem.subscripts, idx < s.pmem.frames)
    (hroot : Disjoint (pageBytes PML4.addr) s.pmem.arrayBytes) : FrameWorld PML4 s := by
  obtain ⟨hsegment', hresult⟩ := initResult_of_layout hlayout hinit hsegment hrange
  refine ⟨hresult.accounts, fun j hj k hk heq => hresult.addr_inj hlayout hj hk heq, ?_, ?_, hroot⟩
  · intro j hj
    obtain ⟨i, hi, n, _, _, haddr⟩ := hresult.exists_page hlayout hj
    rw [haddr]
    exact hlayout.pageAddr_aligned hi
  · intro j hj hfree
    exact hresult.array_disjoint hlayout rfl hpages hsegment' hj hfree

/-- The tables in use are the PML4 and locked frames that nobody holds, from the machine `s` on. -/
structure TableFrames (PML4 : PML4Table) (s : Kernel) (held : List Nat) (S : Set Nat) (m : Kernel) :
    Prop where
  holding : Holding.Invariant s ⟨m, held⟩
  locked : ∀ T ∈ S, T = PML4.addr ∨ ∃ j < s.pmem.frames, getFrameAddr s j = T ∧
    getFrameState m j = FrameState.locked.code ∧ getFrameState s j = FrameState.free.code
  notHeld : ∀ a ∈ held, a ∉ S

/-- A request that is in order: there is a free frame, and the one granted lies below `2^32` and is
not the PML4's. -/
def GrantsTable (PML4 : PML4Table) (m : Kernel) : Prop :=
  m.pmem.freeFrames ≠ 0 ∧ (pmemRequestFrame m).1 < 2 ^ 32 ∧ (pmemRequestFrame m).1 ≠ PML4.addr

/-- Stores outside the array leave the accounts and the frames alone. -/
theorem PhysicalMemory.Accounts.of_eqOn {m m' : Kernel} (h : Accounts m) (hpmem : m'.pmem = m.pmem)
    (hbytes : Set.EqOn m'.mem.byte m.mem.byte m.pmem.arrayBytes) : Accounts m' := by
  have hstate : ∀ j < m.pmem.frames, getFrameState m' j = getFrameState m j :=
    fun j hj => getFrameState_of_eqOn h.fits hj hpmem hbytes
  refine ⟨?_, ?_, ?_⟩
  · rw [hpmem]
    exact h.fits
  · intro j hj
    rw [hpmem] at hj
    rw [hstate j hj]
    exact h.legal j hj
  · intro k
    rw [hpmem, tally_congr hstate]
    exact h.count k

theorem PhysicalMemory.SameFrames.of_eqOn {m m' : Kernel} (hfits : m.pmem.Fits)
    (hpmem : m'.pmem = m.pmem) (hbytes : Set.EqOn m'.mem.byte m.mem.byte m.pmem.arrayBytes) :
    SameFrames m m' :=
  ⟨by rw [hpmem], by rw [hpmem], fun _ hj => getFrameAddr_of_eqOn hfits hj hpmem hbytes⟩

namespace PhysicalMemory.Holding
variable {s m m' : Kernel} {held held' : List Nat}

theorem Invariant.of_sublist (h : Invariant s ⟨m, held⟩) (hsub : held'.Sublist held) :
    Invariant s ⟨m, held'⟩ :=
  ⟨h.accounts, h.same, h.free, fun a ha => h.held a (hsub.subset ha), h.nodup.sublist hsub⟩

/-- Stores outside the array keep the invariant. -/
theorem Invariant.of_eqOn (h : Invariant s ⟨m, held⟩) (hpmem : m'.pmem = m.pmem)
    (hbytes : Set.EqOn m'.mem.byte m.mem.byte m.pmem.arrayBytes) : Invariant s ⟨m', held⟩ := by
  have hstate : ∀ j < s.pmem.frames, getFrameState m' j = getFrameState m j := fun j hj =>
    getFrameState_of_eqOn h.accounts.fits (lt_of_lt_of_eq hj h.same.frames.symm) hpmem hbytes
  refine ⟨h.accounts.of_eqOn hpmem hbytes, h.same.trans (.of_eqOn h.accounts.fits hpmem hbytes), ?_, ?_,
    h.nodup⟩
  · intro j hj hfree
    rw [hstate j hj] at hfree
    exact h.free j hj hfree
  · intro a ha
    obtain ⟨j, hj, hja, hlocked, hfree⟩ := h.held a ha
    exact ⟨j, hj, hja, by rw [hstate j hj]; exact hlocked, hfree⟩

end PhysicalMemory.Holding

namespace TableFrames
variable {PML4 : PML4Table} {s m m' : Kernel} {held : List Nat} {S : Set Nat} {T : Nat}

theorem frames_eq (h : TableFrames PML4 s held S m) : m.pmem.frames = s.pmem.frames :=
  h.holding.same.frames

theorem arrayBytes_eq (h : TableFrames PML4 s held S m) : m.pmem.arrayBytes = s.pmem.arrayBytes :=
  h.holding.same.arrayBytes_eq

/-- A table has no byte in common with the array. -/
theorem disjoint_array (hworld : FrameWorld PML4 s) (h : TableFrames PML4 s held S m) (hT : T ∈ S) :
    Disjoint (pageBytes T) s.pmem.arrayBytes := by
  rcases h.locked T hT with rfl | ⟨j, hj, rfl, _, hfree⟩
  · exact hworld.root
  · exact hworld.free j hj hfree

/-- What a request in order grants. -/
theorem request_cases (h : TableFrames PML4 s held S m) (hfree : m.pmem.freeFrames ≠ 0) :
    ∃ j < s.pmem.frames, Moved .free .locked m (pmemRequestFrame m).2 j ∧
      (pmemRequestFrame m).1 = getFrameAddr s j ∧ getFrameState s j = FrameState.free.code := by
  rcases h.holding.accounts.request_cases with ⟨_, hzero, _⟩ | ⟨j, hj, _, _, hm, haddr⟩
  · exact absurd hzero hfree
  · rw [h.frames_eq] at hj
    exact ⟨j, hj, hm, haddr.trans (h.holding.same.addr j hj), h.holding.free j hj hm.was⟩

/-- The frame granted is not a table. -/
theorem fresh (hworld : FrameWorld PML4 s) (h : TableFrames PML4 s held S m)
    (hfree : m.pmem.freeFrames ≠ 0) (hroot : (pmemRequestFrame m).1 ≠ PML4.addr) :
    (pmemRequestFrame m).1 ∉ S := by
  intro hmem
  obtain ⟨j, hj, hm, haddr, _⟩ := h.request_cases hfree
  rcases h.locked _ hmem with hc | ⟨k, hk, hka, hlocked, _⟩
  · exact hroot hc
  · obtain rfl := hworld.distinct k hk j hj (by rw [hka, haddr])
    rw [hm.was] at hlocked
    exact absurd hlocked (by decide)

/-- A locked frame stays locked when another frame is moved. -/
theorem locked_of_moved {j k : Nat} (h : TableFrames PML4 s held S m)
    (hm : Moved .free .locked m m' j) (hk : k < s.pmem.frames)
    (hlocked : getFrameState m k = FrameState.locked.code) :
    getFrameState m' k = FrameState.locked.code := by
  rw [hm.state k (h.frames_eq ▸ hk)]
  split_ifs
  · rfl
  · exact hlocked

theorem request (hworld : FrameWorld PML4 s) (h : TableFrames PML4 s held S m)
    (hok : GrantsTable PML4 m) :
    TableFrames PML4 s held (insert (pmemRequestFrame m).1 S) (pmemRequestFrame m).2 := by
  obtain ⟨hfree, _, hroot⟩ := hok
  obtain ⟨j, hj, hm, haddr, hsfree⟩ := h.request_cases hfree
  have hinv := h.holding.request hworld.distinct
  refine ⟨hinv.of_sublist ?_, ?_, ?_⟩
  · unfold Holding.grant
    split_ifs
    · exact List.Sublist.refl _
    · exact List.sublist_cons_self _ _
  · intro T hx
    obtain rfl | hT := hx
    · refine Or.inr ⟨j, hj, haddr.symm, ?_, hsfree⟩
      rw [hm.state j (h.frames_eq ▸ hj), if_pos rfl]
    · rcases h.locked T hT with hc | ⟨k, hk, hka, hlocked, hkfree⟩
      · exact Or.inl hc
      · exact Or.inr ⟨k, hk, hka, h.locked_of_moved hm hk hlocked, hkfree⟩
  · intro a ha hx
    obtain rfl | hS := hx
    · obtain ⟨k, hk, hka, hlocked, _⟩ := h.holding.held _ ha
      obtain rfl := hworld.distinct k hk j hj (by rw [hka, haddr])
      have hlocked' : getFrameState m k = FrameState.locked.code := hlocked
      rw [hm.was] at hlocked'
      exact absurd hlocked' (by decide)
    · exact h.notHeld a ha hS

/-- The kernel's allocator suits the page tables. -/
theorem allocatorSpec (hworld : FrameWorld PML4 s) (held : List Nat) :
    AllocatorSpec pmemRequestFrame (TableFrames PML4 s held) (GrantsTable PML4) where
  aligned S m h hok := by
    obtain ⟨j, hj, _, haddr, _⟩ := h.request_cases hok.1
    rw [haddr]
    exact hworld.aligned j hj
  low S m _ hok := hok.2.1
  fresh S m h hok := h.fresh hworld hok.1 hok.2.2
  keeps S m h hok T hT := by
    obtain ⟨j, hj, hm, _, _⟩ := h.request_cases hok.1
    intro a ha
    apply hm.byte
    rintro rfl
    refine Set.disjoint_left.mp (h.disjoint_array hworld hT) ha ?_
    rw [← h.arrayBytes_eq]
    exact statePtr_mem h.holding.accounts.fits
      (h.frames_eq ▸ hj)
  granted S m h hok := h.request hworld hok
  stable S m m' h hpmem hbytes := by
    have harray : Set.EqOn m'.mem.byte m.mem.byte m.pmem.arrayBytes := by
      intro a ha
      refine hbytes a fun T hT hc => Set.disjoint_left.mp (h.disjoint_array hworld hT) hc ?_
      rw [← h.arrayBytes_eq]
      exact ha
    refine ⟨h.holding.of_eqOn hpmem harray, ?_, h.notHeld⟩
    intro T hT
    rcases h.locked T hT with hc | ⟨j, hj, hja, hlocked, hfree⟩
    · exact Or.inl hc
    · refine Or.inr ⟨j, hj, hja, ?_, hfree⟩
      rw [getFrameState_of_eqOn h.holding.accounts.fits
        (h.frames_eq ▸ hj) hpmem harray]
      exact hlocked

/-- A state change of a frame leaves the page tables as they are. -/
theorem represents_of_moved {source target : FrameState} {t : PageTree} {j : Nat}
    (hworld : FrameWorld PML4 s) (h : TableFrames PML4 s held (tables PML4 t) m)
    (hm : Moved source target m m' j) (hj : j < m.pmem.frames) (hrep : Represents PML4 m.mem t) :
    Represents PML4 m'.mem t := by
  refine hrep.congr fun T hT a ha => hm.byte a ?_
  rintro rfl
  refine Set.disjoint_left.mp (h.disjoint_array hworld hT) ha ?_
  rw [← h.arrayBytes_eq]
  exact statePtr_mem h.holding.accounts.fits hj

end TableFrames

/-- A machine after the initialization of the physical memory: besides, all frames lie below `2^32`,
the free ones apart from the PML4, which is all zero. -/
structure TableWorld (PML4 : PML4Table) (s : Kernel) : Prop extends FrameWorld PML4 s where
  low : ∀ j < s.pmem.frames, getFrameAddr s j < 2 ^ 32
  freeRoot : ∀ j < s.pmem.frames, getFrameState s j = FrameState.free.code →
    Disjoint (pageBytes (getFrameAddr s j)) (pageBytes PML4.addr)
  zero : ∀ a ∈ pageBytes PML4.addr, s.mem.byte a = 0

theorem TableWorld.addr_ne_root {PML4 : PML4Table} {s : Kernel} {j : Nat} (h : TableWorld PML4 s)
    (hj : j < s.pmem.frames) (hfree : getFrameState s j = FrameState.free.code) :
    getFrameAddr s j ≠ PML4.addr := by
  intro hroot
  have hmem : PML4.addr ∈ pageBytes PML4.addr := Set.mem_Ico.mpr ⟨le_rfl, by omega⟩
  refine Set.disjoint_left.mp (h.freeRoot j hj hfree) ?_ hmem
  rw [hroot]
  exact hmem

/-- There a request is in order whenever a frame is free. -/
theorem TableWorld.grantsTable {PML4 : PML4Table} {s m : Kernel} {held : List Nat} {S : Set Nat}
    (hworld : TableWorld PML4 s) (h : TableFrames PML4 s held S m) (hfree : m.pmem.freeFrames ≠ 0) :
    GrantsTable PML4 m := by
  obtain ⟨j, hj, _, haddr, hjfree⟩ := h.request_cases hfree
  exact ⟨hfree, haddr ▸ hworld.low j hj, haddr ▸ hworld.addr_ne_root hj hjfree⟩

theorem TableWorld.allocatorSpec {PML4 : PML4Table} {s : Kernel} (hworld : TableWorld PML4 s)
    (held : List Nat) :
    AllocatorSpec pmemRequestFrame (TableFrames PML4 s held) fun m => m.pmem.freeFrames ≠ 0 :=
  (TableFrames.allocatorSpec hworld.toFrameWorld held).of_imp fun _ _ h hfree =>
    hworld.grantsTable h hfree

/-- All requests of a call are in order as long as there are free frames. -/
theorem TableWorld.requests_grant {PML4 : PML4Table} {s m : Kernel} {held : List Nat} {t : PageTree}
    {vaddr : Nat} (hworld : TableWorld PML4 s) (h : Paged PML4 (TableFrames PML4 s held) m t)
    (hfree : ∀ r ∈ requestsOf pmemRequestFrame PML4 m vaddr, r.pmem.freeFrames ≠ 0) :
    ∀ r ∈ requestsOf pmemRequestFrame PML4 m vaddr, GrantsTable PML4 r := by
  obtain ⟨_, _, _, _, _, hpaged⟩ := descendPT_spec (hworld.allocatorSpec held) h hfree
  intro r hr
  obtain ⟨v, hv⟩ := hpaged r hr
  exact hworld.grantsTable hv.allocator (hfree r hr)

/-- A page is mapped while the allocator does not run out of frames, or other code requests a frame
or releases one it holds. -/
inductive SystemStep (PML4 : PML4Table) : Holding → Holding → Prop
  | map (h : Holding) (vaddr paddr : Nat)
      (henough : ∀ s ∈ requestsOf pmemRequestFrame PML4 h.kernel vaddr, s.pmem.freeFrames ≠ 0) :
      SystemStep PML4 h ⟨mapVaddrToPaddr pmemRequestFrame PML4 h.kernel vaddr paddr, h.held⟩
  | other {h h' : Holding} (hstep : Holding.Step h h') : SystemStep PML4 h h'

/-- The invariant of the system: the page tables are represented, in locked frames nobody holds. -/
def SystemInvariant (PML4 : PML4Table) (s : Kernel) (h : Holding) (t : PageTree) : Prop :=
  Paged PML4 (TableFrames PML4 s h.held) h.kernel t

namespace SystemInvariant
variable {PML4 : PML4Table} {s : Kernel} {h h' : Holding} {t : PageTree}

theorem init (hworld : TableWorld PML4 s) : SystemInvariant PML4 s ⟨s, []⟩ RadixTree.empty := by
  refine ⟨.of_zero hworld.zero, .init hworld.accounts, ?_, fun a ha => absurd ha List.not_mem_nil⟩
  intro T h
  obtain ⟨q, _, hT⟩ := h
  exact Or.inl (tableAt_empty.mp hT).2

theorem map (hworld : TableWorld PML4 s) (hinv : SystemInvariant PML4 s h t) {vaddr : Nat}
    (paddr : Nat)
    (henough : ∀ s ∈ requestsOf pmemRequestFrame PML4 h.kernel vaddr, s.pmem.freeFrames ≠ 0) :
    ∃ u, SystemInvariant PML4 s
      ⟨mapVaddrToPaddr pmemRequestFrame PML4 h.kernel vaddr paddr, h.held⟩ u := by
  obtain ⟨u, _, hpaged, _⟩ := mapVaddrToPaddr_spec (hworld.allocatorSpec h.held) hinv paddr henough
  exact ⟨_, hpaged⟩

theorem request (hworld : TableWorld PML4 s) (hinv : SystemInvariant PML4 s h t) :
    SystemInvariant PML4 s ⟨(pmemRequestFrame h.kernel).2,
      Holding.grant (pmemRequestFrame h.kernel).1 h.held⟩ t := by
  have htf := hinv.allocator
  have hholding := htf.holding.request hworld.distinct
  by_cases hfree : h.kernel.pmem.freeFrames = 0
  · rw [show pmemRequestFrame h.kernel = (0, h.kernel) from if_pos hfree]
    exact hinv
  · obtain ⟨j, hj, hm, _, _⟩ := htf.request_cases hfree
    have hroot := (hworld.grantsTable htf hfree).2.2
    refine ⟨htf.represents_of_moved hworld.toFrameWorld hm (htf.frames_eq ▸ hj) hinv.represents,
      hholding, ?_, ?_⟩
    · intro T hT
      rcases htf.locked T hT with hc | ⟨k, hk, hka, hlocked, hkfree⟩
      · exact Or.inl hc
      · exact Or.inr ⟨k, hk, hka, htf.locked_of_moved hm hk hlocked, hkfree⟩
    · intro a ha
      simp only [Holding.grant] at ha
      split_ifs at ha
      · exact htf.notHeld a ha
      · rcases List.mem_cons.mp ha with rfl | hold
        · exact htf.fresh hworld.toFrameWorld hfree hroot
        · exact htf.notHeld a hold

theorem release (hworld : TableWorld PML4 s) (hinv : SystemInvariant PML4 s h t) {index : Nat}
    (hindex : index < h.kernel.pmem.frames) (hheld : getFrameAddr h.kernel index ∈ h.held) :
    SystemInvariant PML4 s
      ⟨freeFrame h.kernel index, h.held.erase (getFrameAddr h.kernel index)⟩ t := by
  have htf := hinv.allocator
  have hholding := htf.holding.release hworld.distinct hindex hheld
  refine ⟨?_, hholding, ?_, fun a ha => htf.notHeld a (List.mem_of_mem_erase ha)⟩
  · rcases moveFrame_cases .locked .free htf.holding.accounts.fits hindex with
      hm | ⟨_, heq⟩
    · exact htf.represents_of_moved hworld.toFrameWorld hm hindex hinv.represents
    · rw [freeFrame, heq]
      exact hinv.represents
  · intro T hT
    rcases htf.locked T hT with hc | ⟨k, hk, hka, hlocked, hkfree⟩
    · exact Or.inl hc
    · refine Or.inr ⟨k, hk, hka, ?_, hkfree⟩
      have hk' : k < h.kernel.pmem.frames := htf.frames_eq ▸ hk
      rcases moveFrame_cases .locked .free htf.holding.accounts.fits hindex
        with hm | ⟨_, heq⟩
      · show getFrameState (moveFrame .locked .free h.kernel index) k = _
        rw [hm.state k hk', if_neg]
        · exact hlocked
        · rintro rfl
          refine htf.notHeld _ hheld ?_
          rw [show getFrameAddr h.kernel k = _ from htf.holding.same.addr k hk, hka]
          exact hT
      · show getFrameState (moveFrame .locked .free h.kernel index) k = _
        rw [heq]
        exact hlocked

theorem step (hworld : TableWorld PML4 s) (hinv : SystemInvariant PML4 s h t)
    (hstep : SystemStep PML4 h h') : ∃ u, SystemInvariant PML4 s h' u := by
  cases hstep with
  | map vaddr paddr henough => exact hinv.map hworld paddr henough
  | other hstep =>
      cases hstep with
      | request => exact ⟨t, hinv.request hworld⟩
      | free index hindex hheld => exact ⟨t, hinv.release hworld hindex hheld⟩

theorem run (hworld : TableWorld PML4 s)
    (hrun : Relation.ReflTransGen (SystemStep PML4) ⟨s, []⟩ h) : ∃ t, SystemInvariant PML4 s h t := by
  induction hrun with
  | refl => exact ⟨_, init hworld⟩
  | tail _ hstep ih =>
      obtain ⟨t, hinv⟩ := ih
      exact hinv.step hworld hstep

end SystemInvariant

/-- The byte belongs to the PML4 or to a table an entry points to. -/
def InTable (PML4 : PML4Table) (mem : Memory) (a : Nat) : Prop :=
  a ∈ pageBytes PML4.addr ∨ ∃ q i e, TableEntry PML4 mem q i e ∧ a ∈ pageBytes e.tableAddr

/-- Page tables and frames of other code are apart: each entry points to a locked frame, no two
entries and no holder share it, and it is not the PML4. -/
structure TablesApart (PML4 : PML4Table) (h : Holding) : Prop where
  locked : ∀ q i e, TableEntry PML4 h.kernel.mem q i e → ∃ j < h.kernel.pmem.frames,
    getFrameAddr h.kernel j = e.tableAddr ∧ getFrameState h.kernel j = FrameState.locked.code
  unshared : ∀ q i e q' i' e', TableEntry PML4 h.kernel.mem q i e →
    TableEntry PML4 h.kernel.mem q' i' e' → e.tableAddr = e'.tableAddr → q = q' ∧ i = i'
  notRoot : ∀ q i e, TableEntry PML4 h.kernel.mem q i e → e.tableAddr ≠ PML4.addr
  notHeld : ∀ q i e, TableEntry PML4 h.kernel.mem q i e → e.tableAddr ∉ h.held

namespace SystemInvariant
variable {PML4 : PML4Table} {s : Kernel} {h h' : Holding} {t : PageTree}

theorem tablesApart (hinv : SystemInvariant PML4 s h t) : TablesApart PML4 h := by
  have htf := hinv.allocator
  have hrep := hinv.represents
  refine ⟨?_, ?_, ?_, ?_⟩
  · intro q i e hentry
    obtain ⟨hT, hlen⟩ := hinv.represents.tableAt_of_tableEntry hentry
    rcases htf.locked _ (mem_tables hlen hT) with hroot | ⟨j, hj, hja, hlocked, _⟩
    · have hnil := hrep.tableAt_inj hlen (by simp) (hroot ▸ hT) tableAt_nil
      exact absurd hnil (by simp)
    · exact ⟨j, htf.frames_eq ▸ hj, (htf.holding.same.addr j hj).trans hja, hlocked⟩
  · intro q i e q' i' e' hentry hentry' heq
    obtain ⟨hT, hlen⟩ := hinv.represents.tableAt_of_tableEntry hentry
    obtain ⟨hT', hlen'⟩ := hinv.represents.tableAt_of_tableEntry hentry'
    rw [← heq] at hT'
    obtain ⟨hq, hi⟩ := List.append_inj' (hrep.tableAt_inj hlen hlen' hT hT') rfl
    exact ⟨hq, by simpa using hi⟩
  · intro q i e hentry hroot
    obtain ⟨hT, hlen⟩ := hinv.represents.tableAt_of_tableEntry hentry
    have hnil := hrep.tableAt_inj hlen (by simp) (hroot ▸ hT) tableAt_nil
    exact absurd hnil (by simp)
  · intro q i e hentry hheld
    obtain ⟨hT, hlen⟩ := hinv.represents.tableAt_of_tableEntry hentry
    exact htf.notHeld _ hheld (mem_tables hlen hT)

/-- The bytes of the tables are outside the array. -/
theorem notMem_array (hworld : TableWorld PML4 s) (hinv : SystemInvariant PML4 s h t) {a : Nat}
    (ha : InTable PML4 h.kernel.mem a) : a ∉ h.kernel.pmem.arrayBytes := by
  have htf := hinv.allocator
  rw [htf.arrayBytes_eq]
  rcases ha with hroot | ⟨q, i, e, hentry, hpage⟩
  · exact Set.disjoint_left.mp hworld.root hroot
  · obtain ⟨hT, hlen⟩ := hinv.represents.tableAt_of_tableEntry hentry
    exact Set.disjoint_left.mp (htf.disjoint_array hworld.toFrameWorld (mem_tables hlen hT)) hpage

end SystemInvariant

/-- A request or a release only writes bytes of the array. -/
theorem PhysicalMemory.Holding.Step.writes {h h' : Holding} (hstep : Holding.Step h h')
    (haccounts : Accounts h.kernel) : ∃ new, h'.kernel.mem.writes = new ++ h.kernel.mem.writes ∧
      ∀ a ∈ new, a ∈ h.kernel.pmem.arrayBytes := by
  cases hstep with
  | request =>
      rcases haccounts.request_cases with ⟨_, _, heq⟩ | ⟨j, hj, _, _, hm, _⟩
      · rw [heq]
        exact ⟨[], rfl, fun a ha => absurd ha List.not_mem_nil⟩
      · refine ⟨[h.kernel.pmem.statePtr j], hm.writes, fun a ha => ?_⟩
        rw [List.mem_singleton.mp ha]
        exact statePtr_mem haccounts.fits hj
  | free index hindex _ =>
      rcases moveFrame_cases .locked .free haccounts.fits hindex with
        hm | ⟨_, heq⟩
      · refine ⟨[h.kernel.pmem.statePtr index], hm.writes, fun a ha => ?_⟩
        rw [List.mem_singleton.mp ha]
        exact statePtr_mem haccounts.fits hindex
      · rw [freeFrame, heq]
        exact ⟨[], rfl, fun a ha => absurd ha List.not_mem_nil⟩

/-- A request takes at most one frame from the count. -/
theorem le_freeFrames_request {m : Kernel} {k : Nat} (hlt : m.pmem.freeFrames < 2 ^ 64)
    (hle : k + 1 ≤ m.pmem.freeFrames) : (pmemRequestFrame m).2.pmem.freeFrames < 2 ^ 64 ∧
      k ≤ (pmemRequestFrame m).2.pmem.freeFrames := by
  rw [pmemRequestFrame, if_neg (by omega)]
  cases hfirst : firstFree m with
  | none => exact ⟨hlt, by show k ≤ m.pmem.freeFrames; omega⟩
  | some i =>
      dsimp only
      rw [lockFrame, moveFrame_of_eq (firstFree_eq_some_iff.mp hfirst).2.1]
      dsimp only
      rw [moveCount_freeFrames]
      omega

theorem le_freeFrames_nextTable {m : Kernel} {k : Nat} (table index : Nat) (hlt : m.pmem.freeFrames < 2 ^ 64)
    (hle : k + (missing m table index).length ≤ m.pmem.freeFrames) :
    (nextTable pmemRequestFrame m table index).2.pmem.freeFrames < 2 ^ 64 ∧
      k ≤ (nextTable pmemRequestFrame m table index).2.pmem.freeFrames ∧
      ∀ s ∈ missing m table index, s.pmem.freeFrames ≠ 0 := by
  unfold nextTable missing at *
  split_ifs at hle ⊢
  · obtain ⟨hlt', hle'⟩ := le_freeFrames_request hlt hle
    refine ⟨hlt', hle', fun s hs => ?_⟩
    rw [List.mem_singleton.mp hs]
    exact Nat.ne_of_gt (Nat.lt_of_lt_of_le (Nat.succ_pos k) hle)
  · exact ⟨hlt, hle, fun s hs => absurd hs List.not_mem_nil⟩

/-- With a free frame for each request a call does not run out, and the others are left. -/
theorem le_freeFrames_map (PML4 : PML4Table) {m : Kernel} {k : Nat} (vaddr paddr : Nat)
    (hlt : m.pmem.freeFrames < 2 ^ 64)
    (hle : k + (requestsOf pmemRequestFrame PML4 m vaddr).length ≤ m.pmem.freeFrames) :
    (mapVaddrToPaddr pmemRequestFrame PML4 m vaddr paddr).pmem.freeFrames < 2 ^ 64 ∧
      k ≤ (mapVaddrToPaddr pmemRequestFrame PML4 m vaddr paddr).pmem.freeFrames ∧
      ∀ s ∈ requestsOf pmemRequestFrame PML4 m vaddr, s.pmem.freeFrames ≠ 0 := by
  rw [mapVaddrToPaddr_pmem]
  simp only [requestsOf, List.length_append, List.mem_append] at hle ⊢
  set PDPT := descendPDPT pmemRequestFrame PML4 m vaddr
  set PD := descendPD pmemRequestFrame PML4 m vaddr
  set indexes := extractVaddrPagingIndexes vaddr
  set atPDPT := (missing PDPT.2 PDPT.1 indexes.pdptEntry).length with hatPDPT
  set atPD := (missing PD.2 PD.1 indexes.pdEntry).length with hatPD
  obtain ⟨hPDPT, hPDPT', hPDPT''⟩ := le_freeFrames_nextTable (k := k + atPD + atPDPT) PML4.addr
    indexes.pml4Entry hlt (by omega)
  obtain ⟨hPD, hPD', hPD''⟩ := le_freeFrames_nextTable (k := k + atPD) PDPT.1 indexes.pdptEntry
    hPDPT hPDPT'
  obtain ⟨hPT, hPT', hPT''⟩ := le_freeFrames_nextTable (k := k) PD.1 indexes.pdEntry hPD hPD'
  refine ⟨hPT, hPT', fun s hs => ?_⟩
  rcases hs with (hs | hs) | hs
  · exact hPDPT'' s hs
  · exact hPD'' s hs
  · exact hPT'' s hs

theorem length_missing_le {σ : Type} {m : Machine σ} {table index : Nat} :
    (missing m table index).length ≤ 1 := by
  unfold missing
  split_ifs
  · exact le_rfl
  · exact Nat.zero_le _

/-- A call requests at most three frames. -/
theorem length_requestsOf_le {PML4 : PML4Table} {m : Kernel} {vaddr : Nat} :
    (requestsOf pmemRequestFrame PML4 m vaddr).length ≤ 3 := by
  simp only [requestsOf, List.length_append]
  exact Nat.add_le_add (Nat.add_le_add length_missing_le length_missing_le) length_missing_le

/-- **Page tables and frames of other code never collide.** In every state reached by mapping pages,
requesting frames and releasing held ones, the tables are apart from what other code holds, and a
request or a release by other code writes no byte of a table. -/
theorem page_tables_never_collide (PML4 : PML4Table) (s : Kernel) (hworld : TableWorld PML4 s)
    (h : Holding) (hrun : Relation.ReflTransGen (SystemStep PML4) ⟨s, []⟩ h) :
    TablesApart PML4 h ∧
      ∀ h', Holding.Step h h' → ∃ new, h'.kernel.mem.writes = new ++ h.kernel.mem.writes ∧
        ∀ a ∈ new, ¬InTable PML4 h.kernel.mem a := by
  obtain ⟨t, hinv⟩ := SystemInvariant.run hworld hrun
  refine ⟨hinv.tablesApart, fun h' hstep => ?_⟩
  obtain ⟨new, heq, hnew⟩ := hstep.writes hinv.allocator.holding.accounts
  exact ⟨new, heq, fun a ha hc => hinv.notMem_array hworld hc (hnew a ha)⟩

/-! ### A machine of contiguous frames -/

/-- The bytes of an array at `array` of frames from `base` on in the given states, and zeros around
it. -/
def frameBytes (array base frames : Nat) (state : Nat → FrameState) (a : Nat) : UInt8 :=
  if array ≤ a ∧ a < array + frames * 16 then
    if (a - array) % 16 < 8 then
      UInt8.ofNat ((base + (a - array) / 16 * 4096) / 256 ^ ((a - array) % 16))
    else if (a - array) % 16 = 8 then (state ((a - array) / 16)).code else 0
  else 0

/-- The machine of these frames. -/
def frameMachine (array base frames : Nat) (state : Nat → FrameState) : Kernel where
  mem := { byte := frameBytes array base frames state, writes := [] }
  pmem :=
    { freeFrames := tally frames (fun j => (state j).code) FrameState.free.code
      reservedFrames := tally frames (fun j => (state j).code) FrameState.reserved.code
      lockedFrames := tally frames (fun j => (state j).code) FrameState.locked.code
      frames := frames, array := array, initialized := true, subscripts := [] }

section FrameMachine
variable {array base frames : Nat} {state : Nat → FrameState} {PML4 : PML4Table}

theorem frameMachine_fits (hfits : array + frames * 16 ≤ 2 ^ 64) :
    (frameMachine array base frames state).pmem.Fits := hfits

theorem getFrameState_frameMachine (hfits : array + frames * 16 ≤ 2 ^ 64) {j : Nat}
    (hj : j < frames) : getFrameState (frameMachine array base frames state) j = (state j).code := by
  rw [getFrameState, statePtr_eq (frameMachine_fits hfits) hj]
  show frameBytes array base frames state (array + j * 16 + 8) = _
  rw [frameBytes, if_pos (by omega), if_neg (by omega), if_pos (by omega),
    show (array + j * 16 + 8 - array) / 16 = j by omega]

theorem getFrameAddr_frameMachine (hfits : array + frames * 16 ≤ 2 ^ 64)
    (hbase : base + frames * 4096 ≤ 2 ^ 64) {j : Nat} (hj : j < frames) :
    getFrameAddr (frameMachine array base frames state) j = base + j * 4096 := by
  rw [getFrameAddr, framePtr_eq (frameMachine_fits hfits) hj,
    Memory.loadLE_of_digits (base + j * 4096), Nat.mod_eq_of_lt]
  · exact lt_of_lt_of_eq (show base + j * 4096 < 2 ^ 64 by omega) (by decide)
  · intro k hk
    show frameBytes array base frames state (array + j * 16 + k) = _
    rw [frameBytes, if_pos (by omega), if_pos (by omega), show (array + j * 16 + k - array) / 16 = j by omega,
      show (array + j * 16 + k - array) % 16 = k by omega]

theorem accounts_frameMachine (hfits : array + frames * 16 ≤ 2 ^ 64) :
    Accounts (frameMachine array base frames state) := by
  refine ⟨hfits, fun j hj => ⟨state j, getFrameState_frameMachine hfits hj⟩, fun k => ?_⟩
  have htally : tally frames (getFrameState (frameMachine array base frames state)) k.code =
      tally frames (fun j => (state j).code) k.code :=
    tally_congr fun j hj => getFrameState_frameMachine hfits hj
  refine Eq.trans ?_ htally.symm
  cases k <;> rfl

/-- Aligned frames make a world for page tables when the free ones and the PML4 are apart from the
array. -/
theorem frameWorld_frameMachine (hfits : array + frames * 16 ≤ 2 ^ 64)
    (hbase : base + frames * 4096 ≤ 2 ^ 64) (haligned : 4096 ∣ base)
    (hfree : ∀ j < frames, state j = .free →
      array + frames * 16 ≤ base + j * 4096 ∨ base + j * 4096 + 4096 ≤ array)
    (hroot : array + frames * 16 ≤ PML4.addr ∨ PML4.addr + 4096 ≤ array) :
    FrameWorld PML4 (frameMachine array base frames state) := by
  have haddr : ∀ j < frames, getFrameAddr (frameMachine array base frames state) j =
      base + j * 4096 := fun j hj => getFrameAddr_frameMachine hfits hbase hj
  have hdisjoint {page : Nat} (h : array + frames * 16 ≤ page ∨ page + 4096 ≤ array) :
      Disjoint (pageBytes page) (Set.Ico array (array + frames * 16)) := by
    rw [Set.disjoint_left]
    intro a ha ha'
    have := ha.1; have := ha.2; have := ha'.1; have := ha'.2
    omega
  refine ⟨accounts_frameMachine hfits, ?_, ?_, ?_, hdisjoint hroot⟩
  · intro j hj k hk heq
    rw [haddr j hj, haddr k hk] at heq
    omega
  · intro j hj
    rw [haddr j hj]
    omega
  · intro j hj hstate
    rw [getFrameState_frameMachine hfits hj] at hstate
    rw [haddr j hj]
    exact hdisjoint (hfree j hj (FrameState.code_inj hstate))

theorem zero_frameMachine {a : Nat} (h : a < array ∨ array + frames * 16 ≤ a) :
    (frameMachine array base frames state).mem.byte a = 0 := if_neg (by omega)

/-- Below `2^32` and with the PML4 in no free one they make a world for allocating tables. -/
theorem tableWorld_frameMachine (hfits : array + frames * 16 ≤ 2 ^ 64)
    (hbase : base + frames * 4096 ≤ 2 ^ 32) (haligned : 4096 ∣ base)
    (hfree : ∀ j < frames, state j = .free →
      array + frames * 16 ≤ base + j * 4096 ∨ base + j * 4096 + 4096 ≤ array)
    (hne : ∀ j < frames, state j = .free → base + j * 4096 ≠ PML4.addr)
    (hroot : array + frames * 16 ≤ PML4.addr ∨ PML4.addr + 4096 ≤ array) :
    TableWorld PML4 (frameMachine array base frames state) := by
  have haddr : ∀ j < frames, getFrameAddr (frameMachine array base frames state) j =
      base + j * 4096 := fun j hj => getFrameAddr_frameMachine hfits (by omega) hj
  refine ⟨frameWorld_frameMachine hfits (by omega) haligned hfree hroot, fun j hj => ?_,
    fun j hj hstate => ?_, fun a ha => zero_frameMachine ?_⟩
  · have hj' : j < frames := hj
    rw [haddr j hj]
    omega
  · rw [getFrameState_frameMachine hfits hj] at hstate
    rw [haddr j hj]
    exact pageBytes_disjoint (by omega) PML4.aligned (hne j hj (FrameState.code_inj hstate))
  · have := ha.1; have := ha.2
    omega

end FrameMachine

/-- The PML4 at `0x4000`. -/
def fourthPagePML4 : PML4Table := ⟨0x4000, by decide, by decide⟩

/-- Four free frames from `0x10000` on, their array at `0x1000`. -/
def fourFreeFrames : Kernel := frameMachine 0x1000 0x10000 4 fun _ => .free

theorem tableWorld_fourFreeFrames : TableWorld fourthPagePML4 fourFreeFrames :=
  tableWorld_frameMachine (by decide) (by decide) (by decide) (fun j _ _ => by omega)
    (fun j _ _ => show 0x10000 + j * 4096 ≠ 0x4000 by omega) (by decide)

/-- A page is mapped there. -/
theorem page_tables_never_collide_fourFreeFrames :
    TablesApart fourthPagePML4
      ⟨mapVaddrToPaddr pmemRequestFrame fourthPagePML4 fourFreeFrames 0x99999999999 0x5000, []⟩ :=
  (page_tables_never_collide fourthPagePML4 fourFreeFrames tableWorld_fourFreeFrames _
    (.single (.map ⟨fourFreeFrames, []⟩ 0x99999999999 0x5000
      (le_freeFrames_map (k := 0) _ _ 0 (by decide) ((Nat.add_le_add_left length_requestsOf_le 0).trans
        (by decide))).2.2))).1

end MyOSKernel
