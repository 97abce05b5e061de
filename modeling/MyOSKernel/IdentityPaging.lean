import MyOSKernel.PagingEffects

/-! `_identity_paging_memory`: every frame of the array and the areas of three devices are mapped to
themselves, with tables taken from the very frames that are being mapped. -/

namespace MyOSKernel

open PhysicalMemory

/-- `HPET_get_no_timers`: the bits 8 to 12 of the capability register, plus one. -/
def hpetGetNoTimers (capReg : Nat) : Nat := (capReg / 2 ^ 8 % 2 ^ 5 + 1) % 2 ^ 8

def hpetGetMmioSz (kernel : KernelData) : Nat := 8 * 8 + hpetGetNoTimers kernel.hpetCapReg * (4 * 8)

abbrev apicBaseAddr : Nat := 0xfee00000

section Pages
variable {σ : Type} (request : Machine σ → Nat × Machine σ) (PML4 : PML4Table)

/-- The loop of `_identity_paging`: the machine and the running address after some rounds. -/
def identityPages (m : Machine σ) (addr rounds : Nat) : Machine σ × Nat :=
  Nat.fold rounds
    (fun _ _ s => (mapVaddrToPaddr request PML4 s.1 s.2 s.2, (s.2 + pageSz) % 2 ^ 64)) (m, addr)

def identityPagingRounds (n : Nat) : Nat := n / (pageSz + 1) + 1

/-- `_identity_paging` of `n` bytes from `addr` on. -/
def identityPaging (m : Machine σ) (addr n : Nat) : Machine σ :=
  (identityPages request PML4 m addr (identityPagingRounds n)).1

/-- The machines in which it requests a frame. -/
def identityPagingRequests (m : Machine σ) (addr n : Nat) : List (Machine σ) :=
  (List.range (identityPagingRounds n)).flatMap fun i =>
    requestsOf request PML4 (identityPages request PML4 m addr i).1
      (identityPages request PML4 m addr i).2

end Pages

section Memory
variable (PML4 : PML4Table)

/-- The first loop of `_identity_paging_memory`, over the first `count` frames. -/
def mapFrames (s : Kernel) (count : Nat) : Kernel :=
  Nat.fold count (fun i _ s =>
    mapVaddrToPaddr pmemRequestFrame PML4 s (getFrameAddr s i) (getFrameAddr s i)) s

def mapFramesRequests (s : Kernel) (count : Nat) : List Kernel :=
  (List.range count).flatMap fun i =>
    requestsOf pmemRequestFrame PML4 (mapFrames PML4 s i) (getFrameAddr (mapFrames PML4 s i) i)

/-- The machines after the frames, the framebuffer and the APIC have been mapped. -/
def framesMapped (s : Kernel) : Kernel := mapFrames PML4 s s.pmem.frames

def framebufferMapped (kernel : KernelData) (s : Kernel) : Kernel :=
  identityPaging pmemRequestFrame PML4 (framesMapped PML4 s) kernel.framebuffer.baseAddress
    kernel.framebuffer.bufferSize

def apicMapped (kernel : KernelData) (s : Kernel) : Kernel :=
  identityPaging pmemRequestFrame PML4 (framebufferMapped PML4 kernel s) apicBaseAddr 4096

/-- `_identity_paging_memory`. -/
def identityPagingMemory (kernel : KernelData) (s : Kernel) : Kernel :=
  identityPaging pmemRequestFrame PML4 (apicMapped PML4 kernel s) kernel.hpetAddress
    (hpetGetMmioSz kernel)

/-- The machines in which it requests a frame. -/
def identityPagingMemoryRequests (kernel : KernelData) (s : Kernel) : List Kernel :=
  mapFramesRequests PML4 s s.pmem.frames ++
    identityPagingRequests pmemRequestFrame PML4 (framesMapped PML4 s)
      kernel.framebuffer.baseAddress kernel.framebuffer.bufferSize ++
    identityPagingRequests pmemRequestFrame PML4 (framebufferMapped PML4 kernel s) apicBaseAddr 4096 ++
    identityPagingRequests pmemRequestFrame PML4 (apicMapped PML4 kernel s) kernel.hpetAddress
      (hpetGetMmioSz kernel)

end Memory

theorem identityPages_succ {σ : Type} (request : Machine σ → Nat × Machine σ) (PML4 : PML4Table)
    (m : Machine σ) (addr rounds : Nat) : identityPages request PML4 m addr (rounds + 1) =
      (mapVaddrToPaddr request PML4 (identityPages request PML4 m addr rounds).1
        (identityPages request PML4 m addr rounds).2 (identityPages request PML4 m addr rounds).2,
        ((identityPages request PML4 m addr rounds).2 + 4096) % 2 ^ 64) := by
  rw [identityPages, Nat.fold_succ]
  rfl

theorem mapFrames_succ (PML4 : PML4Table) (s : Kernel) (count : Nat) : mapFrames PML4 s (count + 1) =
    mapVaddrToPaddr pmemRequestFrame PML4 (mapFrames PML4 s count)
      (getFrameAddr (mapFrames PML4 s count) count) (getFrameAddr (mapFrames PML4 s count) count) := by
  rw [mapFrames, Nat.fold_succ]
  rfl

/-- The running address of `_identity_paging` after some rounds. -/
def pageFrom (addr rounds : Nat) : Nat := (fun a => (a + 4096) % 2 ^ 64)^[rounds] addr

theorem identityPages_addr {σ : Type} (request : Machine σ → Nat × Machine σ) (PML4 : PML4Table)
    (m : Machine σ) (addr rounds : Nat) :
    (identityPages request PML4 m addr rounds).2 = pageFrom addr rounds := by
  induction rounds with
  | zero => rfl
  | succ rounds ih =>
      rw [identityPages_succ, pageFrom, Function.iterate_succ_apply', ← pageFrom, ih]

/-- The addresses of the frames in the array. -/
def framePages (s : Kernel) : Set Nat := {a | ∃ j < s.pmem.frames, a = getFrameAddr s j}

/-- The pages of the `n` bytes at `addr`. -/
def devicePages (addr n : Nat) : Set Nat := {a | ∃ i < identityPagingRounds n, a = pageFrom addr i}

theorem mem_devicePages_of_one {addr n a : Nat} (hrounds : identityPagingRounds n = 1)
    (ha : a ∈ devicePages addr n) : a = addr := by
  obtain ⟨i, hi, heq⟩ := ha
  rw [hrounds, Nat.lt_one_iff] at hi
  rw [heq, hi]
  rfl

theorem hpetGetNoTimers_eq {kernel : KernelData} : hpetGetNoTimers kernel.hpetCapReg =
    kernel.hpetCapReg / 2 ^ 8 % 2 ^ 5 + 1 := by
  unfold hpetGetNoTimers
  omega

/-- The HPET has at most 1088 bytes. -/
theorem identityPagingRounds_hpetGetMmioSz {kernel : KernelData} :
    identityPagingRounds (hpetGetMmioSz kernel) = 1 := by
  have hbits : kernel.hpetCapReg / 2 ^ 8 % 2 ^ 5 < 2 ^ 5 := Nat.mod_lt _ (by decide)
  unfold identityPagingRounds hpetGetMmioSz pageSz
  rw [hpetGetNoTimers_eq]
  omega

/-- Exactly the pages of `pages` are mapped, those below `2^44` to themselves, there are no tables but
those on their paths, and nothing but what these take has changed. -/
structure IdentityMapped (PML4 : PML4Table) (s : Kernel) (pages : Set Nat) (m : Kernel) (t : PageTree) :
    Prop where
  paged : Paged PML4 (TableFrames PML4 s []) m t
  identity : ∀ vaddr x, vaddr < 2 ^ 44 → t (pathOf vaddr) = some x → x.toNat = vaddr / 4096
  mapped : ∀ a ∈ pages, ∃ x, t (pathOf a) = some x
  slots : ∀ q x, t q = some x → ∃ a ∈ pages, q <+: pathOf a
  taken : Taken s s (tables PML4 RadixTree.empty) (tables PML4 t) m

namespace IdentityMapped
variable {PML4 : PML4Table} {s m : Kernel} {pages : Set Nat} {t : PageTree}

theorem start (hworld : FrameWorld PML4 s) (hzero : ∀ a ∈ pageBytes PML4.addr, s.mem.byte a = 0) :
    IdentityMapped PML4 s ∅ s RadixTree.empty := by
  refine ⟨⟨.of_zero hzero, .init hworld.accounts, ?_, fun a ha => absurd ha List.not_mem_nil⟩,
    fun _ _ _ hx => absurd hx (by simp [RadixTree.empty]), fun a ha => absurd ha (by simp),
    fun _ _ hx => absurd hx (by simp [RadixTree.empty]), .refl s s _⟩
  intro T h
  obtain ⟨q, _, hT⟩ := h
  exact Or.inl (tableAt_empty.mp hT).2

/-- One page more. Whatever the address, a page under `2^44` that it shares is mapped to itself. -/
theorem map (hworld : FrameWorld PML4 s) (h : IdentityMapped PML4 s pages m t) (a : Nat)
    (hok : ∀ r ∈ requestsOf pmemRequestFrame PML4 m a, GrantsTable PML4 r) :
    ∃ u, IdentityMapped PML4 s (insert a pages) (mapVaddrToPaddr pmemRequestFrame PML4 m a a) u := by
  obtain ⟨u, hmap⟩ := mapsTaking hworld h.paged a hok
  have hpayload : ∀ vaddr, u.set (pathOf a) (BitVec.ofNat 32 (a >>> 12)) (pathOf vaddr) =
      if pathOf a = pathOf vaddr then some (BitVec.ofNat 32 (a >>> 12)) else t (pathOf vaddr) :=
    fun vaddr => hmap.grown.set_payload rfl
  refine ⟨_, ⟨hmap.represents, hmap.frames⟩, ?_, ?_, ?_, h.taken.trans hmap.taken hmap.tables_subset⟩
  · intro vaddr x hv hx
    rw [hpayload] at hx
    split_ifs at hx with hpath
    · have hsame : SamePage a vaddr := (pathOf_eq_iff _ _).mp hpath
      unfold SamePage at hsame
      rw [← Option.some.inj hx, BitVec.toNat_ofNat, Nat.shiftRight_eq_div_pow]
      omega
    · exact h.identity vaddr x hv hx
  · intro b hin
    obtain rfl | hb := hin
    · exact ⟨_, by rw [hpayload, if_pos rfl]⟩
    · rw [hpayload]
      split_ifs
      · exact ⟨_, rfl⟩
      · exact h.mapped b hb
  · intro q x hx
    by_cases hq : q = pathOf a
    · exact ⟨a, Or.inl rfl, by rw [hq]⟩
    · rw [RadixTree.set_of_ne hq] at hx
      by_cases hprefix : q <+: pathOf a
      · exact ⟨a, Or.inl rfl, hprefix⟩
      · rw [hmap.grown.only q fun hc => hprefix hc.1] at hx
        obtain ⟨b, hb, hqb⟩ := h.slots q x hx
        exact ⟨b, Or.inr hb, hqb⟩

theorem mapFrames (hworld : FrameWorld PML4 s)
    (hzero : ∀ a ∈ pageBytes PML4.addr, s.mem.byte a = 0) {count : Nat} (hcount : count ≤ s.pmem.frames)
    (hok : ∀ r ∈ mapFramesRequests PML4 s count, GrantsTable PML4 r) :
    ∃ t, IdentityMapped PML4 s {a | ∃ j < count, a = getFrameAddr s j} (mapFrames PML4 s count) t := by
  induction count with
  | zero =>
      have hnone : {a | ∃ j < 0, a = getFrameAddr s j} = ∅ := by
        ext a
        simp
      rw [hnone]
      exact ⟨_, start hworld hzero⟩
  | succ count ih =>
      simp only [mapFramesRequests, List.range_succ, List.flatMap_append, List.mem_append,
        List.flatMap_singleton] at hok
      obtain ⟨t, ht⟩ := ih (by omega) fun r hr => hok r (Or.inl hr)
      have haddr : getFrameAddr (MyOSKernel.mapFrames PML4 s count) count = getFrameAddr s count :=
        ht.paged.allocator.holding.same.addr count hcount
      obtain ⟨u, hu⟩ := ht.map hworld _ fun r hr => hok r (Or.inr hr)
      have hpages : {a | ∃ j < count + 1, a = getFrameAddr s j} =
          insert (getFrameAddr (MyOSKernel.mapFrames PML4 s count) count)
            {a | ∃ j < count, a = getFrameAddr s j} := by
        ext b
        simp only [haddr, Set.mem_insert_iff, Set.mem_ofPred_eq, Nat.exists_lt_succ_right]
        exact or_comm
      refine ⟨u, ?_⟩
      rw [mapFrames_succ, hpages]
      exact hu

/-- The area of a device is mapped besides what was mapped before. -/
theorem identityPaging (hworld : FrameWorld PML4 s) (h : IdentityMapped PML4 s pages m t)
    (addr n : Nat)
    (hok : ∀ r ∈ identityPagingRequests pmemRequestFrame PML4 m addr n, GrantsTable PML4 r) :
    ∃ u, IdentityMapped PML4 s (pages ∪ devicePages addr n)
      (identityPaging pmemRequestFrame PML4 m addr n) u := by
  unfold MyOSKernel.identityPaging devicePages
  unfold identityPagingRequests at hok
  generalize identityPagingRounds n = rounds at hok ⊢
  induction rounds with
  | zero =>
      have hnone : pages ∪ {a | ∃ i < 0, a = pageFrom addr i} = pages := by
        ext a
        simp
      rw [hnone]
      exact ⟨t, h⟩
  | succ rounds ih =>
      simp only [List.range_succ, List.flatMap_append, List.mem_append, List.flatMap_singleton] at hok
      obtain ⟨u, hu⟩ := ih fun r hr => hok r (Or.inl hr)
      obtain ⟨u', hu'⟩ := hu.map hworld _ fun r hr => hok r (Or.inr hr)
      have hpages : pages ∪ {a | ∃ i < rounds + 1, a = pageFrom addr i} =
          insert (identityPages pmemRequestFrame PML4 m addr rounds).2
            (pages ∪ {a | ∃ i < rounds, a = pageFrom addr i}) := by
        ext b
        simp only [identityPages_addr, Set.mem_union, Set.mem_insert_iff, Set.mem_ofPred_eq,
          Nat.exists_lt_succ_right]
        rw [← or_assoc]
        exact or_comm
      refine ⟨u', ?_⟩
      rw [hpages, identityPages_succ]
      exact hu'

end IdentityMapped

/-- The pages of the whole function: the frames and the areas of three devices. -/
def identityPagesOf (kernel : KernelData) (s : Kernel) : Set Nat :=
  framePages s ∪ devicePages kernel.framebuffer.baseAddress kernel.framebuffer.bufferSize ∪
    devicePages apicBaseAddr 4096 ∪ devicePages kernel.hpetAddress (hpetGetMmioSz kernel)

/-- What the whole function leaves. -/
theorem identityMapped_identityPagingMemory {PML4 : PML4Table} {kernel : KernelData} {s : Kernel}
    (hworld : FrameWorld PML4 s) (hzero : ∀ a ∈ pageBytes PML4.addr, s.mem.byte a = 0)
    (hok : ∀ r ∈ identityPagingMemoryRequests PML4 kernel s, GrantsTable PML4 r) :
    ∃ t, IdentityMapped PML4 s (identityPagesOf kernel s) (identityPagingMemory PML4 kernel s) t := by
  simp only [identityPagingMemoryRequests, List.mem_append] at hok
  obtain ⟨t, ht⟩ := IdentityMapped.mapFrames hworld hzero le_rfl
    fun r hr => hok r (Or.inl (Or.inl (Or.inl hr)))
  obtain ⟨t1, ht1⟩ := ht.identityPaging hworld _ _ fun r hr => hok r (Or.inl (Or.inl (Or.inr hr)))
  obtain ⟨t2, ht2⟩ := ht1.identityPaging hworld _ _ fun r hr => hok r (Or.inl (Or.inr hr))
  exact ht2.identityPaging hworld _ _ fun r hr => hok r (Or.inr hr)

theorem mem_identityPagesOf {kernel : KernelData} {s : Kernel} {j : Nat} (hj : j < s.pmem.frames) :
    getFrameAddr s j ∈ identityPagesOf kernel s := Or.inl (Or.inl (Or.inl ⟨j, hj, rfl⟩))

/-- An address under `2^44` on a mapped page walks to itself. -/
theorem IdentityMapped.walk_page {PML4 : PML4Table} {s m : Kernel} {pages : Set Nat} {t : PageTree}
    (h : IdentityMapped PML4 s pages m t) {a v : Nat} (ha : a ∈ pages) (hpage : SamePage a v)
    (hlow : v < 2 ^ 44) :
    ∃ w, hardwareWalk m.mem PML4 v = some (.page4K w) ∧ w.PresentWritable ∧
      translate m.mem PML4 v = some v := by
  obtain ⟨x, hx⟩ := h.mapped a ha
  rw [(pathOf_eq_iff a v).mpr hpage] at hx
  have hid := h.identity v x hlow hx
  obtain ⟨w, _, hw, hwritable, _⟩ := h.paged.represents.hardwareWalk_of_some hx
  refine ⟨w, hw, hwritable, ?_⟩
  rw [h.paged.represents.translate_eq, hx, Option.map_some]
  apply congrArg some
  omega

/-- A mapped page under `2^44` walks to itself. -/
theorem IdentityMapped.walk {PML4 : PML4Table} {s m : Kernel} {pages : Set Nat} {t : PageTree}
    (h : IdentityMapped PML4 s pages m t) {a offset : Nat} (ha : a ∈ pages) (haligned : 4096 ∣ a)
    (hlow : a < 2 ^ 44) (hoffset : offset < 4096) :
    ∃ w, hardwareWalk m.mem PML4 (a + offset) = some (.page4K w) ∧ w.PresentWritable ∧
      translate m.mem PML4 (a + offset) = some (a + offset) := by
  apply h.walk_page ha
  · rw [SamePage]
    omega
  · omega

/-! ### Running out of frames -/

section Enough
variable {PML4 : PML4Table} {s m : Kernel} {pages : Set Nat} {t : PageTree} {a vaddr k : Nat}

theorem IdentityMapped.freeFrames_lt (h : IdentityMapped PML4 s pages m t) :
    m.pmem.freeFrames < 2 ^ 64 := by
  have hle : m.pmem.freeFrames ≤ m.pmem.frames := h.paged.allocator.holding.accounts.counter_le .free
  have hframes : m.pmem.frames ≤ 2 ^ 60 := h.paged.allocator.holding.accounts.frames_le
  omega

/-- An address under the page table of a mapped page is mapped without a request. -/
theorem IdentityMapped.requestsOf_eq_nil (vaddr : Nat) (h : IdentityMapped PML4 s pages m t)
    (ha : a ∈ pages)
    (hpath : (pathOf vaddr).take 3 = (pathOf a).take 3) :
    requestsOf pmemRequestFrame PML4 m vaddr = [] := by
  obtain ⟨x, hx⟩ := h.mapped a ha
  obtain ⟨y, hy⟩ := h.paged.represents.tree.prefix_some (q := (pathOf a).take 3)
    (r := (pathOf a).drop 3) (by simp [pathOf]) (by rw [List.take_append_drop]; exact hx)
  exact MyOSKernel.requestsOf_eq_nil h.paged.represents (by rw [hpath]; exact hy)

/-- One page more takes at most three tables. -/
theorem IdentityMapped.requests_grant (hworld : TableWorld PML4 s)
    (h : IdentityMapped PML4 s pages m t) (hle : k + 3 ≤ m.pmem.freeFrames) :
    (∀ r ∈ requestsOf pmemRequestFrame PML4 m vaddr, GrantsTable PML4 r) ∧
      k ≤ (mapVaddrToPaddr pmemRequestFrame PML4 m vaddr vaddr).pmem.freeFrames := by
  obtain ⟨_, hleft, hfree⟩ := le_freeFrames_map (k := k) PML4 vaddr vaddr
    h.freeFrames_lt ((Nat.add_le_add_left length_requestsOf_le k).trans hle)
  exact ⟨hworld.requests_grant h.paged hfree, hleft⟩

/-- So does a device's area of one page. -/
theorem IdentityMapped.requests_grant_device (hworld : TableWorld PML4 s)
    (h : IdentityMapped PML4 s pages m t) (addr : Nat) {n : Nat} (hrounds : identityPagingRounds n = 1)
    (hle : k + 3 ≤ m.pmem.freeFrames) :
    (∀ r ∈ identityPagingRequests pmemRequestFrame PML4 m addr n, GrantsTable PML4 r) ∧
      k ≤ (MyOSKernel.identityPaging pmemRequestFrame PML4 m addr n).pmem.freeFrames := by
  unfold identityPagingRequests MyOSKernel.identityPaging
  rw [hrounds, List.range_one, List.flatMap_singleton]
  exact h.requests_grant hworld hle

/-- Frames under one page table take three tables. -/
theorem mapFrames_grant (hworld : TableWorld PML4 s)
    (hpath : ∀ j < s.pmem.frames,
      (pathOf (getFrameAddr s j)).take 3 = (pathOf (getFrameAddr s 0)).take 3)
    (hle : k + 3 ≤ s.pmem.freeFrames) {count : Nat} (hcount : count + 1 ≤ s.pmem.frames) :
    (∀ r ∈ mapFramesRequests PML4 s (count + 1), GrantsTable PML4 r) ∧
      k ≤ (mapFrames PML4 s (count + 1)).pmem.freeFrames := by
  induction count with
  | zero =>
      have hrequests : mapFramesRequests PML4 s (0 + 1) =
          requestsOf pmemRequestFrame PML4 s (getFrameAddr s 0) := by
        rw [mapFramesRequests, Nat.zero_add, List.range_one, List.flatMap_singleton]
        rfl
      rw [hrequests]
      exact (IdentityMapped.start hworld.toFrameWorld hworld.zero).requests_grant hworld hle
  | succ count ih =>
      obtain ⟨hok, hleft⟩ := ih (by omega)
      obtain ⟨t, ht⟩ := IdentityMapped.mapFrames hworld.toFrameWorld hworld.zero
        (Nat.le_of_succ_le hcount) hok
      have haddr : getFrameAddr (mapFrames PML4 s (count + 1)) (count + 1) =
          getFrameAddr s (count + 1) := ht.paged.allocator.holding.same.addr _ hcount
      have hnil := ht.requestsOf_eq_nil (getFrameAddr s (count + 1)) ⟨0, by omega, rfl⟩
        (hpath _ hcount)
      constructor
      · intro r hr
        simp only [mapFramesRequests, List.range_succ (n := count + 1), List.flatMap_append,
          List.mem_append, List.flatMap_singleton] at hr
        rcases hr with hr | hr
        · exact hok r hr
        · rw [haddr, hnil] at hr
          exact absurd hr List.not_mem_nil
      · rw [mapFrames_succ, haddr, mapVaddrToPaddr_pmem_of_nil _ hnil]
        exact hleft

/-- Twelve free frames are enough for frames under one page table and a framebuffer of one page. -/
theorem identityPagingMemory_grant {kernel : KernelData} (hworld : TableWorld PML4 s)
    (hpath : ∀ j < s.pmem.frames,
      (pathOf (getFrameAddr s j)).take 3 = (pathOf (getFrameAddr s 0)).take 3)
    (hframes : 0 < s.pmem.frames) (hle : k + 12 ≤ s.pmem.freeFrames)
    (hframebuffer : identityPagingRounds kernel.framebuffer.bufferSize = 1) :
    (∀ r ∈ identityPagingMemoryRequests PML4 kernel s, GrantsTable PML4 r) ∧
      k ≤ (identityPagingMemory PML4 kernel s).pmem.freeFrames := by
  obtain ⟨count, hcount⟩ : ∃ count, s.pmem.frames = count + 1 := ⟨s.pmem.frames - 1, by omega⟩
  obtain ⟨hok, hleft⟩ := mapFrames_grant (k := k + 9) hworld hpath hle hcount.ge
  rw [← hcount] at hok hleft
  obtain ⟨t, ht⟩ := IdentityMapped.mapFrames hworld.toFrameWorld hworld.zero le_rfl hok
  obtain ⟨hok1, hleft1⟩ := ht.requests_grant_device (k := k + 6) hworld
    kernel.framebuffer.baseAddress hframebuffer hleft
  obtain ⟨t1, ht1⟩ := ht.identityPaging hworld.toFrameWorld _ _ hok1
  obtain ⟨hok2, hleft2⟩ := ht1.requests_grant_device (k := k + 3) (n := 4096) hworld
    apicBaseAddr (by decide) hleft1
  obtain ⟨t2, ht2⟩ := ht1.identityPaging hworld.toFrameWorld _ _ hok2
  obtain ⟨hok3, hleft3⟩ := ht2.requests_grant_device (k := k) hworld kernel.hpetAddress
    identityPagingRounds_hpetGetMmioSz hleft2
  refine ⟨fun r hr => ?_, hleft3⟩
  simp only [identityPagingMemoryRequests, List.mem_append] at hr
  rcases hr with ((hr | hr) | hr) | hr
  · exact hok r hr
  · exact hok1 r hr
  · exact hok2 r hr
  · exact hok3 r hr

end Enough

/-- **Identity paging is complete and supports itself.** Every frame of the array is mapped to itself,
present and writable at every level, those included that became tables on the way; so every table an
entry points to is mapped at its own address. -/
theorem identity_paging_complete (PML4 : PML4Table) (kernel : KernelData) (s : Kernel)
    (hworld : FrameWorld PML4 s) (hlow : ∀ j < s.pmem.frames, getFrameAddr s j < 2 ^ 44)
    (hzero : ∀ a ∈ pageBytes PML4.addr, s.mem.byte a = 0)
    (hok : ∀ r ∈ identityPagingMemoryRequests PML4 kernel s, GrantsTable PML4 r) :
    (∀ j < s.pmem.frames, getFrameAddr (identityPagingMemory PML4 kernel s) j = getFrameAddr s j) ∧
    (∀ j < s.pmem.frames, ∀ offset < 4096, ∃ w,
      hardwareWalk (identityPagingMemory PML4 kernel s).mem PML4 (getFrameAddr s j + offset) =
          some (.page4K w) ∧
      w.PresentWritable ∧
      translate (identityPagingMemory PML4 kernel s).mem PML4 (getFrameAddr s j + offset) =
        some (getFrameAddr s j + offset)) ∧
    (∀ q i e, TableEntry PML4 (identityPagingMemory PML4 kernel s).mem q i e → ∀ offset < 4096,
      translate (identityPagingMemory PML4 kernel s).mem PML4 (e.tableAddr + offset) =
        some (e.tableAddr + offset)) := by
  obtain ⟨t, ht⟩ := identityMapped_identityPagingMemory hworld hzero hok
  have htf := ht.paged.allocator
  refine ⟨htf.holding.same.addr, ?_, ?_⟩
  · intro j hj offset hoffset
    exact ht.walk (mem_identityPagesOf hj) (hworld.aligned j hj) (hlow j hj) hoffset
  · intro q i e hentry offset hoffset
    obtain ⟨hT, hlen⟩ := ht.paged.represents.tableAt_of_tableEntry hentry
    rcases htf.locked _ (mem_tables hlen hT) with hroot | ⟨j, hj, hja, _⟩
    · have hnil := ht.paged.represents.tableAt_inj hlen (by simp) (hroot ▸ hT) tableAt_nil
      exact absurd hnil (by simp)
    · rw [← hja]
      obtain ⟨_, _, _, htranslate⟩ :=
        ht.walk (mem_identityPagesOf hj) (hworld.aligned j hj) (hlow j hj) hoffset
      exact htranslate

/-- The frames of the first 128 KiB. The first one is reserved, as is that of the PML4, and the second
holds the array. -/
def lowFrames : Kernel := frameMachine 0x1000 0 32 fun j =>
  if j = 0 ∨ j = 4 then .reserved else if j = 1 then .locked else .free

/-- A framebuffer of one page and an HPET where they usually are. -/
def lowKernel : KernelData where
  stack := 0
  framebuffer := { baseAddress := 0x80000000, bufferSize := 4096 }
  memory := soleDescriptor 32 1
  hpetAddress := 0xfed00000
  hpetCapReg := 0

theorem getFrameAddr_lowFrames {j : Nat} (hj : j < 32) : getFrameAddr lowFrames j = j * 4096 :=
  (getFrameAddr_frameMachine (by decide) (by decide) hj).trans (Nat.zero_add _)

theorem getFrameState_lowFrames {j : Nat} (hj : j < 32) : getFrameState lowFrames j =
    (if j = 0 ∨ j = 4 then FrameState.reserved else if j = 1 then .locked else .free).code :=
  getFrameState_frameMachine (by decide) hj

theorem tableWorld_lowFrames : TableWorld fourthPagePML4 lowFrames := by
  refine tableWorld_frameMachine (by decide) (by decide) (by decide) ?_ ?_ (by decide)
  · intro j hj hfree
    split_ifs at hfree
    omega
  · intro j hj hfree
    split_ifs at hfree
    show 0 + j * 4096 ≠ 0x4000
    omega

/-- There are enough frames there, and three are left. -/
theorem requests_lowFrames :
    (∀ r ∈ identityPagingMemoryRequests fourthPagePML4 lowKernel lowFrames,
      GrantsTable fourthPagePML4 r) ∧
    3 ≤ (identityPagingMemory fourthPagePML4 lowKernel lowFrames).pmem.freeFrames := by
  refine identityPagingMemory_grant tableWorld_lowFrames ?_ (by decide) (by decide) (by decide)
  intro j hj
  rw [getFrameAddr_lowFrames hj, getFrameAddr_lowFrames (by decide)]
  revert j
  decide +kernel

/-- The fourth frame there is one of the tables. -/
theorem identity_paging_complete_lowFrames :
    translate (identityPagingMemory fourthPagePML4 lowKernel lowFrames).mem fourthPagePML4 0x3123 =
      some 0x3123 := by
  obtain ⟨_, _, _, htranslate⟩ := (identity_paging_complete fourthPagePML4 lowKernel lowFrames
    tableWorld_lowFrames.toFrameWorld
    (fun j hj => (tableWorld_lowFrames.low j hj).trans (by decide)) tableWorld_lowFrames.zero
    requests_lowFrames.1).2.1 3 (by decide) 0x123 (by decide)
  rw [getFrameAddr_lowFrames (by decide)] at htranslate
  exact htranslate

end MyOSKernel
