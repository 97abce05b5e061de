import MyOSKernel.IdentityPaging

/-! The registers of the HPET and the page they are mapped by. The general registers lie in the first
`0x100` bytes at the base address and a block of 32 bytes follows for each timer; the size the area is
mapped with adds up the widths of the registers. Either way it is one page, that of the base. -/

namespace MyOSKernel

open PhysicalMemory

def hpetCapRegOffset : Nat := 0x000
def hpetConfigRegOffset : Nat := 0x010
def hpetIntStatusRegOffset : Nat := 0x020
def hpetCounterRegOffset : Nat := 0x0f0

def timerFirstOff : Nat := 0x100
def timerConfigReg : Nat := 0x0
def timerComparReg : Nat := 0x8

/-- `sizeof(HTimer)`. -/
def hTimerSz : Nat := 32

/-- `HPET_get_reg_ptr`. -/
def hpetGetRegPtr (kernel : KernelData) (reg : Nat) : Nat := (kernel.hpetAddress + reg) % 2 ^ 64

/-- `HTimer_get_timer_reg_ptr`. -/
def hTimerGetTimerRegPtr (kernel : KernelData) (timerN reg : Nat) : Nat :=
  (kernel.hpetAddress + timerFirstOff + hTimerSz * timerN + reg) % 2 ^ 64

/-- The registers the driver reads and writes, of 64 bits each. -/
inductive HpetRegister (kernel : KernelData) : Nat → Prop
  | general (reg : Nat) (hreg : reg ∈ [hpetCapRegOffset, hpetConfigRegOffset, hpetIntStatusRegOffset,
      hpetCounterRegOffset]) : HpetRegister kernel (hpetGetRegPtr kernel reg)
  | timer (timerN reg : Nat) (htimer : timerN < hpetGetNoTimers kernel.hpetCapReg)
      (hreg : reg ∈ [timerConfigReg, timerComparReg]) :
      HpetRegister kernel (hTimerGetTimerRegPtr kernel timerN reg)

section Page
variable {kernel : KernelData} {ptr a : Nat}

theorem mem_devicePages_hpet_iff :
    a ∈ devicePages kernel.hpetAddress (hpetGetMmioSz kernel) ↔ a = kernel.hpetAddress := by
  constructor
  · exact mem_devicePages_of_one identityPagingRounds_hpetGetMmioSz
  · rintro rfl
    exact ⟨0, by rw [identityPagingRounds_hpetGetMmioSz]; exact Nat.one_pos, rfl⟩

/-- The registers end with the comparator of the last timer. -/
theorem HpetRegister.bounds (h : HpetRegister kernel ptr) (hbase : kernel.hpetAddress < 2 ^ 44) :
    kernel.hpetAddress ≤ ptr ∧
      ptr + 8 ≤ kernel.hpetAddress + 272 + 32 * (kernel.hpetCapReg / 2 ^ 8 % 2 ^ 5) := by
  cases h with
  | general reg hreg =>
      have hle : reg ≤ 0xf0 := by
        revert reg
        decide
      unfold hpetGetRegPtr
      omega
  | timer timerN reg htimer hreg =>
      have hle : reg ≤ 8 := by
        revert reg
        decide
      rw [hpetGetNoTimers_eq] at htimer
      unfold hTimerGetTimerRegPtr timerFirstOff hTimerSz
      omega

variable (kernel) in
theorem hpetRegister_last : HpetRegister kernel
    (hTimerGetTimerRegPtr kernel (kernel.hpetCapReg / 2 ^ 8 % 2 ^ 5) timerComparReg) := by
  apply HpetRegister.timer
  · rw [hpetGetNoTimers_eq]
    exact Nat.lt_succ_self _
  · exact List.mem_cons_of_mem _ List.mem_cons_self

/-- All of them lie on the page of the base exactly when the last one does. -/
theorem registers_samePage_iff (hbase : kernel.hpetAddress < 2 ^ 44) :
    (∀ ptr, HpetRegister kernel ptr → ∀ k < 8, SamePage kernel.hpetAddress (ptr + k)) ↔
      kernel.hpetAddress % 4096 + 272 + 32 * (kernel.hpetCapReg / 2 ^ 8 % 2 ^ 5) ≤ 4096 := by
  constructor
  · intro h
    have hlast := h _ (hpetRegister_last kernel) 7 (by decide)
    unfold SamePage hTimerGetTimerRegPtr timerFirstOff hTimerSz timerComparReg at hlast
    omega
  · intro h ptr hptr k hk
    obtain ⟨hlow, hhigh⟩ := hptr.bounds hbase
    unfold SamePage
    omega

end Page

/-- The byte lies in a page `_identity_paging` maps for the HPET, and is translated to itself through
present and writable entries. -/
structure HpetMapped (PML4 : PML4Table) (kernel : KernelData) (m : Kernel) (a : Nat) : Prop where
  page : ∃ p ∈ devicePages kernel.hpetAddress (hpetGetMmioSz kernel), SamePage p a
  walk : ∃ w, hardwareWalk m.mem PML4 a = some (.page4K w) ∧ w.PresentWritable ∧
    translate m.mem PML4 a = some a

/-- Every register byte is mapped exactly when the block of the last timer ends on the page of the base
address. -/
theorem hpet_registers_mapped_iff (PML4 : PML4Table) (kernel : KernelData) (s : Kernel)
    (hworld : FrameWorld PML4 s) (hzero : ∀ a ∈ pageBytes PML4.addr, s.mem.byte a = 0)
    (hok : ∀ r ∈ identityPagingMemoryRequests PML4 kernel s, GrantsTable PML4 r)
    (hbase : kernel.hpetAddress < 2 ^ 44) :
    (∀ ptr, HpetRegister kernel ptr → ∀ k < 8,
        HpetMapped PML4 kernel (identityPagingMemory PML4 kernel s) (ptr + k)) ↔
      kernel.hpetAddress % 4096 + 272 + 32 * (kernel.hpetCapReg / 2 ^ 8 % 2 ^ 5) ≤ 4096 := by
  obtain ⟨t, ht⟩ := identityMapped_identityPagingMemory hworld hzero hok
  constructor
  · intro h
    apply (registers_samePage_iff hbase).mp
    intro ptr hptr k hk
    obtain ⟨p, hp, hsame⟩ := (h ptr hptr k hk).page
    rwa [mem_devicePages_hpet_iff.mp hp] at hsame
  · intro h ptr hptr k hk
    have hsame := (registers_samePage_iff hbase).mpr h ptr hptr k hk
    have hpage : kernel.hpetAddress ∈ devicePages kernel.hpetAddress (hpetGetMmioSz kernel) :=
      mem_devicePages_hpet_iff.mpr rfl
    obtain ⟨hlow, hhigh⟩ := hptr.bounds hbase
    exact ⟨⟨_, hpage, hsame⟩, ht.walk_page (Or.inr hpage) hsame (by omega)⟩

theorem hpet_registers_mapped_iff_lowFrames :
    (∀ ptr, HpetRegister lowKernel ptr → ∀ k < 8,
        HpetMapped fourthPagePML4 lowKernel (identityPagingMemory fourthPagePML4 lowKernel lowFrames)
          (ptr + k)) ↔
      lowKernel.hpetAddress % 4096 + 272 + 32 * (lowKernel.hpetCapReg / 2 ^ 8 % 2 ^ 5) ≤ 4096 :=
  hpet_registers_mapped_iff fourthPagePML4 lowKernel lowFrames tableWorld_lowFrames.toFrameWorld
    tableWorld_lowFrames.zero requests_lowFrames.1 (by decide)

/-- With the base 1 KiB before the end of a page and 32 timers the last blocks are on the next one. -/
theorem hpet_registers_not_mapped : ¬∀ (PML4 : PML4Table) (kernel : KernelData) (s : Kernel),
    FrameWorld PML4 s → (∀ a ∈ pageBytes PML4.addr, s.mem.byte a = 0) →
    (∀ r ∈ identityPagingMemoryRequests PML4 kernel s, GrantsTable PML4 r) →
    kernel.hpetAddress < 2 ^ 44 → ∀ ptr, HpetRegister kernel ptr → ∀ k < 8,
      HpetMapped PML4 kernel (identityPagingMemory PML4 kernel s) (ptr + k) := by
  intro h
  have hgrant : ∀ r ∈ identityPagingMemoryRequests fourthPagePML4
      { lowKernel with hpetAddress := 0xfed00c00, hpetCapReg := 0x1f00 } lowFrames,
      GrantsTable fourthPagePML4 r := by
    refine (identityPagingMemory_grant (k := 3) tableWorld_lowFrames ?_ (by decide) (by decide)
      (by decide)).1
    intro j hj
    rw [getFrameAddr_lowFrames hj, getFrameAddr_lowFrames (by decide)]
    revert j
    decide +kernel
  have hall := h fourthPagePML4 { lowKernel with hpetAddress := 0xfed00c00, hpetCapReg := 0x1f00 }
    lowFrames tableWorld_lowFrames.toFrameWorld tableWorld_lowFrames.zero hgrant (by decide)
  have hlast := (hall _ (hpetRegister_last _) 7 (by decide)).page
  obtain ⟨p, hp, hsame⟩ := hlast
  rw [mem_devicePages_hpet_iff.mp hp] at hsame
  exact absurd hsame (by decide)

end MyOSKernel
