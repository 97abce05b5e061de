import MyOSKernel.IdentityPaging
import MyOSKernel.PagingCount
import MyOSKernel.PagingRefinement

/-! `_identity_paging` of a range of bytes. The number of pages is taken as `n / (PAGE_SZ + 1) + 1`,
which is the number of pages of the range only while the quotient and the remainder of `n` by
`PAGE_SZ + 1` add up to at most `PAGE_SZ`; beyond, the last pages of the range are left out. -/

namespace MyOSKernel

open PhysicalMemory

theorem identityPagingRounds_le {n : Nat} (hpos : 1 ≤ n) :
    identityPagingRounds n ≤ (n + 4095) / 4096 := by
  unfold identityPagingRounds pageSz
  omega

/-- Where the pages cover the bytes. -/
theorem identityPagingRounds_cover_iff (n : Nat) :
    n ≤ 4096 * identityPagingRounds n ↔ n / 4097 + n % 4097 ≤ 4096 := by
  unfold identityPagingRounds pageSz
  omega

theorem pageFrom_eq {addr rounds : Nat} (hlt : addr + 4096 * rounds < 2 ^ 64) :
    pageFrom addr rounds = addr + 4096 * rounds := by
  induction rounds with
  | zero => rfl
  | succ rounds ih =>
      rw [pageFrom, Function.iterate_succ_apply', ← pageFrom, ih (by omega)]
      omega

section Loop
variable {σ : Type} {request : Machine σ → Nat × Machine σ} {Inv : Set Nat → Machine σ → Prop}
  {Ok : Machine σ → Prop} {PML4 : PML4Table} {m : Machine σ} {t : PageTree} {addr rounds : Nat}

/-- The tree `u` maps the first `rounds` pages from `addr` on to themselves, and the others as `t`
does. -/
structure RangeMapped (t : PageTree) (addr rounds : Nat) (u : PageTree) : Prop where
  inside : ∀ i < rounds, ∀ v, SamePage (addr + 4096 * i) v →
    u (pathOf v) = some (BitVec.ofNat 32 (addr / 4096 + i))
  outside : ∀ v, (∀ i < rounds, ¬SamePage (addr + 4096 * i) v) → u (pathOf v) = t (pathOf v)

theorem rangeMapped_identityPages (spec : AllocatorSpec request Inv Ok) (h : Paged PML4 Inv m t)
    (haligned : 4096 ∣ addr) (hlt : addr + 4096 * rounds ≤ 2 ^ 44)
    (hok : ∀ i < rounds, ∀ r ∈ requestsOf request PML4 (identityPages request PML4 m addr i).1
      (identityPages request PML4 m addr i).2, Ok r) :
    ∃ u, Paged PML4 Inv (identityPages request PML4 m addr rounds).1 u ∧
      RangeMapped t addr rounds u := by
  induction rounds with
  | zero => exact ⟨t, h, fun i hi => absurd hi (Nat.not_lt_zero i), fun v _ => rfl⟩
  | succ rounds ih =>
      obtain ⟨u, hpaged, hrange⟩ := ih (by omega) fun i hi => hok i (by omega)
      have hcall := hok rounds (by omega)
      rw [identityPages_succ]
      rw [identityPages_addr, pageFrom_eq (by omega)] at hcall ⊢
      obtain ⟨u', hgrown, hpaged', _⟩ :=
        mapVaddrToPaddr_spec spec hpaged (addr + 4096 * rounds) hcall
      refine ⟨_, hpaged', fun i hi v hv => ?_, fun v hv => ?_⟩
      · rw [hgrown.set_payload (r := pathOf v) rfl]
        rcases Nat.lt_succ_iff_lt_or_eq.mp hi with hi' | rfl
        · -- an earlier page is another one
          rw [if_neg, hrange.inside i hi' v hv]
          intro hpath
          have hlast : SamePage (addr + 4096 * rounds) v := (pathOf_eq_iff _ _).mp hpath
          unfold SamePage at hv hlast
          omega
        · rw [if_pos ((pathOf_eq_iff _ _).mpr hv), Nat.shiftRight_eq_div_pow]
          congr 2
          omega
      · rw [hgrown.set_payload (r := pathOf v) rfl, if_neg fun hpath =>
          hv rounds (by omega) ((pathOf_eq_iff _ _).mp hpath)]
        exact hrange.outside v fun i hi => hv i (by omega)

/-- The calls of the loop. -/
def identityCalls (addr rounds : Nat) : List MapCall :=
  (List.range rounds).map fun i => ⟨pageFrom addr i, pageFrom addr i⟩

theorem identityPages_eq_runCalls (request : Machine σ → Nat × Machine σ) (PML4 : PML4Table)
    (m : Machine σ) (addr rounds : Nat) : (identityPages request PML4 m addr rounds).1 =
      runCalls request PML4 m (identityCalls addr rounds) := by
  induction rounds with
  | zero => rfl
  | succ rounds ih =>
      rw [identityPages_succ, identityCalls, List.range_succ, List.map_append, List.map_singleton,
        runCalls_append_singleton, identityPages_addr, ih]
      rfl

end Loop

section Requests
variable {PML4 : PML4Table} {m : Kernel} {kernel : KernelData} {addr n : Nat} {calls calls' : List MapCall}

theorem identityPaging_eq_runCalls (m : Kernel) (addr n : Nat) :
    identityPaging pmemRequestFrame PML4 m addr n =
      runCalls pmemRequestFrame PML4 m (identityCalls addr (identityPagingRounds n)) :=
  identityPages_eq_runCalls pmemRequestFrame PML4 m addr (identityPagingRounds n)

theorem exists_range_eq {i count : Nat} (hi : i < count) :
    ∃ rest, List.range count = List.range i ++ i :: rest := by
  obtain ⟨k, rfl⟩ : ∃ k, count = i + (k + 1) := ⟨count - i - 1, by omega⟩
  rw [List.range_add, List.range_succ_eq_map, List.map_cons, Nat.add_zero]
  exact ⟨_, rfl⟩

/-- The part of a run after some calls. -/
theorem RequestsInOrder.after (h : RequestsInOrder PML4 m (calls ++ calls')) :
    RequestsInOrder PML4 (runCalls pmemRequestFrame PML4 m calls) calls' := by
  intro before c rest heq
  rw [← runCalls_append]
  exact h (calls ++ before) c rest (by rw [heq, List.append_assoc])

theorem RequestsInOrder.identityPaging
    (h : RequestsInOrder PML4 m (identityCalls addr (identityPagingRounds n))) :
    ∀ r ∈ identityPagingRequests pmemRequestFrame PML4 m addr n, GrantsTable PML4 r := by
  intro r hr
  obtain ⟨i, hi, hr⟩ := List.mem_flatMap.mp hr
  rw [identityPages_eq_runCalls, identityPages_addr] at hr
  obtain ⟨rest, hrange⟩ := exists_range_eq (List.mem_range.mp hi)
  refine h (identityCalls addr i) ⟨pageFrom addr i, pageFrom addr i⟩
    (rest.map fun k => ⟨pageFrom addr k, pageFrom addr k⟩) ?_ r hr
  rw [identityCalls, hrange, List.map_append, List.map_cons]
  rfl

/-- The calls of `_identity_paging_memory` for the devices. -/
def deviceCalls (kernel : KernelData) : List MapCall :=
  identityCalls kernel.framebuffer.baseAddress
      (identityPagingRounds kernel.framebuffer.bufferSize) ++
    (identityCalls apicBaseAddr (identityPagingRounds 4096) ++
      identityCalls kernel.hpetAddress (identityPagingRounds (hpetGetMmioSz kernel)))

theorem identityPagingMemory_eq_devices (s : Kernel) : identityPagingMemory PML4 kernel s =
    runCalls pmemRequestFrame PML4 (framesMapped PML4 s) (deviceCalls kernel) := by
  rw [identityPagingMemory, apicMapped, framebufferMapped, identityPaging_eq_runCalls,
    identityPaging_eq_runCalls, identityPaging_eq_runCalls, deviceCalls, runCalls_append,
    runCalls_append]

end Requests

/-- Every address of the `n` bytes at `addr` is translated to itself with `present` and `rw` set, and
outside the pages of the range the translation is as it was. -/
structure CoversRange (PML4 : PML4Table) (m m' : Kernel) (addr n : Nat) : Prop where
  inside : ∀ a, addr ≤ a → a < addr + n → ∃ w, hardwareWalk m'.mem PML4 a = some (.page4K w) ∧
    w.PresentWritable ∧ translate m'.mem PML4 a = some a
  outside : ∀ v, (∀ a, addr ≤ a → a < addr + (n + 4095) / 4096 * 4096 → ¬SamePage a v) →
    translate m'.mem PML4 v = translate m.mem PML4 v

/-- Addresses that are translated are translated through writable entries. -/
theorem Represents.walk_of_translate {PML4 : PML4Table} {mem : Memory} {t : PageTree} {v a : Nat}
    (h : Represents PML4 mem t) (ha : translate mem PML4 v = some a) :
    ∃ w, hardwareWalk mem PML4 v = some (.page4K w) ∧ w.PresentWritable := by
  rw [h.translate_eq] at ha
  obtain ⟨x, hx, _⟩ := Option.map_eq_some_iff.mp ha
  obtain ⟨w, _, hw, hwritable, _⟩ := h.hardwareWalk_of_some hx
  exact ⟨w, hw, hwritable⟩

/-- **Where identity mapping covers its range.** Whatever was mapped before, every byte of the range is
mapped to itself, and nothing outside has changed, exactly when the addresses past the
`n / (PAGE_SZ + 1) + 1` pages that are mapped were translated to themselves already. -/
theorem identity_paging_covers_iff (PML4 : PML4Table) (s m : Kernel) (held : List Nat) (t : PageTree)
    (hworld : FrameWorld PML4 s) (hpaged : Paged PML4 (TableFrames PML4 s held) m t) (addr n : Nat)
    (haligned : 4096 ∣ addr) (hpos : 1 ≤ n) (hlt : addr + n < 2 ^ 44)
    (hok : ∀ r ∈ identityPagingRequests pmemRequestFrame PML4 m addr n, GrantsTable PML4 r) :
    CoversRange PML4 m (identityPaging pmemRequestFrame PML4 m addr n) addr n ↔
      ∀ a, addr + 4096 * identityPagingRounds n ≤ a → a < addr + n →
        translate m.mem PML4 a = some a := by
  have hrounds := identityPagingRounds_le hpos
  have hend : addr + 4096 * identityPagingRounds n ≤ 2 ^ 44 := by omega
  obtain ⟨u, hpaged', hrange⟩ := rangeMapped_identityPages (TableFrames.allocatorSpec hworld held)
    hpaged haligned hend fun i hi r hr =>
      hok r (List.mem_flatMap.mpr ⟨i, List.mem_range.mpr hi, hr⟩)
  have hrep' := hpaged'.represents
  have htranslate : ∀ v, (∀ i < identityPagingRounds n, ¬SamePage (addr + 4096 * i) v) →
      translate (identityPages pmemRequestFrame PML4 m addr (identityPagingRounds n)).1.mem PML4 v =
        translate m.mem PML4 v := by
    intro v hv
    rw [hrep'.translate_eq, hpaged.represents.translate_eq, hrange.outside v hv]
  have hbeyond {a : Nat} (hlow : addr + 4096 * identityPagingRounds n ≤ a) (hhigh : a < addr + n) :
      ∀ i < identityPagingRounds n, ¬SamePage (addr + 4096 * i) a := by
    intro i hi hsame
    unfold SamePage at hsame
    omega
  constructor
  · intro hcovers a hlow hhigh
    obtain ⟨_, _, _, ha⟩ := hcovers.inside a (by omega) hhigh
    rw [← htranslate a (hbeyond hlow hhigh)]
    exact ha
  · intro hbefore
    have hself : ∀ a, addr ≤ a → a < addr + n →
        translate (identityPages pmemRequestFrame PML4 m addr (identityPagingRounds n)).1.mem PML4 a =
          some a := by
      intro a hlow hhigh
      by_cases hin : a < addr + 4096 * identityPagingRounds n
      · have hpage : SamePage (addr + 4096 * ((a - addr) / 4096)) a := by
          unfold SamePage
          omega
        rw [hrep'.translate_eq, hrange.inside _ (by omega) a hpage, Option.map_some,
          BitVec.toNat_ofNat, Nat.mod_eq_of_lt (by omega)]
        congr 1
        omega
      · rw [htranslate a (hbeyond (by omega) hhigh)]
        exact hbefore a (by omega) hhigh
    refine ⟨fun a hlow hhigh => ?_, fun v hv => htranslate v fun i hi => hv _ (by omega) (by omega)⟩
    obtain ⟨w, hw, hwritable⟩ := hrep'.walk_of_translate (hself a hlow hhigh)
    exact ⟨w, hw, hwritable, hself a hlow hhigh⟩

/-- Two pages and a byte: there are frames for the tables of the two pages that are mapped. -/
theorem requests_range_fourFreeFrames :
    ∀ r ∈ identityPagingRequests pmemRequestFrame fourthPagePML4 fourFreeFrames 0x100000 8193,
      GrantsTable fourthPagePML4 r :=
  (tableWorld_fourFreeFrames.requestsInOrder (by
    have hneeded : tablesNeeded (identityCalls 0x100000 (identityPagingRounds 8193)) = 3 := by
      decide +kernel
    rw [hneeded]
    decide)).identityPaging

theorem paged_fourFreeFrames : Paged fourthPagePML4 (TableFrames fourthPagePML4 fourFreeFrames [])
    fourFreeFrames RadixTree.empty := SystemInvariant.init tableWorld_fourFreeFrames

theorem identity_paging_covers_iff_fourFreeFrames :
    CoversRange fourthPagePML4 fourFreeFrames
        (identityPaging pmemRequestFrame fourthPagePML4 fourFreeFrames 0x100000 8193) 0x100000 8193 ↔
      ∀ a, 0x100000 + 4096 * identityPagingRounds 8193 ≤ a → a < 0x100000 + 8193 →
        translate fourFreeFrames.mem fourthPagePML4 a = some a :=
  identity_paging_covers_iff fourthPagePML4 fourFreeFrames fourFreeFrames [] RadixTree.empty
    tableWorld_fourFreeFrames.toFrameWorld paged_fourFreeFrames 0x100000 8193 (by decide) (by decide)
    (by decide) requests_range_fourFreeFrames

/-- The last of 8193 bytes is left unmapped. -/
theorem identity_paging_misses_byte : ¬∀ (PML4 : PML4Table) (s m : Kernel) (held : List Nat)
    (t : PageTree), FrameWorld PML4 s → Paged PML4 (TableFrames PML4 s held) m t →
    ∀ addr n, 4096 ∣ addr → 1 ≤ n → addr + n < 2 ^ 44 →
      (∀ r ∈ identityPagingRequests pmemRequestFrame PML4 m addr n, GrantsTable PML4 r) →
      CoversRange PML4 m (identityPaging pmemRequestFrame PML4 m addr n) addr n := by
  intro h
  have hworld := tableWorld_fourFreeFrames.toFrameWorld
  have hcovers := h fourthPagePML4 fourFreeFrames fourFreeFrames [] RadixTree.empty hworld
    paged_fourFreeFrames 0x100000 8193 (by decide) (by decide) (by decide)
    requests_range_fourFreeFrames
  obtain ⟨_, _, _, hlast⟩ := hcovers.inside 0x102000 (by decide) (by decide)
  have haligned : 4096 ∣ 0x100000 := by decide
  have hbelow : 0x100000 + 4096 * 2 ≤ 2 ^ 44 := by decide
  obtain ⟨u, hpaged', hrange⟩ := rangeMapped_identityPages (TableFrames.allocatorSpec hworld [])
    paged_fourFreeFrames haligned hbelow fun i hi r hr => requests_range_fourFreeFrames r
      (List.mem_flatMap.mpr ⟨i, List.mem_range.mpr hi, hr⟩)
  have hnone : u (pathOf 0x102000) = none := hrange.outside 0x102000 (by decide)
  have hlast' : translate (identityPages pmemRequestFrame fourthPagePML4 fourFreeFrames 0x100000 2).1.mem
    fourthPagePML4 0x102000 = some 0x102000 := hlast
  rw [hpaged'.represents.translate_eq, hnone] at hlast'
  exact absurd hlast' (by simp)

end MyOSKernel
