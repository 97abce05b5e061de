import MyOSKernel.PagingEffects

/-! `map_vaddr_to_paddr` when the allocator runs out of frames on the way down. The code takes the
`NULL` it gets for the page at address 0, which it zeroes and installs as a table. -/

namespace MyOSKernel

open PhysicalMemory

section Walks
variable {next : PagingEntry → Option Nat} {mem mem' : Memory} {T T' : Nat} {q r : List Nat}

theorem walkTo_append : walkTo next mem T (q ++ r) =
    (walkTo next mem T q).bind fun T' => walkTo next mem T' r := by
  induction q generalizing T with
  | nil => rfl
  | cons i q ih =>
      rw [List.cons_append, walkTo, walkTo, Option.bind_assoc]
      exact Option.bind_congr fun T' _ => ih

/-- A walk only reads the entries on its way. -/
theorem walkTo_congr (h : ∀ q i T', q ++ [i] <+: r → walkTo next mem T q = some T' →
    loadEntry mem' (entryPtr T' i) = loadEntry mem (entryPtr T' i)) :
    walkTo next mem' T r = walkTo next mem T r := by
  induction r generalizing T with
  | nil => rfl
  | cons i r ih =>
      rw [walkTo, walkTo, h [] i T (by simp) rfl]
      refine Option.bind_congr fun T₁ hT₁ => ih fun q j T' hq hT' => h (i :: q) j T' ?_ ?_
      · rw [List.cons_append]
        exact List.cons_prefix_cons.mpr ⟨rfl, hq⟩
      · rw [walkTo, hT₁, Option.bind_some, hT']

/-- The page an entry maps that has `ps` set and leads to tables of `n` levels: its address and its
number of bits. -/
def largePage (n : Nat) (e : PagingEntry) : Option (Nat × Nat) :=
  if n ≤ 2 ∧ e.LargePage (12 + 9 * n) then some (e.largeAddr (12 + 9 * n), 12 + 9 * n) else none

/-- The page the processor arrives at from the table `T` along the indexes left, with its number of
bits. -/
def pageBehind (mem : Memory) : Nat → List Nat → Option (Nat × Nat)
  | T, [] => some (T, 12)
  | T, i :: r =>
      let e := loadEntry mem (entryPtr T i)
      if e.present = 0 then none
      else if r.length ≠ 0 ∧ e.ps = 1 then largePage r.length e
      else pageBehind mem e.physAddr r

theorem pageBehind_of_absent {i : Nat} (h : (loadEntry mem (entryPtr T i)).present = 0) :
    pageBehind mem T (i :: r) = none := if_pos h

theorem pageBehind_of_large {i n : Nat} (hr : r.length = n + 1)
    (h : (loadEntry mem (entryPtr T i)).present ≠ 0) (hps : (loadEntry mem (entryPtr T i)).ps = 1) :
    pageBehind mem T (i :: r) = largePage (n + 1) (loadEntry mem (entryPtr T i)) := by
  rw [pageBehind, if_neg h, hr, if_pos ⟨Nat.succ_ne_zero n, hps⟩]

theorem pageBehind_of_table {i : Nat} (h : (loadEntry mem (entryPtr T i)).present ≠ 0)
    (hps : ¬(r.length ≠ 0 ∧ (loadEntry mem (entryPtr T i)).ps = 1)) :
    pageBehind mem T (i :: r) = pageBehind mem (loadEntry mem (entryPtr T i)).physAddr r := by
  rw [pageBehind, if_neg h, if_neg hps]

theorem translate_eq_pageBehind (mem : Memory) (PML4 : PML4Table) (vaddr : Nat) :
    translate mem PML4 vaddr = (pageBehind mem PML4.addr (pathOf vaddr)).map
      fun page => page.1 + vaddr % 2 ^ page.2 := by
  unfold translate hardwareWalk pathOf
  dsimp only
  split_ifs with h4 hps4 h3 hps3 hlarge3 h2 hps2 hlarge2 h1
  · rw [pageBehind_of_absent h4]
    rfl
  · rw [pageBehind_of_large (n := 2) rfl h4 hps4, largePage, if_neg (by simp)]
    rfl
  · rw [pageBehind_of_table h4 fun hc => hps4 hc.2, pageBehind_of_absent h3]
    rfl
  · rw [pageBehind_of_table h4 fun hc => hps4 hc.2, pageBehind_of_large (n := 1) rfl h3 hps3, largePage,
      if_pos ⟨le_rfl, hlarge3⟩]
    rfl
  · rw [pageBehind_of_table h4 fun hc => hps4 hc.2, pageBehind_of_large (n := 1) rfl h3 hps3, largePage,
      if_neg fun hc => hlarge3 hc.2]
    rfl
  · rw [pageBehind_of_table h4 fun hc => hps4 hc.2, pageBehind_of_table h3 fun hc => hps3 hc.2,
      pageBehind_of_absent h2]
    rfl
  · rw [pageBehind_of_table h4 fun hc => hps4 hc.2, pageBehind_of_table h3 fun hc => hps3 hc.2,
      pageBehind_of_large (n := 0) rfl h2 hps2, largePage, if_pos ⟨by decide, hlarge2⟩]
    rfl
  · rw [pageBehind_of_table h4 fun hc => hps4 hc.2, pageBehind_of_table h3 fun hc => hps3 hc.2,
      pageBehind_of_large (n := 0) rfl h2 hps2, largePage, if_neg fun hc => hlarge2 hc.2]
    rfl
  · rw [pageBehind_of_table h4 fun hc => hps4 hc.2, pageBehind_of_table h3 fun hc => hps3 hc.2,
      pageBehind_of_table h2 fun hc => hps2 hc.2, pageBehind_of_absent h1]
    rfl
  · rw [pageBehind_of_table h4 fun hc => hps4 hc.2, pageBehind_of_table h3 fun hc => hps3 hc.2,
      pageBehind_of_table h2 fun hc => hps2 hc.2, pageBehind_of_table h1 fun hc => hc.1 rfl, pageBehind]
    rfl

/-- Past the tables of a path the walk goes on from the last of them. -/
theorem pageBehind_append (h : walkTo PagingEntry.hardwareTable mem T q = some T') :
    pageBehind mem T (q ++ r) = pageBehind mem T' r := by
  induction q generalizing T with
  | nil =>
      obtain rfl := Option.some.inj h
      rfl
  | cons i q ih =>
      obtain ⟨T₁, hnext, hrest⟩ := Option.bind_eq_some_iff.mp h
      unfold PagingEntry.hardwareTable at hnext
      split_ifs at hnext with hpresent hps
      obtain rfl := Option.some.inj hnext
      rw [List.cons_append, pageBehind_of_table hpresent fun hc => hps hc.2]
      exact ih hrest

/-- And only reads the entries on its way. -/
theorem pageBehind_congr (h : ∀ q i T', q ++ [i] <+: r →
      walkTo PagingEntry.hardwareTable mem T q = some T' →
      loadEntry mem' (entryPtr T' i) = loadEntry mem (entryPtr T' i)) :
    pageBehind mem' T r = pageBehind mem T r := by
  induction r generalizing T with
  | nil => rfl
  | cons i r ih =>
      rw [pageBehind, pageBehind, h [] i T (by simp) rfl]
      split_ifs with hpresent hps
      · rfl
      · rfl
      · cases r with
        | nil => rfl
        | cons k r =>
            refine ih fun q j T' hq hT' => h (i :: q) j T' ?_ ?_
            · rw [List.cons_append]
              exact List.cons_prefix_cons.mpr ⟨rfl, hq⟩
            · rw [walkTo, PagingEntry.hardwareTable_of_present hpresent
                fun hc => hps ⟨by simp, hc⟩, Option.bind_some, hT']

/-- Every path is that of an address. -/
theorem exists_pathOf (hlen : q.length = 4) (hlt : ∀ i ∈ q, i < 512) : ∃ vaddr, pathOf vaddr = q := by
  obtain ⟨i4, i3, i2, i1, rfl⟩ := List.length_eq_four.mp hlen
  have h4 := hlt i4 (by simp)
  have h3 := hlt i3 (by simp)
  have h2 := hlt i2 (by simp)
  have h1 := hlt i1 (by simp)
  refine ⟨(((i4 * 512 + i3) * 512 + i2) * 512 + i1) * 4096, ?_⟩
  simp only [pathOf, extractVaddrPagingIndexes_eq, List.cons.injEq, and_true]
  omega

end Walks

/-- How many tables the walk of an address misses, and the table it gets stuck in. -/
def stuck (mem : Memory) (PML4 : PML4Table) (vaddr : Nat) : Nat × Nat :=
  let indexes := extractVaddrPagingIndexes vaddr
  let pml4Entry := loadEntry mem (entryPtr PML4.addr indexes.pml4Entry)
  let pdptEntry := loadEntry mem (entryPtr pml4Entry.tableAddr indexes.pdptEntry)
  let pdEntry := loadEntry mem (entryPtr pdptEntry.tableAddr indexes.pdEntry)
  if pml4Entry.present = 0 then (3, PML4.addr)
  else if pdptEntry.present = 0 then (2, pml4Entry.tableAddr)
  else if pdEntry.present = 0 then (1, pdptEntry.tableAddr)
  else (0, pdEntry.tableAddr)

/-- The frame was free and has been locked. -/
def TakenFrame (m m' : Kernel) (j : Nat) : Prop :=
  j < m.pmem.frames ∧ getFrameState m j = FrameState.free.code ∧
    getFrameState m' j = FrameState.locked.code

/-- Every byte of the page at address 0 has been stored to. -/
def ZeroPageCleared (m m' : Kernel) : Prop :=
  ∃ new, m'.mem.writes = new ++ m.mem.writes ∧ ∀ a ∈ pageBytes 0, a ∈ new

/-- The page at address 0 has become a table on the path of the address. -/
def ZeroPageInstalled (PML4 : PML4Table) (m m' : Kernel) (vaddr : Nat) : Prop :=
  ∃ q, q <+: pathOf vaddr ∧ q.length < 4 ∧
    walkTo PagingEntry.hardwareTable m'.mem PML4.addr q = some 0 ∧
    walkTo PagingEntry.hardwareTable m.mem PML4.addr q ≠ some 0

/-- A mapping that failed has no effect: the translations are those of before, only entries on the
path and frames taken have changed, with the records of these in the array, and the page at address 0
has not been made a table unless it is one of these frames. -/
structure FailsAtomically (PML4 : PML4Table) (m m' : Kernel) (vaddr : Nat) : Prop where
  translation : ∀ v, translate m'.mem PML4 v = translate m.mem PML4 v
  bytes : ∀ a, m'.mem.byte a ≠ m.mem.byte a →
    (∃ ptr, PathEntry PML4 m.mem vaddr ptr ∧ a ∈ Set.Ico ptr (ptr + 8)) ∨
      ∃ j, TakenFrame m m' j ∧ (a ∈ pageBytes (getFrameAddr m j) ∨ a = m.pmem.statePtr j)
  zeroPage : (∃ j, TakenFrame m m' j ∧ getFrameAddr m j = 0) ∨
    ¬ZeroPageCleared m m' ∧ ¬ZeroPageInstalled PML4 m m' vaddr

/-- A machine with page tables: the frames are in order, the tables are represented, locked and apart
from the array, and the free frames are apart from the PML4 and fit an entry. -/
structure PageTableState (PML4 : PML4Table) (m : Kernel) (t : PageTree) : Prop
    extends FrameWorld PML4 m where
  represents : Represents PML4 m.mem t
  locked : ∀ T ∈ tables PML4 t, T = PML4.addr ∨ ∃ j < m.pmem.frames, getFrameAddr m j = T ∧
    getFrameState m j = FrameState.locked.code
  apart : ∀ T ∈ tables PML4 t, Disjoint (pageBytes T) m.pmem.arrayBytes
  freeRoot : ∀ j < m.pmem.frames, getFrameState m j = FrameState.free.code →
    getFrameAddr m j ≠ PML4.addr
  low : ∀ j < m.pmem.frames, getFrameState m j = FrameState.free.code → getFrameAddr m j < 2 ^ 44

/-- Every state the system reaches is one. -/
theorem SystemInvariant.pageTableState {PML4 : PML4Table} {s : Kernel} {h : Holding} {t : PageTree}
    (hworld : TableWorld PML4 s) (hinv : SystemInvariant PML4 s h t) :
    PageTableState PML4 h.kernel t := by
  have htf := hinv.allocator
  have hsame := htf.holding.same
  have hfree : ∀ j < h.kernel.pmem.frames, getFrameState h.kernel j = FrameState.free.code →
      j < s.pmem.frames ∧ getFrameAddr h.kernel j = getFrameAddr s j ∧
        getFrameState s j = FrameState.free.code := by
    intro j hj hstate
    have hj' : j < s.pmem.frames := htf.frames_eq ▸ hj
    exact ⟨hj', hsame.addr j hj', htf.holding.free j hj' hstate⟩
  refine ⟨⟨htf.holding.accounts, ?_, ?_, ?_, ?_⟩, hinv.represents, ?_, ?_, ?_, ?_⟩
  · intro j hj k hk heq
    have hj' : j < s.pmem.frames := htf.frames_eq ▸ hj
    have hk' : k < s.pmem.frames := htf.frames_eq ▸ hk
    refine hworld.distinct j hj' k hk' ?_
    rw [← hsame.addr j hj', ← hsame.addr k hk']
    exact heq
  · intro j hj
    have hj' : j < s.pmem.frames := htf.frames_eq ▸ hj
    rw [show getFrameAddr h.kernel j = _ from hsame.addr j hj']
    exact hworld.aligned j hj'
  · intro j hj hstate
    obtain ⟨hj', haddr, hstate'⟩ := hfree j hj hstate
    rw [haddr, htf.arrayBytes_eq]
    exact hworld.free j hj' hstate'
  · rw [htf.arrayBytes_eq]
    exact hworld.root
  · intro T hT
    rcases htf.locked T hT with hroot | ⟨j, hj, hja, hlocked, _⟩
    · exact Or.inl hroot
    · exact Or.inr ⟨j, htf.frames_eq ▸ hj, (hsame.addr j hj).trans hja, hlocked⟩
  · intro T hT
    rw [htf.arrayBytes_eq]
    exact htf.disjoint_array hworld.toFrameWorld hT
  · intro j hj hstate
    obtain ⟨hj', haddr, hstate'⟩ := hfree j hj hstate
    rw [haddr]
    exact hworld.addr_ne_root hj' hstate'
  · intro j hj hstate
    obtain ⟨hj', haddr, _⟩ := hfree j hj hstate
    rw [haddr]
    exact (hworld.low j hj').trans (by decide)

/-- `F` is the address of a free frame. -/
def FreeFrame (m : Kernel) (F : Nat) : Prop :=
  ∃ j < m.pmem.frames, getFrameState m j = FrameState.free.code ∧ getFrameAddr m j = F

/-- A page that has no byte in common with the array. -/
structure ApartPage (m : Kernel) (T : Nat) : Prop where
  aligned : 4096 ∣ T
  inSpace : T + 4096 ≤ 2 ^ 64
  apart : Disjoint (pageBytes T) m.pmem.arrayBytes

namespace PageTableState
variable {PML4 : PML4Table} {m : Kernel} {t : PageTree} {T F : Nat}

theorem apart_free (h : PageTableState PML4 m t) (hF : FreeFrame m F) : ApartPage m F := by
  obtain ⟨j, hj, hstate, rfl⟩ := hF
  have haligned := h.aligned j hj
  have hlow := h.low j hj hstate
  exact ⟨haligned, by omega, h.free j hj hstate⟩

theorem apart_table (h : PageTableState PML4 m t) (hT : T ∈ tables PML4 t) : ApartPage m T :=
  ⟨(h.represents.table_bounds hT).1, (h.represents.table_bounds hT).2, h.apart T hT⟩

/-- A free frame is not a table. -/
theorem free_notMem (h : PageTableState PML4 m t) (hF : FreeFrame m F) : F ∉ tables PML4 t := by
  intro hmem
  obtain ⟨j, hj, hstate, rfl⟩ := hF
  rcases h.locked _ hmem with hroot | ⟨k, hk, hkj, hlocked⟩
  · exact h.freeRoot j hj hstate hroot
  · obtain rfl := h.distinct k hk j hj hkj
    rw [hstate] at hlocked
    exact absurd hlocked (by decide)

end PageTableState

/-- What the code has reached from `m` on, having been granted the frames `J`, when it has stored
outside the array to the bytes `e` and to pages of frames that were free in `m`. -/
structure Reached (m : Kernel) (e : Set Nat) (J : List Nat) (m' : Kernel) : Prop where
  accounts : Accounts m'
  same : SameFrames m m'
  granted : ∀ j ∈ J, j < m.pmem.frames ∧ getFrameState m j = FrameState.free.code
  states : ∀ j < m.pmem.frames,
    getFrameState m' j = if j ∈ J then FrameState.locked.code else getFrameState m j
  bytes : ∀ a ∉ e, (∀ j < m.pmem.frames, a ≠ m.pmem.statePtr j) →
    (∀ F, FreeFrame m F → a ∉ pageBytes F) → m'.mem.byte a = m.mem.byte a

namespace Reached
variable {PML4 : PML4Table} {m m' m'' : Kernel} {t : PageTree} {e : Set Nat} {J : List Nat}
  {T F i : Nat}

theorem refl (h : Accounts m) (e : Set Nat) : Reached m e [] m :=
  ⟨h, .refl m, fun _ hj => absurd hj List.not_mem_nil, fun _ _ => by simp, fun _ _ _ _ => rfl⟩

/-- With no frame left nothing is granted. -/
theorem request_null (hfree : m'.pmem.freeFrames = 0) : pmemRequestFrame m' = (0, m') := if_pos hfree

/-- Else a frame is that was free in `m`. -/
theorem request (h : Reached m e J m') (hfree : m'.pmem.freeFrames ≠ 0) :
    ∃ j, FreeFrame m (pmemRequestFrame m').1 ∧ getFrameAddr m j = (pmemRequestFrame m').1 ∧ j ∉ J ∧
      Reached m e (j :: J) (pmemRequestFrame m').2 ∧
      (pmemRequestFrame m').2.pmem.freeFrames + 1 = m'.pmem.freeFrames ∧
      ∀ T, ApartPage m T →
        Set.EqOn (pmemRequestFrame m').2.mem.byte m'.mem.byte (pageBytes T) := by
  rcases h.accounts.request_cases with ⟨_, hzero, _⟩ | ⟨j, hj, _, _, hm, haddr⟩
  · exact absurd hzero hfree
  · have hj' : j < m.pmem.frames := h.same.frames ▸ hj
    have hstate := h.states j hj'
    rw [hm.was] at hstate
    have hJ : j ∉ J := by
      intro hc
      rw [if_pos hc] at hstate
      exact absurd hstate (by decide)
    rw [if_neg hJ] at hstate
    have haddr' : getFrameAddr m j = (pmemRequestFrame m').1 := (haddr.trans (h.same.addr j hj')).symm
    refine ⟨j, ⟨j, hj', hstate.symm, haddr'⟩, haddr', hJ, ⟨h.accounts.request,
      h.same.trans (.request h.accounts), ?_, ?_, ?_⟩, ?_, ?_⟩
    · intro k hk
      rcases List.mem_cons.mp hk with rfl | hk
      · exact ⟨hj', hstate.symm⟩
      · exact h.granted k hk
    · intro k hk
      rw [hm.state k (h.same.frames ▸ hk), h.states k hk]
      by_cases hkj : k = j
      · rw [if_pos hkj, if_pos (List.mem_cons.mpr (Or.inl hkj))]
      · rw [if_neg hkj]
        simp only [List.mem_cons, hkj, false_or]
    · intro a hae hastate hafree
      refine (hm.byte a ?_).trans (h.bytes a hae hastate hafree)
      rw [h.same.statePtr_eq]
      exact hastate j hj'
    · exact h.accounts.counter_moved (by decide) hj hm .free
    · intro T hT a ha
      apply hm.byte
      rintro rfl
      refine Set.disjoint_left.mp hT.apart ha ?_
      rw [h.same.statePtr_eq]
      exact statePtr_mem (h.same.fits_iff.mp h.accounts.fits) hj'

/-- Stores to `e` and to pages of free frames. -/
theorem write (h : Reached m e J m') (he : Disjoint e m.pmem.arrayBytes)
    (hfreeApart : ∀ F, FreeFrame m F → ApartPage m F) (hpmem : m''.pmem = m'.pmem)
    (hbytes : ∀ a ∉ e, (∀ F, FreeFrame m F → a ∉ pageBytes F) → m''.mem.byte a = m'.mem.byte a) :
    Reached m e J m'' := by
  have harray : Set.EqOn m''.mem.byte m'.mem.byte m'.pmem.arrayBytes := by
    rw [h.same.arrayBytes_eq]
    intro a ha
    exact hbytes a (fun hc => Set.disjoint_left.mp he hc ha)
      fun F hF hc => Set.disjoint_left.mp (hfreeApart F hF).apart hc ha
  refine ⟨h.accounts.of_eqOn hpmem harray, h.same.trans (.of_eqOn h.accounts.fits hpmem harray),
    h.granted, fun j hj => ?_, fun a hae hastate hafree =>
      (hbytes a hae hafree).trans (h.bytes a hae hastate hafree)⟩
  rw [getFrameState_of_eqOn h.accounts.fits (h.same.frames ▸ hj) hpmem harray]
  exact h.states j hj

end Reached

/-- One call of the allocator: with a frame left it is granted, and with none the page at address 0 is
taken for one. -/
structure Requested (m : Kernel) (e : Set Nat) (J : List Nat) (m' : Kernel) (F : Nat) (r : Kernel) :
    Prop where
  eq : pmemRequestFrame m' = (F, r)
  reached : Reached m e J r
  pages : ∀ T, ApartPage m T → Set.EqOn r.mem.byte m'.mem.byte (pageBytes T)
  apart : ApartPage m F

/-- One table created: `next` is what the level returns. -/
structure Created (m : Kernel) (e : Set Nat) (J : List Nat) (m' : Kernel) (T i F : Nat) (r : Kernel)
    (next : Nat × Kernel) : Prop where
  table : next.1 = F
  pmem : next.2.pmem = r.pmem
  reached : Reached m e J next.2
  entry : ∀ T' j, ApartPage m T' → j < 512 → loadEntry next.2.mem (entryPtr T' j) =
    if T' = T ∧ j = i then PagingEntry.linked (BitVec.ofNat 32 (F >>> 12))
    else if T' = F then PagingEntry.blank else loadEntry m'.mem (entryPtr T' j)

section Create
variable {PML4 : PML4Table} {m m' r : Kernel} {t : PageTree} {e : Set Nat} {J : List Nat}
  {T F i : Nat}

/-- A granted frame. -/
theorem Reached.requested (hm : PageTableState PML4 m t) (h : Reached m e J m')
    (hfree : m'.pmem.freeFrames ≠ 0) :
    ∃ j F r, FreeFrame m F ∧ getFrameAddr m j = F ∧ j ∉ J ∧ Requested m e (j :: J) m' F r ∧
      r.pmem.freeFrames + 1 = m'.pmem.freeFrames := by
  obtain ⟨j, hF, haddr, hJ, hreached, hcount, hpages⟩ := h.request hfree
  exact ⟨j, _, _, hF, haddr, hJ, ⟨rfl, hreached, hpages, hm.apart_free hF⟩, hcount⟩

/-- `NULL` for a frame, the page at address 0 being apart from the array. -/
theorem Reached.requested_null (h : Reached m e J m') (hfree : m'.pmem.freeFrames = 0)
    (hzero : ApartPage m 0) : Requested m e J m' 0 m' :=
  ⟨request_null hfree, h, fun _ _ => Set.eqOn_refl _ _, hzero⟩

/-- The level above links the page it was given, which is blank then. -/
theorem Requested.create (hm : PageTableState PML4 m t) (h : Requested m e J m' F r)
    (he : Disjoint e m.pmem.arrayBytes) (hF : FreeFrame m F) (hT : ApartPage m T) (hi : i < 512)
    (hblank : loadEntry m'.mem (entryPtr T i) = PagingEntry.blank)
    (hin : FreeFrame m T ∨ Set.Ico (entryPtr T i) (entryPtr T i + 8) ⊆ e) :
    Created m e J m' T i F r (nextTable pmemRequestFrame m' T i) := by
  have hpages {T' j : Nat} (hT' : ApartPage m T') (hj : j < 512) :
      loadEntry r.mem (entryPtr T' j) = loadEntry m'.mem (entryPtr T' j) :=
    loadEntry_congr ((h.pages T' hT').mono (entry_subset_page hT'.inSpace hj))
  unfold nextTable
  rw [hblank, if_pos PagingEntry.present_blank, h.eq]
  refine ⟨rfl, rfl, ?_, ?_⟩
  · refine h.reached.write he (fun _ => hm.apart_free) rfl fun a hae hafree => ?_
    have hentry : a ∉ Set.Ico (entryPtr T i) (entryPtr T i + 8) := by
      intro hc
      rcases hin with hfree | hsub
      · exact hafree T hfree (entry_subset_page hT.inSpace hi hc)
      · exact hae (hsub hc)
    exact (storeEntry_byte_of_notMem hentry).trans
      (memset_byte_of_notMem h.apart.inSpace (hafree F hF))
  · intro T' j hT' hj
    rw [loadEntry_linkEntry hT.aligned hT'.aligned hT.inSpace hT'.inSpace hi hj,
      loadEntry_memset h.apart.aligned hT.aligned h.apart.inSpace hT.inSpace hi,
      loadEntry_memset h.apart.aligned hT'.aligned h.apart.inSpace hT'.inSpace hj, hpages hT hi,
      hpages hT' hj, hblank, ite_self, PagingEntry.link_blank]

/-- A level that is granted a frame. -/
theorem Reached.create (hm : PageTableState PML4 m t) (h : Reached m e J m')
    (he : Disjoint e m.pmem.arrayBytes) (hT : ApartPage m T) (hi : i < 512)
    (hblank : loadEntry m'.mem (entryPtr T i) = PagingEntry.blank)
    (hin : FreeFrame m T ∨ Set.Ico (entryPtr T i) (entryPtr T i + 8) ⊆ e)
    (hfree : m'.pmem.freeFrames ≠ 0) :
    ∃ j F r, (pmemRequestFrame m').1 = F ∧ FreeFrame m F ∧ getFrameAddr m j = F ∧ j ∉ J ∧
      Created m e (j :: J) m' T i F r (nextTable pmemRequestFrame m' T i) ∧
      (nextTable pmemRequestFrame m' T i).2.pmem.freeFrames + 1 = m'.pmem.freeFrames := by
  obtain ⟨j, F, r, hF, haddr, hJ, hrequested, hcount⟩ := h.requested hm hfree
  have hcreated := hrequested.create hm he hF hT hi hblank hin
  exact ⟨j, F, r, congrArg Prod.fst hrequested.eq, hF, haddr, hJ, hcreated,
    by rw [hcreated.pmem]; exact hcount⟩

end Create

section Writes
variable {PML4 : PML4Table} {m m' : Kernel} {T i : Nat}

theorem suffix_writes_request (m : Kernel) : m.mem.writes <:+ (pmemRequestFrame m).2.mem.writes := by
  unfold pmemRequestFrame
  split_ifs
  · exact List.suffix_refl _
  · cases hfirst : firstFree m with
    | none => exact List.suffix_refl _
    | some j =>
        dsimp only
        rw [lockFrame, moveFrame_of_eq (firstFree_eq_some_iff.mp hfirst).2.1]
        exact List.suffix_cons _ _

theorem suffix_writes_memset {mem : Memory} {ptr n : Nat} {v : UInt8} :
    mem.writes <:+ (memset mem ptr v n).writes := by
  induction n generalizing mem ptr with
  | zero => exact List.suffix_refl _
  | succ n ih => exact (List.suffix_cons ptr mem.writes).trans (@ih (mem.store ptr v) _)

theorem suffix_writes_nextTable (m : Kernel) (T i : Nat) :
    m.mem.writes <:+ (nextTable pmemRequestFrame m T i).2.mem.writes := by
  unfold nextTable
  split_ifs
  · exact ((suffix_writes_request m).trans suffix_writes_memset).trans
      (Memory.suffix_writes_storeLE _)
  · exact List.suffix_refl _

theorem suffix_writes_map (m : Kernel) (vaddr paddr : Nat) :
    (descendPT pmemRequestFrame PML4 m vaddr).2.mem.writes <:+
      (mapVaddrToPaddr pmemRequestFrame PML4 m vaddr paddr).mem.writes :=
  Memory.suffix_writes_storeLE _

/-- With no frame left the page at address 0 is cleared. -/
theorem zeroPageCleared_nextTable (hfree : m.pmem.freeFrames = 0)
    (hblank : loadEntry m.mem (entryPtr T i) = PagingEntry.blank) :
    ZeroPageCleared m (nextTable pmemRequestFrame m T i).2 := by
  unfold nextTable
  rw [hblank, if_pos PagingEntry.present_blank, Reached.request_null hfree]
  obtain ⟨link, hlink⟩ := Memory.suffix_writes_storeLE (m := memset m.mem 0 0 pageSz)
    (a := entryPtr T i) (n := 8)
    ((loadEntry (memset m.mem 0 0 pageSz) (entryPtr T i)).link 0).toWord
  refine ⟨link ++ ((List.range pageSz).map fun i => (0 + i) % 2 ^ 64).reverse, ?_, fun a ha => ?_⟩
  · rw [List.append_assoc, ← memset_writes (by decide)]
    exact hlink.symm
  · have hlt : a < 4096 := by
      have := ha.2
      omega
    refine List.mem_append_right _ (List.mem_reverse.mpr (List.mem_map.mpr ⟨a, ?_, ?_⟩))
    · exact List.mem_range.mpr hlt
    · rw [Nat.zero_add]
      exact Nat.mod_eq_of_lt (by omega)

theorem ZeroPageCleared.mono {m₀ m₁ : Kernel} (h : ZeroPageCleared m m')
    (hbefore : m₀.mem.writes <:+ m.mem.writes) (hafter : m'.mem.writes <:+ m₁.mem.writes) :
    ZeroPageCleared m₀ m₁ := by
  obtain ⟨new, hnew, hpage⟩ := h
  obtain ⟨before, hbefore⟩ := hbefore
  obtain ⟨after, hafter⟩ := hafter
  refine ⟨after ++ new ++ before, ?_, fun a ha =>
    List.mem_append_left _ (List.mem_append_right _ (hpage a ha))⟩
  rw [← hafter, hnew, ← hbefore, List.append_assoc, List.append_assoc]

end Writes

/-- The empty slot `q ++ [i]` of the table `T` at path `q`. -/
structure EmptySlot (PML4 : PML4Table) (t : PageTree) (q : List Nat) (i T : Nat) : Prop where
  table : tableAt PML4 t q = some T
  depth : q.length < 3
  index : i < 512
  empty : t (q ++ [i]) = none

theorem EmptySlot.blank {PML4 : PML4Table} {mem : Memory} {t : PageTree} {q : List Nat} {i T : Nat}
    (h : EmptySlot PML4 t q i T) (hrep : Represents PML4 mem t) :
    loadEntry mem (entryPtr T i) = PagingEntry.blank := by
  rw [hrep.entry q T (by have := h.depth; omega) h.table i h.index, h.empty]
  rfl

theorem EmptySlot.mem_tables {PML4 : PML4Table} {t : PageTree} {q : List Nat} {i T : Nat}
    (h : EmptySlot PML4 t q i T) : T ∈ tables PML4 t :=
  MyOSKernel.mem_tables (by have := h.depth; omega) h.table

/-- The levels of the descent along a list of indexes. -/
def descendFrom {σ : Type} (request : Machine σ → Nat × Machine σ) :
    Nat × Machine σ → List Nat → Nat × Machine σ
  | s, [] => s
  | s, i :: is => descendFrom request (nextTable request s.2 s.1 i) is

/-- A walk that misses tables gets stuck at an empty slot, and the code descends from there. -/
theorem exists_slot_of_stuck {σ : Type} (request : Machine σ → Nat × Machine σ) {PML4 : PML4Table}
    {m : Machine σ} {t : PageTree} (h : Represents PML4 m.mem t) {vaddr : Nat}
    (hstuck : 0 < (stuck m.mem PML4 vaddr).1) :
    ∃ q i is T, stuck m.mem PML4 vaddr = (is.length + 1, T) ∧ EmptySlot PML4 t q i T ∧
      descendPT request PML4 m vaddr = descendFrom request (T, m) (i :: is) ∧
      q ++ i :: is ++ [(extractVaddrPagingIndexes vaddr).ptEntry] = pathOf vaddr ∧
      (is = [] ∨ is = [(extractVaddrPagingIndexes vaddr).pdEntry] ∨
        is = [(extractVaddrPagingIndexes vaddr).pdptEntry, (extractVaddrPagingIndexes vaddr).pdEntry]) := by
  obtain ⟨h4, h3, h2, _⟩ := indexes_lt vaddr
  unfold stuck at hstuck ⊢
  unfold descendPT descendPD descendPDPT pathOf
  set indexes := extractVaddrPagingIndexes vaddr
  have he4 := h.entry [] PML4.addr (by simp) tableAt_nil _ h4
  rw [List.nil_append] at he4
  cases hx4 : t [indexes.pml4Entry] with
  | none =>
      rw [hx4] at he4
      exact ⟨[], indexes.pml4Entry, [indexes.pdptEntry, indexes.pdEntry], PML4.addr,
        by simp only [he4]; rfl, ⟨tableAt_nil, by simp, h4, hx4⟩, rfl, rfl,
        Or.inr (Or.inr rfl)⟩
  | some x4 =>
      rw [hx4] at he4
      have hlow4 := h.low _ _ (by simp) hx4
      have hT4 : tableAt PML4 t [indexes.pml4Entry] = some (x4.toNat * 4096) := by
        rw [tableAt_of_ne_nil (by simp), hx4]
        rfl
      have he3 := h.entry [indexes.pml4Entry] _ (by simp) hT4 _ h3
      obtain ⟨hnext4, _⟩ := nextTable_of_present request hlow4 he4
      simp only [he4, entryOf, PagingEntry.present_linked, PagingEntry.tableAddr_linked hlow4,
        hnext4] at hstuck ⊢
      rw [List.singleton_append] at he3
      cases hx3 : t [indexes.pml4Entry, indexes.pdptEntry] with
      | none =>
          rw [hx3] at he3
          exact ⟨[indexes.pml4Entry], indexes.pdptEntry, [indexes.pdEntry], x4.toNat * 4096,
            by rw [he3]; rfl, ⟨hT4, by simp, h3, hx3⟩, rfl, rfl, Or.inr (Or.inl rfl)⟩
      | some x3 =>
          rw [hx3] at he3
          have hlow3 := h.low _ _ (by simp) hx3
          have hT3 : tableAt PML4 t [indexes.pml4Entry, indexes.pdptEntry] =
              some (x3.toNat * 4096) := by
            rw [tableAt_of_ne_nil (by simp), hx3]
            rfl
          have he2 := h.entry [indexes.pml4Entry, indexes.pdptEntry] _ (by simp) hT3 _ h2
          obtain ⟨hnext3, _⟩ := nextTable_of_present request hlow3 he3
          simp only [he3, entryOf, PagingEntry.present_linked, PagingEntry.tableAddr_linked hlow3,
            hnext3] at hstuck ⊢
          rw [List.cons_append, List.singleton_append] at he2
          cases hx2 : t [indexes.pml4Entry, indexes.pdptEntry, indexes.pdEntry] with
          | none =>
              rw [hx2] at he2
              exact ⟨[indexes.pml4Entry, indexes.pdptEntry], indexes.pdEntry, [], x3.toNat * 4096,
                by rw [he2]; rfl, ⟨hT3, by simp, h2, hx2⟩, rfl, rfl, Or.inl rfl⟩
          | some x2 =>
              rw [hx2] at he2
              simp [he2, entryOf] at hstuck

section Cleared
variable {PML4 : PML4Table} {m m' : Kernel} {t : PageTree} {vaddr paddr : Nat} {q : List Nat}
  {i T : Nat}

/-- The bytes of the entry the walk gets stuck at. -/
def slotBytes (T i : Nat) : Set Nat := Set.Ico (entryPtr T i) (entryPtr T i + 8)

theorem EmptySlot.disjoint_array (hslot : EmptySlot PML4 t q i T) (hm : PageTableState PML4 m t) :
    Disjoint (slotBytes T i) m.pmem.arrayBytes :=
  (hm.apart T hslot.mem_tables).mono_left
    (entry_subset_page (hm.represents.table_bounds hslot.mem_tables).2 hslot.index)

/-- A frame that was free is not the table the walk gets stuck in. -/
theorem EmptySlot.ne_free (hslot : EmptySlot PML4 t q i T) (hm : PageTableState PML4 m t) {F : Nat}
    (hF : FreeFrame m F) : F ≠ T := by
  rintro rfl
  exact hm.free_notMem hF hslot.mem_tables

/-- A table on the way down: the one the walk gets stuck in, or a frame granted. -/
def OnTheWay (m : Kernel) (J : List Nat) (T₀ i₀ T i : Nat) : Prop :=
  (T = T₀ ∧ i = i₀) ∨ ∃ j ∈ J, j < m.pmem.frames ∧ getFrameState m j = FrameState.free.code ∧
    getFrameAddr m j = T

section OnTheWay
variable {J : List Nat} {T' i' F j : Nat}

theorem OnTheWay.apart (h : OnTheWay m J T i T' i') (hslot : EmptySlot PML4 t q i T)
    (hm : PageTableState PML4 m t) : ApartPage m T' := by
  rcases h with ⟨rfl, _⟩ | ⟨j, _, hj⟩
  · exact hm.apart_table hslot.mem_tables
  · exact hm.apart_free ⟨j, hj⟩

theorem OnTheWay.inFree (h : OnTheWay m J T i T' i') :
    FreeFrame m T' ∨ slotBytes T' i' ⊆ slotBytes T i := by
  rcases h with ⟨rfl, rfl⟩ | ⟨j, _, hj⟩
  · exact Or.inr (Set.Subset.refl _)
  · exact Or.inl ⟨j, hj⟩

/-- A frame granted now is another page. -/
theorem OnTheWay.ne_granted (h : OnTheWay m J T i T' i') (hslot : EmptySlot PML4 t q i T)
    (hm : PageTableState PML4 m t) (hj : j < m.pmem.frames)
    (hfree : getFrameState m j = FrameState.free.code) (hJ : j ∉ J) : getFrameAddr m j ≠ T' := by
  rcases h with ⟨rfl, _⟩ | ⟨k, hk, hk', _, rfl⟩
  · exact hslot.ne_free hm ⟨j, hj, hfree, rfl⟩
  · intro hc
    obtain rfl := hm.distinct j hj k hk' hc
    exact hJ hk

end OnTheWay

theorem suffix_writes_descendFrom (s : Nat × Kernel) (is : List Nat) :
    s.2.mem.writes <:+ (descendFrom pmemRequestFrame s is).2.mem.writes := by
  induction is generalizing s with
  | nil => exact List.suffix_refl _
  | cons i is ih => exact (suffix_writes_nextTable s.2 s.1 i).trans (ih _)

/-- With fewer frames left than levels to go a level clears the page at address 0. -/
theorem zeroPageCleared_descendFrom (hm : PageTableState PML4 m t) (hslot : EmptySlot PML4 t q i T)
    {J : List Nat} {s : Nat × Kernel} {i' : Nat} {is : List Nat}
    (h : Reached m (slotBytes T i) J s.2) (hway : OnTheWay m J T i s.1 i')
    (his : ∀ k ∈ i' :: is, k < 512)
    (hblank : loadEntry s.2.mem (entryPtr s.1 i') = PagingEntry.blank)
    (hfew : s.2.pmem.freeFrames < is.length + 1) :
    ZeroPageCleared s.2 (descendFrom pmemRequestFrame s (i' :: is)).2 := by
  induction is generalizing J s i' with
  | nil =>
      exact zeroPageCleared_nextTable (Nat.lt_one_iff.mp hfew) hblank
  | cons k is ih =>
      by_cases hfree : s.2.pmem.freeFrames = 0
      · exact (zeroPageCleared_nextTable hfree hblank).mono (List.suffix_refl _)
          (suffix_writes_descendFrom _ _)
      · obtain ⟨j, F, r, _, hF, haddr, hJ, hcreated, hcount⟩ := h.create hm (hslot.disjoint_array hm)
          (hway.apart hslot hm) (his i' (by simp)) hblank hway.inFree hfree
        obtain ⟨hj, hstate⟩ := hcreated.reached.granted j List.mem_cons_self
        refine ZeroPageCleared.mono ?_ (suffix_writes_nextTable s.2 s.1 i') (List.suffix_refl _)
        refine ih hcreated.reached ?_ (fun l hl => his l (List.mem_cons_of_mem _ hl)) ?_ ?_
        · rw [hcreated.table, ← haddr]
          exact Or.inr ⟨j, List.mem_cons_self, hj, hstate, rfl⟩
        · rw [hcreated.table, hcreated.entry F k (hm.apart_free hF) (his k (by simp)),
            if_neg fun hc => hway.ne_granted hslot hm hj hstate hJ (haddr.trans hc.1), if_pos rfl]
        · rw [List.length_cons] at hfew
          omega

/-- With fewer free frames than tables to create the call clears the page at address 0. -/
theorem zeroPageCleared_map (hm : PageTableState PML4 m t)
    (hfew : m.pmem.freeFrames < (stuck m.mem PML4 vaddr).1) :
    ZeroPageCleared m (mapVaddrToPaddr pmemRequestFrame PML4 m vaddr paddr) := by
  obtain ⟨q, i, is, T, hstuck, hslot, hdescend, hpath, _⟩ :=
    exists_slot_of_stuck pmemRequestFrame hm.represents (Nat.zero_lt_of_lt hfew)
  refine ZeroPageCleared.mono ?_ (List.suffix_refl _) (suffix_writes_map m vaddr paddr)
  rw [hdescend]
  refine zeroPageCleared_descendFrom hm hslot (Reached.refl hm.accounts _) (Or.inl ⟨rfl, rfl⟩) ?_
    (hslot.blank hm.represents) (by rw [hstuck] at hfew; exact hfew)
  intro k hk
  refine pathOf_lt vaddr k ?_
  rw [← hpath]
  exact List.mem_append_left _ (List.mem_append_right _ hk)

/-- So the failure is not atomic unless that page is a free frame. -/
theorem not_failsAtomically (hm : PageTableState PML4 m t)
    (hfew : m.pmem.freeFrames < (stuck m.mem PML4 vaddr).1) (hzero : ¬FreeFrame m 0) :
    ¬FailsAtomically PML4 m (mapVaddrToPaddr pmemRequestFrame PML4 m vaddr paddr) vaddr := by
  intro h
  obtain ⟨_, _, ⟨j, ⟨hj, hfree, _⟩, haddr⟩ | ⟨hcleared, _⟩⟩ := h
  · exact hzero ⟨j, hj, hfree, haddr⟩
  · exact hcleared (zeroPageCleared_map hm hfew)

end Cleared

end MyOSKernel
