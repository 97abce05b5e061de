import MyOSKernel.PagingMap

/-! Page tables built with an allocator that hands out given frames one after the other. Any sequence
of calls from an empty PML4 refines the finite map from pages to page frames in which the last write
wins, and the walk of the kernel and the walk of the processor agree as long as the frames lie below
`2^32`. -/

namespace MyOSKernel

/-- Hands out `frame 0`, `frame 1`, … and leaves the memory alone; its state counts the requests. -/
def frameSource (frame : Nat → Nat) (m : Machine Nat) : Nat × Machine Nat :=
  (frame m.pmem, { m with pmem := m.pmem + 1 })

section Source
variable {frame : Nat → Nat} {PML4 : PML4Table} {m : Machine Nat} {count : Nat}

/-- The frames handed out from number `first` on and before number `count` are pairwise distinct
aligned pages, none of them the PML4. -/
structure DistinctFrames (frame : Nat → Nat) (PML4 : PML4Table) (first count : Nat) : Prop where
  aligned : ∀ n, first ≤ n → n < count → 4096 ∣ frame n
  notRoot : ∀ n, first ≤ n → n < count → frame n ≠ PML4.addr
  distinct : ∀ n k, first ≤ n → n < count → first ≤ k → k < count → frame n = frame k → n = k

/-- And they lie below `2^32`. -/
structure GoodFrames (frame : Nat → Nat) (PML4 : PML4Table) (first count : Nat) : Prop
    extends DistinctFrames frame PML4 first count where
  low : ∀ n, first ≤ n → n < count → frame n < 2 ^ 32

/-- The tables in use are the PML4 and frames handed out before. -/
def HandedOut (frame : Nat → Nat) (PML4 : PML4Table) (first : Nat) (S : Set Nat) (m : Machine Nat) :
    Prop :=
  first ≤ m.pmem ∧ ∀ T ∈ S, T = PML4.addr ∨ ∃ n, first ≤ n ∧ n < m.pmem ∧ T = frame n

theorem frameSource_spec {first : Nat} (h : GoodFrames frame PML4 first count) :
    AllocatorSpec (frameSource frame) (HandedOut frame PML4 first) fun m => m.pmem < count where
  aligned _ m hinv hok := h.aligned m.pmem hinv.1 hok
  low _ m hinv hok := h.low m.pmem hinv.1 hok
  fresh S m hinv hok := by
    intro hmem
    rcases hinv.2 _ hmem with hroot | ⟨n, hn, hlt, heq⟩
    · exact h.notRoot m.pmem hinv.1 hok hroot
    · have := h.distinct m.pmem n hinv.1 hok hn (hlt.trans hok) heq
      omega
  keeps _ _ _ _ _ _ := fun _ _ => rfl
  granted S m hinv _ := by
    refine ⟨Nat.le_succ_of_le hinv.1, ?_⟩
    intro T hc
    obtain rfl | hT := hc
    · exact Or.inr ⟨m.pmem, hinv.1, Nat.lt_succ_self _, rfl⟩
    · rcases hinv.2 T hT with hroot | ⟨n, hn, hlt, heq⟩
      · exact Or.inl hroot
      · exact Or.inr ⟨n, hn, Nat.lt_succ_of_lt hlt, heq⟩
  stable S m m' hinv hpmem _ := by
    unfold HandedOut
    rw [hpmem]
    exact hinv

/-- A level asks for at most one frame, and the machine it asks in has handed out fewer than are
handed out afterwards. -/
theorem nextTable_frameSource (frame : Nat → Nat) (m : Machine Nat) (table index : Nat) :
    m.pmem ≤ (nextTable (frameSource frame) m table index).2.pmem ∧
      (nextTable (frameSource frame) m table index).2.pmem ≤ m.pmem + 1 ∧
      ∀ s ∈ missing m table index, s.pmem < (nextTable (frameSource frame) m table index).2.pmem := by
  unfold nextTable missing
  split_ifs
  · refine ⟨Nat.le_succ _, le_rfl, fun s hs => ?_⟩
    obtain rfl := List.mem_singleton.mp hs
    exact Nat.lt_succ_self _
  · exact ⟨le_rfl, Nat.le_succ _, fun s hs => absurd hs List.not_mem_nil⟩

theorem mapVaddrToPaddr_frameSource (frame : Nat → Nat) (PML4 : PML4Table) (m : Machine Nat)
    (vaddr paddr : Nat) :
    m.pmem ≤ (mapVaddrToPaddr (frameSource frame) PML4 m vaddr paddr).pmem ∧
      (mapVaddrToPaddr (frameSource frame) PML4 m vaddr paddr).pmem ≤ m.pmem + 3 ∧
      ∀ s ∈ requestsOf (frameSource frame) PML4 m vaddr,
        s.pmem < (mapVaddrToPaddr (frameSource frame) PML4 m vaddr paddr).pmem := by
  obtain ⟨hPDPT, hPDPT1, hPDPT'⟩ := nextTable_frameSource frame m PML4.addr
    (extractVaddrPagingIndexes vaddr).pml4Entry
  obtain ⟨hPD, hPD1, hPD'⟩ := nextTable_frameSource frame
    (descendPDPT (frameSource frame) PML4 m vaddr).2
    (descendPDPT (frameSource frame) PML4 m vaddr).1 (extractVaddrPagingIndexes vaddr).pdptEntry
  obtain ⟨hPT, hPT1, hPT'⟩ := nextTable_frameSource frame
    (descendPD (frameSource frame) PML4 m vaddr).2
    (descendPD (frameSource frame) PML4 m vaddr).1 (extractVaddrPagingIndexes vaddr).pdEntry
  rw [mapVaddrToPaddr_pmem]
  refine ⟨(hPDPT.trans hPD).trans hPT, ?_, fun s hs => ?_⟩
  · exact hPT1.trans (Nat.add_le_add_right (hPD1.trans (Nat.add_le_add_right hPDPT1 1)) 1)
  simp only [requestsOf, List.mem_append] at hs
  rcases hs with (hs | hs) | hs
  · exact ((hPDPT' s hs).trans_le hPD).trans_le hPT
  · exact (hPD' s hs).trans_le hPT
  · exact hPT' s hs

/-- A call takes at most three frames. -/
theorem runCalls_frameSource_count (calls : List MapCall) :
    m.pmem ≤ (runCalls (frameSource frame) PML4 m calls).pmem ∧
      (runCalls (frameSource frame) PML4 m calls).pmem ≤ m.pmem + 3 * calls.length := by
  induction calls using List.reverseRecOn with
  | nil => exact ⟨le_rfl, le_rfl⟩
  | append_singleton calls c ih =>
      have hcall := mapVaddrToPaddr_frameSource frame PML4
        (runCalls (frameSource frame) PML4 m calls) c.vaddr c.paddr
      rw [runCalls_append_singleton, List.length_append, List.length_singleton]
      omega

theorem runCalls_append (calls calls' : List MapCall) {σ : Type}
    (request : Machine σ → Nat × Machine σ) (m : Machine σ) :
    runCalls request PML4 m (calls ++ calls') =
      runCalls request PML4 (runCalls request PML4 m calls) calls' := by
  rw [runCalls, List.foldl_append]
  rfl

/-- Every request of a run is answered with a frame numbered below the final count. -/
theorem requestsOf_lt (calls : List MapCall) {before after : List MapCall} {c : MapCall}
    (heq : calls = before ++ c :: after) {s : Machine Nat}
    (hs : s ∈ requestsOf (frameSource frame) PML4 (runCalls (frameSource frame) PML4 m before) c.vaddr) :
    s.pmem < (runCalls (frameSource frame) PML4 m calls).pmem := by
  have hrun : runCalls (frameSource frame) PML4 m calls = runCalls (frameSource frame) PML4
      (runCalls (frameSource frame) PML4 m (before ++ [c])) after := by
    rw [heq, ← runCalls_append, List.append_assoc, List.singleton_append]
  rw [hrun]
  refine lt_of_lt_of_le ?_ (runCalls_frameSource_count after).1
  rw [runCalls_append_singleton]
  exact (mapVaddrToPaddr_frameSource _ _ _ c.vaddr c.paddr).2.2 s hs

/-- A run with good frames builds the tree of its last writes. -/
theorem paged_runCalls (hzero : ∀ a ∈ pageBytes PML4.addr, m.mem.byte a = 0) (calls : List MapCall)
    (hframes : GoodFrames frame PML4 m.pmem (runCalls (frameSource frame) PML4 m calls).pmem) :
    ∃ t, Paged PML4 (HandedOut frame PML4 m.pmem) (runCalls (frameSource frame) PML4 m calls) t ∧
      (∀ vaddr, t (pathOf vaddr) = RadixTree.lastWrite (pageWrites calls) (pathOf vaddr)) ∧
      ∀ r F, r ≠ [] → r.length < 4 →
        (tableAt PML4 t r = some F ↔ (r, F) ∈ runCreated (frameSource frame) PML4 m calls) := by
  have hstart : Paged PML4 (HandedOut frame PML4 m.pmem) m RadixTree.empty := by
    refine ⟨.of_zero hzero, le_rfl, ?_⟩
    intro T h
    obtain ⟨q, _, hT⟩ := h
    exact Or.inl (tableAt_empty.mp hT).2
  exact runCalls_spec (frameSource_spec hframes) hstart calls
    fun before c after heq s hs => requestsOf_lt calls heq hs

theorem GoodFrames.mono {first count' : Nat} (h : GoodFrames frame PML4 first count)
    (hle : count' ≤ count) : GoodFrames frame PML4 first count' :=
  ⟨⟨fun n hn hlt => h.aligned n hn (by omega), fun n hn hlt => h.notRoot n hn (by omega),
    fun n k hn hlt hk hlt' => h.distinct n k hn (by omega) hk (by omega)⟩,
    fun n hn hlt => h.low n hn (by omega)⟩

end Source

section Writes
variable {calls before after : List MapCall} {c : MapCall} {vaddr : Nat}

theorem lastWrite_pageWrites_eq_none_iff :
    RadixTree.lastWrite (pageWrites calls) (pathOf vaddr) = none ↔
      ∀ c ∈ calls, ¬SamePage c.vaddr vaddr := by
  rw [RadixTree.lastWrite_eq_none_iff, pageWrites]
  simp only [List.mem_map, forall_exists_index, and_imp, forall_apply_eq_imp_iff₂, ne_eq,
    pathOf_eq_iff]

theorem lastWrite_pageWrites_of_last (hc : SamePage c.vaddr vaddr)
    (hlast : ∀ c' ∈ after, ¬SamePage c'.vaddr vaddr) :
    RadixTree.lastWrite (pageWrites (before ++ c :: after)) (pathOf vaddr) =
      some (BitVec.ofNat 32 (c.paddr >>> 12)) := by
  have hpath : pathOf c.vaddr = pathOf vaddr := (pathOf_eq_iff _ _).mpr hc
  rw [pageWrites, List.map_append, List.map_cons, hpath]
  apply RadixTree.lastWrite_of_last
  intro w hw
  obtain ⟨c', hc', rfl⟩ := List.mem_map.mp hw
  exact fun heq => hlast c' hc' ((pathOf_eq_iff _ _).mp heq)

end Writes

/-- **The page tables refine a finite map.** From an all-zero PML4 and any other memory, whatever
good frames the allocator hands out: an address is present exactly when a call named its page, the
walks of the kernel and of the processor arrive at the frame of the last such call, and a call
changes no other page's translation. -/
theorem page_tables_refine_map (PML4 : PML4Table) (frame : Nat → Nat) (m : Machine Nat)
    (calls : List MapCall) (hzero : ∀ a ∈ pageBytes PML4.addr, m.mem.byte a = 0)
    (hpaddr : ∀ c ∈ calls, c.paddr < 2 ^ 44)
    (hframes : GoodFrames frame PML4 m.pmem (runCalls (frameSource frame) PML4 m calls).pmem) :
    (∀ vaddr, isPagePresent (runCalls (frameSource frame) PML4 m calls).mem PML4 vaddr = true ↔
      ∃ c ∈ calls, SamePage c.vaddr vaddr) ∧
    (∀ vaddr before c after, calls = before ++ c :: after → SamePage c.vaddr vaddr →
      (∀ c' ∈ after, ¬SamePage c'.vaddr vaddr) →
      ∃ w : Walk, walk PagingEntry.kernelTable (runCalls (frameSource frame) PML4 m calls).mem PML4 vaddr =
          some w ∧
        hardwareWalk (runCalls (frameSource frame) PML4 m calls).mem PML4 vaddr = some (.page4K w) ∧
        w.PresentWritable ∧ w.ptEntry.addr.toNat = c.paddr >>> 12) ∧
    (∀ vaddr before c after, calls = before ++ c :: after → ¬SamePage c.vaddr vaddr →
      translate (runCalls (frameSource frame) PML4 m (before ++ [c])).mem PML4 vaddr =
        translate (runCalls (frameSource frame) PML4 m before).mem PML4 vaddr) := by
  obtain ⟨t, hpaged, hlast, _⟩ := paged_runCalls hzero calls hframes
  refine ⟨?_, ?_, ?_⟩
  · intro vaddr
    rw [hpaged.represents.isPagePresent_iff, hlast, ← Option.ne_none_iff_exists', ne_eq,
      lastWrite_pageWrites_eq_none_iff]
    push Not
    rfl
  · intro vaddr before c after heq hc hafter
    have hx : t (pathOf vaddr) = some (BitVec.ofNat 32 (c.paddr >>> 12)) := by
      rw [hlast, heq, lastWrite_pageWrites_of_last hc hafter]
    obtain ⟨w, hkernel, hhardware, hwritable, hpt⟩ := hpaged.represents.hardwareWalk_of_some hx
    refine ⟨w, hkernel, hhardware, hwritable, ?_⟩
    have hbound := hpaddr c (by rw [heq]; simp)
    rw [hpt]
    show (BitVec.ofNat 32 (c.paddr >>> 12)).toNat = c.paddr >>> 12
    rw [BitVec.toNat_ofNat, Nat.shiftRight_eq_div_pow]
    omega
  · intro vaddr before c after heq hc
    have hle : (runCalls (frameSource frame) PML4 m (before ++ [c])).pmem ≤
        (runCalls (frameSource frame) PML4 m calls).pmem := by
      rw [heq, show before ++ c :: after = before ++ [c] ++ after by simp, runCalls_append _ after]
      exact (runCalls_frameSource_count after).1
    have hle' : (runCalls (frameSource frame) PML4 m before).pmem ≤
        (runCalls (frameSource frame) PML4 m (before ++ [c])).pmem := by
      rw [runCalls_append]
      exact (runCalls_frameSource_count [c]).1
    obtain ⟨u, hpaged', hlast', _⟩ := paged_runCalls hzero (before ++ [c]) (hframes.mono hle)
    obtain ⟨s, hpaged'', hlast'', _⟩ := paged_runCalls hzero before (hframes.mono (hle'.trans hle))
    rw [hpaged'.represents.translate_eq, hpaged''.represents.translate_eq, hlast', hlast'',
      pageWrites, pageWrites, List.map_append, List.map_singleton,
      RadixTree.lastWrite_append_singleton, if_neg]
    exact fun hpath => hc ((pathOf_eq_iff _ _).mp hpath)

/-- The PML4 at `1 MiB`, zero in a memory of ones. -/
def lowPML4 : PML4Table := ⟨0x100000, by decide, by decide⟩

def zeroedMachine : Machine Nat where
  mem := { byte := fun a => if 0x100000 ≤ a ∧ a < 0x101000 then 0 else 0xff, writes := [] }
  pmem := 0

theorem zeroedMachine_zero : ∀ a ∈ pageBytes lowPML4.addr, zeroedMachine.mem.byte a = 0 :=
  fun _ ha => if_pos ha

/-- Frames from `2 MiB` on. -/
theorem goodFrames_above : GoodFrames (fun n => 0x200000 + n * 4096) lowPML4 0 9 := by
  refine ⟨⟨?_, ?_, ?_⟩, ?_⟩
  · intro n _ _
    omega
  · intro n _ _
    show 0x200000 + n * 4096 ≠ 0x100000
    omega
  · intro n k _ _ _ _ _
    omega
  · intro n _ _
    omega

/-- Three calls, the first and the last for the same page. -/
theorem page_tables_refine_map_three :
    isPagePresent (runCalls (frameSource fun n => 0x200000 + n * 4096) lowPML4 zeroedMachine
      [⟨0x99999999999, 0x5000⟩, ⟨0x99999998000, 0x7000⟩, ⟨0x99999999000, 0x9000⟩]).mem lowPML4
      0x99999999123 = true :=
  ((page_tables_refine_map lowPML4 (fun n => 0x200000 + n * 4096) zeroedMachine _ zeroedMachine_zero
    (by decide) (goodFrames_above.mono (runCalls_frameSource_count _).2)).1 _).mpr
    ⟨⟨0x99999999999, 0x5000⟩, by simp, by decide⟩

/-! ### The two walks -/

section Created
variable {frame : Nat → Nat} {PML4 : PML4Table} {m : Machine Nat} {n : Nat}

/-- The frame a level hands out is the one of the table it creates. -/
theorem mem_createdAt_frameSource {table index : Nat} {q : List Nat} (hlow : m.pmem ≤ n)
    (hn : n < (nextTable (frameSource frame) m table index).2.pmem) :
    (q, frame n) ∈ createdAt (frameSource frame) q (missing m table index) := by
  unfold nextTable missing at *
  split_ifs at hn ⊢
  · obtain rfl : n = m.pmem := Nat.le_antisymm (Nat.lt_succ_iff.mp hn) hlow
    exact List.mem_singleton.mpr rfl
  · exact absurd hn (Nat.not_lt.mpr hlow)

/-- Every frame handed out becomes a table. -/
theorem exists_created (calls : List MapCall) (hlow : m.pmem ≤ n)
    (hn : n < (runCalls (frameSource frame) PML4 m calls).pmem) :
    ∃ vaddr level, 1 ≤ level ∧ level ≤ 3 ∧
      ((pathOf vaddr).take level, frame n) ∈ runCreated (frameSource frame) PML4 m calls := by
  induction calls using List.reverseRecOn with
  | nil => exact absurd hn (Nat.not_lt.mpr hlow)
  | append_singleton calls c ih =>
      rw [runCreated_append_singleton]
      rw [runCalls_append_singleton, mapVaddrToPaddr_pmem] at hn
      set s := runCalls (frameSource frame) PML4 m calls
      by_cases hold : n < s.pmem
      · obtain ⟨vaddr, level, h1, h3, hmem⟩ := ih hold
        exact ⟨vaddr, level, h1, h3, List.mem_append_left _ hmem⟩
      · refine ⟨c.vaddr, ?_⟩
        simp only [List.mem_append, createdBy]
        by_cases hPDPT : n < (descendPDPT (frameSource frame) PML4 s c.vaddr).2.pmem
        · exact ⟨1, le_rfl, by decide,
            Or.inr (Or.inl (Or.inl (mem_createdAt_frameSource (by omega) hPDPT)))⟩
        · by_cases hPD : n < (descendPD (frameSource frame) PML4 s c.vaddr).2.pmem
          · exact ⟨2, by decide, by decide,
              Or.inr (Or.inl (Or.inr (mem_createdAt_frameSource (by omega) hPD)))⟩
          · exact ⟨3, by decide, le_rfl,
              Or.inr (Or.inr (mem_createdAt_frameSource (by omega) hn))⟩

end Created

/-- The kernel and the processor find, at every level of every walk, exactly the tables that were
created, each at the frame it was granted; and they agree on what is present. -/
structure WalksAgree (PML4 : PML4Table) (mem : Memory) (created : List (List Nat × Nat)) : Prop where
  kernel : ∀ vaddr level T, 1 ≤ level → level ≤ 3 →
    (walkTo PagingEntry.kernelTable mem PML4.addr ((pathOf vaddr).take level) = some T ↔
      ((pathOf vaddr).take level, T) ∈ created)
  hardware : ∀ vaddr level T, 1 ≤ level → level ≤ 3 →
    (walkTo PagingEntry.hardwareTable mem PML4.addr ((pathOf vaddr).take level) = some T ↔
      ((pathOf vaddr).take level, T) ∈ created)
  present : ∀ vaddr, isPagePresent mem PML4 vaddr = (hardwareWalk mem PML4 vaddr).isSome

/-- The kernel finds no table at or above `2^32`. -/
theorem PagingEntry.kernelTable_lt {e : PagingEntry} {F : Nat} (h : e.kernelTable = some F) :
    F < 2 ^ 32 := by
  unfold kernelTable at h
  split_ifs at h
  exact Option.some.inj h ▸ Nat.mod_lt _ (by decide)

theorem walkTo_kernelTable_lt {mem : Memory} {T F : Nat} {q : List Nat} (hq : q ≠ [])
    (h : walkTo PagingEntry.kernelTable mem T q = some F) : F < 2 ^ 32 := by
  induction q generalizing T with
  | nil => exact absurd rfl hq
  | cons i q ih =>
      obtain ⟨T', hnext, hrest⟩ := Option.bind_eq_some_iff.mp h
      cases q with
      | nil => exact Option.some.inj hrest ▸ PagingEntry.kernelTable_lt hnext
      | cons j q => exact ih (by simp) hrest

theorem walksAgree_of_goodFrames {PML4 : PML4Table} {frame : Nat → Nat} {m : Machine Nat}
    {calls : List MapCall} (hzero : ∀ a ∈ pageBytes PML4.addr, m.mem.byte a = 0)
    (hframes : GoodFrames frame PML4 m.pmem (runCalls (frameSource frame) PML4 m calls).pmem) :
    WalksAgree PML4 (runCalls (frameSource frame) PML4 m calls).mem
      (runCreated (frameSource frame) PML4 m calls) := by
  obtain ⟨t, hpaged, _, hcreated⟩ := paged_runCalls hzero calls hframes
  have hwalk {next : PagingEntry → Option Nat} (hnext : Decodes next) (vaddr level T : Nat)
      (hlow : 1 ≤ level) (hhigh : level ≤ 3) :
      walkTo next (runCalls (frameSource frame) PML4 m calls).mem PML4.addr
          ((pathOf vaddr).take level) = some T ↔
        ((pathOf vaddr).take level, T) ∈ runCreated (frameSource frame) PML4 m calls := by
    have hlen : ((pathOf vaddr).take level).length = level := by
      rw [List.length_take]
      show min level 4 = level
      omega
    rw [hpaged.represents.walkTo_root hnext (by omega)
      fun i hi => pathOf_lt vaddr i (List.mem_of_mem_take hi)]
    refine hcreated _ T ?_ (by omega)
    intro hnil
    rw [hnil] at hlen
    exact absurd hlen (by simp; omega)
  refine ⟨hwalk decodes_kernelTable, hwalk decodes_hardwareTable, fun vaddr => ?_⟩
  rw [isPagePresent_eq_isSome_walk, hpaged.represents.hardwareWalk_eq, Option.isSome_map]
  cases hx : t (pathOf vaddr) with
  | none =>
      rw [hpaged.represents.walk_of_none decodes_kernelTable hx,
        hpaged.represents.walk_of_none decodes_hardwareTable hx]
  | some x =>
      obtain ⟨x4, x3, x2, heq⟩ := hpaged.represents.walk_of_some hx
      rw [heq _ decodes_kernelTable, heq _ decodes_hardwareTable]

/-- **The walks agree exactly while the tables lie below `2^32`**, the width in which the kernel's
shift of the 32-bit address field is evaluated. -/
theorem walks_agree_iff (PML4 : PML4Table) (frame : Nat → Nat) (m : Machine Nat)
    (calls : List MapCall) (hzero : ∀ a ∈ pageBytes PML4.addr, m.mem.byte a = 0)
    (hframes : DistinctFrames frame PML4 m.pmem (runCalls (frameSource frame) PML4 m calls).pmem) :
    WalksAgree PML4 (runCalls (frameSource frame) PML4 m calls).mem
        (runCreated (frameSource frame) PML4 m calls) ↔
      ∀ n, m.pmem ≤ n → n < (runCalls (frameSource frame) PML4 m calls).pmem → frame n < 2 ^ 32 := by
  constructor
  · intro hagree n hlow hn
    obtain ⟨vaddr, level, h1, h3, hmem⟩ := exists_created calls hlow hn
    have hfound := (hagree.kernel vaddr level (frame n) h1 h3).mpr hmem
    refine walkTo_kernelTable_lt ?_ hfound
    rw [ne_eq, List.take_eq_nil_iff]
    intro h
    obtain hzero' | hnil := h
    · omega
    · exact absurd hnil (by simp [pathOf])
  · exact fun hlow => walksAgree_of_goodFrames hzero ⟨hframes, hlow⟩

/-- The same three calls. -/
theorem walks_agree_iff_three :
    WalksAgree lowPML4 (runCalls (frameSource fun n => 0x200000 + n * 4096) lowPML4 zeroedMachine
        [⟨0x99999999999, 0x5000⟩, ⟨0x99999998000, 0x7000⟩, ⟨0x99999999000, 0x9000⟩]).mem
      (runCreated (frameSource fun n => 0x200000 + n * 4096) lowPML4 zeroedMachine
        [⟨0x99999999999, 0x5000⟩, ⟨0x99999998000, 0x7000⟩, ⟨0x99999999000, 0x9000⟩]) :=
  have hgood := goodFrames_above.mono (runCalls_frameSource_count _).2
  (walks_agree_iff lowPML4 (fun n => 0x200000 + n * 4096) zeroedMachine _ zeroedMachine_zero
    hgood.toDistinctFrames).mpr hgood.low

/-- With its first table at `4 GiB` the kernel looks for it elsewhere. -/
theorem walks_disagree_above_4GiB :
    ¬∀ (PML4 : PML4Table) (frame : Nat → Nat) (m : Machine Nat) (calls : List MapCall),
      (∀ a ∈ pageBytes PML4.addr, m.mem.byte a = 0) →
      (∀ n, m.pmem ≤ n → n < (runCalls (frameSource frame) PML4 m calls).pmem →
        4096 ∣ frame n ∧ frame n < 2 ^ 44) →
      (∀ n k, frame n = frame k → n = k) →
      WalksAgree PML4 (runCalls (frameSource frame) PML4 m calls).mem
        (runCreated (frameSource frame) PML4 m calls) := by
  intro h
  have hagree := h lowPML4 (fun n => 2 ^ 32 + n * 4096) zeroedMachine [⟨0, 0x5000⟩]
    zeroedMachine_zero
    (fun n _ hn => by
      have hcount : n < 0 + 3 * 1 := hn.trans_le (runCalls_frameSource_count _).2
      omega)
    (fun n k heq => by omega)
  have hfound := (hagree.kernel 0 1 (2 ^ 32) le_rfl (by decide)).mpr
    (List.mem_append_left _ (List.mem_append_left _ (List.mem_append_left _ (by decide +kernel))))
  exact absurd (walkTo_kernelTable_lt (by decide) hfound) (by decide)

end MyOSKernel
