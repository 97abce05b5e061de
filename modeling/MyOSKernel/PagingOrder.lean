import MyOSKernel.FrameOrder
import MyOSKernel.PagingCount
import MyOSKernel.PagingEffects
import MyOSKernel.PagingRefinement

/-! Which frames a run of mappings takes: the first free ones, in the order of the array. So only these
have to be suitable for tables. -/

namespace MyOSKernel

open PhysicalMemory

theorem mem_take_of_suffix {α : Type} {l rest : List α} {a : α} {n : Nat} (h : a :: rest <:+ l)
    (hlt : l.length < (a :: rest).length + n) : a ∈ l.take n := by
  obtain ⟨before, rfl⟩ := h
  rw [List.length_append] at hlt
  obtain ⟨k, hk⟩ : ∃ k, n = before.length + (k + 1) := ⟨n - before.length - 1, by omega⟩
  rw [hk, List.take_length_add_append, List.take_succ_cons]
  exact List.mem_append_right before List.mem_cons_self

section Order
variable {PML4 : PML4Table} {s m m' : Kernel} {S : Set Nat} {calls : List MapCall} {n : Nat}

theorem freeList_of_eqOn (hfits : m.pmem.Fits) (hpmem : m'.pmem = m.pmem)
    (hbytes : Set.EqOn m'.mem.byte m.mem.byte m.pmem.arrayBytes) : freeList m' = freeList m := by
  rw [freeList, freeList, hpmem]
  apply List.filter_congr
  intro j hj
  rw [getFrameState_of_eqOn hfits (List.mem_range.mp hj) hpmem hbytes]

/-- The frames free now are the last of those that were free. -/
theorem orderedTables_spec (hworld : FrameWorld PML4 s) :
    AllocatorSpec pmemRequestFrame
      (fun S m => TableFrames PML4 s [] S m ∧ freeList m <:+ freeList s) (GrantsTable PML4) := by
  refine (TableFrames.allocatorSpec hworld []).and ?_ ?_
  · intro S m htf hsuffix hok
    rcases htf.holding.accounts.request_freeList with ⟨hnil, _⟩ | ⟨j, rest, hcons, _, _, hrest⟩
    · have hlength : (freeList m).length = m.pmem.freeFrames := htf.holding.accounts.length_freeList
      rw [hnil] at hlength
      exact absurd hlength.symm hok.1
    · rw [hrest]
      rw [hcons] at hsuffix
      exact (List.suffix_cons j rest).trans hsuffix
  · intro S m m' htf hsuffix hpmem hbytes
    rw [freeList_of_eqOn htf.holding.accounts.fits hpmem]
    · exact hsuffix
    · intro a ha
      refine hbytes a fun T hT hc => Set.disjoint_left.mp (htf.disjoint_array hworld hT) hc ?_
      rw [← htf.arrayBytes_eq]
      exact ha

/-- The allocator grants a table as long as it has not passed the first `n` free frames, when these are
suitable. -/
theorem grantsTable_of_first (htf : TableFrames PML4 s [] S m) (hsuffix : freeList m <:+ freeList s)
    (hfirst : ∀ j ∈ (freeList s).take n, getFrameAddr s j < 2 ^ 32 ∧ getFrameAddr s j ≠ PML4.addr)
    (hs : Accounts s) (hle : n ≤ s.pmem.freeFrames)
    (hleft : s.pmem.freeFrames - n < m.pmem.freeFrames) : GrantsTable PML4 m := by
  have hlength : (freeList m).length = m.pmem.freeFrames := htf.holding.accounts.length_freeList
  rcases htf.holding.accounts.request_freeList with ⟨hnil, _⟩ | ⟨j, rest, hcons, _, haddr, _⟩
  · rw [hnil, List.length_nil] at hlength
    omega
  · rw [hcons] at hsuffix hlength
    have hmem : j ∈ (freeList s).take n := by
      apply mem_take_of_suffix hsuffix
      rw [hlength, hs.length_freeList]
      omega
    have hj : j < s.pmem.frames := (mem_freeList.mp (List.mem_of_mem_take hmem)).1
    have haddr' : (pmemRequestFrame m).1 = getFrameAddr s j :=
      haddr.trans (htf.holding.same.addr j hj)
    refine ⟨by omega, ?_, ?_⟩
    · rw [haddr']
      exact (hfirst j hmem).1
    · rw [haddr']
      exact (hfirst j hmem).2

variable {Inv : Set Nat → Kernel → Prop} {t : PageTree} {K : Nat}

/-- One level of the descent uses up a frame if its slot is empty. -/
theorem nextTable_left {q : List Nat} {T i k : Nat} (hlt : m.pmem.freeFrames < 2 ^ 64)
    (h : Represents PML4 m.mem t) (hq : q.length < 4) (hT : tableAt PML4 t q = some T) (hi : i < 512)
    (hle : K + k + (if t (q ++ [i]) = none then 1 else 0) ≤ m.pmem.freeFrames) :
    (∀ r ∈ missing m T i, K < r.pmem.freeFrames) ∧
      (nextTable pmemRequestFrame m T i).2.pmem.freeFrames < 2 ^ 64 ∧
      K + k ≤ (nextTable pmemRequestFrame m T i).2.pmem.freeFrames := by
  have hlen := length_missing h hq hT hi
  obtain ⟨hlt', hleft, _⟩ := le_freeFrames_nextTable T i hlt (by rw [hlen]; exact hle)
  refine ⟨fun r hr => ?_, hlt', hleft⟩
  have hone := List.length_pos_of_mem hr
  rw [mem_missing hr]
  omega

/-- With a frame left above `K` for each table that is missing, no request of a call is made at `K`. -/
theorem requests_left {vaddr : Nat}
    (spec : AllocatorSpec pmemRequestFrame Inv fun m => K < m.pmem.freeFrames)
    (hlt : m.pmem.freeFrames < 2 ^ 64) (h : Paged PML4 Inv m t)
    (hle : K + (if t ((pathOf vaddr).take 1) = none then 1 else 0) +
      (if t ((pathOf vaddr).take 2) = none then 1 else 0) +
      (if t ((pathOf vaddr).take 3) = none then 1 else 0) ≤ m.pmem.freeFrames) :
    ∀ r ∈ requestsOf pmemRequestFrame PML4 m vaddr, K < r.pmem.freeFrames := by
  obtain ⟨h4, h3, h2, _⟩ := indexes_lt vaddr
  set indexes := extractVaddrPagingIndexes vaddr with hindexes
  have htake1 : (pathOf vaddr).take 1 = [] ++ [indexes.pml4Entry] := rfl
  have htake2 : (pathOf vaddr).take 2 = [indexes.pml4Entry] ++ [indexes.pdptEntry] := rfl
  have htake3 : (pathOf vaddr).take 3 = [indexes.pml4Entry, indexes.pdptEntry] ++ [indexes.pdEntry] :=
    rfl
  rw [htake1, htake2, htake3] at hle
  -- the PDPT
  obtain ⟨hreq1, hlt1, hle1⟩ := nextTable_left (K := K)
    (k := (if t ([indexes.pml4Entry] ++ [indexes.pdptEntry]) = none then 1 else 0) +
      (if t ([indexes.pml4Entry, indexes.pdptEntry] ++ [indexes.pdEntry]) = none then 1 else 0))
    hlt h.represents (by decide) tableAt_nil h4 (by omega)
  obtain ⟨t1, hPDPT⟩ := nextTable_spec spec h (q := []) (by simp) tableAt_nil h4 hreq1
  have hkept2 : t1 ([indexes.pml4Entry] ++ [indexes.pdptEntry]) =
      t ([indexes.pml4Entry] ++ [indexes.pdptEntry]) :=
    (hPDPT.grown _ ⟨[indexes.pdptEntry], rfl⟩ (by simp)).payload le_rfl
  have hkept3 : t1 ([indexes.pml4Entry, indexes.pdptEntry] ++ [indexes.pdEntry]) =
      t ([indexes.pml4Entry, indexes.pdptEntry] ++ [indexes.pdEntry]) :=
    (hPDPT.grown _ ⟨[indexes.pdptEntry, indexes.pdEntry], rfl⟩ (by simp)).payload le_rfl
  -- the PD
  obtain ⟨hreq2, hlt2, hle2⟩ := nextTable_left (K := K)
    (k := if t ([indexes.pml4Entry, indexes.pdptEntry] ++ [indexes.pdEntry]) = none then 1 else 0)
    hlt1 hPDPT.paged.represents (q := [indexes.pml4Entry]) (by simp) hPDPT.table h3
    (by rw [hkept2]; omega)
  obtain ⟨t2, hPD⟩ := nextTable_spec spec hPDPT.paged (q := [indexes.pml4Entry]) (by simp)
    hPDPT.table h3 hreq2
  have hkept3' : t2 ([indexes.pml4Entry, indexes.pdptEntry] ++ [indexes.pdEntry]) =
      t1 ([indexes.pml4Entry, indexes.pdptEntry] ++ [indexes.pdEntry]) :=
    (hPD.grown _ ⟨[indexes.pdEntry], rfl⟩ (by simp)).payload le_rfl
  -- the PT
  obtain ⟨hreq3, _, _⟩ := nextTable_left (K := K) (k := 0) hlt2 hPD.paged.represents
    (q := [indexes.pml4Entry, indexes.pdptEntry]) (by simp) hPD.table h2
    (by rw [hkept3', hkept3]; omega)
  intro r hr
  simp only [requestsOf, List.mem_append] at hr
  rcases hr with (hr | hr) | hr
  · exact hreq1 r hr
  · exact hreq2 r hr
  · exact hreq3 r hr

theorem RunTree.slot_missing {mem : Memory} {c : MapCall} {k : Nat} (h : RunTree PML4 calls mem t)
    (hlow : 1 ≤ k) (hhigh : k ≤ 3) : (if t ((pathOf c.vaddr).take k) = none then 1 else 0) =
      if (pathOf c.vaddr).take k ∈ slotPaths calls then 0 else 1 := by
  have hlen : ((pathOf c.vaddr).take k).length = k := by
    rw [List.length_take]
    exact Nat.min_eq_left (hhigh.trans (show 3 ≤ 4 by decide))
  have hne : (pathOf c.vaddr).take k ≠ [] := List.ne_nil_of_length_pos (by omega)
  have hslots := h.slots ((pathOf c.vaddr).take k) hne (by omega)
  cases hx : t ((pathOf c.vaddr).take k) with
  | none =>
      rw [if_pos rfl, if_neg]
      intro hmem
      obtain ⟨x, hx'⟩ := hslots.mpr hmem
      rw [hx] at hx'
      exact absurd hx' (by simp)
  | some x => rw [if_neg (by simp), if_pos (hslots.mp ⟨x, hx⟩)]

theorem paged_start (hworld : FrameWorld PML4 s) (hzero : ∀ a ∈ pageBytes PML4.addr, s.mem.byte a = 0) :
    Paged PML4 (TableFrames PML4 s []) s RadixTree.empty := by
  refine ⟨.of_zero hzero, .init hworld.accounts, ?_, fun a ha => absurd ha List.not_mem_nil⟩
  intro T h
  obtain ⟨q, _, hT⟩ := h
  exact Or.inl (tableAt_empty.mp hT).2

/-- A run in order has taken the first free frames, one for every table it needs. -/
theorem runTree_ordered (hworld : FrameWorld PML4 s)
    (hzero : ∀ a ∈ pageBytes PML4.addr, s.mem.byte a = 0) (hok : RequestsInOrder PML4 s calls) :
    ∃ t, RunTree PML4 calls (runCalls pmemRequestFrame PML4 s calls).mem t ∧
      TableFrames PML4 s [] (tables PML4 t) (runCalls pmemRequestFrame PML4 s calls) ∧
      (runCalls pmemRequestFrame PML4 s calls).pmem.freeFrames + tablesNeeded calls =
        s.pmem.freeFrames ∧
      freeList (runCalls pmemRequestFrame PML4 s calls) = (freeList s).drop (tablesNeeded calls) := by
  have hstart : Paged PML4 (fun S m => TableFrames PML4 s [] S m ∧ freeList m <:+ freeList s) s
      RadixTree.empty :=
    ⟨.of_zero hzero, (paged_start hworld hzero).allocator, List.suffix_refl _⟩
  obtain ⟨t, htree, htf, hsuffix⟩ := runTree_of_spec (orderedTables_spec hworld) hstart hok
  obtain ⟨_, _, _, _, hfree⟩ := runTree_counted hworld hzero hok
  refine ⟨t, htree, htf, hfree, ?_⟩
  have hlength := htf.holding.accounts.length_freeList
  have hlength' := hworld.accounts.length_freeList
  rw [List.suffix_iff_eq_drop.mp hsuffix]
  congr 1
  dsimp only at hlength
  omega

/-- It is enough to look at a call after the calls before it were in order. -/
theorem RequestsInOrder.of_last (h : ∀ before c after, calls = before ++ c :: after →
    RequestsInOrder PML4 s before →
    ∀ r ∈ requestsOf pmemRequestFrame PML4 (runCalls pmemRequestFrame PML4 s before) c.vaddr,
      GrantsTable PML4 r) : RequestsInOrder PML4 s calls := by
  intro before
  induction hlen : before.length using Nat.strong_induction_on generalizing before with
  | _ k ih =>
      intro c after heq
      apply h before c after heq
      intro before' c' after' heq'
      apply ih before'.length _ before' rfl c' (after' ++ c :: after)
      · rw [heq, heq', List.append_assoc, List.cons_append]
      · rw [← hlen, heq', List.length_append, List.length_cons]
        omega

/-- With a free frame for every table needed, the first ones below `2^32` and apart from the PML4, all
requests of the run are in order. -/
theorem requestsInOrder_of_first (hworld : FrameWorld PML4 s)
    (hzero : ∀ a ∈ pageBytes PML4.addr, s.mem.byte a = 0) (hle : tablesNeeded calls ≤ s.pmem.freeFrames)
    (hfirst : ∀ j ∈ (freeList s).take (tablesNeeded calls),
      getFrameAddr s j < 2 ^ 32 ∧ getFrameAddr s j ≠ PML4.addr) : RequestsInOrder PML4 s calls := by
  have hspec : AllocatorSpec pmemRequestFrame
      (fun S m => TableFrames PML4 s [] S m ∧ freeList m <:+ freeList s)
      fun m => s.pmem.freeFrames - tablesNeeded calls < m.pmem.freeFrames :=
    (orderedTables_spec hworld).of_imp fun S m hinv hleft =>
      grantsTable_of_first hinv.1 hinv.2 hfirst hworld.accounts hle hleft
  apply RequestsInOrder.of_last
  intro before c after heq hok
  obtain ⟨t, htree, htf, hfree, hlist⟩ := runTree_ordered hworld hzero hok
  have hsub : before ++ [c] ⊆ calls := by
    rw [heq]
    exact List.append_subset.mpr ⟨List.subset_append_left _ _, fun x hx =>
      List.mem_append_right _ (List.mem_singleton.mp hx ▸ List.mem_cons_self)⟩
  have hmono := tablesNeeded_mono hsub
  have hcount := tablesNeeded_append_singleton before c
  have hsuffix : freeList (runCalls pmemRequestFrame PML4 s before) <:+ freeList s := by
    rw [hlist]
    exact List.drop_suffix _ _
  have hpaged : Paged PML4 (fun S m => TableFrames PML4 s [] S m ∧ freeList m <:+ freeList s)
      (runCalls pmemRequestFrame PML4 s before) t := ⟨htree.represents, htf, hsuffix⟩
  have hlt : (runCalls pmemRequestFrame PML4 s before).pmem.freeFrames < 2 ^ 64 := by
    have hcounter : s.pmem.freeFrames ≤ s.pmem.frames := hworld.accounts.counter_le .free
    have hframes : s.pmem.frames ≤ 2 ^ 60 := hworld.accounts.frames_le
    omega
  have hleft : ∀ r ∈ requestsOf pmemRequestFrame PML4 (runCalls pmemRequestFrame PML4 s before)
      c.vaddr, s.pmem.freeFrames - tablesNeeded calls < r.pmem.freeFrames := by
    apply requests_left hspec hlt hpaged
    rw [htree.slot_missing le_rfl (by decide), htree.slot_missing (by decide) (by decide),
      htree.slot_missing (by decide) le_rfl]
    omega
  obtain ⟨_, _, _, _, _, hinv⟩ := descendPT_spec hspec hpaged hleft
  intro r hr
  obtain ⟨v, hv⟩ := hinv r hr
  exact grantsTable_of_first hv.allocator.1 hv.allocator.2 hfirst hworld.accounts hle (hleft r hr)

/-- The states after a run that has taken the first `n` free frames. -/
theorem getFrameState_of_taken (htf : TableFrames PML4 s [] S m)
    (htaken : Taken s s (tables PML4 RadixTree.empty) S m) (hlist : freeList m = (freeList s).drop n)
    {j : Nat} (hj : j < s.pmem.frames) : getFrameState m j =
      if j ∈ (freeList s).take n then FrameState.locked.code else getFrameState s j := by
  have hj' : j < m.pmem.frames := htf.frames_eq ▸ hj
  have hfree : getFrameState m j = FrameState.free.code ↔ j ∈ (freeList s).drop n := by
    rw [← hlist, mem_freeList, and_iff_right hj']
  have hsplit : j ∈ freeList s ↔ j ∈ (freeList s).take n ∨ j ∈ (freeList s).drop n := by
    rw [← List.mem_append, List.take_append_drop]
  rcases htaken.states j hj with hsame | ⟨hwas, hlocked⟩
  · rw [if_neg, hsame]
    intro hmem
    have hdrop : j ∈ (freeList s).drop n :=
      hfree.mp (hsame.trans (mem_freeList.mp (hsplit.mpr (Or.inl hmem))).2)
    exact List.disjoint_take_drop (nodup_freeList s) le_rfl hmem hdrop
  · rw [hlocked, if_pos]
    rcases hsplit.mp (mem_freeList.mpr ⟨hj, hwas⟩) with hmem | hmem
    · exact hmem
    · rw [hfree.mpr hmem] at hlocked
      exact absurd hlocked (by decide)

theorem runCalls_first (hworld : FrameWorld PML4 s)
    (hzero : ∀ a ∈ pageBytes PML4.addr, s.mem.byte a = 0) (hok : RequestsInOrder PML4 s calls) :
    (∀ vaddr, translate (runCalls pmemRequestFrame PML4 s calls).mem PML4 vaddr =
        (RadixTree.lastWrite (pageWrites calls) (pathOf vaddr)).map
          fun x => x.toNat * 4096 + vaddr % 4096) ∧
      ∀ j < s.pmem.frames, getFrameState (runCalls pmemRequestFrame PML4 s calls) j =
        if j ∈ (freeList s).take (tablesNeeded calls) then FrameState.locked.code
        else getFrameState s j := by
  have hstart := paged_start hworld hzero
  have hstart' : Paged PML4 (fun S m => TableFrames PML4 s [] S m ∧
      Taken s s (tables PML4 RadixTree.empty) S m) s RadixTree.empty :=
    ⟨hstart.represents, hstart.allocator, .refl s s _⟩
  obtain ⟨t, hpaged, hlast, _⟩ := runCalls_spec (Taken.allocatorSpec hworld s _) hstart' calls hok
  obtain ⟨_, _, _, _, hlist⟩ := runTree_ordered hworld hzero hok
  constructor
  · intro vaddr
    rw [hpaged.represents.translate_eq, hlast]
  · intro j hj
    exact getFrameState_of_taken hpaged.allocator.1 hpaged.allocator.2 hlist hj

/-- **A run of mappings takes the first free frames.** When the PML4 is all zero and the first free
frames, one for every table needed, are below `2^32` and not the PML4, every call succeeds: each page is
translated as the last call about it says, no other page is translated, and exactly these frames are
locked. -/
theorem mapping_takes_first_frames (PML4 : PML4Table) (s : Kernel) (calls : List MapCall)
    (hworld : FrameWorld PML4 s) (hzero : ∀ a ∈ pageBytes PML4.addr, s.mem.byte a = 0)
    (hle : tablesNeeded calls ≤ s.pmem.freeFrames)
    (hfirst : ∀ j ∈ (freeList s).take (tablesNeeded calls),
      getFrameAddr s j < 2 ^ 32 ∧ getFrameAddr s j ≠ PML4.addr) :
    (∀ vaddr, (∀ c ∈ calls, ¬SamePage c.vaddr vaddr) →
        translate (runCalls pmemRequestFrame PML4 s calls).mem PML4 vaddr = none) ∧
      (∀ vaddr before c after, calls = before ++ c :: after → SamePage c.vaddr vaddr →
        (∀ c' ∈ after, ¬SamePage c'.vaddr vaddr) → c.paddr < 2 ^ 44 →
        translate (runCalls pmemRequestFrame PML4 s calls).mem PML4 vaddr =
          some (c.paddr / 4096 * 4096 + vaddr % 4096)) ∧
      ∀ j < s.pmem.frames, getFrameState (runCalls pmemRequestFrame PML4 s calls) j =
        if j ∈ (freeList s).take (tablesNeeded calls) then FrameState.locked.code
        else getFrameState s j := by
  obtain ⟨htranslate, hstates⟩ :=
    runCalls_first hworld hzero (requestsInOrder_of_first hworld hzero hle hfirst)
  refine ⟨?_, ?_, hstates⟩
  · intro vaddr hnone
    rw [htranslate, lastWrite_pageWrites_eq_none_iff.mpr hnone]
    rfl
  · intro vaddr before c after heq hc hlast hpaddr
    rw [htranslate, heq, lastWrite_pageWrites_of_last hc hlast, Option.map_some, BitVec.toNat_ofNat,
      Nat.shiftRight_eq_div_pow]
    congr 3
    omega

theorem tablesNeeded_congr {calls' : List MapCall} (hmem : ∀ c, c ∈ calls' ↔ c ∈ calls) :
    tablesNeeded calls' = tablesNeeded calls :=
  le_antisymm (tablesNeeded_mono fun c => (hmem c).mp) (tablesNeeded_mono fun c => (hmem c).mpr)

theorem first_fourFreeFrames (n : Nat) : ∀ j ∈ (freeList fourFreeFrames).take n,
    getFrameAddr fourFreeFrames j < 2 ^ 32 ∧ getFrameAddr fourFreeFrames j ≠ fourthPagePML4.addr := by
  intro j hj
  obtain ⟨hlt, hfree⟩ := mem_freeList.mp (List.mem_of_mem_take hj)
  exact ⟨tableWorld_fourFreeFrames.low j hlt, tableWorld_fourFreeFrames.addr_ne_root hlt hfree⟩

/-- The page mapped twice is translated as the second call says. -/
theorem mapping_takes_first_frames_fourFreeFrames :
    translate (runCalls pmemRequestFrame fourthPagePML4 fourFreeFrames twoTablesCalls).mem
      fourthPagePML4 0x1234 = some 0x7234 :=
  (mapping_takes_first_frames fourthPagePML4 fourFreeFrames twoTablesCalls
    tableWorld_fourFreeFrames.toFrameWorld tableWorld_fourFreeFrames.zero (by decide +kernel)
    (first_fourFreeFrames _)).2.1 0x1234
      [⟨0x1000, 0x1000⟩, ⟨0x200000, 0x3000⟩, ⟨0x2000, 0x5000⟩] ⟨0x1000, 0x7000⟩ [] rfl rfl
      (by simp) (by decide)

/-- **The order of mappings does not matter**, nor how often a call is made, when no page is mapped to
two frames and there are free frames for the tables as above: two runs of the same calls from a PML4
that is all zero translate every address alike and lock the same frames. -/
theorem mapping_order_irrelevant (PML4 : PML4Table) (s : Kernel) (calls calls' : List MapCall)
    (hmem : ∀ c, c ∈ calls' ↔ c ∈ calls)
    (hframe : ∀ c ∈ calls, ∀ c' ∈ calls, SamePage c.vaddr c'.vaddr → SamePage c.paddr c'.paddr)
    (hworld : FrameWorld PML4 s) (hzero : ∀ a ∈ pageBytes PML4.addr, s.mem.byte a = 0)
    (hle : tablesNeeded calls ≤ s.pmem.freeFrames)
    (hfirst : ∀ j ∈ (freeList s).take (tablesNeeded calls),
      getFrameAddr s j < 2 ^ 32 ∧ getFrameAddr s j ≠ PML4.addr) :
    (∀ vaddr, translate (runCalls pmemRequestFrame PML4 s calls').mem PML4 vaddr =
        translate (runCalls pmemRequestFrame PML4 s calls).mem PML4 vaddr) ∧
      ∀ j < s.pmem.frames, getFrameState (runCalls pmemRequestFrame PML4 s calls') j =
        getFrameState (runCalls pmemRequestFrame PML4 s calls) j := by
  have hneeded := tablesNeeded_congr hmem
  obtain ⟨htranslate, hstates⟩ :=
    runCalls_first hworld hzero (requestsInOrder_of_first hworld hzero hle hfirst)
  obtain ⟨htranslate', hstates'⟩ := runCalls_first hworld hzero
    (show RequestsInOrder PML4 s calls' from
      requestsInOrder_of_first hworld hzero (hneeded ▸ hle) (hneeded ▸ hfirst))
  constructor
  · intro vaddr
    rw [htranslate, htranslate']
    congr 1
    apply RadixTree.lastWrite_eq_of_mem_iff
    · intro w
      simp only [pageWrites, List.mem_map, hmem]
    · intro w hw w' hw' hkey
      obtain ⟨c, hc, rfl⟩ := List.mem_map.mp hw
      obtain ⟨c', hc', rfl⟩ := List.mem_map.mp hw'
      have hpage : SamePage c.paddr c'.paddr := hframe c hc c' hc' ((pathOf_eq_iff _ _).mp hkey)
      unfold SamePage at hpage
      apply BitVec.eq_of_toNat_eq
      rw [BitVec.toNat_ofNat, BitVec.toNat_ofNat, Nat.shiftRight_eq_div_pow, Nat.shiftRight_eq_div_pow]
      omega
  · intro j hj
    rw [hstates' j hj, hstates j hj, hneeded]

end Order

/-- An address of one of two pages, mapped in either order and the other one twice. -/
theorem mapping_order_irrelevant_fourFreeFrames :
    translate (runCalls pmemRequestFrame fourthPagePML4 fourFreeFrames
        [⟨0x200000, 0x3000⟩, ⟨0x1000, 0x7000⟩, ⟨0x200000, 0x3000⟩]).mem fourthPagePML4 0x1234 =
      translate (runCalls pmemRequestFrame fourthPagePML4 fourFreeFrames
        [⟨0x1000, 0x7000⟩, ⟨0x200000, 0x3000⟩]).mem fourthPagePML4 0x1234 := by
  have hmem : ∀ c : MapCall,
      c ∈ [⟨0x200000, 0x3000⟩, ⟨0x1000, 0x7000⟩, ⟨0x200000, 0x3000⟩] ↔
        c ∈ [⟨0x1000, 0x7000⟩, ⟨0x200000, 0x3000⟩] := by
    intro c
    simp only [List.mem_cons, List.not_mem_nil, or_false]
    tauto
  exact (mapping_order_irrelevant fourthPagePML4 fourFreeFrames _ _ hmem (by simp [SamePage])
    tableWorld_fourFreeFrames.toFrameWorld tableWorld_fourFreeFrames.zero (by decide +kernel)
    (first_fourFreeFrames _)).1 0x1234

end MyOSKernel
