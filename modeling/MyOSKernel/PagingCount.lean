import MyOSKernel.PagingFrames

/-! How many frames a run of mappings takes: one for every PML4 index, every pair of PML4 and PDPT
indexes and every triple of PML4, PDPT and PD indexes among the addresses mapped, in whatever order
they are. The tables of the tree the run builds are counted by the paths that lead to them. -/

namespace MyOSKernel

open PhysicalMemory

/-- The distinct first `k` indexes of the addresses mapped. -/
def indexPrefixes (calls : List MapCall) (k : Nat) : Finset (List Nat) :=
  (calls.map fun c => (pathOf c.vaddr).take k).toFinset

/-- A table for every PML4 index, every pair down to the PDPT and every triple down to the PD. -/
def tablesNeeded (calls : List MapCall) : Nat :=
  (indexPrefixes calls 1).card + (indexPrefixes calls 2).card + (indexPrefixes calls 3).card

section Prefixes
variable {calls calls' : List MapCall} {q : List Nat} {k : Nat}

theorem mem_indexPrefixes :
    q ∈ indexPrefixes calls k ↔ ∃ c ∈ calls, (pathOf c.vaddr).take k = q := by
  simp only [indexPrefixes, List.mem_toFinset, List.mem_map]

theorem indexPrefixes_perm (h : calls'.Perm calls) :
    indexPrefixes calls' k = indexPrefixes calls k := by
  ext q
  rw [mem_indexPrefixes, mem_indexPrefixes]
  exact exists_congr fun c => and_congr_left fun _ => h.mem_iff

theorem tablesNeeded_perm (h : calls'.Perm calls) : tablesNeeded calls' = tablesNeeded calls := by
  unfold tablesNeeded
  simp only [indexPrefixes_perm h]

theorem indexPrefixes_mono (h : calls ⊆ calls') : indexPrefixes calls k ⊆ indexPrefixes calls' k := by
  intro q hq
  obtain ⟨c, hc, heq⟩ := mem_indexPrefixes.mp hq
  exact mem_indexPrefixes.mpr ⟨c, h hc, heq⟩

/-- The slots that hold the tables below the PML4. -/
def slotPaths (calls : List MapCall) : Finset (List Nat) :=
  indexPrefixes calls 1 ∪ indexPrefixes calls 2 ∪ indexPrefixes calls 3

theorem mem_slotPaths : q ∈ slotPaths calls ↔
    ∃ c ∈ calls, ∃ k, 1 ≤ k ∧ k ≤ 3 ∧ (pathOf c.vaddr).take k = q := by
  simp only [slotPaths, Finset.mem_union, mem_indexPrefixes]
  constructor
  · intro h
    obtain (⟨c, hc, heq⟩ | ⟨c, hc, heq⟩) | ⟨c, hc, heq⟩ := h
    · exact ⟨c, hc, 1, le_rfl, by decide, heq⟩
    · exact ⟨c, hc, 2, by decide, by decide, heq⟩
    · exact ⟨c, hc, 3, by decide, le_rfl, heq⟩
  · intro h
    obtain ⟨c, hc, k, hlow, hhigh, heq⟩ := h
    have hk : k = 1 ∨ k = 2 ∨ k = 3 := by omega
    rcases hk with rfl | rfl | rfl
    · exact Or.inl (Or.inl ⟨c, hc, heq⟩)
    · exact Or.inl (Or.inr ⟨c, hc, heq⟩)
    · exact Or.inr ⟨c, hc, heq⟩

theorem length_of_mem_indexPrefixes (hk : k ≤ 4) (hq : q ∈ indexPrefixes calls k) : q.length = k := by
  obtain ⟨c, _, rfl⟩ := mem_indexPrefixes.mp hq
  rw [List.length_take]
  exact Nat.min_eq_left hk

theorem length_of_mem_slotPaths (hq : q ∈ slotPaths calls) : 1 ≤ q.length ∧ q.length < 4 := by
  obtain ⟨c, _, k, hlow, hhigh, rfl⟩ := mem_slotPaths.mp hq
  rw [List.length_take, Nat.min_eq_left (show k ≤ (pathOf c.vaddr).length by simp [pathOf]; omega)]
  omega

theorem length_lt_of_mem_insert (hq : q ∈ insert [] (slotPaths calls)) : q.length < 4 := by
  rcases Finset.mem_insert.mp hq with rfl | hq
  · decide
  · exact (length_of_mem_slotPaths hq).2

/-- Prefixes of different lengths are different. -/
theorem disjoint_indexPrefixes {l : Nat} (hk : k ≤ 4) (hl : l ≤ 4) (hne : k ≠ l) :
    Disjoint (indexPrefixes calls k) (indexPrefixes calls l) := by
  rw [Finset.disjoint_left]
  intro q hq hq'
  exact hne ((length_of_mem_indexPrefixes hk hq).symm.trans (length_of_mem_indexPrefixes hl hq'))

theorem card_slotPaths (calls : List MapCall) : (slotPaths calls).card = tablesNeeded calls := by
  unfold slotPaths tablesNeeded
  rw [Finset.card_union_of_disjoint, Finset.card_union_of_disjoint]
  · exact disjoint_indexPrefixes (by decide) (by decide) (by decide)
  · rw [Finset.disjoint_union_left]
    exact ⟨disjoint_indexPrefixes (by decide) (by decide) (by decide),
      disjoint_indexPrefixes (by decide) (by decide) (by decide)⟩

end Prefixes

section Run
variable {σ : Type} {request : Machine σ → Nat × Machine σ} {Inv : Set Nat → Machine σ → Prop}
  {Ok : Machine σ → Prop} {PML4 : PML4Table} {m : Machine σ} {t : PageTree} {calls : List MapCall}
  {q : List Nat}

theorem mem_createdAt {p : List Nat} {requests : List (Machine σ)} {F : Nat}
    (h : (q, F) ∈ createdAt request p requests) : p = q := by
  obtain ⟨_, _, heq⟩ := List.mem_map.mp h
  exact congrArg Prod.fst heq

/-- Tables are created on the paths of the addresses mapped. -/
theorem mem_runCreated {F : Nat} (h : (q, F) ∈ runCreated request PML4 m calls) :
    q ∈ slotPaths calls := by
  rw [mem_slotPaths]
  induction calls generalizing m with
  | nil => exact absurd h List.not_mem_nil
  | cons c calls ih =>
      rw [runCreated, List.mem_append] at h
      rcases h with h | h
      · simp only [createdBy, List.mem_append] at h
        refine ⟨c, List.mem_cons_self, ?_⟩
        rcases h with (h | h) | h
        · exact ⟨1, le_rfl, by decide, mem_createdAt h⟩
        · exact ⟨2, by decide, by decide, mem_createdAt h⟩
        · exact ⟨3, by decide, le_rfl, mem_createdAt h⟩
      · obtain ⟨c', hc', hk⟩ := ih h
        exact ⟨c', List.mem_cons_of_mem _ hc', hk⟩

/-- The tree of a run: its payloads are the last writes and its slots above them are the prefixes of
the addresses mapped. -/
structure RunTree (PML4 : PML4Table) (calls : List MapCall) (mem : Memory) (t : PageTree) : Prop where
  represents : Represents PML4 mem t
  slots : ∀ q, q ≠ [] → q.length < 4 → ((∃ x, t q = some x) ↔ q ∈ slotPaths calls)

theorem runTree_of_spec (spec : AllocatorSpec request Inv Ok) (h : Paged PML4 Inv m RadixTree.empty)
    (hok : ∀ before c after, calls = before ++ c :: after →
      ∀ r ∈ requestsOf request PML4 (runCalls request PML4 m before) c.vaddr, Ok r) :
    ∃ t, RunTree PML4 calls (runCalls request PML4 m calls).mem t ∧
      Inv (tables PML4 t) (runCalls request PML4 m calls) := by
  obtain ⟨t, hpaged, hlast, hcreated⟩ := runCalls_spec spec h calls hok
  refine ⟨t, ⟨hpaged.represents, fun q hq hlen => ⟨?_, ?_⟩⟩, hpaged.allocator⟩
  · intro hin
    obtain ⟨x, hx⟩ := hin
    have htable : tableAt PML4 t q = some (x.toNat * 4096) := by
      rw [tableAt_of_ne_nil hq, hx]
      rfl
    exact mem_runCreated ((hcreated q _ hq hlen).mp htable)
  · intro hslot
    obtain ⟨c, hc, k, _, _, rfl⟩ := mem_slotPaths.mp hslot
    -- the address is mapped, and the slots on the way to a filled one are filled
    cases hx : t (pathOf c.vaddr) with
    | none =>
        rw [hlast, RadixTree.lastWrite_eq_none_iff] at hx
        exact absurd rfl (hx _ (List.mem_map.mpr ⟨c, hc, rfl⟩))
    | some x =>
        exact hpaged.represents.tree.prefix_some (r := (pathOf c.vaddr).drop k) hq
          (by rw [List.take_append_drop]; exact hx)

namespace RunTree
variable {mem : Memory}

theorem tableAt_iff (h : RunTree PML4 calls mem t) (hlen : q.length < 4) :
    (∃ T, tableAt PML4 t q = some T) ↔ q ∈ insert [] (slotPaths calls) := by
  rw [Finset.mem_insert]
  by_cases hq : q = []
  · rw [hq, tableAt_nil]
    exact iff_of_true ⟨_, rfl⟩ (Or.inl rfl)
  · rw [or_iff_right hq, ← h.slots q hq hlen, tableAt_of_ne_nil hq]
    cases t q with
    | none => simp
    | some x => simp

/-- The tables are the images of the paths to them. -/
theorem tables_eq_image (h : RunTree PML4 calls mem t) : tables PML4 t =
    (fun q => (tableAt PML4 t q).getD 0) '' (insert [] (slotPaths calls) : Finset (List Nat)) := by
  ext T
  constructor
  · intro hc
    obtain ⟨q, hq, hT⟩ := hc
    exact ⟨q, (h.tableAt_iff hq).mp ⟨T, hT⟩, by simp only [hT, Option.getD_some]⟩
  · intro hc
    obtain ⟨q, hq, rfl⟩ := hc
    have hlen := length_lt_of_mem_insert hq
    obtain ⟨T, hT⟩ := (h.tableAt_iff hlen).mpr hq
    simp only [hT, Option.getD_some]
    exact mem_tables hlen hT

/-- There are as many as paths to them, the PML4 among them. -/
theorem ncard_tables (h : RunTree PML4 calls mem t) :
    (tables PML4 t).ncard = tablesNeeded calls + 1 := by
  have hnil : [] ∉ slotPaths calls := by
    intro hc
    have := (length_of_mem_slotPaths hc).1
    exact absurd this (by decide)
  rw [h.tables_eq_image, Set.InjOn.ncard_image, Set.ncard_coe_finset,
    Finset.card_insert_of_notMem hnil, card_slotPaths]
  intro q hq r hr heq
  have hq' := length_lt_of_mem_insert hq
  have hr' := length_lt_of_mem_insert hr
  obtain ⟨T, hT⟩ := (h.tableAt_iff hq').mpr hq
  obtain ⟨T', hT'⟩ := (h.tableAt_iff hr').mpr hr
  simp only [hT, hT', Option.getD_some] at heq
  exact h.represents.tableAt_inj hq' hr' hT (heq ▸ hT')

/-- An address whose page table is there is mapped without a request. -/
theorem requestsOf_eq_nil {m : Machine σ} (h : RunTree PML4 calls m.mem t) {c : MapCall} {vaddr : Nat}
    (hc : c ∈ calls) (hpath : (pathOf c.vaddr).take 3 = (pathOf vaddr).take 3) :
    requestsOf request PML4 m vaddr = [] := by
  obtain ⟨x, hx⟩ := (h.slots ((pathOf vaddr).take 3) (by simp [pathOf]) (by simp [pathOf])).mpr
    (mem_slotPaths.mpr ⟨c, hc, 3, by decide, le_rfl, hpath⟩)
  exact MyOSKernel.requestsOf_eq_nil h.represents hx

end RunTree

end Run

/-- The counters since the machine `s`, when the tables in use are `S` and were the PML4 alone: every
other table has been locked for. -/
structure CountedTables (s : Kernel) (S : Set Nat) (m : Kernel) : Prop where
  finite : S.Finite
  locked : m.pmem.lockedFrames + 1 = s.pmem.lockedFrames + S.ncard
  free : m.pmem.freeFrames + S.ncard = s.pmem.freeFrames + 1

theorem countedTables_spec {PML4 : PML4Table} {s : Kernel} (hworld : FrameWorld PML4 s) :
    AllocatorSpec pmemRequestFrame
      (fun S m => TableFrames PML4 s [] S m ∧ CountedTables s S m) (GrantsTable PML4) := by
  refine (TableFrames.allocatorSpec hworld []).and ?_ ?_
  · intro S m htf hcount hok
    have haccounts := htf.holding.accounts
    obtain ⟨j, hj, hm, _, _⟩ := htf.request_cases hok.1
    have hj' : j < m.pmem.frames := htf.frames_eq ▸ hj
    have hlocked : (pmemRequestFrame m).2.pmem.lockedFrames = m.pmem.lockedFrames + 1 :=
      haccounts.counter_moved (by decide) hj' hm .locked
    have hfree : (pmemRequestFrame m).2.pmem.freeFrames + 1 = m.pmem.freeFrames :=
      haccounts.counter_moved (by decide) hj' hm .free
    have hcard := Set.ncard_insert_of_notMem (htf.fresh hworld hok.1 hok.2.2) hcount.finite
    have hlocked' := hcount.locked
    have hfree' := hcount.free
    refine ⟨hcount.finite.insert _, ?_, ?_⟩
    · rw [hcard, hlocked]
      omega
    · rw [hcard]
      omega
  · intro S m m' _ hcount hpmem _
    refine ⟨hcount.finite, ?_, ?_⟩
    · rw [hpmem]
      exact hcount.locked
    · rw [hpmem]
      exact hcount.free

/-- Every request of the run is in order. -/
def RequestsInOrder (PML4 : PML4Table) (s : Kernel) (calls : List MapCall) : Prop :=
  ∀ before c after, calls = before ++ c :: after →
    ∀ r ∈ requestsOf pmemRequestFrame PML4 (runCalls pmemRequestFrame PML4 s before) c.vaddr,
      GrantsTable PML4 r

section Count
variable {PML4 : PML4Table} {s : Kernel} {calls : List MapCall}

theorem RequestsInOrder.of_append {after : List MapCall}
    (h : RequestsInOrder PML4 s (calls ++ after)) : RequestsInOrder PML4 s calls := by
  intro before c rest heq
  exact h before c (rest ++ after) (by rw [heq, List.append_assoc, List.cons_append])

/-- What a run in order leaves: its tree and as many locked frames more as it needs tables. -/
theorem runTree_counted (hworld : FrameWorld PML4 s)
    (hzero : ∀ a ∈ pageBytes PML4.addr, s.mem.byte a = 0) (hok : RequestsInOrder PML4 s calls) :
    ∃ t, RunTree PML4 calls (runCalls pmemRequestFrame PML4 s calls).mem t ∧
      TableFrames PML4 s [] (tables PML4 t) (runCalls pmemRequestFrame PML4 s calls) ∧
      (runCalls pmemRequestFrame PML4 s calls).pmem.lockedFrames =
        s.pmem.lockedFrames + tablesNeeded calls ∧
      (runCalls pmemRequestFrame PML4 s calls).pmem.freeFrames + tablesNeeded calls =
        s.pmem.freeFrames := by
  have hroot : tables PML4 RadixTree.empty = {PML4.addr} := by
    ext T
    constructor
    · intro h
      obtain ⟨q, _, hT⟩ := h
      exact (tableAt_empty.mp hT).2
    · rintro rfl
      exact root_mem_tables
  have hstart : Paged PML4 (fun S m => TableFrames PML4 s [] S m ∧ CountedTables s S m) s
      RadixTree.empty := by
    refine ⟨.of_zero hzero, ⟨.init hworld.accounts, ?_, fun a ha => absurd ha List.not_mem_nil⟩, ?_⟩
    · intro T h
      obtain ⟨q, _, hT⟩ := h
      exact Or.inl (tableAt_empty.mp hT).2
    · rw [hroot]
      exact ⟨Set.finite_singleton _, by rw [Set.ncard_singleton], by rw [Set.ncard_singleton]⟩
  obtain ⟨t, htree, htf, hcount⟩ := runTree_of_spec (countedTables_spec hworld) hstart hok
  have hcard := htree.ncard_tables
  have hlocked := hcount.locked
  have hfree := hcount.free
  exact ⟨t, htree, htf, by omega, by omega⟩

/-- **Paging takes exactly the frames it needs.** A run of calls from an all-zero PML4 locks a frame
for every distinct PML4 index, every distinct pair of PML4 and PDPT indexes and every distinct triple
down to the PD; a call for a page whose page table is there requests nothing, and the total does not
depend on the order of the calls. -/
theorem paging_takes_frames_needed (PML4 : PML4Table) (s : Kernel) (hworld : FrameWorld PML4 s)
    (hzero : ∀ a ∈ pageBytes PML4.addr, s.mem.byte a = 0) (calls : List MapCall)
    (hok : RequestsInOrder PML4 s calls) :
    (runCalls pmemRequestFrame PML4 s calls).pmem.lockedFrames =
      s.pmem.lockedFrames + tablesNeeded calls ∧
    (∀ before c after, calls = before ++ c :: after →
      (∃ c' ∈ before, (pathOf c'.vaddr).take 3 = (pathOf c.vaddr).take 3) →
      requestsOf pmemRequestFrame PML4 (runCalls pmemRequestFrame PML4 s before) c.vaddr = []) ∧
    ∀ calls' : List MapCall, calls'.Perm calls → RequestsInOrder PML4 s calls' →
      (runCalls pmemRequestFrame PML4 s calls').pmem.lockedFrames =
        (runCalls pmemRequestFrame PML4 s calls).pmem.lockedFrames := by
  obtain ⟨_, _, _, hlocked, _⟩ := runTree_counted hworld hzero hok
  refine ⟨hlocked, ?_, ?_⟩
  · intro before c after heq hexists
    obtain ⟨c', hc', hpath⟩ := hexists
    rw [heq] at hok
    obtain ⟨t, htree, _⟩ := runTree_counted hworld hzero hok.of_append
    exact htree.requestsOf_eq_nil hc' hpath
  · intro calls' hperm hok'
    obtain ⟨_, _, _, hlocked', _⟩ := runTree_counted hworld hzero hok'
    rw [hlocked, hlocked', tablesNeeded_perm hperm]

/-! ### Enough frames -/

theorem length_missing {σ : Type} {m : Machine σ} {t : PageTree} {q : List Nat} {T i : Nat}
    (h : Represents PML4 m.mem t) (hq : q.length < 4) (hT : tableAt PML4 t q = some T) (hi : i < 512) :
    (missing m T i).length = if t (q ++ [i]) = none then 1 else 0 := by
  unfold missing
  simp only [h.entry q T hq hT i hi, present_entryOf]
  split_ifs
  · rfl
  · rfl

/-- With a free frame for each table that is missing all requests of a call are in order. -/
theorem TableWorld.requests_of_free {m : Kernel} {t : PageTree} {vaddr : Nat}
    (hworld : TableWorld PML4 s) (h : Paged PML4 (TableFrames PML4 s []) m t)
    (hle : (if t ((pathOf vaddr).take 1) = none then 1 else 0) +
      (if t ((pathOf vaddr).take 2) = none then 1 else 0) +
      (if t ((pathOf vaddr).take 3) = none then 1 else 0) ≤ m.pmem.freeFrames) :
    ∀ r ∈ requestsOf pmemRequestFrame PML4 m vaddr, GrantsTable PML4 r := by
  have hspec := hworld.allocatorSpec []
  obtain ⟨h4, h3, h2, _⟩ := indexes_lt vaddr
  apply hworld.requests_grant h
  have hlt : m.pmem.freeFrames < 2 ^ 64 := by
    have hle : m.pmem.freeFrames ≤ m.pmem.frames := h.allocator.holding.accounts.counter_le .free
    have hframes : m.pmem.frames ≤ 2 ^ 60 := h.allocator.holding.accounts.frames_le
    omega
  set indexes := extractVaddrPagingIndexes vaddr with hindexes
  have htake1 : (pathOf vaddr).take 1 = [] ++ [indexes.pml4Entry] := rfl
  have htake2 : (pathOf vaddr).take 2 = [indexes.pml4Entry] ++ [indexes.pdptEntry] := rfl
  have htake3 : (pathOf vaddr).take 3 = [indexes.pml4Entry, indexes.pdptEntry] ++ [indexes.pdEntry] :=
    rfl
  rw [htake1, htake2, htake3] at hle
  -- the PDPT
  have hlen1 := length_missing h.represents (by decide) tableAt_nil h4
  obtain ⟨hlt1, hle1, hfree1⟩ := le_freeFrames_nextTable PML4.addr indexes.pml4Entry hlt
    (k := (if t ([indexes.pml4Entry] ++ [indexes.pdptEntry]) = none then 1 else 0) +
      (if t ([indexes.pml4Entry, indexes.pdptEntry] ++ [indexes.pdEntry]) = none then 1 else 0))
    (by rw [hlen1]; omega)
  obtain ⟨t1, hPDPT⟩ := nextTable_spec hspec h (q := []) (by simp) tableAt_nil h4 hfree1
  have hkept2 : t1 ([indexes.pml4Entry] ++ [indexes.pdptEntry]) =
      t ([indexes.pml4Entry] ++ [indexes.pdptEntry]) :=
    (hPDPT.grown _ ⟨[indexes.pdptEntry], rfl⟩ (by simp)).payload le_rfl
  have hkept3 : t1 ([indexes.pml4Entry, indexes.pdptEntry] ++ [indexes.pdEntry]) =
      t ([indexes.pml4Entry, indexes.pdptEntry] ++ [indexes.pdEntry]) :=
    (hPDPT.grown _ ⟨[indexes.pdptEntry, indexes.pdEntry], rfl⟩ (by simp)).payload le_rfl
  -- the PD
  have hlen2 := length_missing hPDPT.paged.represents (q := [indexes.pml4Entry]) (by simp)
    hPDPT.table h3
  rw [hkept2] at hlen2
  obtain ⟨hlt2, hle2, hfree2⟩ := le_freeFrames_nextTable _ indexes.pdptEntry hlt1
    (k := if t ([indexes.pml4Entry, indexes.pdptEntry] ++ [indexes.pdEntry]) = none then 1 else 0)
    (by rw [hlen2]; omega)
  obtain ⟨t2, hPD⟩ := nextTable_spec hspec hPDPT.paged (q := [indexes.pml4Entry]) (by simp)
    hPDPT.table h3 hfree2
  have hkept3' : t2 ([indexes.pml4Entry, indexes.pdptEntry] ++ [indexes.pdEntry]) =
      t1 ([indexes.pml4Entry, indexes.pdptEntry] ++ [indexes.pdEntry]) :=
    (hPD.grown _ ⟨[indexes.pdEntry], rfl⟩ (by simp)).payload le_rfl
  -- the PT
  have hlen3 := length_missing hPD.paged.represents (q := [indexes.pml4Entry, indexes.pdptEntry])
    (by simp) hPD.table h2
  rw [hkept3', hkept3] at hlen3
  obtain ⟨_, _, hfree3⟩ := le_freeFrames_nextTable _ indexes.pdEntry hlt2 (k := 0)
    (by rw [hlen3]; omega)
  intro r hr
  simp only [requestsOf, List.mem_append] at hr
  rcases hr with (hr | hr) | hr
  · exact hfree1 r hr
  · exact hfree2 r hr
  · exact hfree3 r hr

/-- One call more needs a table for each of its three slots that no call before has used. -/
theorem tablesNeeded_append_singleton (calls : List MapCall) (c : MapCall) :
    tablesNeeded (calls ++ [c]) = tablesNeeded calls +
      (if (pathOf c.vaddr).take 1 ∈ slotPaths calls then 0 else 1) +
      (if (pathOf c.vaddr).take 2 ∈ slotPaths calls then 0 else 1) +
      (if (pathOf c.vaddr).take 3 ∈ slotPaths calls then 0 else 1) := by
  have htaken {k : Nat} (hlow : 1 ≤ k) (hhigh : k ≤ 3) : (indexPrefixes (calls ++ [c]) k).card =
      (indexPrefixes calls k).card + if (pathOf c.vaddr).take k ∈ slotPaths calls then 0 else 1 := by
    have hinsert : indexPrefixes (calls ++ [c]) k =
        insert ((pathOf c.vaddr).take k) (indexPrefixes calls k) := by
      ext q
      simp only [mem_indexPrefixes, Finset.mem_insert, List.mem_append, List.mem_singleton, or_and_right,
        exists_or, exists_eq_left]
      rw [or_comm, eq_comm]
    have hmem : (pathOf c.vaddr).take k ∈ slotPaths calls ↔
        (pathOf c.vaddr).take k ∈ indexPrefixes calls k := by
      rw [mem_slotPaths, mem_indexPrefixes]
      constructor
      · intro h
        obtain ⟨c', hc', l, _, hl, heq⟩ := h
        have hlen := congrArg List.length heq
        rw [List.length_take, List.length_take] at hlen
        have hlk : l = k := by
          simp only [pathOf, List.length_cons, List.length_nil] at hlen
          omega
        exact ⟨c', hc', hlk ▸ heq⟩
      · intro h
        obtain ⟨c', hc', heq⟩ := h
        exact ⟨c', hc', k, hlow, hhigh, heq⟩
    rw [hinsert]
    split_ifs with hc
    · rw [Finset.insert_eq_of_mem (hmem.mp hc)]
      rfl
    · rw [Finset.card_insert_of_notMem fun hin => hc (hmem.mpr hin)]
  unfold tablesNeeded
  rw [htaken (by decide) (by decide), htaken (by decide) (by decide), htaken (by decide) (by decide)]
  omega

theorem tablesNeeded_mono {calls' : List MapCall} (h : calls ⊆ calls') :
    tablesNeeded calls ≤ tablesNeeded calls' := by
  have hcard (k : Nat) := Finset.card_le_card (indexPrefixes_mono (k := k) h)
  exact Nat.add_le_add (Nat.add_le_add (hcard 1) (hcard 2)) (hcard 3)

/-- With a free frame below `2^32` for every table needed, all requests of the run are in order. -/
theorem TableWorld.requestsInOrder (hworld : TableWorld PML4 s)
    (hle : tablesNeeded calls ≤ s.pmem.freeFrames) : RequestsInOrder PML4 s calls := by
  have hruns : ∀ before after, calls = before ++ after → RequestsInOrder PML4 s before := by
    intro before
    induction before using List.reverseRecOn with
    | nil =>
        intro _ _ before c after heq
        exact absurd heq.symm (by simp)
    | append_singleton before c ih =>
        intro after heq before' c' after' heq'
        rw [List.append_assoc] at heq
        have hok := ih _ heq
        rcases List.eq_nil_or_concat after' with rfl | ⟨rest, last, rfl⟩
        · -- the last call of the run
          obtain ⟨rfl, hc⟩ := List.append_inj' heq' rfl
          obtain rfl : c = c' := by simpa using hc
          obtain ⟨t, htree, htf, _, hfree⟩ := runTree_counted hworld.toFrameWorld hworld.zero hok
          have hsub : before ++ [c] ⊆ calls := by
            rw [heq, ← List.append_assoc]
            exact List.subset_append_left _ _
          have hmono := tablesNeeded_mono hsub
          have hcount := tablesNeeded_append_singleton before c
          have hslot {k : Nat} (hlow : 1 ≤ k) (hhigh : k ≤ 3) :
              (if t ((pathOf c.vaddr).take k) = none then 1 else 0) =
                if (pathOf c.vaddr).take k ∈ slotPaths before then 0 else 1 := by
            have hlen : ((pathOf c.vaddr).take k).length = k := by
              rw [List.length_take]
              exact Nat.min_eq_left (hhigh.trans (show 3 ≤ 4 by decide))
            have hslots := htree.slots ((pathOf c.vaddr).take k)
              (fun hc => by rw [hc] at hlen; exact absurd hlen (by simp; omega)) (by omega)
            cases hx : t ((pathOf c.vaddr).take k) with
            | none =>
                rw [if_pos rfl, if_neg]
                intro hmem
                obtain ⟨x, hx'⟩ := hslots.mpr hmem
                rw [hx] at hx'
                exact absurd hx' (by simp)
            | some x => rw [if_neg (by simp), if_pos (hslots.mp ⟨x, hx⟩)]
          apply hworld.requests_of_free ⟨htree.represents, htf⟩
          rw [hslot le_rfl (by decide), hslot (by decide) (by decide), hslot (by decide) le_rfl]
          omega
        · refine hok before' c' rest ?_
          have hconcat : before ++ [c] = (before' ++ c' :: rest) ++ [last] := by
            rw [heq']
            simp
          exact (List.append_inj' hconcat rfl).1
  exact hruns calls [] (List.append_nil _).symm

end Count

/-- Three pages in two page tables of one directory, one of them mapped twice. -/
def twoTablesCalls : List MapCall :=
  [⟨0x1000, 0x1000⟩, ⟨0x200000, 0x3000⟩, ⟨0x2000, 0x5000⟩, ⟨0x1000, 0x7000⟩]

/-- They take the four frames there are. -/
theorem paging_takes_frames_needed_fourFreeFrames :
    (runCalls pmemRequestFrame fourthPagePML4 fourFreeFrames twoTablesCalls).pmem.lockedFrames = 4 := by
  have hneeded : tablesNeeded twoTablesCalls = 4 := by decide +kernel
  have hlocked := (paging_takes_frames_needed fourthPagePML4 fourFreeFrames
    tableWorld_fourFreeFrames.toFrameWorld tableWorld_fourFreeFrames.zero twoTablesCalls
    (tableWorld_fourFreeFrames.requestsInOrder (by rw [hneeded]; decide))).1
  rw [hneeded] at hlocked
  exact hlocked

end MyOSKernel
