import MyOSKernel.PagingAliasing

/-! `map_vaddr_to_paddr` when there is a free frame for every table it misses, wherever the frames lie:
the page is mapped, and stores go to the slot the walk was stuck at and to the frames taken alone. -/

namespace MyOSKernel

open PhysicalMemory

theorem pageBehind_linked {mem : Memory} {T i : Nat} {x : BitVec 32} (r : List Nat)
    (h : loadEntry mem (entryPtr T i) = PagingEntry.linked x) :
    pageBehind mem T (i :: r) = pageBehind mem (x.toNat * 4096) r := by
  rw [pageBehind_of_table (by rw [h]; simp) (by rw [h]; simp), h, PagingEntry.physAddr_linked]

section Enough
variable {PML4 : PML4Table} {m : Kernel} {t : PageTree} {q : List Nat} {J : List Nat}
  {i j d T T' vaddr paddr : Nat}

theorem OnTheWay.cons {i' : Nat} (h : OnTheWay m J T i T' i') : OnTheWay m (j :: J) T i T' i' := by
  rcases h with htable | ⟨k, hk, hfree⟩
  · exact Or.inl htable
  · exact Or.inr ⟨k, List.mem_cons_of_mem _ hk, hfree⟩

/-- A level of the descent that is granted a frame: the frame is blank and linked from the slot above,
and the other entries of the tables on the way are as they were. -/
structure NewLevel (m : Kernel) (T i : Nat) (J : List Nat) (s : Nat × Kernel) (i' j : Nat)
    (next : Nat × Kernel) : Prop where
  frame : FreeFrame m next.1
  way : ∀ k, OnTheWay m (j :: J) T i next.1 k
  fresh : ∀ T' k, OnTheWay m J T i T' k → T' ≠ next.1
  reached : Reached m (slotBytes T i) (j :: J) next.2
  link : loadEntry next.2.mem (entryPtr s.1 i') = PagingEntry.linked (BitVec.ofNat 32 (next.1 >>> 12))
  blank : ∀ k < 512, loadEntry next.2.mem (entryPtr next.1 k) = PagingEntry.blank
  others : ∀ T' k l, OnTheWay m J T i T' k → l < 512 → ¬(T' = s.1 ∧ l = i') →
    loadEntry next.2.mem (entryPtr T' l) = loadEntry s.2.mem (entryPtr T' l)
  count : next.2.pmem.freeFrames + 1 = s.2.pmem.freeFrames

theorem Reached.newLevel (hm : PageTableState PML4 m t) (hslot : EmptySlot PML4 t q i T)
    {s : Nat × Kernel} {i' : Nat} (h : Reached m (slotBytes T i) J s.2) (hway : OnTheWay m J T i s.1 i')
    (hi : i' < 512) (hblank : loadEntry s.2.mem (entryPtr s.1 i') = PagingEntry.blank)
    (hfree : s.2.pmem.freeFrames ≠ 0) :
    ∃ j, NewLevel m T i J s i' j (nextTable pmemRequestFrame s.2 s.1 i') := by
  obtain ⟨j, F, g, _, hF, haddr, hJ, hcreated, hcount⟩ := h.create hm (hslot.disjoint_array hm)
    (hway.apart hslot hm) hi hblank hway.inFree hfree
  obtain ⟨hj, hstate⟩ := hcreated.reached.granted j List.mem_cons_self
  have hfresh : ∀ T' k, OnTheWay m J T i T' k → T' ≠ F := fun T' k hT' hc =>
    hT'.ne_granted hslot hm hj hstate hJ (haddr.trans hc.symm)
  have htable := hcreated.table
  refine ⟨j, htable ▸ hF, fun k => Or.inr ⟨j, List.mem_cons_self, hj, hstate, haddr.trans htable.symm⟩,
    htable ▸ hfresh, hcreated.reached, ?_, fun k hk => ?_, fun T' k l hT' hl hother => ?_, hcount⟩
  · rw [hcreated.entry s.1 i' (hway.apart hslot hm) hi, if_pos ⟨rfl, rfl⟩, htable]
  · rw [htable, hcreated.entry F k (hm.apart_free hF) hk,
      if_neg fun hc => hfresh s.1 i' hway hc.1.symm, if_pos rfl]
  · rw [hcreated.entry T' l (hT'.apart hslot hm) hl, if_neg hother, if_neg (hfresh T' k hT')]

/-- The way down from a table on it: the slot there leads to the page mapped, and the other entries of
the tables on the way are as they were. -/
structure Descends (m : Kernel) (T i : Nat) (J : List Nat) (s : Nat × Kernel) (i' : Nat)
    (below : List Nat) (paddr : Nat) (m' : Kernel) (J' : List Nat) (x : BitVec 32) : Prop where
  reached : Reached m (slotBytes T i) J' m'
  link : loadEntry m'.mem (entryPtr s.1 i') = PagingEntry.linked x
  page : pageBehind m'.mem (x.toNat * 4096) below = some (pageOf paddr, 12)
  others : ∀ T' k j, OnTheWay m J T i T' k → j < 512 → ¬(T' = s.1 ∧ j = i') →
    loadEntry m'.mem (entryPtr T' j) = loadEntry s.2.mem (entryPtr T' j)

/-- With a frame left for each level the descent creates the tables and the page is stored into the
last one. -/
theorem Reached.descends (paddr : Nat) (hm : PageTableState PML4 m t)
    (hslot : EmptySlot PML4 t q i T) {s : Nat × Kernel} {i' : Nat} {is : List Nat}
    (h : Reached m (slotBytes T i) J s.2) (hway : OnTheWay m J T i s.1 i')
    (his : ∀ k ∈ i' :: is, k < 512) (hd : d < 512)
    (hblank : loadEntry s.2.mem (entryPtr s.1 i') = PagingEntry.blank)
    (henough : is.length < s.2.pmem.freeFrames) {r : Nat × Kernel}
    (hr : r = descendFrom pmemRequestFrame s (i' :: is)) :
    ∃ J' x, Descends m T i J s i' (is ++ [d]) paddr (MyOSKernel.setPage r.2 r.1 d paddr) J' x := by
  induction is generalizing J s i' with
  | nil =>
      have hi := his i' (by simp)
      obtain ⟨j, hlevel⟩ := h.newLevel hm hslot hway hi hblank (Nat.ne_of_gt henough)
      obtain rfl : r = nextTable pmemRequestFrame s.2 s.1 i' := hr
      obtain ⟨hset, hentry⟩ :=
        hlevel.reached.setPage paddr hm (hslot.disjoint_array hm) hlevel.frame hd
      generalize nextTable pmemRequestFrame s.2 s.1 i' = next at *
      -- the page is stored into the new table alone
      have hkept : ∀ T' k l, OnTheWay m J T i T' k → l < 512 →
          loadEntry (MyOSKernel.setPage next.2 next.1 d paddr).mem (entryPtr T' l) =
            loadEntry next.2.mem (entryPtr T' l) := by
        intro T' k l hT' hl
        rw [hentry T' l (hT'.apart hslot hm) hl, if_neg fun hc => hlevel.fresh T' k hT' hc.1]
      refine ⟨_, _, hset, (hkept s.1 i' i' hway hi).trans hlevel.link, ?_, fun T' k l hT' hl hother =>
        (hkept T' k l hT' hl).trans (hlevel.others T' k l hT' hl hother)⟩
      rw [hm.page_free hlevel.frame]
      refine pageBehind_linked (x := BitVec.ofNat 32 (paddr >>> 12)) [] ?_
      rw [hentry next.1 d (hm.apart_free hlevel.frame) hd, if_pos ⟨rfl, rfl⟩, hlevel.blank d hd,
        PagingEntry.link_blank]
  | cons k is ih =>
      rw [List.length_cons] at henough
      have hi := his i' (by simp)
      obtain ⟨j, hlevel⟩ := h.newLevel hm hslot hway hi hblank (by omega)
      have hcount := hlevel.count
      obtain ⟨J', x, hbelow⟩ := ih hlevel.reached (hlevel.way k)
        (fun l hl => his l (List.mem_cons_of_mem _ hl)) (hlevel.blank k (his k (by simp))) (by omega) hr
      generalize nextTable pmemRequestFrame s.2 s.1 i' = next at *
      -- what the levels below leave of this one
      have hkept : ∀ T' l l', OnTheWay m J T i T' l → l' < 512 →
          loadEntry (MyOSKernel.setPage r.2 r.1 d paddr).mem (entryPtr T' l') =
            loadEntry next.2.mem (entryPtr T' l') := by
        intro T' l l' hT' hl'
        exact hbelow.others T' l l' hT'.cons hl' fun hc => hlevel.fresh T' l hT' hc.1
      refine ⟨J', _, hbelow.reached, (hkept s.1 i' i' hway hi).trans hlevel.link, ?_,
        fun T' l l' hT' hl' hother =>
          (hkept T' l l' hT' hl').trans (hlevel.others T' l l' hT' hl' hother)⟩
      rw [hm.page_free hlevel.frame, List.cons_append, pageBehind_linked _ hbelow.link]
      exact hbelow.page

/-- A walk that misses no table arrives at one. -/
theorem walkTo_of_stuck {mem : Memory} (h : (stuck mem PML4 vaddr).1 = 0) :
    walkTo PagingEntry.kernelTable mem PML4.addr ((pathOf vaddr).take 3) =
      some (stuck mem PML4 vaddr).2 := by
  unfold stuck at h ⊢
  dsimp only at h ⊢
  split_ifs at h ⊢ with h4 h3 h2
  rw [pathOf, List.take_succ_cons, List.take_succ_cons, List.take_succ_cons, List.take_zero, walkTo,
    PagingEntry.kernelTable_of_present h4, Option.bind_some, walkTo,
    PagingEntry.kernelTable_of_present h3, Option.bind_some, walkTo,
    PagingEntry.kernelTable_of_present h2, Option.bind_some, walkTo]

/-- What a call leaves that finds enough frames: it has filled one slot on the path of the address, and
the address is translated to the page mapped. -/
structure Succeeds (PML4 : PML4Table) (m : Kernel) (t : PageTree) (vaddr paddr : Nat) (m' : Kernel)
    (q : List Nat) (i T : Nat) (J : List Nat) : Prop where
  path : q ++ [i] <+: pathOf vaddr
  table : tableAt PML4 t q = some T
  reached : Reached m (slotBytes T i) J m'
  link : ∃ x, loadEntry m'.mem (entryPtr T i) = PagingEntry.linked x
  translation : translate m'.mem PML4 vaddr = some (pageOf paddr + vaddr % 4096)

namespace Succeeds
variable {m' : Kernel}

theorem length_lt (h : Succeeds PML4 m t vaddr paddr m' q i T J) : q.length < 4 := by
  have hlen := h.path.length_le
  rw [List.length_append, List.length_singleton] at hlen
  exact hlen

theorem path_lt (h : Succeeds PML4 m t vaddr paddr m' q i T J) : (∀ k ∈ q, k < 512) ∧ i < 512 :=
  ⟨fun k hk => pathOf_lt vaddr k (h.path.subset (List.mem_append_left _ hk)),
    pathOf_lt vaddr i (h.path.subset (by simp))⟩

end Succeeds

/-- The slot leads to the page. -/
theorem succeeds_of_page (below : List Nat) (hm : PageTableState PML4 m t) {m' : Kernel} {x : BitVec 32}
    (hpath : q ++ [i] ++ below = pathOf vaddr) (hT : tableAt PML4 t q = some T)
    (hreached : Reached m (slotBytes T i) J m')
    (hlink : loadEntry m'.mem (entryPtr T i) = PagingEntry.linked x)
    (hpage : pageBehind m'.mem (x.toNat * 4096) below = some (pageOf paddr, 12)) :
    Succeeds PML4 m t vaddr paddr m' q i T J := by
  have hlen := congrArg List.length hpath
  rw [List.length_append, List.length_append, List.length_singleton,
    show (pathOf vaddr).length = 4 from rfl] at hlen
  have hslots : q ++ [i] <+: pathOf vaddr := ⟨below, hpath⟩
  have hq : ∀ k ∈ q, k < 512 := fun k hk =>
    pathOf_lt vaddr k (hslots.subset (List.mem_append_left _ hk))
  have hwalk := hreached.walkTo_eq hm (by omega) hT (pathOf_lt vaddr i (hslots.subset (by simp))) hq
  refine ⟨hslots, hT, hreached, ⟨x, hlink⟩, ?_⟩
  rw [translate_eq_pageBehind, ← hpath, List.append_assoc, pageBehind_append hwalk,
    List.singleton_append, pageBehind_linked _ hlink, hpage]
  rfl

/-- With a free frame for every table it misses a call succeeds. -/
theorem mapVaddrToPaddr_succeeds (vaddr paddr : Nat) (hm : PageTableState PML4 m t)
    (henough : (stuck m.mem PML4 vaddr).1 ≤ m.pmem.freeFrames) :
    ∃ q i T J, Succeeds PML4 m t vaddr paddr (mapVaddrToPaddr pmemRequestFrame PML4 m vaddr paddr)
      q i T J := by
  obtain ⟨_, _, _, h1⟩ := indexes_lt vaddr
  have hmap : mapVaddrToPaddr pmemRequestFrame PML4 m vaddr paddr =
      setPage (descendPT pmemRequestFrame PML4 m vaddr).2 (descendPT pmemRequestFrame PML4 m vaddr).1
        (extractVaddrPagingIndexes vaddr).ptEntry paddr := rfl
  rcases Nat.eq_zero_or_pos (stuck m.mem PML4 vaddr).1 with hnone | hsome
  · -- the page table is there
    have hT := walkTo_of_stuck hnone
    rw [hm.represents.walkTo_root decodes_kernelTable (by simp [pathOf])
      fun k hk => pathOf_lt vaddr k (List.mem_of_mem_take hk)] at hT
    have hT' := hT
    rw [tableAt_of_ne_nil (by simp [pathOf])] at hT'
    obtain ⟨y, hy, htable⟩ := Option.map_eq_some_iff.mp hT'
    rw [← htable] at hT
    have hmem := mem_tables (by simp [pathOf]) hT
    have hpage := hm.apart_table hmem
    rw [hmap, (descendPT_of_table pmemRequestFrame hm.represents hy).1]
    refine ⟨(pathOf vaddr).take 3, (extractVaddrPagingIndexes vaddr).ptEntry, _, [],
      succeeds_of_page (x := BitVec.ofNat 32 (paddr >>> 12)) [] hm rfl hT ?_ ?_ rfl⟩
    · exact (Reached.refl hm.accounts _).write
        (hpage.apart.mono_left (entry_subset_page hpage.inSpace h1)) (fun _ => hm.apart_free) rfl
        fun a ha _ => storeEntry_byte_of_notMem ha
    · rw [setPage, loadEntry_linkEntry hpage.aligned hpage.aligned hpage.inSpace hpage.inSpace h1 h1,
        if_pos ⟨rfl, rfl⟩, hm.represents.entry _ _ (by simp [pathOf]) hT _ h1]
      cases t ((pathOf vaddr).take 3 ++ [(extractVaddrPagingIndexes vaddr).ptEntry]) with
      | none => exact PagingEntry.link_blank _
      | some z => exact PagingEntry.link_linked z _
  · obtain ⟨q, i, is, T, hstuck, hslot, hdescend, hpath, _⟩ :=
      exists_slot_of_stuck pmemRequestFrame hm.represents hsome
    rw [hstuck] at henough
    obtain ⟨J, x, hdown⟩ := (Reached.refl hm.accounts _).descends (s := (T, m)) paddr hm hslot
      (Or.inl ⟨rfl, rfl⟩) (fun k hk => pathOf_lt vaddr k (by
        rw [← hpath]
        exact List.mem_append_left _ (List.mem_append_right _ hk))) h1 (hslot.blank hm.represents)
      (Nat.lt_of_succ_le henough) hdescend
    rw [hmap]
    refine ⟨q, i, T, J, succeeds_of_page _ hm ?_ hslot.table hdown.reached hdown.link hdown.page⟩
    rw [← hpath]
    simp

end Enough

end MyOSKernel
