import MyOSKernel.Paging
import MyOSKernel.RadixTree

/-! The page tables in memory as a radix tree of address fields. The representation invariant says
that the PML4 and the tables its entries lead to are distinct pages whose words are the encodings of
the tree's slots; it is kept by creating a table and by setting a page. -/

namespace MyOSKernel

namespace PagingEntry

/-- The entry of a zeroed table. -/
def blank : PagingEntry := ⟨0, 0, 0, 0, 0⟩

/-- The entry `map_vaddr_to_paddr` leaves: present, writable, no other flag. -/
def linked (x : BitVec 32) : PagingEntry := ⟨1, 1, 0, x, 0⟩

theorem toWord_lt (e : PagingEntry) : e.toWord < 2 ^ 64 := by
  have hpresent := e.present.isLt
  have hrw := e.rw.isLt
  have hflags := e.flags.isLt
  have haddr := e.addr.isLt
  have hupper := e.upper.isLt
  unfold toWord
  omega

@[simp] theorem ofWord_toWord (e : PagingEntry) : ofWord e.toWord = e := by
  have hpresent := e.present.isLt
  have hrw := e.rw.isLt
  have hflags := e.flags.isLt
  have haddr := e.addr.isLt
  have hupper := e.upper.isLt
  cases e with
  | mk present rw flags addr upper =>
      simp only [ofWord, toWord, PagingEntry.mk.injEq]
      refine ⟨?_, ?_, ?_, ?_, ?_⟩ <;> apply BitVec.eq_of_toNat_eq <;> rw [BitVec.toNat_ofNat] <;>
        simp only at hpresent hrw hflags haddr hupper <;> omega

theorem toWord_ofWord {w : Nat} (hw : w < 2 ^ 64) : (ofWord w).toWord = w := by
  simp only [ofWord, toWord, BitVec.toNat_ofNat]
  omega

@[simp] theorem ofWord_zero : ofWord 0 = blank := rfl

@[simp] theorem link_blank (frame : Nat) : blank.link frame = linked (BitVec.ofNat 32 (frame >>> 12)) :=
  rfl

@[simp] theorem link_linked (x : BitVec 32) (frame : Nat) :
    (linked x).link frame = linked (BitVec.ofNat 32 (frame >>> 12)) := rfl

@[simp] theorem present_blank : blank.present = 0 := rfl

@[simp] theorem present_linked (x : BitVec 32) : (linked x).present = 1 := rfl

theorem tableAddr_linked {x : BitVec 32} (hx : x.toNat < 2 ^ 20) :
    (linked x).tableAddr = x.toNat * 4096 := by
  rw [tableAddr, Nat.shiftLeft_eq]
  show x.toNat * 2 ^ 12 % 2 ^ 32 = _
  omega

theorem toWord_linked (x : BitVec 32) : (linked x).toWord = 3 + x.toNat * 2 ^ 12 := by
  show 1 + 1 * 2 + 0 * 2 ^ 2 + x.toNat * 2 ^ 12 + 0 * 2 ^ 44 = _
  omega

@[simp] theorem physAddr_linked (x : BitVec 32) : (linked x).physAddr = x.toNat * 4096 := by
  have hx := x.isLt
  rw [physAddr, toWord_linked]
  omega

/-- The code never makes a large page. -/
@[simp] theorem ps_linked (x : BitVec 32) : (linked x).ps = 0 := by
  rw [ps, toWord_linked]
  apply BitVec.eq_of_toNat_eq
  rw [BitVec.toNat_ofNat]
  show (3 + x.toNat * 2 ^ 12) / 2 ^ 7 % 2 ^ 1 = 0
  omega

end PagingEntry

section Memory
variable {mem mem' : Memory} {ptr ptr' : Nat} {e : PagingEntry}

theorem loadEntry_congr (h : Set.EqOn mem'.byte mem.byte (Set.Ico ptr (ptr + 8))) :
    loadEntry mem' ptr = loadEntry mem ptr := by
  rw [loadEntry, loadEntry, Memory.loadLE_congr h]

@[simp] theorem loadEntry_storeEntry : loadEntry (storeEntry mem ptr e) ptr = e := by
  rw [loadEntry, storeEntry, Memory.loadLE_storeLE, Nat.mod_eq_of_lt (lt_of_lt_of_eq e.toWord_lt
    (by decide)), PagingEntry.ofWord_toWord]

theorem storeEntry_byte_of_notMem {a : Nat} (h : a ∉ Set.Ico ptr (ptr + 8)) :
    (storeEntry mem ptr e).byte a = mem.byte a := Memory.storeLE_byte_of_notMem _ h

theorem loadEntry_storeEntry_of_disjoint (h : ptr' + 8 ≤ ptr ∨ ptr + 8 ≤ ptr') :
    loadEntry (storeEntry mem ptr e) ptr' = loadEntry mem ptr' :=
  loadEntry_congr fun a ha => storeEntry_byte_of_notMem fun ha' => by
    have := ha.1; have := ha.2; have := ha'.1; have := ha'.2
    omega

theorem loadEntry_of_zero (h : ∀ a ∈ Set.Ico ptr (ptr + 8), mem.byte a = 0) :
    loadEntry mem ptr = PagingEntry.blank := by
  rw [loadEntry, Memory.loadLE_eq_zero h, PagingEntry.ofWord_zero]

end Memory

/-- The bytes of the page at `base`. -/
def pageBytes (base : Nat) : Set Nat := Set.Ico base (base + 4096)

section Pages
variable {table table' i j : Nat}

theorem entryPtr_eq (htable : table + 4096 ≤ 2 ^ 64) (hi : i < 512) :
    entryPtr table i = table + 8 * i := by
  rw [entryPtr, Nat.mod_eq_of_lt (by omega)]

theorem entry_subset_page (htable : table + 4096 ≤ 2 ^ 64) (hi : i < 512) :
    Set.Ico (entryPtr table i) (entryPtr table i + 8) ⊆ pageBytes table := by
  rw [entryPtr_eq htable hi]
  exact Set.Ico_subset_Ico (by omega) (by omega)

/-- Distinct aligned pages have no byte in common. -/
theorem pageBytes_disjoint (h : 4096 ∣ table) (h' : 4096 ∣ table') (hne : table ≠ table') :
    Disjoint (pageBytes table) (pageBytes table') := by
  rw [Set.disjoint_left]
  intro a ha ha'
  have := ha.1; have := ha.2; have := ha'.1; have := ha'.2
  omega

end Pages

section Words
variable {mem : Memory} {table table' frame i j : Nat}

/-- Linking an entry changes the word of that entry only. -/
theorem loadEntry_linkEntry (h : 4096 ∣ table) (h' : 4096 ∣ table') (hs : table + 4096 ≤ 2 ^ 64)
    (hs' : table' + 4096 ≤ 2 ^ 64) (hi : i < 512) (hj : j < 512) :
    loadEntry (linkEntry mem (entryPtr table i) frame) (entryPtr table' j) =
      if table' = table ∧ j = i then (loadEntry mem (entryPtr table i)).link frame
      else loadEntry mem (entryPtr table' j) := by
  by_cases heq : table' = table ∧ j = i
  · obtain ⟨rfl, rfl⟩ := heq
    rw [if_pos ⟨rfl, rfl⟩, linkEntry, loadEntry_storeEntry]
  · rw [if_neg heq, linkEntry, loadEntry_storeEntry_of_disjoint]
    rw [entryPtr_eq hs hi, entryPtr_eq hs' hj]
    omega

/-- A page set to zero holds blank entries, and no other page's entries change. -/
theorem loadEntry_memset (h : 4096 ∣ frame) (h' : 4096 ∣ table) (hs : frame + 4096 ≤ 2 ^ 64)
    (hs' : table + 4096 ≤ 2 ^ 64) (hi : i < 512) :
    loadEntry (memset mem frame 0 4096) (entryPtr table i) =
      if table = frame then PagingEntry.blank else loadEntry mem (entryPtr table i) := by
  have hsubset := entry_subset_page hs' hi
  by_cases heq : table = frame
  · subst heq
    rw [if_pos rfl]
    exact loadEntry_of_zero fun a ha => memset_byte_of_mem hs (hsubset ha)
  · rw [if_neg heq]
    apply loadEntry_congr
    intro a ha
    exact memset_byte_of_notMem hs
      (Set.disjoint_left.mp (pageBytes_disjoint h' h heq) (hsubset ha))

end Words

/-- The indexes of a virtual address from the PML4 down. -/
def pathOf (vaddr : Nat) : List Nat :=
  [(extractVaddrPagingIndexes vaddr).pml4Entry, (extractVaddrPagingIndexes vaddr).pdptEntry,
    (extractVaddrPagingIndexes vaddr).pdEntry, (extractVaddrPagingIndexes vaddr).ptEntry]

/-- The two addresses agree on bits 12 to 47. -/
def SamePage (v w : Nat) : Prop := v / 2 ^ 12 % 2 ^ 36 = w / 2 ^ 12 % 2 ^ 36

instance (v w : Nat) : Decidable (SamePage v w) := inferInstanceAs (Decidable (_ = _))

theorem extractVaddrPagingIndexes_eq (vaddr : Nat) : extractVaddrPagingIndexes vaddr =
    { ptEntry := vaddr / 2 ^ 12 % 512, pdEntry := vaddr / 2 ^ 21 % 512
      pdptEntry := vaddr / 2 ^ 30 % 512, pml4Entry := vaddr / 2 ^ 39 % 512 } := by
  have hmask (n : Nat) : n &&& bits9Mask = n % 512 := Nat.and_two_pow_sub_one_eq_mod n 9
  simp only [extractVaddrPagingIndexes, hmask, Nat.shiftRight_eq_div_pow, Nat.div_div_eq_div_mul]
  norm_num

theorem indexes_lt (vaddr : Nat) : (extractVaddrPagingIndexes vaddr).pml4Entry < 512 ∧
    (extractVaddrPagingIndexes vaddr).pdptEntry < 512 ∧
    (extractVaddrPagingIndexes vaddr).pdEntry < 512 ∧
    (extractVaddrPagingIndexes vaddr).ptEntry < 512 := by
  rw [extractVaddrPagingIndexes_eq]
  dsimp only
  omega

theorem pathOf_lt (vaddr : Nat) : ∀ i ∈ pathOf vaddr, i < 512 := by
  obtain ⟨h4, h3, h2, h1⟩ := indexes_lt vaddr
  intro i hi
  simp only [pathOf, List.mem_cons, List.not_mem_nil, or_false] at hi
  rcases hi with rfl | rfl | rfl | rfl
  · exact h4
  · exact h3
  · exact h2
  · exact h1

/-- Addresses have the same path exactly when they lie on the same page. -/
theorem pathOf_eq_iff (v w : Nat) : pathOf v = pathOf w ↔ SamePage v w := by
  simp only [pathOf, extractVaddrPagingIndexes_eq, List.cons.injEq, and_true, SamePage]
  omega

/-- What a slot of the tree looks like in memory. -/
def entryOf : Option (BitVec 32) → PagingEntry
  | none => PagingEntry.blank
  | some x => PagingEntry.linked x

theorem present_entryOf (o : Option (BitVec 32)) : (entryOf o).present = 0 ↔ o = none := by
  cases o with
  | none => simp [entryOf]
  | some x => simp [entryOf]

theorem flags_entryOf (o : Option (BitVec 32)) : (entryOf o).flags = 0 := by
  cases o with
  | none => rfl
  | some x => rfl

theorem upper_entryOf (o : Option (BitVec 32)) : (entryOf o).upper = 0 := by
  cases o with
  | none => rfl
  | some x => rfl

abbrev PageTree := RadixTree Nat (BitVec 32)

/-- The table a path leads to. -/
def tableAt (PML4 : PML4Table) (t : PageTree) (q : List Nat) : Option Nat :=
  if q = [] then some PML4.addr else (t q).map fun x => x.toNat * 4096

/-- The PML4 and all tables below it. -/
def tables (PML4 : PML4Table) (t : PageTree) : Set Nat :=
  {T | ∃ q : List Nat, q.length < 4 ∧ tableAt PML4 t q = some T}

/-- The memory holds the tree: its tables are pairwise distinct pages, those below the PML4 under
`2^32`, and every word of a table encodes its slot. -/
structure Represents (PML4 : PML4Table) (mem : Memory) (t : PageTree) : Prop where
  tree : t.WellFormed 4
  low : ∀ q x, q.length < 4 → t q = some x → x.toNat < 2 ^ 20
  notRoot : ∀ q x, q.length < 4 → t q = some x → x.toNat * 4096 ≠ PML4.addr
  entry : ∀ q T, q.length < 4 → tableAt PML4 t q = some T → ∀ i < 512,
    loadEntry mem (entryPtr T i) = entryOf (t (q ++ [i]))

section Tables
variable {PML4 : PML4Table} {t : PageTree} {q r : List Nat} {i T F : Nat} {x : BitVec 32}

@[simp] theorem tableAt_nil : tableAt PML4 t [] = some PML4.addr := if_pos rfl

theorem tableAt_of_ne_nil (hq : q ≠ []) :
    tableAt PML4 t q = (t q).map fun x => x.toNat * 4096 := if_neg hq

theorem mem_tables (hq : q.length < 4) (hT : tableAt PML4 t q = some T) : T ∈ tables PML4 t :=
  ⟨q, hq, hT⟩

theorem root_mem_tables : PML4.addr ∈ tables PML4 t := mem_tables (by decide) tableAt_nil

theorem isNode_of_tableAt (h : tableAt PML4 t q = some T) : t.IsNode q := by
  by_cases hq : q = []
  · exact Or.inl hq
  · rw [tableAt_of_ne_nil hq] at h
    obtain ⟨x, hx, _⟩ := Option.map_eq_some_iff.mp h
    exact Or.inr ⟨x, hx⟩

theorem tableAt_set_self : tableAt PML4 (t.set (q ++ [i]) x) (q ++ [i]) = some (x.toNat * 4096) := by
  rw [tableAt_of_ne_nil (by simp), RadixTree.set_self]
  rfl

theorem tableAt_set_of_ne (h : r ≠ q) : tableAt PML4 (t.set q x) r = tableAt PML4 t r := by
  rw [tableAt, tableAt, RadixTree.set_of_ne h]

theorem tables_set_leaf (hq : q.length = 3) :
    tables PML4 (t.set (q ++ [i]) x) = tables PML4 t := by
  ext T
  refine exists_congr fun r => and_congr_right fun hr => ?_
  rw [tableAt_set_of_ne]
  rintro rfl
  rw [List.length_append, hq, List.length_singleton] at hr
  omega

theorem tables_set (hq : q.length < 3) (hnone : t (q ++ [i]) = none) :
    tables PML4 (t.set (q ++ [i]) x) = insert (x.toNat * 4096) (tables PML4 t) := by
  have hlen : (q ++ [i]).length < 4 := by
    rw [List.length_append, List.length_singleton]
    omega
  ext T
  constructor
  · intro h
    obtain ⟨r, hr, hT⟩ := h
    by_cases hrq : r = q ++ [i]
    · rw [hrq, tableAt_set_self] at hT
      exact Or.inl (Option.some.inj hT).symm
    · rw [tableAt_set_of_ne hrq] at hT
      exact Or.inr ⟨r, hr, hT⟩
  · intro h
    obtain rfl | ⟨r, hr, hT⟩ := h
    · exact ⟨q ++ [i], hlen, tableAt_set_self⟩
    · refine ⟨r, hr, ?_⟩
      rw [tableAt_set_of_ne, hT]
      rintro rfl
      rw [tableAt_of_ne_nil (by simp), hnone] at hT
      exact absurd hT (by simp)

end Tables

namespace Represents
variable {PML4 : PML4Table} {mem mem' : Memory} {t : PageTree} {q r : List Nat} {i T F : Nat}
  {x : BitVec 32}

theorem table_bounds (h : Represents PML4 mem t) (hT : T ∈ tables PML4 t) :
    4096 ∣ T ∧ T + 4096 ≤ 2 ^ 64 := by
  obtain ⟨q, hq, hT⟩ := hT
  by_cases hroot : q = []
  · rw [hroot, tableAt_nil] at hT
    obtain rfl := Option.some.inj hT
    exact ⟨PML4.aligned, PML4.inSpace⟩
  · rw [tableAt_of_ne_nil hroot] at hT
    obtain ⟨x, hx, rfl⟩ := Option.map_eq_some_iff.mp hT
    have := h.low q x hq hx
    exact ⟨Nat.dvd_mul_left _ _, by omega⟩

/-- No table is reached by two paths. -/
theorem tableAt_inj (h : Represents PML4 mem t) (hq : q.length < 4) (hr : r.length < 4)
    (hqT : tableAt PML4 t q = some T) (hrT : tableAt PML4 t r = some T) : q = r := by
  by_cases hq' : q = []
  · by_cases hr' : r = []
    · rw [hq', hr']
    · rw [hq', tableAt_nil] at hqT
      rw [tableAt_of_ne_nil hr'] at hrT
      obtain ⟨x, hx, heq⟩ := Option.map_eq_some_iff.mp hrT
      exact absurd (heq.trans (Option.some.inj hqT).symm) (h.notRoot r x hr hx)
  · rw [tableAt_of_ne_nil hq'] at hqT
    obtain ⟨x, hx, hxT⟩ := Option.map_eq_some_iff.mp hqT
    by_cases hr' : r = []
    · rw [hr', tableAt_nil] at hrT
      exact absurd (hxT.trans (Option.some.inj hrT).symm) (h.notRoot q x hq hx)
    · rw [tableAt_of_ne_nil hr'] at hrT
      obtain ⟨y, hy, hyT⟩ := Option.map_eq_some_iff.mp hrT
      obtain rfl : x = y := BitVec.eq_of_toNat_eq (by omega)
      exact h.tree.unshared q r x hq hr hx hy

/-- The invariant only reads the bytes of the tables. -/
theorem congr (h : Represents PML4 mem t)
    (hbytes : ∀ T ∈ tables PML4 t, Set.EqOn mem'.byte mem.byte (pageBytes T)) :
    Represents PML4 mem' t := by
  refine ⟨h.tree, h.low, h.notRoot, ?_⟩
  intro q T hq hT i hi
  have hmem : T ∈ tables PML4 t := mem_tables hq hT
  rw [← h.entry q T hq hT i hi]
  exact loadEntry_congr ((hbytes T hmem).mono (entry_subset_page (h.table_bounds hmem).2 hi))

/-- An all-zero PML4 represents the empty tree. -/
theorem of_zero (h : ∀ a ∈ pageBytes PML4.addr, mem.byte a = 0) :
    Represents PML4 mem RadixTree.empty := by
  refine ⟨RadixTree.wellFormed_empty, fun _ _ _ hx => absurd hx (by simp [RadixTree.empty]),
    fun _ _ _ hx => absurd hx (by simp [RadixTree.empty]), ?_⟩
  intro q T _ hT i hi
  have hq : q = [] := by
    by_contra hne
    rw [tableAt_of_ne_nil hne] at hT
    exact absurd hT (by simp [RadixTree.empty])
  rw [hq, tableAt_nil] at hT
  obtain rfl := Option.some.inj hT
  exact loadEntry_of_zero fun a ha => h a (entry_subset_page PML4.inSpace hi ha)

/-- Creating a table: a fresh page is zeroed and linked to an empty slot of a table. -/
theorem create (h : Represents PML4 mem t) (hq : q.length < 3) (hT : tableAt PML4 t q = some T)
    (hi : i < 512) (hnone : t (q ++ [i]) = none) (haligned : 4096 ∣ F) (hlow : F < 2 ^ 32)
    (hfresh : F ∉ tables PML4 t) (hx : x.toNat * 4096 = F)
    (hbytes : ∀ T ∈ tables PML4 t, Set.EqOn mem'.byte mem.byte (pageBytes T)) :
    Represents PML4 (linkEntry (memset mem' F 0 4096) (entryPtr T i) F) (t.set (q ++ [i]) x) := by
  have h' := h.congr hbytes
  have hTmem : T ∈ tables PML4 t := mem_tables (by omega) hT
  have hTb := h.table_bounds hTmem
  have hlen : (q ++ [i]).length = q.length + 1 := by simp
  have hxF : BitVec.ofNat 32 (F >>> 12) = x := by
    apply BitVec.eq_of_toNat_eq
    rw [BitVec.toNat_ofNat, Nat.shiftRight_eq_div_pow]
    omega
  refine ⟨h.tree.set (isNode_of_tableAt hT) ?_, ?_, ?_, ?_⟩
  · intro r hr hr4 _ hrx
    refine hfresh ⟨r, hr4, ?_⟩
    have hr0 : r ≠ [] := by
      rintro rfl
      rw [h.tree.root] at hrx
      exact absurd hrx (by simp)
    rw [tableAt_of_ne_nil hr0, hrx, ← hx]
    rfl
  · intro r y hr hy
    by_cases hrq : r = q ++ [i]
    · rw [hrq, RadixTree.set_self] at hy
      obtain rfl := Option.some.inj hy
      omega
    · rw [RadixTree.set_of_ne hrq] at hy
      exact h.low r y hr hy
  · intro r y hr hy
    by_cases hrq : r = q ++ [i]
    · rw [hrq, RadixTree.set_self] at hy
      obtain rfl := Option.some.inj hy
      rw [hx]
      rintro rfl
      exact hfresh root_mem_tables
    · rw [RadixTree.set_of_ne hrq] at hy
      exact h.notRoot r y hr hy
  · intro r R hr hR j hj
    by_cases hrq : r = q ++ [i]
    · -- the new table is blank, and nothing hung below the empty slot
      subst hrq
      rw [tableAt_set_self, hx] at hR
      obtain rfl := Option.some.inj hR
      have hne : F ≠ T := by
        rintro rfl
        exact hfresh hTmem
      rw [loadEntry_linkEntry hTb.1 haligned hTb.2 (by omega) hi hj, if_neg (fun hc => hne hc.1),
        loadEntry_memset haligned haligned (by omega) (by omega) hj, if_pos rfl,
        RadixTree.set_of_ne (by simp), h.tree.none_below (by simp) hnone]
      rfl
    · rw [tableAt_set_of_ne hrq] at hR
      have hRmem : R ∈ tables PML4 t := mem_tables hr hR
      have hRb := h.table_bounds hRmem
      have hRF : R ≠ F := by
        rintro rfl
        exact hfresh hRmem
      have hTF : T ≠ F := by
        rintro rfl
        exact hfresh hTmem
      rw [loadEntry_linkEntry hTb.1 hRb.1 hTb.2 hRb.2 hi hj,
        loadEntry_memset haligned hTb.1 (by omega) hTb.2 hi, if_neg hTF,
        loadEntry_memset haligned hRb.1 (by omega) hRb.2 hj, if_neg hRF,
        h'.entry q T (by omega) hT i hi, h'.entry r R hr hR j hj, hnone]
      by_cases hslot : R = T ∧ j = i
      · obtain ⟨rfl, rfl⟩ := hslot
        rw [if_pos ⟨rfl, rfl⟩, h.tableAt_inj hr (by omega) hR hT, RadixTree.set_self]
        exact (PagingEntry.link_blank F).trans (by rw [hxF]; rfl)
      · rw [if_neg hslot, RadixTree.set_of_ne]
        intro hc
        obtain ⟨hrq', hji⟩ := List.append_inj' hc rfl
        rw [hrq', hT] at hR
        exact hslot ⟨(Option.some.inj hR).symm, by simpa using hji⟩

/-- Setting a page: the slot of a page table is overwritten. -/
theorem setPage (h : Represents PML4 mem t) (hq : q.length = 3) (hT : tableAt PML4 t q = some T)
    (hi : i < 512) (paddr : Nat) :
    Represents PML4 (linkEntry mem (entryPtr T i) paddr)
      (t.set (q ++ [i]) (BitVec.ofNat 32 (paddr >>> 12))) := by
  have hTb := h.table_bounds (mem_tables (by omega) hT)
  have hlen : (q ++ [i]).length = 4 := by simp [hq]
  have hne {r : List Nat} (hr : r.length < 4) : r ≠ q ++ [i] := by
    rintro rfl
    omega
  refine ⟨h.tree.set (isNode_of_tableAt hT) fun r _ _ hc => by omega, ?_, ?_, ?_⟩
  · intro r y hr hy
    rw [RadixTree.set_of_ne (hne hr)] at hy
    exact h.low r y hr hy
  · intro r y hr hy
    rw [RadixTree.set_of_ne (hne hr)] at hy
    exact h.notRoot r y hr hy
  · intro r R hr hR j hj
    rw [tableAt_set_of_ne (hne hr)] at hR
    have hRb := h.table_bounds (mem_tables hr hR)
    rw [loadEntry_linkEntry hTb.1 hRb.1 hTb.2 hRb.2 hi hj, h.entry q T (by omega) hT i hi,
      h.entry r R hr hR j hj]
    by_cases hslot : R = T ∧ j = i
    · obtain ⟨rfl, rfl⟩ := hslot
      rw [if_pos ⟨rfl, rfl⟩, h.tableAt_inj hr (by omega) hR hT, RadixTree.set_self]
      cases t (q ++ [j]) with
      | none => rfl
      | some y => rfl
    · rw [if_neg hslot, RadixTree.set_of_ne]
      intro hc
      obtain ⟨hrq, hji⟩ := List.append_inj' hc rfl
      rw [hrq, hT] at hR
      exact hslot ⟨(Option.some.inj hR).symm, by simpa using hji⟩

end Represents

end MyOSKernel
