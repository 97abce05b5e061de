import MyOSKernel.PagingTree

/-! `map_vaddr_to_paddr` on represented page tables, over any allocator whose frames are fresh pages.
One level of the descent either follows an entry or creates a table; three of them and the last
store insert one path into the tree. -/

namespace MyOSKernel

section Walks
variable {PML4 : PML4Table} {mem : Memory} {t : PageTree} {vaddr : Nat} {x : BitVec 32}
  {next : PagingEntry → Option Nat}

theorem present_eq_zero_or_one (e : PagingEntry) : e.present = 0 ∨ e.present = 1 := by
  have := e.present.isLt
  rcases Nat.lt_or_ge e.present.toNat 1 with h | h
  · exact Or.inl (BitVec.eq_of_toNat_eq (by simp; omega))
  · exact Or.inr (BitVec.eq_of_toNat_eq (by simp; omega))

namespace PagingEntry
variable {e : PagingEntry}

theorem kernelTable_of_absent (h : e.present = 0) : e.kernelTable = none := if_pos h

theorem kernelTable_of_present (h : e.present ≠ 0) : e.kernelTable = some e.tableAddr := if_neg h

theorem hardwareTable_of_absent (h : e.present = 0) : e.hardwareTable = none := if_pos h

theorem hardwareTable_of_present (h : e.present ≠ 0) (hps : e.ps ≠ 1) :
    e.hardwareTable = some e.physAddr := (if_neg h).trans (if_neg hps)

theorem hardwareTable_linked (x : BitVec 32) : (linked x).hardwareTable = some (x.toNat * 4096) := by
  rw [hardwareTable_of_present (by simp) (by simp), physAddr_linked]

end PagingEntry

/-- `is_page_present` is the walk that finds tables as the kernel does. -/
theorem isPagePresent_eq_isSome_walk (mem : Memory) (PML4 : PML4Table) (vaddr : Nat) :
    isPagePresent mem PML4 vaddr = (walk PagingEntry.kernelTable mem PML4 vaddr).isSome := by
  unfold isPagePresent walk
  simp only [Option.bind_eq_bind]
  split_ifs with h4 h3 h2
  · rw [PagingEntry.kernelTable_of_absent h4]
    rfl
  · rw [PagingEntry.kernelTable_of_present h4, Option.bind_some, PagingEntry.kernelTable_of_absent h3]
    rfl
  · rw [PagingEntry.kernelTable_of_present h4, Option.bind_some, PagingEntry.kernelTable_of_present h3,
      Option.bind_some, PagingEntry.kernelTable_of_absent h2]
    rfl
  · rw [PagingEntry.kernelTable_of_present h4, Option.bind_some, PagingEntry.kernelTable_of_present h3,
      Option.bind_some, PagingEntry.kernelTable_of_present h2, Option.bind_some]
    split_ifs with h1
    · rw [h1]
      rfl
    · rw [(present_eq_zero_or_one _).resolve_left h1]
      rfl

/-- An entry with `present` and `rw` set and every other bit outside the address field zero. -/
def PagingEntry.PresentWritable (e : PagingEntry) : Prop :=
  e.present = 1 ∧ e.rw = 1 ∧ e.flags = 0 ∧ e.upper = 0

/-- All four entries of the walk. -/
def Walk.PresentWritable (w : Walk) : Prop :=
  w.pml4Entry.PresentWritable ∧ w.pdptEntry.PresentWritable ∧ w.pdEntry.PresentWritable ∧
    w.ptEntry.PresentWritable

theorem presentWritable_linked (x4 x3 x2 x : BitVec 32) : Walk.PresentWritable
    ⟨PagingEntry.linked x4, PagingEntry.linked x3, PagingEntry.linked x2, PagingEntry.linked x⟩ :=
  ⟨⟨rfl, rfl, rfl, rfl⟩, ⟨rfl, rfl, rfl, rfl⟩, ⟨rfl, rfl, rfl, rfl⟩, ⟨rfl, rfl, rfl, rfl⟩⟩

/-- The tables found by `next` are those of the tree. -/
structure Decodes (next : PagingEntry → Option Nat) : Prop where
  blank : next PagingEntry.blank = none
  linked : ∀ x : BitVec 32, x.toNat < 2 ^ 20 → next (PagingEntry.linked x) = some (x.toNat * 4096)

theorem decodes_kernelTable : Decodes PagingEntry.kernelTable where
  blank := rfl
  linked x hx := by
    rw [PagingEntry.kernelTable_of_present (by simp), PagingEntry.tableAddr_linked hx]

theorem decodes_hardwareTable : Decodes PagingEntry.hardwareTable where
  blank := rfl
  linked x _ := PagingEntry.hardwareTable_linked x

namespace Represents

/-- The word a node's slot is encoded in, the node being named by its slot's value. -/
theorem entry_below (h : Represents PML4 mem t) {q : List Nat} {i : Nat} (hq : q ≠ [])
    (hlen : q.length < 4) (hx : t q = some x) (hi : i < 512) :
    loadEntry mem (entryPtr (x.toNat * 4096) i) = entryOf (t (q ++ [i])) :=
  h.entry q _ hlen (by rw [tableAt_of_ne_nil hq, hx]; rfl) i hi

/-- Walks succeed on the paths of the tree's payloads, with the same entries. -/
theorem walk_of_some (h : Represents PML4 mem t) (hx : t (pathOf vaddr) = some x) :
    ∃ x4 x3 x2, ∀ next, Decodes next →
      walk next mem PML4 vaddr = some ⟨PagingEntry.linked x4, PagingEntry.linked x3,
        PagingEntry.linked x2, PagingEntry.linked x⟩ := by
  obtain ⟨h4, h3, h2, h1⟩ := indexes_lt vaddr
  set indexes := extractVaddrPagingIndexes vaddr with hindexes
  have hpath : pathOf vaddr = [indexes.pml4Entry, indexes.pdptEntry, indexes.pdEntry] ++
    [indexes.ptEntry] := rfl
  rw [hpath] at hx
  obtain ⟨x2, hx2⟩ := h.tree.prefix_some (by simp) hx
  obtain ⟨x3, hx3⟩ := h.tree.prefix_some (q := [indexes.pml4Entry, indexes.pdptEntry])
    (r := [indexes.pdEntry]) (by simp) hx2
  obtain ⟨x4, hx4⟩ := h.tree.prefix_some (q := [indexes.pml4Entry]) (r := [indexes.pdptEntry])
    (by simp) hx3
  refine ⟨x4, x3, x2, fun next hnext => ?_⟩
  have he4 : loadEntry mem (entryPtr PML4.addr indexes.pml4Entry) = PagingEntry.linked x4 := by
    rw [h.entry [] PML4.addr (by simp) tableAt_nil _ h4, List.nil_append, hx4]
    rfl
  have he3 := h.entry_below (by simp) (by simp) hx4 h3
  have he2 := h.entry_below (by simp) (by simp) hx3 h2
  have he1 := h.entry_below (by simp) (by simp) hx2 h1
  simp only [List.singleton_append, hx3, entryOf] at he3
  simp only [List.cons_append, List.nil_append, hx2, entryOf] at he2
  rw [hx, entryOf] at he1
  unfold walk
  simp only [← hindexes, he4, hnext.linked x4 (h.low _ _ (by simp) hx4), Option.bind_eq_bind,
    Option.bind_some, he3, hnext.linked x3 (h.low _ _ (by simp) hx3), he2,
    hnext.linked x2 (h.low _ _ (by simp) hx2), he1]
  rfl

/-- And fail on all others. -/
theorem walk_of_none (h : Represents PML4 mem t) (hnext : Decodes next)
    (hnone : t (pathOf vaddr) = none) : walk next mem PML4 vaddr = none := by
  obtain ⟨h4, h3, h2, h1⟩ := indexes_lt vaddr
  set indexes := extractVaddrPagingIndexes vaddr with hindexes
  have he4 := h.entry [] PML4.addr (by simp) tableAt_nil _ h4
  unfold walk
  simp only [← hindexes, he4, List.nil_append]
  cases hx4 : t [indexes.pml4Entry] with
  | none => rw [entryOf, hnext.blank]; rfl
  | some x4 =>
      have he3 := h.entry_below (by simp) (by simp) hx4 h3
      rw [List.singleton_append] at he3
      simp only [entryOf, hnext.linked x4 (h.low _ _ (by simp) hx4), Option.bind_eq_bind,
        Option.bind_some, he3]
      cases hx3 : t [indexes.pml4Entry, indexes.pdptEntry] with
      | none => rw [hnext.blank]; rfl
      | some x3 =>
          have he2 := h.entry_below (by simp) (by simp) hx3 h2
          simp only [List.cons_append, List.nil_append] at he2
          simp only [hnext.linked x3 (h.low _ _ (by simp) hx3), Option.bind_some, he2, entryOf]
          cases hx2 : t [indexes.pml4Entry, indexes.pdptEntry, indexes.pdEntry] with
          | none => rw [hnext.blank]; rfl
          | some x2 =>
              have he1 := h.entry_below (by simp) (by simp) hx2 h1
              have hnone' : t [indexes.pml4Entry, indexes.pdptEntry, indexes.pdEntry,
                indexes.ptEntry] = none := hnone
              simp only [List.cons_append, List.nil_append, hnone', entryOf] at he1
              simp only [hnext.linked x2 (h.low _ _ (by simp) hx2), Option.bind_some, he1]
              rfl

theorem isPagePresent_iff (h : Represents PML4 mem t) :
    isPagePresent mem PML4 vaddr = true ↔ ∃ x, t (pathOf vaddr) = some x := by
  rw [isPagePresent_eq_isSome_walk]
  cases hx : t (pathOf vaddr) with
  | none =>
      rw [h.walk_of_none decodes_kernelTable hx]
      simp
  | some x =>
      obtain ⟨x4, x3, x2, hwalk⟩ := h.walk_of_some hx
      rw [hwalk _ decodes_kernelTable]
      simp

/-- In a represented table both ways of finding tables lead to those of the tree. -/
theorem walkTo_eq (h : Represents PML4 mem t) (hnext : Decodes next) {q r : List Nat} {T : Nat}
    (hlen : (q ++ r).length < 4) (hr : ∀ i ∈ r, i < 512)
    (hT : tableAt PML4 t q = some T) : walkTo next mem T r = tableAt PML4 t (q ++ r) := by
  induction r generalizing q T with
  | nil => rw [List.append_nil, hT, walkTo]
  | cons i r ih =>
      rw [List.length_append, List.length_cons] at hlen
      rw [walkTo, h.entry q T (by omega) hT i (hr i List.mem_cons_self),
        show q ++ i :: r = q ++ [i] ++ r by simp]
      cases hx : t (q ++ [i]) with
      | none =>
          have hbelow : t (q ++ [i] ++ r) = none := by
            cases hy : t (q ++ [i] ++ r) with
            | none => rfl
            | some y =>
                obtain ⟨x, hx'⟩ := h.tree.prefix_some (by simp) hy
                rw [hx] at hx'
                exact absurd hx' (by simp)
          rw [tableAt_of_ne_nil (by simp), hbelow, entryOf, hnext.blank]
          rfl
      | some x =>
          have hlen' : (q ++ [i]).length < 4 := by
            rw [List.length_append, List.length_singleton]
            omega
          have hrest : (q ++ [i] ++ r).length < 4 := by
            rw [List.length_append, List.length_append, List.length_singleton]
            omega
          have hstep : tableAt PML4 t (q ++ [i]) = some (x.toNat * 4096) := by
            rw [tableAt_of_ne_nil (by simp), hx]
            rfl
          rw [entryOf, hnext.linked x (h.low _ x hlen' hx), Option.bind_some]
          exact ih hrest (fun j hj => hr j (List.mem_cons_of_mem _ hj)) hstep

/-- From the root on. -/
theorem walkTo_root (h : Represents PML4 mem t) (hnext : Decodes next) {q : List Nat}
    (hlen : q.length < 4) (hq : ∀ i ∈ q, i < 512) :
    walkTo next mem PML4.addr q = tableAt PML4 t q := by
  rw [h.walkTo_eq hnext (by rwa [List.nil_append]) hq tableAt_nil, List.nil_append]

/-- No entry of a represented table is one of a large page. -/
theorem ps_eq_zero (h : Represents PML4 mem t) {q : List Nat} {T i : Nat} (hlen : q.length < 4)
    (hq : ∀ k ∈ q, k < 512) (hi : i < 512)
    (hT : walkTo PagingEntry.hardwareTable mem PML4.addr q = some T) :
    (loadEntry mem (entryPtr T i)).ps = 0 := by
  rw [h.walkTo_root decodes_hardwareTable hlen hq] at hT
  rw [h.entry q T hlen hT i hi]
  cases t (q ++ [i]) with
  | none => rfl
  | some x => exact PagingEntry.ps_linked x

/-- So the processor ends every walk at a page of 4 KiB. -/
theorem hardwareWalk_eq (h : Represents PML4 mem t) (vaddr : Nat) : hardwareWalk mem PML4 vaddr =
    (walk PagingEntry.hardwareTable mem PML4 vaddr).map HardwareWalk.page4K := by
  obtain ⟨h4, h3, h2, _⟩ := indexes_lt vaddr
  have hps4 := h.ps_eq_zero (q := []) (by simp) (by simp) h4 rfl
  have hps3 := fun T => h.ps_eq_zero (T := T) (q := [(extractVaddrPagingIndexes vaddr).pml4Entry])
    (by simp) (by simpa using h4) h3
  have hps2 := fun T => h.ps_eq_zero (T := T) (q := [(extractVaddrPagingIndexes vaddr).pml4Entry,
    (extractVaddrPagingIndexes vaddr).pdptEntry]) (by simp) (by simpa using ⟨h4, h3⟩) h2
  simp only [walkTo] at hps3 hps2
  unfold hardwareWalk walk
  simp only [Option.bind_eq_bind]
  set indexes := extractVaddrPagingIndexes vaddr
  set e4 := loadEntry mem (entryPtr PML4.addr indexes.pml4Entry)
  by_cases h4 : e4.present = 0
  · rw [if_pos h4, PagingEntry.hardwareTable_of_absent h4]
    rfl
  have hnext4 := PagingEntry.hardwareTable_of_present h4 (by rw [hps4]; decide)
  rw [if_neg h4, if_neg (by rw [hps4]; decide), hnext4, Option.bind_some]
  set e3 := loadEntry mem (entryPtr e4.physAddr indexes.pdptEntry)
  by_cases h3 : e3.present = 0
  · rw [if_pos h3, PagingEntry.hardwareTable_of_absent h3]
    rfl
  have hps3 : e3.ps = 0 := hps3 _ (by rw [hnext4]; rfl)
  have hnext3 := PagingEntry.hardwareTable_of_present h3 (by rw [hps3]; decide)
  rw [if_neg h3, if_neg (by rw [hps3]; decide), hnext3, Option.bind_some]
  set e2 := loadEntry mem (entryPtr e3.physAddr indexes.pdEntry)
  by_cases h2 : e2.present = 0
  · rw [if_pos h2, PagingEntry.hardwareTable_of_absent h2]
    rfl
  have hps2 : e2.ps = 0 := hps2 _ (by rw [hnext4, Option.bind_some, hnext3]; rfl)
  have hnext2 := PagingEntry.hardwareTable_of_present h2 (by rw [hps2]; decide)
  rw [if_neg h2, if_neg (by rw [hps2]; decide), hnext2, Option.bind_some, apply_ite (Option.map _)]
  rfl

/-- The walks of the kernel and of the processor end at the payload. -/
theorem hardwareWalk_of_some (h : Represents PML4 mem t) (hx : t (pathOf vaddr) = some x) :
    ∃ w, walk PagingEntry.kernelTable mem PML4 vaddr = some w ∧
      hardwareWalk mem PML4 vaddr = some (.page4K w) ∧ w.PresentWritable ∧
      w.ptEntry = PagingEntry.linked x := by
  obtain ⟨x4, x3, x2, hwalk⟩ := h.walk_of_some hx
  refine ⟨_, hwalk _ decodes_kernelTable, ?_, presentWritable_linked x4 x3 x2 x, rfl⟩
  rw [h.hardwareWalk_eq, hwalk _ decodes_hardwareTable, Option.map_some]

/-- The translation is the payload. -/
theorem translate_eq (h : Represents PML4 mem t) (vaddr : Nat) : translate mem PML4 vaddr =
    (t (pathOf vaddr)).map fun x => x.toNat * 4096 + vaddr % 4096 := by
  rw [translate, h.hardwareWalk_eq]
  cases hx : t (pathOf vaddr) with
  | none =>
      rw [h.walk_of_none decodes_hardwareTable hx]
      rfl
  | some x =>
      obtain ⟨x4, x3, x2, hwalk⟩ := h.walk_of_some hx
      rw [hwalk _ decodes_hardwareTable, Option.map_some, Option.map_some, Option.map_some,
        HardwareWalk.paddr, PagingEntry.physAddr_linked]

/-- The entries of the tables are the filled slots of the tree above its last level. -/
theorem tableAt_of_tableEntry (h : Represents PML4 mem t) {q : List Nat} {i : Nat} {e : PagingEntry}
    (hentry : TableEntry PML4 mem q i e) :
    tableAt PML4 t (q ++ [i]) = some e.tableAddr ∧ (q ++ [i]).length < 4 := by
  obtain ⟨hlen, hindex, hi, hpresent, T, hT, he⟩ := hentry
  have hlen' : (q ++ [i]).length < 4 := by
    rw [List.length_append, List.length_singleton]
    omega
  rw [h.walkTo_root decodes_kernelTable (by omega) hindex] at hT
  rw [h.entry q T (by omega) hT i hi] at he
  refine ⟨?_, hlen'⟩
  cases hx : t (q ++ [i]) with
  | none =>
      rw [hx] at he
      rw [← he] at hpresent
      exact absurd hpresent (by decide)
  | some x =>
      rw [hx, entryOf] at he
      rw [tableAt_of_ne_nil (by simp), hx, ← he, PagingEntry.tableAddr_linked (h.low _ x hlen' hx)]
      rfl

end Represents

end Walks

section Map
variable {σ : Type} {request : Machine σ → Nat × Machine σ} {Inv : Set Nat → Machine σ → Prop}
  {Ok : Machine σ → Prop} {PML4 : PML4Table} {m : Machine σ} {t : PageTree}

/-- What page tables need of an allocator: under its invariant, which speaks of the set of tables in
use, and when a request is in order, the frame granted is a fresh aligned page below `2^32` and the
tables are not touched. Stores to tables keep the invariant. -/
structure AllocatorSpec (request : Machine σ → Nat × Machine σ) (Inv : Set Nat → Machine σ → Prop)
    (Ok : Machine σ → Prop) : Prop where
  aligned : ∀ S m, Inv S m → Ok m → 4096 ∣ (request m).1
  low : ∀ S m, Inv S m → Ok m → (request m).1 < 2 ^ 32
  fresh : ∀ S m, Inv S m → Ok m → (request m).1 ∉ S
  keeps : ∀ S m, Inv S m → Ok m → ∀ T ∈ S,
    Set.EqOn (request m).2.mem.byte m.mem.byte (pageBytes T)
  granted : ∀ S m, Inv S m → Ok m → Inv (insert (request m).1 S) (request m).2
  stable : ∀ S m m', Inv S m → m'.pmem = m.pmem →
    (∀ a, (∀ T ∈ S, a ∉ pageBytes T) → m'.mem.byte a = m.mem.byte a) → Inv S m'

/-- Requests may be in order for another reason. -/
theorem AllocatorSpec.of_imp {Ok' : Machine σ → Prop} (spec : AllocatorSpec request Inv Ok)
    (h : ∀ S m, Inv S m → Ok' m → Ok m) : AllocatorSpec request Inv Ok' where
  aligned S m hinv hok := spec.aligned S m hinv (h S m hinv hok)
  low S m hinv hok := spec.low S m hinv (h S m hinv hok)
  fresh S m hinv hok := spec.fresh S m hinv (h S m hinv hok)
  keeps S m hinv hok := spec.keeps S m hinv (h S m hinv hok)
  granted S m hinv hok := spec.granted S m hinv (h S m hinv hok)
  stable := spec.stable

/-- An allocator may keep a second invariant. -/
theorem AllocatorSpec.and {Inv' : Set Nat → Machine σ → Prop} (spec : AllocatorSpec request Inv Ok)
    (hgranted : ∀ S m, Inv S m → Inv' S m → Ok m → Inv' (insert (request m).1 S) (request m).2)
    (hstable : ∀ S m m', Inv S m → Inv' S m → m'.pmem = m.pmem →
      (∀ a, (∀ T ∈ S, a ∉ pageBytes T) → m'.mem.byte a = m.mem.byte a) → Inv' S m') :
    AllocatorSpec request (fun S m => Inv S m ∧ Inv' S m) Ok where
  aligned S m hinv hok := spec.aligned S m hinv.1 hok
  low S m hinv hok := spec.low S m hinv.1 hok
  fresh S m hinv hok := spec.fresh S m hinv.1 hok
  keeps S m hinv hok := spec.keeps S m hinv.1 hok
  granted S m hinv hok := ⟨spec.granted S m hinv.1 hok, hgranted S m hinv.1 hinv.2 hok⟩
  stable S m m' hinv hpmem hbytes :=
    ⟨spec.stable S m m' hinv.1 hpmem hbytes, hstable S m m' hinv.1 hinv.2 hpmem hbytes⟩

/-- A machine whose page tables are represented and whose allocator knows them. -/
structure Paged (PML4 : PML4Table) (Inv : Set Nat → Machine σ → Prop) (m : Machine σ) (t : PageTree) :
    Prop where
  represents : Represents PML4 m.mem t
  allocator : Inv (tables PML4 t) m

/-- The table created for the slot at path `q`, if any, with the frame granted for it. -/
def createdAt (request : Machine σ → Nat × Machine σ) (q : List Nat) (requests : List (Machine σ)) :
    List (List Nat × Nat) :=
  requests.map fun m => (q, (request m).1)

/-- One level of the descent, to the slot at path `q`: `u` is the tree after it. -/
structure Descended (PML4 : PML4Table) (Inv : Set Nat → Machine σ → Prop) (t : PageTree) (q : List Nat)
    (created : List (List Nat × Nat)) (next : Nat × Machine σ) (u : PageTree) : Prop where
  paged : Paged PML4 Inv next.2 u
  grown : ∀ p, q <+: p → q.length < p.length → RadixTree.Grown t u p
  table : tableAt PML4 u q = some next.1
  tables_iff : ∀ r F, tableAt PML4 u r = some F ↔ tableAt PML4 t r = some F ∨ (r, F) ∈ created

theorem mem_missing {s : Machine σ} {table index : Nat} (h : s ∈ missing m table index) : s = m := by
  unfold missing at h
  split_ifs at h
  · exact List.mem_singleton.mp h
  · exact absurd h List.not_mem_nil

/-- The entry is followed, or a table is created in the frame granted. -/
theorem nextTable_spec (spec : AllocatorSpec request Inv Ok) (h : Paged PML4 Inv m t) {q : List Nat}
    {T i : Nat} (hq : q.length < 3) (hT : tableAt PML4 t q = some T) (hi : i < 512)
    (hok : ∀ s ∈ missing m T i, Ok s) :
    ∃ u, Descended PML4 Inv t (q ++ [i]) (createdAt request (q ++ [i]) (missing m T i))
      (nextTable request m T i) u := by
  have hentry := h.represents.entry q T (by omega) hT i hi
  unfold nextTable missing at *
  split_ifs at hok ⊢ with hpresent
  · -- the slot is empty
    have hok' : Ok m := hok m (by simp)
    have hnone : t (q ++ [i]) = none := by
      rw [hentry] at hpresent
      exact (present_entryOf _).mp hpresent
    have haligned := spec.aligned _ m h.allocator hok'
    have hlow := spec.low _ m h.allocator hok'
    have hfresh := spec.fresh _ m h.allocator hok'
    obtain ⟨x, hx⟩ : ∃ x : BitVec 32, x.toNat * 4096 = (request m).1 :=
      ⟨BitVec.ofNat 32 ((request m).1 / 4096), by rw [BitVec.toNat_ofNat]; omega⟩
    have hTmem : T ∈ tables PML4 t := mem_tables (by omega) hT
    have hTb := h.represents.table_bounds hTmem
    have htables : tables PML4 (t.set (q ++ [i]) x) = insert (request m).1 (tables PML4 t) := by
      rw [tables_set hq hnone, hx]
    refine ⟨t.set (q ++ [i]) x, ⟨?_, ?_⟩, fun p hp hlen => .set hp hlen hnone, ?_, ?_⟩
    · exact h.represents.create hq hT hi hnone haligned hlow hfresh hx
        (spec.keeps _ m h.allocator hok')
    · rw [htables]
      refine spec.stable _ (request m).2 _ (spec.granted _ m h.allocator hok') rfl ?_
      intro a ha
      have haT := ha T (Or.inr hTmem)
      have haF := ha _ (Or.inl rfl)
      exact (storeEntry_byte_of_notMem fun hc => haT (entry_subset_page hTb.2 hi hc)).trans
        (memset_byte_of_notMem (show (request m).1 + 4096 ≤ 2 ^ 64 by omega) haF)
    · rw [tableAt_set_self, hx]
    · intro r F
      have hcreated : (r, F) ∈ createdAt request (q ++ [i]) [m] ↔
          r = q ++ [i] ∧ F = (request m).1 := by simp [createdAt]
      rw [hcreated]
      by_cases hr : r = q ++ [i]
      · rw [hr, tableAt_set_self, tableAt_of_ne_nil (by simp), hnone, hx]
        simp [eq_comm]
      · rw [tableAt_set_of_ne hr]
        exact (or_iff_left fun hc => hr hc.1).symm
  · refine ⟨t, h, fun p _ _ => .refl t p, ?_, fun r F => (or_iff_left List.not_mem_nil).symm⟩
    rw [hentry, present_entryOf] at hpresent
    obtain ⟨x, hx⟩ := Option.ne_none_iff_exists'.mp hpresent
    have hlow := h.represents.low (q ++ [i]) x (by
      rw [List.length_append, List.length_singleton]
      omega) hx
    rw [tableAt_of_ne_nil (by simp), hentry, hx, Option.map_some, entryOf,
      PagingEntry.tableAddr_linked hlow]

theorem mapVaddrToPaddr_pmem (m : Machine σ) (vaddr paddr : Nat) :
    (mapVaddrToPaddr request PML4 m vaddr paddr).pmem =
      (descendPT request PML4 m vaddr).2.pmem := by
  simp only [mapVaddrToPaddr, setPage]

/-- The tables a call creates, with the paths of their slots and the frames granted for them. -/
def createdBy (request : Machine σ → Nat × Machine σ) (PML4 : PML4Table) (m : Machine σ)
    (vaddr : Nat) : List (List Nat × Nat) :=
  let PDPT := descendPDPT request PML4 m vaddr
  let PD := descendPD request PML4 m vaddr
  let indexes := extractVaddrPagingIndexes vaddr
  createdAt request ((pathOf vaddr).take 1) (missing m PML4.addr indexes.pml4Entry) ++
    createdAt request ((pathOf vaddr).take 2) (missing PDPT.2 PDPT.1 indexes.pdptEntry) ++
    createdAt request ((pathOf vaddr).take 3) (missing PD.2 PD.1 indexes.pdEntry)

/-- The whole descent arrives at the page table of the path, having created what was missing. -/
theorem descendPT_spec (spec : AllocatorSpec request Inv Ok) (h : Paged PML4 Inv m t) {vaddr : Nat}
    (hok : ∀ s ∈ requestsOf request PML4 m vaddr, Ok s) :
    ∃ u, Paged PML4 Inv (descendPT request PML4 m vaddr).2 u ∧ RadixTree.Grown t u (pathOf vaddr) ∧
      tableAt PML4 u ((pathOf vaddr).take 3) = some (descendPT request PML4 m vaddr).1 ∧
      (∀ r F, tableAt PML4 u r = some F ↔
        tableAt PML4 t r = some F ∨ (r, F) ∈ createdBy request PML4 m vaddr) ∧
      ∀ s ∈ requestsOf request PML4 m vaddr, ∃ v, Paged PML4 Inv s v := by
  obtain ⟨h4, h3, h2, _⟩ := indexes_lt vaddr
  simp only [requestsOf, List.mem_append] at hok
  set indexes := extractVaddrPagingIndexes vaddr with hindexes
  obtain ⟨t1, hPDPT⟩ := nextTable_spec spec h (q := []) (by simp) tableAt_nil h4
    fun s hs => hok s (Or.inl (Or.inl hs))
  obtain ⟨t2, hPD⟩ := nextTable_spec spec hPDPT.paged (q := [indexes.pml4Entry]) (by simp)
    hPDPT.table h3 fun s hs => hok s (Or.inl (Or.inr hs))
  obtain ⟨t3, hPT⟩ := nextTable_spec spec hPD.paged
    (q := [indexes.pml4Entry, indexes.pdptEntry]) (by simp) hPD.table h2
    fun s hs => hok s (Or.inr hs)
  have hpath : pathOf vaddr =
      [indexes.pml4Entry, indexes.pdptEntry, indexes.pdEntry, indexes.ptEntry] := rfl
  refine ⟨t3, hPT.paged, ?_, ?_, ?_, ?_⟩
  · rw [hpath]
    exact ((hPDPT.grown _ ⟨_, rfl⟩ (by simp)).trans (hPD.grown _ ⟨_, rfl⟩ (by simp))).trans
      (hPT.grown _ ⟨_, rfl⟩ (by simp))
  · rw [hpath]
    exact hPT.table
  · intro r F
    rw [hPT.tables_iff, hPD.tables_iff, hPDPT.tables_iff, createdBy, List.mem_append,
      List.mem_append, or_assoc, or_assoc]
    exact or_congr_right (or_assoc.symm)
  · intro s hs
    simp only [requestsOf, List.mem_append] at hs
    rcases hs with (hs | hs) | hs
    · exact ⟨t, mem_missing hs ▸ h⟩
    · exact ⟨t1, mem_missing hs ▸ hPDPT.paged⟩
    · exact ⟨t2, mem_missing hs ▸ hPD.paged⟩

/-- A call inserts its page into the tree. -/
theorem mapVaddrToPaddr_spec (spec : AllocatorSpec request Inv Ok) (h : Paged PML4 Inv m t)
    {vaddr : Nat} (paddr : Nat) (hok : ∀ s ∈ requestsOf request PML4 m vaddr, Ok s) :
    ∃ u, RadixTree.Grown t u (pathOf vaddr) ∧
      Paged PML4 Inv (mapVaddrToPaddr request PML4 m vaddr paddr)
        (u.set (pathOf vaddr) (BitVec.ofNat 32 (paddr >>> 12))) ∧
      ∀ r F, tableAt PML4 u r = some F ↔
        tableAt PML4 t r = some F ∨ (r, F) ∈ createdBy request PML4 m vaddr := by
  obtain ⟨_, _, _, h1⟩ := indexes_lt vaddr
  obtain ⟨u, hpaged, hgrown, htable, hcreated, _⟩ := descendPT_spec spec h hok
  have hmap : mapVaddrToPaddr request PML4 m vaddr paddr =
      setPage (descendPT request PML4 m vaddr).2 (descendPT request PML4 m vaddr).1
        (extractVaddrPagingIndexes vaddr).ptEntry paddr := rfl
  rw [hmap]
  generalize descendPT request PML4 m vaddr = PT at hpaged htable
  have hlen : ((pathOf vaddr).take 3).length = 3 := rfl
  have hTmem := mem_tables (by rw [hlen]; decide) htable
  have hTb := hpaged.represents.table_bounds hTmem
  have hpath : (pathOf vaddr).take 3 ++ [(extractVaddrPagingIndexes vaddr).ptEntry] = pathOf vaddr :=
    rfl
  have hrep := hpaged.represents.setPage hlen htable h1 paddr
  have htables : tables PML4 (u.set (pathOf vaddr) (BitVec.ofNat 32 (paddr >>> 12))) =
      tables PML4 u := hpath ▸ tables_set_leaf hlen
  rw [hpath] at hrep
  refine ⟨u, hgrown, ⟨hrep, ?_⟩, hcreated⟩
  · rw [htables]
    refine spec.stable _ _ _ hpaged.allocator rfl fun a ha => ?_
    exact storeEntry_byte_of_notMem fun hc => ha _ hTmem (entry_subset_page hTb.2 h1 hc)

/-- A present entry is followed without a request. -/
theorem nextTable_of_present (request : Machine σ → Nat × Machine σ) {table index : Nat}
    {x : BitVec 32} (hx : x.toNat < 2 ^ 20)
    (h : loadEntry m.mem (entryPtr table index) = PagingEntry.linked x) :
    nextTable request m table index = (x.toNat * 4096, m) ∧ missing m table index = [] := by
  unfold nextTable missing
  rw [h, if_neg (by simp), if_neg (by simp), PagingEntry.tableAddr_linked hx]
  exact ⟨rfl, rfl⟩

/-- A call for a page whose page table exists arrives there and requests nothing. -/
theorem descendPT_of_table (request : Machine σ → Nat × Machine σ) (h : Represents PML4 m.mem t)
    {vaddr : Nat} {x : BitVec 32} (hx : t ((pathOf vaddr).take 3) = some x) :
    descendPT request PML4 m vaddr = (x.toNat * 4096, m) ∧ requestsOf request PML4 m vaddr = [] := by
  obtain ⟨h4, h3, h2, _⟩ := indexes_lt vaddr
  unfold requestsOf descendPT descendPD descendPDPT
  have hx' : t [(extractVaddrPagingIndexes vaddr).pml4Entry,
    (extractVaddrPagingIndexes vaddr).pdptEntry, (extractVaddrPagingIndexes vaddr).pdEntry] = some x :=
    hx
  set indexes := extractVaddrPagingIndexes vaddr
  obtain ⟨x3, hx3⟩ := h.tree.prefix_some (q := [indexes.pml4Entry, indexes.pdptEntry])
    (r := [indexes.pdEntry]) (by simp) hx'
  obtain ⟨x4, hx4⟩ := h.tree.prefix_some (q := [indexes.pml4Entry]) (r := [indexes.pdptEntry])
    (by simp) hx3
  have he4 := h.entry [] PML4.addr (by simp) tableAt_nil _ h4
  have he3 := h.entry [indexes.pml4Entry] _ (by simp) (by rw [tableAt_of_ne_nil (by simp), hx4]; rfl) _ h3
  have he2 := h.entry [indexes.pml4Entry, indexes.pdptEntry] _ (by simp)
    (by rw [tableAt_of_ne_nil (by simp), hx3]; rfl) _ h2
  rw [List.nil_append, hx4] at he4
  rw [List.singleton_append, hx3] at he3
  rw [List.cons_append, List.singleton_append, hx'] at he2
  obtain ⟨hnext4, hmissing4⟩ := nextTable_of_present request (h.low _ _ (by simp) hx4) he4
  obtain ⟨hnext3, hmissing3⟩ := nextTable_of_present request (h.low _ _ (by simp) hx3) he3
  obtain ⟨hnext2, hmissing2⟩ := nextTable_of_present request (h.low _ _ (by simp) hx') he2
  simp only [hnext4, hmissing4, hnext3, hmissing3, hnext2, hmissing2, List.append_nil, and_self]

theorem requestsOf_eq_nil (h : Represents PML4 m.mem t) {vaddr : Nat} {x : BitVec 32}
    (hx : t ((pathOf vaddr).take 3) = some x) : requestsOf request PML4 m vaddr = [] :=
  (descendPT_of_table request h hx).2

/-- And changes nothing of the allocator. -/
theorem mapVaddrToPaddr_pmem_of_nil {vaddr : Nat} (paddr : Nat)
    (h : requestsOf request PML4 m vaddr = []) :
    (mapVaddrToPaddr request PML4 m vaddr paddr).pmem = m.pmem := by
  have hnext {m : Machine σ} {table index : Nat} (hmissing : missing m table index = []) :
      (nextTable request m table index).2 = m := by
    unfold nextTable missing at *
    split_ifs at hmissing ⊢
    rfl
  simp only [requestsOf, List.append_eq_nil_iff] at h
  obtain ⟨⟨hPDPT, hPD⟩, hPT⟩ := h
  rw [mapVaddrToPaddr_pmem]
  calc (descendPT request PML4 m vaddr).2.pmem
      = (descendPD request PML4 m vaddr).2.pmem := congrArg Machine.pmem (hnext hPT)
    _ = (descendPDPT request PML4 m vaddr).2.pmem := congrArg Machine.pmem (hnext hPD)
    _ = m.pmem := congrArg Machine.pmem (hnext hPDPT)

/-- The arguments of a call of `map_vaddr_to_paddr`. -/
structure MapCall where
  vaddr : Nat
  paddr : Nat

/-- A sequence of calls. -/
def runCalls (request : Machine σ → Nat × Machine σ) (PML4 : PML4Table) (m : Machine σ)
    (calls : List MapCall) : Machine σ :=
  calls.foldl (fun m c => mapVaddrToPaddr request PML4 m c.vaddr c.paddr) m

@[simp] theorem runCalls_append_singleton (calls : List MapCall) (c : MapCall) :
    runCalls request PML4 m (calls ++ [c]) =
      mapVaddrToPaddr request PML4 (runCalls request PML4 m calls) c.vaddr c.paddr := by
  simp only [runCalls, List.foldl_append, List.foldl_cons, List.foldl_nil]

/-- The tables a sequence of calls creates. -/
def runCreated (request : Machine σ → Nat × Machine σ) (PML4 : PML4Table) :
    Machine σ → List MapCall → List (List Nat × Nat)
  | _, [] => []
  | m, c :: calls => createdBy request PML4 m c.vaddr ++
      runCreated request PML4 (mapVaddrToPaddr request PML4 m c.vaddr c.paddr) calls

theorem runCreated_append_singleton (m : Machine σ) (calls : List MapCall) (c : MapCall) :
    runCreated request PML4 m (calls ++ [c]) = runCreated request PML4 m calls ++
      createdBy request PML4 (runCalls request PML4 m calls) c.vaddr := by
  induction calls generalizing m with
  | nil => simp [runCreated, runCalls]
  | cons c' calls ih => rw [List.cons_append, runCreated, runCreated, ih, List.append_assoc]; rfl

/-- What calls write into the map from paths to page frames. -/
def pageWrites (calls : List MapCall) : List (List Nat × BitVec 32) :=
  calls.map fun c => (pathOf c.vaddr, BitVec.ofNat 32 (c.paddr >>> 12))

theorem tableAt_empty {q : List Nat} {T : Nat} :
    tableAt PML4 RadixTree.empty q = some T ↔ q = [] ∧ T = PML4.addr := by
  by_cases hq : q = []
  · rw [hq, tableAt_nil]
    simp [eq_comm]
  · rw [tableAt_of_ne_nil hq]
    simp [RadixTree.empty, hq]

/-- A run of calls from an empty PML4 refines the map in which the last write wins, and its tables
are those it has created. -/
theorem runCalls_spec (spec : AllocatorSpec request Inv Ok) (h : Paged PML4 Inv m RadixTree.empty)
    (calls : List MapCall)
    (hok : ∀ before c after, calls = before ++ c :: after →
      ∀ s ∈ requestsOf request PML4 (runCalls request PML4 m before) c.vaddr, Ok s) :
    ∃ t, Paged PML4 Inv (runCalls request PML4 m calls) t ∧
      (∀ vaddr, t (pathOf vaddr) = RadixTree.lastWrite (pageWrites calls) (pathOf vaddr)) ∧
      ∀ r F, r ≠ [] → r.length < 4 →
        (tableAt PML4 t r = some F ↔ (r, F) ∈ runCreated request PML4 m calls) := by
  induction calls using List.reverseRecOn with
  | nil =>
      refine ⟨RadixTree.empty, h, fun _ => rfl, fun r F hr _ => ?_⟩
      rw [tableAt_empty]
      exact ⟨fun hc => absurd hc.1 hr, fun hc => absurd hc List.not_mem_nil⟩
  | append_singleton calls c ih =>
      obtain ⟨t, hpaged, hlast, hcreated⟩ := ih fun before c' after heq =>
        hok before c' (after ++ [c]) (by rw [heq, List.append_assoc, List.cons_append])
      obtain ⟨u, hgrown, hmap, htables⟩ := mapVaddrToPaddr_spec spec hpaged c.paddr (hok calls c [] rfl)
      refine ⟨_, by rw [runCalls_append_singleton]; exact hmap, ?_, ?_⟩
      · intro vaddr
        rw [hgrown.set_payload (r := pathOf vaddr) rfl, hlast, pageWrites, pageWrites,
          List.map_append, List.map_singleton, RadixTree.lastWrite_append_singleton]
      · intro r F hr hlen
        rw [tableAt_set_of_ne, htables, hcreated r F hr hlen, runCreated_append_singleton,
          List.mem_append]
        rintro rfl
        exact absurd hlen (by simp [pathOf])

end Map

end MyOSKernel
