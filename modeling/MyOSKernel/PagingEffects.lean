import MyOSKernel.PagingFrames

/-! What a mapping changes. Outside the entries on its path these are the frames it takes, which were
free, and the bytes of the array that say so. -/

namespace MyOSKernel

open PhysicalMemory

/-- The frames taken for tables since the machine `m`, when the tables were `S₀`: only frames that
were free have become tables, only free frames have become locked, and nothing outside the tables has
changed but states of frames. -/
structure Taken (s m : Kernel) (S₀ S : Set Nat) (m' : Kernel) : Prop where
  tables : ∀ T ∈ S, T ∈ S₀ ∨ ∃ j < s.pmem.frames, getFrameAddr s j = T ∧
    getFrameState m j = FrameState.free.code
  states : ∀ j < s.pmem.frames, getFrameState m' j = getFrameState m j ∨
    (getFrameState m j = FrameState.free.code ∧ getFrameState m' j = FrameState.locked.code)
  bytes : ∀ a, (∀ j < s.pmem.frames, a ≠ s.pmem.statePtr j) → (∀ T ∈ S, a ∉ pageBytes T) →
    m'.mem.byte a = m.mem.byte a

namespace Taken
variable {PML4 : PML4Table} {s m m' m'' : Kernel} {S₀ S S' : Set Nat}

theorem refl (s m : Kernel) (S : Set Nat) : Taken s m S S m :=
  ⟨fun _ hT => Or.inl hT, fun _ _ => Or.inl rfl, fun _ _ _ => rfl⟩

/-- A frame free now was free before. -/
theorem was_free (h : Taken s m S₀ S m') {j : Nat} (hj : j < s.pmem.frames)
    (hfree : getFrameState m' j = FrameState.free.code) :
    getFrameState m j = FrameState.free.code := by
  rcases h.states j hj with heq | ⟨hwas, _⟩
  · rw [← heq, hfree]
  · exact hwas

theorem request (htf : TableFrames PML4 s [] S m') (h : Taken s m S₀ S m')
    (hfree : m'.pmem.freeFrames ≠ 0) :
    Taken s m S₀ (insert (pmemRequestFrame m').1 S) (pmemRequestFrame m').2 := by
  obtain ⟨j, hj, hm, haddr, _⟩ := htf.request_cases hfree
  have hwas := h.was_free hj hm.was
  refine ⟨?_, ?_, ?_⟩
  · intro T hc
    obtain hT | hT := hc
    · exact Or.inr ⟨j, hj, by rw [hT, haddr], hwas⟩
    · exact h.tables T hT
  · intro k hk
    rw [hm.state k (htf.frames_eq ▸ hk)]
    by_cases hkj : k = j
    · rw [if_pos hkj, hkj]
      exact Or.inr ⟨hwas, rfl⟩
    · rw [if_neg hkj]
      exact h.states k hk
  · intro a hstate ha
    have hne : a ≠ m'.pmem.statePtr j := by
      rw [htf.holding.same.statePtr_eq]
      exact hstate j hj
    exact (hm.byte a hne).trans (h.bytes a hstate fun T hT => ha T (Or.inr hT))

theorem stable (hworld : FrameWorld PML4 s) (htf : TableFrames PML4 s [] S m')
    (h : Taken s m S₀ S m') (hpmem : m''.pmem = m'.pmem)
    (hbytes : ∀ a, (∀ T ∈ S, a ∉ pageBytes T) → m''.mem.byte a = m'.mem.byte a) :
    Taken s m S₀ S m'' := by
  refine ⟨h.tables, fun j hj => ?_, fun a hstate ha => (hbytes a ha).trans (h.bytes a hstate ha)⟩
  have heq : getFrameState m'' j = getFrameState m' j := by
    refine getFrameState_of_eqOn htf.holding.accounts.fits (htf.frames_eq ▸ hj) hpmem ?_
    intro a ha
    refine hbytes a fun T hT hc => Set.disjoint_left.mp (htf.disjoint_array hworld hT) hc ?_
    rw [← htf.arrayBytes_eq]
    exact ha
  rw [heq]
  exact h.states j hj

theorem allocatorSpec (hworld : FrameWorld PML4 s) (m : Kernel) (S₀ : Set Nat) :
    AllocatorSpec pmemRequestFrame
      (fun S m' => TableFrames PML4 s [] S m' ∧ Taken s m S₀ S m') (GrantsTable PML4) :=
  (TableFrames.allocatorSpec hworld []).and
    (fun _ _ htf h hok => h.request htf hok.1)
    (fun _ _ _ htf h hpmem hbytes => h.stable hworld htf hpmem hbytes)

theorem trans (h : Taken s m S₀ S m') (h' : Taken s m' S S' m'') (hsub : S ⊆ S') :
    Taken s m S₀ S' m'' := by
  refine ⟨?_, ?_, ?_⟩
  · intro T hT
    rcases h'.tables T hT with hS | ⟨j, hj, hja, hfree⟩
    · exact h.tables T hS
    · exact Or.inr ⟨j, hj, hja, h.was_free hj hfree⟩
  · intro j hj
    rcases h'.states j hj with heq | ⟨hfree, hlocked⟩
    · rw [heq]
      exact h.states j hj
    · exact Or.inr ⟨h.was_free hj hfree, hlocked⟩
  · intro a hstate ha
    exact (h'.bytes a hstate ha).trans (h.bytes a hstate fun T hT => ha T (hsub hT))

end Taken

section Map
variable {PML4 : PML4Table} {s m : Kernel} {t u : PageTree} {vaddr : Nat}

/-- The place of an entry on the path of an address, in the PML4 or in a table reached from it. -/
def PathEntry (PML4 : PML4Table) (mem : Memory) (vaddr ptr : Nat) : Prop :=
  ∃ q i T, q ++ [i] <+: pathOf vaddr ∧ walkTo PagingEntry.kernelTable mem PML4.addr q = some T ∧
    ptr = entryPtr T i

/-- A call of `map_vaddr_to_paddr` and what it takes. -/
structure MapsTaking (PML4 : PML4Table) (s m : Kernel) (t : PageTree) (vaddr : Nat) (m' : Kernel)
    (u : PageTree) (x : BitVec 32) : Prop where
  before : Paged PML4 (TableFrames PML4 s []) m t
  grown : RadixTree.Grown t u (pathOf vaddr)
  represents : Represents PML4 m'.mem (u.set (pathOf vaddr) x)
  frames : TableFrames PML4 s [] (tables PML4 (u.set (pathOf vaddr) x)) m'
  taken : Taken s m (tables PML4 t) (tables PML4 (u.set (pathOf vaddr) x)) m'

theorem mapsTaking (hworld : FrameWorld PML4 s) (h : Paged PML4 (TableFrames PML4 s []) m t)
    (paddr : Nat) (hok : ∀ r ∈ requestsOf pmemRequestFrame PML4 m vaddr, GrantsTable PML4 r) :
    ∃ u, MapsTaking PML4 s m t vaddr (mapVaddrToPaddr pmemRequestFrame PML4 m vaddr paddr) u
      (BitVec.ofNat 32 (paddr >>> 12)) := by
  have hpaged : Paged PML4 (fun S m' => TableFrames PML4 s [] S m' ∧ Taken s m (tables PML4 t) S m')
      m t := ⟨h.represents, h.allocator, .refl s m _⟩
  obtain ⟨u, hgrown, hmap, _⟩ :=
    mapVaddrToPaddr_spec (Taken.allocatorSpec hworld m (tables PML4 t)) hpaged paddr hok
  exact ⟨u, h, hgrown, hmap.represents, hmap.allocator.1, hmap.allocator.2⟩

namespace MapsTaking
variable {m' : Kernel} {x : BitVec 32} {q : List Nat} {T : Nat}

/-- The tables stay where they are. -/
theorem tableAt (h : MapsTaking PML4 s m t vaddr m' u x) (hq : q.length < 4)
    (hT : tableAt PML4 t q = some T) : MyOSKernel.tableAt PML4 (u.set (pathOf vaddr) x) q = some T := by
  have hne : q ≠ pathOf vaddr := by
    rintro rfl
    exact absurd hq (by simp [pathOf])
  rw [tableAt_set_of_ne hne]
  by_cases hroot : q = []
  · rw [hroot, tableAt_nil] at hT ⊢
    exact hT
  · rw [tableAt_of_ne_nil hroot] at hT ⊢
    obtain ⟨y, hy, hyT⟩ := Option.map_eq_some_iff.mp hT
    rw [h.grown.keep q y hy, Option.map_some, hyT]

theorem tables_subset (h : MapsTaking PML4 s m t vaddr m' u x) :
    tables PML4 t ⊆ tables PML4 (u.set (pathOf vaddr) x) :=
  fun _ ⟨q, hq, hT⟩ => ⟨q, hq, h.tableAt hq hT⟩

end MapsTaking

end Map

end MyOSKernel
