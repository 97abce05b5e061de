import MyOSKernel.PagingFailure

/-! The one way a failed mapping goes unnoticed. If the page at address 0 is a free frame it is
granted on the way down and taken again for the frame that is missing, so that two levels share it;
the page mapped is lost then, and nothing else changes when no walk through it succeeds. -/

namespace MyOSKernel

open PhysicalMemory

/-- No walk of `n` levels succeeds from the table `y`, in the processor's eyes. -/
def DeadEnd (mem : Memory) (n y : Nat) : Prop :=
  ∀ r : List Nat, r.length = n → (∀ k ∈ r, k < 512) → pageBehind mem y r = none

section DeadEnd
variable {mem mem' : Memory} {n x y d : Nat}

theorem not_deadEnd_zero : ¬DeadEnd mem 0 y :=
  fun h => absurd (h [] rfl (by simp)) (by simp [pageBehind])

/-- A present entry that leads to tables of `n` levels is no way on: it has `ps` set and a reserved bit
too, or what it leads to is none. -/
def Blocked (e : PagingEntry) (n : Nat) (below : Nat → Prop) : Prop :=
  if n ≠ 0 ∧ e.ps = 1 then largePage n e = none else below e.physAddr

@[simp] theorem blocked_linked {z : BitVec 32} {below : Nat → Prop} :
    Blocked (PagingEntry.linked z) n below ↔ below (z.toNat * 4096) := by
  rw [Blocked, if_neg (by simp), PagingEntry.physAddr_linked]

theorem pageBehind_of_present {k : Nat} {r : List Nat} (hr : r.length = n)
    (hpresent : (loadEntry mem (entryPtr y k)).present = 1) : pageBehind mem y (k :: r) =
      if n ≠ 0 ∧ (loadEntry mem (entryPtr y k)).ps = 1 then largePage n (loadEntry mem (entryPtr y k))
      else pageBehind mem (loadEntry mem (entryPtr y k)).physAddr r := by
  rw [pageBehind, if_neg (by rw [hpresent]; decide), hr]

theorem deadEnd_succ_iff : DeadEnd mem (n + 1) y ↔
    ∀ k < 512, (loadEntry mem (entryPtr y k)).present = 1 →
      Blocked (loadEntry mem (entryPtr y k)) n (DeadEnd mem n) := by
  constructor
  · intro h k hk hpresent
    have hwalk : ∀ r : List Nat, r.length = n → (∀ l ∈ r, l < 512) →
        pageBehind mem y (k :: r) = none := fun r hr hlt =>
      h (k :: r) (by rw [List.length_cons, hr]) (List.forall_mem_cons.mpr ⟨hk, hlt⟩)
    unfold Blocked
    split_ifs with hps
    · have hlarge := hwalk (List.replicate n 0) (by simp) (by simp)
      rw [pageBehind_of_present List.length_replicate hpresent, if_pos hps] at hlarge
      exact hlarge
    · intro r hr hlt
      have hbelow := hwalk r hr hlt
      rw [pageBehind_of_present hr hpresent, if_neg hps] at hbelow
      exact hbelow
  · intro h r hr hlt
    cases r with
    | nil => exact absurd hr (by simp)
    | cons k r =>
        have hlen : r.length = n := by simpa using hr
        obtain ⟨hk, hrest⟩ := List.forall_mem_cons.mp hlt
        rcases present_eq_zero_or_one (loadEntry mem (entryPtr y k)) with hpresent | hpresent
        · rw [pageBehind, if_pos hpresent]
        · have hblocked := h k hk hpresent
          unfold Blocked at hblocked
          rw [pageBehind_of_present hlen hpresent]
          split_ifs at hblocked ⊢ with hps
          · exact hblocked
          · exact hblocked r hlen hrest

/-- A table with a present entry is no dead end for one level. -/
theorem not_deadEnd_one {k : Nat} (hk : k < 512)
    (hpresent : (loadEntry mem (entryPtr y k)).present = 1) : ¬DeadEnd mem 1 y := by
  intro h
  have hnext := deadEnd_succ_iff.mp h k hk hpresent
  rw [Blocked, if_neg (by simp)] at hnext
  exact not_deadEnd_zero hnext

/-- A table that holds one entry, and maybe a second one that leads to itself. -/
theorem deadEnd_succ_iff_of_entries {o : Option Nat} {z : BitVec 32} (hz : z.toNat * 4096 = y)
    (ho : ∀ c, o = some c → c < 512) (hd : d < 512) {x : BitVec 32}
    (h : ∀ k < 512, loadEntry mem (entryPtr y k) =
      if k = d then PagingEntry.linked x else if some k = o then PagingEntry.linked z
      else PagingEntry.blank) :
    DeadEnd mem (n + 1) y ↔ (∀ c, o = some c → c = d) ∧ DeadEnd mem n (x.toNat * 4096) := by
  have hdown : DeadEnd mem (n + 1) y → DeadEnd mem n (x.toNat * 4096) := by
    intro hdead
    have hnext := deadEnd_succ_iff.mp hdead d hd (by rw [h d hd, if_pos rfl]; rfl)
    rw [h d hd, if_pos rfl, blocked_linked] at hnext
    exact hnext
  constructor
  · refine fun hdead => ⟨fun c hc => ?_, hdown hdead⟩
    -- else the walk could go round in the table
    by_contra hne
    have hround : ∀ l, walkTo PagingEntry.hardwareTable mem y (List.replicate l c) = some y := by
      intro l
      induction l with
      | zero => rfl
      | succ l ih =>
          rw [List.replicate_succ, walkTo, h c (ho c hc), if_neg hne, if_pos hc.symm,
            PagingEntry.hardwareTable_linked, hz, Option.bind_some]
          exact ih
    have hnone := hdead (List.replicate (n + 1) c) (by simp) (by simpa using ho c hc)
    rw [← List.append_nil (List.replicate (n + 1) c), pageBehind_append (hround _)] at hnone
    exact absurd hnone (by simp [pageBehind])
  · intro hx
    obtain ⟨hself, hnext⟩ := hx
    refine deadEnd_succ_iff.mpr fun k hk hpresent => ?_
    rw [h k hk] at hpresent ⊢
    by_cases hkd : k = d
    · rw [if_pos hkd, blocked_linked]
      exact hnext
    · rw [if_neg hkd, if_neg fun hc => hkd (hself k hc.symm)] at hpresent
      exact absurd hpresent (by decide)

end DeadEnd

section Levels
variable {PML4 : PML4Table} {m m' : Kernel} {t : PageTree} {e : Set Nat} {J : List Nat}
  {q : List Nat} {i T F b c d paddr : Nat}

/-- When no frame is left all frames that were free have been granted. -/
theorem Reached.all_granted (h : Reached m e J m') (hfree : m'.pmem.freeFrames = 0) :
    ∀ j < m.pmem.frames, getFrameState m j = FrameState.free.code → j ∈ J := by
  intro j hj hstate
  have hnone := firstFree_eq_none_iff.mp (h.accounts.freeFrames_eq_zero_iff.mp hfree) j
    (h.same.frames ▸ hj)
  rw [h.states j hj] at hnone
  by_contra hJ
  rw [if_neg hJ] at hnone
  exact hnone hstate

/-- The store of the page into a table that was a free frame. -/
theorem Reached.setPage (paddr : Nat) (hm : PageTableState PML4 m t) (h : Reached m e J m')
    (he : Disjoint e m.pmem.arrayBytes) (hF : FreeFrame m F) (hd : d < 512) :
    Reached m e J (setPage m' F d paddr) ∧ ∀ T' k, ApartPage m T' → k < 512 →
      loadEntry (MyOSKernel.setPage m' F d paddr).mem (entryPtr T' k) =
        if T' = F ∧ k = d then (loadEntry m'.mem (entryPtr F d)).link paddr
        else loadEntry m'.mem (entryPtr T' k) := by
  have hpage := hm.apart_free hF
  refine ⟨h.write he (fun _ => hm.apart_free) rfl fun a _ hafree => ?_, fun T' k hT' hk => ?_⟩
  · exact storeEntry_byte_of_notMem fun hc => hafree F hF (entry_subset_page hpage.inSpace hd hc)
  · exact loadEntry_linkEntry hpage.aligned hT'.aligned hpage.inSpace hT'.inSpace hd hk

/-- What is left of the descent at the page at address 0: a table is taken there that is the same
page, or was taken before, and the page mapped is stored into it. -/
theorem Reached.last_level (paddr : Nat) (o : Option Nat) (hm : PageTableState PML4 m t)
    (hzero : FreeFrame m 0)
    (he : Disjoint e m.pmem.arrayBytes) (h : Reached m e J m') (hfree : m'.pmem.freeFrames = 0)
    (hc : c < 512) (hd : d < 512)
    (hpage : ∀ k < 512, loadEntry m'.mem (entryPtr 0 k) =
      if some k = o then PagingEntry.linked 0 else PagingEntry.blank) :
    ∃ s, nextTable pmemRequestFrame m' 0 c = (0, s) ∧
      Reached m e J (MyOSKernel.setPage s 0 d paddr) ∧
      (∀ k < 512, loadEntry (MyOSKernel.setPage s 0 d paddr).mem (entryPtr 0 k) =
        if k = d then PagingEntry.linked (BitVec.ofNat 32 (paddr >>> 12))
        else if some k = some c then PagingEntry.linked 0 else PagingEntry.blank) ∧
      ∀ T' k, ApartPage m T' → T' ≠ 0 → k < 512 →
        loadEntry (MyOSKernel.setPage s 0 d paddr).mem (entryPtr T' k) =
          loadEntry m'.mem (entryPtr T' k) := by
  have hapart := hm.apart_free hzero
  obtain ⟨s, hnext, hs, hspage, hsother⟩ : ∃ s, nextTable pmemRequestFrame m' 0 c = (0, s) ∧
      Reached m e J s ∧
      (∀ k < 512, loadEntry s.mem (entryPtr 0 k) =
        if some k = some c then PagingEntry.linked 0 else PagingEntry.blank) ∧
      ∀ T' k, ApartPage m T' → T' ≠ 0 → k < 512 →
        loadEntry s.mem (entryPtr T' k) = loadEntry m'.mem (entryPtr T' k) := by
    by_cases ho : some c = o
    · -- the entry leads to the page itself already
      obtain ⟨hnext, _⟩ := nextTable_of_present pmemRequestFrame (x := 0) (by decide)
        ((hpage c hc).trans (if_pos ho))
      exact ⟨m', hnext, h, fun k hk => by rw [hpage k hk, ho], fun _ _ _ _ _ => rfl⟩
    · have hcreated := (h.requested_null hfree hapart).create hm he hzero hapart hc
        ((hpage c hc).trans (if_neg ho)) (Or.inl hzero)
      refine ⟨_, Prod.ext hcreated.table rfl, hcreated.reached, fun k hk => ?_,
        fun T' k hT' hne hk => ?_⟩
      · rw [hcreated.entry 0 k hapart hk]
        simp only [true_and, Option.some.injEq, if_true]
        rfl
      · rw [hcreated.entry T' k hT' hk, if_neg fun h => hne h.1, if_neg hne]
  obtain ⟨hset, hentry⟩ := hs.setPage paddr hm he hzero hd
  refine ⟨s, hnext, hset, fun k hk => ?_, fun T' k hT' hne hk => ?_⟩
  · rw [hentry 0 k hapart hk]
    by_cases hkd : k = d
    · rw [if_pos ⟨rfl, hkd⟩, if_pos hkd, hspage d hd]
      split_ifs
      · exact PagingEntry.link_linked _ _
      · exact PagingEntry.link_blank _
    · rw [if_neg fun h => hkd h.2, if_neg hkd, hspage k hk]
  · rw [hentry T' k hT' hk, if_neg fun h => hne h.1, hsother T' k hT' hne hk]

end Levels

/-- What a call leaves that was granted every free frame on the way: the slot the walk got stuck at
leads to the frame `F`, and every frame granted holds a present entry. -/
structure Spent (m : Kernel) (T i F : Nat) (J : List Nat) (m' : Kernel) : Prop where
  reached : Reached m (slotBytes T i) J m'
  full : ∀ j < m.pmem.frames, getFrameState m j = FrameState.free.code → j ∈ J
  first : FreeFrame m F
  link : loadEntry m'.mem (entryPtr T i) = PagingEntry.linked (BitVec.ofNat 32 (F >>> 12))
  used : ∀ y, FreeFrame m y → ∃ k < 512, (loadEntry m'.mem (entryPtr y k)).present = 1

/-- The page at address 0 holds the page mapped, and maybe an entry `o` that leads to itself. -/
def ZeroPageHolds (m' : Kernel) (o : Option Nat) (d paddr : Nat) : Prop :=
  ∀ k < 512, loadEntry m'.mem (entryPtr 0 k) =
    if k = d then PagingEntry.linked (BitVec.ofNat 32 (paddr >>> 12))
    else if some k = o then PagingEntry.linked 0 else PagingEntry.blank

section Cases
variable {PML4 : PML4Table} {m : Kernel} {t : PageTree} {q : List Nat} {i T b c d paddr : Nat}

theorem ZeroPageHolds.present {m' : Kernel} {o : Option Nat} (h : ZeroPageHolds m' o d paddr)
    (hd : d < 512) : (loadEntry m'.mem (entryPtr 0 d)).present = 1 := by
  rw [h d hd, if_pos rfl]
  rfl

theorem freeFrames_ne_zero (hm : PageTableState PML4 m t) (hzero : FreeFrame m 0) :
    m.pmem.freeFrames ≠ 0 := by
  obtain ⟨j, hj, hstate, _⟩ := hzero
  intro hc
  exact firstFree_eq_none_iff.mp (hm.accounts.freeFrames_eq_zero_iff.mp hc) j hj hstate

/-- The first table that is missing: its frame is the first free one, and is empty. -/
theorem EmptySlot.create_first (hm : PageTableState PML4 m t) (hslot : EmptySlot PML4 t q i T)
    (hzero : FreeFrame m 0) :
    ∃ j F r, (pmemRequestFrame m).1 = F ∧ FreeFrame m F ∧ getFrameAddr m j = F ∧
      Created m (slotBytes T i) [j] m T i F r (nextTable pmemRequestFrame m T i) ∧
      (nextTable pmemRequestFrame m T i).2.pmem.freeFrames + 1 = m.pmem.freeFrames ∧
      ∀ k < 512, loadEntry (nextTable pmemRequestFrame m T i).2.mem (entryPtr F k) =
        PagingEntry.blank := by
  obtain ⟨j, F, r, hfirst, hF, haddr, _, hcreated, hcount⟩ := (Reached.refl hm.accounts _).create hm
    (hslot.disjoint_array hm) (hm.apart_table hslot.mem_tables) hslot.index
    (hslot.blank hm.represents) (Or.inr (Set.Subset.refl _)) (freeFrames_ne_zero hm hzero)
  refine ⟨j, F, r, hfirst, hF, haddr, hcreated, hcount, fun k hk => ?_⟩
  rw [hcreated.entry F k (hm.apart_free hF) hk, if_neg fun h => hslot.ne_free hm hF h.1, if_pos rfl]

/-- The page at address 0 is that frame when it is the only one left. -/
theorem EmptySlot.create_only (hm : PageTableState PML4 m t) (hslot : EmptySlot PML4 t q i T)
    (hzero : FreeFrame m 0) (hfew : m.pmem.freeFrames < 2) :
    ∃ j r, (pmemRequestFrame m).1 = 0 ∧
      Created m (slotBytes T i) [j] m T i 0 r (nextTable pmemRequestFrame m T i) ∧
      (nextTable pmemRequestFrame m T i).2.pmem.freeFrames = 0 ∧
      (∀ k < 512, loadEntry (nextTable pmemRequestFrame m T i).2.mem (entryPtr 0 k) =
        PagingEntry.blank) ∧
      ∀ y, FreeFrame m y → y = 0 := by
  obtain ⟨j, F, r, hfirst, _, haddr, hcreated, hcount, hblank⟩ := hslot.create_first hm hzero
  have hnone : (nextTable pmemRequestFrame m T i).2.pmem.freeFrames = 0 := by omega
  have hpages : ∀ y, FreeFrame m y → y = F := by
    intro y hy
    obtain ⟨k, hk, hstate, rfl⟩ := hy
    rw [← haddr, List.mem_singleton.mp (hcreated.reached.all_granted hnone k hk hstate)]
  obtain rfl := hpages 0 hzero
  exact ⟨j, r, hfirst, hcreated, hnone, hblank, hpages⟩

/-- Two tables are missing and one frame is left. -/
theorem spent_two (paddr : Nat) (hm : PageTableState PML4 m t) (hslot : EmptySlot PML4 t q i T)
    (hzero : FreeFrame m 0) (hc : c < 512) (hd : d < 512) (hfew : m.pmem.freeFrames < 2)
    {s : Nat × Kernel} (hs : s = descendFrom pmemRequestFrame (T, m) [i, c]) :
    ∃ J, Spent m T i 0 J (setPage s.2 s.1 d paddr) ∧
      ZeroPageHolds (setPage s.2 s.1 d paddr) (some c) d paddr := by
  have hT := hm.apart_table hslot.mem_tables
  have hTzero : T ≠ 0 := fun h => hslot.ne_free hm hzero h.symm
  obtain ⟨j, r, -, hcreated, hnone, hblank, hpages⟩ := hslot.create_only hm hzero hfew
  have hall := hcreated.reached.all_granted hnone
  obtain ⟨s', hnext, hreached, hpage, hother⟩ := hcreated.reached.last_level paddr none hm hzero
    (hslot.disjoint_array hm) hnone hc hd fun k hk => by rw [hblank k hk, if_neg (by simp)]
  have hs' : s = (0, s') := by
    rw [hs, ← hnext, ← hcreated.table]
    rfl
  rw [hs']
  refine ⟨_, ⟨hreached, hall, hzero, ?_, fun y hy => ?_⟩, hpage⟩
  · rw [hother T i hT hTzero hslot.index, hcreated.entry T i hT hslot.index, if_pos ⟨rfl, rfl⟩]
  · rw [hpages y hy]
    exact ⟨d, hd, ZeroPageHolds.present hpage hd⟩

/-- Three are missing and one frame is left. -/
theorem spent_three_one (paddr : Nat) (hm : PageTableState PML4 m t) (hslot : EmptySlot PML4 t q i T)
    (hzero : FreeFrame m 0) (hb : b < 512) (hc : c < 512) (hd : d < 512)
    (hfew : m.pmem.freeFrames < 2)
    {s : Nat × Kernel} (hs : s = descendFrom pmemRequestFrame (T, m) [i, b, c]) :
    (pmemRequestFrame m).1 = 0 ∧ ∃ J, Spent m T i 0 J (setPage s.2 s.1 d paddr) ∧
      ZeroPageHolds (setPage s.2 s.1 d paddr) (some c) d paddr ∧ ∀ y, FreeFrame m y → y = 0 := by
  have hT := hm.apart_table hslot.mem_tables
  have hapart := hm.apart_free hzero
  have hdisjoint := hslot.disjoint_array hm
  have hTzero : T ≠ 0 := fun h => hslot.ne_free hm hzero h.symm
  obtain ⟨j, r, hfirst, hcreated, hnone, hblank, hpages⟩ := hslot.create_only hm hzero hfew
  have hall := hcreated.reached.all_granted hnone
  have hagain := (hcreated.reached.requested_null hnone hapart).create hm hdisjoint hzero hapart hb
    (hblank b hb) (Or.inl hzero)
  obtain ⟨s', hnext, hreached, hpage, hother⟩ := hagain.reached.last_level paddr
    (some b) hm hzero hdisjoint (by rw [hagain.pmem]; exact hnone) hc hd fun k hk => by
      rw [hagain.entry 0 k hapart hk]
      simp only [true_and, Option.some.injEq, if_true]
      rfl
  have hs' : s = (0, s') := by
    rw [hs, ← hnext]
    unfold descendFrom descendFrom descendFrom descendFrom
    rw [hcreated.table, hagain.table]
  rw [hs']
  refine ⟨hfirst, _, ⟨hreached, hall, hzero, ?_, fun y hy => ?_⟩, hpage, hpages⟩
  · rw [hother T i hT hTzero hslot.index, hagain.entry T i hT hslot.index,
      if_neg fun h => hTzero h.1, if_neg hTzero, hcreated.entry T i hT hslot.index, if_pos ⟨rfl, rfl⟩]
  · rw [hpages y hy]
    exact ⟨d, hd, ZeroPageHolds.present hpage hd⟩

/-- Three are missing, two frames are left and the page at address 0 is the first. -/
theorem spent_three_first (paddr : Nat) (hm : PageTableState PML4 m t) (hslot : EmptySlot PML4 t q i T)
    (hzero : FreeFrame m 0) (hb : b < 512) (hc : c < 512) (hd : d < 512)
    (htwo : m.pmem.freeFrames = 2) (hfirst : (pmemRequestFrame m).1 = 0)
    {s : Nat × Kernel} (hs : s = descendFrom pmemRequestFrame (T, m) [i, b, c]) :
    ∃ J, Spent m T i 0 J (setPage s.2 s.1 d paddr) ∧
      ZeroPageHolds (setPage s.2 s.1 d paddr) none d paddr ∧
      ∀ y, FreeFrame m y → y ≠ 0 →
        loadEntry (setPage s.2 s.1 d paddr).mem (entryPtr y c) = PagingEntry.linked 0 := by
  have hT := hm.apart_table hslot.mem_tables
  have hapart := hm.apart_free hzero
  have hdisjoint := hslot.disjoint_array hm
  have hTzero : T ≠ 0 := fun h => hslot.ne_free hm hzero h.symm
  obtain ⟨j, F, r, rfl, _, haddr, hcreated, hcount, hblank⟩ := hslot.create_first hm hzero
  rw [hfirst] at haddr hcreated hblank
  obtain ⟨m₁, h₁⟩ : ∃ m₁, nextTable pmemRequestFrame m T i = (0, m₁) :=
    ⟨_, Prod.ext hcreated.table rfl⟩
  rw [h₁] at hcreated hcount hblank
  have hreached₁ : Reached m (slotBytes T i) [j] m₁ := hcreated.reached
  have hentry₁ : ∀ T' k, ApartPage m T' → k < 512 → loadEntry m₁.mem (entryPtr T' k) = _ :=
    hcreated.entry
  -- the page at address 0 leads to the second frame for a while
  obtain ⟨j', F, r', _, hF, haddr', hJ', hsecond, hcount'⟩ := hreached₁.create hm hdisjoint hapart hb
    (hblank b hb) (Or.inl hzero) (by dsimp only at hcount; omega)
  obtain ⟨m₂, h₂⟩ : ∃ m₂, nextTable pmemRequestFrame m₁ 0 b = (F, m₂) :=
    ⟨_, Prod.ext hsecond.table rfl⟩
  rw [h₂] at hsecond hcount'
  have hreached₂ : Reached m (slotBytes T i) [j', j] m₂ := hsecond.reached
  have hentry₂ : ∀ T' k, ApartPage m T' → k < 512 → loadEntry m₂.mem (entryPtr T' k) = _ :=
    hsecond.entry
  have hnone : m₂.pmem.freeFrames = 0 := by
    dsimp only at hcount hcount'
    omega
  have hall := hreached₂.all_granted hnone
  have hpages : ∀ y, FreeFrame m y → y ≠ 0 → y = F := by
    intro y hx hne
    obtain ⟨k, hk, hstate, rfl⟩ := hx
    rcases List.mem_pair.mp (hall k hk hstate) with rfl | rfl
    · exact haddr'
    · exact absurd haddr hne
  have hFpage := hm.apart_free hF
  have hFT : F ≠ T := hslot.ne_free hm hF
  have hFzero : F ≠ 0 := by
    rintro rfl
    refine hJ' (List.mem_singleton.mpr ?_)
    exact hm.distinct j' (hreached₂.granted j' (by simp)).1 j (hreached₂.granted j (by simp)).1
      (haddr'.trans haddr.symm)
  -- the frame that is missing clears it
  have hthird := (hreached₂.requested_null hnone hapart).create hm hdisjoint hzero hFpage hc
    (by rw [hentry₂ F c hFpage hc, if_neg fun h => hFzero h.1, if_pos rfl]) (Or.inl hF)
  obtain ⟨m₃, h₃⟩ : ∃ m₃, nextTable pmemRequestFrame m₂ F c = (0, m₃) :=
    ⟨_, Prod.ext hthird.table rfl⟩
  rw [h₃] at hthird
  have hreached₃ : Reached m (slotBytes T i) [j', j] m₃ := hthird.reached
  have hentry₃ : ∀ T' k, ApartPage m T' → k < 512 → loadEntry m₃.mem (entryPtr T' k) = _ :=
    hthird.entry
  obtain ⟨hreached, hentry⟩ := hreached₃.setPage paddr hm hdisjoint hzero hd
  have hs' : s = (0, m₃) := by
    rw [hs]
    unfold descendFrom descendFrom descendFrom descendFrom
    rw [h₁, h₂, h₃]
  rw [hs']
  have hblank : ∀ k < 512, loadEntry m₃.mem (entryPtr 0 k) = PagingEntry.blank := fun k hk => by
    rw [hentry₃ 0 k hapart hk, if_neg fun h => hFzero h.1.symm, if_pos rfl]
  have hpage : ZeroPageHolds (setPage m₃ 0 d paddr) none d paddr := by
    intro k hk
    rw [hentry 0 k hapart hk, hblank d hd, hblank k hk]
    by_cases hkd : k = d
    · rw [if_pos ⟨rfl, hkd⟩, if_pos hkd, PagingEntry.link_blank]
    · rw [if_neg fun h => hkd h.2, if_neg hkd, if_neg (by simp)]
  have hlink : loadEntry (setPage m₃ 0 d paddr).mem (entryPtr F c) = PagingEntry.linked 0 := by
    rw [hentry F c hFpage hc, if_neg fun h => hFzero h.1, hentry₃ F c hFpage hc, if_pos ⟨rfl, rfl⟩]
    rfl
  refine ⟨_, ⟨hreached, hall, hzero, ?_, fun y hy => ?_⟩, hpage, fun y hy hne => ?_⟩
  · rw [hentry T i hT hslot.index, if_neg fun h => hTzero h.1, hentry₃ T i hT hslot.index,
      if_neg fun h => hFT h.1.symm, if_neg hTzero, hentry₂ T i hT hslot.index,
      if_neg fun h => hTzero h.1, if_neg hFT.symm, hentry₁ T i hT hslot.index, if_pos ⟨rfl, rfl⟩]
  · by_cases hyzero : y = 0
    · rw [hyzero]
      exact ⟨d, hd, hpage.present hd⟩
    · rw [hpages y hy hyzero]
      exact ⟨c, hc, by rw [hlink]; rfl⟩
  · rw [hpages y hy hne]
    exact hlink

/-- Three are missing, two frames are left and the page at address 0 is the second. -/
theorem spent_three_second (paddr : Nat) (hm : PageTableState PML4 m t) (hslot : EmptySlot PML4 t q i T)
    (hzero : FreeFrame m 0) (hb : b < 512) (hc : c < 512) (hd : d < 512)
    (hfew : m.pmem.freeFrames < 3) (hfirst : (pmemRequestFrame m).1 ≠ 0)
    {s : Nat × Kernel} (hs : s = descendFrom pmemRequestFrame (T, m) [i, b, c]) :
    ∃ J F, Spent m T i F J (setPage s.2 s.1 d paddr) ∧
      ZeroPageHolds (setPage s.2 s.1 d paddr) (some c) d paddr ∧
      ∀ k < 512, loadEntry (setPage s.2 s.1 d paddr).mem (entryPtr F k) =
        if k = b then PagingEntry.linked 0 else PagingEntry.blank := by
  have hT := hm.apart_table hslot.mem_tables
  have hapart := hm.apart_free hzero
  have hdisjoint := hslot.disjoint_array hm
  have hTzero : T ≠ 0 := fun h => hslot.ne_free hm hzero h.symm
  obtain ⟨j, F, r, rfl, hF, haddr, hcreated, hcount, hblank⟩ := hslot.create_first hm hzero
  generalize (pmemRequestFrame m).1 = F at hfirst hF haddr hcreated hblank
  have hFpage := hm.apart_free hF
  have hFT : F ≠ T := hslot.ne_free hm hF
  obtain ⟨j₀, hj₀, hstate₀, haddr₀⟩ := hzero
  have hzero : FreeFrame m 0 := ⟨j₀, hj₀, hstate₀, haddr₀⟩
  have hmore : (nextTable pmemRequestFrame m T i).2.pmem.freeFrames ≠ 0 := by
    intro hnone
    obtain rfl := List.mem_singleton.mp (hcreated.reached.all_granted hnone j₀ hj₀ hstate₀)
    exact hfirst (haddr.symm.trans haddr₀)
  obtain ⟨j', F', r', _, hF', haddr', _, hsecond, hcount'⟩ := hcreated.reached.create hm hdisjoint
    hFpage hb (hblank b hb) (Or.inl hF) hmore
  have hnone : (nextTable pmemRequestFrame (nextTable pmemRequestFrame m T i).2 F b).2.pmem.freeFrames
      = 0 := by omega
  have hall := hsecond.reached.all_granted hnone
  obtain rfl : F' = 0 := by
    rcases List.mem_pair.mp (hall j₀ hj₀ hstate₀) with rfl | rfl
    · exact haddr'.symm.trans haddr₀
    · exact absurd (haddr.symm.trans haddr₀) hfirst
  have hpages : ∀ y, FreeFrame m y → y = 0 ∨ y = F := by
    intro y hx
    obtain ⟨k, hk, hstate, rfl⟩ := hx
    rcases List.mem_pair.mp (hall k hk hstate) with rfl | rfl
    · exact Or.inl haddr'
    · exact Or.inr haddr
  obtain ⟨s', hnext, hreached, hpage, hother⟩ := hsecond.reached.last_level paddr
    none hm hzero hdisjoint hnone hc hd fun k hk => by
      rw [hsecond.entry 0 k hapart hk, if_neg fun h => hfirst h.1.symm, if_pos rfl, if_neg (by simp)]
  have hs' : s = (0, s') := by
    rw [hs, ← hnext]
    unfold descendFrom descendFrom descendFrom descendFrom
    rw [hcreated.table, hsecond.table]
  rw [hs']
  have hlink : ∀ k < 512, loadEntry (setPage s' 0 d paddr).mem (entryPtr F k) =
      if k = b then PagingEntry.linked 0 else PagingEntry.blank := by
    intro k hk
    rw [hother F k hFpage hfirst hk, hsecond.entry F k hFpage hk]
    by_cases hkb : k = b
    · rw [if_pos ⟨rfl, hkb⟩, if_pos hkb]
      rfl
    · rw [if_neg fun h => hkb h.2, if_neg hfirst, if_neg hkb, hblank k hk]
  refine ⟨_, F, ⟨hreached, hall, hF, ?_, fun y hy => ?_⟩, hpage, hlink⟩
  · rw [hother T i hT hTzero hslot.index, hsecond.entry T i hT hslot.index,
      if_neg fun h => hFT h.1.symm, if_neg hTzero, hcreated.entry T i hT hslot.index,
      if_pos ⟨rfl, rfl⟩]
  · rcases hpages y hy with rfl | rfl
    · exact ⟨d, hd, ZeroPageHolds.present hpage hd⟩
    · exact ⟨b, hb, by rw [hlink b hb, if_pos rfl]; rfl⟩

end Cases

/-- The memory with the free frames marked as locked. -/
def lockedMemory (m : Kernel) : Memory where
  byte a := if ∃ j < m.pmem.frames, a = m.pmem.statePtr j ∧
      getFrameState m j = FrameState.free.code then FrameState.locked.code else m.mem.byte a
  writes := m.mem.writes

/-- An entry holds the address of a free frame. -/
theorem PageTableState.page_free {PML4 : PML4Table} {m : Kernel} {t : PageTree} {F : Nat}
    (hm : PageTableState PML4 m t) (hF : FreeFrame m F) :
    (BitVec.ofNat 32 (F >>> 12)).toNat * 4096 = F := by
  obtain ⟨j, hj, hstate, rfl⟩ := hF
  have hlow := hm.low j hj hstate
  have haligned := hm.aligned j hj
  rw [BitVec.toNat_ofNat, Nat.shiftRight_eq_div_pow]
  omega

namespace Reached
variable {PML4 : PML4Table} {m m' : Kernel} {t : PageTree} {q q' : List Nat} {J : List Nat}
  {i k T T' : Nat}

/-- The entries of the tables but the one stored to are as they were. -/
theorem loadEntry_eq (hm : PageTableState PML4 m t) (hlen : q.length < 4)
    (hT : tableAt PML4 t q = some T) (hi : i < 512) (h : Reached m (slotBytes T i) J m')
    (hq : q'.length < 4) (hT' : tableAt PML4 t q' = some T') (hk : k < 512)
    (hne : q' ++ [k] ≠ q ++ [i]) :
    loadEntry m'.mem (entryPtr T' k) = loadEntry m.mem (entryPtr T' k) := by
  have hmem := mem_tables hq hT'
  have hpage := hm.apart_table hmem
  have hroot := hm.apart_table (mem_tables hlen hT)
  refine loadEntry_congr fun a ha => ?_
  have hapage := entry_subset_page hpage.inSpace hk ha
  refine h.bytes a (fun hc => ?_) (fun j hj hc => ?_) fun F hF hc => ?_
  · by_cases hTT : T' = T
    · subst hTT
      obtain rfl := hm.represents.tableAt_inj hq hlen hT' hT
      have hki : k ≠ i := fun hki => hne (by rw [hki])
      unfold slotBytes at hc
      rw [entryPtr_eq hpage.inSpace hk] at ha
      rw [entryPtr_eq hpage.inSpace hi] at hc
      have := ha.1; have := ha.2; have := hc.1; have := hc.2
      omega
    · exact Set.disjoint_left.mp (pageBytes_disjoint hpage.aligned hroot.aligned hTT) hapage
        (entry_subset_page hroot.inSpace hi hc)
  · rw [hc] at hapage
    exact Set.disjoint_left.mp hpage.apart hapage (statePtr_mem hm.accounts.fits hj)
  · refine Set.disjoint_left.mp (pageBytes_disjoint hpage.aligned (hm.apart_free hF).aligned ?_)
      hapage hc
    rintro rfl
    exact hm.free_notMem hF hmem

/-- So the processor still finds the table it is in. -/
theorem walkTo_eq (hm : PageTableState PML4 m t) (hlen : q.length < 4)
    (hT : tableAt PML4 t q = some T) (hi : i < 512) (h : Reached m (slotBytes T i) J m')
    (hq : ∀ k ∈ q, k < 512) : walkTo PagingEntry.hardwareTable m'.mem PML4.addr q = some T := by
  rw [← hT, ← hm.represents.walkTo_root decodes_hardwareTable hlen hq]
  refine walkTo_congr fun p k T' hp hT' => ?_
  have hplen := hp.length_le
  rw [List.length_append, List.length_singleton] at hplen
  rw [hm.represents.walkTo_root decodes_hardwareTable (by omega)
    fun l hl => hq l (hp.subset (List.mem_append_left _ hl))] at hT'
  refine h.loadEntry_eq hm hlen hT hi (by omega) hT' (hq k (hp.subset (by simp))) fun hc => ?_
  have := congrArg List.length hc
  rw [List.length_append, List.length_append, List.length_singleton, List.length_singleton] at this
  omega

end Reached

namespace Spent
variable {PML4 : PML4Table} {m m' : Kernel} {t : PageTree} {q : List Nat} {J : List Nat}
  {i j k n T F a y : Nat}

theorem takenFrame (h : Spent m T i F J m') (hj : j < m.pmem.frames)
    (hstate : getFrameState m j = FrameState.free.code) : TakenFrame m m' j :=
  ⟨hj, hstate, by rw [h.reached.states j hj, if_pos (h.full j hj hstate)]⟩

/-- A byte outside the slot and the pages of free frames only changes with the state of a free frame. -/
theorem byte_eq (h : Spent m T i F J m') (hslot : a ∉ slotBytes T i)
    (hfree : ∀ F, FreeFrame m F → a ∉ pageBytes F) : m'.mem.byte a = (lockedMemory m).byte a := by
  by_cases hstate : ∃ j < m.pmem.frames, a = m.pmem.statePtr j
  · obtain ⟨j, hj, rfl⟩ := hstate
    have hnow : m'.mem.byte (m.pmem.statePtr j) = getFrameState m' j := by
      rw [getFrameState, h.reached.same.statePtr_eq]
    rw [hnow, h.reached.states j hj]
    by_cases hJ : j ∈ J
    · rw [if_pos hJ]
      exact (if_pos ⟨j, hj, rfl, (h.reached.granted j hJ).2⟩).symm
    · rw [if_neg hJ]
      refine (if_neg ?_).symm
      intro hx
      obtain ⟨l, hl, hjl, hlfree⟩ := hx
      have hframes := (h.reached.same.fits_iff.mp h.reached.accounts.fits).frames_le
      obtain rfl := statePtr_inj _ (by omega) (by omega) hjl
      exact hJ (h.full j hj hlfree)
  · rw [h.reached.bytes a hslot (fun j hj hc => hstate ⟨j, hj, hc⟩) hfree]
    refine (if_neg fun hfree => ?_).symm
    obtain ⟨j, hj, hc, -⟩ := hfree
    exact hstate ⟨j, hj, hc⟩

/-- What changes is the slot, and the frames granted with their states. -/
theorem bytes_cases (h : Spent m T i F J m') (hne : m'.mem.byte a ≠ m.mem.byte a) :
    a ∈ slotBytes T i ∨
      ∃ j, TakenFrame m m' j ∧ (a ∈ pageBytes (getFrameAddr m j) ∨ a = m.pmem.statePtr j) := by
  by_cases hslot : a ∈ slotBytes T i
  · exact Or.inl hslot
  · refine Or.inr ?_
    by_cases hfree : ∀ F, FreeFrame m F → a ∉ pageBytes F
    · rw [h.byte_eq hslot hfree] at hne
      by_cases hstate : ∃ j < m.pmem.frames, a = m.pmem.statePtr j ∧
          getFrameState m j = FrameState.free.code
      · obtain ⟨j, hj, ha, hjfree⟩ := hstate
        exact ⟨j, h.takenFrame hj hjfree, Or.inr ha⟩
      · exact absurd (if_neg hstate) hne
    · push Not at hfree
      obtain ⟨_, ⟨j, hj, hjfree, rfl⟩, ha⟩ := hfree
      exact ⟨j, h.takenFrame hj hjfree, Or.inl ha⟩

/-- The walk goes through the slot to the frame linked there. -/
theorem walkTo_slot (hm : PageTableState PML4 m t) (hslot : EmptySlot PML4 t q i T)
    (h : Spent m T i F J m') (hq : ∀ k ∈ q, k < 512) :
    walkTo PagingEntry.hardwareTable m'.mem PML4.addr (q ++ [i]) = some F := by
  have hlen := hslot.depth
  rw [walkTo_append, h.reached.walkTo_eq hm (by omega) hslot.table hslot.index hq, Option.bind_some,
    walkTo, h.link, PagingEntry.hardwareTable_linked, Option.bind_some, walkTo, hm.page_free h.first]

/-- The translations are those of before exactly when the slot leads nowhere. -/
theorem translate_eq_iff (hm : PageTableState PML4 m t) (hslot : EmptySlot PML4 t q i T)
    (h : Spent m T i F J m') (hq : ∀ k ∈ q, k < 512) (hn : q.length + 1 + n = 4) :
    (∀ v, translate m'.mem PML4 v = translate m.mem PML4 v) ↔ DeadEnd m'.mem n F := by
  have hthrough : ∀ r, pageBehind m'.mem PML4.addr (q ++ [i] ++ r) = pageBehind m'.mem F r :=
    fun r => pageBehind_append (h.walkTo_slot hm hslot hq)
  have hnone : ∀ v r, pathOf v = q ++ [i] ++ r → translate m.mem PML4 v = none := by
    intro v r hv
    rw [hm.represents.translate_eq, hv]
    cases hx : t (q ++ [i] ++ r) with
    | none => rfl
    | some x =>
        obtain ⟨y, hy⟩ := hm.represents.tree.prefix_some (by simp) hx
        rw [hslot.empty] at hy
        exact absurd hy (by simp)
  constructor
  · intro hsame r hr hlt
    obtain ⟨v, hv⟩ := exists_pathOf (q := q ++ [i] ++ r) (by
      rw [List.length_append, List.length_append, List.length_singleton, hr]
      exact hn) (by
      intro k hk
      rcases List.mem_append.mp hk with hk | hk
      · rcases List.mem_append.mp hk with hk | hk
        · exact hq k hk
        · rw [List.mem_singleton.mp hk]
          exact hslot.index
      · exact hlt k hk)
    have hv' := hsame v
    rw [hnone v r hv, translate_eq_pageBehind, hv, hthrough, Option.map_eq_none_iff] at hv'
    exact hv'
  · intro hdead v
    by_cases hprefix : q ++ [i] <+: pathOf v
    · obtain ⟨r, hr⟩ := hprefix
      have hlen := congrArg List.length hr
      rw [List.length_append, List.length_append, List.length_singleton,
        show (pathOf v).length = 4 from rfl] at hlen
      rw [hnone v r hr.symm, translate_eq_pageBehind, ← hr, hthrough, hdead r (by omega) fun k hk =>
        pathOf_lt v k (hr ▸ List.mem_append_right _ hk)]
      rfl
    · rw [translate_eq_pageBehind, translate_eq_pageBehind, pageBehind_congr fun p k T' hp hT' => ?_]
      have hplen := hp.length_le
      rw [List.length_append, List.length_singleton, show (pathOf v).length = 4 from rfl] at hplen
      rw [hm.represents.walkTo_root decodes_hardwareTable (by omega)
        fun l hl => pathOf_lt v l (hp.subset (List.mem_append_left _ hl))] at hT'
      have hdepth := hslot.depth
      exact h.reached.loadEntry_eq hm (by omega) hslot.table hslot.index (by omega) hT'
        (pathOf_lt v k (hp.subset (by simp))) fun hc => hprefix (hc ▸ hp)

end Spent

/-- The pages that get a present entry when the walk is stuck in the table `T`. -/
def WrittenPage (m : Kernel) (T y : Nat) : Prop := FreeFrame m y ∨ y = T

/-- In memory before the call: no walk of so many levels succeeds from the page, by a large page or by
the last table, nor goes through a page that gets a present entry. -/
def Barren (mem : Memory) (written : Nat → Prop) : Nat → Nat → Prop
  | 0, _ => False
  | n + 1, y => ¬written y ∧ ∀ k < 512, (loadEntry mem (entryPtr y k)).present = 1 →
      Blocked (loadEntry mem (entryPtr y k)) n (Barren mem written n)

/-- The page of an address, as far as an entry holds it. -/
def pageOf (paddr : Nat) : Nat := (BitVec.ofNat 32 (paddr >>> 12)).toNat * 4096

/-- The page at address 0 is a free frame and the page mapped gets lost in it: the last two indexes
are the same one, so that the page mapped replaces the entry that leads back, unless that entry is in
the other frame; and the page mapped, which is taken for a table, is barren. -/
def GoesUnnoticed (PML4 : PML4Table) (m : Kernel) (vaddr paddr : Nat) : Prop :=
  FreeFrame m 0 ∧
    if (stuck m.mem PML4 vaddr).1 = 3 ∧ (pmemRequestFrame m).1 = 0 then
      (m.pmem.freeFrames = 1 → (extractVaddrPagingIndexes vaddr).pdEntry =
        (extractVaddrPagingIndexes vaddr).ptEntry) ∧
      Barren (lockedMemory m) (WrittenPage m (stuck m.mem PML4 vaddr).2) 2 (pageOf paddr)
    else
      (extractVaddrPagingIndexes vaddr).pdEntry = (extractVaddrPagingIndexes vaddr).ptEntry ∧
        Barren (lockedMemory m) (WrittenPage m (stuck m.mem PML4 vaddr).2) 1 (pageOf paddr)

namespace Spent
variable {PML4 : PML4Table} {m m' : Kernel} {t : PageTree} {q : List Nat} {J : List Nat}
  {i k n c d T F y vaddr paddr : Nat}

/-- Off the pages with a present entry the tables are those of the locked memory. -/
theorem loadEntry_locked (hm : PageTableState PML4 m t) (hslot : EmptySlot PML4 t q i T)
    (h : Spent m T i F J m') (haligned : 4096 ∣ y) (hspace : y + 4096 ≤ 2 ^ 64) (hk : k < 512)
    (hwritten : ¬WrittenPage m T y) :
    loadEntry m'.mem (entryPtr y k) = loadEntry (lockedMemory m) (entryPtr y k) := by
  have hT := hm.apart_table hslot.mem_tables
  refine loadEntry_congr fun a ha => ?_
  have hapage := entry_subset_page hspace hk ha
  refine h.byte_eq (fun hc => ?_) fun F' hF' hc => ?_
  · refine Set.disjoint_left.mp (pageBytes_disjoint haligned hT.aligned ?_) hapage
      (entry_subset_page hT.inSpace hslot.index hc)
    exact fun hyT => hwritten (Or.inr hyT)
  · refine Set.disjoint_left.mp (pageBytes_disjoint haligned (hm.apart_free hF').aligned ?_) hapage hc
    rintro rfl
    exact hwritten (Or.inl hF')

theorem deadEnd_one_iff (hm : PageTableState PML4 m t) (hslot : EmptySlot PML4 t q i T)
    (h : Spent m T i F J m') (haligned : 4096 ∣ y) (hspace : y + 4096 ≤ 2 ^ 64) :
    DeadEnd m'.mem 1 y ↔ Barren (lockedMemory m) (WrittenPage m T) 1 y := by
  constructor
  · intro hdead
    have hwritten : ¬WrittenPage m T y := by
      intro hc
      obtain hfree | rfl := hc
      · obtain ⟨k, hk, hpresent⟩ := h.used y hfree
        exact not_deadEnd_one hk hpresent hdead
      · exact not_deadEnd_one hslot.index (by rw [h.link]; rfl) hdead
    refine ⟨hwritten, fun k hk hpresent => absurd hdead (not_deadEnd_one hk ?_)⟩
    rw [h.loadEntry_locked hm hslot haligned hspace hk hwritten]
    exact hpresent
  · intro hc
    obtain ⟨hwritten, hnone⟩ := hc
    refine deadEnd_succ_iff.mpr fun k hk hpresent => ?_
    rw [h.loadEntry_locked hm hslot haligned hspace hk hwritten] at hpresent
    have hbelow := hnone k hk hpresent
    rw [Blocked, if_neg (by simp)] at hbelow
    exact hbelow.elim

/-- Two levels, when no written page is a dead end for them. -/
theorem deadEnd_two_iff (hm : PageTableState PML4 m t) (hslot : EmptySlot PML4 t q i T)
    (h : Spent m T i F J m') (haligned : 4096 ∣ y) (hspace : y + 4096 ≤ 2 ^ 64)
    (hself : WrittenPage m T y → ¬DeadEnd m'.mem 2 y) :
    DeadEnd m'.mem 2 y ↔ Barren (lockedMemory m) (WrittenPage m T) 2 y := by
  have hphys (e : PagingEntry) : 4096 ∣ e.physAddr ∧ e.physAddr + 4096 ≤ 2 ^ 64 := by
    unfold PagingEntry.physAddr
    omega
  have hnext : ¬WrittenPage m T y → (DeadEnd m'.mem 2 y ↔ ∀ k < 512,
      (loadEntry (lockedMemory m) (entryPtr y k)).present = 1 →
        Blocked (loadEntry (lockedMemory m) (entryPtr y k)) 1
          (Barren (lockedMemory m) (WrittenPage m T) 1)) := by
    intro hwritten
    rw [deadEnd_succ_iff]
    refine forall₂_congr fun k hk => ?_
    unfold Blocked
    rw [h.loadEntry_locked hm hslot haligned hspace hk hwritten,
      h.deadEnd_one_iff hm hslot (hphys _).1 (hphys _).2]
  constructor
  · intro hdead
    have hwritten : ¬WrittenPage m T y := fun hc => hself hc hdead
    exact ⟨hwritten, (hnext hwritten).mp hdead⟩
  · intro hx
    obtain ⟨hwritten, hbelow⟩ := hx
    exact (hnext hwritten).mpr hbelow

end Spent

theorem pageOf_page (paddr : Nat) : 4096 ∣ pageOf paddr ∧ pageOf paddr + 4096 ≤ 2 ^ 64 := by
  have := (BitVec.ofNat 32 (paddr >>> 12)).isLt
  unfold pageOf
  omega

theorem ZeroPageHolds.deadEnd_succ_iff {m' : Kernel} {o : Option Nat} {d paddr n : Nat}
    (h : ZeroPageHolds m' o d paddr) (ho : ∀ c, o = some c → c < 512) (hd : d < 512) :
    DeadEnd m'.mem (n + 1) 0 ↔ (∀ c, o = some c → c = d) ∧ DeadEnd m'.mem n (pageOf paddr) :=
  deadEnd_succ_iff_of_entries (y := 0) (z := 0) (by decide) ho hd h

section Unnoticed
variable {PML4 : PML4Table} {m m' : Kernel} {t : PageTree} {q : List Nat} {J : List Nat}
  {i n b c d T F vaddr paddr : Nat}

/-- A call that was granted every free frame, the page at address 0 among them, fails atomically
exactly when its slot leads nowhere. -/
theorem failsAtomically_iff_deadEnd (hm : PageTableState PML4 m t) (hslot : EmptySlot PML4 t q i T)
    (hzero : FreeFrame m 0) (h : Spent m T i F J m') (hpath : q ++ [i] <+: pathOf vaddr)
    (hn : q.length + 1 + n = 4) : FailsAtomically PML4 m m' vaddr ↔ DeadEnd m'.mem n F := by
  have hq : ∀ k ∈ q, k < 512 := fun k hk =>
    pathOf_lt vaddr k (hpath.subset (List.mem_append_left _ hk))
  have hlen := hslot.depth
  have htable : walkTo PagingEntry.kernelTable m.mem PML4.addr q = some T := by
    rw [hm.represents.walkTo_root decodes_kernelTable (by omega) hq, hslot.table]
  refine ⟨fun hatomic => (h.translate_eq_iff hm hslot hq hn).mp hatomic.translation, fun hdead =>
    ⟨(h.translate_eq_iff hm hslot hq hn).mpr hdead, fun a ha => ?_, ?_⟩⟩
  · rcases h.bytes_cases ha with hentry | htaken
    · exact Or.inl ⟨_, ⟨q, i, T, hpath, htable, rfl⟩, hentry⟩
    · exact Or.inr htaken
  · obtain ⟨j, hj, hstate, haddr⟩ := hzero
    exact Or.inl ⟨j, h.takenFrame hj hstate, haddr⟩

/-- The page at address 0 shared by the last two levels. -/
theorem deadEnd_last_iff (hm : PageTableState PML4 m t) (hslot : EmptySlot PML4 t q i T)
    (h : Spent m T i F J m') (hpage : ZeroPageHolds m' (some c) d paddr) (hc : c < 512) (hd : d < 512) :
    DeadEnd m'.mem 2 0 ↔ c = d ∧ Barren (lockedMemory m) (WrittenPage m T) 1 (pageOf paddr) := by
  rw [hpage.deadEnd_succ_iff (fun c' h => Option.some.inj h ▸ hc) hd,
    ← h.deadEnd_one_iff hm hslot (pageOf_page paddr).1 (pageOf_page paddr).2]
  simp only [Option.some.injEq, forall_eq']

/-- The page at address 0 on the level above, the other frame leading to it. -/
theorem deadEnd_above_iff (hm : PageTableState PML4 m t) (hslot : EmptySlot PML4 t q i T)
    (h : Spent m T i 0 J m') {o : Option Nat} (hpage : ZeroPageHolds m' o d paddr)
    (ho : ∀ c, o = some c → c < 512) (hc : c < 512) (hd : d < 512)
    (hother : ∀ y, FreeFrame m y → y ≠ 0 → loadEntry m'.mem (entryPtr y c) = PagingEntry.linked 0) :
    DeadEnd m'.mem 3 0 ↔ (∀ c, o = some c → c = d) ∧
      Barren (lockedMemory m) (WrittenPage m T) 2 (pageOf paddr) := by
  have hnot : ¬DeadEnd m'.mem 1 0 := not_deadEnd_one hd (hpage.present hd)
  have hback {y k : Nat} (hk : k < 512) (hy : loadEntry m'.mem (entryPtr y k) = PagingEntry.linked 0) :
      ¬DeadEnd m'.mem 2 y := by
    intro hdead
    have hnext := deadEnd_succ_iff.mp hdead k hk (by rw [hy]; rfl)
    rw [hy, blocked_linked] at hnext
    exact hnot hnext
  rw [hpage.deadEnd_succ_iff ho hd,
    ← h.deadEnd_two_iff hm hslot (pageOf_page paddr).1 (pageOf_page paddr).2 ?_]
  intro hx hdead
  obtain hfree | hT := hx
  · by_cases hzero : pageOf paddr = 0
    · rw [hzero, hpage.deadEnd_succ_iff ho hd, hzero] at hdead
      exact hnot hdead.2
    · exact hback hc (hother _ hfree hzero) hdead
  · rw [hT] at hdead
    exact hback hslot.index h.link hdead

/-- Two tables are missing: the page at address 0 becomes both. -/
theorem failsAtomically_iff_two (hm : PageTableState PML4 m t) (hslot : EmptySlot PML4 t q i T)
    (hzero : FreeFrame m 0) (hc : c < 512) (hd : d < 512) (hfew : m.pmem.freeFrames < 2)
    (hpath : q ++ [i] <+: pathOf vaddr) (hlen : q.length = 1) {s : Nat × Kernel}
    (hs : s = descendFrom pmemRequestFrame (T, m) [i, c]) :
    FailsAtomically PML4 m (setPage s.2 s.1 d paddr) vaddr ↔
      c = d ∧ Barren (lockedMemory m) (WrittenPage m T) 1 (pageOf paddr) := by
  obtain ⟨J, hspent, hpage⟩ := spent_two paddr hm hslot hzero hc hd hfew hs
  rw [failsAtomically_iff_deadEnd (n := 2) hm hslot hzero hspent hpath (by omega)]
  exact deadEnd_last_iff hm hslot hspent hpage hc hd

/-- Three are missing: it becomes the first and a later one, or the last two. -/
theorem failsAtomically_iff_three (hm : PageTableState PML4 m t) (hslot : EmptySlot PML4 t q i T)
    (hzero : FreeFrame m 0) (hb : b < 512) (hc : c < 512) (hd : d < 512)
    (hfew : m.pmem.freeFrames < 3) (hpath : q ++ [i] <+: pathOf vaddr) (hlen : q.length = 0)
    {s : Nat × Kernel} (hs : s = descendFrom pmemRequestFrame (T, m) [i, b, c]) :
    FailsAtomically PML4 m (setPage s.2 s.1 d paddr) vaddr ↔
      if (pmemRequestFrame m).1 = 0 then (m.pmem.freeFrames = 1 → c = d) ∧
        Barren (lockedMemory m) (WrittenPage m T) 2 (pageOf paddr)
      else c = d ∧ Barren (lockedMemory m) (WrittenPage m T) 1 (pageOf paddr) := by
  have hsome : ∀ c', some c = some c' → c' < 512 := fun c' h => Option.some.inj h ▸ hc
  have hne := freeFrames_ne_zero hm hzero
  by_cases hfirst : (pmemRequestFrame m).1 = 0
  · rw [if_pos hfirst]
    by_cases hone : m.pmem.freeFrames = 1
    · obtain ⟨_, J, hspent, hpage, honly⟩ :=
        spent_three_one paddr hm hslot hzero hb hc hd (by omega) hs
      rw [failsAtomically_iff_deadEnd (n := 3) hm hslot hzero hspent hpath (by omega),
        deadEnd_above_iff hm hslot hspent hpage hsome hc hd fun y hy hyzero =>
          absurd (honly y hy) hyzero]
      simp only [Option.some.injEq, forall_eq', hone, forall_const]
    · obtain ⟨J, hspent, hpage, hother⟩ :=
        spent_three_first paddr hm hslot hzero hb hc hd (by omega) hfirst hs
      rw [failsAtomically_iff_deadEnd (n := 3) hm hslot hzero hspent hpath (by omega),
        deadEnd_above_iff hm hslot hspent hpage (fun c' h => absurd h (by simp)) hc hd hother]
      simp only [hone, reduceCtorEq, false_imp_iff, implies_true]
  · rw [if_neg hfirst]
    obtain ⟨J, F, hspent, hpage, hentry⟩ :=
      spent_three_second paddr hm hslot hzero hb hc hd hfew hfirst hs
    rw [failsAtomically_iff_deadEnd (n := 3) hm hslot hzero hspent hpath (by omega),
      deadEnd_succ_iff_of_entries (n := 2) (o := none) (d := b) (x := 0)
        (hm.page_free hspent.first)
        (fun c' h => absurd h (by simp)) hb fun k hk => ?_]
    · rw [show (0 : BitVec 32).toNat * 4096 = 0 from rfl,
        deadEnd_last_iff hm hslot hspent hpage hc hd]
      simp only [reduceCtorEq, false_imp_iff, implies_true, true_and]
    · rw [hentry k hk]
      simp only [reduceCtorEq, if_false]

end Unnoticed

/-- **A failed mapping is atomic only when it goes unnoticed.** With fewer free frames than tables to
create a call has no effect but on its path and on the frames it takes exactly when the page at address
0 is one of these and the page mapped gets lost in it. -/
theorem mapping_fails_atomically_iff (PML4 : PML4Table) (m : Kernel) (t : PageTree)
    (hm : PageTableState PML4 m t) (vaddr paddr : Nat)
    (hfew : m.pmem.freeFrames < (stuck m.mem PML4 vaddr).1) :
    FailsAtomically PML4 m (mapVaddrToPaddr pmemRequestFrame PML4 m vaddr paddr) vaddr ↔
      GoesUnnoticed PML4 m vaddr paddr := by
  by_cases hzero : FreeFrame m 0
  · obtain ⟨q, i, is, T, hstuck, hslot, hdescend, hpath, his⟩ :=
      exists_slot_of_stuck pmemRequestFrame hm.represents (Nat.zero_lt_of_lt hfew)
    have hmap : mapVaddrToPaddr pmemRequestFrame PML4 m vaddr paddr =
        setPage (descendPT pmemRequestFrame PML4 m vaddr).2
          (descendPT pmemRequestFrame PML4 m vaddr).1
          (extractVaddrPagingIndexes vaddr).ptEntry paddr := rfl
    obtain ⟨_, h3, h2, h1⟩ := indexes_lt vaddr
    have hlen := congrArg List.length hpath
    have hprefix : q ++ [i] <+: pathOf vaddr :=
      ⟨is ++ [(extractVaddrPagingIndexes vaddr).ptEntry], by rw [← hpath]; simp⟩
    simp only [List.length_append, List.length_cons, List.length_nil,
      show (pathOf vaddr).length = 4 from rfl] at hlen
    unfold GoesUnnoticed
    rw [hstuck] at hfew ⊢
    rw [hmap, and_iff_right hzero]
    rcases his with rfl | rfl | rfl
    · exact absurd (Nat.lt_one_iff.mp hfew) (freeFrames_ne_zero hm hzero)
    · rw [if_neg (by simp)]
      exact failsAtomically_iff_two hm hslot hzero h2 h1 hfew hprefix
        (by rw [List.length_singleton] at hlen; omega) hdescend
    · simp only [List.length_cons, List.length_nil, true_and]
      exact failsAtomically_iff_three hm hslot hzero h3 h2 h1 hfew hprefix
        (by simp only [List.length_cons, List.length_nil] at hlen; omega) hdescend
  · exact ⟨fun h => absurd h (not_failsAtomically hm hfew hzero), fun h => absurd h.1 hzero⟩

/-! ### Two machines -/

/-- Eight frames from address 0 on, all locked but maybe the first one; the second holds the array and
the fifth the PML4. -/
def lastFrame (first : FrameState) : Kernel :=
  frameMachine 0x1000 0 8 fun j => if j = 0 then first else .locked

theorem getFrameAddr_lastFrame (first : FrameState) {j : Nat} (hj : j < 8) :
    getFrameAddr (lastFrame first) j = j * 4096 :=
  (getFrameAddr_frameMachine (by decide) (by decide) hj).trans (Nat.zero_add _)

theorem getFrameState_lastFrame (first : FrameState) {j : Nat} (hj : j < 8) :
    getFrameState (lastFrame first) j = (if j = 0 then first else FrameState.locked).code :=
  getFrameState_frameMachine (by decide) hj

theorem eq_zero_of_free_lastFrame (first : FrameState) {j : Nat} (hj : j < 8)
    (hstate : getFrameState (lastFrame first) j = FrameState.free.code) : j = 0 := by
  by_contra hne
  rw [getFrameState_lastFrame first hj, if_neg hne] at hstate
  exact absurd hstate (by decide)

theorem pageTableState_lastFrame (first : FrameState) :
    PageTableState fourthPagePML4 (lastFrame first) RadixTree.empty := by
  have hzero : ∀ a ∈ pageBytes fourthPagePML4.addr, (lastFrame first).mem.byte a = 0 := by
    intro a h
    obtain ⟨ha, _⟩ := h
    have ha' : 0x4000 ≤ a := ha
    exact zero_frameMachine (Or.inr (by omega))
  have hworld : FrameWorld fourthPagePML4 (lastFrame first) := by
    refine frameWorld_frameMachine (by decide) (by decide) (by decide) ?_ (by decide)
    intro j hj hstate
    split_ifs at hstate with hj0
    subst hj0
    decide
  have htables : ∀ T ∈ tables fourthPagePML4 RadixTree.empty, T = fourthPagePML4.addr :=
    fun T ⟨q, _, hT⟩ => (tableAt_empty.mp hT).2
  refine ⟨hworld, .of_zero hzero, fun T hT => Or.inl (htables T hT), fun T hT => ?_,
    fun j hj hstate => ?_, fun j hj hstate => ?_⟩
  · rw [htables T hT]
    exact hworld.root
  · rw [getFrameAddr_lastFrame first hj, eq_zero_of_free_lastFrame first hj hstate]
    decide
  · rw [getFrameAddr_lastFrame first hj, eq_zero_of_free_lastFrame first hj hstate]
    decide

theorem stuck_lastFrame (first : FrameState) (vaddr : Nat) :
    stuck (lastFrame first).mem fourthPagePML4 vaddr = (3, fourthPagePML4.addr) := by
  have hentry := (pageTableState_lastFrame first).represents.entry [] fourthPagePML4.addr (by simp)
    tableAt_nil (extractVaddrPagingIndexes vaddr).pml4Entry (indexes_lt vaddr).1
  unfold stuck
  simp only [hentry]
  rfl

/-- Mapping address 0 with the page at address 0 the last free frame goes unnoticed. -/
theorem mapping_fails_atomically_iff_lastFrame :
    FailsAtomically fourthPagePML4 (lastFrame .free)
      (mapVaddrToPaddr pmemRequestFrame fourthPagePML4 (lastFrame .free) 0 0x5000) 0 := by
  refine (mapping_fails_atomically_iff fourthPagePML4 (lastFrame .free) RadixTree.empty
    (pageTableState_lastFrame .free) 0 0x5000 (by rw [stuck_lastFrame]; decide)).mpr ⟨?_, ?_⟩
  · exact ⟨0, by decide, getFrameState_lastFrame .free (by decide),
      getFrameAddr_lastFrame .free (by decide)⟩
  · rw [stuck_lastFrame, if_pos ⟨rfl, by decide +kernel⟩]
    refine ⟨fun _ => rfl, ?_, fun k hk hpresent => ?_⟩
    · intro h
      obtain ⟨j, hj, hstate, haddr⟩ | hroot := h
      · rw [getFrameAddr_lastFrame .free hj, eq_zero_of_free_lastFrame .free hj hstate] at haddr
        exact absurd haddr (by decide)
      · exact absurd hroot (by decide)
    · have hblank : loadEntry (lockedMemory (lastFrame .free)) (entryPtr (pageOf 0x5000) k) =
          PagingEntry.blank := by
        rw [show pageOf 0x5000 = 0x5000 by decide]
        refine loadEntry_of_zero fun a ha => ?_
        rw [entryPtr_eq (by decide) hk] at ha
        have hlow := ha.1
        refine (if_neg ?_).trans (zero_frameMachine (Or.inr (by omega)))
        intro h
        obtain ⟨j, hj, hstate, _⟩ := h
        have hj' : j < 8 := hj
        rw [show (lastFrame .free).pmem.statePtr j = _ from
          statePtr_eq (frameMachine_fits (by decide)) hj] at hstate
        have hptr : a = 0x1000 + j * 16 + 8 := hstate
        omega
      rw [hblank] at hpresent
      exact absurd hpresent (by decide)

/-- With no free frame at all it does not: the page at address 0 becomes a table. -/
theorem mapping_not_atomic : (lastFrame .locked).pmem.freeFrames <
      (stuck (lastFrame .locked).mem fourthPagePML4 0x5000).1 ∧
    ¬FailsAtomically fourthPagePML4 (lastFrame .locked)
      (mapVaddrToPaddr pmemRequestFrame fourthPagePML4 (lastFrame .locked) 0x5000 0x7000) 0x5000 := by
  have hfew : (lastFrame .locked).pmem.freeFrames <
      (stuck (lastFrame .locked).mem fourthPagePML4 0x5000).1 := by
    rw [stuck_lastFrame]
    decide
  refine ⟨hfew, not_failsAtomically (pageTableState_lastFrame .locked) hfew ?_⟩
  intro h
  obtain ⟨j, hj, hstate, _⟩ := h
  rw [getFrameState_lastFrame .locked hj, ite_self] at hstate
  exact absurd hstate (by decide)

end MyOSKernel
