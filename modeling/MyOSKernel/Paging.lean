import MyOSKernel.PhysicalInit

/-! 4-level paging (`memory/paging.c`). The tables are bytes of the machine's memory and an entry is
a 64-bit word of it, read and written by its bit-fields. The code is written over any allocator, a
function that answers one call of `pmem_request_frame`. -/

namespace MyOSKernel

/-- The bit-fields of an entry, which are the same in the four kinds of table: `present` and `rw`,
the bits 2 to 11, the 32-bit address field, and the bits 44 to 63. -/
structure PagingEntry where
  present : BitVec 1
  rw : BitVec 1
  flags : BitVec 10
  addr : BitVec 32
  upper : BitVec 20
  deriving DecidableEq

namespace PagingEntry

def ofWord (w : Nat) : PagingEntry where
  present := BitVec.ofNat 1 w
  rw := BitVec.ofNat 1 (w / 2)
  flags := BitVec.ofNat 10 (w / 2 ^ 2)
  addr := BitVec.ofNat 32 (w / 2 ^ 12)
  upper := BitVec.ofNat 20 (w / 2 ^ 44)

def toWord (e : PagingEntry) : Nat :=
  e.present.toNat + e.rw.toNat * 2 + e.flags.toNat * 2 ^ 2 + e.addr.toNat * 2 ^ 12 +
    e.upper.toNat * 2 ^ 44

/-- `addr = frame >> PAGE_OFFSET_BITS; present = true; rw = true`. -/
def link (e : PagingEntry) (frame : Nat) : PagingEntry :=
  { e with addr := BitVec.ofNat 32 (frame >>> 12), present := 1, rw := 1 }

/-- `addr << PAGE_OFFSET_BITS`: the shift of a 32-bit wide bit-field is evaluated in 32 bits. -/
def tableAddr (e : PagingEntry) : Nat := (e.addr.toNat <<< 12) % 2 ^ 32

/-- The address the processor takes from bits 12 to 51. -/
def physAddr (e : PagingEntry) : Nat := e.toWord / 2 ^ 12 % 2 ^ 40 * 2 ^ 12

/-- Bit 7, the page size in an entry of a PDPT or PD. -/
def ps (e : PagingEntry) : BitVec 1 := BitVec.ofNat 1 (e.toWord / 2 ^ 7)

/-- No reserved bit is set in an entry for a page of `2 ^ k` bytes: bit 12 is a bit of the memory type
and the address begins at bit `k`. -/
def LargePage (k : Nat) (e : PagingEntry) : Prop := e.toWord / 2 ^ 13 % 2 ^ (k - 13) = 0

instance (k : Nat) (e : PagingEntry) : Decidable (LargePage k e) := inferInstanceAs (Decidable (_ = _))

/-- The address of that page, from bits `k` to 51. -/
def largeAddr (k : Nat) (e : PagingEntry) : Nat := e.toWord / 2 ^ k % 2 ^ (52 - k) * 2 ^ k

/-- The table the kernel finds behind an entry. -/
def kernelTable (e : PagingEntry) : Option Nat := if e.present = 0 then none else some e.tableAddr

/-- The table the processor finds behind an entry of a PML4, PDPT or PD, which with `ps` set does not
lead to one: `ps` is reserved in a PML4. -/
def hardwareTable (e : PagingEntry) : Option Nat :=
  if e.present = 0 then none else if e.ps = 1 then none else some e.physAddr

end PagingEntry

def loadEntry (mem : Memory) (ptr : Nat) : PagingEntry := PagingEntry.ofWord (mem.loadLE ptr 8)

def storeEntry (mem : Memory) (ptr : Nat) (e : PagingEntry) : Memory := mem.storeLE ptr e.toWord 8

/-- Sets the address of an entry and makes it present and writable. -/
def linkEntry (mem : Memory) (ptr frame : Nat) : Memory :=
  storeEntry mem ptr ((loadEntry mem ptr).link frame)

/-- `&table[index]`. -/
def entryPtr (table index : Nat) : Nat := (table + 8 * index) % 2 ^ 64

/-- Where the linker put the page `PML4`. -/
structure PML4Table where
  addr : Nat
  aligned : 4096 ∣ addr
  inSpace : addr + 4096 ≤ 2 ^ 64

structure VaddrIndexes where
  pml4Entry : Nat
  pdptEntry : Nat
  pdEntry : Nat
  ptEntry : Nat

abbrev bits9Mask : Nat := 0x1ff

def extractVaddrPagingIndexes (vaddr : Nat) : VaddrIndexes :=
  let vaddr := vaddr >>> 12
  { ptEntry := vaddr &&& bits9Mask
    pdEntry := (vaddr >>> 9) &&& bits9Mask
    pdptEntry := (vaddr >>> 9 >>> 9) &&& bits9Mask
    pml4Entry := (vaddr >>> 9 >>> 9 >>> 9) &&& bits9Mask }

section Map
variable {σ : Type} (request : Machine σ → Nat × Machine σ) (PML4 : PML4Table)

/-- One level of `map_vaddr_to_paddr`: the table an entry leads to, created when the entry is not
present. -/
def nextTable (m : Machine σ) (table index : Nat) : Nat × Machine σ :=
  if (loadEntry m.mem (entryPtr table index)).present = 0 then
    let granted := request m
    let mem := memset granted.2.mem granted.1 0 pageSz
    (granted.1, { granted.2 with mem := linkEntry mem (entryPtr table index) granted.1 })
  else ((loadEntry m.mem (entryPtr table index)).tableAddr, m)

-- a level is reasoned about through its specification only
attribute [irreducible] nextTable

/-- The tables the walk of `map_vaddr_to_paddr` arrives at, and the machine there: the PDPT, the PD
and the PT. -/
def descendPDPT (m : Machine σ) (vaddr : Nat) : Nat × Machine σ :=
  nextTable request m PML4.addr (extractVaddrPagingIndexes vaddr).pml4Entry

def descendPD (m : Machine σ) (vaddr : Nat) : Nat × Machine σ :=
  let PDPT := descendPDPT request PML4 m vaddr
  nextTable request PDPT.2 PDPT.1 (extractVaddrPagingIndexes vaddr).pdptEntry

def descendPT (m : Machine σ) (vaddr : Nat) : Nat × Machine σ :=
  let PD := descendPD request PML4 m vaddr
  nextTable request PD.2 PD.1 (extractVaddrPagingIndexes vaddr).pdEntry

/-- Sets a page table's entry. -/
def setPage (m : Machine σ) (PT index paddr : Nat) : Machine σ :=
  { m with mem := linkEntry m.mem (entryPtr PT index) paddr }

def mapVaddrToPaddr (m : Machine σ) (vaddr paddr : Nat) : Machine σ :=
  let PT := descendPT request PML4 m vaddr
  setPage PT.2 PT.1 (extractVaddrPagingIndexes vaddr).ptEntry paddr

/-- The machine if an entry of it is not present, so that its table is requested. -/
def missing (m : Machine σ) (table index : Nat) : List (Machine σ) :=
  if (loadEntry m.mem (entryPtr table index)).present = 0 then [m] else []

/-- The machines in which a call of `map_vaddr_to_paddr` requests a frame. -/
def requestsOf (m : Machine σ) (vaddr : Nat) : List (Machine σ) :=
  let indexes := extractVaddrPagingIndexes vaddr
  let PDPT := descendPDPT request PML4 m vaddr
  let PD := descendPD request PML4 m vaddr
  missing m PML4.addr indexes.pml4Entry ++ missing PDPT.2 PDPT.1 indexes.pdptEntry ++
    missing PD.2 PD.1 indexes.pdEntry

end Map

/-- The entries of a walk that succeeds. -/
structure Walk where
  pml4Entry : PagingEntry
  pdptEntry : PagingEntry
  pdEntry : PagingEntry
  ptEntry : PagingEntry
  deriving DecidableEq

/-- The entries from the PML4 down to the page table, if all are present, the tables being found by
`next`. -/
def walk (next : PagingEntry → Option Nat) (mem : Memory) (PML4 : PML4Table) (vaddr : Nat) :
    Option Walk := do
  let indexes := extractVaddrPagingIndexes vaddr
  let pml4Entry := loadEntry mem (entryPtr PML4.addr indexes.pml4Entry)
  let PDPT ← next pml4Entry
  let pdptEntry := loadEntry mem (entryPtr PDPT indexes.pdptEntry)
  let PD ← next pdptEntry
  let pdEntry := loadEntry mem (entryPtr PD indexes.pdEntry)
  let PT ← next pdEntry
  let ptEntry := loadEntry mem (entryPtr PT indexes.ptEntry)
  if ptEntry.present = 0 then none else some ⟨pml4Entry, pdptEntry, pdEntry, ptEntry⟩

/-- The table reached from the table `T` along a path, tables being found by `next`. -/
def walkTo (next : PagingEntry → Option Nat) (mem : Memory) : Nat → List Nat → Option Nat
  | T, [] => some T
  | T, i :: q => (next (loadEntry mem (entryPtr T i))).bind fun T' => walkTo next mem T' q

/-- `e` is the present entry number `i` of the PML4, PDPT or PD that the path `q` leads to. -/
def TableEntry (PML4 : PML4Table) (mem : Memory) (q : List Nat) (i : Nat) (e : PagingEntry) : Prop :=
  q.length < 3 ∧ (∀ k ∈ q, k < 512) ∧ i < 512 ∧ e.present = 1 ∧
    ∃ T, walkTo PagingEntry.kernelTable mem PML4.addr q = some T ∧ loadEntry mem (entryPtr T i) = e

/-- The entries by which the processor translates an address: to a page of 1 GiB, of 2 MiB or of
4 KiB. -/
inductive HardwareWalk where
  | page1G (pml4Entry pdptEntry : PagingEntry)
  | page2M (pml4Entry pdptEntry pdEntry : PagingEntry)
  | page4K (w : Walk)
  deriving DecidableEq

/-- The walk of the processor, which has 1 GiB pages and 52 bits of physical address; it faults at an
entry that is not present or has a reserved bit set. -/
def hardwareWalk (mem : Memory) (PML4 : PML4Table) (vaddr : Nat) : Option HardwareWalk :=
  let indexes := extractVaddrPagingIndexes vaddr
  let pml4Entry := loadEntry mem (entryPtr PML4.addr indexes.pml4Entry)
  if pml4Entry.present = 0 then none
  else if pml4Entry.ps = 1 then none
  else
    let pdptEntry := loadEntry mem (entryPtr pml4Entry.physAddr indexes.pdptEntry)
    if pdptEntry.present = 0 then none
    else if pdptEntry.ps = 1 then
      if pdptEntry.LargePage 30 then some (.page1G pml4Entry pdptEntry) else none
    else
      let pdEntry := loadEntry mem (entryPtr pdptEntry.physAddr indexes.pdEntry)
      if pdEntry.present = 0 then none
      else if pdEntry.ps = 1 then
        if pdEntry.LargePage 21 then some (.page2M pml4Entry pdptEntry pdEntry) else none
      else
        let ptEntry := loadEntry mem (entryPtr pdEntry.physAddr indexes.ptEntry)
        if ptEntry.present = 0 then none
        else some (.page4K ⟨pml4Entry, pdptEntry, pdEntry, ptEntry⟩)

/-- The address a walk ends at. -/
def HardwareWalk.paddr (vaddr : Nat) : HardwareWalk → Nat
  | page1G _ pdptEntry => pdptEntry.largeAddr 30 + vaddr % 2 ^ 30
  | page2M _ _ pdEntry => pdEntry.largeAddr 21 + vaddr % 2 ^ 21
  | page4K w => w.ptEntry.physAddr + vaddr % 4096

/-- The physical address the processor translates a virtual one to. -/
def translate (mem : Memory) (PML4 : PML4Table) (vaddr : Nat) : Option Nat :=
  (hardwareWalk mem PML4 vaddr).map (HardwareWalk.paddr vaddr)

def isPagePresent (mem : Memory) (PML4 : PML4Table) (vaddr : Nat) : Bool :=
  let indexes := extractVaddrPagingIndexes vaddr
  let pml4Entry := loadEntry mem (entryPtr PML4.addr indexes.pml4Entry)
  if pml4Entry.present = 0 then false
  else
    let PDPT := pml4Entry.tableAddr
    let pdptEntry := loadEntry mem (entryPtr PDPT indexes.pdptEntry)
    if pdptEntry.present = 0 then false
    else
      let PD := pdptEntry.tableAddr
      let pdEntry := loadEntry mem (entryPtr PD indexes.pdEntry)
      if pdEntry.present = 0 then false
      else
        let PT := pdEntry.tableAddr
        let ptEntry := loadEntry mem (entryPtr PT indexes.ptEntry)
        ptEntry.present = 1

end MyOSKernel
