import MyOSKernel.StringCompare

/-! The signature checks of `acpi.c` and its search for a description table. The RSDT ends with a table
of 32-bit addresses, as many as its length leaves room for after the header; the length is what the
firmware says. -/

namespace MyOSKernel

/-- `sizeof(ACPI_RSDT)`: the header, since the table at its end has no size of its own. -/
def rsdtSz : Nat := 36

/-- `rsdp->rsdt_addr`. -/
def rsdtAddr (mem : Memory) (rsdp : Nat) : Nat := mem.loadLE (rsdp + 16) 4

/-- `header->length`. -/
def sdtLength (mem : Memory) (header : Nat) : Nat := mem.loadLE (header + 4) 4

/-- `rsdt->sdt_table[i]`. -/
def sdtTable (mem : Memory) (rsdt i : Nat) : Nat := mem.loadLE ((rsdt + rsdtSz + 4 * i) % 2 ^ 64) 4

/-- `(rsdt->header.length - sizeof(ACPI_RSDT)) / 4`, of an unsigned difference of 64 bits. -/
def sdtEntries (length : Nat) : Nat := (length + (2 ^ 64 - rsdtSz)) % 2 ^ 64 / 4

/-- The signature is that of the header. -/
def sdtSignatureIs (mem : Memory) (header : Nat) (signature : Nat → UInt8) : Prop :=
  strncmp (fun k => mem.byte (header + k)) signature 4 = 0

instance (mem : Memory) (header : Nat) (signature : Nat → UInt8) :
    Decidable (sdtSignatureIs mem header signature) := inferInstanceAs (Decidable (_ = _))

/-- `"RSD PTR "`. -/
def rsdpSignature (k : Nat) : UInt8 := [0x52, 0x53, 0x44, 0x20, 0x50, 0x54, 0x52, 0x20].getD k 0

/-- `"RSDT"`. -/
def rsdtSignature (k : Nat) : UInt8 := [0x52, 0x53, 0x44, 0x54].getD k 0

def isRsdpSigCorrect (mem : Memory) (rsdp : Nat) : Bool :=
  strncmp (fun k => mem.byte (rsdp + k)) rsdpSignature 8 = 0

def isRsdtSigCorrect (mem : Memory) (rsdp : Nat) : Bool :=
  sdtSignatureIs mem (rsdtAddr mem rsdp) rsdtSignature

/-- The header returned, zero for `NULL`, and the entries of the table read, the latest first. -/
structure SdtSearch where
  header : Nat
  entriesRead : List Nat

/-- The loop over the entries from `i` on. -/
def searchSdtTable (mem : Memory) (rsdt : Nat) (signature : Nat → UInt8) (i : Nat)
    (entriesRead : List Nat) : Nat → SdtSearch
  | 0 => ⟨0, entriesRead⟩
  | n + 1 =>
    if sdtSignatureIs mem (sdtTable mem rsdt i) signature then
      ⟨sdtTable mem rsdt i, i :: entriesRead⟩
    else searchSdtTable mem rsdt signature (i + 1) (i :: entriesRead) n

/-- `get_acpi_std_header`. -/
def getAcpiStdHeader (mem : Memory) (rsdp : Nat) (signature : Nat → UInt8) : SdtSearch :=
  searchSdtTable mem (rsdtAddr mem rsdp) signature 0 []
    (sdtEntries (sdtLength mem (rsdtAddr mem rsdp)))

section Search
variable (mem : Memory) (rsdt : Nat) (signature : Nat → UInt8)

/-- The entry lies in the RSDT. -/
def InRsdt (i : Nat) : Prop := rsdtSz + 4 * (i + 1) ≤ sdtLength mem rsdt

/-- The entry is the first in the RSDT whose header has the signature. -/
structure FirstMatch (i : Nat) : Prop where
  inRsdt : InRsdt mem rsdt i
  bytes : ∀ k < 4, mem.byte (sdtTable mem rsdt i + k) = signature k
  first : ∀ j < i, ¬∀ k < 4, mem.byte (sdtTable mem rsdt j + k) = signature k

/-- The search reads entries of the RSDT only, and finds the first match. -/
structure FindsFirst (r : SdtSearch) : Prop where
  reads : ∀ i ∈ r.entriesRead, InRsdt mem rsdt i
  found : ∀ i, FirstMatch mem rsdt signature i → r.header = sdtTable mem rsdt i
  null : r.header = 0 ↔ ¬∃ i, FirstMatch mem rsdt signature i

end Search

section Loop
variable {mem : Memory} {rsdt i n : Nat} {signature : Nat → UInt8} {entriesRead : List Nat}

/-- The entries from `i` on before a match are read, and the match; it is returned. -/
structure SearchesFrom (mem : Memory) (rsdt : Nat) (signature : Nat → UInt8) (i n : Nat)
    (entriesRead : List Nat) (r : SdtSearch) : Prop where
  reads : ∀ k, k ∈ r.entriesRead ↔ (i ≤ k ∧ k < i + n ∧
    ∀ j, i ≤ j → j < k → ¬sdtSignatureIs mem (sdtTable mem rsdt j) signature) ∨ k ∈ entriesRead
  found : ∀ k, i ≤ k → k < i + n → sdtSignatureIs mem (sdtTable mem rsdt k) signature →
    (∀ j, i ≤ j → j < k → ¬sdtSignatureIs mem (sdtTable mem rsdt j) signature) →
      r.header = sdtTable mem rsdt k
  missed : (∀ k, i ≤ k → k < i + n → ¬sdtSignatureIs mem (sdtTable mem rsdt k) signature) →
    r.header = 0

theorem searchSdtTable_spec : SearchesFrom mem rsdt signature i n entriesRead
    (searchSdtTable mem rsdt signature i entriesRead n) := by
  induction n generalizing i entriesRead with
  | zero =>
      refine ⟨?_, ?_, fun _ => rfl⟩
      · intro k
        refine ⟨Or.inr, ?_⟩
        intro hk
        obtain hnew | hold := hk
        · omega
        · exact hold
      · intro k hle hlt
        omega
  | succ n ih =>
      rw [searchSdtTable]
      by_cases hmatch : sdtSignatureIs mem (sdtTable mem rsdt i) signature
      · rw [if_pos hmatch]
        refine ⟨?_, ?_, fun hnone => absurd hmatch (hnone i le_rfl (by omega))⟩
        · intro k
          rw [List.mem_cons]
          apply or_congr_left
          constructor
          · rintro rfl
            exact ⟨le_rfl, by omega, fun j hle hlt => absurd hle (Nat.not_le.mpr hlt)⟩
          · intro hk
            obtain ⟨hle, -, hbefore⟩ := hk
            by_contra hne
            exact hbefore i le_rfl (by omega) hmatch
        · intro k hle hlt _ hfirst
          have hk : k = i := by
            by_contra hne
            exact hfirst i le_rfl (by omega) hmatch
          rw [hk]
      · rw [if_neg hmatch]
        have hlater : SearchesFrom mem rsdt signature (i + 1) n (i :: entriesRead)
            (searchSdtTable mem rsdt signature (i + 1) (i :: entriesRead) n) := ih
        -- No match among the later entries before `k` is none from `i` on.
        have hbefore (k : Nat) :
            (∀ j, i + 1 ≤ j → j < k → ¬sdtSignatureIs mem (sdtTable mem rsdt j) signature) ↔
              ∀ j, i ≤ j → j < k → ¬sdtSignatureIs mem (sdtTable mem rsdt j) signature := by
          constructor
          · intro h j hle hlt
            by_cases hj : j = i
            · exact hj ▸ hmatch
            · exact h j (by omega) hlt
          · exact fun h j hle hlt => h j (by omega) hlt
        refine ⟨?_, ?_, ?_⟩
        · intro k
          rw [hlater.reads, List.mem_cons, ← or_assoc, hbefore]
          apply or_congr_left
          constructor
          · intro hk
            obtain ⟨hle, hlt, hnone⟩ | rfl := hk
            · exact ⟨by omega, by omega, hnone⟩
            · exact ⟨le_rfl, by omega, fun j hle hlt => absurd hle (Nat.not_le.mpr hlt)⟩
          · intro hk
            obtain ⟨hle, hlt, hnone⟩ := hk
            by_cases hki : k = i
            · exact Or.inr hki
            · exact Or.inl ⟨by omega, by omega, hnone⟩
        · intro k hle hlt hsignature hfirst
          have hki : k ≠ i := fun h => hmatch (h ▸ hsignature)
          exact hlater.found k (by omega) (by omega) hsignature ((hbefore k).mpr hfirst)
        · exact fun hnone => hlater.missed fun k hle hlt => hnone k (by omega) (by omega)

end Loop

section Find
variable {mem : Memory} {rsdp rsdt i : Nat} {signature : Nat → UInt8}

theorem sdtSignatureIs_iff (hsignature : ∀ k < 4, signature k ≠ 0) {header : Nat} :
    sdtSignatureIs mem header signature ↔ ∀ k < 4, mem.byte (header + k) = signature k :=
  strncmp_eq_zero_iff_of_nonzero hsignature

/-- The kernel accepts the root pointer and the root table by exactly the bytes of their signatures. -/
theorem isRsdpSigCorrect_iff : isRsdpSigCorrect mem rsdp = true ↔
    ∀ k < 8, mem.byte (rsdp + k) = rsdpSignature k :=
  decide_eq_true_iff.trans (strncmp_eq_zero_iff_of_nonzero (by decide))

theorem isRsdtSigCorrect_iff : isRsdtSigCorrect mem rsdp = true ↔
    ∀ k < 4, mem.byte (rsdtAddr mem rsdp + k) = rsdtSignature k :=
  decide_eq_true_iff.trans (sdtSignatureIs_iff (by decide))

/-- The entries counted are those in the RSDT when there is room for a header. -/
theorem lt_sdtEntries_iff (hlength : rsdtSz ≤ sdtLength mem rsdt) :
    i < sdtEntries (sdtLength mem rsdt) ↔ InRsdt mem rsdt i := by
  have hlt : sdtLength mem rsdt < 256 ^ 4 := Memory.loadLE_lt
  unfold sdtEntries InRsdt rsdtSz at *
  omega

/-- Otherwise the difference wraps and entries are read behind the RSDT. -/
theorem sdtEntries_pos (hlength : sdtLength mem rsdt < rsdtSz) :
    0 < sdtEntries (sdtLength mem rsdt) ∧ ¬InRsdt mem rsdt 0 := by
  unfold sdtEntries InRsdt rsdtSz at *
  omega

/-- The search is exact and stays inside the RSDT exactly when the length has room for the header, and
the header found is not at address zero. -/
theorem sdt_search_exact_iff (mem : Memory) (rsdp : Nat) (hsignature : ∀ k < 4, signature k ≠ 0) :
    FindsFirst mem (rsdtAddr mem rsdp) signature (getAcpiStdHeader mem rsdp signature) ↔
      rsdtSz ≤ sdtLength mem (rsdtAddr mem rsdp) ∧
        ∀ i, FirstMatch mem (rsdtAddr mem rsdp) signature i →
          sdtTable mem (rsdtAddr mem rsdp) i ≠ 0 := by
  have hsearch : SearchesFrom mem (rsdtAddr mem rsdp) signature 0
    (sdtEntries (sdtLength mem (rsdtAddr mem rsdp))) [] (getAcpiStdHeader mem rsdp signature) :=
      searchSdtTable_spec
  constructor
  · intro h
    constructor
    · by_contra hshort
      obtain ⟨hpos, hout⟩ := sdtEntries_pos (Nat.lt_of_not_le hshort)
      refine hout (h.reads 0 ((hsearch.reads 0).mpr (Or.inl ⟨le_rfl, by omega, ?_⟩)))
      exact fun j _ hj => absurd hj (Nat.not_lt_zero j)
    · intro i hi hzero
      exact h.null.mp ((h.found i hi).trans hzero) ⟨i, hi⟩
  · intro h
    obtain ⟨hlength, hnonzero⟩ := h
    have hfound : ∀ i, FirstMatch mem (rsdtAddr mem rsdp) signature i →
        (getAcpiStdHeader mem rsdp signature).header = sdtTable mem (rsdtAddr mem rsdp) i := by
      intro i hi
      have hlt := (lt_sdtEntries_iff hlength).mpr hi.inRsdt
      exact hsearch.found i (Nat.zero_le i) (by omega) ((sdtSignatureIs_iff hsignature).mpr hi.bytes)
        fun j _ hj hmatch => hi.first j hj ((sdtSignatureIs_iff hsignature).mp hmatch)
    refine ⟨?_, hfound, ?_⟩
    · intro i hi
      obtain ⟨-, hlt, -⟩ | hnone := (hsearch.reads i).mp hi
      · exact (lt_sdtEntries_iff hlength).mp (by omega)
      · exact absurd hnone List.not_mem_nil
    · constructor
      · intro hzero hsome
        obtain ⟨i, hi⟩ := hsome
        exact hnonzero i hi ((hfound i hi).symm.trans hzero)
      · intro hnone
        apply hsearch.missed
        intro i _ hi
        -- Without a first match there is no match at all.
        induction i using Nat.strong_induction_on with
        | _ i ih =>
            intro hmatch
            refine hnone ⟨i, (lt_sdtEntries_iff hlength).mp (by omega),
              (sdtSignatureIs_iff hsignature).mp hmatch, fun j hj hearlier => ?_⟩
            exact ih j hj (Nat.zero_le j) (by omega) ((sdtSignatureIs_iff hsignature).mpr hearlier)

end Find

/-- An RSDP at `0xe0000` and an RSDT at `0x1000` with two entries, or as long as its length says. -/
def smallAcpi (length : UInt8) : Memory where
  byte := fun a =>
    if a = 0xe0011 then 0x10
    else if a = 0x1004 then length
    else if a = 0x1025 then 0x20
    else if a = 0x1029 then 0x30
    else if a = 0x3000 then 0x48
    else if a = 0x3001 then 0x50
    else if a = 0x3002 then 0x45
    else if a = 0x3003 then 0x54
    else 0
  writes := []

/-- `"HPET"`. -/
def hpetStdSignature (k : Nat) : UInt8 := [0x48, 0x50, 0x45, 0x54].getD k 0

theorem sdt_search_exact_iff_small :
    FindsFirst (smallAcpi 44) (rsdtAddr (smallAcpi 44) 0xe0000) hpetStdSignature
        (getAcpiStdHeader (smallAcpi 44) 0xe0000 hpetStdSignature) ↔
      rsdtSz ≤ sdtLength (smallAcpi 44) (rsdtAddr (smallAcpi 44) 0xe0000) ∧
        ∀ i, FirstMatch (smallAcpi 44) (rsdtAddr (smallAcpi 44) 0xe0000) hpetStdSignature i →
          sdtTable (smallAcpi 44) (rsdtAddr (smallAcpi 44) 0xe0000) i ≠ 0 :=
  sdt_search_exact_iff (smallAcpi 44) 0xe0000 (by decide)

/-- With a length shorter than the header the first words behind it are read. -/
theorem sdt_search_leaves_rsdt : ¬FindsFirst (smallAcpi 35) (rsdtAddr (smallAcpi 35) 0xe0000)
    hpetStdSignature (getAcpiStdHeader (smallAcpi 35) 0xe0000 hpetStdSignature) := by
  intro h
  have hshort : sdtLength (smallAcpi 35) (rsdtAddr (smallAcpi 35) 0xe0000) < rsdtSz := by decide
  obtain ⟨hpos, hout⟩ := sdtEntries_pos hshort
  have hread : 0 ∈ (getAcpiStdHeader (smallAcpi 35) 0xe0000 hpetStdSignature).entriesRead :=
    (searchSdtTable_spec.reads 0).mpr
      (Or.inl ⟨le_rfl, by omega, fun j _ hj => absurd hj (Nat.not_lt_zero j)⟩)
  exact hout (h.reads 0 hread)

end MyOSKernel
