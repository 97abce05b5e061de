import MyOSKernel.FrameAccounting

/-! `PhysicalMemory__init`: the array is cleared, filled from the memory map, the frame of the stack
is reserved and the frames of the array itself are locked. Each phase is a loop with its own
invariant; the phases are put together at the end. -/

namespace MyOSKernel

structure Framebuffer where
  baseAddress : Nat
  bufferSize : Nat

/-- The fields of the global `kernel` the memory subsystem reads; of the HPET description table only
`base_address.address`, and the value the device's read-only capability register has there. -/
structure KernelData where
  stack : Nat
  framebuffer : Framebuffer
  memory : MemoryData
  hpetAddress : Nat
  hpetCapReg : Nat

namespace PhysicalMemory

/-- The structure once the array has been placed: all frames counted as free. -/
def setUpArray (buffer frames : Nat) (s : Kernel) : Kernel where
  mem := s.mem
  pmem := { s.pmem with
    array := buffer, frames := frames, freeFrames := frames, lockedFrames := 0, reservedFrames := 0 }

def clearFrame (i : Nat) (s : Kernel) : Kernel :=
  setFrameState
    { mem := memset s.mem (s.pmem.framePtr i) 0x0 sizeofPageFrame, pmem := s.pmem.touch i } i .free

/-- The loop that sets all frames in the array to free. -/
def clearFrames (s : Kernel) : Kernel := Nat.fold s.pmem.frames (fun i _ => clearFrame i) s

/-- The regions which are not supposed to be used by the kernel. -/
abbrev NotForKernel (desc : EfiMemoryDescriptor) : Prop :=
  desc.type ≠ EfiMemoryType.conventionalMemory.code ∧
    desc.type ≠ EfiMemoryType.bootServicesCode.code ∧
    desc.type ≠ EfiMemoryType.bootServicesData.code

/-- The machine and the two running indexes of the fill loop. -/
structure FillState where
  kernel : Kernel
  frameId : Nat
  arrayFrameId : Nat

def fillPage (desc : EfiMemoryDescriptor) (n : Nat) (fill : FillState) : FillState :=
  let s := setFrameAddr fill.kernel fill.frameId ((desc.physicalAddr + n * pageSz) % 2 ^ 64)
  { kernel := if NotForKernel desc then reserveFrame s fill.frameId else s
    frameId := (fill.frameId + 1) % 2 ^ 64
    arrayFrameId := fill.arrayFrameId }

def fillDescriptor (buffer : Nat) (desc : EfiMemoryDescriptor) (fill : FillState) : FillState :=
  Nat.fold desc.numberOfPages (fun n _ => fillPage desc n)
    (if desc.physicalAddr = buffer then { fill with arrayFrameId := fill.frameId } else fill)

/-- The loop that initializes the frames by the memory map. -/
def fillFrames (memory : MemoryData) (buffer : Nat) (s : Kernel) : FillState :=
  Nat.fold memory.entries (fun i _ => fillDescriptor buffer (getMemoryDescriptor memory i))
    { kernel := s, frameId := 0, arrayFrameId := 0 }

/-- Everything up to the end of the fill loop; `none` when counting the frames does not end. -/
def fillArray (memory : MemoryData) (buffer : Nat) (s : Kernel) : Option FillState :=
  (getNumberOfPageFrames memory).map fun frames =>
    fillFrames memory buffer (clearFrames (setUpArray buffer frames s))

/-- The loop that locks the frames where the frames' array is placed. -/
def lockArrayFrames (arrayFrameId : Nat) (s : Kernel) : Kernel :=
  Nat.fold (getFramesArraySz s.pmem.toPhysicalMemory / pageSz)
    (fun i _ s => lockFrame s ((arrayFrameId + i) % 2 ^ 64)) s

def setInitialized (s : Kernel) : Kernel := { s with pmem := { s.pmem with initialized := true } }

/-- `PhysicalMemory__init`. -/
def init (kernel : KernelData) (buffer : Nat) (s : Kernel) : Option Kernel :=
  if s.pmem.initialized then some s
  else
    (fillArray kernel.memory buffer s).map fun fill =>
      let stackFrame := getFrameIndexByPtr fill.kernel kernel.stack
      setInitialized (lockArrayFrames fill.arrayFrameId (reserveFrame fill.kernel stackFrame))

end PhysicalMemory

open PhysicalMemory in
def initPhysicalMemory (kernel : KernelData) (s : Kernel) : Option Kernel :=
  PhysicalMemory.init kernel (getLargestFreeMemSeg kernel.memory 0).2 s

/-- The machine when the kernel is entered, `physical_memory` not initialized: no store has been
made yet. -/
def bootState (bytes : Nat → UInt8) : Kernel where
  mem := { byte := bytes, writes := [] }
  pmem :=
    { freeFrames := 0, reservedFrames := 0, lockedFrames := 0, frames := 0, array := 0
      initialized := false, subscripts := [] }

end MyOSKernel
