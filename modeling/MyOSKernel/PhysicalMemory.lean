import MyOSKernel.MemoryMap

/-! The physical memory allocator of `memory/pmem.c`. The frame array lives in the byte memory the
rest of the kernel uses, at the address `physical_memory.array`; the allocator's structure is kept
beside it, with the subscripts the array has been used with. -/

namespace MyOSKernel

/-- A machine: its physical memory and the state of its frame allocator. -/
structure Machine (σ : Type) where
  mem : Memory
  pmem : σ

/-- `FREE_FRAME`, `LOCKED_FRAME` and `RESERVED_FRAME`. -/
inductive FrameState where
  | free
  | locked
  | reserved
  deriving DecidableEq

/-- The `frame_state` byte of the array. -/
def FrameState.code : FrameState → UInt8
  | .free => 0x00
  | .locked => 0x01
  | .reserved => 0x02

/-- `sizeof(PageFrame)`: eight bytes of `frame_addr`, one of `state`, seven of padding. -/
abbrev sizeofPageFrame : Nat := 16

structure PhysicalMemory where
  freeFrames : Nat
  reservedFrames : Nat
  lockedFrames : Nat
  frames : Nat
  array : Nat
  initialized : Bool

/-- The allocator's structure and every subscript `physical_memory.array` has been written or
tested under, the latest first. -/
structure Pmem extends PhysicalMemory where
  subscripts : List Nat

abbrev Kernel := Machine Pmem

namespace PhysicalMemory

/-- `&physical_memory.array[index]`. -/
def framePtr (pm : PhysicalMemory) (index : Nat) : Nat :=
  (pm.array + index * sizeofPageFrame) % 2 ^ 64

/-- `&physical_memory.array[index].state`. -/
def statePtr (pm : PhysicalMemory) (index : Nat) : Nat :=
  (pm.array + index * sizeofPageFrame + 8) % 2 ^ 64

/-- The counter of the frames in a state. -/
def counter (pm : PhysicalMemory) : FrameState → Nat
  | .free => pm.freeFrames
  | .locked => pm.lockedFrames
  | .reserved => pm.reservedFrames

def setCounter (pm : PhysicalMemory) (state : FrameState) (value : Nat) : PhysicalMemory :=
  match state with
  | .free => { pm with freeFrames := value }
  | .locked => { pm with lockedFrames := value }
  | .reserved => { pm with reservedFrames := value }

/-- `counter(source) -= 1; counter(target) += 1`, on `size_t` counters. -/
def moveCount (pm : PhysicalMemory) (source target : FrameState) : PhysicalMemory :=
  let taken := pm.setCounter source ((pm.counter source + (2 ^ 64 - 1)) % 2 ^ 64)
  taken.setCounter target ((taken.counter target + 1) % 2 ^ 64)

end PhysicalMemory

def Pmem.touch (pm : Pmem) (index : Nat) : Pmem :=
  { pm with subscripts := index :: pm.subscripts }

namespace PhysicalMemory

def getFrameState (s : Kernel) (index : Nat) : UInt8 := s.mem.byte (s.pmem.statePtr index)

def setFrameState (s : Kernel) (index : Nat) (state : FrameState) : Kernel where
  mem := s.mem.store (s.pmem.statePtr index) state.code
  pmem := s.pmem.touch index

/-- `physical_memory.array[index].frame_addr`. -/
def getFrameAddr (s : Kernel) (index : Nat) : Nat := s.mem.loadLE (s.pmem.framePtr index) 8

def setFrameAddr (s : Kernel) (index addr : Nat) : Kernel where
  mem := s.mem.storeLE (s.pmem.framePtr index) addr 8
  pmem := s.pmem.touch index

/-- The common body of the four state changes: a frame in state `source` goes to `target` and the
two counters follow; a frame in any other state is left alone. -/
def moveFrame (source target : FrameState) (s : Kernel) (index : Nat) : Kernel :=
  let s : Kernel := { s with pmem := s.pmem.touch index }
  if getFrameState s index = source.code then
    setFrameState
      { s with pmem := { s.pmem with toPhysicalMemory := s.pmem.moveCount source target } }
      index target
  else s

def lockFrame : Kernel → Nat → Kernel := moveFrame .free .locked

def freeFrame : Kernel → Nat → Kernel := moveFrame .locked .free

def reserveFrame : Kernel → Nat → Kernel := moveFrame .free .reserved

def unreserveFrame : Kernel → Nat → Kernel := moveFrame .reserved .free

/-- `PhysicalMemory__get_frame_index_by_ptr`; `(size_t) -1` when no frame contains the address. -/
def getFrameIndexByPtr (s : Kernel) (ptr : Nat) : Nat :=
  ((List.range s.pmem.frames).find? fun i =>
    getFrameAddr s i ≤ ptr ∧ ptr < (getFrameAddr s i + pageSz) % 2 ^ 64).getD (2 ^ 64 - 1)

/-- `PhysicalMemory__get_frames_array_sz`, in bytes. -/
def getFramesArraySz (pm : PhysicalMemory) : Nat := pm.frames * 8 * sizeofPageFrame % 2 ^ 64

/-- The scan of `pmem_request_frame`: the first free frame. -/
def firstFree (s : Kernel) : Option Nat :=
  (List.range s.pmem.frames).find? fun i => getFrameState s i = FrameState.free.code

end PhysicalMemory

open PhysicalMemory in
/-- The address returned, `NULL` when there is no free frame, and the state after. -/
def pmemRequestFrame (s : Kernel) : Nat × Kernel :=
  if s.pmem.freeFrames = 0 then (0, s)
  else
    match firstFree s with
    | some i => (getFrameAddr (lockFrame s i) i, lockFrame s i)
    | none => (0, s)

end MyOSKernel
