import Epos.ForStd.TransitionSystem
import Epos.Kernel.GroupingList

/-!
# Frames and chunks

`MMU` and `MMU::Chunk` of the IA32 with one list of free frames. An element of this list
is known by its first frame, and an address is the frame times the page size. The memory
that holds page tables is kept by entry: the entries of the frame `f` are those from
`f * ptEntries` on.
-/

namespace Epos

def pageBytes : Nat := 2 ^ 12

/-- `PT_ENTRIES`. -/
def ptEntries : Nat := 2 ^ 10

def entryBytes : Nat := 4

/-- `pages(bytes)`, in 32 bits. -/
def pages (bytes : Nat) : Nat := (bytes + pageBytes - 1) % 2 ^ 32 / pageBytes

def pageTables (pages : Nat) : Nat := (pages + ptEntries - 1) % 2 ^ 32 / ptEntries

/-- `addr & ~(sizeof(Page) - 1)`. -/
def indexes (addr : Nat) : Nat := addr / pageBytes * pageBytes

def alignPage (addr : Nat) : Nat := indexes ((addr + pageBytes - 1) % 2 ^ 32)

/-! ## Page flags -/

/-- `MMU_Common::Flags`. -/
structure Flags where
  bits : Nat
  deriving DecidableEq, Repr

namespace Flags

def rw : Nat := 0x002
def usr : Nat := 0x004
def cwt : Nat := 0x008
def cd : Nat := 0x010
def ct : Nat := 0x020
def io : Nat := 0x040

end Flags

/-- `IA32_Flags`. -/
structure IA32Flags where
  bits : Nat
  deriving DecidableEq, Repr

namespace IA32Flags

def pre : Nat := 0x001
def rw : Nat := 0x002
def usr : Nat := 0x004
def pwt : Nat := 0x008
def pcd : Nat := 0x010
def acc : Nat := 0x020
def ct : Nat := 0x400
def io : Nat := 0x800
def sys : Nat := pre ||| rw ||| acc
def pci : Nat := sys ||| pcd ||| io

/-- The flags for which of the generic ones are set. -/
def ofBits (hasRw hasUsr hasCwt hasCd hasCt hasIo : Bool) : IA32Flags where
  bits := pre ||| acc ||| (if hasRw then rw else 0) ||| (if hasUsr then usr else 0) |||
    (if hasCwt then pwt else 0) ||| (if hasCd then pcd else 0) ||| (if hasCt then ct else 0) |||
    (if hasIo then pci else 0)

def has (f : IA32Flags) (bit : Nat) : Bool := f.bits &&& bit != 0

end IA32Flags

def Flags.has (f : Flags) (bit : Nat) : Bool := f.bits &&& bit != 0

/-- `IA32_Flags(f)`. -/
def Flags.toIA32 (f : Flags) : IA32Flags :=
  .ofBits (f.has Flags.rw) (f.has Flags.usr) (f.has Flags.cwt) (f.has Flags.cd) (f.has Flags.ct)
    (f.has Flags.io)

/-! ## Frames -/

structure Mmu where
  list : GroupingList
  entry : Nat → Nat

namespace Mmu

/-- `alloc(frames)`, which returns a null address if there are none. -/
def alloc (m : Mmu) (frames : Nat) : Option (Nat × Mmu) :=
  if frames = 0 then some (0, m)
  else do
    let (e, g) ← m.list.searchDecrementing none frames
    match e with
    | some e => some ((e + g.size e) * pageBytes, { m with list := g })
    | none => some (0, m)

/-- `calloc(frames)`, which clears the memory at address 0 if there are none. -/
def calloc (m : Mmu) (frames : Nat) : Option (Nat × Mmu) := do
  let (phy, m) ← m.alloc frames
  let entry := fun a =>
    if phy / entryBytes ≤ a ∧ a < phy / entryBytes + frames * ptEntries then 0 else m.entry a
  some (phy, { m with entry := entry })

/-- `free(frame, n)`, where the address of the frame may have flags. -/
def free (m : Mmu) (frame n : Nat) : Option Mmu :=
  let frame := indexes frame
  if frame ≠ 0 ∧ n ≠ 0 then
    ((m.list.construct (frame / pageBytes) n).insertMerging (frame / pageBytes)).map fun g =>
      { m with list := g }
  else some m

/-! ## Page tables -/

/-- `_entry[i]` of the page table at the address `pt`. -/
def readEntry (m : Mmu) (pt i : Nat) : Nat := m.entry (pt / entryBytes + i)

def writeEntry (m : Mmu) (pt i x : Nat) : Mmu :=
  { m with entry := Function.update m.entry (pt / entryBytes + i) x }

/-- The loop of `remap`, for `n` entries from `i` on. -/
def remapLoop (pt : Nat) (flags : IA32Flags) : Nat → Nat → Nat → Mmu → Mmu
  | 0, _, _, m => m
  | n + 1, addr, i, m =>
    remapLoop pt flags n ((addr + pageBytes) % 2 ^ 32) (i + 1)
      (m.writeEntry pt i (addr ||| flags.bits))

def remap (m : Mmu) (pt addr lo hi : Nat) (flags : IA32Flags) : Mmu :=
  remapLoop pt flags (hi - lo) (alignPage addr) lo m

/-- The loop of `map`, which allocates the frames one by one. -/
def mapLoop (pt : Nat) (flags : IA32Flags) : Nat → Nat → Mmu → Option Mmu
  | 0, _, m => some m
  | n + 1, i, m => do
    let (addr, m) ← m.alloc 1
    mapLoop pt flags n (i + 1) (m.writeEntry pt i (addr ||| flags.bits))

def map (m : Mmu) (pt lo hi : Nat) (flags : IA32Flags) : Option Mmu := do
  let (addr, m) ← m.alloc (hi - lo)
  -- Frames next to each other if there are enough of them.
  if addr ≠ 0 then some (m.remap pt addr lo hi flags)
  else mapLoop pt flags (hi - lo) lo m

def mapContiguous (m : Mmu) (pt lo hi : Nat) (flags : IA32Flags) : Option Mmu := do
  let (addr, m) ← m.alloc (hi - lo)
  some (m.remap pt addr lo hi flags)

end Mmu

/-! ## Chunks -/

structure Chunk where
  lo : Nat
  hi : Nat
  pts : Nat
  flags : IA32Flags
  pt : Nat
  deriving DecidableEq, Repr

namespace Chunk

/-- `Chunk(bytes, flags)`. The bit that is tested is the one of `IA32_Flags`. -/
def construct (m : Mmu) (bytes : Nat) (flags : Flags) : Option (Chunk × Mmu) := do
  let hi := pages bytes
  let pts := pageTables (hi - 0)
  let (pt, m) ← m.calloc pts
  let m ←
    if flags.has IA32Flags.ct then m.mapContiguous pt 0 hi flags.toIA32
    else m.map pt 0 hi flags.toIA32
  some ({ lo := 0, hi, pts, flags := flags.toIA32, pt }, m)

/-- `Chunk(phy_addr, bytes, flags)`. -/
def constructAt (m : Mmu) (addr bytes : Nat) (flags : Flags) : Option (Chunk × Mmu) := do
  let hi := pages bytes
  let pts := pageTables (hi - 0)
  let (pt, m) ← m.calloc pts
  some ({ lo := 0, hi, pts, flags := flags.toIA32, pt }, m.remap pt addr 0 hi flags.toIA32)

/-- The loop of `~Chunk()`, for `n` entries from `i` on. -/
def freeLoop (pt : Nat) : Nat → Nat → Mmu → Option Mmu
  | 0, _, m => some m
  | n + 1, i, m => do
    let m ← m.free (m.readEntry pt i) 1
    freeLoop pt n (i + 1) m

def destroy (c : Chunk) (m : Mmu) : Option Mmu := do
  let m ←
    if c.flags.has IA32Flags.io then some m
    else if c.flags.has IA32Flags.ct then m.free (m.readEntry c.pt c.lo) (c.hi - c.lo)
    else freeLoop c.pt (c.hi - c.lo) c.lo m
  m.free c.pt c.pts

/-- `memcpy(pt, _pt, _pts * sizeof(Page))`. -/
def copyTables (m : Mmu) (pt pt' pts : Nat) : Mmu :=
  { m with
    entry := fun a =>
      if pt' / entryBytes ≤ a ∧ a < pt' / entryBytes + pts * ptEntries then
        m.entry (pt / entryBytes + (a - pt' / entryBytes))
      else m.entry a }

/-- More page tables, with the entries that there are. -/
def growTables (c : Chunk) (m : Mmu) (pts : Nat) : Option (Chunk × Mmu) := do
  let (pt, m) ← m.calloc pts
  let m := copyTables m c.pt pt c.pts
  let m ← m.free c.pt c.pts
  some ({ c with pt, pts }, m)

/-- `free_pgs`, the pages for which there are page tables. -/
def freePages (c : Chunk) : Nat := (c.pts * ptEntries + 2 ^ 32 - c.hi) % 2 ^ 32

/-- The first part of `resize`, which makes room in the page tables. -/
def makeRoom (c : Chunk) (m : Mmu) (pgs : Nat) : Option (Chunk × Mmu) :=
  if c.freePages < pgs then c.growTables m (c.pts + pageTables (pgs - c.freePages))
  else some (c, m)

/-- The second part of `resize`, together with what it returns. -/
def extend (c : Chunk) (m : Mmu) (pgs : Nat) : Option (Nat × Chunk × Mmu) := do
  let hi := (c.hi + pgs) % 2 ^ 32
  let m ← m.map c.pt c.hi hi c.flags
  some (pgs * pageBytes, { c with hi }, m)

def resize (c : Chunk) (m : Mmu) (amount : Nat) : Option (Nat × Chunk × Mmu) :=
  if c.flags.has IA32Flags.ct then some (0, c, m)
  else do
    let (c, m) ← c.makeRoom m (pages amount)
    c.extend m (pages amount)

end Chunk

/-! ## Runs -/

/-- A chunk, how many of its first pages were mapped to memory that was not allocated,
    and how many pages it was asked for. -/
structure LiveChunk extends Chunk where
  foreign : Nat
  asked : Nat
  deriving DecidableEq, Repr

structure MmuState where
  mmu : Option Mmu
  chunks : List LiveChunk := []

inductive MmuAction where
  | construct (bytes : Nat) (flags : Flags)
  | constructAt (addr bytes : Nat) (flags : Flags)
  | resize (i amount : Nat)
  | destroy (i : Nat)
  deriving DecidableEq, Repr

namespace MmuState

def step (σ : MmuState) : MmuAction → MmuState
  | .construct bytes flags =>
    match σ.mmu.bind (Chunk.construct · bytes flags) with
    | some (c, m) =>
      { mmu := some m, chunks := { c with foreign := 0, asked := pages bytes } :: σ.chunks }
    | none => { σ with mmu := none }
  | .constructAt addr bytes flags =>
    match σ.mmu.bind (Chunk.constructAt · addr bytes flags) with
    | some (c, m) =>
      -- the frames of this chunk are not of the free list
      { mmu := some m, chunks := { c with foreign := c.hi, asked := pages bytes } :: σ.chunks }
    | none => { σ with mmu := none }
  | .resize i amount =>
    match σ.chunks[i]? with
    | some c =>
      match σ.mmu.bind (c.resize · amount) with
      | some (r, c', m) =>
        { mmu := some m
          chunks := σ.chunks.set i
            { c' with foreign := c.foreign, asked := c.asked + r / pageBytes } }
      | none => { σ with mmu := none }
    | none => σ
  | .destroy i =>
    match σ.chunks[i]? with
    | some c => { mmu := σ.mmu.bind c.destroy, chunks := σ.chunks.eraseIdx i }
    | none => σ

def CanAct (σ : MmuState) : MmuAction → Prop
  | .construct bytes _ => bytes < 2 ^ 32
  | .constructAt addr bytes _ => addr < 2 ^ 32 ∧ bytes < 2 ^ 32
  | .resize i amount => i < σ.chunks.length ∧ amount < 2 ^ 32
  | .destroy i => i < σ.chunks.length

instance (σ : MmuState) : (a : MmuAction) → Decidable (σ.CanAct a)
  | .construct _ _ => Nat.decLt _ _
  | .constructAt _ _ _ => inferInstanceAs (Decidable (_ ∧ _))
  | .resize _ _ => inferInstanceAs (Decidable (_ ∧ _))
  | .destroy _ => Nat.decLt _ _

end MmuState

end Epos
