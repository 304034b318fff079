import Epos.Kernel.Mmu

/-!
# Page directories

`MMU::Directory` of the IA32. The page directory itself is kept, not the memory that it is
in; `*_pd` and `*phy2log(_pd)` are the same table. An access behind its last entry gives
nothing.
-/

namespace Epos

/-- `PD_ENTRIES`. -/
def pdEntries : Nat := ptEntries

/-- `DIRECTORY_SHIFT`. -/
def directoryShift : Nat := 22

/-- `directory(addr)`. -/
def directoryIndex (addr : Nat) : Nat := addr / 2 ^ directoryShift

/-- `*_pd`. -/
abbrev Directory := Fin pdEntries → Nat

namespace Directory

/-- `(*_pd)[i]`. -/
def read (d : Directory) (i : Nat) : Option Nat :=
  if h : i < pdEntries then some (d ⟨i, h⟩) else none

/-- `(*_pd)[i] = x`. -/
def write (d : Directory) (i x : Nat) : Option Directory :=
  if h : i < pdEntries then some (Function.update d ⟨i, h⟩ x) else none

/-! ## The private methods -/

/-- The first loop of `attach(from, pt, n, flags)`, for `n` entries from `i` on. -/
def isFree (d : Directory) : Nat → Nat → Option Bool
  | 0, _ => some true
  | n + 1, i => do
    let x ← d.read i
    if x ≠ 0 then some false else isFree d n (i + 1)

/-- The second loop, with `pt` going from page table to page table. -/
def mapTables (flags : IA32Flags) : Nat → Nat → Nat → Directory → Option Directory
  | 0, _, _, d => some d
  | n + 1, i, pt, d => do
    let d ← d.write i (pt ||| flags.bits)
    mapTables flags n (i + 1) ((pt + pageBytes) % 2 ^ 32) d

/-- `attach(from, pt, n, flags)`. -/
def attachTables (d : Directory) (i pt n : Nat) (flags : IA32Flags) :
    Option (Bool × Directory) := do
  if ← d.isFree n i then (mapTables flags n i pt d).map fun d => (true, d)
  else some (false, d)

/-- `detach(from, pt, n)`, for `n` entries from `i` on. -/
def clear : Nat → Nat → Directory → Option Directory
  | 0, _, d => some d
  | n + 1, i, d => do
    let d ← d.write i 0
    clear n (i + 1) d

/-! ## The public methods -/

/-- The loop of `attach(chunk, from)` with the indices that are left. -/
def attachLoop (c : Chunk) (d : Directory) : Nat → Nat → Option (Nat × Directory)
  | 0, _ => some (0, d)
  | k + 1, i => do
    let (ok, d') ← d.attachTables i c.pt c.pts c.flags
    if ok then some (i * 2 ^ directoryShift, d') else attachLoop c d k (i + 1)

/-- `attach(chunk, from)`, which returns a null address if it fails. -/
def attach (d : Directory) (c : Chunk) (lo : Nat) : Option (Nat × Directory) :=
  attachLoop c d (pdEntries - lo) lo

/-- `attach(chunk, addr)`. -/
def attachAddr (d : Directory) (c : Chunk) (addr : Nat) : Option (Nat × Directory) := do
  let i := directoryIndex addr
  let (ok, d) ← d.attachTables i c.pt c.pts c.flags
  some (if ok then i * 2 ^ directoryShift else 0, d)

/-- The loop of `detach(chunk)` with the indices that are left. -/
def detachLoop (c : Chunk) (d : Directory) : Nat → Nat → Option Directory
  | 0, _ => some d
  | k + 1, i => do
    let x ← d.read i
    if indexes x = indexes c.pt then clear c.pts i d else detachLoop c d k (i + 1)

/-- `detach(chunk)`. -/
def detach (d : Directory) (c : Chunk) : Option Directory := detachLoop c d pdEntries 0

/-- `detach(chunk, addr)`. -/
def detachAddr (d : Directory) (c : Chunk) (addr : Nat) : Option Directory := do
  let i := directoryIndex addr
  let x ← d.read i
  if indexes x ≠ indexes c.pt then some d else clear c.pts i d

end Directory

end Epos
