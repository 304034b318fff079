import Epos.Kernel.Heap
import Epos.Spec.GroupingListCorrect

/-!
# Heap disjointness and conservation

The cells of the free chunks and of the live blocks are the cells of the region, each of
them once, and every block has its size in its header.
-/

namespace Epos

open GroupingList (spans)

variable {c : HeapConfig} {h h' : SimpleHeap} {l : List Nat} {blocks : List Span} {b : Span}
  {σ : HeapState} {addr bytes n : Nat}

/-! ## The region -/

/-- What `free` finds in the header of a block. -/
structure SimpleHeap.Marked (c : HeapConfig) (h : SimpleHeap) (b : Span) : Prop where
  large : elementBytes ≤ b.size
  size : h.word (b.start + c.headerBytes - wordBytes) = b.size
  owner : c.typed → h.word b.start = c.this

/-- The free chunks of `h` and the blocks make up the region. -/
structure SimpleHeap.Partitions (c : HeapConfig) (addr bytes : Nat) (h : SimpleHeap)
    (l : List Nat) (blocks : List Span) : Prop where
  groups : h.list.Groups l
  cells : (blocks ++ spans h.list.size l).cells.Perm (Span.cells ⟨addr, bytes⟩)
  unmerged : (spans h.list.size l).Unmerged
  large : ∀ t ∈ spans h.list.size l, elementBytes ≤ t.size
  marked : ∀ b ∈ blocks, h.Marked c b

namespace SimpleHeap

/-- A header fits into an element. -/
theorem headerBytes_le : c.headerBytes ≤ elementBytes := by
  unfold HeapConfig.headerBytes
  split <;> decide

/-- A header has one word at least. -/
theorem wordBytes_le : wordBytes ≤ c.headerBytes := by
  unfold HeapConfig.headerBytes
  split <;> decide

/-- A block has room for an element. -/
theorem le_blockBytes : elementBytes ≤ c.blockBytes n := Nat.le_max_right _ _

/-- Only the header counts. -/
theorem Marked.congr (hm : h.Marked c b)
    (hword : ∀ a, b.start ≤ a → a + wordBytes ≤ b.start + c.headerBytes → h'.word a = h.word a) :
    h'.Marked c b where
  large := hm.large
  size := by
    have hle := wordBytes_le (c := c)
    rw [hword _ (by omega) (by omega), hm.size]
  owner ht := by
    rw [hword _ (Nat.le_refl _) (Nat.add_le_add_left wordBytes_le _), hm.owner ht]

/-! ## Freeing -/

/-- A range is added to the chunks. -/
theorem freeBytes_eq {t : Span} (hg : h.list.Groups l) (hstart : 0 < t.start)
    (hsize : elementBytes ≤ t.size) (hnd : (t.cells ++ (spans h.list.size l).cells).Nodup) :
    ∃ g l', h.freeBytes t.start t.size = some { h with list := g } ∧ g.Groups l' ∧
      (spans h.list.size l).Joined t (spans g.size l') := by
  have hpos : 0 < t.size := Nat.lt_of_lt_of_le (by decide) hsize
  obtain ⟨g, l', heq, hg', hjoin⟩ := hg.construct_insertMerging hpos hnd
  refine ⟨g, l', ?_, hg', hjoin⟩
  unfold freeBytes
  rw [if_pos ⟨Nat.ne_of_gt hstart, hsize⟩, heq, Option.map_some]

/-- `free` finds the range of a block in its header. -/
theorem Marked.free_eq (hm : h.Marked c b) :
    h.free c (b.start + c.headerBytes) = h.freeBytes b.start b.size := by
  have hsize := hm.size
  have howner := hm.owner
  unfold free
  -- a typed block holds the address of its heap in front of its size
  cases ht : c.typed with
  | true =>
    have hheader : c.headerBytes = wordBytes + wordBytes := by
      unfold HeapConfig.headerBytes
      rw [if_pos ht]
    rw [hheader] at hsize ⊢
    have haddr : b.start + (wordBytes + wordBytes) - wordBytes - wordBytes = b.start := by omega
    rw [if_pos rfl]
    unfold typedFree
    simp only [haddr, hsize, howner ht, if_true]
  | false =>
    have hheader : c.headerBytes = wordBytes := by
      unfold HeapConfig.headerBytes
      rw [ht]
      rfl
    rw [hheader] at hsize ⊢
    have haddr : b.start + wordBytes - wordBytes = b.start := Nat.add_sub_cancel ..
    rw [haddr] at hsize
    rw [if_neg Bool.false_ne_true]
    unfold untypedFree
    simp only [haddr, hsize]

namespace Partitions

/-- No cell is used twice. -/
theorem nodup (hp : h.Partitions c addr bytes l blocks) :
    (blocks ++ spans h.list.size l).cells.Nodup :=
  hp.cells.nodup_iff.mpr Span.nodup_cells

/-- No block starts at 0. -/
theorem pos_start (hp : h.Partitions c addr bytes l blocks) (haddr : 0 < addr) (hb : b ∈ blocks) :
    0 < b.start := by
  have hlarge := (hp.marked b hb).large
  have hstart : b.start ∈ b.cells := Span.start_mem (Nat.lt_of_lt_of_le (by decide) hlarge)
  have hmem : b.start ∈ (blocks ++ spans h.list.size l).cells :=
    List.mem_cells.mpr ⟨b, List.mem_append_left _ hb, hstart⟩
  rw [hp.cells.mem_iff, Span.mem_cells] at hmem
  exact Nat.lt_of_lt_of_le haddr hmem.1

/-- The order of the blocks does not matter. -/
theorem perm {blocks' : List Span} (hp : h.Partitions c addr bytes l blocks)
    (hperm : blocks.Perm blocks') : h.Partitions c addr bytes l blocks' where
  groups := hp.groups
  cells := (hperm.append_right _).cells.symm.trans hp.cells
  unmerged := hp.unmerged
  large := hp.large
  marked b hb := hp.marked b (hperm.mem_iff.mpr hb)

/-- A live block is freed. -/
theorem free (hp : h.Partitions c addr bytes l (b :: blocks)) (haddr : 0 < addr) :
    ∃ h' l', h.free c (b.start + c.headerBytes) = some h' ∧
      h'.Partitions c addr bytes l' blocks := by
  have hm := hp.marked b List.mem_cons_self
  have hnd := hp.nodup
  rw [List.cons_append, List.cells_cons] at hnd
  have hperm : (b.cells ++ (blocks ++ spans h.list.size l).cells).Perm
      (blocks.cells ++ (b.cells ++ (spans h.list.size l).cells)) := by
    rw [List.cells_append, ← List.append_assoc, ← List.append_assoc]
    exact List.perm_append_comm.append_right _
  have hnd' := (List.nodup_append.mp (hperm.nodup_iff.mp hnd)).2.1
  obtain ⟨g, l', heq, hg, hjoin⟩ := freeBytes_eq hp.groups
    (hp.pos_start haddr List.mem_cons_self) hm.large hnd'
  have hsize : 0 < b.size := Nat.lt_of_lt_of_le (by decide) hm.large
  refine ⟨_, l', hm.free_eq.trans heq, hg, ?_, hjoin.unmerged hp.unmerged hsize,
    hjoin.le_size hm.large hp.large, fun x hx => ?_⟩
  · rw [List.cells_append]
    refine (hjoin.cells.append_left _).trans (hperm.symm.trans ?_)
    exact hp.cells
  · obtain ⟨h₁, h₂, h₃⟩ := hp.marked x (List.mem_cons_of_mem _ hx)
    exact ⟨h₁, h₂, h₃⟩

end Partitions

/-! ## Allocating -/

/-- The words that `alloc` writes. -/
def writeHeader (c : HeapConfig) (word : Nat → Nat) (b : Span) : Nat → Nat :=
  Function.update (if c.typed then Function.update word b.start c.this else word)
    (b.start + c.headerBytes - wordBytes) b.size

/-- A header marks its block. -/
theorem writeHeader_marked {g : GroupingList} {word : Nat → Nat} (hb : elementBytes ≤ b.size) :
    Marked c ⟨g, writeHeader c word b⟩ b where
  large := hb
  size := Function.update_self ..
  owner ht := by
    have hne : b.start ≠ b.start + c.headerBytes - wordBytes := by
      unfold HeapConfig.headerBytes
      rw [if_pos ht]
      unfold wordBytes
      omega
    show writeHeader c word b b.start = c.this
    unfold writeHeader
    rw [Function.update_of_ne hne, if_pos ht, Function.update_self]

/-- A header is written inside of its block only. -/
theorem writeHeader_of_notMem {word : Nat → Nat} {a : Nat} (hb : elementBytes ≤ b.size)
    (ha : a ∉ b.cells) : writeHeader c word b a = word a := by
  have hpos : 0 < elementBytes := by decide
  have hle := headerBytes_le (c := c)
  have hword : 0 < wordBytes := by decide
  have hstart : a ≠ b.start := fun heq =>
    ha (heq ▸ Span.start_mem (Nat.lt_of_lt_of_le hpos hb))
  have hne : a ≠ b.start + c.headerBytes - wordBytes := by
    intro heq
    have hle' := wordBytes_le (c := c)
    refine ha (Span.mem_cells.mpr ?_)
    unfold Span.stop
    omega
  unfold writeHeader
  rw [Function.update_of_ne hne]
  split
  · exact Function.update_of_ne hstart ..
  · rfl

/-- A block is the end of a chunk that is large enough, with its header. -/
theorem alloc_eq (hg : h.list.Groups l) (n : Nat) :
    h.alloc c n = some (none, h) ∨
    ∃ b g l' k, h.alloc c n =
        some (some (b.start + c.headerBytes), ⟨g, writeHeader c h.word b⟩) ∧
      b.size = c.blockBytes n ∧ g.Groups l' ∧ (k = 0 ∨ elementBytes ≤ k) ∧
      ∃ e, b.start = e + k ∧ (spans h.list.size l).Cut e k b.size (spans g.size l') := by
  unfold alloc
  by_cases hn : n = 0
  · exact .inl (if_pos hn)
  · rw [if_neg hn]
    rcases hg.searchDecrementing (some elementBytes) (c.blockBytes n) with
      ⟨heq, -⟩ | ⟨e, g, l', heq, -, hg', hfits, hcut⟩
    · left
      simp only [heq, Option.bind_eq_bind, Option.bind_some]
    · refine .inr ⟨⟨e + g.size e, c.blockBytes n⟩, g, l', g.size e, ?_, rfl, hg', ?_, e, rfl, hcut⟩
      · simp only [heq, Option.bind_eq_bind, Option.bind_some]
        unfold writeHeader HeapConfig.headerBytes
        cases c.typed with
        | true => rfl
        | false => rfl
      · unfold GroupingList.fits at hfits
        simp only [decide_eq_true_eq] at hfits
        omega

namespace Partitions

/-- A block is added to the live ones, or there is none. -/
theorem alloc (hp : h.Partitions c addr bytes l blocks) (n : Nat) :
    h.alloc c n = some (none, h) ∨
    ∃ b h' l', h.alloc c n = some (some (b.start + c.headerBytes), h') ∧
      b.size = c.blockBytes n ∧ h'.Partitions c addr bytes l' (b :: blocks) := by
  rcases alloc_eq hp.groups n with heq | ⟨b, g, l', k, heq, hsize, hg, hk, e, hstart, hcut⟩
  · exact .inl heq
  · right
    have hlarge : elementBytes ≤ b.size := hsize ▸ le_blockBytes
    have hpos : 0 < b.size := Nat.lt_of_lt_of_le (by decide) hlarge
    have hcells : (spans h.list.size l).cells.Perm
        (b.cells ++ (spans g.size l').cells) := by
      have hperm := hcut.cells
      rwa [← hstart] at hperm
    have hall : (b.cells ++ (blocks ++ spans g.size l').cells).Perm
        (blocks ++ spans h.list.size l).cells := by
      rw [List.cells_append, List.cells_append, ← List.append_assoc]
      refine (List.perm_append_comm.append_right _).trans ?_
      rw [List.append_assoc]
      exact hcells.symm.append_left _
    refine ⟨b, _, l', heq, hsize, hg, hall.trans hp.cells,
      hcut.unmerged hp.unmerged hp.groups.nodup hp.groups.pos hpos,
      hcut.le_size hk hp.large, List.forall_mem_cons.mpr ⟨writeHeader_marked hlarge, ?_⟩⟩
    -- The header of the new block is apart from those of the others.
    intro x hx
    have hxlarge := (hp.marked x hx).large
    refine (hp.marked x hx).congr fun a ha ha' => ?_
    refine writeHeader_of_notMem hlarge fun hmem => ?_
    have hxa : a ∈ x.cells := by
      have hle := headerBytes_le (c := c)
      have hword : 0 < wordBytes := by decide
      rw [Span.mem_cells]
      unfold Span.stop
      omega
    have hnd := hall.nodup_iff.mpr hp.nodup
    exact (List.nodup_append.mp hnd).2.2 a hmem a
      (List.mem_cells.mpr ⟨x, List.mem_append_left _ hx, hxa⟩) rfl

/-- A range is made a heap. -/
theorem of_freeBytes (links : Links Nat) (size word : Nat → Nat) (haddr : 0 < addr)
    (hbytes : elementBytes ≤ bytes) :
    ∃ h l, (SimpleHeap.mk ⟨⟨links, {}⟩, size, 0⟩ word).freeBytes addr bytes = some h ∧
      h.Partitions c addr bytes l [] := by
  have hg : GroupingList.Groups ⟨⟨links, {}⟩, size, 0⟩ [] := by
    refine ⟨⟨rfl, rfl, rfl, trivial⟩, ?_, .nil, rfl⟩
    intro t ht
    cases ht
  have hnd : (Span.cells ⟨addr, bytes⟩ ++ (spans size []).cells).Nodup := by
    simpa [spans] using Span.nodup_cells
  obtain ⟨g, l, heq, hg', hjoin⟩ := freeBytes_eq (h := SimpleHeap.mk ⟨⟨links, {}⟩, size, 0⟩ word)
    (t := ⟨addr, bytes⟩) hg haddr hbytes hnd
  have hcells := hjoin.cells
  rw [show (spans size []).cells = [] from rfl, List.append_nil] at hcells
  refine ⟨_, l, heq, hg', hcells, hjoin.unmerged ?_ (Nat.lt_of_lt_of_le (by decide) hbytes),
    hjoin.le_size hbytes ?_, ?_⟩
  all_goals
    intro t ht
    cases ht

/-- No block and no range is empty. -/
theorem pos_size (hp : h.Partitions c addr bytes l blocks) {t : Span}
    (ht : t ∈ blocks ++ spans h.list.size l) : 0 < t.size := by
  have hpos : 0 < elementBytes := by decide
  cases List.mem_append.mp ht with
  | inl hb => exact Nat.lt_of_lt_of_le hpos (hp.marked t hb).large
  | inr ht => exact Nat.lt_of_lt_of_le hpos (hp.large t ht)

/-- All of them are apart. -/
theorem pairwise_apart (hp : h.Partitions c addr bytes l blocks) :
    (blocks ++ spans h.list.size l).Pairwise Span.Apart :=
  List.pairwise_apart hp.nodup fun _ => hp.pos_size

/-- The program writes to its own memory. -/
theorem overwrite (hp : h.Partitions c addr bytes l blocks)
    (hw : h.Overwritten c blocks h') : h'.Partitions c addr bytes l blocks := by
  -- an element of the list lies in a free group, apart from every block, so the writes spare it
  have hsame (e : Nat) (he : e ∈ l) := hw.elements e fun b hb => by
    have hmem := GroupingList.mem_spans_of_mem h.list.size he
    have hapart := (List.pairwise_append.mp hp.pairwise_apart).2.2 b hb _ hmem
    have hlarge := hp.large _ hmem
    unfold Span.Apart Span.stop at *
    dsimp only at *
    omega
  have hspans : spans h'.list.size l = spans h.list.size l :=
    List.map_congr_left fun e he => by rw [(hsame e he).2.2]
  have hrep : h'.list.list.Represents l := by
    have hrep := hp.groups.represents
    refine ⟨?_, ?_, ?_, hrep.linked.congr fun e he => ⟨(hsame e he).1, (hsame e he).2.1⟩⟩
    · exact (congrArg ListHeader.size hw.header).trans hrep.size
    · exact (congrArg ListHeader.head hw.header).trans hrep.head
    · exact (congrArg ListHeader.tail hw.header).trans hrep.tail
  constructor
  · refine ⟨hrep, ?_, ?_, ?_⟩
    · rw [hspans]
      exact hp.groups.pos
    · rw [hspans]
      exact hp.groups.nodup
    · rw [hspans, hw.groupedSize]
      exact hp.groups.total
  · rw [hspans]
    exact hp.cells
  · rw [hspans]
    exact hp.unmerged
  · rw [hspans]
    exact hp.large
  · exact fun b hb => (hp.marked b hb).congr (hw.words b hb)

end Partitions

end SimpleHeap

/-! ## Runs -/

namespace HeapState

/-- The region is the live blocks and the free chunks. -/
def Partitioned (c : HeapConfig) (addr bytes : Nat) (σ : HeapState) : Prop :=
  ∃ h l, σ.heap = some h ∧ h.Partitions c addr bytes l σ.blocks

/-- Every step keeps the memory partitioned. -/
theorem Partitioned.step (h : σ.Partitioned c addr bytes) (haddr : 0 < addr) {a : HeapAction}
    (ha : σ.CanAct c a) : (σ.step c a).Partitioned c addr bytes := by
  obtain ⟨h, l, heq, hp⟩ := h
  cases a with
  | alloc n =>
    -- the request is refused, or it becomes a new block
    rcases hp.alloc n with halloc | ⟨b, h', l', halloc, hsize, hp'⟩
    · have hbind : σ.heap.bind (·.alloc c n) = some (none, h) := by
        rw [heq, Option.bind_some, halloc]
      simp only [HeapState.step, hbind]
      exact ⟨h, l, rfl, hp⟩
    · have hbind : σ.heap.bind (·.alloc c n) = some (some (b.start + c.headerBytes), h') := by
        rw [heq, Option.bind_some, halloc]
      simp only [HeapState.step, hbind, Nat.add_sub_cancel, ← hsize]
      exact ⟨h', l', rfl, hp'⟩
  | free ptr =>
    obtain ⟨b, hb, rfl⟩ := ha
    -- the block that is freed is the one behind whose header the pointer is
    obtain ⟨x, l₁, l₂, -, hx, hblocks, herase⟩ := List.exists_of_eraseP
      (p := fun x => decide (x.start + c.headerBytes = b.start + c.headerBytes)) hb
      (decide_eq_true rfl)
    have hperm : σ.blocks.Perm (x :: (l₁ ++ l₂)) := by
      rw [hblocks]
      exact List.perm_middle
    obtain ⟨h', l', hfree, hp'⟩ := (hp.perm hperm).free haddr
    refine ⟨h', l', ?_, ?_⟩
    · show σ.heap.bind (·.free c (b.start + c.headerBytes)) = some h'
      rw [heq, Option.bind_some, ← hfree, ← of_decide_eq_true hx]
    · show h'.Partitions c addr bytes l' (σ.blocks.eraseP _)
      rwa [herase]
  | overwrite h' =>
    -- the program writes into its blocks only
    obtain ⟨h₀, heq', hw⟩ := ha
    obtain rfl := Option.some.inj (heq.symm.trans heq')
    exact ⟨h', l, rfl, hp.overwrite hw⟩

/-- Where everything in the region is. -/
structure Sound (addr bytes : Nat) (σ : HeapState) (h : SimpleHeap) (chunks : List Span) :
    Prop where
  heap : σ.heap = some h
  listed : ∃ l, h.list.list.Represents l ∧ chunks = spans h.list.size l
  disjoint : (σ.blocks ++ chunks).Pairwise Span.Apart
  inside : ∀ t ∈ σ.blocks ++ chunks, addr ≤ t.start ∧ t.stop ≤ addr + bytes
  conserved : h.list.groupedSize + (σ.blocks.map Span.size).sum = bytes
  large : ∀ t ∈ chunks, elementBytes ≤ t.size
  unmerged : ∀ s ∈ chunks, ∀ t ∈ chunks, s.stop ≠ t.start
  total : (chunks.map Span.size).sum = h.list.groupedSize

/-- A partitioned memory is sound. -/
theorem Partitioned.sound (h : σ.Partitioned c addr bytes) :
    ∃ h chunks, σ.Sound addr bytes h chunks := by
  obtain ⟨h, l, heq, hp⟩ := h
  have hsum : h.list.groupedSize = ((spans h.list.size l).map Span.size).sum := by
    rw [hp.groups.total, List.length_cells]
  refine ⟨h, spans h.list.size l, heq, ⟨l, hp.groups.represents, rfl⟩, hp.pairwise_apart, ?_, ?_,
    hp.large, hp.unmerged, hsum.symm⟩
  · intro t ht
    have hin (x : Nat) (hx : x ∈ t.cells) : addr ≤ x ∧ x < addr + bytes := by
      have hmem := hp.cells.mem_iff.mp (List.mem_cells.mpr ⟨t, ht, hx⟩)
      rwa [Span.mem_cells] at hmem
    have hpos := hp.pos_size ht
    have hstart := hin t.start (Span.start_mem hpos)
    have hlast := hin (t.start + t.size - 1) (by rw [Span.mem_cells, Span.stop]; omega)
    unfold Span.stop
    omega
  · have hlen := hp.cells.length_eq
    rw [List.cells_append, List.length_append, List.length_cells, List.length_cells,
      Span.length_cells, ← hsum] at hlen
    rw [Nat.add_comm]
    exact hlen

end HeapState

/-- In every reachable state the live blocks and the free chunks are sub-ranges of the region
    that do not overlap and lose nothing of it, and every chunk has room for its element and
    no other next to it. -/
theorem heap_sound (c : HeapConfig) (addr bytes : Nat) (σ : HeapState)
    (h : (heapOver c addr bytes).Reachable σ) : ∃ h chunks, σ.Sound addr bytes h chunks := by
  have hinv : σ.Partitioned c addr bytes ∧ 0 < addr := by
    apply h.invariant (I := fun σ => σ.Partitioned c addr bytes ∧ 0 < addr)
    · intro σ hinit
      obtain ⟨haddr, hbytes, -, hblocks, links, size, word, hheap⟩ := hinit
      obtain ⟨h, l, heq, hp⟩ := SimpleHeap.Partitions.of_freeBytes (c := c) links size
        word haddr hbytes
      exact ⟨⟨h, l, hheap.trans heq, hblocks ▸ hp⟩, haddr⟩
    · exact fun σ a h ha => ⟨h.1.step h.2 ha, h.2⟩
  exact hinv.1.sound

/-- A heap of 256 bytes among several heaps. -/
def smallHeap : HeapState where
  heap := (SimpleHeap.mk ⟨⟨⟨fun _ => none, fun _ => none⟩, {}⟩, fun _ => 0, 0⟩
    fun _ => 0).freeBytes 4096 256

def smallConfig : HeapConfig := ⟨true, false, 64⟩

/-- Three blocks, of which two are freed. -/
theorem heap_sound_example :
    ∃ h chunks, ((heapOver smallConfig 4096 256).run smallHeap
      [.alloc 10, .alloc 100, .alloc 1, .free 4340, .free 4216]).Sound 4096 256 h chunks := by
  have hinit : (heapOver smallConfig 4096 256).Init smallHeap :=
    ⟨by decide, by decide, by decide, rfl, _, _, _, rfl⟩
  have halloc (σ : HeapState) (n : Nat) (h : 16 + smallConfig.blockBytes n < 2 ^ 32) :
      (heapOver smallConfig 4096 256).Enabled σ (.alloc n) := h
  have hfree (σ : HeapState) (b : Span) (h : b ∈ σ.blocks) :
      (heapOver smallConfig 4096 256).Enabled σ (.free (b.start + 8)) := ⟨b, h, rfl⟩
  refine heap_sound _ _ _ _ (TransitionSystem.Valid.reachable ?_ (.init hinit))
  exact ⟨halloc _ 10 (by decide), halloc _ 100 (by decide), halloc _ 1 (by decide),
    hfree _ ⟨4332, 20⟩ (by decide), hfree _ ⟨4208, 16⟩ (by decide), trivial⟩

end Epos
