import Epos.Kernel.WrappingHeap
import Epos.Spec.GroupingListsCorrect

/-!
# The size of what `alloc` returns

Which requests a heap serves with a block that is large enough and inside the chunk that it
was cut from, for the sums of 32 bits that `alloc` and `search_size` compute.
-/

namespace Epos

variable {α : Type*} [DecidableEq α] {c : HeapConfig} {h : WrappingHeap α} {l : List α}
  {n : Nat}

/-! ## The bytes that are searched for -/

namespace HeapConfig

/-- The loop ends, with the next multiple of a word. -/
theorem alignBytes_eq {k : Nat} (hk : (wordBytes - n % wordBytes) % wordBytes ≤ k)
    (hn : n < 2 ^ 32) :
    alignBytes k n = (n + (wordBytes - n % wordBytes) % wordBytes) % 2 ^ 32 := by
  induction k generalizing n with
  | zero =>
    rw [Nat.le_zero.mp hk, Nat.add_zero, Nat.mod_eq_of_lt hn]
    rfl
  | succ k ih =>
    unfold wordBytes at *
    by_cases haligned : n % 4 = 0
    · have hsame : (n + (4 - n % 4) % 4) % 2 ^ 32 = n := by omega
      rw [hsame]
      exact if_neg (Decidable.not_not.mpr haligned)
    · have hstep : alignBytes (k + 1) n = alignBytes k ((n + 1) % 2 ^ 32) := if_pos haligned
      rw [hstep, ih (by omega) (Nat.mod_lt _ (by decide))]
      omega

/-- A block has room for its header and for the request. -/
theorem le_blockBytes_header : c.headerBytes + n ≤ c.blockBytes n := by
  unfold blockBytes wordBytes elementBytes
  dsimp only
  split <;> omega

/-- The header has one word, or two in a typed heap. -/
theorem headerBytes_eq : c.headerBytes = if c.typed then 8 else 4 := rfl

/-- A sum that does not fit wraps to less than the least block. -/
theorem requestBytes_eq (hn : n < 2 ^ 32) :
    c.requestBytes n = if c.blockBytes n < 2 ^ 32 then c.blockBytes n else elementBytes := by
  unfold requestBytes blockBytes
  rw [alignBytes_eq (Nat.mod_lt _ (by decide)).le hn, headerBytes_eq]
  unfold wordBytes elementBytes
  cases c.typed <;> cases c.unaligned <;> simp only [if_true, if_false, Bool.false_eq_true] <;>
    split_ifs <;> omega

/-- A sum that does not fit is not of a small request. -/
theorem blockBytes_le : c.blockBytes n ≤ n + 16 := by
  unfold blockBytes wordBytes elementBytes
  rw [headerBytes_eq]
  dsimp only
  split <;> split <;> omega

/-- A header has two words at most. -/
theorem headerBytes_le : c.headerBytes ≤ 8 := by
  rw [headerBytes_eq]
  split <;> omega

/-- What is asked of the list has room for an element. -/
theorem requestBytes_bounds (hn : n < 2 ^ 32) :
    elementBytes ≤ c.requestBytes n ∧ c.requestBytes n < 2 ^ 32 := by
  rw [requestBytes_eq hn]
  split
  · exact ⟨Nat.le_max_right _ _, ‹_›⟩
  · exact ⟨Nat.le_refl _, by decide⟩

/-- `block` is in `chunk`, with `n` bytes after its header. -/
structure Carves (c : HeapConfig) (n : Nat) (chunk block : Span) : Prop where
  room : c.headerBytes + n ≤ block.size
  start_le : chunk.start ≤ block.start
  stop_le : block.stop ≤ chunk.stop

/-- What the chunks have to be for `alloc(n)`. When the header does not fit in 32 bits, none
    may have the bytes of an element that are searched for. When the element that the search
    adds does not, the first one that passes has to be large enough. -/
def Suits (c : HeapConfig) (n : Nat) (sizes : List Nat) : Prop :=
  if 2 ^ 32 ≤ c.blockBytes n then ∀ m ∈ sizes, m ≠ elementBytes ∧ m < elementBytes + elementBytes
  else c.blockBytes n + elementBytes < 2 ^ 32 ∨
    ∀ m ∈ sizes.find? (c.blockBytes n + elementBytes ≤ 2 ^ 32 + ·), c.blockBytes n ≤ m

end HeapConfig

/-- When a range is taken for so many bytes. -/
theorem fits_char {s m : Nat} :
    Grouping.fits charSizes s m ↔ (elementBytes + s) % 2 ^ 32 ≤ m ∨ m = s := by
  have hdiv : charSizes.element / charSizes.object = elementBytes := Nat.div_one _
  have hlt : charSizes.object < charSizes.element := by decide
  unfold Grouping.fits
  rw [if_pos hlt, hdiv, decide_eq_true_eq]
  omega

namespace WrappingHeap

/-! ## The search -/

omit [DecidableEq α] in
/-- `l` are the elements of the free chunks, all of which are in memory. -/
structure Free (h : WrappingHeap α) (l : List α) : Prop where
  represents : h.list.list.Represents l
  pos : ∀ e ∈ l, 0 < h.list.object e
  stop_le : ∀ e ∈ l, h.list.object e + h.list.size e ≤ 2 ^ 32

omit [DecidableEq α] in
/-- The heap over the list of a run of insertions and searches. -/
theorem free_of_agree {r : GroupingRun α} (hagree : r.Agree) (hinv : r.ranges.Inv charSizes)
    (word : Nat → Nat) : ∃ g, r.linked = some g ∧ Free ⟨g, word⟩ r.ranges.list := by
  obtain ⟨-, g, -, hlinked, -, hrep, -⟩ := hagree
  refine ⟨g, hlinked, hrep.list, fun e he => ?_, fun e he => ?_⟩
  · show 0 < g.object e
    rw [hrep.grouping]
    exact (hinv.bounds he).1
  · show g.object e + g.size e ≤ 2 ^ 32
    rw [hrep.grouping, ← Nat.one_mul (r.ranges.size e)]
    exact (hinv.bounds he).2

/-- The search takes the first range that fits. -/
theorem Free.search (hfree : h.Free l) (s : Nat) :
    ∃ g, h.list.searchDecrementing charSizes s =
        some (.taken (l.find? fun e => Grouping.fits charSizes s (h.list.size e)), g) ∧
      ∀ e ∈ l.find? fun e => Grouping.fits charSizes s (h.list.size e),
        g.object = h.list.object ∧ g.size e = Grouping.minus (h.list.size e) s := by
  let ranges : FreeRanges α := ⟨h.list.toGrouping, l⟩
  have hrep : h.list.Represents ranges := ⟨rfl, hfree.represents⟩
  obtain ⟨g, heq, hg⟩ := hrep.searchDecrementing (z := charSizes) (s := s)
  refine ⟨g, heq, fun e he => ?_⟩
  have hgrouping := hg.grouping
  have hfind : ranges.list.find? (fun e => Grouping.fits charSizes s (ranges.size e)) = some e := he
  unfold FreeRanges.searchDecrementing at hgrouping
  rw [hfind] at hgrouping
  have hshrink : g.toGrouping = h.list.shrink e s := hgrouping
  constructor
  · rw [hshrink]
    rfl
  · rw [hshrink]
    exact Function.update_self ..

/-! ## The header -/

variable {g : LinkedGroupingList α} {e : α} {bytes : Nat}

omit [DecidableEq α] in
/-- Writing the header leaves the list alone. -/
theorem header_some_list : (h.header c g bytes (some e)).2.list = g := rfl

omit [DecidableEq α] in
/-- The address that is returned is behind the header. -/
theorem header_some_fst : (h.header c g bytes (some e)).1 =
    some (((g.object e + g.size e) % 2 ^ 32 + c.headerBytes) % 2 ^ 32) := by
  have hbytes := c.headerBytes_eq
  unfold header
  cases htyped : c.typed with
  | true =>
    rw [htyped, if_pos rfl] at hbytes
    rw [hbytes]
    simp only [if_true, wordBytes, Option.some.injEq]
    omega
  | false =>
    rw [htyped, if_neg Bool.false_ne_true] at hbytes
    rw [hbytes]
    rfl

omit [DecidableEq α] in
/-- The size is right before what is returned. -/
theorem header_some_word (hlt : (g.object e + g.size e) % 2 ^ 32 + c.headerBytes < 2 ^ 32) :
    (h.header c g bytes (some e)).2.word
      ((g.object e + g.size e) % 2 ^ 32 + c.headerBytes - wordBytes) = bytes := by
  have hbytes := c.headerBytes_eq
  unfold header
  cases htyped : c.typed with
  | true =>
    rw [htyped, if_pos rfl] at hbytes
    rw [hbytes] at hlt ⊢
    have haddr : (g.object e + g.size e) % 2 ^ 32 + 8 - wordBytes =
        ((g.object e + g.size e) % 2 ^ 32 + wordBytes) % 2 ^ 32 := by
      unfold wordBytes
      omega
    rw [haddr]
    exact Function.update_self ..
  | false =>
    rw [htyped, if_neg Bool.false_ne_true] at hbytes
    rw [hbytes]
    exact Function.update_self ..

/-! ## What `alloc` returns -/

/-- A null pointer, or a block with `n` bytes after its header that is in the chunk which the
    search returned. -/
def AllocSound (c : HeapConfig) (h : WrappingHeap α) (n : Nat) : Prop :=
  ∃ p h', h.alloc c n = some (p, h') ∧ ∀ ptr ∈ p, ∃ e block,
    h.list.searchDecrementing charSizes (c.requestBytes n) = some (.taken (some e), h'.list) ∧
    ptr = block.start + c.headerBytes ∧ h'.word (ptr - wordBytes) = block.size ∧
    c.Carves n ⟨h.list.object e, h.list.size e⟩ block

/-- `alloc()` searches and writes the header. -/
theorem alloc_eq (hn : 0 < n) {r : Option α}
    (hsearch : h.list.searchDecrementing charSizes (c.requestBytes n) = some (.taken r, g)) :
    h.alloc c n = some (h.header c g (c.requestBytes n) r) := by
  unfold alloc
  rw [if_neg hn.ne']
  dsimp only
  rw [hsearch]

/-- Where nothing fits `alloc()` returns null. -/
theorem allocSound_of_none (hfree : h.Free l) (hn : 0 < n)
    (hfind : l.find? (fun e => Grouping.fits charSizes (c.requestBytes n) (h.list.size e)) = none) :
    h.AllocSound c n := by
  obtain ⟨g, hsearch, -⟩ := hfree.search (c.requestBytes n)
  rw [hfind] at hsearch
  refine ⟨none, _, alloc_eq hn hsearch, fun ptr hptr => ?_⟩
  cases hptr

/-- The block is as large as what was searched for, and behind what is left of the chunk. -/
theorem allocSound_iff_of_some (hfree : h.Free l) (hn : 0 < n) (hlt : n < 2 ^ 32)
    (hfind : l.find? (fun e => Grouping.fits charSizes (c.requestBytes n) (h.list.size e)) =
      some e) :
    h.AllocSound c n ↔
      c.headerBytes + n ≤ c.requestBytes n ∧ c.requestBytes n ≤ h.list.size e := by
  obtain ⟨g, hsearch, hg⟩ := hfree.search (c.requestBytes n)
  rw [hfind] at hsearch hg
  obtain ⟨hobject, hsize⟩ := hg e rfl
  have he : e ∈ l := List.mem_of_find?_eq_some hfind
  have hpos := hfree.pos e he
  have hstop := hfree.stop_le e he
  have hheader := c.headerBytes_le
  obtain ⟨hge, hlt'⟩ := c.requestBytes_bounds hlt
  unfold elementBytes at hge
  have halloc := alloc_eq hn hsearch
  have hfst : (h.header c g (c.requestBytes n) (some e)).1 = _ := header_some_fst
  have hword : _ → (h.header c g (c.requestBytes n) (some e)).2.word _ = _ := header_some_word
  have hlist : (h.header c g (c.requestBytes n) (some e)).2.list = g := header_some_list
  have haddr : (g.object e + g.size e) % 2 ^ 32 =
      (h.list.object e + Grouping.minus (h.list.size e) (c.requestBytes n)) % 2 ^ 32 := by
    rw [hobject, hsize]
  generalize (g.object e + g.size e) % 2 ^ 32 = addr at hfst hword haddr
  unfold Grouping.minus at haddr
  generalize h.header c g (c.requestBytes n) (some e) = q at halloc hfst hword hlist
  obtain ⟨p₀, h₀⟩ := q
  dsimp only at hfst hword hlist
  constructor
  · intro ⟨p, h', heq, hall⟩
    obtain ⟨rfl, rfl⟩ := Prod.mk.inj (Option.some.inj (halloc.symm.trans heq))
    obtain ⟨e', block, hsearch', hptr, hsize', hroom, hstart, hend⟩ := hall _ hfst
    have hsame : e' = e := by
      have hreport := congrArg Prod.fst (Option.some.inj (hsearch.symm.trans hsearch'))
      injection hreport with hreport
      exact (Option.some.inj hreport).symm
    subst hsame
    dsimp only at hstart
    unfold Span.stop at hend
    dsimp only at hend
    -- A pointer that wrapped would not be behind the start of the chunk.
    have hnowrap : addr + c.headerBytes < 2 ^ 32 := by omega
    rw [Nat.mod_eq_of_lt hnowrap] at hptr hsize'
    rw [hword hnowrap] at hsize'
    omega
  · intro ⟨hroom, hle⟩
    -- The block ends where the chunk does.
    have hrest : addr = h.list.object e + (h.list.size e - c.requestBytes n) := by omega
    have hnowrap : addr + c.headerBytes < 2 ^ 32 := by omega
    rw [Nat.mod_eq_of_lt hnowrap] at hfst
    refine ⟨_, _, halloc, fun ptr hptr => ?_⟩
    have hptr' : ptr = addr + c.headerBytes := Option.some.inj (hptr.symm.trans hfst)
    refine ⟨e, ⟨addr, c.requestBytes n⟩, hlist ▸ hsearch, hptr', ?_, hroom, ?_, ?_⟩
    · rw [hptr']
      exact hword hnowrap
    · dsimp only
      omega
    · unfold Span.stop
      dsimp only
      omega

end WrappingHeap

/-! ## The exact condition -/

omit [DecidableEq α] in
/-- Nothing passes the search where the chunks suit. -/
theorem HeapConfig.suits_of_none {size : α → Nat} (hlt : n < 2 ^ 32)
    (hfind : l.find? (fun e => Grouping.fits charSizes (c.requestBytes n) (size e)) = none) :
    c.Suits n (l.map size) := by
  have hnone := List.find?_eq_none.mp hfind
  have hrequest := c.requestBytes_eq hlt
  unfold Suits
  by_cases hwraps : 2 ^ 32 ≤ c.blockBytes n
  · -- The size of an element is searched for.
    rw [if_neg (Nat.not_lt.mpr hwraps)] at hrequest
    rw [if_pos hwraps]
    intro m hm
    obtain ⟨e, he, rfl⟩ := List.mem_map.mp hm
    have hfits := hnone e he
    rw [hrequest, fits_char] at hfits
    unfold elementBytes at *
    omega
  · rw [if_pos (Nat.not_le.mp hwraps)] at hrequest
    rw [if_neg hwraps]
    by_cases hslack : c.blockBytes n + elementBytes < 2 ^ 32
    · exact .inl hslack
    refine .inr fun m hm => ?_
    obtain ⟨e, he, rfl⟩ := List.mem_map.mp (List.mem_of_find?_eq_some hm)
    have hpasses := of_decide_eq_true (List.find?_some
      (p := fun m => decide (c.blockBytes n + elementBytes ≤ 2 ^ 32 + m)) hm)
    have hfits := hnone e he
    rw [hrequest, fits_char] at hfits
    unfold elementBytes at *
    omega

omit [DecidableEq α] in
/-- Where something fits it suits if it has room and its address does not wrap. -/
theorem HeapConfig.suits_iff_of_some {size : α → Nat} {e : α} (hn : 0 < n) (hlt : n < 2 ^ 32)
    (hfind : l.find? (fun e => Grouping.fits charSizes (c.requestBytes n) (size e)) = some e) :
    c.Suits n (l.map size) ↔
      c.headerBytes + n ≤ c.requestBytes n ∧ c.requestBytes n ≤ size e := by
  have he : e ∈ l := List.mem_of_find?_eq_some hfind
  have hfits : Grouping.fits charSizes (c.requestBytes n) (size e) :=
    List.find?_some (p := fun e => Grouping.fits charSizes (c.requestBytes n) (size e)) hfind
  have hrequest := c.requestBytes_eq hlt
  have hroom := c.le_blockBytes_header (n := n)
  unfold Suits
  by_cases hwraps : 2 ^ 32 ≤ c.blockBytes n
  · rw [if_neg (Nat.not_lt.mpr hwraps)] at hrequest
    rw [hrequest, fits_char] at hfits
    rw [if_pos hwraps, hrequest]
    have hlarge := c.blockBytes_le (n := n)
    unfold elementBytes at *
    constructor
    · intro hall
      have hsize := hall (size e) (List.mem_map_of_mem he)
      omega
    · omega
  · rw [if_pos (Nat.not_le.mp hwraps)] at hrequest
    rw [if_neg hwraps, hrequest]
    by_cases hslack : c.blockBytes n + elementBytes < 2 ^ 32
    · -- What passes has room for an element besides, or is as large as requested.
      rw [hrequest, fits_char] at hfits
      refine iff_of_true (.inl hslack) ⟨hroom, ?_⟩
      unfold elementBytes at *
      omega
    · -- `16 + bytes` wraps, and a chunk of `bytes` bytes passes anyway.
      have hfind' : (l.map size).find? (c.blockBytes n + elementBytes ≤ 2 ^ 32 + ·) =
          some (size e) := by
        rw [List.find?_map, Option.map_eq_some_iff]
        refine ⟨e, ?_, rfl⟩
        rw [← hfind]
        congr 1
        funext x
        rw [Function.comp_apply, Bool.eq_iff_iff, decide_eq_true_eq, hrequest, fits_char]
        unfold elementBytes at *
        omega
      rw [hfind']
      constructor
      · intro hor
        exact ⟨hroom, hor.resolve_left hslack _ rfl⟩
      · intro hboth
        refine .inr fun m hm => ?_
        rw [← Option.some.inj hm]
        exact hboth.2

/-- Every free list and every request: `alloc(n)` returns a null pointer or a large enough
    block of the chunk exactly if the chunks suit. -/
theorem alloc_sound_iff (hfree : h.Free l) (hn : 0 < n) (hlt : n < 2 ^ 32) :
    h.AllocSound c n ↔ c.Suits n (l.map h.list.size) := by
  cases hfind : l.find? fun e => Grouping.fits charSizes (c.requestBytes n) (h.list.size e) with
  | none =>
    exact iff_of_true (WrappingHeap.allocSound_of_none hfree hn hfind)
      (HeapConfig.suits_of_none hlt hfind)
  | some e =>
    rw [WrappingHeap.allocSound_iff_of_some hfree hn hlt hfind,
      HeapConfig.suits_iff_of_some hn hlt hfind]

/-- A heap of one free chunk. -/
def oneChunk (start size : Nat) : WrappingHeap Nat where
  list := ⟨⟨fun _ => start, fun _ => size, size⟩,
    ⟨⟨fun _ => none, fun _ => none⟩, ⟨1, some 0, some 0⟩⟩⟩
  word := fun _ => 0

/-- A heap with one free range. -/
theorem oneChunk_free {start size : Nat} (hpos : 0 < start) (hstop : start + size ≤ 2 ^ 32) :
    (oneChunk start size).Free [0] where
  represents := ⟨rfl, rfl, rfl, rfl, rfl, trivial⟩
  pos := fun _ _ => hpos
  stop_le := fun _ _ => hstop

/-- Ten bytes from a range of 256. -/
theorem alloc_sound_iff_example :
    (oneChunk 0x1000 256).AllocSound ⟨true, false, 64⟩ 10 := by
  have hfree : (oneChunk 0x1000 256).Free [0] := oneChunk_free (by decide) (by decide)
  rw [alloc_sound_iff hfree (by decide) (by decide), HeapConfig.Suits, if_neg (by decide)]
  exact .inl (by decide)

/-- A request of `2 ^ 32 - 1` bytes is rounded up to 0, and served with a block of 16 bytes. -/
theorem not_alloc_sound :
    ¬∀ (c : HeapConfig) (h : WrappingHeap Nat) (l : List Nat) (n : Nat),
      h.Free l → 0 < n → n < 2 ^ 32 → h.AllocSound c n := by
  intro hall
  have hfree : (oneChunk 0x1000 256).Free [0] := oneChunk_free (by decide) (by decide)
  have hsound := hall ⟨true, false, 64⟩ _ _ (2 ^ 32 - 1) hfree (by decide) (by decide)
  have hroom := ((WrappingHeap.allocSound_iff_of_some (e := 0) hfree (by decide) (by decide)
    (by decide +kernel)).mp hsound).1
  exact absurd hroom (by decide +kernel)

end Epos
