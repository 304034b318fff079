import Epos.Kernel.Mmu
import Epos.Spec.GroupingListCorrect
import Mathlib.Algebra.Group.Nat.Defs

/-!
# Frame conservation

As long as what is allocated is there, the free frames and the frames of the chunks, page
tables included, are the same frames at all times, each of them once.
-/

namespace Epos

open GroupingList (spans)

/-! ## Words -/

/-- The entry for a frame. -/
def word (flags : IA32Flags) (f : Nat) : Nat := f * pageBytes ||| flags.bits

/-- An entry is the address of its frame plus the flags. -/
theorem word_eq {flags : IA32Flags} (hflags : flags.bits < pageBytes) (f : Nat) :
    word flags f = pageBytes * f + flags.bits := by
  unfold word
  rw [Nat.mul_comm]
  exact (Nat.two_pow_add_eq_or_of_lt hflags f).symm

/-- The frame of an entry is found above its flags. -/
theorem word_div {flags : IA32Flags} (hflags : flags.bits < pageBytes) (f : Nat) :
    word flags f / pageBytes = f := by
  rw [word_eq hflags, Nat.mul_add_div (by decide), Nat.div_eq_of_lt hflags, Nat.add_zero]

/-- The flags of an entry stay below the frame and are found again. -/
theorem IA32Flags.ofBits_eq (hasRw hasUsr hasCwt hasCd hasCt hasIo : Bool) :
    (ofBits hasRw hasUsr hasCwt hasCd hasCt hasIo).bits < pageBytes ∧
    (ofBits hasRw hasUsr hasCwt hasCd hasCt hasIo).has pre ∧
    (ofBits hasRw hasUsr hasCwt hasCd hasCt hasIo).has ct = hasCt ∧
    (ofBits hasRw hasUsr hasCwt hasCd hasCt hasIo).has io = hasIo := by
  revert hasRw hasUsr hasCwt hasCd hasCt hasIo
  decide

/-! ## Free frames -/

namespace Mmu

variable {m m' : Mmu} {F F' : List Nat} {n : Nat}

/-- The frames `F` are free. -/
def Has (m : Mmu) (F : List Nat) : Prop :=
  ∃ l, m.list.Groups l ∧ (spans m.list.size l).cells.Perm F

/-- There is a range of `n` free frames. -/
def Fits (m : Mmu) (n : Nat) : Prop := m.list.searchSize none n ≠ some none

instance (m : Mmu) (n : Nat) : Decidable (m.Fits n) := inferInstanceAs (Decidable (_ ≠ _))

/-- There is a range of `n` free frames also when `k` frames have been allocated. -/
def FitsAfter (m : Mmu) (k n : Nat) : Prop :=
  ∃ e, m.list.searchSize none k = some (some e) ∧
    (n + k ≤ m.list.size e ∨ m.list.find (fun x => x ≠ e ∧ n ≤ m.list.size x) ≠ some none)

instance (m : Mmu) (k n : Nat) : Decidable (m.FitsAfter k n) :=
  match h : m.list.searchSize none k with
  | some (some e) =>
    decidable_of_iff (n + k ≤ m.list.size e ∨
        m.list.find (fun x => x ≠ e ∧ n ≤ m.list.size x) ≠ some none)
      ⟨fun hor => ⟨e, h, hor⟩, fun ⟨_, h', hor⟩ => by cases h.symm.trans h'; exact hor⟩
  | some none => isFalse fun ⟨_, h', _⟩ => by cases h.symm.trans h'
  | none => isFalse fun ⟨_, h', _⟩ => by cases h.symm.trans h'

/-- The order of the free frames does not matter. -/
theorem Has.perm (h : m.Has F) (hF : F.Perm F') : m.Has F' := by
  obtain ⟨l, hg, hperm⟩ := h
  exact ⟨l, hg, hperm.trans hF⟩

/-- No frame is free twice. -/
theorem Has.nodup (h : m.Has F) : F.Nodup := by
  obtain ⟨l, hg, hperm⟩ := h
  exact hperm.nodup_iff.mp hg.nodup

/-- `groupedSize` counts the free frames. -/
theorem Has.length (h : m.Has F) : F.length = m.list.groupedSize := by
  obtain ⟨l, hg, hperm⟩ := h
  rw [hg.total, hperm.length_eq]

/-- Which frames are free only depends on the list. -/
theorem Has.congr (h : m.Has F) (hlist : m'.list = m.list) : m'.Has F := by
  unfold Has
  rwa [hlist]

/-- A request fits when some span is long enough. -/
theorem fits_iff {l : List Nat} (hg : m.list.Groups l) :
    m.Fits n ↔ ∃ t ∈ spans m.list.size l, n ≤ t.size := by
  unfold Fits GroupingList.searchSize
  rw [GroupingList.find_eq hg.represents, ne_eq, Option.some.injEq, List.find?_eq_none]
  constructor
  · intro h
    by_contra hno
    refine h fun e he hfits => hno ⟨_, GroupingList.mem_spans_of_mem _ he, ?_⟩
    exact GroupingList.le_of_fits hfits
  · intro h hno
    obtain ⟨t, ht, hle⟩ := h
    obtain ⟨hmem, hsize⟩ := GroupingList.mem_spans.mp ht
    refine hno t.start hmem ?_
    simp only [GroupingList.fits, decide_eq_true_eq]
    omega

/-- A single frame can be had as long as one is free. -/
theorem Has.fits_one (h : m.Has F) (hF : F ≠ []) : m.Fits 1 := by
  obtain ⟨l, hg, hperm⟩ := h
  rw [fits_iff hg]
  obtain ⟨f, hf⟩ := List.exists_mem_of_ne_nil F hF
  obtain ⟨t, ht, -⟩ := List.mem_cells.mp (hperm.mem_iff.mpr hf)
  exact ⟨t, ht, hg.pos t ht⟩

/-! ### Allocation -/

/-- `alloc(0)` returns 0 and takes nothing. -/
theorem alloc_zero : m.alloc 0 = some (0, m) := rfl

/-- Consecutive frames are taken. -/
theorem Has.alloc (h : m.Has F) (hn : n ≠ 0) (hfits : m.Fits n) :
    ∃ f m' F', m.alloc n = some (f * pageBytes, m') ∧ m'.entry = m.entry ∧ m'.Has F' ∧
      F.Perm (List.range' f n ++ F') := by
  obtain ⟨l, hg, hperm⟩ := h
  obtain ⟨t, ht, hle⟩ := (fits_iff hg).mp hfits
  unfold Mmu.alloc
  rw [if_neg hn]
  rcases hg.searchDecrementing none n with ⟨-, hnone⟩ | ⟨e, g, l', heq, -, hg', -, hcut⟩
  · refine absurd ?_ (hnone t ht)
    simp only [GroupingList.fits, decide_eq_true_eq]
    omega
  · simp only [heq, Option.bind_eq_bind, Option.bind_some]
    exact ⟨_, _, _, rfl, rfl, ⟨l', hg', .refl _⟩, hperm.symm.trans hcut.cells⟩

/-- Where no span is long enough `alloc()` returns 0 and takes nothing. -/
theorem Has.alloc_none (h : m.Has F) (hfits : ¬m.Fits n) : m.alloc n = some (0, m) := by
  obtain ⟨l, hg, -⟩ := h
  unfold Mmu.alloc
  by_cases hn : n = 0
  · exact if_pos hn
  · rw [if_neg hn]
    rcases hg.searchDecrementing none n with ⟨heq, -⟩ | ⟨e, g, l', heq, -, -, -, hcut⟩
    · simp only [heq, Option.bind_eq_bind, Option.bind_some]
    · obtain ⟨T, hT, -⟩ := hcut
      refine absurd ((fits_iff hg).mpr ⟨_, hT.mem_iff.mpr List.mem_cons_self, ?_⟩) hfits
      exact Nat.le_add_left _ _

/-- When the range that `alloc(k)` takes from is not too small for both, or there is another
    one, there are `n` frames left in a range. -/
theorem Has.fits_after {k a : Nat} (h : m.Has F) (hk : k ≠ 0) (hn : n ≠ 0)
    (hafter : m.FitsAfter k n) (heq : m.alloc k = some (a, m')) : m'.Fits n := by
  obtain ⟨l, hg, -⟩ := h
  obtain ⟨e, hsearch, hor⟩ := hafter
  have hfits : m.Fits k := by
    unfold Fits
    rw [hsearch]
    exact nofun
  unfold Mmu.alloc at heq
  rw [if_neg hk] at heq
  -- the first request fits, so it is taken from `x`
  rcases hg.searchDecrementing none k with ⟨-, hnone⟩ | ⟨x, g, l', halloc, hx, hg', -, hcut⟩
  · obtain ⟨t, ht, hle⟩ := (fits_iff hg).mp hfits
    refine absurd ?_ (hnone t ht)
    simp only [GroupingList.fits, decide_eq_true_eq]
    omega
  · obtain rfl : x = e := by simpa [hsearch, eq_comm] using hx
    simp only [halloc, Option.bind_eq_bind, Option.bind_some] at heq
    cases heq
    rw [fits_iff hg']
    -- the second one fits into the rest of `x` or into another range
    cases hor with
    | inl hle =>
      have hsize : m.list.size x = g.size x + k := by
        obtain ⟨T, hT, -⟩ := hcut
        exact (GroupingList.mem_spans.mp (hT.mem_iff.mpr List.mem_cons_self)).2.symm
      exact ⟨_, hcut.rest_mem (by omega), by dsimp only; omega⟩
    | inr hother =>
      rw [GroupingList.find_eq hg.represents, ne_eq, Option.some.injEq,
        List.find?_eq_none] at hother
      by_contra hno
      refine hother fun y hy hp => hno ?_
      obtain ⟨hne, hle⟩ := of_decide_eq_true hp
      exact ⟨_, hcut.mem_of_ne (GroupingList.mem_spans_of_mem _ hy) hne, hle⟩

/-! ### Freeing -/

/-- Consecutive frames become free. -/
theorem Has.free {w f : Nat} (h : m.Has F) (hw : indexes w = f * pageBytes)
    (hf : n ≠ 0 → f ≠ 0) (hnd : (List.range' f n ++ F).Nodup) :
    ∃ m', m.free w n = some m' ∧ m'.entry = m.entry ∧ m'.Has (List.range' f n ++ F) := by
  unfold Mmu.free
  rw [hw]
  by_cases hn : n = 0
  · subst hn
    exact ⟨m, by simp, rfl, h⟩
  · obtain ⟨l, hg, hperm⟩ := h
    have hdiv : f * pageBytes / pageBytes = f := Nat.mul_div_cancel f (by decide)
    have hpos : f * pageBytes ≠ 0 := Nat.mul_ne_zero (hf hn) (by decide)
    have hnd' : (Span.cells ⟨f, n⟩ ++ (spans m.list.size l).cells).Nodup :=
      ((hperm.append_left _).nodup_iff).mpr hnd
    obtain ⟨g, l', heq, hg', hjoin⟩ :=
      hg.construct_insertMerging (t := ⟨f, n⟩) (Nat.pos_of_ne_zero hn) hnd'
    simp only [hdiv, if_pos (And.intro hpos hn), heq, Option.map_some]
    exact ⟨_, rfl, rfl, l', hg', hjoin.cells.trans (hperm.append_left _)⟩

/-! ## Page tables -/

/-- The entries of other frames than those in `W` are the same. -/
def SameOff (W : List Nat) (m m' : Mmu) : Prop :=
  ∀ a, a / ptEntries ∉ W → m'.entry a = m.entry a

/-- The entries from `i` on are for the frames in `fs`, and all others are the same. -/
structure Maps (m m' : Mmu) (pt i : Nat) (flags : IA32Flags) (fs : List Nat) : Prop where
  entries : (List.range' i fs.length).map (m'.readEntry pt) = fs.map (word flags)
  others : ∀ a, a < pt / entryBytes + i ∨ pt / entryBytes + i + fs.length ≤ a →
    m'.entry a = m.entry a

/-- No entry is mapped. -/
theorem Maps.nil (m : Mmu) (pt i : Nat) (flags : IA32Flags) : m.Maps m pt i flags [] :=
  ⟨rfl, fun _ _ => rfl⟩

/-- What is mapped only depends on the entries before. -/
theorem Maps.of_entry {m₁ : Mmu} {pt i : Nat} {flags : IA32Flags} {fs : List Nat}
    (h : m₁.Maps m' pt i flags fs) (hentry : m₁.entry = m.entry) : m.Maps m' pt i flags fs :=
  ⟨h.entries, fun a ha => by rw [h.others a ha, hentry]⟩

/-- The first entry is written, and the other ones then. -/
theorem Maps.cons {pt i f : Nat} {flags : IA32Flags} {fs : List Nat}
    (h : Maps (m.writeEntry pt i (word flags f)) m' pt (i + 1) flags fs) :
    m.Maps m' pt i flags (f :: fs) := by
  have hfirst : m'.readEntry pt i = word flags f := by
    unfold readEntry
    rw [h.others _ (.inl (by omega))]
    exact Function.update_self ..
  constructor
  · rw [List.length_cons, List.range'_succ, List.map_cons, hfirst, h.entries, List.map_cons]
  · intro a ha
    rw [List.length_cons] at ha
    rw [h.others a (by omega)]
    exact Function.update_of_ne (by omega) ..

/-- `remap()` leaves the list of free frames alone. -/
theorem remapLoop_list (pt : Nat) (flags : IA32Flags) (n addr i : Nat) (m : Mmu) :
    (remapLoop pt flags n addr i m).list = m.list := by
  induction n generalizing addr i m with
  | zero => rfl
  | succ n ih => exact ih _ _ _

/-- `remap()` leaves the entries outside of its range alone. -/
theorem remapLoop_others (pt : Nat) (flags : IA32Flags) (n addr i : Nat) (m : Mmu) (a : Nat)
    (ha : a < pt / entryBytes + i ∨ pt / entryBytes + i + n ≤ a) :
    (remapLoop pt flags n addr i m).entry a = m.entry a := by
  induction n generalizing addr i m with
  | zero => rfl
  | succ n ih =>
    refine (ih _ _ _ (by omega)).trans ?_
    exact Function.update_of_ne (by omega) ..

/-- `remap()` maps a run of frames, one for each entry of its range. -/
theorem remapLoop_maps (pt : Nat) (flags : IA32Flags) (n f i : Nat) (m : Mmu)
    (hf : f + n ≤ 2 ^ 20) :
    m.Maps (remapLoop pt flags n (f * pageBytes) i m) pt i flags (List.range' f n) := by
  induction n generalizing f i m with
  | zero => exact .nil _ _ _ _
  | succ n ih =>
    rw [List.range'_succ]
    refine .cons ?_
    cases n with
    | zero => exact .nil _ _ _ _
    | succ n =>
      have haddr : (f * pageBytes + pageBytes) % 2 ^ 32 = (f + 1) * pageBytes := by
        unfold pageBytes
        omega
      unfold remapLoop
      rw [haddr]
      exact ih (f + 1) (i + 1) _ (by omega)

/-- The address of a frame is aligned. -/
theorem alignPage_frame {f : Nat} (hf : f < 2 ^ 20) : alignPage (f * pageBytes) = f * pageBytes := by
  unfold alignPage indexes pageBytes
  omega

/-- `remap()` from the address of a frame maps the frames from there on. -/
theorem remap_maps {pt lo f : Nat} (flags : IA32Flags) (hf : f + n ≤ 2 ^ 20) :
    m.Maps (m.remap pt (f * pageBytes) lo (lo + n) flags) pt lo flags (List.range' f n) := by
  unfold remap
  rw [Nat.add_sub_cancel_left]
  cases n with
  | zero => exact .nil _ _ _ _
  | succ n =>
    rw [alignPage_frame (by omega)]
    exact remapLoop_maps _ _ _ _ _ _ hf

/-- The frames are allocated one by one. -/
theorem Has.mapLoop {pt i : Nat} (flags : IA32Flags) (h : m.Has F) (hn : n ≤ F.length) :
    ∃ fs m' F', mapLoop pt flags n i m = some m' ∧ m'.Has F' ∧ F.Perm (fs ++ F') ∧
      fs.length = n ∧ m.Maps m' pt i flags fs := by
  induction n generalizing i m F with
  | zero => exact ⟨[], m, F, rfl, h, .refl _, rfl, .nil _ _ _ _⟩
  | succ n ih =>
    have hF : F ≠ [] := List.ne_nil_of_length_pos (by omega)
    obtain ⟨f, m₁, F₁, halloc, hentry, hm₁, hperm⟩ := h.alloc Nat.one_ne_zero (h.fits_one hF)
    have hlen := hperm.length_eq
    rw [List.length_append, List.length_range'] at hlen
    have hm₂ : (m₁.writeEntry pt i (word flags f)).Has F₁ := hm₁.congr rfl
    obtain ⟨fs, m', F', hloop, hm', hperm', hfs, hmaps⟩ := ih (i := i + 1) hm₂ (by omega)
    refine ⟨f :: fs, m', F', ?_, hm', hperm.trans (hperm'.append_left [f]), ?_, ?_⟩
    · unfold Mmu.mapLoop
      simp only [halloc, Option.bind_eq_bind, Option.bind_some]
      exact hloop
    · rw [List.length_cons, hfs]
    · refine .cons ⟨hmaps.entries, fun a ha => (hmaps.others a ha).trans ?_⟩
      show Function.update m₁.entry _ _ a = Function.update m.entry _ _ a
      rw [hentry]

/-- All frames have an address of 32 bits other than 0. -/
def InMemory (F : List Nat) : Prop := ∀ f ∈ F, 0 < f ∧ f < 2 ^ 20

/-- A run of frames of the memory ends within it. -/
theorem InMemory.range {f : Nat} (h : InMemory F) (hperm : F.Perm (List.range' f n ++ F')) :
    f + n ≤ 2 ^ 20 ∨ n = 0 := by
  by_cases hn : n = 0
  · exact .inr hn
  · left
    have hmem : f + n - 1 ∈ List.range' f n := by
      rw [List.mem_range'_1]
      omega
    have hlt := (h _ (hperm.mem_iff.mpr (List.mem_append_left _ hmem))).2
    omega

/-- `remap()` leaves the list of free frames alone. -/
theorem remap_list (pt addr lo hi : Nat) (flags : IA32Flags) :
    (m.remap pt addr lo hi flags).list = m.list := remapLoop_list _ _ _ _ _ _

/-- Consecutive frames are allocated and mapped. -/
theorem Has.mapContiguous (h : m.Has F) (pt lo : Nat) (flags : IA32Flags) (hF : InMemory F)
    (hfits : n ≠ 0 → m.Fits n) :
    ∃ fs m' F', m.mapContiguous pt lo (lo + n) flags = some m' ∧ m'.Has F' ∧
      F.Perm (fs ++ F') ∧ fs.length = n ∧ m.Maps m' pt lo flags fs := by
  unfold Mmu.mapContiguous
  rw [Nat.add_sub_cancel_left]
  by_cases hn : n = 0
  · subst hn
    exact ⟨[], m, F, by simp [alloc_zero, remap, remapLoop], h, .refl _, rfl, .nil _ _ _ _⟩
  · obtain ⟨f, m₁, F₁, halloc, hentry, hm₁, hperm⟩ := h.alloc hn (hfits hn)
    simp only [halloc, Option.bind_eq_bind, Option.bind_some]
    refine ⟨_, _, F₁, rfl, hm₁.congr (remap_list ..), hperm, List.length_range', ?_⟩
    have hrange := (hF.range hperm).resolve_right hn
    exact (remap_maps flags hrange).of_entry hentry

/-- As many frames as there are can be mapped, consecutive ones or not. -/
theorem Has.map (h : m.Has F) (pt lo : Nat) (flags : IA32Flags) (hF : InMemory F)
    (hn : n ≤ F.length) :
    ∃ fs m' F', m.map pt lo (lo + n) flags = some m' ∧ m'.Has F' ∧
      F.Perm (fs ++ F') ∧ fs.length = n ∧ m.Maps m' pt lo flags fs := by
  unfold Mmu.map
  rw [Nat.add_sub_cancel_left]
  by_cases hfits : n ≠ 0 ∧ m.Fits n
  · obtain ⟨f, m₁, F₁, halloc, hentry, hm₁, hperm⟩ := h.alloc hfits.1 hfits.2
    have hmem : f ∈ F := by
      refine hperm.mem_iff.mpr (List.mem_append_left _ ?_)
      rw [List.mem_range'_1]
      omega
    have hne : f * pageBytes ≠ 0 := Nat.mul_ne_zero (Nat.ne_of_gt (hF f hmem).1) (by decide)
    simp only [halloc, Option.bind_eq_bind, Option.bind_some, if_pos hne]
    refine ⟨_, _, F₁, rfl, hm₁.congr (remap_list ..), hperm, List.length_range', ?_⟩
    have hrange := (hF.range hperm).resolve_right hfits.1
    exact (remap_maps flags hrange).of_entry hentry
  · have halloc : m.alloc n = some (0, m) := by
      by_cases hn : n = 0
      · rw [hn, alloc_zero]
      · exact h.alloc_none fun hf => hfits ⟨hn, hf⟩
    simp only [halloc, Option.bind_eq_bind, Option.bind_some, ne_eq, not_true_eq_false, if_false]
    exact h.mapLoop flags hn

/-- The frames for page tables are cleared. -/
theorem Has.calloc (h : m.Has F) (hfits : n ≠ 0 → m.Fits n) :
    ∃ p m' F', m.calloc n = some (p * pageBytes, m') ∧ m'.Has F' ∧
      F.Perm (List.range' p n ++ F') ∧ SameOff (List.range' p n) m m' ∧
      (n ≠ 0 → ∀ k, k ≠ 0 → m.FitsAfter n k → m'.Fits k) := by
  unfold Mmu.calloc
  by_cases hn : n = 0
  · subst hn
    simp only [alloc_zero, Option.bind_eq_bind, Option.bind_some]
    have hentry : (fun a => if 0 / entryBytes ≤ a ∧ a < 0 / entryBytes + 0 * ptEntries then 0
        else m.entry a) = m.entry := funext fun a => if_neg (by omega)
    rw [hentry]
    exact ⟨0, m, F, by rw [Nat.zero_mul], h, .refl _, fun _ _ => rfl, nofun⟩
  · obtain ⟨p, m₁, F₁, halloc, hentry, hm₁, hperm⟩ := h.alloc hn (hfits hn)
    simp only [halloc, Option.bind_eq_bind, Option.bind_some]
    refine ⟨p, _, F₁, rfl, hm₁.congr rfl, hperm, fun a ha => ?_, fun _ k hk hafter => ?_⟩
    · rw [← hentry]
      refine if_neg fun hin => ha ?_
      rw [List.mem_range'_1]
      unfold pageBytes entryBytes ptEntries at *
      omega
    · have hfits₁ : m₁.Fits k := h.fits_after hn hk hafter halloc
      exact hfits₁

/-- The frames that were mapped are read back from the entries. -/
theorem Maps.frames {pt i : Nat} {flags : IA32Flags} {fs : List Nat}
    (h : m.Maps m' pt i flags fs) (hflags : flags.bits < pageBytes) :
    (List.range' i fs.length).map (fun k => m'.readEntry pt k / pageBytes) = fs := by
  have hdiv := congrArg (List.map (· / pageBytes)) h.entries
  rw [List.map_map, List.map_map] at hdiv
  refine hdiv.trans ?_
  have hid : (fun x => x / pageBytes) ∘ word flags = id := funext (word_div hflags)
  rw [hid, List.map_id]

/-- Every entry of the range holds one of the frames. -/
theorem Maps.entry_eq {pt i k : Nat} {flags : IA32Flags} {fs : List Nat}
    (h : m.Maps m' pt i flags fs) (hi : i ≤ k) (hk : k < i + fs.length) :
    ∃ f, m'.readEntry pt k = word flags f := by
  have hmem : m'.readEntry pt k ∈ fs.map (word flags) := by
    rw [← h.entries]
    exact List.mem_map_of_mem (List.mem_range'_1.mpr ⟨hi, hk⟩)
  obtain ⟨f, -, hf⟩ := List.mem_map.mp hmem
  exact ⟨f, hf.symm⟩

/-- Nothing is written outside of the page tables. -/
theorem Maps.sameOff {p i pts : Nat} {flags : IA32Flags} {fs : List Nat}
    (h : m.Maps m' (p * pageBytes) i flags fs) (hroom : i + fs.length ≤ pts * ptEntries) :
    SameOff (List.range' p pts) m m' := by
  intro a ha
  refine h.others a ?_
  rw [List.mem_range'_1] at ha
  unfold pageBytes entryBytes ptEntries at *
  omega

/-- Two changes inside of the same frames. -/
theorem SameOff.trans {W : List Nat} {m₁ : Mmu} (h : SameOff W m m₁) (h' : SameOff W m₁ m') :
    SameOff W m m' := fun a ha => (h' a ha).trans (h a ha)

end Mmu

/-! ## Chunks -/

/-- The pages of a 32-bit size fit into the memory. -/
theorem pages_le (bytes : Nat) : pages bytes ≤ 2 ^ 20 := by
  unfold pages pageBytes
  omega

/-- The page tables have an entry for every page. -/
theorem le_pageTables {n : Nat} (hn : n ≤ 2 ^ 20) : n ≤ pageTables n * ptEntries := by
  unfold pageTables ptEntries
  omega

/-- No page, no page table. -/
theorem pageTables_zero : pageTables 0 = 0 := by decide

namespace LiveChunk

open Mmu (SameOff InMemory)

variable {m m' : Mmu} {F F' : List Nat} {c : LiveChunk} {n : Nat}

/-- The frames of the page tables. -/
def tables (c : Chunk) : List Nat := List.range' (c.pt / pageBytes) c.pts

/-- The frames of the `n` entries from `i` on. -/
def framesFrom (m : Mmu) (pt i n : Nat) : List Nat :=
  (List.range' i n).map fun k => m.readEntry pt k / pageBytes

/-- The frames that the chunk has. -/
def held (m : Mmu) (c : LiveChunk) : List Nat :=
  tables c.toChunk ++ framesFrom m c.pt c.foreign (c.hi - c.foreign)

/-- Page tables in place, with an entry for every page, and memory that is all allocated. -/
structure Ok (m : Mmu) (c : LiveChunk) : Prop where
  lo : c.lo = 0
  aligned : c.pt = c.pt / pageBytes * pageBytes
  room : c.hi ≤ c.pts * ptEntries
  foreign : c.foreign ≤ c.hi
  flags : c.flags.bits < pageBytes
  present : c.flags.has IA32Flags.pre
  entries : ∀ i, c.foreign ≤ i → i < c.hi → ∃ f, m.readEntry c.pt i = word c.flags f
  memory : c.flags.has IA32Flags.io = false → c.foreign = 0 ∧ c.hi = c.asked

/-- The entry of a page is in one of the page tables of its chunk. -/
theorem Ok.table_mem (h : c.Ok m) {i : Nat} (hi : i < c.hi) :
    (c.pt / entryBytes + i) / ptEntries ∈ tables c.toChunk := by
  have haligned := h.aligned
  have hroom := h.room
  unfold tables
  rw [List.mem_range'_1]
  unfold pageBytes entryBytes ptEntries at *
  omega

/-- What is written outside of its page tables does not matter to a chunk. -/
theorem Ok.readEntry_eq {W : List Nat} (h : c.Ok m) (hsame : SameOff W m m')
    (hW : ∀ f ∈ tables c.toChunk, f ∉ W) {i : Nat} (hi : i < c.hi) :
    m'.readEntry c.pt i = m.readEntry c.pt i :=
  hsame _ (hW _ (h.table_mem hi))

/-- What a chunk holds only depends on its page tables. -/
theorem Ok.held_eq {W : List Nat} (h : c.Ok m) (hsame : SameOff W m m')
    (hW : ∀ f ∈ tables c.toChunk, f ∉ W) : c.held m' = c.held m := by
  unfold held framesFrom
  congr 1
  refine List.map_congr_left fun i hi => ?_
  rw [List.mem_range'_1] at hi
  rw [h.readEntry_eq hsame hW (by omega)]

/-- A chunk stays well formed while its page tables are not written. -/
theorem Ok.congr {W : List Nat} (h : c.Ok m) (hsame : SameOff W m m')
    (hW : ∀ f ∈ tables c.toChunk, f ∉ W) : c.Ok m' where
  lo := h.lo
  aligned := h.aligned
  room := h.room
  foreign := h.foreign
  flags := h.flags
  present := h.present
  entries i hi hlt := by
    rw [h.readEntry_eq hsame hW hlt]
    exact h.entries i hi hlt
  memory := h.memory

end LiveChunk

namespace Chunk

open Mmu (SameOff InMemory)
open LiveChunk (tables framesFrom)

variable {m m' : Mmu} {F F' : List Nat} {n bytes : Nat} {flags : Flags}

/-- The flags of an entry keep what `MMU::Flags` says about memory and contiguity. -/
theorem toIA32_eq (flags : Flags) :
    flags.toIA32.bits < pageBytes ∧ flags.toIA32.has IA32Flags.pre ∧
    flags.toIA32.has IA32Flags.ct = flags.has Flags.ct ∧
    flags.toIA32.has IA32Flags.io = flags.has Flags.io := IA32Flags.ofBits_eq ..

/-- The live chunk that a constructor makes. -/
def live (c : Chunk) (foreign asked : Nat) : LiveChunk := { c with foreign, asked }

/-- A chunk that has page tables and a mapping for all pages. -/
theorem live_ok {p hi pts lo asked : Nat} {f : IA32Flags} {fs : List Nat} {m₁ : Mmu}
    (hbits : f.bits < pageBytes) (hpre : f.has IA32Flags.pre) (hroom : hi ≤ pts * ptEntries)
    (hlo : lo + fs.length = hi) (hmaps : m₁.Maps m' (p * pageBytes) lo f fs)
    (hio : f.has IA32Flags.io = false → lo = 0 ∧ hi = asked) :
    (live ⟨0, hi, pts, f, p * pageBytes⟩ lo asked).Ok m' ∧
      (live ⟨0, hi, pts, f, p * pageBytes⟩ lo asked).held m' = List.range' p pts ++ fs := by
  have hdiv : p * pageBytes / pageBytes = p := Nat.mul_div_cancel p (by decide)
  constructor
  · refine ⟨rfl, ?_, hroom, by show lo ≤ hi; omega, hbits, hpre, fun i hi hlt => ?_, hio⟩
    · show p * pageBytes = p * pageBytes / pageBytes * pageBytes
      rw [hdiv]
    · exact hmaps.entry_eq hi (by rw [hlo]; exact hlt)
  · have hframes := hmaps.frames hbits
    have hn : hi - lo = fs.length := by omega
    show List.range' (p * pageBytes / pageBytes) pts ++
      (List.range' lo (hi - lo)).map (fun k => m'.readEntry (p * pageBytes) k / pageBytes) = _
    rw [hdiv, hn, hframes]

/-- The constructor takes its page tables and pages from the free frames. -/
theorem construct_eq (h : m.Has F) (hF : InMemory F) (flags : Flags)
    (hfits : pages bytes ≠ 0 → m.Fits (pageTables (pages bytes)))
    (hct : flags.has IA32Flags.ct → pages bytes ≠ 0 →
      m.FitsAfter (pageTables (pages bytes)) (pages bytes))
    (hmem : ¬flags.has IA32Flags.ct → pageTables (pages bytes) + pages bytes ≤ F.length) :
    ∃ c m' F', construct m bytes flags = some (c, m') ∧ m'.Has F' ∧
      F.Perm ((c.live 0 (pages bytes)).held m' ++ F') ∧ (c.live 0 (pages bytes)).Ok m' ∧
      SameOff (tables c) m m' := by
  obtain ⟨hbits, hpre, -, -⟩ := toIA32_eq flags
  -- tables are needed exactly if there are pages
  have hpts : pageTables (pages bytes) ≠ 0 ↔ pages bytes ≠ 0 := by
    have hle := le_pageTables (pages_le bytes)
    constructor
    · exact fun hne hz => hne (by rw [hz, pageTables_zero])
    · intro hne hz
      rw [hz] at hle
      omega
  obtain ⟨p, m₁, F₁, hcalloc, hm₁, hperm₁, hsame, hafter⟩ :=
    h.calloc fun hne => hfits (hpts.mp hne)
  have hF₁ : InMemory F₁ := fun f hf =>
    hF f (hperm₁.mem_iff.mpr (List.mem_append_right _ hf))
  have hlen := hperm₁.length_eq
  rw [List.length_append, List.length_range'] at hlen
  -- both ways of mapping take as many frames as there are pages and write to the tables only
  have hmap : ∃ fs m' F', (if flags.has IA32Flags.ct then
        m₁.mapContiguous (p * pageBytes) 0 (0 + pages bytes) flags.toIA32
      else m₁.map (p * pageBytes) 0 (0 + pages bytes) flags.toIA32) = some m' ∧ m'.Has F' ∧
      F₁.Perm (fs ++ F') ∧ fs.length = pages bytes ∧
      m₁.Maps m' (p * pageBytes) 0 flags.toIA32 fs := by
    by_cases hc : flags.has IA32Flags.ct
    · simp only [if_pos hc]
      exact hm₁.mapContiguous _ _ _ hF₁ fun hne => hafter (hpts.mpr hne) _ hne (hct hc hne)
    · simp only [if_neg hc]
      have hle := hmem hc
      exact hm₁.map _ _ _ hF₁ (by omega)
  obtain ⟨fs, m', F', hmap, hm', hperm', hfs, hmaps⟩ := hmap
  have hroom := le_pageTables (pages_le bytes)
  obtain ⟨hok, hheld⟩ := live_ok hbits hpre hroom (by omega) hmaps fun _ => ⟨rfl, rfl⟩
  refine ⟨_, m', F', ?_, hm', ?_, hok, ?_⟩
  · unfold construct
    rw [Nat.zero_add] at hmap
    simp only [Nat.sub_zero, hcalloc, Option.bind_eq_bind, Option.bind_some]
    by_cases hc : flags.has IA32Flags.ct
    · rw [if_pos hc] at hmap ⊢
      rw [hmap, Option.bind_some]
    · rw [if_neg hc] at hmap ⊢
      rw [hmap, Option.bind_some]
  · rw [hheld, List.append_assoc]
    exact hperm₁.trans (hperm'.append_left _)
  · have htables : tables ⟨0, pages bytes, pageTables (pages bytes), flags.toIA32, p * pageBytes⟩ =
        List.range' p (pageTables (pages bytes)) := by
      unfold tables
      rw [Nat.mul_div_cancel p (by decide)]
    rw [htables]
    exact hsame.trans (hmaps.sameOff (by omega))

/-- Only the page tables are allocated. -/
theorem constructAt_eq (h : m.Has F) (addr : Nat)
    (hio : pages bytes ≠ 0 → flags.has Flags.io)
    (hfits : pages bytes ≠ 0 → m.Fits (pageTables (pages bytes))) :
    ∃ c m' F', constructAt m addr bytes flags = some (c, m') ∧ m'.Has F' ∧
      F.Perm ((c.live c.hi (pages bytes)).held m' ++ F') ∧
      (c.live c.hi (pages bytes)).Ok m' ∧ SameOff (tables c) m m' := by
  obtain ⟨hbits, hpre, -, hio'⟩ := toIA32_eq flags
  have hpts (hne : pageTables (pages bytes) ≠ 0) : pages bytes ≠ 0 := fun hz =>
    hne (by rw [hz, pageTables_zero])
  have hroom := le_pageTables (pages_le bytes)
  have hdiv (p : Nat) : p * pageBytes / pageBytes = p := Nat.mul_div_cancel p (by decide)
  obtain ⟨p, m₁, F₁, hcalloc, hm₁, hperm₁, hsame, -⟩ := h.calloc fun hne => hfits (hpts hne)
  refine ⟨⟨0, pages bytes, pageTables (pages bytes), flags.toIA32, p * pageBytes⟩,
    m₁.remap (p * pageBytes) addr 0 (pages bytes) flags.toIA32, F₁,
    ?_, hm₁.congr (Mmu.remap_list ..), ?_, ?_, ?_⟩
  · unfold constructAt
    simp only [Nat.sub_zero, hcalloc, Option.bind_eq_bind, Option.bind_some]
  · show F.Perm ((List.range' (p * pageBytes / pageBytes) _ ++
      (List.range' (pages bytes) (pages bytes - pages bytes)).map _) ++ F₁)
    rw [Nat.sub_self, hdiv, List.range'_zero, List.map_nil, List.append_nil]
    exact hperm₁
  · refine ⟨rfl, ?_, hroom, Nat.le_refl _, hbits, hpre, fun i hi hlt => ?_, fun hno => ?_⟩
    · show p * pageBytes = p * pageBytes / pageBytes * pageBytes
      rw [hdiv]
    · exact absurd hlt (Nat.not_lt.mpr hi)
    · by_contra hne
      have hpages : pages bytes ≠ 0 := fun hz => hne ⟨hz, rfl⟩
      have hset : flags.toIA32.has IA32Flags.io := by
        rw [hio']
        exact hio hpages
      exact absurd (hset.symm.trans hno) (by decide)
  · -- Only entries of the page tables are written.
    intro a ha
    have htables : tables ⟨0, pages bytes, pageTables (pages bytes), flags.toIA32, p * pageBytes⟩ =
        List.range' p (pageTables (pages bytes)) := by
      unfold tables
      rw [hdiv]
    rw [htables] at ha
    refine Eq.trans ?_ (hsame a ha)
    refine Mmu.remapLoop_others _ _ _ _ _ _ _ ?_
    rw [List.mem_range'_1] at ha
    unfold pageBytes entryBytes ptEntries at *
    omega

/-! ### Destruction -/

/-- `free()` page by page gives the frames of the entries back. -/
theorem freeLoop_eq {pt i : Nat} (h : m.Has F) (hnd : (framesFrom m pt i n ++ F).Nodup)
    (hzero : 0 ∉ framesFrom m pt i n) :
    ∃ m', freeLoop pt n i m = some m' ∧ m'.entry = m.entry ∧
      m'.Has (framesFrom m pt i n ++ F) := by
  induction n generalizing i m F with
  | zero => exact ⟨m, rfl, rfl, h⟩
  | succ n ih =>
    have hcons : framesFrom m pt i (n + 1) =
        m.readEntry pt i / pageBytes :: framesFrom m pt (i + 1) n := rfl
    rw [hcons] at hnd hzero ⊢
    -- the frame of this entry is freed, and is apart from the frames of the others
    have hmiddle : (framesFrom m pt (i + 1) n ++ m.readEntry pt i / pageBytes :: F).Nodup :=
      List.perm_middle.nodup_iff.mpr hnd
    have hfst : (List.range' (m.readEntry pt i / pageBytes) 1 ++ F).Nodup :=
      (List.nodup_append.mp hmiddle).2.1
    obtain ⟨m₁, hfree, hentry, hm₁⟩ := h.free (w := m.readEntry pt i) rfl
      (fun _ hz => hzero (hz ▸ List.mem_cons_self)) hfst
    -- freeing writes no entry
    have hframes : framesFrom m₁ pt (i + 1) n = framesFrom m pt (i + 1) n := by
      unfold framesFrom Mmu.readEntry
      rw [hentry]
    obtain ⟨m', hloop, hentry', hm'⟩ := ih (i := i + 1) hm₁ (by rwa [hframes])
      (by rw [hframes]; exact fun hz => hzero (List.mem_cons_of_mem _ hz))
    refine ⟨m', ?_, hentry'.trans hentry, ?_⟩
    · unfold freeLoop
      simp only [hfree, Option.bind_eq_bind, Option.bind_some]
      exact hloop
    · rw [hframes] at hm'
      exact hm'.perm List.perm_middle

/-- The entries of the chunk are for consecutive frames. -/
def Consecutive (c : Chunk) (m : Mmu) : Prop :=
  ∀ i < c.hi, m.readEntry c.pt i / pageBytes = m.readEntry c.pt 0 / pageBytes + i

/-- The frames of a contiguous chunk follow the first one. -/
theorem Consecutive.frames {c : Chunk} (h : c.Consecutive m) :
    framesFrom m c.pt 0 c.hi = List.range' (m.readEntry c.pt 0 / pageBytes) c.hi := by
  have hmap : framesFrom m c.pt 0 c.hi =
      (List.range' 0 c.hi).map (m.readEntry c.pt 0 / pageBytes + ·) := by
    refine List.map_congr_left fun i hi => h i ?_
    rw [List.mem_range'_1] at hi
    omega
  rw [hmap, List.map_add_range', Nat.add_zero]

end Chunk

namespace LiveChunk

open Mmu (SameOff InMemory)

variable {m m' : Mmu} {F F' : List Nat} {c : LiveChunk} {n : Nat}

/-- The loop over the pages of a chunk, or what stands for it. -/
theorem Ok.freePages (hc : c.Ok m) (h : m.Has F)
    (hnd : (framesFrom m c.pt c.foreign (c.hi - c.foreign) ++ F).Nodup)
    (hzero : 0 ∉ framesFrom m c.pt c.foreign (c.hi - c.foreign))
    (hio : c.flags.has IA32Flags.io → c.foreign = c.hi)
    (hct : c.flags.has IA32Flags.io = false → c.flags.has IA32Flags.ct → c.Consecutive m) :
    ∃ m', (if c.flags.has IA32Flags.io then some m
        else if c.flags.has IA32Flags.ct then m.free (m.readEntry c.pt c.lo) (c.hi - c.lo)
        else Chunk.freeLoop c.pt (c.hi - c.lo) c.lo m) = some m' ∧ m'.entry = m.entry ∧
      m'.Has (framesFrom m c.pt c.foreign (c.hi - c.foreign) ++ F) := by
  rw [hc.lo, Nat.sub_zero]
  by_cases hset : c.flags.has IA32Flags.io
  · rw [if_pos hset, hio hset, Nat.sub_self]
    exact ⟨m, rfl, rfl, h⟩
  · -- memory of the kernel: one free for a contiguous chunk, one for each page otherwise
    have hclear : c.flags.has IA32Flags.io = false := by simpa using hset
    rw [(hc.memory hclear).1, Nat.sub_zero] at hnd hzero ⊢
    rw [if_neg hset]
    by_cases hsetCt : c.flags.has IA32Flags.ct
    · rw [if_pos hsetCt]
      have hframes := (hct hclear hsetCt).frames
      rw [hframes] at hnd hzero ⊢
      refine h.free rfl (fun hn hz => hzero ?_) hnd
      rw [hz, List.mem_range'_1]
      omega
    · rw [if_neg hsetCt]
      exact Chunk.freeLoop_eq h hnd hzero

/-- A chunk gives its frames back. -/
theorem Ok.destroy (hc : c.Ok m) (h : m.Has F) (hnd : (c.held m ++ F).Nodup)
    (hzero : 0 ∉ c.held m) (hio : c.flags.has IA32Flags.io → c.foreign = c.hi)
    (hct : c.flags.has IA32Flags.io = false → c.flags.has IA32Flags.ct → c.Consecutive m) :
    ∃ m', c.destroy m = some m' ∧ m'.entry = m.entry ∧ m'.Has (c.held m ++ F) := by
  unfold held at hnd hzero ⊢
  rw [List.append_assoc] at hnd ⊢
  -- the pages first, the page tables last
  obtain ⟨m₁, hpages, hentry, hm₁⟩ := hc.freePages h (List.nodup_append.mp hnd).2.1
    (fun hz => hzero (List.mem_append_right _ hz)) hio hct
  obtain ⟨m', hfree, hentry', hm'⟩ := hm₁.free (w := c.pt) rfl (fun hn hz => by
    refine hzero (List.mem_append_left _ ?_)
    unfold tables
    rw [hz, List.mem_range'_1]
    omega) hnd
  refine ⟨m', ?_, hentry'.trans hentry, hm'⟩
  unfold Chunk.destroy
  simp only [Option.bind_eq_bind]
  by_cases hset : c.flags.has IA32Flags.io
  · rw [if_pos hset] at hpages ⊢
    rw [hpages, Option.bind_some, hfree]
  · rw [if_neg hset] at hpages ⊢
    by_cases hsetCt : c.flags.has IA32Flags.ct
    · rw [if_pos hsetCt] at hpages ⊢
      rw [hpages, Option.bind_some, hfree]
    · rw [if_neg hsetCt] at hpages ⊢
      rw [hpages, Option.bind_some, hfree]

/-! ### Growth -/

/-- The frames of two ranges that follow each other. -/
theorem framesFrom_append (m : Mmu) (pt i n k : Nat) :
    framesFrom m pt i (n + k) = framesFrom m pt i n ++ framesFrom m pt (i + n) k := by
  unfold framesFrom
  rw [← List.range'_append_1, List.map_append]

/-- More pages are mapped by the page tables that there are. -/
theorem Ok.mapMore (hc : c.Ok m) (h : m.Has F) (hF : InMemory F) (hn : n ≤ F.length)
    (hroom : c.hi + n ≤ c.pts * ptEntries) :
    ∃ m' F', m.map c.pt c.hi (c.hi + n) c.flags = some m' ∧ m'.Has F' ∧
      (c.held m ++ F).Perm
        (({ c with hi := c.hi + n, asked := c.asked + n } : LiveChunk).held m' ++ F') ∧
      ({ c with hi := c.hi + n, asked := c.asked + n } : LiveChunk).Ok m' ∧
      SameOff (tables c.toChunk) m m' := by
  obtain ⟨fs, m', F', hmap, hm', hperm, hfs, hmaps⟩ := h.map c.pt c.hi c.flags hF hn
  have hforeign := hc.foreign
  have hsame : SameOff (tables c.toChunk) m m' := by
    have haligned := hc.aligned
    rw [haligned] at hmaps
    unfold tables
    exact hmaps.sameOff (by omega)
  have hold (i : Nat) (hi : i < c.hi) : m'.readEntry c.pt i = m.readEntry c.pt i :=
    hmaps.others (c.pt / entryBytes + i) (.inl (by omega))
  -- The frames from before, and those that have been allocated now.
  have hframes : framesFrom m' c.pt c.foreign (c.hi + n - c.foreign) =
      framesFrom m c.pt c.foreign (c.hi - c.foreign) ++ fs := by
    have hsum : c.hi + n - c.foreign = (c.hi - c.foreign) + n := by omega
    have hmid : c.foreign + (c.hi - c.foreign) = c.hi := by omega
    rw [hsum, framesFrom_append, hmid]
    congr 1
    · refine List.map_congr_left fun i hi => ?_
      rw [List.mem_range'_1] at hi
      rw [hold i (by omega)]
    · rw [← hfs]
      exact hmaps.frames hc.flags
  refine ⟨m', F', hmap, hm', ?_, ⟨hc.lo, hc.aligned, hroom, ?_, hc.flags, hc.present, ?_, ?_⟩, hsame⟩
  · show (held m c ++ F).Perm ((tables c.toChunk ++ framesFrom m' c.pt c.foreign _) ++ F')
    rw [hframes, held, List.append_assoc, List.append_assoc, List.append_assoc]
    exact (hperm.append_left _).append_left _
  · exact Nat.le_add_right_of_le hforeign
  · intro i hi hlt
    by_cases hlt' : i < c.hi
    · obtain ⟨f, hf⟩ := hc.entries i hi hlt'
      exact ⟨f, (hold i hlt').trans hf⟩
    · exact hmaps.entry_eq (Nat.not_lt.mp hlt') (by rw [hfs]; exact hlt)
  · intro hio
    obtain ⟨hzero, hasked⟩ := hc.memory hio
    exact ⟨hzero, by rw [hasked]⟩

/-- The entries are moved to more page tables. -/
theorem Ok.growTables {pts : Nat} (hc : c.Ok m) (h : m.Has F) (hle : c.pts ≤ pts)
    (hfits : pts ≠ 0 → m.Fits pts) (hnd : (c.held m ++ F).Nodup) (hzero : 0 ∉ c.held m) :
    ∃ pt' m' F', c.toChunk.growTables m pts = some ({ c.toChunk with pt := pt', pts := pts }, m') ∧
      m'.Has F' ∧ (c.held m ++ F).Perm (({ c with pt := pt', pts := pts } : LiveChunk).held m' ++ F') ∧
      ({ c with pt := pt', pts := pts } : LiveChunk).Ok m' ∧
      SameOff (List.range' (pt' / pageBytes) pts) m m' ∧ F'.length + pts = F.length + c.pts := by
  obtain ⟨p, m₁, F₁, hcalloc, hm₁, hperm₁, hsame, -⟩ := h.calloc hfits
  have hdiv : p * pageBytes / pageBytes = p := Nat.mul_div_cancel p (by decide)
  have hm₂ : (Chunk.copyTables m₁ c.pt (p * pageBytes) c.pts).Has F₁ := hm₁.congr rfl
  -- the new tables take the place of the old ones among all frames
  have hall : (c.held m ++ F).Perm
      (List.range' p pts ++ framesFrom m c.pt c.foreign (c.hi - c.foreign) ++
        (tables c.toChunk ++ F₁)) := by
    refine List.perm_iff_count.mpr fun x => ?_
    have hcount := hperm₁.count_eq x
    unfold held
    simp only [List.count_append] at hcount ⊢
    omega
  have hnd' := hall.nodup_iff.mp hnd
  obtain ⟨m', hfree, hentry', hm'⟩ := hm₂.free (w := c.pt) rfl (fun hn hz => by
    refine hzero (List.mem_append_left _ ?_)
    unfold tables
    rw [hz, List.mem_range'_1]
    omega) (List.nodup_append.mp hnd').2.1
  -- an entry is copied, and freeing the old tables does not write to the new ones
  have hread (i : Nat) (hi : i < c.hi) : m'.readEntry (p * pageBytes) i = m.readEntry c.pt i := by
    have hold : (c.pt / entryBytes + i) / ptEntries ∉ List.range' p pts := by
      intro hmem
      rw [List.append_assoc] at hnd'
      refine (List.nodup_append.mp hnd').2.2 _ hmem _ (List.mem_append_right _ ?_) rfl
      exact List.mem_append_left _ (hc.table_mem hi)
    have hroom := hc.room
    have hstart : p * pageBytes / entryBytes = p * ptEntries := by
      unfold pageBytes entryBytes ptEntries
      omega
    unfold Mmu.readEntry
    rw [hentry', ← hsame _ hold]
    show (if _ then _ else _) = _
    rw [if_pos (by omega), Nat.add_sub_cancel_left]
  have hframes : framesFrom m' (p * pageBytes) c.foreign (c.hi - c.foreign) =
      framesFrom m c.pt c.foreign (c.hi - c.foreign) := by
    refine List.map_congr_left fun i hi => ?_
    rw [List.mem_range'_1] at hi
    rw [hread i (by omega)]
  refine ⟨p * pageBytes, m', _, ?_, hm', ?_, ?_, ?_, ?_⟩
  · unfold Chunk.growTables
    simp only [hcalloc, Option.bind_eq_bind, Option.bind_some, hfree]
  · show (c.held m ++ F).Perm ((List.range' (p * pageBytes / pageBytes) pts ++
      framesFrom m' (p * pageBytes) c.foreign (c.hi - c.foreign)) ++ _)
    rw [hdiv, hframes]
    exact hall
  · refine ⟨hc.lo, ?_, ?_, hc.foreign, hc.flags, hc.present, fun i hi hlt => ?_, hc.memory⟩
    · show p * pageBytes = p * pageBytes / pageBytes * pageBytes
      rw [hdiv]
    · exact hc.room.trans (Nat.mul_le_mul_right _ hle)
    · obtain ⟨f, hf⟩ := hc.entries i hi hlt
      exact ⟨f, (hread i hlt).trans hf⟩
  · intro a ha
    rw [hdiv] at ha
    rw [hentry', ← hsame a ha]
    have hmul : c.pts * ptEntries ≤ pts * ptEntries := Nat.mul_le_mul_right _ hle
    refine if_neg fun hin => ha ?_
    rw [List.mem_range'_1]
    unfold pageBytes entryBytes ptEntries at *
    omega
  · have hlen := hperm₁.length_eq
    rw [List.length_append, List.length_range'] at hlen ⊢
    omega

/-- Page tables, if they are needed, and frames for what a chunk grows. -/
def Provided (m : Mmu) (c : Chunk) (amount : Nat) : Prop :=
  c.flags.has IA32Flags.ct ∨
  if c.freePages < pages amount then
    m.Fits (c.pts + pageTables (pages amount - c.freePages)) ∧
      pageTables (pages amount - c.freePages) + pages amount ≤ m.list.groupedSize
  else pages amount ≤ m.list.groupedSize

instance (m : Mmu) (c : Chunk) (amount : Nat) : Decidable (Provided m c amount) :=
  inferInstanceAs (Decidable (_ ∨ _))

/-- A chunk has at most as many page tables as the memory has frames. -/
theorem Ok.pts_le (hF : InMemory (c.held m ++ F)) : c.pts ≤ 2 ^ 20 := by
  unfold held tables at hF
  rw [List.append_assoc] at hF
  cases hF.range (.refl _) with
  | inl hle => exact (Nat.le_add_left _ _).trans hle
  | inr hzero => rw [hzero]; exact Nat.zero_le _

/-- The entries of the page tables that are not in use. -/
theorem Ok.freePages_eq (hc : c.Ok m) (hF : InMemory (c.held m ++ F)) :
    c.freePages = c.pts * ptEntries - c.hi := by
  have hpts := Ok.pts_le hF
  have hroom := hc.room
  unfold Chunk.freePages
  unfold ptEntries at *
  omega

/-- The page tables have room for what the chunk grows. -/
theorem Ok.makeRoom (hc : c.Ok m) (h : m.Has F) (hF : InMemory (c.held m ++ F))
    (hnd : (c.held m ++ F).Nodup) (hn : n ≤ 2 ^ 20)
    (hprov : if c.freePages < n then
        m.Fits (c.pts + pageTables (n - c.freePages)) ∧
          pageTables (n - c.freePages) + n ≤ m.list.groupedSize
      else n ≤ m.list.groupedSize) :
    ∃ pt pts m' F', c.toChunk.makeRoom m n = some ({ c.toChunk with pt, pts }, m') ∧
      m'.Has F' ∧ n ≤ F'.length ∧ c.hi + n ≤ pts * ptEntries ∧
      (c.held m ++ F).Perm (({ c with pt, pts } : LiveChunk).held m' ++ F') ∧
      ({ c with pt, pts } : LiveChunk).Ok m' ∧
      SameOff (tables { c.toChunk with pt, pts }) m m' := by
  have hfree := hc.freePages_eq hF
  have hlen := h.length
  have hroom := hc.room
  unfold Chunk.makeRoom
  by_cases hgrow : c.freePages < n
  · -- more page tables are needed, and the old ones are copied and freed
    rw [if_pos hgrow] at hprov ⊢
    have hmore := le_pageTables (n := n - c.freePages) (by omega)
    obtain ⟨pt, m', F', hgrown, hm', hperm, hc', hsame, hlen'⟩ :=
      hc.growTables h (Nat.le_add_right _ _) (fun _ => hprov.1) hnd
        fun hz => Nat.lt_irrefl 0 (hF 0 (List.mem_append_left _ hz)).1
    refine ⟨pt, _, m', F', hgrown, hm', by omega, ?_, hperm, hc', hsame⟩
    rw [Nat.add_mul]
    omega
  · -- the page tables have room for all pages
    rw [if_neg hgrow] at hprov ⊢
    exact ⟨c.pt, c.pts, m, F, rfl, h, by omega, by omega, .refl _, hc, fun _ _ => rfl⟩

/-- An extension takes its pages from the free frames and maps them behind the others. -/
theorem Ok.extend (hc : c.Ok m) (h : m.Has F) (hF : InMemory (c.held m ++ F))
    (hn : n ≤ F.length) (hpages : n ≤ 2 ^ 20) (hroom : c.hi + n ≤ c.pts * ptEntries) :
    ∃ m' F', c.toChunk.extend m n =
        some (n * pageBytes, { c.toChunk with hi := c.hi + n }, m') ∧ m'.Has F' ∧
      (c.held m ++ F).Perm
        (({ c with hi := c.hi + n, asked := c.asked + n } : LiveChunk).held m' ++ F') ∧
      ({ c with hi := c.hi + n, asked := c.asked + n } : LiveChunk).Ok m' ∧
      SameOff (tables c.toChunk) m m' := by
  have hpts := Ok.pts_le hF
  have hroom' := hc.room
  have hwrap : (c.hi + n) % 2 ^ 32 = c.hi + n := by
    unfold ptEntries at hroom'
    omega
  have hF' : InMemory F := fun f hf => hF f (List.mem_append_right _ hf)
  obtain ⟨m', F', hmap, hm', hperm, hc', hsame⟩ := hc.mapMore h hF' hn hroom
  refine ⟨m', F', ?_, hm', hperm, hc', hsame⟩
  unfold Chunk.extend
  rw [hwrap]
  dsimp only
  rw [Option.bind_eq_bind, hmap, Option.bind_some]

/-- `resize()` keeps what the chunk holds and takes the rest from the free frames. -/
theorem Ok.resize (hc : c.Ok m) (h : m.Has F) (hF : InMemory (c.held m ++ F))
    (hnd : (c.held m ++ F).Nodup) {amount : Nat} (hprov : Provided m c.toChunk amount) :
    ∃ r c' m' F', c.toChunk.resize m amount = some (r, c', m') ∧ m'.Has F' ∧
      (c.held m ++ F).Perm ((c'.live c.foreign (c.asked + r / pageBytes)).held m' ++ F') ∧
      (c'.live c.foreign (c.asked + r / pageBytes)).Ok m' ∧ SameOff (tables c') m m' := by
  unfold Chunk.resize
  by_cases hct : c.flags.has IA32Flags.ct
  · rw [if_pos hct]
    exact ⟨0, c.toChunk, m, F, rfl, h, .refl _, hc, fun _ _ => rfl⟩
  · rw [if_neg hct]
    have hpages := pages_le amount
    obtain ⟨pt, pts, m₁, F₁, hmade, hm₁, hn, hroom, hperm₁, hc₁, hsame₁⟩ :=
      hc.makeRoom h hF hnd hpages (hprov.resolve_left hct)
    have hF₁ := fun f hf => hF f (hperm₁.mem_iff.mpr hf)
    obtain ⟨m', F', hextend, hm', hperm', hc', hsame'⟩ := hc₁.extend hm₁ hF₁ hn hpages hroom
    refine ⟨pages amount * pageBytes, { c.toChunk with hi := c.hi + pages amount, pts, pt }, m', F',
      ?_, hm', ?_, ?_, hsame₁.trans hsame'⟩
    · rw [hmade, Option.bind_eq_bind, Option.bind_some]
      exact hextend
    · rw [Nat.mul_div_cancel _ (by decide)]
      exact hperm₁.trans hperm'
    · rw [Nat.mul_div_cancel _ (by decide)]
      exact hc'

end LiveChunk

/-! ## Runs -/

/-- The chunks have all frames of `T` but those in `G`. -/
structure Held (T : List Nat) (m : Mmu) (G : List Nat) (chunks : List LiveChunk) : Prop where
  perm : (chunks.flatMap (·.held m) ++ G).Perm T
  ok : ∀ c ∈ chunks, c.Ok m

namespace Held

variable {T G G' W : List Nat} {m m' : Mmu} {c : LiveChunk} {chunks chunks' : List LiveChunk}

/-- The order of the chunks does not matter. -/
theorem perm_chunks (h : Held T m G chunks) (hperm : chunks.Perm chunks') :
    Held T m G chunks' :=
  ⟨((hperm.flatMap_right _).append_right _).symm.trans h.perm,
    fun c hc => h.ok c (hperm.mem_iff.mpr hc)⟩

/-- One chunk more holds its own frames besides the others. -/
theorem cons_iff : Held T m G (c :: chunks) ↔ c.Ok m ∧ Held T m (c.held m ++ G) chunks := by
  have hperm : ((c :: chunks).flatMap (·.held m) ++ G).Perm
      (chunks.flatMap (·.held m) ++ (c.held m ++ G)) := by
    rw [List.flatMap_cons, ← List.append_assoc]
    exact List.perm_append_comm.append_right _
  constructor
  · exact fun h => ⟨h.ok c List.mem_cons_self, hperm.symm.trans h.perm,
      fun x hx => h.ok x (List.mem_cons_of_mem _ hx)⟩
  · exact fun h => ⟨hperm.trans h.2.perm, List.forall_mem_cons.mpr ⟨h.1, h.2.ok⟩⟩

/-- The chunk at `i`, and the frames without it. -/
theorem take {i : Nat} (h : Held T m G chunks) (hi : chunks[i]? = some c) :
    i < chunks.length ∧ c.Ok m ∧ Held T m (c.held m ++ G) (chunks.eraseIdx i) := by
  obtain ⟨hlt, hget⟩ := List.getElem?_eq_some_iff.mp hi
  have hchunks : chunks.Perm (c :: chunks.eraseIdx i) := by
    rw [← hget]
    exact (List.getElem_cons_eraseIdx_perm hlt).symm
  exact ⟨hlt, cons_iff.mp (h.perm_chunks hchunks)⟩

/-- No free frame is held by a chunk or free twice. -/
theorem nodup (h : Held T m G chunks) (hT : T.Nodup) : G.Nodup :=
  (List.nodup_append.mp (h.perm.nodup_iff.mpr hT)).2.1

/-- Every free frame is one of those that there are. -/
theorem subset (h : Held T m G chunks) : G ⊆ T := fun _ hf =>
  h.perm.mem_iff.mp (List.mem_append_right _ hf)

/-- What is written to other frames does not matter to the chunks. -/
theorem change (h : Held T m G chunks) (hT : T.Nodup) (hsame : m.SameOff W m') (hW : W ⊆ G)
    (hG : G.Perm G') : Held T m' G' chunks := by
  have hnd := h.perm.nodup_iff.mpr hT
  have hout (c : LiveChunk) (hc : c ∈ chunks) : ∀ f ∈ LiveChunk.tables c.toChunk, f ∉ W := by
    intro f hf hmem
    have hheld : f ∈ c.held m := List.mem_append_left _ hf
    exact (List.nodup_append.mp hnd).2.2 f (List.mem_flatMap.mpr ⟨c, hc, hheld⟩) f (hW hmem) rfl
  have hmap : chunks.flatMap (·.held m') = chunks.flatMap (·.held m) :=
    List.flatMap_congr fun c hc => (h.ok c hc).held_eq hsame (hout c hc)
  refine ⟨?_, fun c hc => (h.ok c hc).congr hsame (hout c hc)⟩
  rw [hmap]
  exact (hG.symm.append_left _).trans h.perm

end Held

namespace Chunk

/-- Page tables and frames for a chunk. A chunk for which the flag `CT` of the IA32 is set
    needs them in one range. -/
def Supplied (m : Mmu) (bytes : Nat) (flags : Flags) : Prop :=
  pages bytes = 0 ∨ m.Fits (pageTables (pages bytes)) ∧
    if flags.has IA32Flags.ct then m.FitsAfter (pageTables (pages bytes)) (pages bytes)
    else pageTables (pages bytes) + pages bytes ≤ m.list.groupedSize

/-- What the destructor frees is what the chunk has: no frames if the chunk is for I/O, and
    consecutive ones if it has the flag `CT`. -/
def Releasable (m : Mmu) (c : LiveChunk) : Prop :=
  if c.flags.has IA32Flags.io then c.foreign = c.hi
  else c.flags.has IA32Flags.ct → c.Consecutive m

instance (m : Mmu) (bytes : Nat) (flags : Flags) : Decidable (Supplied m bytes flags) :=
  inferInstanceAs (Decidable (_ ∨ _))

instance (m : Mmu) (c : Chunk) : Decidable (c.Consecutive m) :=
  inferInstanceAs (Decidable (∀ i < c.hi, _))

instance (m : Mmu) (c : LiveChunk) : Decidable (Releasable m c) :=
  inferInstanceAs (Decidable (ite _ _ _))

end Chunk

namespace MmuState

variable {σ : MmuState} {T : List Nat}

/-- What a step allocates is there, memory that is not allocated is I/O memory, and what a
    step frees is what the chunk has. -/
def SuppliedIn (m : Mmu) (chunks : List LiveChunk) : MmuAction → Prop
  | .construct bytes flags => Chunk.Supplied m bytes flags
  | .constructAt _ bytes flags =>
    pages bytes = 0 ∨ flags.has Flags.io ∧ m.Fits (pageTables (pages bytes))
  | .resize i amount => ∀ c ∈ chunks[i]?, LiveChunk.Provided m c.toChunk amount
  | .destroy i => ∀ c ∈ chunks[i]?, Chunk.Releasable m c

def Supplied (σ : MmuState) (a : MmuAction) : Prop := ∀ m ∈ σ.mmu, SuppliedIn m σ.chunks a

instance (m : Mmu) (chunks : List LiveChunk) :
    (a : MmuAction) → Decidable (SuppliedIn m chunks a)
  | .construct bytes flags => inferInstanceAs (Decidable (Chunk.Supplied m bytes flags))
  | .constructAt _ _ _ => inferInstanceAs (Decidable (_ ∨ _))
  | .resize i amount =>
    inferInstanceAs (Decidable (∀ c ∈ chunks[i]?, LiveChunk.Provided m c.toChunk amount))
  | .destroy i => inferInstanceAs (Decidable (∀ c ∈ chunks[i]?, Chunk.Releasable m c))

instance (σ : MmuState) (a : MmuAction) : Decidable (σ.Supplied a) :=
  inferInstanceAs (Decidable (∀ m ∈ σ.mmu, SuppliedIn m σ.chunks a))

/-- The frames `T` are those that are free and those that the chunks have, and a chunk that
    is not for I/O has a frame for each of its pages. -/
def Conserves (T : List Nat) (σ : MmuState) : Prop :=
  ∃ m F, σ.mmu = some m ∧ m.Has F ∧ (σ.chunks.flatMap (·.held m) ++ F).Perm T ∧
    ∀ c ∈ σ.chunks, c.flags.has IA32Flags.io = false →
      c.foreign = 0 ∧ c.hi - c.lo = c.asked ∧
      ∀ i, c.lo ≤ i → i < c.hi → ∃ f ∈ T, m.readEntry c.pt i = word c.flags f

def Inv (T : List Nat) (σ : MmuState) : Prop :=
  ∃ m F, σ.mmu = some m ∧ m.Has F ∧ Held T m F σ.chunks

/-- Every frame is free or held by exactly one chunk. -/
theorem Inv.conserves (h : σ.Inv T) : σ.Conserves T := by
  obtain ⟨m, F, heq, hm, hheld⟩ := h
  refine ⟨m, F, heq, hm, hheld.perm, fun c hc hio => ?_⟩
  have hok := hheld.ok c hc
  obtain ⟨hforeign, hasked⟩ := hok.memory hio
  refine ⟨hforeign, by rw [hok.lo, Nat.sub_zero, hasked], fun i hlo hi => ?_⟩
  obtain ⟨f, hf⟩ := hok.entries i (by rw [hforeign]; exact Nat.zero_le _) hi
  refine ⟨f, hheld.perm.mem_iff.mp (List.mem_append_left _ ?_), hf⟩
  refine List.mem_flatMap.mpr ⟨c, hc, List.mem_append_right _ ?_⟩
  refine List.mem_map.mpr ⟨i, List.mem_range'_1.mpr ⟨?_, ?_⟩, ?_⟩
  · omega
  · omega
  · rw [hf, word_div hok.flags]

/-- A chunk is added. -/
theorem Inv.add {m m' : Mmu} {F F' : List Nat} {c : LiveChunk} (hT : T.Nodup)
    (hheld : Held T m F σ.chunks) (hm' : m'.Has F') (hperm : F.Perm (c.held m' ++ F'))
    (hok : c.Ok m') (hsame : m.SameOff (LiveChunk.tables c.toChunk) m') :
    Inv T { mmu := some m', chunks := c :: σ.chunks } := by
  have hsub : LiveChunk.tables c.toChunk ⊆ F := fun f hf =>
    hperm.mem_iff.mpr (List.mem_append_left _ (List.mem_append_left _ hf))
  exact ⟨m', F', rfl, hm', Held.cons_iff.mpr ⟨hok, hheld.change hT hsame hsub hperm⟩⟩

section Step

variable (h : σ.Inv T) (hT : T.Nodup) (hmem : Mmu.InMemory T)

include h hT hmem

/-- The constructor keeps the invariant. -/
theorem Inv.construct {bytes : Nat} {flags : Flags} (hs : σ.Supplied (.construct bytes flags)) :
    (σ.step (.construct bytes flags)).Inv T := by
  obtain ⟨m, F, heq, hm, hheld⟩ := h
  have hs : SuppliedIn m σ.chunks (.construct bytes flags) := hs m heq
  have hF : Mmu.InMemory F := fun f hf => hmem f (hheld.subset hf)
  have hlen := hm.length
  have hfits (hne : pages bytes ≠ 0) := hs.resolve_left hne
  have hct (hct : flags.has IA32Flags.ct) (hne : pages bytes ≠ 0) :
      m.FitsAfter (pageTables (pages bytes)) (pages bytes) := by
    have hafter := (hfits hne).2
    rwa [if_pos hct] at hafter
  -- Without `CT` the frames are taken one by one, and it is enough that there are so many.
  have hmany (hct : ¬flags.has IA32Flags.ct) :
      pageTables (pages bytes) + pages bytes ≤ F.length := by
    by_cases hne : pages bytes = 0
    · rw [hne, pageTables_zero]
      exact Nat.zero_le _
    · have hle := (hfits hne).2
      rw [if_neg hct] at hle
      omega
  obtain ⟨c, m', F', hc, hm', hperm, hok, hsame⟩ :=
    Chunk.construct_eq hm hF flags (fun hne => (hfits hne).1) hct hmany
  have hbind : σ.mmu.bind (Chunk.construct · bytes flags) = some (c, m') := by
    rw [heq, Option.bind_some, hc]
  simp only [MmuState.step, hbind]
  exact Inv.add hT hheld hm' hperm hok hsame

omit hmem in
/-- A chunk over given memory keeps the invariant. -/
theorem Inv.constructAt {addr bytes : Nat} {flags : Flags}
    (hs : σ.Supplied (.constructAt addr bytes flags)) :
    (σ.step (.constructAt addr bytes flags)).Inv T := by
  obtain ⟨m, F, heq, hm, hheld⟩ := h
  have hs : SuppliedIn m σ.chunks (.constructAt addr bytes flags) := hs m heq
  have hfits (hne : pages bytes ≠ 0) := hs.resolve_left hne
  obtain ⟨c, m', F', hc, hm', hperm, hok, hsame⟩ := Chunk.constructAt_eq hm addr
    (fun hne => (hfits hne).1) fun hne => (hfits hne).2
  have hbind : σ.mmu.bind (Chunk.constructAt · addr bytes flags) = some (c, m') := by
    rw [heq, Option.bind_some, hc]
  simp only [MmuState.step, hbind]
  exact Inv.add hT hheld hm' hperm hok hsame

/-- `resize()` keeps the invariant. -/
theorem Inv.resize {i amount : Nat} (hs : σ.Supplied (.resize i amount)) :
    (σ.step (.resize i amount)).Inv T := by
  cases hi : σ.chunks[i]? with
  | none =>
    simp only [MmuState.step, hi]
    exact h
  | some c =>
    obtain ⟨m, F, heq, hm, hheld⟩ := h
    obtain ⟨hlt, hok, hrest⟩ := hheld.take hi
    -- The chunk may take what is free and what it has itself.
    obtain ⟨r, c', m', F', hc, hm', hperm, hok', hsame⟩ :=
      hok.resize hm (fun f hf => hmem f (hrest.subset hf)) (hrest.nodup hT) (hs m heq c hi)
    have hbind : σ.mmu.bind (c.resize · amount) = some (r, c', m') := by
      rw [heq, Option.bind_some, hc]
    have hsub : LiveChunk.tables c' ⊆ c.held m ++ F := fun f hf =>
      hperm.mem_iff.mpr (List.mem_append_left _ (List.mem_append_left _ hf))
    simp only [MmuState.step, hi, hbind]
    refine ⟨m', F', rfl, hm', Held.perm_chunks ?_ (List.set_perm_cons_eraseIdx hlt _).symm⟩
    exact Held.cons_iff.mpr ⟨hok', hrest.change hT hsame hsub hperm⟩

/-- The destructor keeps the invariant. -/
theorem Inv.destroy {i : Nat} (hs : σ.Supplied (.destroy i)) : (σ.step (.destroy i)).Inv T := by
  cases hi : σ.chunks[i]? with
  | none =>
    simp only [MmuState.step, hi]
    exact h
  | some c =>
    obtain ⟨m, F, heq, hm, hheld⟩ := h
    obtain ⟨-, hok, hrest⟩ := hheld.take hi
    have hreleasable : Chunk.Releasable m c := hs m heq c hi
    unfold Chunk.Releasable at hreleasable
    obtain ⟨m', hc, hentry, hm'⟩ := hok.destroy hm (hrest.nodup hT)
      (fun hz => Nat.lt_irrefl 0 (hmem 0 (hrest.subset (List.mem_append_left _ hz))).1)
      (fun hio => by rwa [if_pos hio] at hreleasable)
      fun hio => by rwa [if_neg (by rw [hio]; decide)] at hreleasable
    have hbind : σ.mmu.bind c.destroy = some m' := by rw [heq, Option.bind_some, hc]
    -- No entry is written.
    have hsame : m.SameOff [] m' := fun a _ => by rw [hentry]
    simp only [MmuState.step, hi]
    exact ⟨m', _, hbind, hm', hrest.change hT hsame (List.nil_subset _) (.refl _)⟩

/-- Every step keeps the invariant. -/
theorem Inv.step (a : MmuAction) (hs : σ.Supplied a) : (σ.step a).Inv T := by
  cases a with
  | construct bytes flags => exact h.construct hT hmem hs
  | constructAt addr bytes flags => exact h.constructAt hT hs
  | resize i amount => exact h.resize hT hmem hs
  | destroy i => exact h.destroy hT hmem hs

end Step

end MmuState

/-- Chunks on a machine with the free frames `T`. -/
def frames (T : List Nat) : TransitionSystem MmuState MmuAction where
  Init σ := σ.chunks = [] ∧ Mmu.InMemory T ∧ ∃ m, σ.mmu = some m ∧ m.Has T
  Enabled := MmuState.CanAct
  next := MmuState.step

/-- Frames are conserved all along a run that finds what it allocates and in which what is
    freed is what has been allocated. -/
theorem frames_conserved (T : List Nat) (σ : MmuState) (as : List MmuAction)
    (hinit : (frames T).Init σ) (hv : (frames T).Valid σ as)
    (hm : (frames T).Meets MmuState.Supplied σ as) :
    (frames T).Always (MmuState.Conserves T) σ as := by
  obtain ⟨hchunks, hmem, m, heq, hT⟩ := hinit
  have hinv : σ.Inv T := by
    refine ⟨m, T, heq, hT, ?_, ?_⟩
    · rw [hchunks]
      exact .refl _
    · rw [hchunks]
      exact fun c hc => absurd hc List.not_mem_nil
  have halways : (frames T).Always (MmuState.Inv T) σ as :=
    TransitionSystem.Meets.always (fun σ a h _ hs => h.step hT.nodup hmem a hs) hinv hv hm
  exact halways.imp fun _ h => h.conserves

instance (T : List Nat) (σ : MmuState) (a : MmuAction) : Decidable ((frames T).Enabled σ a) :=
  inferInstanceAs (Decidable (σ.CanAct a))

/-- The frames of these ranges are free. -/
def mmuWith : List Span → Option Mmu
  | [] => some ⟨⟨⟨⟨fun _ => none, fun _ => none⟩, {}⟩, fun _ => 0, 0⟩, fun _ => 0⟩
  | t :: S => (mmuWith S).bind (·.free (t.start * pageBytes) t.size)

/-- Freeing the spans one by one leaves exactly their frames free. -/
theorem mmuWith_has {S : List Span} (hnd : S.cells.Nodup) (hpos : ∀ t ∈ S, t.start ≠ 0) :
    ∃ m, mmuWith S = some m ∧ m.Has S.cells := by
  induction S with
  | nil => exact ⟨_, rfl, [], ⟨⟨rfl, rfl, rfl, trivial⟩, nofun, .nil, rfl⟩, .refl _⟩
  | cons t S ih =>
    rw [List.cells_cons] at hnd
    obtain ⟨m, heq, hm⟩ := ih (List.nodup_append.mp hnd).2.1 fun t ht =>
      hpos t (List.mem_cons_of_mem _ ht)
    have hindexes : indexes (t.start * pageBytes) = t.start * pageBytes := by
      unfold indexes
      rw [Nat.mul_div_cancel _ (by decide)]
    obtain ⟨m', hfree, -, hm'⟩ :=
      hm.free (n := t.size) hindexes (fun _ => hpos t List.mem_cons_self) hnd
    refine ⟨m', ?_, hm'⟩
    rw [mmuWith, heq, Option.bind_some, hfree]

/-- Chunks that are constructed, of every kind, one that grows, two that are destroyed. -/
theorem frames_conserved_example :
    (frames (List.range' 10 12)).Always (MmuState.Conserves (List.range' 10 12))
      { mmu := mmuWith [⟨10, 12⟩] }
      [.construct 10000 ⟨Flags.rw⟩, .construct 8192 ⟨Flags.rw ||| Flags.ct⟩,
        .constructAt 0xa0000 4096 ⟨Flags.io⟩, .resize 2 5000, .destroy 1, .destroy 0] := by
  have hfree := mmuWith_has (S := [⟨10, 12⟩]) (by decide) (by decide)
  have hmem : Mmu.InMemory (List.range' 10 12) := by
    unfold Mmu.InMemory
    decide
  exact frames_conserved _ _ _ ⟨rfl, hmem, hfree⟩ (by decide) (by decide)

/-- A free frame is in a range of the list. -/
theorem Mmu.Has.find_ne {m : Mmu} {F : List Nat} {f : Nat} (h : m.Has F) (hf : f ∈ F) :
    m.list.find (fun e => e ≤ f ∧ f < e + m.list.size e) ≠ some none := by
  obtain ⟨l, hg, hperm⟩ := h
  obtain ⟨t, ht, hmem⟩ := List.mem_cells.mp (hperm.mem_iff.mpr hf)
  obtain ⟨hl, hsize⟩ := GroupingList.mem_spans.mp ht
  rw [Span.mem_cells, Span.stop, hsize] at hmem
  rw [GroupingList.find_eq hg.represents, ne_eq, Option.some.injEq, List.find?_eq_none]
  exact fun hno => hno _ hl (decide_eq_true hmem)

/-- A contiguous chunk is mapped to single frames, but freed as a range. -/
theorem frames_not_conserved :
    ¬∀ as, (frames [10, 20, 30]).Valid { mmu := mmuWith [⟨10, 1⟩, ⟨20, 1⟩, ⟨30, 1⟩] } as →
      (frames [10, 20, 30]).Always (MmuState.Conserves [10, 20, 30])
        { mmu := mmuWith [⟨10, 1⟩, ⟨20, 1⟩, ⟨30, 1⟩] } as := by
  intro h
  obtain ⟨m, F, heq, hm, hperm, -⟩ :=
    (h [.construct 8192 ⟨Flags.rw ||| Flags.ct⟩, .destroy 0] (by decide)).last
  have hF : F.Perm [10, 20, 30] := hperm
  have hfind := hm.find_ne (hF.mem_iff.mpr List.mem_cons_self)
  have hnone : (((frames [10, 20, 30]).run { mmu := mmuWith [⟨10, 1⟩, ⟨20, 1⟩, ⟨30, 1⟩] }
      [.construct 8192 ⟨Flags.rw ||| Flags.ct⟩, .destroy 0]).mmu.bind fun m =>
        m.list.find fun e => e ≤ 10 ∧ 10 < e + m.list.size e) = some none := by decide
  rw [heq, Option.bind_some] at hnone
  exact hfind hnone

end Epos
