import Epos.Kernel.Directory
import Epos.Spec.MmuCorrect

/-!
# Attaching chunks to a page directory

The loops over the entries in closed form, and from them when `attach` stays inside the
directory, maps a window of free entries, and can be undone by `detach`.
-/

namespace Epos

/-- A chunk as its constructors make it: the page tables are pages of the memory, and the
    flags come from the generic ones. -/
structure Chunk.Valid (c : Chunk) : Prop where
  aligned : c.pt % pageBytes = 0
  fits : c.pt + c.pts * pageBytes ≤ 2 ^ 32
  flags : ∃ f : Flags, c.flags = f.toIA32

namespace Chunk

variable {c : Chunk}

/-- The flags of a chunk stay below the frame. -/
theorem Valid.flags_lt (h : c.Valid) : c.flags.bits < pageBytes := by
  obtain ⟨f, hf⟩ := h.flags
  rw [hf]
  exact (IA32Flags.ofBits_eq _ _ _ _ _ _).1

end Chunk

namespace Directory

variable {d : Directory} {c : Chunk} {n i j k lo : Nat}

/-- A directory has 1024 entries. -/
theorem pdEntries_eq : pdEntries = 1024 := rfl

/-! ## The loops -/

/-- The entry is in the directory and is not in use. -/
def Free (d : Directory) (i : Nat) : Prop := d.read i = some 0

def Occupied (d : Directory) (i : Nat) : Prop := ∃ x, d.read i = some x ∧ x ≠ 0

/-- `n` free entries from `i` on. -/
def Window (d : Directory) (n i : Nat) : Prop := ∀ k, i ≤ k → k < i + n → d.Free k

/-- A free entry is in the directory. -/
theorem Free.lt (h : d.Free i) : i < pdEntries := by
  unfold Free read at h
  by_contra hi
  rw [dif_neg hi] at h
  cases h

/-- An occupied entry is in the directory. -/
theorem Occupied.lt (h : d.Occupied i) : i < pdEntries := by
  obtain ⟨x, hx, -⟩ := h
  unfold read at hx
  by_contra hi
  rw [dif_neg hi] at hx
  cases hx

/-- No entry is both. -/
theorem Free.not_occupied (h : d.Free i) : ¬ d.Occupied i := by
  rintro ⟨x, hx, hne⟩
  rw [h] at hx
  cases hx
  exact hne rfl

/-- Every entry is one of both. -/
theorem free_or_occupied (hi : i < pdEntries) : d.Free i ∨ d.Occupied i := by
  unfold Free Occupied read
  rw [dif_pos hi]
  by_cases h : d ⟨i, hi⟩ = 0
  · exact .inl (by rw [h])
  · exact .inr ⟨_, rfl, h⟩

/-- A window ends in the directory. -/
theorem Window.le (h : d.Window n i) (hn : n ≠ 0) : i + n ≤ pdEntries := by
  have := (h (i + n - 1) (by omega) (by omega)).lt
  omega

/-- The test passes for a window. -/
theorem isFree_of_window (h : d.Window n i) : d.isFree n i = some true := by
  induction n generalizing i with
  | zero => rfl
  | succ n ih =>
    have hfree : d.read i = some 0 := h i (Nat.le_refl i) (by omega)
    have htail : d.Window n (i + 1) := fun k hk hlt => h k (by omega) (by omega)
    rw [isFree, hfree, Option.bind_eq_bind, Option.bind_some, if_neg (by simp), ih htail]

/-- The test fails at an occupied entry. -/
theorem isFree_of_occupied (hk : d.Occupied k) (hi : i ≤ k) (hlt : k < i + n) :
    d.isFree n i = some false := by
  induction n generalizing i with
  | zero => omega
  | succ n ih =>
    cases free_or_occupied (d := d) (Nat.lt_of_le_of_lt hi hk.lt) with
    | inl hfree =>
      have hne : i ≠ k := by
        rintro rfl
        exact hfree.not_occupied hk
      have hread : d.read i = some 0 := hfree
      rw [isFree, hread, Option.bind_eq_bind, Option.bind_some, if_neg (by simp)]
      exact ih (by omega) (by omega)
    | inr hocc =>
      obtain ⟨x, hx, hne⟩ := hocc
      rw [isFree, hx, Option.bind_eq_bind, Option.bind_some, if_pos hne]

/-- The loop leaves the directory if nothing stops it before. -/
theorem isFree_overrun (h : ∀ k, i ≤ k → k < pdEntries → d.Free k) (hn : pdEntries < i + n)
    (hpos : n ≠ 0) : d.isFree n i = none := by
  induction n generalizing i with
  | zero => exact absurd rfl hpos
  | succ n ih =>
    by_cases hi : i < pdEntries
    · have hread : d.read i = some 0 := h i (Nat.le_refl i) hi
      rw [isFree, hread, Option.bind_eq_bind, Option.bind_some, if_neg (by simp)]
      exact ih (fun k hk => h k (by omega)) (by omega) (by omega)
    · have hread : d.read i = none := dif_neg hi
      rw [isFree, hread]
      rfl

/-- The directory with the page tables of the chunk from `i` on. -/
def mapped (d : Directory) (c : Chunk) (i : Nat) : Directory := fun k =>
  if i ≤ k.val ∧ k.val < i + c.pts then (c.pt + (k.val - i) * pageBytes) ||| c.flags.bits
  else d k

/-- The directory without the `n` entries from `i` on. -/
def cleared (d : Directory) (n i : Nat) : Directory := fun k =>
  if i ≤ k.val ∧ k.val < i + n then 0 else d k

/-- One table in front of those behind it. -/
theorem tables_succ {flags : IA32Flags} {pt : Nat} (hlt : i < pdEntries) (n : Nat) :
    (fun k : Fin pdEntries =>
      if i + 1 ≤ k.val ∧ k.val < i + 1 + n then
        (pt + pageBytes + (k.val - (i + 1)) * pageBytes) ||| flags.bits
      else Function.update d ⟨i, hlt⟩ (pt ||| flags.bits) k) =
    fun k => if i ≤ k.val ∧ k.val < i + (n + 1) then (pt + (k.val - i) * pageBytes) ||| flags.bits
      else d k := by
  funext k
  -- the first table is at `i`, the others are counted from there
  by_cases hk : k = ⟨i, hlt⟩
  · subst hk
    rw [if_neg (by dsimp only; omega), Function.update_self, if_pos (by dsimp only; omega),
      Nat.sub_self, Nat.zero_mul, Nat.add_zero]
  · have hne : k.val ≠ i := fun h => hk (Fin.ext h)
    rw [Function.update_of_ne hk]
    by_cases hin : i ≤ k.val ∧ k.val < i + (n + 1)
    · have hsub : k.val - i = k.val - (i + 1) + 1 := by omega
      rw [if_pos (by omega), if_pos hin, hsub, Nat.succ_mul, Nat.add_assoc,
        Nat.add_comm pageBytes]
    · rw [if_neg (by omega), if_neg hin]

/-- Mapping writes the page tables one by one. -/
theorem mapTables_eq {flags : IA32Flags} {pt : Nat} (hi : i + n ≤ pdEntries)
    (hpt : pt + n * pageBytes ≤ 2 ^ 32) :
    mapTables flags n i pt d = some fun k =>
      if i ≤ k.val ∧ k.val < i + n then (pt + (k.val - i) * pageBytes) ||| flags.bits
      else d k := by
  induction n generalizing i pt d with
  | zero =>
    rw [mapTables, Option.some_inj]
    funext k
    rw [if_neg (by omega)]
  | succ n ih =>
    have hlt : i < pdEntries := by omega
    have hwrite : d.write i (pt ||| flags.bits) =
        some (Function.update d ⟨i, hlt⟩ (pt ||| flags.bits)) := dif_pos hlt
    rw [Nat.succ_mul] at hpt
    rw [mapTables, hwrite, Option.bind_eq_bind, Option.bind_some, ← tables_succ hlt]
    by_cases hn : n = 0
    · -- the pointer behind the last table is not used
      subst hn
      rw [mapTables, Option.some_inj]
      funext k
      rw [if_neg (by omega)]
    · have hpt' : pt + pageBytes < 2 ^ 32 := by
        have hmul := Nat.mul_le_mul_right pageBytes (Nat.one_le_iff_ne_zero.mpr hn)
        have hpos : 0 < pageBytes := by decide
        omega
      rw [Nat.mod_eq_of_lt hpt', ih (by omega) (by omega)]

/-- Clearing writes zeros. -/
theorem clear_eq (hi : i + n ≤ pdEntries) : clear n i d = some (d.cleared n i) := by
  induction n generalizing i d with
  | zero =>
    rw [clear, Option.some_inj]
    funext k
    rw [cleared, if_neg (by omega)]
  | succ n ih =>
    have hlt : i < pdEntries := by omega
    have hwrite : d.write i 0 = some (Function.update d ⟨i, hlt⟩ 0) := dif_pos hlt
    rw [clear, hwrite, Option.bind_eq_bind, Option.bind_some, ih (by omega), Option.some_inj]
    funext k
    unfold cleared
    by_cases hk : k = ⟨i, hlt⟩
    · subst hk
      rw [Function.update_self, ite_self, if_pos (by dsimp only; omega)]
    · have hne : k.val ≠ i := fun h => hk (Fin.ext h)
      rw [Function.update_of_ne hk]
      by_cases hin : i ≤ k.val ∧ k.val < i + (n + 1)
      · rw [if_pos (by omega), if_pos hin]
      · rw [if_neg (by omega), if_neg hin]

/-! ## Attaching at an index -/

/-- A chunk is attached at a window. -/
theorem attachTables_of_window (hc : c.Valid) (h : d.Window c.pts i) (hi : i + c.pts ≤ pdEntries) :
    d.attachTables i c.pt c.pts c.flags = some (true, d.mapped c i) := by
  unfold attachTables
  rw [isFree_of_window h, Option.bind_eq_bind, Option.bind_some, if_pos rfl,
    mapTables_eq hi hc.fits]
  rfl

/-- A chunk is not attached over an occupied entry. -/
theorem attachTables_of_occupied {pt : Nat} {flags : IA32Flags} (hk : d.Occupied k) (hi : i ≤ k)
    (hlt : k < i + n) : d.attachTables i pt n flags = some (false, d) := by
  unfold attachTables
  rw [isFree_of_occupied hk hi hlt]
  rfl

/-- Behind the last entry the test reads outside of the directory. -/
theorem attachTables_overrun {pt : Nat} {flags : IA32Flags}
    (h : ∀ k, i ≤ k → k < pdEntries → d.Free k) (hn : pdEntries < i + n) (hpos : n ≠ 0) :
    d.attachTables i pt n flags = none := by
  unfold attachTables
  rw [isFree_overrun h hn hpos]
  rfl

/-- What the checks of the entries from `i` on come to, one by one. -/
theorem window_cases (d : Directory) (n i : Nat) :
    d.Window n i ∨ (∃ k, i ≤ k ∧ k < i + n ∧ d.Occupied k) ∨
      (pdEntries < i + n ∧ n ≠ 0 ∧ ∀ k, i ≤ k → k < pdEntries → d.Free k) := by
  by_cases hocc : ∃ k, i ≤ k ∧ k < i + n ∧ d.Occupied k
  · exact .inr (.inl hocc)
  · have hfree : ∀ k, i ≤ k → k < i + n → k < pdEntries → d.Free k := by
      intro k hk hlt hpd
      cases free_or_occupied hpd with
      | inl h => exact h
      | inr h => exact absurd ⟨k, hk, hlt, h⟩ hocc
    by_cases hn : n = 0
    · exact .inl fun k hk hlt => absurd hlt (by omega)
    · by_cases hle : i + n ≤ pdEntries
      · exact .inl fun k hk hlt => hfree k hk hlt (by omega)
      · exact .inr (.inr ⟨by omega, hn, fun k hk hlt => hfree k hk (by omega) hlt⟩)

/-- The first window that the loop of `attach(chunk, from)` comes to. -/
structure FirstWindow (d : Directory) (n lo i : Nat) : Prop where
  le : lo ≤ i
  lt : i < pdEntries
  window : d.Window n i
  first : ∀ j, lo ≤ j → j < i → ¬ d.Window n j

/-- The first window is inside of the directory. -/
theorem FirstWindow.inside (h : d.FirstWindow n lo i) : i + n ≤ pdEntries := by
  by_cases hn : n = 0
  · have := h.lt
    omega
  · exact h.window.le hn

/-- Where there is a window there is a first one. -/
theorem exists_firstWindow (hi : d.Window n i) (hlo : lo ≤ i) (hlt : i < pdEntries) :
    ∃ j, d.FirstWindow n lo j := by
  induction i using Nat.strong_induction_on with
  | _ i ih =>
    by_cases h : ∃ j, lo ≤ j ∧ j < i ∧ d.Window n j
    · obtain ⟨j, hlj, hji, hj⟩ := h
      exact ih j hji hj hlj (Nat.lt_trans hji hlt)
    · exact ⟨i, hlo, hlt, hi, fun j hlj hji hj => h ⟨j, hlj, hji, hj⟩⟩

/-- The loop attaches at the first window. -/
theorem attachLoop_first (hc : c.Valid) (h : d.FirstWindow c.pts lo i) (hk : lo + k = pdEntries) :
    attachLoop c d k lo = some (i * 2 ^ directoryShift, d.mapped c i) := by
  induction k generalizing lo with
  | zero =>
    have := h.le
    have := h.lt
    omega
  | succ k ih =>
    have hinside := h.inside
    by_cases hlo : lo = i
    · subst hlo
      rw [attachLoop, attachTables_of_window hc h.window hinside]
      rfl
    · have hle := h.le
      have hnot := h.first lo (Nat.le_refl lo) (by omega)
      rcases window_cases d c.pts lo with hw | ⟨j, hj, hlt, hocc⟩ | ⟨hover, -, -⟩
      · exact absurd hw hnot
      · rw [attachLoop, attachTables_of_occupied hocc hj hlt]
        exact ih ⟨by omega, h.lt, h.window, fun j hj => h.first j (by omega)⟩ (by omega)
      · omega

/-- Without a window, an entry in use at the end stops every check. -/
theorem attachLoop_occupied (h : ∀ i, lo ≤ i → i < pdEntries → ¬ d.Window c.pts i)
    (hlast : d.Occupied (pdEntries - 1)) (hk : lo + k = pdEntries) :
    attachLoop c d k lo = some (0, d) := by
  induction k generalizing lo with
  | zero => rfl
  | succ k ih =>
    have hnot := h lo (Nat.le_refl lo) (by omega)
    rcases window_cases d c.pts lo with hw | ⟨j, hj, hlt, hocc⟩ | ⟨-, -, hfree⟩
    · exact absurd hw hnot
    · rw [attachLoop, attachTables_of_occupied hocc hj hlt]
      exact ih (fun i hi => h i (by omega)) (by omega)
    · exact absurd hlast (hfree _ (by omega) (by omega)).not_occupied

/-- Without a window, a free entry at the end lets the last check leave the directory. -/
theorem attachLoop_overrun (h : ∀ i, lo ≤ i → i < pdEntries → ¬ d.Window c.pts i)
    (hlast : d.Free (pdEntries - 1)) (hk : lo + (k + 1) = pdEntries) :
    attachLoop c d (k + 1) lo = none := by
  induction k generalizing lo with
  | zero =>
    have hnot := h lo (Nat.le_refl lo) (by omega)
    have hlo : lo = pdEntries - 1 := by omega
    rcases window_cases d c.pts lo with hw | ⟨j, hj, -, hocc⟩ | ⟨hover, hn, hfree⟩
    · exact absurd hw hnot
    · have hj' : j = pdEntries - 1 := by
        have := hocc.lt
        omega
      exact absurd hocc (hj' ▸ hlast.not_occupied)
    · rw [attachLoop, attachTables_overrun hfree hover hn]
      rfl
  | succ k ih =>
    have hnot := h lo (Nat.le_refl lo) (by omega)
    rcases window_cases d c.pts lo with hw | ⟨j, hj, hlt, hocc⟩ | ⟨hover, hn, hfree⟩
    · exact absurd hw hnot
    · rw [attachLoop, attachTables_of_occupied hocc hj hlt]
      exact ih (fun i hi => h i (by omega)) (by omega)
    · rw [attachLoop, attachTables_overrun hfree hover hn]
      rfl

/-! ## Detaching -/

section Mapped

variable (hc : c.Valid) (hw : d.Window c.pts i) (hi : i + c.pts ≤ pdEntries)

/-- The entries in front are as before. -/
theorem read_mapped_of_lt (hj : j < i) : (d.mapped c i).read j = d.read j := by
  unfold read mapped
  by_cases hlt : j < pdEntries
  · rw [dif_pos hlt, dif_pos hlt, if_neg (by dsimp only; omega)]
  · rw [dif_neg hlt, dif_neg hlt]

/-- A chunk without page tables maps nothing. -/
theorem mapped_zero (hn : c.pts = 0) : d.mapped c i = d := by
  funext k
  rw [mapped, if_neg (by omega)]

include hc in
/-- The entries of the chunk are not zero. -/
theorem mapped_ne_zero {k : Fin pdEntries} (hk : i ≤ k.val ∧ k.val < i + c.pts) :
    d.mapped c i k ≠ 0 := by
  obtain ⟨f, hf⟩ := hc.flags
  have hpre : c.flags.has IA32Flags.pre := by
    rw [hf]
    exact (IA32Flags.ofBits_eq _ _ _ _ _ _).2.1
  unfold mapped
  rw [if_pos hk]
  intro hzero
  obtain ⟨-, hbits⟩ := Nat.or_eq_zero_iff.mp hzero
  rw [IA32Flags.has, hbits] at hpre
  cases hpre

include hc in
/-- The first entry of the chunk leads to its first page table. -/
theorem read_mapped_self (hn : c.pts ≠ 0) (hi : i < pdEntries) :
    ∃ x, (d.mapped c i).read i = some x ∧ indexes x = indexes c.pt := by
  refine ⟨_, dif_pos hi, ?_⟩
  have hpt : c.pt = c.pt / pageBytes * pageBytes := by
    have := Nat.div_add_mod' c.pt pageBytes
    rw [hc.aligned] at this
    omega
  unfold mapped
  rw [if_pos (by dsimp only; omega), Nat.sub_self, Nat.zero_mul, Nat.add_zero]
  unfold indexes
  have hword := word_div hc.flags_lt (c.pt / pageBytes)
  unfold word at hword
  rw [← hpt] at hword
  rw [hword]

include hw in
/-- Clearing undoes the mapping. -/
theorem cleared_mapped : (d.mapped c i).cleared c.pts i = d := by
  funext k
  unfold cleared mapped
  by_cases hk : i ≤ k.val ∧ k.val < i + c.pts
  · have hfree : d.read k.val = some 0 := hw k.val hk.1 hk.2
    unfold read at hfree
    rw [dif_pos k.isLt] at hfree
    rw [if_pos hk]
    exact (Option.some.inj hfree).symm
  · rw [if_neg hk, if_neg hk]

end Mapped

/-- No entry in front of `i` has the address of the chunk's page tables. -/
def Unshadowed (d : Directory) (c : Chunk) (i : Nat) : Prop :=
  c.pts = 0 ∨ ∀ j < i, ∀ x, d.read j = some x → indexes x ≠ indexes c.pt

/-- A chunk without page tables is detached at once. -/
theorem detachLoop_zero (hn : c.pts = 0) (hk : i + k ≤ pdEntries) :
    detachLoop c d k i = some d := by
  induction k generalizing i with
  | zero => rfl
  | succ k ih =>
    have hread : d.read i = some (d ⟨i, by omega⟩) := dif_pos (by omega)
    rw [detachLoop, hread, Option.bind_eq_bind, Option.bind_some, hn, ih (by omega), clear,
      ite_self]

/-- The loop ends at the first entry with the address, so not behind one that has it. -/
theorem exists_detachLoop {x : Nat} (hj : d.read j = some x) (hx : indexes x = indexes c.pt)
    (hij : i ≤ j) (hk : i + k = pdEntries) :
    ∃ l, i ≤ l ∧ l ≤ j ∧ (∃ y, d.read l = some y ∧ indexes y = indexes c.pt) ∧
      detachLoop c d k i = clear c.pts l d := by
  have hlt : j < pdEntries := by
    unfold read at hj
    by_contra h
    rw [dif_neg h] at hj
    cases hj
  induction k generalizing i with
  | zero => omega
  | succ k ih =>
    have hread : d.read i = some (d ⟨i, by omega⟩) := dif_pos (by omega)
    rw [detachLoop, hread, Option.bind_eq_bind, Option.bind_some]
    -- the first entry with that table is cleared, which need not be the one of this segment
    by_cases hmatch : indexes (d ⟨i, by omega⟩) = indexes c.pt
    · rw [if_pos hmatch]
      exact ⟨i, Nat.le_refl i, hij, ⟨_, hread, hmatch⟩, rfl⟩
    · have hne : i ≠ j := by
        rintro rfl
        rw [hread, Option.some_inj] at hj
        rw [← hj] at hx
        exact hmatch hx
      rw [if_neg hmatch]
      obtain ⟨l, hil, hlj, hl, heq⟩ := ih (i := i + 1) (by omega) (by omega)
      exact ⟨l, by omega, hlj, hl, heq⟩

/-- `detach(chunk)` undoes the mapping exactly if it finds it first. -/
theorem detach_mapped_iff (hc : c.Valid) (hw : d.Window c.pts i) (hi : i + c.pts ≤ pdEntries) :
    (d.mapped c i).detach c = some d ↔ d.Unshadowed c i := by
  unfold detach
  by_cases hn : c.pts = 0
  · rw [mapped_zero hn, detachLoop_zero hn (by omega)]
    exact ⟨fun _ => .inl hn, fun _ => rfl⟩
  constructor
  · intro h
    refine .inr fun j hj x hread hx => ?_
    rw [← read_mapped_of_lt (c := c) hj] at hread
    obtain ⟨l, -, hlj, -, heq⟩ := exists_detachLoop hread hx (Nat.zero_le j) (Nat.zero_add _)
    rw [heq, clear_eq (by omega), Option.some_inj] at h
    -- the last entry of the mapping is still there
    have hlast : i + c.pts - 1 < pdEntries := by omega
    have hfree : d.read (i + c.pts - 1) = some 0 := hw _ (by omega) (by omega)
    unfold read at hfree
    rw [dif_pos hlast] at hfree
    have hentry := congrFun h ⟨i + c.pts - 1, hlast⟩
    rw [cleared, if_neg (by dsimp only; omega), Option.some.inj hfree] at hentry
    exact mapped_ne_zero hc (by dsimp only; omega) hentry
  · intro h
    have hbefore := h.resolve_left hn
    obtain ⟨x, hread, hx⟩ := read_mapped_self (d := d) hc hn (i := i) (by omega)
    obtain ⟨l, -, hli, ⟨y, hy, hyx⟩, heq⟩ :=
      exists_detachLoop hread hx (Nat.zero_le i) (Nat.zero_add _)
    have hl : l = i := by
      by_contra hne
      rw [read_mapped_of_lt (by omega)] at hy
      exact hbefore l (by omega) y hy hyx
    rw [heq, hl, clear_eq hi, cleared_mapped hw]

/-- The index of the address of an entry. -/
theorem directoryIndex_shift (i : Nat) : directoryIndex (i * 2 ^ directoryShift) = i :=
  Nat.mul_div_cancel i (by decide)

/-- `detach(chunk, addr)` always undoes it. -/
theorem detachAddr_mapped (hc : c.Valid) (hw : d.Window c.pts i) (hi : i + c.pts ≤ pdEntries)
    (hlt : i < pdEntries) :
    (d.mapped c i).detachAddr c (i * 2 ^ directoryShift) = some d := by
  unfold detachAddr
  rw [directoryIndex_shift]
  dsimp only
  by_cases hn : c.pts = 0
  · have hread : (d.mapped c i).read i = some _ := dif_pos hlt
    rw [hread, Option.bind_eq_bind, Option.bind_some, mapped_zero hn, hn, clear, ite_self]
  · obtain ⟨x, hread, hx⟩ := read_mapped_self (d := d) hc hn hlt
    rw [hread, Option.bind_eq_bind, Option.bind_some, if_neg (not_not_intro hx), clear_eq hi,
      cleared_mapped hw]

/-! ## The claim about both methods -/

/-- What `attach` should give, if it tries these indices: a window of free entries that is
    mapped then, and with which `detach` restores the directory, or nothing if there is none. -/
def Attaches (d : Directory) (c : Chunk) (tries : Nat → Prop)
    (result : Option (Nat × Directory)) : Prop :=
  (∃ i, tries i ∧ i + c.pts ≤ pdEntries ∧ d.Window c.pts i ∧
    result = some (i * 2 ^ directoryShift, d.mapped c i) ∧
    (d.mapped c i).detach c = some d ∧
    (d.mapped c i).detachAddr c (i * 2 ^ directoryShift) = some d) ∨
  ((∀ i, tries i → ¬ d.Window c.pts i) ∧ result = some (0, d))

/-- Attaching at a window is right exactly if no entry in front has the same page table. -/
theorem attaches_found_iff {tries : Nat → Prop} (hc : c.Valid) (hw : d.Window c.pts i)
    (hi : i + c.pts ≤ pdEntries) (hlt : i < pdEntries) (htry : tries i) :
    d.Attaches c tries (some (i * 2 ^ directoryShift, d.mapped c i)) ↔ d.Unshadowed c i := by
  constructor
  · rintro (⟨j, -, -, -, hresult, hdetach, -⟩ | ⟨hnone, -⟩)
    · rw [Option.some_inj, Prod.mk.injEq] at hresult
      have hij : i = j := Nat.mul_right_cancel (by decide) hresult.1
      rw [← hij] at hdetach
      exact (detach_mapped_iff hc hw hi).mp hdetach
    · exact absurd hw (hnone i htry)
  · intro h
    exact .inl ⟨i, htry, hi, hw, rfl, (detach_mapped_iff hc hw hi).mpr h,
      detachAddr_mapped hc hw hi hlt⟩

/-- An overrun attaches nothing. -/
theorem not_attaches_none {tries : Nat → Prop} : ¬ d.Attaches c tries none := by
  rintro (⟨i, -, -, -, hresult, -⟩ | ⟨-, hresult⟩)
  · cases hresult
  · cases hresult

/-- There is an index with a window, or an entry in use stops the checks before the end. -/
def StopsFrom (d : Directory) (n lo : Nat) : Prop :=
  pdEntries ≤ lo ∨ (∃ i, lo ≤ i ∧ i < pdEntries ∧ d.Window n i) ∨ d.Occupied (pdEntries - 1)

/-- The same for one index. -/
def StopsAt (d : Directory) (n i : Nat) : Prop := i + n ≤ pdEntries ∨ ∃ k, i ≤ k ∧ d.Occupied k

/-- There is one first window. -/
theorem FirstWindow.unique {n lo i j : Nat} (hi : d.FirstWindow n lo i)
    (hj : d.FirstWindow n lo j) : i = j := by
  have hij : ¬ j < i := fun hlt => hi.first j hj.le hlt hj.window
  have hji : ¬ i < j := fun hlt => hj.first i hi.le hlt hi.window
  omega

/-- Without a window, `attach` has to be stopped by an entry in use. -/
theorem attach_windowless_iff {lo : Nat} (hlo : lo < pdEntries)
    (hnone : ∀ i, lo ≤ i → i < pdEntries → ¬ d.Window c.pts i) :
    d.Attaches c (fun i => lo ≤ i ∧ i < pdEntries) (d.attach c lo) ↔
      d.Occupied (pdEntries - 1) := by
  unfold attach
  cases free_or_occupied (d := d) (i := pdEntries - 1) (by decide) with
  | inl hfree =>
    obtain ⟨k, hk⟩ : ∃ k, pdEntries - lo = k + 1 := ⟨pdEntries - lo - 1, by omega⟩
    rw [hk, attachLoop_overrun hnone hfree (by omega)]
    exact iff_of_false not_attaches_none hfree.not_occupied
  | inr hocc =>
    rw [attachLoop_occupied hnone hocc (by omega)]
    exact iff_of_true (.inr ⟨fun i hi => hnone i hi.1 hi.2, rfl⟩) hocc

/-- `attach(chunk, from)` is right exactly under the two conditions. -/
theorem attach_iff (hc : c.Valid) (lo : Nat) :
    d.Attaches c (fun i => lo ≤ i ∧ i < pdEntries) (d.attach c lo) ↔
      d.StopsFrom c.pts lo ∧ ∀ i, d.FirstWindow c.pts lo i → d.Unshadowed c i := by
  by_cases hlo : pdEntries ≤ lo
  · -- the loop is not entered
    unfold attach
    rw [Nat.sub_eq_zero_of_le hlo]
    refine iff_of_true (.inr ⟨fun i hi => by omega, rfl⟩) ⟨.inl hlo, fun i hi => ?_⟩
    exact absurd (hlo.trans hi.le) (Nat.not_le.mpr hi.lt)
  by_cases hwindow : ∃ i, lo ≤ i ∧ i < pdEntries ∧ d.Window c.pts i
  · obtain ⟨i, hi⟩ : ∃ i, d.FirstWindow c.pts lo i := by
      obtain ⟨i, hle, hlt, hw⟩ := hwindow
      exact exists_firstWindow hw hle hlt
    unfold attach
    rw [attachLoop_first hc hi (by omega),
      attaches_found_iff hc hi.window hi.inside hi.lt ⟨hi.le, hi.lt⟩]
    constructor
    · exact fun h => ⟨.inr (.inl hwindow), fun j hj => hi.unique hj ▸ h⟩
    · exact fun h => h.2 i hi
  · have hnone : ∀ i, lo ≤ i → i < pdEntries → ¬ d.Window c.pts i :=
      fun i hle hlt hw => hwindow ⟨i, hle, hlt, hw⟩
    rw [attach_windowless_iff (by omega) hnone]
    constructor
    · exact fun hocc => ⟨.inr (.inr hocc), fun i hi => absurd hi.window (hnone i hi.le hi.lt)⟩
    · rintro ⟨hstop | hstop | hstop, -⟩
      · exact absurd hstop hlo
      · exact absurd hstop hwindow
      · exact hstop

/-- `attach(chunk, addr)` is right exactly under the two conditions. -/
theorem attachAddr_iff (hc : c.Valid) {addr : Nat} (haddr : addr < 2 ^ 32) :
    d.Attaches c (· = directoryIndex addr) (d.attachAddr c addr) ↔
      d.StopsAt c.pts (directoryIndex addr) ∧
        (d.Window c.pts (directoryIndex addr) → d.Unshadowed c (directoryIndex addr)) := by
  have hlt : directoryIndex addr < pdEntries :=
    Nat.div_lt_of_lt_mul haddr
  unfold attachAddr
  dsimp only
  generalize directoryIndex addr = i at hlt
  -- a window, an occupied entry in it, or a range that leaves the directory
  rcases window_cases d c.pts i with hw | ⟨k, hk, hkn, hocc⟩ | ⟨hover, hn, hfree⟩
  · have hi : i + c.pts ≤ pdEntries := by
      by_cases hn : c.pts = 0
      · omega
      · exact hw.le hn
    rw [attachTables_of_window hc hw hi, Option.bind_eq_bind, Option.bind_some]
    dsimp only
    have hiff : d.Attaches c (fun j => j = i) (some (i * 2 ^ directoryShift, d.mapped c i)) ↔ _ :=
      attaches_found_iff hc hw hi hlt rfl
    rw [if_pos rfl, hiff]
    exact ⟨fun h => ⟨.inl hi, fun _ => h⟩, fun h => h.2 hw⟩
  · have hnot : ¬ d.Window c.pts i := fun hw => (hw k hk hkn).not_occupied hocc
    rw [attachTables_of_occupied hocc hk hkn]
    constructor
    · exact fun _ => ⟨.inr ⟨k, hk, hocc⟩, fun hw => absurd hw hnot⟩
    · rintro -
      refine .inr ⟨?_, rfl⟩
      rintro j rfl
      exact hnot
  · rw [attachTables_overrun hfree hover hn]
    constructor
    · exact fun h => absurd h not_attaches_none
    · rintro ⟨hle | ⟨k, hk, hocc⟩, -⟩
      · omega
      · exact absurd hocc (hfree k hk hocc.lt).not_occupied

/-- For every directory and chunk, at every start index and address: `attach` and `detach` do
    what they should exactly if the checks stop inside the directory, and no entry in front
    of the window that is taken has the address of the chunk's page tables. -/
theorem directory_iff (d : Directory) (c : Chunk) (hc : c.Valid) :
    (∀ lo, d.Attaches c (fun i => lo ≤ i ∧ i < pdEntries) (d.attach c lo) ↔
      d.StopsFrom c.pts lo ∧ ∀ i, d.FirstWindow c.pts lo i → d.Unshadowed c i) ∧
    ∀ addr, addr < 2 ^ 32 → (d.Attaches c (· = directoryIndex addr) (d.attachAddr c addr) ↔
      d.StopsAt c.pts (directoryIndex addr) ∧
        (d.Window c.pts (directoryIndex addr) → d.Unshadowed c (directoryIndex addr))) :=
  ⟨attach_iff hc, fun _ haddr => attachAddr_iff hc haddr⟩

/-- Two page tables, for 1025 pages. -/
def twoTables : Chunk where
  lo := 0
  hi := 1025
  pts := 2
  flags := Flags.toIA32 ⟨0x007⟩
  pt := 0x5000

/-- The chunk of the example is valid. -/
theorem twoTables_valid : twoTables.Valid := ⟨by decide, by decide, ⟨0x007⟩, rfl⟩

/-- Only the last entry is free: the check of the second one is behind the directory. -/
theorem attach_behind_directory :
    ¬ ∀ (d : Directory) (c : Chunk), c.Valid → ∀ lo,
      d.Attaches c (fun i => lo ≤ i ∧ i < pdEntries) (d.attach c lo) := by
  intro h
  have hfull := h (fun k => if k.val = 1023 then 0 else 0x6067) twoTables twoTables_valid 1023
  have hnone : attach (fun k => if k.val = 1023 then 0 else 0x6067) twoTables 1023 = none := rfl
  rw [hnone] at hfull
  exact not_attaches_none hfull

/-- In an empty directory, from the last but one entry on. -/
theorem directory_iff_example :
    Attaches (fun _ => 0) twoTables (fun i => 1022 ≤ i ∧ i < pdEntries)
      (attach (fun _ => 0) twoTables 1022) := by
  have hfree (i : Nat) (hi : i < pdEntries) : Free (fun _ => 0) i := dif_pos hi
  apply ((directory_iff (fun _ => 0) twoTables twoTables_valid).1 1022).mpr
  constructor
  · refine .inr (.inl ⟨1022, Nat.le_refl _, by decide, fun k hk hlt => hfree k ?_⟩)
    have hpts : twoTables.pts = 2 := rfl
    rw [pdEntries_eq]
    omega
  · intro i hi
    refine .inr fun j hj x hx => ?_
    have hread := hfree j (Nat.lt_trans hj hi.lt)
    have hzero : some x = some 0 := hx.symm.trans hread
    cases hzero
    decide

end Directory

end Epos
