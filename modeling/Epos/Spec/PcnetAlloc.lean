import Epos.ForStd.Fuel
import Epos.Network.Pcnet32
import Mathlib.Algebra.Order.Floor.Ring
import Mathlib.Data.Finset.Lattice.Fold
import Mathlib.Data.Fintype.Basic
import Mathlib.Data.List.Nodup
import Mathlib.Data.List.Perm.Subperm
import Mathlib.Data.List.TakeWhile
import Mathlib.Data.Rat.Floor

/-!
# Pools of the NIC

`alloc` takes buffers in the order of the ring. A buffer that is locked and not the device's stops
it for ever, and so does one that it has taken itself: a pool cannot go round the ring.
-/

namespace Epos

namespace PCNet32

open Fuel

variable {release : Device} {limit size : Int32} {always : UInt32} {r : Ring} {time : Nat}
variable {locked : Fin TX_BUFS → Bool} {i : Fin TX_BUFS}

/-! ## Waiting for a buffer -/

/-- One round of the search for a free buffer. -/
theorem seize_succ (n : Nat) : seize release locked time i (n + 1) =
    if time < release i then seize release locked (time + 1) (i + 1) n
    else if locked i then seize release locked (time + 1) i n
    else some (time + 1, i) := rfl

/-- A search that ends does so whatever the fuel. -/
theorem seize_independent (time : Nat) (i : Fin TX_BUFS) :
    Independent (seize release locked time i) := by
  intro n s h
  induction n generalizing time i with
  | zero => cases h
  | succ n ih =>
    rw [seize_succ] at h ⊢
    split at h
    · next howned => rw [if_pos howned, ih _ _ h]
    · next howned =>
      rw [if_neg howned]
      split at h
      · next hlocked => rw [if_pos hlocked, ih _ _ h]
      · next hlocked => rw [if_neg hlocked, h]

variable {s : Nat × Fin TX_BUFS}

/-- A buffer of the device is passed. -/
theorem seize_owned (h : time < release i) :
    Returns (seize release locked time i) s ↔ Returns (seize release locked (time + 1) (i + 1)) s :=
  returns_succ_iff rfl fun n => by rw [seize_succ, if_pos h]

/-- The search ends at once at a free buffer. -/
theorem seize_free (h : release i ≤ time) (hfree : locked i = false) :
    Returns (seize release locked time i) s ↔ s = (time + 1, i) := by
  have hstep : ∀ n, seize release locked time i (n + 1) = some (time + 1, i) := by
    intro n
    rw [seize_succ, if_neg (Nat.not_lt.mpr h), hfree, if_neg Bool.false_ne_true]
  rw [returns_succ_iff rfl hstep, returns_const_iff, Option.some_inj, eq_comm]

/-- Nobody unlocks a buffer that is locked and not the device's. -/
theorem not_seize_locked (h : release i ≤ time) (hlocked : locked i = true) :
    ¬ Returns (seize release locked time i) s := by
  intro ⟨n, hn⟩
  induction n generalizing time with
  | zero => cases hn
  | succ n ih =>
    rw [seize_succ, if_neg (Nat.not_lt.mpr h), if_pos hlocked] at hn
    exact ih (Nat.le_succ_of_le h) hn

/-! ## The loop -/

variable {p : List Filled × Ring}

/-- One round of the loop of `alloc()`. -/
theorem allocLoop_succ (n : Nat) : allocLoop release limit always time r size (n + 1) =
    if size > 0 then
      (seize release r.locked time r.tx_cur n).bind fun s =>
        (allocLoop release limit always s.1 (r.seized s.2) (size - limit) n).map
          fun pool => ((s.2, fragment limit always size) :: pool.1, pool.2)
    else some ([], r) := rfl

/-- A loop that ends does so whatever the fuel. -/
theorem allocLoop_independent (time : Nat) (r : Ring) (size : Int32) :
    Independent (allocLoop release limit always time r size) := by
  intro n p h
  induction n generalizing time r size p with
  | zero => cases h
  | succ n ih =>
    rw [allocLoop_succ] at h ⊢
    split at h
    · next hpos =>
      rw [if_pos hpos]
      obtain ⟨s, hs, h⟩ := Option.bind_eq_some_iff.mp h
      obtain ⟨q, hq, h⟩ := Option.map_eq_some_iff.mp h
      rw [seize_independent _ _ n s hs, Option.bind_some, ih _ _ _ _ hq, Option.map_some, h]
    · next hdone => rw [if_neg hdone, h]

/-- Nothing is left. -/
theorem allocLoop_done (h : size ≤ 0) :
    Returns (allocLoop release limit always time r size) p ↔ p = ([], r) := by
  have hstep : ∀ n, allocLoop release limit always time r size (n + 1) = some ([], r) := by
    intro n
    rw [allocLoop_succ, if_neg (Int32.not_lt.mpr h)]
  rw [returns_succ_iff rfl hstep, returns_const_iff, Option.some_inj, eq_comm]

/-- One round seizes a buffer and goes on from the one behind it. -/
theorem allocLoop_round (h : 0 < size) :
    Returns (allocLoop release limit always time r size) p ↔
      ∃ s, Returns (seize release r.locked time r.tx_cur) s ∧
        ∃ q, Returns (allocLoop release limit always s.1 (r.seized s.2) (size - limit)) q ∧
          ((s.2, fragment limit always size) :: q.1, q.2) = p := by
  have hstep : ∀ n, allocLoop release limit always time r size (n + 1) =
      (seize release r.locked time r.tx_cur n).bind fun s =>
        (allocLoop release limit always s.1 (r.seized s.2) (size - limit) n).map
          fun pool => ((s.2, fragment limit always size) :: pool.1, pool.2) := by
    intro n
    rw [allocLoop_succ, if_pos h]
  rw [returns_succ_iff rfl hstep, returns_bind_iff (seize_independent _ _)
    fun s => (allocLoop_independent _ _ _).map _]
  exact exists_congr fun s => and_congr_right fun _ => returns_map_iff

/-- The loop does the same from the buffer behind one of the device. -/
theorem allocLoop_owned (hpos : 0 < size) (h : time < release r.tx_cur) :
    Returns (allocLoop release limit always time r size) p ↔
      Returns (allocLoop release limit always (time + 1) { r with tx_cur := r.tx_cur + 1 } size)
        p := by
  rw [allocLoop_round hpos, allocLoop_round hpos]
  exact exists_congr fun s => and_congr_left fun _ => seize_owned h

/-- With a free buffer a round takes it and goes on behind. -/
theorem allocLoop_free (hpos : 0 < size) (h : release r.tx_cur ≤ time)
    (hfree : r.locked r.tx_cur = false) :
    Returns (allocLoop release limit always time r size) p ↔
      ∃ q, Returns (allocLoop release limit always (time + 1) (r.seized r.tx_cur) (size - limit)) q ∧
        ((r.tx_cur, fragment limit always size) :: q.1, q.2) = p := by
  rw [allocLoop_round hpos]
  constructor
  · intro ⟨s, hs, hq⟩
    rw [seize_free h hfree] at hs
    rwa [hs] at hq
  · intro hq
    exact ⟨(time + 1, r.tx_cur), (seize_free h hfree).mpr rfl, hq⟩

/-- With a locked buffer that the device has done with the loop never ends. -/
theorem not_allocLoop_locked (hpos : 0 < size) (h : release r.tx_cur ≤ time)
    (hlocked : r.locked r.tx_cur = true) :
    ¬ Returns (allocLoop release limit always time r size) p := by
  rw [allocLoop_round hpos]
  intro ⟨s, hs, _⟩
  exact not_seize_locked h hlocked hs

/-! ## The ring -/

/-- Buffers in the order of the ring. -/
def ahead (i : Fin TX_BUFS) : Nat → List (Fin TX_BUFS)
  | 0 => []
  | k + 1 => i :: ahead (i + 1) k

/-- No buffer ahead. -/
@[simp] theorem ahead_zero (i : Fin TX_BUFS) : ahead i 0 = [] := rfl

/-- The next buffer comes first. -/
theorem ahead_succ (i : Fin TX_BUFS) (k : Nat) : ahead i (k + 1) = i :: ahead (i + 1) k := rfl

/-- As many buffers as asked for. -/
@[simp] theorem length_ahead (i : Fin TX_BUFS) (k : Nat) : (ahead i k).length = k := by
  induction k generalizing i with
  | zero => rfl
  | succ k ih => rw [ahead_succ, List.length_cons, ih]

/-- Indices ahead wrap around at 64. -/
theorem val_ahead (i : Fin TX_BUFS) (j : Nat) :
    (i + Fin.ofNat TX_BUFS j).val = (i.val + j) % 64 := by
  rw [Fin.val_add, Fin.val_ofNat, Nat.add_mod_mod]

/-- Nothing is added. -/
@[simp] theorem add_ofNat_zero (i : Fin TX_BUFS) : i + Fin.ofNat TX_BUFS 0 = i := by
  have hlt : i.val < 64 := i.isLt
  apply Fin.ext
  rw [val_ahead]
  omega

/-- Going one further is going one more. -/
theorem add_one_add (i : Fin TX_BUFS) (j : Nat) :
    i + 1 + Fin.ofNat TX_BUFS j = i + Fin.ofNat TX_BUFS (j + 1) := by
  have hone : (i + 1).val = (i.val + 1) % 64 := Fin.val_add i 1
  apply Fin.ext
  rw [val_ahead, val_ahead, hone]
  omega

/-- The buffers ahead by their distance. -/
theorem ahead_eq_map (i : Fin TX_BUFS) (k : Nat) :
    ahead i k = (List.range k).map fun j => i + Fin.ofNat TX_BUFS j := by
  induction k generalizing i with
  | zero => rfl
  | succ k ih =>
    rw [ahead_succ, ih, List.range_succ_eq_map, List.map_cons, List.map_map, add_ofNat_zero]
    exact congrArg _ (List.map_congr_left fun j _ => add_one_add i j)

/-- The buffers ahead in two parts. -/
theorem ahead_add (i : Fin TX_BUFS) (a b : Nat) :
    ahead i (a + b) = ahead i a ++ ahead (i + Fin.ofNat TX_BUFS a) b := by
  induction a generalizing i with
  | zero => rw [Nat.zero_add, ahead_zero, List.nil_append, add_ofNat_zero]
  | succ a ih => rw [Nat.add_right_comm, ahead_succ, ih, ahead_succ, List.cons_append, add_one_add]

/-- Up to 64 buffers ahead are different. -/
theorem nodup_ahead (i : Fin TX_BUFS) {k : Nat} (hk : k ≤ 64) : (ahead i k).Nodup := by
  rw [ahead_eq_map]
  refine List.Nodup.map_on (fun j hj j' hj' heq => ?_) List.nodup_range
  rw [List.mem_range] at hj hj'
  have hval := congrArg Fin.val heq
  rw [val_ahead, val_ahead] at hval
  omega

/-- The 64 buffers ahead are all that there are. -/
theorem mem_ahead (i x : Fin TX_BUFS) : x ∈ ahead i 64 := by
  rw [ahead_eq_map, List.mem_map]
  have hi : i.val < 64 := i.isLt
  have hx : x.val < 64 := x.isLt
  refine ⟨(x.val + 64 - i.val) % 64, List.mem_range.mpr (Nat.mod_lt _ (by decide)), ?_⟩
  apply Fin.ext
  rw [val_ahead]
  omega

/-- What is in front of the first buffer that fails a test. -/
theorem takeWhile_ahead (test : Fin TX_BUFS → Bool) (i : Fin TX_BUFS) (k : Nat) :
    ∃ j ≤ k, (ahead i k).takeWhile test = ahead i j ∧ ∀ x ∈ ahead i j, test x = true := by
  induction k generalizing i with
  | zero => exact ⟨0, Nat.le_refl 0, rfl, by simp⟩
  | succ k ih =>
    rw [ahead_succ]
    by_cases hi : test i = true
    · obtain ⟨j, hj, heq, hall⟩ := ih (i + 1)
      refine ⟨j + 1, Nat.succ_le_succ hj, ?_, ?_⟩
      · rw [List.takeWhile_cons_of_pos hi, heq, ahead_succ]
      · rw [ahead_succ, List.forall_mem_cons]
        exact ⟨hi, hall⟩
    · exact ⟨0, Nat.zero_le _, List.takeWhile_cons_of_neg hi, by simp⟩

/-- The first place in the order of the ring for which a test passes. -/
theorem exists_first (i : Fin TX_BUFS) {test : Fin TX_BUFS → Bool} (h : ∃ x, test x = true) :
    ∃ j < 64, test (i + Fin.ofNat TX_BUFS j) = true ∧ ∀ x ∈ ahead i j, test x = false := by
  obtain ⟨x, hx⟩ := h
  have hmem := mem_ahead i x
  rw [ahead_eq_map, List.mem_map] at hmem
  obtain ⟨k, hk, rfl⟩ := hmem
  have hex : ∃ j, test (i + Fin.ofNat TX_BUFS j) = true := ⟨k, hx⟩
  refine ⟨Nat.find hex, ?_, Nat.find_spec hex, ?_⟩
  · exact Nat.lt_of_le_of_lt (Nat.find_le hx) (List.mem_range.mp hk)
  · intro y hy
    rw [ahead_eq_map, List.mem_map] at hy
    obtain ⟨b, hb, rfl⟩ := hy
    simpa using Nat.find_min hex (List.mem_range.mp hb)

/-- From wherever one starts, all buffers are met once. -/
theorem ahead_perm (i i' : Fin TX_BUFS) : (ahead i 64).Perm (ahead i' 64) :=
  (List.perm_ext_iff_of_nodup (nodup_ahead i (Nat.le_refl _)) (nodup_ahead i' (Nat.le_refl _))).mpr
    fun x => iff_of_true (mem_ahead i x) (mem_ahead i' x)

/-! ## Sizes -/

/-- What `max_data` is for headers that leave room in a frame. -/
structure Limit (limit : Int32) (always : UInt32) (max : Nat) : Prop where
  pos : 0 < max
  toInt : limit.toInt = max
  sum : always.toNat + max = 1500

variable {max : Nat}

/-- One fragment less is to come. -/
theorem Limit.toInt_sub (h : Limit limit always max) (hpos : 0 < size.toInt) :
    (size - limit).toInt = size.toInt - max := by
  have hsum := h.sum
  have hlt := size.toInt_lt
  rw [Int32.toInt_sub, h.toInt]
  exact Int.bmod_eq_of_le (by omega) (by omega)

/-- A fragment that is not the last one is full. -/
theorem Limit.fragment_full (h : Limit limit always max) (hmore : (max : Int) < size.toInt) :
    (fragment limit always size).toNat = 1500 := by
  have hlt : limit < size := Int32.lt_iff_toInt_lt.mpr (by rw [h.toInt]; exact hmore)
  rw [fragment, if_pos hlt]
  rfl

/-- The last fragment takes what is left. -/
theorem Limit.fragment_last (h : Limit limit always max) (hpos : 0 < size.toInt)
    (hle : size.toInt ≤ max) :
    ((fragment limit always size).toNat : Int) = size.toInt + always.toNat := by
  have hsum := h.sum
  have hnot : ¬ limit < size := by
    rw [Int32.lt_iff_toInt_lt, h.toInt]
    omega
  have hzero : (0 : Int32) ≤ size := Int32.le_iff_toInt_le.mpr (by simpa using hpos.le)
  have hsize : (size.toUInt32.toNat : Int) = size.toInt := by
    rw [Int32.toNat_toUInt32_of_le hzero, Int32.toNatClampNeg]
    exact Int.toNat_of_nonneg hpos.le
  rw [fragment, if_neg hnot, UInt32.toNat_add, Nat.mod_eq_of_lt (by omega)]
  omega

/-- `n` buffers for `m` bytes: all but the last are full, and each has a header. -/
structure Split (buffers : List Filled) (m : Int) (n : Nat) (always : UInt32) : Prop where
  length : buffers.length = n
  full : ∀ x ∈ buffers.dropLast, x.2.toNat = 1500
  sum : 0 < n → (((buffers.map fun x => x.2.toNat).sum : Nat) : Int) = m + n * always.toNat

/-- Nothing is split into no buffer. -/
theorem Split.nil {m : Int} : Split [] m 0 always := ⟨rfl, by simp, fun h => absurd h (by decide)⟩

/-- A full fragment, and the rest. -/
theorem Split.cons {buffers : List Filled} {n : Nat} (hlimit : Limit limit always max)
    (hmore : (n : Int) * max < size.toInt) (hle : size.toInt ≤ (n + 1 : Int) * max)
    (h : Split buffers (size - limit).toInt n always) :
    Split ((i, fragment limit always size) :: buffers) size.toInt (n + 1) always := by
  have hnonneg : 0 ≤ (n : Int) * max := by positivity
  have hsub := hlimit.toInt_sub (by omega : 0 < size.toInt)
  have hsum := hlimit.sum
  cases n with
  -- the last buffer takes what is left
  | zero =>
    have hnil : buffers = [] := List.length_eq_zero_iff.mp h.length
    subst hnil
    have hlast := hlimit.fragment_last (by omega : 0 < size.toInt) (by simpa using hle)
    exact ⟨rfl, by simp, fun _ => by simp [hlast]⟩
  -- a full buffer, with the header paid again by the rest
  | succ n =>
    have hstep : ((n + 1 : Nat) : Int) * max = n * max + max := by push_cast; ring
    have hpos : 0 ≤ (n : Int) * max := by positivity
    have hfull := hlimit.fragment_full (by omega : (max : Int) < size.toInt)
    have hne : buffers ≠ [] := List.ne_nil_of_length_pos (by rw [h.length]; exact Nat.succ_pos n)
    refine ⟨by rw [List.length_cons, h.length], ?_, fun _ => ?_⟩
    · rw [List.dropLast_cons_of_ne_nil hne, List.forall_mem_cons]
      exact ⟨hfull, h.full⟩
    · have hrest := h.sum (Nat.succ_pos n)
      rw [List.map_cons, List.sum_cons, hfull]
      push_cast at hrest ⊢
      rw [hrest, hsub]
      have hheader : ((n : Int) + 1 + 1) * always.toNat =
          (n + 1) * always.toNat + always.toNat := by ring
      rw [hheader]
      omega

/-! ## Enough buffers -/

/-- Seizing a buffer locks no other one. -/
theorem seized_locked_of_ne {j : Fin TX_BUFS} (h : j ≠ i) : (r.seized i).locked j = r.locked j :=
  Function.update_of_ne h _ _

/-- Where there are as many buffers of the host as are needed in front of the first locked one,
    the loop ends within them. -/
theorem allocLoop_returns (hlimit : Limit limit always max) (time k : Nat)
    (hnodup : (ahead r.tx_cur k).Nodup) (hunlocked : ∀ i ∈ ahead r.tx_cur k, r.locked i = false)
    {n : Nat} (hmore : ((n : Int) - 1) * max < size.toInt) (hle : size.toInt ≤ n * max)
    (hfree : n ≤ (ahead r.tx_cur k).countP fun i => release i = 0) :
    ∃ buffers r', Returns (allocLoop release limit always time r size) (buffers, r') ∧
      Split buffers size.toInt n always ∧
      (buffers.map Prod.fst).Sublist (ahead r.tx_cur k) := by
  induction k generalizing r time size n with
  | zero =>
    have hzero : n = 0 := Nat.le_zero.mp hfree
    subst hzero
    have hdone : size ≤ 0 := Int32.le_iff_toInt_le.mpr (by simpa using hle)
    exact ⟨[], r, (allocLoop_done hdone).mpr rfl, Split.nil, List.nil_sublist _⟩
  | succ k ih =>
    cases n with
    | zero =>
      have hdone : size ≤ 0 := Int32.le_iff_toInt_le.mpr (by simpa using hle)
      exact ⟨[], r, (allocLoop_done hdone).mpr rfl, Split.nil, List.nil_sublist _⟩
    | succ n =>
      rw [ahead_succ] at hnodup hunlocked hfree ⊢
      rw [List.forall_mem_cons] at hunlocked
      rw [List.nodup_cons] at hnodup
      have hnonneg : 0 ≤ (n : Int) * max := by positivity
      have hstep : ((n : Int) + 1) * max = n * max + max := by ring
      push_cast at hmore hle
      rw [Int.add_sub_cancel] at hmore
      have hpos : 0 < size.toInt := by omega
      have hpos' : 0 < size := Int32.lt_iff_toInt_lt.mpr (by simpa using hpos)
      by_cases howned : time < release r.tx_cur
      · -- the device has it still
        have hcount : n + 1 ≤ (ahead (r.tx_cur + 1) k).countP fun i => release i = 0 := by
          rwa [List.countP_cons_of_neg (by simp; omega)] at hfree
        obtain ⟨buffers, r', hreturns, hsplit, hsub⟩ := ih (r := { r with tx_cur := r.tx_cur + 1 })
          (time + 1) hnodup.2 hunlocked.2 (by push_cast; rwa [Int.add_sub_cancel])
          (by push_cast; exact hle) hcount
        exact ⟨buffers, r', (allocLoop_owned hpos' howned).mpr hreturns, hsplit,
          hsub.cons r.tx_cur⟩
      · -- it is taken, and is not met again
        have hrest : ∀ j ∈ ahead (r.tx_cur + 1) k, (r.seized r.tx_cur).locked j = false := by
          intro j hj
          have hne : j ≠ r.tx_cur := fun heq => hnodup.1 (heq ▸ hj)
          rw [seized_locked_of_ne hne]
          exact hunlocked.2 j hj
        have hcount : n ≤ (ahead (r.tx_cur + 1) k).countP fun i => release i = 0 := by
          rw [List.countP_cons] at hfree
          split at hfree <;> omega
        have hsubtract := hlimit.toInt_sub hpos
        have hbefore : ((n : Int) - 1) * max = n * max - max := by ring
        obtain ⟨buffers, r', hreturns, hsplit, hsub⟩ := ih (r := r.seized r.tx_cur)
          (time + 1) hnodup.2 hrest (by rw [hsubtract]; omega) (by rw [hsubtract]; omega)
          hcount
        refine ⟨_, _, (allocLoop_free hpos' (Nat.le_of_not_lt howned) hunlocked.1).mpr
          ⟨_, hreturns, rfl⟩, hsplit.cons hlimit hmore hle, ?_⟩
        rw [List.map_cons]
        exact hsub.cons_cons r.tx_cur

/-- A single buffer is found without any that the host has, once the device has released one. -/
theorem allocLoop_one (hunlocked : ∀ i, r.locked i = false) (hpos : 0 < size)
    (hlast : size - limit ≤ 0) (time d : Nat) (hd : ∀ i, release i ≤ time + d) :
    ∃ i r', Returns (allocLoop release limit always time r size)
      ([(i, fragment limit always size)], r') := by
  induction d generalizing r time with
  | zero =>
    exact ⟨r.tx_cur, r.seized r.tx_cur, (allocLoop_free hpos (hd r.tx_cur) (hunlocked _)).mpr
      ⟨_, (allocLoop_done hlast).mpr rfl, rfl⟩⟩
  | succ d ih =>
    by_cases howned : time < release r.tx_cur
    · obtain ⟨i, r', hreturns⟩ := ih (r := { r with tx_cur := r.tx_cur + 1 }) hunlocked
        (time + 1) (fun i => by have h := hd i; omega)
      exact ⟨i, r', (allocLoop_owned hpos howned).mpr hreturns⟩
    · exact ⟨r.tx_cur, r.seized r.tx_cur,
        (allocLoop_free hpos (Nat.le_of_not_lt howned) (hunlocked _)).mpr
          ⟨_, (allocLoop_done hlast).mpr rfl, rfl⟩⟩

/-! ## Too few buffers -/

/-- The last buffer is one of those ahead. -/
theorem last_mem_ahead (i : Fin TX_BUFS) (j : Nat) : i + Fin.ofNat TX_BUFS j ∈ ahead i (j + 1) := by
  rw [ahead_add]
  exact List.mem_append_right _ (List.mem_singleton.mpr rfl)

/-- Where a locked buffer that is not the device's comes before there have been enough, the loop
    does not end. The device keeps all that it has. -/
theorem not_allocLoop_stuck (hlimit : Limit limit always max) (time j : Nat)
    (hnodup : (ahead r.tx_cur (j + 1)).Nodup)
    (hunlocked : ∀ i ∈ ahead r.tx_cur j, r.locked i = false)
    (hdevice : ∀ i ∈ ahead r.tx_cur j, release i = 0 ∨ time + j ≤ release i)
    (hlocked : r.locked (r.tx_cur + Fin.ofNat TX_BUFS j) = true)
    (hreleased : release (r.tx_cur + Fin.ofNat TX_BUFS j) = 0) {n : Nat}
    (hmore : (n : Int) * max < size.toInt)
    (hfew : ((ahead r.tx_cur j).countP fun i => release i = 0) ≤ n) :
    ¬ Returns (allocLoop release limit always time r size) p := by
  induction j generalizing r time size n p with
  | zero =>
    rw [add_ofNat_zero] at hlocked hreleased
    have hnonneg : 0 ≤ (n : Int) * max := by positivity
    have hpos : 0 < size := Int32.lt_iff_toInt_lt.mpr (by simp; omega)
    exact not_allocLoop_locked hpos (by omega) hlocked
  | succ j ih =>
    have hnonneg : 0 ≤ (n : Int) * max := by positivity
    have hpos : 0 < size.toInt := by omega
    have hpos' : 0 < size := Int32.lt_iff_toInt_lt.mpr (by simpa using hpos)
    rw [← add_one_add] at hlocked hreleased
    rw [ahead_succ] at hnodup hunlocked hdevice hfew
    rw [List.nodup_cons] at hnodup
    rw [List.forall_mem_cons] at hunlocked hdevice
    have hlater : ∀ i ∈ ahead (r.tx_cur + 1) j, release i = 0 ∨ time + 1 + j ≤ release i :=
      fun i hi => (hdevice.2 i hi).imp_right fun h => by omega
    by_cases hzero : release r.tx_cur = 0
    · -- it is taken, and is not the locked one
      rw [List.countP_cons_of_pos (by simpa using hzero)] at hfew
      obtain ⟨n, rfl⟩ : ∃ k, n = k + 1 := ⟨n - 1, by omega⟩
      rw [allocLoop_free hpos' (by omega) hunlocked.1]
      intro ⟨q, hq, _⟩
      have hne : ∀ i ∈ ahead (r.tx_cur + 1) (j + 1), i ≠ r.tx_cur :=
        fun i hi heq => hnodup.1 (heq ▸ hi)
      have hsub : ∀ i ∈ ahead (r.tx_cur + 1) j, i ∈ ahead (r.tx_cur + 1) (j + 1) := by
        intro i hi
        rw [ahead_add]
        exact List.mem_append_left _ hi
      refine ih (r := r.seized r.tx_cur) (time + 1) hnodup.2 ?_ hlater ?_ hreleased ?_
        (Nat.le_of_succ_le_succ hfew) hq
      · intro i hi
        rw [seized_locked_of_ne (hne i (hsub i hi))]
        exact hunlocked.2 i hi
      · show (r.seized r.tx_cur).locked (r.tx_cur + 1 + Fin.ofNat TX_BUFS j) = true
        rw [seized_locked_of_ne (hne _ (last_mem_ahead _ j))]
        exact hlocked
      · have hstep : ((n + 1 : Nat) : Int) * max = n * max + max := by push_cast; ring
        rw [hlimit.toInt_sub hpos]
        omega
    · -- the device keeps it
      have howned : time < release r.tx_cur := by
        have h := hdevice.1.resolve_left hzero
        omega
      rw [List.countP_cons_of_neg (by simpa using hzero)] at hfew
      rw [allocLoop_owned hpos' howned]
      exact ih (r := { r with tx_cur := r.tx_cur + 1 }) (time + 1) hnodup.2 hunlocked.2 hlater
        hlocked hreleased hmore hfew

/-- Buffers that the device keeps are passed. -/
theorem allocLoop_skip (hpos : 0 < size) (time a : Nat)
    (h : ∀ i ∈ ahead r.tx_cur a, time + a ≤ release i) :
    Returns (allocLoop release limit always time r size) p ↔
      Returns (allocLoop release limit always (time + a)
        { r with tx_cur := r.tx_cur + Fin.ofNat TX_BUFS a } size) p := by
  induction a generalizing r time with
  | zero => rw [add_ofNat_zero, Nat.add_zero]
  | succ a ih =>
    rw [ahead_succ, List.forall_mem_cons] at h
    have howned : time < release r.tx_cur := by omega
    have hrest : ∀ i ∈ ahead (r.tx_cur + 1) a, time + 1 + a ≤ release i :=
      fun i hi => by have hi' := h.2 i hi; omega
    rw [allocLoop_owned hpos howned, ih (r := { r with tx_cur := r.tx_cur + 1 }) (time + 1) hrest,
      add_one_add, Nat.add_right_comm, Nat.add_assoc]

/-- Where there are fewer buffers in the whole ring than are needed, the loop comes back to the
    first one that it has taken. -/
theorem not_allocLoop_around (hlimit : Limit limit always max) (time a : Nat)
    (hunlocked : ∀ i, r.locked i = false)
    (hskip : ∀ i ∈ ahead r.tx_cur a, time + a ≤ release i)
    (hdevice : ∀ i, release i = 0 ∨ time + a + 64 ≤ release i)
    (hreleased : release (r.tx_cur + Fin.ofNat TX_BUFS a) = 0) {n : Nat}
    (hmore : (n : Int) * max < size.toInt)
    (hfew : ((ahead r.tx_cur 64).countP fun i => release i = 0) ≤ n) :
    ¬ Returns (allocLoop release limit always time r size) p := by
  have hnonneg : 0 ≤ (n : Int) * max := by positivity
  have hpos : 0 < size.toInt := by omega
  have hpos' : 0 < size := Int32.lt_iff_toInt_lt.mpr (by simpa using hpos)
  rw [allocLoop_skip hpos' time a hskip]
  generalize r.tx_cur + Fin.ofNat TX_BUFS a = u at hreleased
  -- the whole ring, with the buffer that is taken first at the end
  have haround : u + 1 + Fin.ofNat TX_BUFS 63 = u := by
    have hlt : u.val < 64 := u.isLt
    apply Fin.ext
    rw [add_one_add, val_ahead]
    omega
  have hring : ahead (u + 1) 64 = ahead (u + 1) 63 ++ [u] := by
    have hsplit := ahead_add (u + 1) 63 1
    rwa [haround] at hsplit
  have hnodup := nodup_ahead (u + 1) (Nat.le_refl 64)
  have hne : ∀ i ∈ ahead (u + 1) 63, i ≠ u := by
    intro i hi heq
    rw [hring, List.nodup_append] at hnodup
    exact hnodup.2.2 i hi u (List.mem_singleton.mpr rfl) heq
  rw [(ahead_perm r.tx_cur (u + 1)).countP_eq, hring, List.countP_append,
    List.countP_singleton, if_pos (by simpa using hreleased)] at hfew
  obtain ⟨n, rfl⟩ : ∃ k, n = k + 1 := ⟨n - 1, by omega⟩
  rw [allocLoop_free hpos' (by show release u ≤ _; omega) (hunlocked u)]
  intro ⟨q, hq, _⟩
  refine not_allocLoop_stuck (r := Ring.seized _ u) hlimit (time + a + 1) 63 hnodup ?_ ?_ ?_ ?_ ?_
    (Nat.le_of_succ_le_succ hfew) hq
  · intro i hi
    rw [seized_locked_of_ne (hne i hi)]
    exact hunlocked i
  · intro i _
    exact (hdevice i).imp_right fun h => by omega
  · show (Ring.seized _ u).locked (u + 1 + Fin.ofNat TX_BUFS 63) = true
    rw [haround]
    exact Function.update_self ..
  · show release (u + 1 + Fin.ofNat TX_BUFS 63) = 0
    rwa [haround]
  · have hstep : ((n + 1 : Nat) : Int) * max = n * max + max := by push_cast; ring
    rw [hlimit.toInt_sub hpos]
    omega

/-! ## `alloc` -/

/-- The number of buffers for all bytes, where each has a header. -/
def frames (once always payload : UInt32) : Int :=
  ⌈((once.toNat + payload.toNat : Nat) : Rat) / ((MTU.toNat : Rat) - always.toNat)⌉

/-- A pool as the upper layers need it: all buffers but the last are full, and together they hold
    all bytes and a header each. -/
structure Pool (once always payload : UInt32) (buffers : List Filled) : Prop where
  nonempty : buffers ≠ []
  length : (buffers.length : Int) = frames once always payload
  full : ∀ x ∈ buffers.dropLast, x.2.toNat = MTU.toNat
  sum : (buffers.map fun x => x.2.toNat).sum =
    once.toNat + payload.toNat + buffers.length * always.toNat
  nodup : (buffers.map Prod.fst).Nodup

/-- Whenever the device releases the buffers that it owns, `alloc` returns a pool. -/
def AllocCorrect (owned : Fin TX_BUFS → Bool) (r : Ring) (once always payload : UInt32) : Prop :=
  ∀ release : Device, (∀ i, owned i = false → release i = 0) →
    ∃ buffers r', Returns (alloc release r once always payload) (.pool buffers, r') ∧
      Pool once always payload buffers

/-- The buffers of the host in front of the first one that is locked. -/
def available (owned : Fin TX_BUFS → Bool) (r : Ring) : Nat :=
  ((ahead r.tx_cur 64).takeWhile fun i => !r.locked i).countP fun i => !owned i

/-- There is something to send, a header leaves room for it, the sum does not wrap around, and
    there are enough buffers: all of them available, or a single one that has to be waited for in
    a ring without locks. -/
structure Fits (owned : Fin TX_BUFS → Bool) (r : Ring) (once always payload : UInt32) : Prop where
  room : always < MTU
  pos : 0 < once.toNat + payload.toNat
  small : once.toNat + payload.toNat < 2 ^ 32
  enough : frames once always payload ≤ available owned r ∨
    frames once always payload = 1 ∧ ∀ i, r.locked i = false

variable {once payload : UInt32} {owned : Fin TX_BUFS → Bool}

/-- How many frames a payload needs. -/
theorem frames_eq_iff (hroom : always.toNat + max = 1500) (hmax : 0 < max) (n : Int) :
    frames once always payload = n ↔
      (n - 1) * max < ((once.toNat + payload.toNat : Nat) : Int) ∧
        ((once.toNat + payload.toNat : Nat) : Int) ≤ n * max := by
  have hmtu : (MTU.toNat : Rat) - always.toNat = (max : Rat) := by
    have hnat : MTU.toNat = always.toNat + max := hroom.symm
    rw [hnat]
    push_cast
    ring
  have hpos : (0 : Rat) < max := by exact_mod_cast hmax
  rw [frames, hmtu, Int.ceil_eq_iff, lt_div_iff₀ hpos, div_le_iff₀ hpos]
  norm_cast

/-- The test of `alloc()` in numbers. -/
theorem admits_iff :
    admits once always payload = true ↔ max_data always ≠ 0 ∧
      ¬ (payload + once) / (max_data always).toUInt32 > UInt32.ofNat TX_BUFS := by
  rw [admits, Bool.and_eq_true, decide_eq_true_iff, decide_eq_true_iff, gt_iff_lt, UInt32.not_lt]

/-- `alloc()` returns the pool of its loop. -/
theorem returns_alloc_iff (hadmits : admits once always payload = true) {buffers : List Filled}
    {r' : Ring} :
    Returns (alloc release r once always payload) (.pool buffers, r') ↔
      buffers ≠ [] ∧ Returns (allocLoop release (max_data always) always 0 r
        (once + payload).toInt32) (buffers, r') := by
  obtain ⟨hzero, hguard⟩ := admits_iff.mp hadmits
  have halloc : alloc release r once always payload = fun fuel =>
      (allocLoop release (max_data always) always 0 r (once + payload).toInt32 fuel).map
        fun pool => (if pool.1.isEmpty then Result.trap else .pool pool.1, pool.2) := by
    funext fuel
    rw [alloc, if_neg hzero, if_neg hguard]
  rw [halloc, returns_map_iff]
  constructor
  · intro ⟨pool, hpool, heq⟩
    by_cases hempty : pool.1.isEmpty
    · rw [if_pos hempty] at heq
      cases heq
    · rw [if_neg hempty] at heq
      cases heq
      exact ⟨by simpa using hempty, hpool⟩
  · intro ⟨hne, hpool⟩
    refine ⟨_, hpool, ?_⟩
    rw [if_neg (by simpa using hne)]

/-! ## What a pool says about the sizes -/

/-- A pool has at most 64 buffers. -/
theorem Pool.length_le {buffers : List Filled} (h : Pool once always payload buffers) :
    buffers.length ≤ 64 := by
  have hsub := (List.subperm_of_subset h.nodup fun x _ => mem_ahead 0 x).length_le
  rwa [List.length_map, length_ahead] at hsub

/-- A pool has at least one frame. -/
theorem Pool.frames_pos {buffers : List Filled} (h : Pool once always payload buffers) :
    0 < frames once always payload := by
  rw [← h.length]
  exact_mod_cast List.length_pos_of_ne_nil h.nonempty

/-- A frame has room for its header. -/
theorem room_of_frames_pos (h : 0 < frames once always payload) : always < MTU := by
  by_contra hle
  rw [UInt32.not_lt, UInt32.le_iff_toNat_le] at hle
  have hneg : (MTU.toNat : Rat) - always.toNat ≤ 0 := by
    have hcast : (MTU.toNat : Rat) ≤ always.toNat := by exact_mod_cast hle
    linarith
  have hceil : frames once always payload ≤ 0 := by
    rw [frames, Int.ceil_le]
    exact_mod_cast div_nonpos_of_nonneg_of_nonpos (Nat.cast_nonneg _) hneg
  omega

/-- What is not empty needs a frame. -/
theorem frames_pos (hroom : always < MTU) (hpos : 0 < once.toNat + payload.toNat) :
    0 < frames once always payload := by
  have hlt : (always.toNat : Rat) < MTU.toNat := by
    exact_mod_cast UInt32.lt_iff_toNat_lt.mp hroom
  have htotal : (0 : Rat) < ((once.toNat + payload.toNat : Nat) : Rat) := by exact_mod_cast hpos
  rw [frames, Int.ceil_pos]
  exact div_pos htotal (by linarith)

/-- The headers leave room, which is what `max_data` says. -/
theorem limit_of_room (h : always < MTU) :
    Limit (max_data always) always (1500 - always.toNat) := by
  have hlt : always.toNat < 1500 := UInt32.lt_iff_toNat_lt.mp h
  have hle : always ≤ MTU := UInt32.le_of_lt h
  have hsub : (MTU - always).toNat = 1500 - always.toNat := by
    rw [UInt32.toNat_sub_of_le _ _ hle]
    rfl
  refine ⟨by omega, ?_, by omega⟩
  show (MTU - always).toBitVec.toInt = _
  rw [BitVec.toInt_eq_toNat_of_lt]
  · show ((MTU - always).toNat : Int) = _
    rw [hsub]
  · show 2 * (MTU - always).toNat < 2 ^ 32
    omega

/-- What the guard admits is small, where it does not wrap around. -/
theorem toInt_size (hadmits : admits once always payload = true) (hroom : always < MTU)
    (hsmall : once.toNat + payload.toNat < 2 ^ 32) :
    (once + payload).toInt32.toInt = ((once.toNat + payload.toNat : Nat) : Int) := by
  obtain ⟨-, hguard⟩ := admits_iff.mp hadmits
  have hlt : always.toNat < 1500 := UInt32.lt_iff_toNat_lt.mp hroom
  have hmax : (max_data always).toUInt32.toNat = 1500 - always.toNat := by
    rw [max_data, UInt32.toUInt32_toInt32, UInt32.toNat_sub_of_le _ _ (UInt32.le_of_lt hroom)]
    rfl
  have htotal : (once + payload).toNat = once.toNat + payload.toNat := by
    rw [UInt32.toNat_add, Nat.mod_eq_of_lt hsmall]
  have hquotient : (once.toNat + payload.toNat) / (1500 - always.toNat) ≤ 64 := by
    rw [gt_iff_lt, UInt32.not_lt, UInt32.le_iff_toNat_le, UInt32.toNat_div, hmax,
      UInt32.add_comm, htotal] at hguard
    exact hguard
  have hbound : once.toNat + payload.toNat < 65 * (1500 - always.toNat) :=
    (Nat.div_lt_iff_lt_mul (by omega)).mp (Nat.lt_succ_of_le hquotient)
  show (once + payload).toBitVec.toInt = _
  rw [BitVec.toInt_eq_toNat_of_lt]
  · show ((once + payload).toNat : Int) = _
    rw [htotal]
  · show 2 * (once + payload).toNat < 2 ^ 32
    omega

/-! ## Both directions -/

/-- Where the loop gives buffers for all bytes, they are a pool. -/
theorem Split.pool {buffers : List Filled} {n : Nat} (hframes : frames once always payload = n) (hpos : 0 < n)
    (h : Split buffers ((once.toNat + payload.toNat : Nat) : Int) n always)
    (hnodup : (buffers.map Prod.fst).Nodup) : Pool once always payload buffers where
  nonempty := List.ne_nil_of_length_pos (by rw [h.length]; exact hpos)
  length := by rw [h.length, hframes]
  full := h.full
  sum := by
    have hsum := h.sum hpos
    rw [h.length]
    exact_mod_cast hsum
  nodup := hnodup

/-- Where the pool fits `alloc()` is right. -/
theorem Fits.correct (hadmits : admits once always payload = true)
    (h : Fits owned r once always payload) : AllocCorrect owned r once always payload := by
  intro release hrelease
  have hlimit := limit_of_room h.room
  have hsize := toInt_size hadmits h.room h.small
  have hpos := frames_pos h.room h.pos
  obtain ⟨n, hn⟩ := Int.eq_ofNat_of_zero_le hpos.le
  obtain ⟨hmore, hle⟩ := (frames_eq_iff hlimit.sum hlimit.pos n).mp hn
  have hn' : 0 < n := by omega
  rw [← hsize] at hmore hle
  cases h.enough with
  | inl havailable =>
    -- the buffers in front of the first locked one
    obtain ⟨k, hk, hprefix, hall⟩ := takeWhile_ahead (fun i => !r.locked i) r.tx_cur 64
    have hunlocked : ∀ i ∈ ahead r.tx_cur k, r.locked i = false :=
      fun i hi => by simpa using hall i hi
    have hfree : n ≤ (ahead r.tx_cur k).countP fun i => release i = 0 := by
      rw [available, hprefix] at havailable
      have hmono : (ahead r.tx_cur k).countP (fun i => !owned i) ≤
          (ahead r.tx_cur k).countP fun i => release i = 0 :=
        List.countP_mono_left fun i _ hi => by simpa using hrelease i (by simpa using hi)
      omega
    obtain ⟨buffers, r', hreturns, hsplit, hsub⟩ := allocLoop_returns hlimit 0 k
      (nodup_ahead r.tx_cur hk) hunlocked hmore hle hfree
    rw [hsize] at hsplit
    have hpool := hsplit.pool hn hn' ((nodup_ahead r.tx_cur hk).sublist hsub)
    exact ⟨buffers, r', (returns_alloc_iff hadmits).mpr ⟨hpool.nonempty, hreturns⟩, hpool⟩
  | inr hone =>
    -- one buffer, for which the device may have to be waited for
    have hone' : n = 1 := by omega
    subst hone'
    have hsize' : 0 < (once + payload).toInt32.toInt := by
      rw [hsize]
      exact_mod_cast h.pos
    have hpos' : 0 < (once + payload).toInt32 := Int32.lt_iff_toInt_lt.mpr (by simpa using hsize')
    have hlast : (once + payload).toInt32 - max_data always ≤ 0 := by
      rw [Int32.le_iff_toInt_le, hlimit.toInt_sub hsize']
      simpa using hle
    have hd : ∀ i, release i ≤ 0 + Finset.univ.sup release := by
      intro i
      rw [Nat.zero_add]
      exact Finset.le_sup (Finset.mem_univ i)
    obtain ⟨i, r', hreturns⟩ : ∃ i r', Returns
        (allocLoop release (max_data always) always 0 r (once + payload).toInt32)
        ([(i, fragment (max_data always) always (once + payload).toInt32)], r') :=
      allocLoop_one hone.2 hpos' hlast 0 _ hd
    have hsplit := Split.cons (i := i) (n := 0) hlimit (by rwa [Nat.cast_zero, zero_mul])
      (by rwa [Nat.cast_zero, zero_add]) Split.nil
    rw [hsize] at hsplit
    have hpool := hsplit.pool hn hn' (List.nodup_singleton _)
    exact ⟨_, r', (returns_alloc_iff hadmits).mpr ⟨hpool.nonempty, hreturns⟩, hpool⟩

/-- A choice of the device with which the loop does not end. -/
def Stuck (owned : Fin TX_BUFS → Bool) (limit : Int32) (always : UInt32) (r : Ring)
    (size : Int32) : Prop :=
  ∃ release : Device, (∀ i, owned i = false → release i = 0) ∧
    ∀ p, ¬ Returns (allocLoop release limit always 0 r size) p

/-- Before the first locked buffer, those that the device has not got are available. -/
theorem available_of_locked {j : Nat} (hj : j < 64)
    (hlocked : r.locked (r.tx_cur + Fin.ofNat TX_BUFS j) = true)
    (hbefore : ∀ i ∈ ahead r.tx_cur j, r.locked i = false) :
    available owned r = (ahead r.tx_cur j).countP fun i => !owned i := by
  have hring : ahead r.tx_cur 64 = ahead r.tx_cur j ++
      (r.tx_cur + Fin.ofNat TX_BUFS j) :: ahead (r.tx_cur + Fin.ofNat TX_BUFS j + 1) (63 - j) := by
    rw [← ahead_succ, ← ahead_add]
    congr 1
    omega
  have hfront : (ahead r.tx_cur 64).takeWhile (fun i => !r.locked i) = ahead r.tx_cur j := by
    rw [hring, List.takeWhile_append_of_pos (by simpa using hbefore),
      List.takeWhile_cons_of_neg (by simpa using hlocked), List.append_nil]
  rw [available, hfront]

/-- If nothing is locked, all that the device has not got are available. -/
theorem available_of_unlocked (hunlocked : ∀ i, r.locked i = false) :
    available owned r = (ahead r.tx_cur 64).countP fun i => !owned i := by
  have hall : (ahead r.tx_cur 64).takeWhile (fun i => !r.locked i) = ahead r.tx_cur 64 :=
    List.takeWhile_eq_self_iff.mpr fun i _ => by simp [hunlocked i]
  rw [available, hall]

/-- The device releases the first locked buffer at once, and nothing else for long. -/
theorem stuck_of_locked (hlimit : Limit limit always max) (hlocked : ∃ i, r.locked i = true)
    (hmore : (available owned r : Int) * max < size.toInt) :
    Stuck owned limit always r size := by
  obtain ⟨j, hj, hjlocked, hbefore⟩ := exists_first r.tx_cur hlocked
  rw [available_of_locked hj hjlocked hbefore] at hmore
  have hnodup : (ahead r.tx_cur (j + 1)).Nodup := nodup_ahead r.tx_cur hj
  generalize hf : r.tx_cur + Fin.ofNat TX_BUFS j = f at hjlocked
  refine ⟨fun i => if owned i = true ∧ i ≠ f then 200 else 0, fun i hi => by simp [hi], fun p => ?_⟩
  have hne : ∀ i ∈ ahead r.tx_cur j, i ≠ f := by
    intro i hi heq
    rw [heq] at hi
    rw [hbefore f hi] at hjlocked
    cases hjlocked
  have hreleased : (if owned f = true ∧ f ≠ f then 200 else 0) = 0 := if_neg fun h => h.2 rfl
  refine not_allocLoop_stuck hlimit 0 j hnodup hbefore ?_ (by rwa [hf]) (by rwa [hf]) hmore ?_
  · intro i _
    by_cases hi : owned i = true ∧ i ≠ f
    · exact Or.inr (by rw [if_pos hi]; omega)
    · exact Or.inl (if_neg hi)
  · refine List.countP_mono_left fun i hi hzero => ?_
    by_contra howned
    simp [hne i hi] at hzero howned
    exact absurd howned (by simp [hzero])

/-- The device keeps what it has for long. -/
theorem stuck_of_host (hlimit : Limit limit always max) (hunlocked : ∀ i, r.locked i = false)
    (hhost : ∃ i, owned i = false) (hmore : (available owned r : Int) * max < size.toInt) :
    Stuck owned limit always r size := by
  have hhost' : ∃ i, (!owned i) = true := hhost.imp fun i hi => by rw [hi]; rfl
  obtain ⟨a, ha, hfirst, hbefore⟩ := exists_first r.tx_cur hhost'
  rw [available_of_unlocked hunlocked] at hmore
  refine ⟨fun i => if owned i = true then 200 else 0, fun i hi => by simp [hi], fun p => ?_⟩
  refine not_allocLoop_around hlimit 0 a hunlocked ?_ ?_ (by simpa using hfirst) hmore ?_
  · intro i hi
    have howned : owned i = true := by simpa using hbefore i hi
    rw [if_pos howned]
    omega
  · intro i
    by_cases hi : owned i = true
    · exact Or.inr (by rw [if_pos hi]; omega)
    · exact Or.inl (if_neg hi)
  · refine List.countP_mono_left fun i _ hzero => ?_
    simpa using hzero

/-- The device has all buffers and releases one. -/
theorem stuck_of_none (hlimit : Limit limit always max) (hunlocked : ∀ i, r.locked i = false)
    (hdevice : ∀ i, owned i = true) (hmore : (max : Int) < size.toInt) :
    Stuck owned limit always r size := by
  refine ⟨fun i => if i = r.tx_cur then 0 else 200, fun i hi => ?_, fun p => ?_⟩
  · rw [hdevice i] at hi
    cases hi
  · refine not_allocLoop_around (n := 1) hlimit 0 0 hunlocked (by simp) ?_ (by simp)
      (by simpa using hmore) ?_
    · intro i
      by_cases hi : i = r.tx_cur
      · exact Or.inl (if_pos hi)
      · exact Or.inr (by rw [if_neg hi]; omega)
    · have hcount := List.nodup_iff_count_le_one.mp (nodup_ahead r.tx_cur (Nat.le_refl 64)) r.tx_cur
      refine Nat.le_trans (List.countP_mono_left fun i _ hzero => ?_) hcount
      simpa using hzero

/-- Where `alloc()` is right it does not get stuck. -/
theorem AllocCorrect.not_stuck (hadmits : admits once always payload = true)
    (h : AllocCorrect owned r once always payload) :
    ¬ Stuck owned (max_data always) always r (once + payload).toInt32 := by
  intro ⟨release, hrelease, hnever⟩
  obtain ⟨buffers, r', hreturns, -⟩ := h release hrelease
  exact hnever _ ((returns_alloc_iff hadmits).mp hreturns).2

/-- Where the device has no such choice, there are enough buffers. -/
theorem enough_of_not_stuck (hlimit : Limit limit always max)
    (hstuck : ¬ Stuck owned limit always r size) {n : Int} (hn : 0 < n)
    (hmore : (n - 1) * max < size.toInt) :
    n ≤ available owned r ∨ n = 1 ∧ ∀ i, r.locked i = false := by
  by_contra hnot
  rw [not_or] at hnot
  have hfew : (available owned r : Int) ≤ n - 1 := by omega
  have hmore' : (available owned r : Int) * max < size.toInt :=
    Int.lt_of_le_of_lt (Int.mul_le_mul_of_nonneg_right hfew (Int.natCast_nonneg _)) hmore
  by_cases hlocked : ∃ i, r.locked i = true
  · exact hstuck (stuck_of_locked hlimit hlocked hmore')
  · have hunlocked : ∀ i, r.locked i = false := by simpa using hlocked
    by_cases hhost : ∃ i, owned i = false
    · exact hstuck (stuck_of_host hlimit hunlocked hhost hmore')
    · have hdevice : ∀ i, owned i = true := by simpa using hhost
      have htwo : 1 ≤ n - 1 := by
        by_contra hlt
        exact hnot.2 ⟨by omega, hunlocked⟩
      have hmax : 1 * (max : Int) ≤ (n - 1) * max :=
        Int.mul_le_mul_of_nonneg_right htwo (Int.natCast_nonneg _)
      exact hstuck (stuck_of_none hlimit hunlocked hdevice (by omega))

/-- Where `alloc()` is right the pool fits. -/
theorem AllocCorrect.fits (hadmits : admits once always payload = true)
    (h : AllocCorrect owned r once always payload) : Fits owned r once always payload := by
  obtain ⟨buffers, r₀, -, hpool⟩ := h (fun _ => 0) fun _ _ => rfl
  have hframes := hpool.frames_pos
  have hroom := room_of_frames_pos hframes
  have hlimit := limit_of_room hroom
  have hlength := hpool.length_le
  obtain ⟨hmore, hle⟩ := (frames_eq_iff hlimit.sum hlimit.pos (frames once always payload)).mp rfl
  have hframes' : frames once always payload ≤ 64 := by
    rw [← hpool.length]
    exact_mod_cast hlength
  -- no more than what 64 frames hold
  have hbound : ((once.toNat + payload.toNat : Nat) : Int) ≤ 64 * (1500 - always.toNat : Nat) :=
    Int.le_trans hle (Int.mul_le_mul_of_nonneg_right hframes' (Int.natCast_nonneg _))
  have hsmall : once.toNat + payload.toNat < 2 ^ 32 := by omega
  have hnonneg : 0 ≤ (frames once always payload - 1) * ((1500 - always.toNat : Nat) : Int) :=
    Int.mul_nonneg (by omega) (Int.natCast_nonneg _)
  have hsize := toInt_size hadmits hroom hsmall
  refine ⟨hroom, by omega, hsmall, ?_⟩
  rw [← hsize] at hmore
  exact enough_of_not_stuck hlimit (h.not_stuck hadmits) hframes hmore

/-- `alloc` returns a pool, whenever the device releases its buffers, exactly if the bytes fit into
    the buffers that are available. -/
theorem alloc_correct_iff (hadmits : admits once always payload = true) :
    AllocCorrect owned r once always payload ↔ Fits owned r once always payload :=
  ⟨AllocCorrect.fits hadmits, Fits.correct hadmits⟩

/-- Neither the device nor anyone else has a buffer. -/
theorem available_idle : available (fun _ => false) {} = 64 := by decide

/-- The frames of an IP datagram: 1480 bytes in each. -/
theorem frames_of_ip {once payload : UInt32} (n : Int)
    (hmore : (n - 1) * 1480 < ((once.toNat + payload.toNat : Nat) : Int))
    (hle : ((once.toNat + payload.toNat : Nat) : Int) ≤ n * 1480) : frames once 20 payload = n :=
  (frames_eq_iff (by decide : (20 : UInt32).toNat + 1480 = 1500) (by decide) n).mpr ⟨hmore, hle⟩

/-- A datagram of three fragments. -/
theorem alloc_correct_example : AllocCorrect (fun _ => false) {} 8 20 3000 := by
  have hframes : frames 8 20 3000 = 3 := frames_of_ip 3 (by decide) (by decide)
  refine (alloc_correct_iff (by decide)).mpr ⟨by decide, by decide, by decide, Or.inl ?_⟩
  rw [hframes, available_idle]
  decide

/-- The guard rounds down, and admits one buffer more than there are in the ring. -/
theorem not_alloc_correct :
    ¬ ∀ (owned : Fin TX_BUFS → Bool) (r : Ring) (once always payload : UInt32),
      admits once always payload = true → AllocCorrect owned r once always payload := by
  intro h
  have hadmits : admits 8 20 94713 = true := by decide
  have hfits := (h (fun _ => false) {} 8 20 94713 hadmits).fits hadmits
  have hframes : frames 8 20 94713 = 65 := frames_of_ip 65 (by decide) (by decide)
  have henough := hfits.enough
  rw [hframes, available_idle] at henough
  cases henough with
  | inl hle => exact absurd hle (by decide)
  | inr hone => exact absurd hone.1 (by decide)

end PCNet32

end Epos
