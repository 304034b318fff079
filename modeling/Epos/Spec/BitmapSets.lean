import Epos.Spec.BitmapCorrect
import Mathlib.Data.Finset.Insert
import Mathlib.Data.Finset.Erase

/-!
# Sequences of calls of a bitmap

Every call does with the words what it stands for with a set of indices, so that a bitmap
represents the indices that have been set and not been reset since, whatever the calls. There is a
word for every bit unless the computation of their number wraps around.
-/

namespace Epos

namespace Bitmap

inductive Call where
  | set (index : Nat)
  | reset (index : Nat)
  deriving DecidableEq, Repr

/-- What a call makes of a set of indices below `bits`. -/
def Call.next (bits : Nat) (s : Finset Nat) : Call → Finset Nat
  | .set index => if index < bits then insert index s else s
  | .reset index => if index < bits then s.erase index else s

/-- Which calls change the set. -/
def changes (bits : Nat) : Finset Nat → List Call → List Bool
  | _, [] => []
  | s, c :: cs => decide (c.next bits s ≠ s) :: changes bits (c.next bits s) cs

def call (b : Bitmap) : Call → Option (Bool × Bitmap)
  | .set index => b.set index
  | .reset index => b.reset index

/-- What a sequence of calls returns. -/
def calls (b : Bitmap) : List Call → Option (List Bool × Bitmap)
  | [] => some ([], b)
  | c :: cs => (b.call c).bind fun r => (r.2.calls cs).map fun rs => (r.1 :: rs.1, rs.2)

/-- The bitmap has a word for each of `bits` bits and represents the set. -/
structure Represents (b : Bitmap) (bits : Nat) (s : Finset Nat) : Prop where
  whole : b.Whole
  bits_eq : b.bits = bits
  has_iff : ∀ i, b.Has i ↔ i ∈ s

variable {b : Bitmap} {bits n : Nat} {s : Finset Nat}

theorem represents_init (h : bits + 31 < 2 ^ 32) : (init bits).Represents bits ∅ where
  whole := whole_init h
  bits_eq := rfl
  has_iff i := by simpa using not_has_init bits i

/-- What a call returns, and what it makes of the bitmap. -/
theorem Represents.call (h : b.Represents bits s) (c : Call) :
    ∃ b', b.call c = some (decide (c.next bits s ≠ s), b') ∧
      b'.Represents bits (c.next bits s) := by
  cases c with
  | set index =>
    by_cases hi : index < bits
    · obtain ⟨fresh, b', hset, hfresh, hwhole, hbits, hhas⟩ := h.whole.set (h.bits_eq ▸ hi)
      have hnext : Call.next bits s (.set index) = insert index s := if_pos hi
      -- the call tells whether it has changed the set
      have hchange : fresh = decide (insert index s ≠ s) := by
        rw [Bool.eq_iff_iff, hfresh, h.has_iff, decide_eq_true_iff, ne_eq, Finset.insert_eq_self]
      rw [hnext]
      refine ⟨b', by rw [← hchange]; exact hset, hwhole, hbits.trans h.bits_eq, fun i => ?_⟩
      rw [hhas, h.has_iff, Finset.mem_insert]
    · -- an index behind the end changes nothing
      have hnext : Call.next bits s (.set index) = s := if_neg hi
      have hset : b.set index = some (false, b) := if_neg (h.bits_eq ▸ hi)
      rw [hnext]
      exact ⟨b, by rw [decide_eq_false (not_not.mpr rfl)]; exact hset, h⟩
  | reset index =>
    by_cases hi : index < bits
    · obtain ⟨found, b', hreset, hfound, hwhole, hbits, hhas⟩ := h.whole.reset (h.bits_eq ▸ hi)
      have hnext : Call.next bits s (.reset index) = s.erase index := if_pos hi
      have hchange : found = decide (s.erase index ≠ s) := by
        rw [Bool.eq_iff_iff, hfound, h.has_iff, decide_eq_true_iff, ne_eq, Finset.erase_eq_self,
          not_not]
      rw [hnext]
      refine ⟨b', by rw [← hchange]; exact hreset, hwhole, hbits.trans h.bits_eq, fun i => ?_⟩
      rw [hhas, h.has_iff, Finset.mem_erase]
    · have hnext : Call.next bits s (.reset index) = s := if_neg hi
      have hreset : b.reset index = some (false, b) := if_neg (h.bits_eq ▸ hi)
      rw [hnext]
      exact ⟨b, by rw [decide_eq_false (not_not.mpr rfl)]; exact hreset, h⟩

theorem Represents.calls (h : b.Represents bits s) (cs : List Call) :
    ∃ b', b.calls cs = some (changes bits s cs, b') ∧
      b'.Represents bits (cs.foldl (Call.next bits) s) := by
  induction cs generalizing b s with
  | nil => exact ⟨b, rfl, h⟩
  | cons c cs ih =>
    obtain ⟨b₁, hcall, h₁⟩ := h.call c
    obtain ⟨b₂, hcalls, h₂⟩ := ih h₁
    refine ⟨b₂, ?_, h₂⟩
    rw [Bitmap.calls, hcall, Option.bind_some, hcalls]
    rfl

theorem Represents.full (h : b.Represents bits s) (hn : n ≤ bits) :
    b.full n = some (decide (∀ i < n, i ∈ s)) := by
  obtain ⟨r, hr, hiff⟩ := h.whole.full (h.bits_eq ▸ hn)
  simp only [h.has_iff] at hiff
  rw [hr, Bool.eq_iff_iff.mpr (hiff.trans (decide_eq_true_iff).symm)]

theorem Represents.empty (h : b.Represents bits s) (hn : n ≤ bits) :
    b.empty n = some (decide (∀ i < n, i ∉ s)) := by
  obtain ⟨r, hr, hiff⟩ := h.whole.empty (h.bits_eq ▸ hn)
  simp only [h.has_iff] at hiff
  rw [hr, Bool.eq_iff_iff.mpr (hiff.trans (decide_eq_true_iff).symm)]

/-- After any calls of a new `Bitmap<BITS>`, `s` being the indices set and not reset since: the
    calls have returned true where they changed the set, and `full` and `empty` tell what is in
    it. No access has left `_map`. -/
def Correct (BITS : UInt32) : Prop :=
  ∀ cs : List Call, ∃ b, (init BITS.toNat).calls cs = some (changes BITS.toNat ∅ cs, b) ∧
    ∀ n ≤ BITS.toNat,
      b.full n = some (decide (∀ i < n, i ∈ cs.foldl (Call.next BITS.toNat) ∅)) ∧
        b.empty n = some (decide (∀ i < n, i ∉ cs.foldl (Call.next BITS.toNat) ∅))

/-- A bitmap is correct exactly if the number of its words does not wrap around to zero. -/
theorem bitmap_correct_iff (BITS : UInt32) : Correct BITS ↔ BITS.toNat + 31 < 2 ^ 32 := by
  constructor
  · intro h
    by_contra hwrap
    have hlt := BITS.toNat_lt
    have hnone : (init BITS.toNat).map = [] := by
      have hwords : (BITS.toNat + 31) % 2 ^ 32 / 32 = 0 := by omega
      rw [init, hwords]
      rfl
    -- there is no word for the first bit
    have hset : (init BITS.toNat).set 0 = none := by
      have hpos : 0 < (init BITS.toNat).bits := by
        show 0 < BITS.toNat
        omega
      rw [set, if_pos hpos, hnone]
      rfl
    obtain ⟨b, hcalls, -⟩ := h [.set 0]
    rw [calls, call, hset] at hcalls
    cases hcalls
  · intro h cs
    obtain ⟨b, hcalls, hb⟩ := (represents_init h).calls cs
    exact ⟨b, hcalls, fun n hn => ⟨hb.full hn, hb.empty hn⟩⟩

/-- `Bitmap<0xffffffff>` has no words. -/
theorem not_bitmap_correct : ¬∀ BITS : UInt32, Correct BITS := by
  intro h
  exact absurd ((bitmap_correct_iff 0xffffffff).mp (h 0xffffffff)) (by decide)

end Bitmap

end Epos
