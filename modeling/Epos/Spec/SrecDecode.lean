import Epos.Utility.Srec
import Mathlib.Algebra.BigOperators.Group.Finset.Basic
import Mathlib.Data.BitVec
import Mathlib.Data.List.GetD

/-!
# What `srec_decode` makes of a line

All sums that it forms matter modulo 256 only, so that they are taken in `BitVec 8`. The data is
read at positions modulo 256, from the first 128 bytes again and again.
-/

namespace Epos.SREC

open Finset

variable {srec : Srec_t} {l : Nat → BitVec 8} {len n pos : Nat} {sum : BitVec 32} {c : BitVec 8}

/-! ## Digits -/

/-- The digits of hexadecimal numbers, and `-1` for everything else. -/
def hexDigit (c : BitVec 8) : BitVec 8 :=
  if ascii '0' ≤ c ∧ c ≤ ascii '9' then c - ascii '0'
  else if ascii 'A' ≤ c ∧ c ≤ ascii 'F' then c - ascii 'A' + 10
  else if ascii 'a' ≤ c ∧ c ≤ ascii 'f' then c - ascii 'a' + 10
  else -1

/-- The table of the source is the digit of every character. -/
theorem ctab_eq : ctab = (List.range 256).map fun n => hexDigit (BitVec.ofNat 8 n) := by
  decide +kernel

/-- Looking a character up gives its digit. -/
theorem digit_eq (c : BitVec 8) : digit c = hexDigit c := by
  have hlt := c.isLt
  unfold digit
  rw [ctab_eq, List.getD_eq_getElem _ _ (by simpa using hlt), List.getElem_map,
    List.getElem_range, BitVec.ofNat_toNat, BitVec.setWidth_eq]

/-- A digit is below 16. -/
theorem digit_lt (h : digit c ≠ -1) : (digit c).toNat < 16 := by
  rw [digit_eq] at h ⊢
  simp only [hexDigit, show ascii '0' = 48 from rfl, show ascii '9' = 57 from rfl,
    show ascii 'A' = 65 from rfl, show ascii 'F' = 70 from rfl, show ascii 'a' = 97 from rfl,
    show ascii 'f' = 102 from rfl] at h ⊢
  split_ifs at h ⊢ <;> bv_omega

/-- The byte that two characters encode. -/
def byteAt (l : Nat → BitVec 8) (p : Nat) : BitVec 8 := digit (l p) <<< 4 ||| digit (l (p + 1))

/-- The low byte of `C1` is the digit. -/
theorem setWidth_C1 (p : BitVec 8) : (C1 l p).setWidth 8 = digit (l p.toNat) := by
  unfold C1
  ext i hi
  have hlt : i < 32 := by omega
  simp [BitVec.getElem_signExtend, hi, hlt]

/-- The low byte of `C2` is made of both digits. -/
theorem setWidth_C2 (p : BitVec 8) :
    (C2 l p).setWidth 8 = digit (l p.toNat) <<< 4 ||| digit (l (p + 1).toNat) := by
  unfold C2
  rw [BitVec.setWidth_or, BitVec.setWidth_shiftLeft_of_le (by decide), setWidth_C1, setWidth_C1]

/-- The position wraps around. -/
theorem value_two_mul (n : Nat) : value l (2 * n) = byteAt l (2 * (n % 128)) := by
  unfold value byteAt
  rw [setWidth_C2]
  have hpos : (BitVec.ofNat 8 (2 * n)).toNat = 2 * (n % 128) := by
    simp only [BitVec.toNat_ofNat]
    omega
  have hnext : (BitVec.ofNat 8 (2 * n) + 1).toNat = 2 * (n % 128) + 1 := by
    rw [BitVec.toNat_add, hpos]
    show (2 * (n % 128) + 1) % 256 = 2 * (n % 128) + 1
    omega
  rw [hpos, hnext]

/-- Low bytes add up. -/
theorem low_add (x y : BitVec 32) : (x + y).setWidth 8 = x.setWidth 8 + y.setWidth 8 :=
  BitVec.setWidth_add x y (by decide)

/-- Low bytes are subtracted. -/
theorem low_sub (x y : BitVec 32) : (x - y).setWidth 8 = x.setWidth 8 - y.setWidth 8 := by
  apply BitVec.eq_of_toNat_eq
  simp only [BitVec.toNat_setWidth, BitVec.toNat_sub]
  have := x.isLt
  have := y.isLt
  omega

/-- A byte is its own low byte. -/
theorem low_setWidth (c : BitVec 8) : (c.setWidth 32).setWidth 8 = c := by
  rw [BitVec.setWidth_setWidth_of_le c (by decide), BitVec.setWidth_eq]

/-- The checksum test is about the low byte. -/
theorem and_eq_iff (x : BitVec 32) : x &&& 0xff = 0xff ↔ x.setWidth 8 = 0xff := by
  have hand : (x &&& 0xff).toNat = x.toNat % 256 := by
    rw [BitVec.toNat_and]
    exact Nat.and_two_pow_sub_one_eq_mod x.toNat 8
  rw [← BitVec.toNat_inj, ← BitVec.toNat_inj, hand, BitVec.toNat_setWidth]
  rfl

/-! ## The loops -/

/-- A number from its bytes, the first one the highest. -/
def bigEndian (bytes : List (BitVec 8)) : Nat := bytes.foldl (fun n c => 256 * n + c.toNat) 0

/-- One byte more at the end. -/
theorem bigEndian_append (bytes : List (BitVec 8)) (c : BitVec 8) :
    bigEndian (bytes ++ [c]) = 256 * bigEndian bytes + c.toNat := by
  simp [bigEndian]

/-- As many bytes, so large a number. -/
theorem bigEndian_lt (bytes : List (BitVec 8)) : bigEndian bytes < 256 ^ bytes.length := by
  induction bytes using List.reverseRecOn with
  | nil => decide
  | append_singleton bytes c ih =>
    have := c.isLt
    rw [bigEndian_append, List.length_append, List.length_singleton, Nat.pow_succ]
    omega

/-- The bytes at the first `n` even positions. -/
def pairs (l : Nat → BitVec 8) (n : Nat) : List (BitVec 8) :=
  (List.range n).map fun k => byteAt l (2 * k)

/-- One byte more. -/
theorem pairs_succ : pairs l (n + 1) = pairs l n ++ [byteAt l (2 * n)] := by
  unfold pairs
  rw [List.range_succ, List.map_append, List.map_singleton]

/-- As many bytes as asked for. -/
@[simp] theorem length_pairs : (pairs l n).length = n := by simp [pairs]

/-- The loop over the address collects its bytes. -/
theorem addrLoop_fst (hn : n ≤ 4) : (addrLoop l sum n).1.toNat = bigEndian (pairs l n) := by
  induction n with
  | zero => rfl
  | succ n ih =>
    have hlt := bigEndian_lt (pairs l n)
    have hpow : 256 ^ n ≤ 256 ^ 3 := Nat.pow_le_pow_right (by decide) (by omega)
    have hbyte := (byteAt l (2 * n)).isLt
    rw [length_pairs] at hlt
    have hmod : n % 128 = n := Nat.mod_eq_of_lt (by omega)
    rw [pairs_succ, bigEndian_append, ← ih (by omega)]
    rw [← ih (by omega)] at hlt
    -- Four bytes fit, so that nothing is shifted out and the new byte is put where zeros are.
    show ((addrLoop l sum n).1 <<< 8 ||| (value l (2 * n)).setWidth 32).toNat = _
    rw [value_two_mul, hmod, BitVec.toNat_or, BitVec.toNat_shiftLeft, BitVec.toNat_setWidth,
      Nat.mod_eq_of_lt (a := (byteAt l (2 * n)).toNat) (by omega), Nat.shiftLeft_eq,
      Nat.mod_eq_of_lt (by omega), Nat.mul_comm, Nat.two_pow_add_eq_or_of_lt hbyte]

/-- The loop over the address adds its bytes to the sum. -/
theorem addrLoop_snd (hn : n ≤ 128) : (addrLoop l sum n).2.setWidth 8 =
    sum.setWidth 8 + ∑ k ∈ range n, byteAt l (2 * k) := by
  induction n with
  | zero => simp [addrLoop]
  | succ n ih =>
    have hmod : n % 128 = n := Nat.mod_eq_of_lt (by omega)
    show ((addrLoop l sum n).2 + (value l (2 * n)).setWidth 32).setWidth 8 = _
    rw [low_add, ih (by omega), low_setWidth, value_two_mul, hmod, sum_range_succ, add_assoc]

/-- The array after the first `n` bytes have been written. -/
def overwrite (data : Fin 256 → BitVec 8) (l : Nat → BitVec 8) (n : Nat) : Fin 256 → BitVec 8 :=
  fun i => if i < n then byteAt l (2 * (i % 128)) else data i

/-- One byte more is overwritten. -/
theorem overwrite_succ (data : Fin 256 → BitVec 8) (hn : n < 256) :
    overwrite data l (n + 1) =
      Function.update (overwrite data l n) ⟨n, hn⟩ (byteAt l (2 * (n % 128))) := by
  funext i
  unfold overwrite
  by_cases hi : i = ⟨n, hn⟩
  · subst hi
    simp
  · have hne : i.val ≠ n := fun h => hi (Fin.ext h)
    rw [Function.update_of_ne hi]
    have hiff : i.val < n + 1 ↔ i.val < n := by omega
    simp only [hiff]

/-- One round more of the loop over the data. -/
theorem dataLoop_succ : dataLoop l srec sum (n + 1) =
    (dataLoop l srec sum n).bind fun (srec, sum) =>
      (srec.write (2 * n / 2) (value l (2 * n))).map fun srec =>
        (srec, sum + (value l (2 * n)).setWidth 32) := rfl

/-- Up to 256 rounds the loop stays inside of `data` and overwrites it from the beginning. -/
theorem dataLoop_eq (hn : n ≤ 256) : dataLoop l srec sum n =
    some ({ srec with data := overwrite srec.data l n },
      sum + ∑ j ∈ range n, (byteAt l (2 * (j % 128))).setWidth 32) := by
  induction n with
  | zero =>
    have hzero : overwrite srec.data l 0 = srec.data := by
      funext i
      simp [overwrite]
    rw [hzero, range_zero, sum_empty, add_zero]
    rfl
  | succ n ih =>
    rw [dataLoop_succ, ih (by omega), Option.bind_some, Nat.mul_div_cancel_left n (by decide),
      value_two_mul, sum_range_succ, overwrite_succ _ (by omega), ← add_assoc]
    simp only [Srec_t.write, show n < 256 by omega, dif_pos, Option.map_some]

/-- Beyond the array. -/
theorem dataLoop_eq_none (hn : 256 < n) : dataLoop l srec sum n = none := by
  induction n, hn using Nat.le_induction with
  | base =>
    rw [dataLoop_succ, dataLoop_eq (Nat.le_refl _), Option.bind_some]
    rfl
  | succ n _ ih => rw [dataLoop_succ, ih, Option.bind_none]

/-! ## A line -/

/-- What the second character stands for. -/
def type (l : Nat → BitVec 8) : BitVec 8 := digit (l 1)

/-- The number of characters of the address. -/
def alen (l : Nat → BitVec 8) : Nat := ltab.getD (type l).toNat 0

/-- The byte `j` of the data. -/
def dataByte (l : Nat → BitVec 8) (j : Nat) : BitVec 8 := byteAt l (4 + alen l + 2 * j)

/-- How many bytes of data a line of `len` characters is taken to have. -/
def dataCount (l : Nat → BitVec 8) (len : Nat) : Nat := (len - alen l - 5) / 2

/-- The count and the bytes of the address. -/
def headSum (l : Nat → BitVec 8) : BitVec 8 :=
  byteAt l 2 + ∑ k ∈ range (alen l / 2), byteAt l (4 + 2 * k)

/-- The sum of the line, with the bytes of the data, and the checksum behind them, from the first
    128 ones. -/
def lineSum (l : Nat → BitVec 8) (len : Nat) : BitVec 8 :=
  headSum l + ∑ j ∈ range (dataCount l len + 1), dataByte l (j % 128)

/-- The record of a line of `len` characters. -/
def decoded (srec : Srec_t) (l : Nat → BitVec 8) (len : Nat) : Srec_t where
  type := type l
  addr := BitVec.ofNat 32 (bigEndian (pairs (fun i => l (4 + i)) (alen l / 2)))
  count := byteAt l 2 - BitVec.ofNat 8 (alen l / 2) - 1
  data := overwrite srec.data (fun i => l (4 + (alen l + i))) (dataCount l len)

/-- The address takes an even number of characters. -/
theorem alen_spec (l : Nat → BitVec 8) : alen l ≤ 8 ∧ alen l % 2 = 0 := by
  have hall : ∀ k < 10, ltab.getD k 0 ≤ 8 ∧ ltab.getD k 0 % 2 = 0 := by decide
  by_cases hk : (type l).toNat < 10
  · exact hall _ hk
  · -- Beyond the table, no type.
    unfold alen
    rw [List.getD_eq_default _ _ (show ltab.length ≤ _ from not_lt.mp hk)]
    decide

/-- How many rounds the loop makes. -/
theorem rounds_eq (len alen : Nat) : rounds ((len : Int) - 4 - alen - 2) = (len - alen - 5) / 2 := by
  unfold rounds
  omega

/-- A line of an unknown type is rejected at once. -/
theorem decodeLine_of_type (h : 9 < type l) :
    decodeLine srec l len = some (false, { srec with type := type l }) := by
  unfold decodeLine
  rw [setWidth_C1]
  exact if_pos h

/-- The data as the code counts its characters. -/
theorem byteAt_data (l : Nat → BitVec 8) (j : Nat) :
    byteAt (fun i => l (4 + (alen l + i))) (2 * j) = dataByte l j := by
  unfold dataByte byteAt
  rw [show 4 + alen l + 2 * j + 1 = 4 + (alen l + (2 * j + 1)) by omega,
    show 4 + alen l + 2 * j = 4 + (alen l + 2 * j) by omega]

/-- Low bytes add up over a range. -/
theorem low_sum {β : Type*} (s : Finset β) (f : β → BitVec 8) :
    (∑ j ∈ s, (f j).setWidth 32).setWidth 8 = ∑ j ∈ s, f j := by
  classical
  induction s using Finset.induction_on with
  | empty => rfl
  | insert b s hb ih => rw [sum_insert hb, sum_insert hb, low_add, low_setWidth, ih]

/-- The decoder is its loop over the data and the test of the sum. -/
theorem decodeLine_eq_map (h : ¬9 < type l) : decodeLine srec l len =
    (dataLoop (fun i => l (4 + (alen l + i)))
      { srec with
        type := type l
        addr := (addrLoop (fun i => l (4 + i)) (C2 l 2) (alen l / 2)).1 }
      (addrLoop (fun i => l (4 + i)) (C2 l 2) (alen l / 2)).2 (dataCount l len)).map
      fun (srec, sum) =>
        let sum := sum + C2 (fun i => l (4 + (alen l + i))) (BitVec.ofNat 8 (2 * dataCount l len))
        (sum &&& 0xff = 0xff,
          { srec with count := (C2 l 2 - BitVec.ofNat 32 (alen l / 2) - 1).setWidth 8 }) := by
  unfold decodeLine
  rw [setWidth_C1]
  simp only [show digit (l (1 : BitVec 8).toNat) = type l from rfl, if_neg h]
  rw [show ltab.getD (type l).toNat 0 = alen l from rfl, rounds_eq]
  rfl

/-- A line that is too long leaves `data`. -/
theorem decodeLine_eq_none (h : ¬9 < type l) (hlen : alen l + 518 < len) :
    decodeLine srec l len = none := by
  have hcount : 256 < dataCount l len := by
    unfold dataCount
    omega
  rw [decodeLine_eq_map h, dataLoop_eq_none hcount, Option.map_none]

/-- A line that is not too long is decoded, and accepted by its sum. -/
theorem decodeLine_eq (h : ¬9 < type l) (hlen : len ≤ alen l + 518) :
    decodeLine srec l len = some (decide (lineSum l len = 0xff), decoded srec l len) := by
  have hcount : dataCount l len ≤ 256 := by
    unfold dataCount
    omega
  have halen := (alen_spec l).1
  have haddr : (addrLoop (fun i => l (4 + i)) (C2 l 2) (alen l / 2)).1 =
      BitVec.ofNat 32 (bigEndian (pairs (fun i => l (4 + i)) (alen l / 2))) := by
    apply BitVec.eq_of_toNat_eq
    rw [addrLoop_fst (by omega), BitVec.toNat_ofNat, Nat.mod_eq_of_lt]
    have hlt := bigEndian_lt (pairs (fun i => l (4 + i)) (alen l / 2))
    rw [length_pairs] at hlt
    exact hlt.trans_le (Nat.pow_le_pow_right (by decide) (by omega : alen l / 2 ≤ 4))
  have hhead : (addrLoop (fun i => l (4 + i)) (C2 l 2) (alen l / 2)).2.setWidth 8 =
      headSum l := by
    rw [addrLoop_snd (by omega), setWidth_C2]
    rfl
  have hsum (j : Nat) : value (fun i => l (4 + (alen l + i))) (2 * j) = dataByte l (j % 128) := by
    rw [value_two_mul, byteAt_data]
  have hcount8 : (C2 l 2 - BitVec.ofNat 32 (alen l / 2) - 1).setWidth 8 =
      byteAt l 2 - BitVec.ofNat 8 (alen l / 2) - 1 := by
    rw [low_sub, low_sub, setWidth_C2, BitVec.setWidth_ofNat_of_le (by decide)]
    rfl
  -- The sum and the count matter modulo 256, the address as it is.
  rw [decodeLine_eq_map h, dataLoop_eq hcount, Option.map_some]
  refine congrArg some (Prod.ext ?_ ?_)
  · simp only [and_eq_iff, low_add, hhead, low_sum, byteAt_data]
    have hlast : (C2 (fun i => l (4 + (alen l + i))) (BitVec.ofNat 8 (2 * dataCount l len))).setWidth
        8 = dataByte l (dataCount l len % 128) := hsum _
    rw [hlast, lineSum, sum_range_succ, ← add_assoc]
  · simp only [hcount8, haddr]
    rfl

/-- The line has `len` characters. -/
abbrev HasLength (l : Nat → BitVec 8) (len : Nat) : Prop := MarkedLoop.First (lineEnd l) 0 len

/-- A decoding that ends does so whatever the fuel. -/
theorem independent_srec_decode (srec : Srec_t) (l : Nat → BitVec 8) :
    Fuel.Independent fun time => srec_decode time srec l :=
  (MarkedLoop.search_independent 0).bind fun len => Fuel.independent_const (decodeLine srec l len)

/-- The decoder returns when the line has an end. -/
theorem returns_srec_decode_iff {r : Bool × Srec_t} :
    Fuel.Returns (fun time => srec_decode time srec l) r ↔
      ∃ len, HasLength l len ∧ decodeLine srec l len = some r := by
  unfold srec_decode
  rw [Fuel.returns_bind_iff (MarkedLoop.search_independent 0)
    fun len => Fuel.independent_const (decodeLine srec l len)]
  simp only [MarkedLoop.returns_search_iff, Fuel.returns_const_iff]

/-- A line of an unknown type is rejected as soon as its end is found. -/
theorem returns_of_type (h : 9 < type l) {r : Bool × Srec_t} (hlen : HasLength l len) :
    Fuel.Returns (fun time => srec_decode time srec l) r ↔
      r = (false, { srec with type := type l }) := by
  rw [returns_srec_decode_iff]
  simp only [decodeLine_of_type h, Option.some.injEq]
  exact ⟨fun ⟨_, _, hr⟩ => hr.symm, fun hr => ⟨len, hlen, hr.symm⟩⟩

/-- A line has one length. -/
theorem HasLength.unique {len' : Nat} (h : HasLength l len) (h' : HasLength l len') :
    len = len' := by
  by_contra hne
  rcases Nat.lt_or_gt_of_ne hne with hlt | hlt
  · have := h'.before len (Nat.zero_le _) hlt
    rw [h.marked] at this
    cases this
  · have := h.before len' (Nat.zero_le _) hlt
    rw [h'.marked] at this
    cases this

/-- A line of a known type returns if it is short enough. -/
theorem returns_of_length (h : ¬9 < type l) (hlen : HasLength l len) {r : Bool × Srec_t} :
    Fuel.Returns (fun time => srec_decode time srec l) r ↔
      len ≤ alen l + 518 ∧ r = (decide (lineSum l len = 0xff), decoded srec l len) := by
  rw [returns_srec_decode_iff]
  constructor
  · rintro ⟨len', hlen', hr⟩
    obtain rfl := hlen.unique hlen'
    by_cases hfit : len ≤ alen l + 518
    · rw [decodeLine_eq h hfit] at hr
      exact ⟨hfit, (Option.some.inj hr).symm⟩
    · rw [decodeLine_eq_none h (not_le.mp hfit)] at hr
      cases hr
  · rintro ⟨hfit, rfl⟩
    exact ⟨len, hlen, decodeLine_eq h hfit⟩

/-! ## Well-formed lines -/

/-- The number of bytes of data by the count. -/
def size (l : Nat → BitVec 8) : Nat := (byteAt l 2).toNat - (alen l / 2 + 1)

def address (l : Nat → BitVec 8) : Nat := bigEndian (pairs (fun i => l (4 + i)) (alen l / 2))

def dataBytes (l : Nat → BitVec 8) : List (BitVec 8) := (List.range (size l)).map (dataByte l)

/-- Type, count, address, data and checksum, in digits and as many as the count says. -/
structure Valid (l : Nat → BitVec 8) : Prop where
  type_le : ¬9 < type l
  count : alen l / 2 + 1 ≤ (byteAt l 2).toNat
  length : HasLength l (6 + alen l + 2 * size l)
  digits : ∀ i, 2 ≤ i → i < 6 + alen l + 2 * size l → digit (l i) ≠ -1
  checksum : headSum l + ∑ j ∈ range (size l + 1), dataByte l j = 0xff

/-- The bytes from number 128 on, the checksum included, repeat the first ones. -/
def Repeats (l : Nat → BitVec 8) : Prop :=
  ∀ j, 128 ≤ j → j ≤ size l → dataByte l j = dataByte l (j - 128)

/-- A record has at most 254 bytes of data. -/
theorem size_le : size l ≤ 254 := by
  have := (byteAt l 2).isLt
  unfold size
  omega

/-- The decoded bytes, by their count. -/
theorem Srec_t.bytes_eq {g : Nat → BitVec 8} (hcount : srec.count.toNat = n)
    (hdata : ∀ i : Fin 256, i < n → srec.data i = g i) : srec.bytes = (List.range n).map g := by
  have hlt := srec.count.isLt
  apply List.ext_getElem
  · rw [bytes, List.length_take, List.length_ofFn, List.length_map, List.length_range]
    omega
  · intro i hi hi'
    simp only [List.length_map, List.length_range] at hi'
    simp only [bytes, List.getElem_take, List.getElem_ofFn, List.getElem_map, List.getElem_range]
    exact hdata _ hi'

namespace Valid

/-- The loop makes one round for each byte of the data. -/
theorem dataCount_eq (_ : Valid l) : dataCount l (6 + alen l + 2 * size l) = size l := by
  unfold dataCount
  omega

/-- A valid line is short enough. -/
theorem fits (_ : Valid l) : 6 + alen l + 2 * size l ≤ alen l + 518 := by
  have := size_le (l := l)
  omega

/-- The count of a valid line gives the number of its bytes. -/
theorem count_eq (h : Valid l) :
    (byteAt l 2 - BitVec.ofNat 8 (alen l / 2) - 1).toNat = size l := by
  have hcount := h.count
  have hlt := (byteAt l 2).isLt
  have halen := (alen_spec l).1
  have hhalf : (BitVec.ofNat 8 (alen l / 2)).toNat = alen l / 2 := by
    rw [BitVec.toNat_ofNat, Nat.mod_eq_of_lt (by omega)]
  have hone : (1 : BitVec 8).toNat = 1 := rfl
  unfold size
  rw [BitVec.toNat_sub_of_le, BitVec.toNat_sub_of_le]
  · omega
  · rw [BitVec.le_def]
    omega
  · rw [BitVec.le_def, BitVec.toNat_sub_of_le]
    · omega
    · rw [BitVec.le_def]
      omega

/-- What is read of the data. -/
theorem bytes_decoded (h : Valid l) :
    (decoded srec l (6 + alen l + 2 * size l)).bytes =
      (List.range (size l)).map fun j => dataByte l (j % 128) := by
  apply Srec_t.bytes_eq h.count_eq
  intro i hi
  show overwrite _ _ (dataCount l _) i = _
  rw [h.dataCount_eq, overwrite, if_pos hi, byteAt_data]

/-- The address that is decoded is the one of the line. -/
theorem addr_decoded : (decoded srec l len).addr.toNat = address l := by
  have hlt := bigEndian_lt (pairs (fun i => l (4 + i)) (alen l / 2))
  have halen := (alen_spec l).1
  rw [length_pairs] at hlt
  have hpow : 256 ^ (alen l / 2) ≤ 256 ^ 4 := Nat.pow_le_pow_right (by decide) (by omega)
  show (BitVec.ofNat 32 (address l)).toNat = address l
  rw [BitVec.toNat_ofNat, Nat.mod_eq_of_lt]
  exact hlt.trans_le hpow

/-- The line is read as it is if and only if it repeats itself. -/
theorem repeats_iff (h : Valid l) :
    lineSum l (6 + alen l + 2 * size l) = 0xff ∧
        ((List.range (size l)).map fun j => dataByte l (j % 128)) = dataBytes l ↔
      Repeats l := by
  have hsize := size_le (l := l)
  have hbytes : ((List.range (size l)).map fun j => dataByte l (j % 128)) = dataBytes l ↔
      ∀ j < size l, dataByte l (j % 128) = dataByte l j := by
    simp [dataBytes]
  unfold lineSum
  rw [hbytes, h.dataCount_eq]
  constructor
  · rintro ⟨hsum, hdata⟩ j hj hjs
    have hmod : j % 128 = j - 128 := by omega
    rw [← hmod]
    obtain hlt | rfl := Nat.lt_or_eq_of_le hjs
    · exact (hdata j hlt).symm
    · -- The sums differ in the checksum only.
      have hchecksum := h.checksum
      rw [sum_range_succ, ← add_assoc] at hsum hchecksum
      rw [sum_congr rfl fun j hj => hdata j (mem_range.mp hj)] at hsum
      exact add_left_cancel (hchecksum.trans hsum.symm)
  · intro hrep
    -- 256 bytes at most are read, which is once around.
    have hread (j : Nat) (hj : j ≤ size l) : dataByte l (j % 128) = dataByte l j := by
      by_cases hlow : j < 128
      · rw [Nat.mod_eq_of_lt hlow]
      · have hmod : j % 128 = j - 128 := by omega
        rw [hmod, hrep j (not_lt.mp hlow) hj]
    refine ⟨?_, fun j hj => hread j hj.le⟩
    rw [← h.checksum]
    congr 1
    refine sum_congr rfl fun j hj => hread j ?_
    have := mem_range.mp hj
    omega

end Valid

/-! ## What is right -/

structure DecodeCorrect (srec : Srec_t) (l : Nat → BitVec 8) : Prop where
  /-- All writes are inside of the array. -/
  returns : ∃ r, Fuel.Returns (fun time => srec_decode time srec l) r
  sound : ∀ srec', Fuel.Returns (fun time => srec_decode time srec l) (true, srec') → Valid l
  complete : Valid l → carries l 0 →
    ∃ srec', Fuel.Returns (fun time => srec_decode time srec l) (true, srec') ∧
      srec'.addr.toNat = address l ∧ srec'.bytes = dataBytes l

/-- The line has no type, or it fits, repeats itself where it is well-formed and has another sum
    where it is not. -/
def DecodeFits (l : Nat → BitVec 8) : Prop :=
  9 < type l ∨ ∃ len, HasLength l len ∧ len ≤ alen l + 518 ∧
    (Valid l → carries l 0 → Repeats l) ∧ (¬Valid l → lineSum l len ≠ 0xff)

/-- Decoding is right exactly for the lines that fit. -/
theorem decodeCorrect_iff (hlen : HasLength l len) :
    DecodeCorrect srec l ↔ DecodeFits l := by
  by_cases h : 9 < type l
  · refine iff_of_true ⟨⟨_, (returns_of_type h hlen).mpr rfl⟩, ?_, ?_⟩ (.inl h)
    · intro srec' hr
      cases (returns_of_type h hlen).mp hr
    · intro hvalid
      exact absurd h hvalid.type_le
  · constructor
    · intro hc
      obtain ⟨r, hr⟩ := hc.returns
      have hfit := ((returns_of_length h hlen).mp hr).1
      refine .inr ⟨len, hlen, hfit, fun hvalid hcarries => ?_, fun hvalid hsum => ?_⟩
      · -- What is accepted and read as it stands repeats itself.
        obtain ⟨srec', hret, -, hbytes⟩ := hc.complete hvalid hcarries
        obtain ⟨-, heq⟩ := (returns_of_length h hvalid.length).mp hret
        obtain ⟨hsum, rfl⟩ := Prod.mk.inj heq
        rw [hvalid.bytes_decoded] at hbytes
        exact hvalid.repeats_iff.mp ⟨of_decide_eq_true hsum.symm, hbytes⟩
      · -- With the right sum it would be accepted.
        apply hvalid
        apply hc.sound (decoded srec l len)
        rw [returns_of_length h hlen]
        exact ⟨hfit, by rw [hsum]; rfl⟩
    · intro hf
      obtain ⟨len', hlen', hfit, hrep, hsum⟩ := hf.resolve_left h
      obtain rfl := hlen.unique hlen'
      refine ⟨⟨_, (returns_of_length h hlen).mpr ⟨hfit, rfl⟩⟩, fun srec' hr => ?_, ?_⟩
      · obtain ⟨-, heq⟩ := (returns_of_length h hlen).mp hr
        by_contra hvalid
        exact hsum hvalid (of_decide_eq_true (Prod.mk.inj heq).1.symm)
      · intro hvalid hcarries
        obtain ⟨hsum', hbytes⟩ := hvalid.repeats_iff.mpr (hrep hvalid hcarries)
        refine ⟨decoded srec l (6 + alen l + 2 * size l), ?_, Valid.addr_decoded, ?_⟩
        · rw [returns_of_length h hvalid.length]
          exact ⟨hvalid.fits, by rw [hsum']; rfl⟩
        · rw [hvalid.bytes_decoded, hbytes]

end Epos.SREC
