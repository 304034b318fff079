import Epos.Spec.BignumCorrect
import Epos.Utility.Poly1305
import Mathlib.Tactic.IntervalCases

/-!
# Poly1305 tags

The tag of the specification, as numbers: the polynomial of the padded chunks at the clamped
`r`, plus the encrypted nonce. `stamp` computes it for every length, and `verify` accepts it
alone, unless the length does not fit in an `int`.
-/

namespace Epos

namespace Poly1305

open Bignum (Digit Word)

/-! ## The specification -/

/-- The number that a block stands for. -/
def number (block : Block) : Nat := Digits.value 256 16 fun i => (block.memory i).toNat

/-- A byte of `r` without the bits that have to be clear. -/
def clampedByte (i n : Nat) : Nat :=
  if i % 4 = 3 then n % 16 else if i = 4 ∨ i = 8 ∨ i = 12 then n / 4 * 4 else n

def clamped (r : Block) : Nat :=
  Digits.value 256 16 fun i => clampedByte i (r.memory i).toNat

/-- The number of chunks of a message. -/
def chunks (len : Nat) : Nat := (len + 15) / 16

/-- The bytes of a chunk, and a 1 behind them. -/
def chunk (message : Memory) (len i : Nat) : Nat :=
  Digits.value 256 (min 16 (len - 16 * i)) (fun j => (message (16 * i + j)).toNat) +
    256 ^ min 16 (len - 16 * i)

/-- The polynomial of the chunks. -/
def polynomial (r : Nat) (message : Memory) (len : Nat) : Nat :=
  ∑ i ∈ Finset.range (chunks len), chunk message len i * r ^ (chunks len - i)

def tag (encrypt : Block → Block → Block) (k r nonce : Block) (message : Memory) (len : Nat) :
    Block := fun i =>
  UInt8.ofNat ((polynomial (clamped r) message len % (2 ^ 130 - 5) + number (encrypt nonce k)) /
    256 ^ i.val)

/-! ## Digits and bytes -/

/-- A byte of a word, by its digit. -/
theorem bytes_toNat (w : Word) (i : Nat) :
    (bytes w i).toNat = (w (i / 4)).toNat / 256 ^ (i % 4) % 256 := by
  have hcases : i % 4 = 0 ∨ i % 4 = 1 ∨ i % 4 = 2 ∨ i % 4 = 3 := by omega
  rcases hcases with h | h | h | h <;>
    simp [bytes, h, UInt32.toNat_toUInt8, Nat.shiftRight_eq_div_pow]

/-- A digit, by its four bytes. -/
theorem ofMemory_toNat (m : Memory) (i : Nat) :
    (ofMemory m i).toNat = (m (4 * i)).toNat + 256 * (m (4 * i + 1)).toNat +
      256 ^ 2 * (m (4 * i + 2)).toNat + 256 ^ 3 * (m (4 * i + 3)).toNat := by
  have h0 := (m (4 * i)).toNat_lt
  have h1 := (m (4 * i + 1)).toNat_lt
  have h2 := (m (4 * i + 2)).toNat_lt
  have h3 := (m (4 * i + 3)).toNat_lt
  simp only [ofMemory, UInt32.toNat_add, UInt32.toNat_shiftLeft, UInt8.toNat_toUInt32,
    Nat.shiftLeft_eq, UInt32.reduceToNat, Nat.reduceMod, Nat.reducePow]
  omega

/-- The bytes of the word that was read. -/
theorem bytes_ofMemory (m : Memory) : bytes (ofMemory m) = m := by
  funext i
  have h0 := (m (4 * (i / 4))).toNat_lt
  have h1 := (m (4 * (i / 4) + 1)).toNat_lt
  have h2 := (m (4 * (i / 4) + 2)).toNat_lt
  have h3 := (m (4 * (i / 4) + 3)).toNat_lt
  apply UInt8.toNat_inj.mp
  rw [bytes_toNat, ofMemory_toNat]
  have hcases : i % 4 = 0 ∨ i % 4 = 1 ∨ i % 4 = 2 ∨ i % 4 = 3 := by omega
  rcases hcases with h | h | h | h
  · have hi : i = 4 * (i / 4) := by omega
    rw [h, congrArg m hi]
    omega
  · have hi : i = 4 * (i / 4) + 1 := by omega
    rw [h, congrArg m hi]
    omega
  · have hi : i = 4 * (i / 4) + 2 := by omega
    rw [h, congrArg m hi]
    omega
  · have hi : i = 4 * (i / 4) + 3 := by omega
    rw [h, congrArg m hi]
    omega

/-- The word of its bytes. -/
theorem ofMemory_bytes (w : Word) : ofMemory (bytes w) = w := by
  funext i
  apply UInt32.toNat_inj.mp
  have hlt := (w i).toNat_lt
  have h0 : 4 * i / 4 = i ∧ 4 * i % 4 = 0 := by omega
  have h1 : (4 * i + 1) / 4 = i ∧ (4 * i + 1) % 4 = 1 := by omega
  have h2 : (4 * i + 2) / 4 = i ∧ (4 * i + 2) % 4 = 2 := by omega
  have h3 : (4 * i + 3) / 4 = i ∧ (4 * i + 3) % 4 = 3 := by omega
  rw [ofMemory_toNat, bytes_toNat, bytes_toNat, bytes_toNat, bytes_toNat, h0.1, h0.2, h1.1, h1.2,
    h2.1, h2.2, h3.1, h3.2]
  omega

/-- Digits are bytes in groups of four. -/
theorem toNat_eq_bytes (n : Nat) (w : Word) :
    Word.toNat n w = Digits.value 256 (4 * n) fun i => (bytes w i).toNat := by
  rw [← Digits.value_group]
  refine Digits.value_congr fun i _ => ?_
  have hdigit := ofMemory_toNat (bytes w) i
  rw [ofMemory_bytes] at hdigit
  show (w i).toNat = _
  rw [hdigit]
  simp only [Digits.value, Finset.sum_range_succ, Finset.sum_range_zero, Nat.add_zero]
  ring

/-- `setByte` changes one byte. -/
theorem bytes_setByte (w : Word) (i : Nat) (v : UInt8) :
    bytes (setByte w i v) = Function.update (bytes w) i v :=
  bytes_ofMemory _

/-- One byte more of a digit. -/
theorem readDigit_succ (m : Memory) (len i k : Nat) :
    readDigit m len i (k + 1) = readDigit m len i k +
      (if 4 * i + k < len then m (4 * i + k) else 0).toUInt32 <<< (8 * UInt32.ofNat k) := by
  rw [readDigit]
  split
  · rfl
  · have hzero : (0 : UInt8).toUInt32 = 0 := rfl
    rw [hzero, UInt32.zero_shiftLeft, UInt32.add_zero]

/-- Behind `len`, `Bignum(bytes, len)` reads zeros. -/
theorem read_eq (m : Memory) (len : Nat) :
    read m len = ofMemory fun i => if i < len then m i else 0 := by
  funext i
  have hzero : readDigit m len i 0 = 0 := rfl
  have h0 : (8 : UInt32) * UInt32.ofNat 0 = 0 := rfl
  have h1 : (8 : UInt32) * UInt32.ofNat 1 = 8 := rfl
  have h2 : (8 : UInt32) * UInt32.ofNat 2 = 16 := rfl
  have h3 : (8 : UInt32) * UInt32.ofNat 3 = 24 := rfl
  rw [read, readDigit_succ, readDigit_succ, readDigit_succ, readDigit_succ, hzero, h0, h1, h2, h3,
    UInt32.shiftLeft_zero, UInt32.zero_add]
  rfl

/-- `read` pads with zeros. -/
theorem bytes_read (m : Memory) (len i : Nat) :
    bytes (read m len) i = if i < len then m i else 0 := by
  rw [read_eq, bytes_ofMemory]

/-! ## Keys -/

set_option maxRecDepth 2000 in
/-- The masks of the clamp. -/
theorem and_mask (b : UInt8) : (b &&& 15).toNat = b.toNat % 16 ∧
    (b &&& 252).toNat = b.toNat / 4 * 4 := by
  have hmask : ∀ n < 256, n &&& 15 = n % 16 ∧ n &&& 252 = n / 4 * 4 := by decide
  exact hmask b.toNat b.toNat_lt

/-- Each mask acts on its own byte. -/
theorem bytes_foldl_mask (masks : List (Nat × UInt8)) (w : Word) (i : Nat) :
    bytes (masks.foldl (fun r (j, mask) => setByte r j (bytes r j &&& mask)) w) i =
      masks.foldl (fun b (j, mask) => if i = j then b &&& mask else b) (bytes w i) := by
  induction masks generalizing w with
  | nil => rfl
  | cons head rest ih =>
    obtain ⟨j, mask⟩ := head
    rw [List.foldl_cons, List.foldl_cons, ih, bytes_setByte]
    congr 1
    dsimp only
    by_cases hij : i = j
    · rw [hij, Function.update_self, if_pos rfl]
    · rw [Function.update_of_ne hij, if_neg hij]

/-- The clamped bytes. -/
theorem bytes_clamp (w : Word) (i : Nat) (hi : i < 16) :
    (bytes (clamp w) i).toNat = clampedByte i (bytes w i).toNat := by
  rw [clamp, bytes_foldl_mask]
  generalize bytes w i = b
  interval_cases i <;> simp only [clampMasks, List.foldl_cons, List.foldl_nil] <;>
    simp [clampedByte, and_mask, -UInt8.toNat_and]

/-- The other bytes stay. -/
theorem bytes_clamp_of_le (w : Word) (i : Nat) (hi : 16 ≤ i) : bytes (clamp w) i = bytes w i := by
  rw [clamp, bytes_foldl_mask]
  simp only [clampMasks, List.foldl_cons, List.foldl_nil]
  iterate 7 rw [if_neg (by omega)]

/-- `_r`. -/
theorem toNat_r (k r : Block) : Word.toNat 5 (init k r).r = clamped r := by
  have hbytes (i : Nat) (hi : 16 ≤ i) : bytes (init k r).r i = 0 := by
    rw [init, bytes_clamp_of_le _ _ hi, bytes_read, if_neg (by omega)]
  rw [toNat_eq_bytes, clamped, Digits.value_of_zeros (m := 16) (by decide)]
  · refine Digits.value_congr fun i hi => ?_
    rw [init, bytes_clamp _ _ hi, bytes_read, if_pos hi]
  · intro i _ hi
    rw [hbytes i hi]
    rfl

/-- `_k` is the key again when it is read as bytes. -/
theorem bytes_k (k r : Block) : (fun i : Fin 16 => bytes (init k r).k i) = k := by
  funext i
  rw [init, bytes_read, if_pos i.isLt, Block.memory, dif_pos i.isLt]

/-! ## The loop -/

/-- One chunk, and those of the rest. -/
theorem chunks_of_pos {len : Nat} (h : 0 < len) : chunks len = chunks (len - 16) + 1 := by
  unfold chunks
  omega

/-- The chunks of the rest. -/
theorem chunk_succ (message : Memory) (len i : Nat) :
    chunk message len (i + 1) = chunk (fun j => message (j + 16)) (len - 16) i := by
  have hlen : len - 16 * (i + 1) = len - 16 - 16 * i := by omega
  rw [chunk, chunk, hlen]
  congr 1
  refine Digits.value_congr fun j _ => ?_
  have hindex : 16 * (i + 1) + j = 16 * i + j + 16 := by ring
  rw [hindex]

/-- A chunk has at most 16 bytes and a one behind them. -/
theorem chunk_zero_lt (message : Memory) (len : Nat) : chunk message len 0 ≤ 2 * 256 ^ 16 := by
  have hvalue := Digits.value_lt (B := 256) (n := min 16 (len - 16 * 0))
    (a := fun j => (message (16 * 0 + j)).toNat) fun j _ => (message (16 * 0 + j)).toNat_lt
  have hpow : 256 ^ min 16 (len - 16 * 0) ≤ 256 ^ 16 :=
    Nat.pow_le_pow_right (by decide) (by omega)
  rw [chunk]
  omega

/-- The padded chunk as digits. -/
theorem toNat_padded (message : Memory) (len : Nat) :
    Word.toNat 5 (setByte (read message (min 16 len)) (min 16 len) 1) = chunk message len 0 := by
  have hread (i : Nat) (hi : i < min 16 len) :
      bytes (setByte (read message (min 16 len)) (min 16 len) 1) i = message i := by
    rw [bytes_setByte, Function.update_of_ne (by omega), bytes_read, if_pos hi]
  have hzero (i : Nat) (hi : min 16 len + 1 ≤ i) :
      bytes (setByte (read message (min 16 len)) (min 16 len) 1) i = 0 := by
    rw [bytes_setByte, Function.update_of_ne (by omega), bytes_read, if_neg (by omega)]
  have hone : bytes (setByte (read message (min 16 len)) (min 16 len) 1) (min 16 len) = 1 := by
    rw [bytes_setByte, Function.update_self]
  rw [toNat_eq_bytes, Digits.value_of_zeros (m := min 16 len + 1) (by omega), Digits.value_succ,
    hone, chunk, Nat.mul_zero, Nat.sub_zero]
  · congr 1
    · refine Digits.value_congr fun i hi => ?_
      rw [hread i hi, Nat.zero_add]
    · exact Nat.one_mul _
  · intro i _ hi
    rw [hzero i hi]
    rfl

/-- Horner's rule. -/
theorem polynomial_of_pos (r : Nat) (message : Memory) {len : Nat} (h : 0 < len) :
    polynomial r message len = chunk message len 0 * r ^ chunks len +
      polynomial r (fun j => message (j + 16)) (len - 16) := by
  rw [polynomial, chunks_of_pos h, Finset.sum_range_succ', polynomial, Nat.add_comm]
  congr 1
  refine Finset.sum_congr rfl fun i _ => ?_
  have hexp : chunks (len - 16) + 1 - (i + 1) = chunks (len - 16) - i := by omega
  rw [chunk_succ, hexp]

/-- No message, nothing to absorb. -/
theorem absorb_of_nonpos (passes : Nat) (r cr : Word) (message : Memory) {message_len : Int}
    (h : message_len ≤ 0) : absorb passes r cr message message_len = some cr := by
  rw [absorb, if_neg (by omega)]

/-- A negative length is none. -/
theorem absorb_toNat (passes : Nat) (r cr : Word) (message : Memory) (message_len : Int) :
    absorb passes r cr message message_len = absorb passes r cr message message_len.toNat := by
  by_cases h : 0 ≤ message_len
  · rw [Int.toNat_of_nonneg h]
  · rw [absorb_of_nonpos _ _ _ _ (by omega), absorb_of_nonpos _ _ _ _ (by omega)]

/-- The polynomial of no message. -/
theorem polynomial_zero (r : Nat) (message : Memory) : polynomial r message 0 = 0 := rfl

/-- One pass of the loop. -/
theorem absorb_of_pos (passes : Nat) (r cr : Word) (message : Memory) {len : Nat}
    (hlen : 0 < len) (hcr : Word.toNat 5 cr < 2 ^ 130 - 5) :
    ∃ cr', Word.toNat 5 cr' =
        (Word.toNat 5 cr + chunk message len 0) % (2 ^ 130 - 5) * Word.toNat 5 r %
          (2 ^ 130 - 5) ∧
      absorb (passes + 2) r cr message len =
        absorb (passes + 2) r cr' (fun j => message (j + 16)) (len - 16 : Nat) := by
  -- the next chunk, padded with a one behind its last byte
  let c := setByte (read message (min 16 len)) (min 16 len) 1
  have hc : Word.toNat 5 c = chunk message len 0 := toNat_padded message len
  have hmod : Word.toNat 5 Bignum.bignum17.mod = 2 ^ 130 - 5 := Bignum.bignum17_correct.mod_eq
  have hsmall := chunk_zero_lt message len
  -- both summands are below the prime, so that one subtraction reduces the sum
  have hadd : Word.toNat 5 (Bignum.addAssign Bignum.bignum17 cr c) =
      (Word.toNat 5 cr + chunk message len 0) % (2 ^ 130 - 5) := by
    rw [← hc, ← hmod]
    refine Bignum.addAssign_eq Bignum.bignum17 cr c ?_
    show Word.toNat 5 cr + Word.toNat 5 c < 2 * Word.toNat 5 Bignum.bignum17.mod
    rw [hmod, hc]
    omega
  have hreduced : Word.toNat 5 (Bignum.addAssign Bignum.bignum17 cr c) < 2 ^ 130 - 5 := by
    rw [hadd]
    exact Nat.mod_lt _ (by decide)
  obtain ⟨cr', hmul, hvalue⟩ := Bignum.mulAssign_eq Bignum.bignum17_correct (passes + 2)
    (by omega) (Bignum.addAssign Bignum.bignum17 cr c) r hreduced
  refine ⟨cr', ?_, ?_⟩
  · rw [← hadd]
    exact hvalue
  · have hmin : (min 16 (len : Int)).toNat = min 16 len := by omega
    have hrest : ((len : Int) - 16).toNat = len - 16 := by omega
    rw [absorb, if_pos (by omega), hmin]
    show (Bignum.mulAssign _ _ (Bignum.addAssign Bignum.bignum17 cr c) r).bind _ = _
    rw [hmul, Option.bind_some, absorb_toNat, hrest]

/-- The loop over a whole message, from a number that is reduced. -/
theorem absorb_eq (passes : Nat) (r cr : Word) (message : Memory) (len : Nat)
    (hcr : Word.toNat 5 cr < 2 ^ 130 - 5) :
    ∃ cr', absorb (passes + 2) r cr message len = some cr' ∧
      Word.toNat 5 cr' = (Word.toNat 5 cr * Word.toNat 5 r ^ chunks len +
        polynomial (Word.toNat 5 r) message len) % (2 ^ 130 - 5) := by
  -- induction on the length, sixteen bytes less for each chunk
  induction len using Nat.strong_induction_on generalizing cr message with
  | _ len ih =>
    by_cases hlen : 0 < len
    · obtain ⟨next, hnext, hloop⟩ := absorb_of_pos passes r cr message hlen hcr
      have hreduced : Word.toNat 5 next < 2 ^ 130 - 5 := by
        rw [hnext]
        exact Nat.mod_lt _ (by decide)
      obtain ⟨cr', hrun, hvalue⟩ :=
        ih (len - 16) (by omega) next (fun j => message (j + 16)) hreduced
      refine ⟨cr', hloop.trans hrun, ?_⟩
      -- modulo the prime a chunk adds one coefficient, multiplied like those before
      have hstep : Nat.ModEq (2 ^ 130 - 5) (Word.toNat 5 next)
          ((Word.toNat 5 cr + chunk message len 0) * Word.toNat 5 r) := by
        rw [hnext]
        exact (Nat.mod_modEq _ _).trans ((Nat.mod_modEq _ _).mul_right _)
      have htotal := (hstep.mul_right (Word.toNat 5 r ^ chunks (len - 16))).add_right
        (polynomial (Word.toNat 5 r) (fun j => message (j + 16)) (len - 16))
      rw [hvalue, htotal, polynomial_of_pos _ _ hlen, chunks_of_pos hlen]
      congr 1
      ring
    · have hzero : len = 0 := by omega
      rw [hzero]
      refine ⟨cr, absorb_of_nonpos _ _ _ _ (Int.le_refl 0), ?_⟩
      have hchunks : chunks 0 = 0 := rfl
      rw [polynomial_zero, hchunks, Nat.pow_zero, Nat.mul_one, Nat.add_zero, Nat.mod_eq_of_lt hcr]

/-! ## Stamps -/

/-- A block has 16 bytes. -/
theorem number_lt (block : Block) : number block < 256 ^ 16 :=
  Digits.value_lt fun i _ => (block.memory i).toNat_lt

/-- The number of a block that was read. -/
theorem number_ofFn (m : Memory) :
    number (fun i => m i) = Digits.value 256 16 fun i => (m i).toNat :=
  Digits.value_congr fun i hi => by rw [Block.memory, dif_pos hi]

/-- The bytes of the number are those of the block. -/
theorem number_div_mod (block : Block) (i : Fin 16) :
    number block / 256 ^ i.val % 256 = (block i).toNat := by
  rw [number, Digits.value_div_mod (fun j _ => (block.memory j).toNat_lt) i.isLt, Block.memory,
    dif_pos i.isLt]

/-- The bytes of a block are those of its number. -/
theorem block_eq_iff (x y : Block) : x = y ↔ number x = number y := by
  constructor
  · intro h
    rw [h]
  · intro h
    funext i
    apply UInt8.toNat_inj.mp
    rw [← number_div_mod, ← number_div_mod, h]

/-- The tag is the sum modulo the 128th power of two. -/
theorem number_tag (encrypt : Block → Block → Block) (k r nonce : Block) (message : Memory)
    (len : Nat) :
    number (tag encrypt k r nonce message len) =
      (polynomial (clamped r) message len % (2 ^ 130 - 5) + number (encrypt nonce k)) %
        256 ^ 16 := by
  rw [← Digits.value_digits]
  unfold tag
  rw [number_ofFn fun i => UInt8.ofNat (_ / 256 ^ i)]
  exact Digits.value_congr fun i _ => UInt8.toNat_ofNat'

/-- `stamp` computes the tag. -/
theorem stamp_eq (passes : Nat) (encrypt : Block → Block → Block) (k r nonce : Block)
    (message : Memory) (len : Nat) :
    stamp (passes + 2) encrypt (init k r) nonce message len =
      some (tag encrypt k r nonce message len) := by
  have hzero : Word.toNat 5 (Bignum.ofNat 0) = 0 := Bignum.toNat_ofNat 0 (by decide)
  obtain ⟨cr, hrun, hvalue⟩ := absorb_eq passes (init k r).r (Bignum.ofNat 0) message len
    (by rw [hzero]; decide)
  rw [hzero, Nat.zero_mul, Nat.zero_add, toNat_r] at hvalue
  have hcipher (block : Block) : Word.toNat 4 (ofMemory block.memory) = number block := by
    rw [toNat_eq_bytes, bytes_ofMemory, number]
  have hlow : Word.toNat 4 cr = Word.toNat 5 cr % (2 ^ 32) ^ 4 :=
    (Digits.value_mod (m := 4) (n := 1) fun i _ => Bignum.digit_lt cr i).symm
  rw [stamp, hrun]
  show some _ = some _
  congr 1
  rw [block_eq_iff, number_tag, bytes_k]
  refine (number_ofFn _).trans ?_
  rw [← toNat_eq_bytes 4, Bignum.toNat_simpleAdd_mod, hcipher, hlow, Nat.add_mod_mod, hvalue,
    Nat.add_comm]
  rfl

/-- A length that is not one: only an empty message is read. -/
theorem stamp_of_nonpos (passes : Nat) (encrypt : Block → Block → Block) (self : State)
    (nonce : Block) (message : Memory) {message_len : Int} (h : message_len ≤ 0) :
    stamp passes encrypt self nonce message message_len =
      stamp passes encrypt self nonce message (0 : Nat) := by
  rw [stamp, stamp, absorb_of_nonpos _ _ _ _ h,
    absorb_of_nonpos passes self.r _ message (Int.le_refl (0 : Nat))]

/-- `verify` compares the tag with what it is given. -/
theorem verify_eq {passes : Nat} {encrypt : Block → Block → Block} {self : State} {nonce : Block}
    {message : Memory} {message_len : UInt32} {my_mac : Block} (mac : Block)
    (h : stamp passes encrypt self nonce message message_len.toInt32.toInt = some my_mac) :
    verify passes encrypt self mac nonce message message_len = some (decide (mac = my_mac)) := by
  rw [verify, h]
  show some _ = some _
  congr 1
  rw [Bool.eq_iff_iff, List.all_eq_true, decide_eq_true_eq]
  constructor
  · intro hall
    funext i
    exact (eq_of_beq (hall i (List.mem_finRange i))).symm
  · intro heq i _
    rw [heq]
    exact beq_self_eq_true _

/-- What the length becomes as an `int`. -/
theorem toInt32_toInt (message_len : UInt32) :
    message_len.toInt32.toInt = if message_len.toNat < 2 ^ 31 then (message_len.toNat : Int)
      else (message_len.toNat : Int) - 2 ^ 32 := by
  have hint : message_len.toInt32.toInt = message_len.toBitVec.toInt := rfl
  rw [hint, BitVec.toInt_eq_toNat_cond]
  show (if 2 * message_len.toNat < 2 ^ 32 then _ else _) = _
  by_cases h : message_len.toNat < 2 ^ 31
  · rw [if_pos h, if_pos (by omega)]
    rfl
  · rw [if_neg h, if_neg (by omega)]
    rfl

/-- The tag of a message is that of the empty one when the polynomial adds nothing to it. -/
theorem tag_eq_empty_iff (encrypt : Block → Block → Block) (k r nonce : Block) (message : Memory)
    (len : Nat) :
    tag encrypt k r nonce message 0 = tag encrypt k r nonce message len ↔
      polynomial (clamped r) message len % (2 ^ 130 - 5) % 2 ^ 128 = 0 := by
  have hnumber := number_lt (encrypt nonce k)
  rw [block_eq_iff, number_tag, number_tag, polynomial_zero]
  generalize polynomial (clamped r) message len % (2 ^ 130 - 5) = p
  omega

/-- `verify` accepts the tag of the specification and no other. -/
def Accepts (encrypt : Block → Block → Block) (k r nonce : Block) (message : Memory)
    (message_len : UInt32) : Prop :=
  ∀ passes mac, verify (passes + 2) encrypt (init k r) mac nonce message message_len =
    some (decide (mac = tag encrypt k r nonce message message_len.toNat))

/-- A stamp is accepted exactly if the length is not negative or the message adds nothing. -/
theorem accepts_iff (encrypt : Block → Block → Block) (k r nonce : Block) (message : Memory)
    (message_len : UInt32) :
    Accepts encrypt k r nonce message message_len ↔
      message_len.toNat < 2 ^ 31 ∨
      polynomial (clamped r) message message_len.toNat % (2 ^ 130 - 5) % 2 ^ 128 = 0 := by
  by_cases hlen : message_len.toNat < 2 ^ 31
  · have hint : message_len.toInt32.toInt = (message_len.toNat : Nat) := by
      rw [toInt32_toInt, if_pos hlen]
    refine iff_of_true (fun passes mac => verify_eq mac ?_) (Or.inl hlen)
    rw [hint]
    exact stamp_eq passes encrypt k r nonce message _
  · have hneg : message_len.toInt32.toInt ≤ 0 := by
      have hlt := message_len.toNat_lt
      rw [toInt32_toInt, if_neg hlen]
      omega
    -- the stamp that is compared is the one of the empty message
    have hverify (passes : Nat) (mac : Block) :=
      verify_eq mac ((stamp_of_nonpos (passes + 2) encrypt (init k r) nonce message hneg).trans
        (stamp_eq passes encrypt k r nonce message 0))
    rw [or_iff_right hlen, ← tag_eq_empty_iff encrypt k r nonce message]
    constructor
    · intro haccepts
      have hboth := (hverify 0 _).symm.trans
        (haccepts 0 (tag encrypt k r nonce message message_len.toNat))
      rw [decide_eq_true rfl, Option.some_inj, decide_eq_true_eq] at hboth
      exact hboth.symm
    · intro heq passes mac
      rw [hverify, heq]

/-- `stamp` computes every tag. `verify` accepts it alone, unless the length is not one of an
    `int` and the tag differs from that of the empty message. -/
theorem stamp_correct (encrypt : Block → Block → Block) (k r nonce : Block) (message : Memory) :
    (∀ passes len, stamp (passes + 2) encrypt (init k r) nonce message (len : Nat) =
      some (tag encrypt k r nonce message len)) ∧
    ∀ message_len, Accepts encrypt k r nonce message message_len ↔
      message_len.toNat < 2 ^ 31 ∨
      polynomial (clamped r) message message_len.toNat % (2 ^ 130 - 5) % 2 ^ 128 = 0 :=
  ⟨fun passes len => stamp_eq passes encrypt k r nonce message len,
    accepts_iff encrypt k r nonce message⟩

/-- A message of zeros with `r = 1`: as many chunks, all the same. -/
theorem polynomial_zeros (len : Nat) :
    polynomial 1 (fun _ => 0) (16 * len) = len * 2 ^ 128 := by
  have hchunks : chunks (16 * len) = len := by
    unfold chunks
    omega
  rw [polynomial, hchunks]
  calc ∑ i ∈ Finset.range len, chunk (fun _ => 0) (16 * len) i * 1 ^ (len - i)
      = ∑ _i ∈ Finset.range len, 2 ^ 128 := by
        refine Finset.sum_congr rfl fun i hi => ?_
        have hfull : min 16 (16 * len - 16 * i) = 16 := by
          have := Finset.mem_range.mp hi
          omega
        rw [chunk, hfull, one_pow]
        rfl
    _ = len * 2 ^ 128 := by rw [Finset.sum_const, Finset.card_range, nsmul_eq_mul, Nat.cast_id]

/-- `r` with the lowest bit alone. -/
def oneBlock : Block := fun i => if i = 0 then 1 else 0

/-- 2 GiB of zeros. -/
theorem not_accepts : ¬ Accepts (fun nonce _ => nonce) oneBlock oneBlock oneBlock (fun _ => 0)
    2147483648 := by
  have hclamped : clamped oneBlock = 1 := by decide
  have hlen : (2147483648 : UInt32).toNat = 16 * 2 ^ 27 := rfl
  rw [accepts_iff, hclamped, hlen, polynomial_zeros]
  omega

end Poly1305

end Epos
