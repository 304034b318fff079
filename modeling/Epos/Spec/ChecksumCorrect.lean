import Epos.ForStd.OnesComplement
import Epos.Network.Checksum

/-!
# What the checks of the checksums accept

A packet is sound if the words of what its sender summed up, with the checksum among
them, add up to zero in one's complement. `check()` compares its sum with the wrong
zero: it accepts whatever it does not read as nothing but zeros, and for UDP and TCP it
reads something else than the sender has summed up.
-/

namespace Epos

open Checksum

variable {ptr : Bytes} {i j k n v sum size : Nat} {l l' : List UInt8} {p : IP.Packet}

/-! ## Words in memory -/

/-- The words of some bytes; the last one is filled up with zero. -/
def words : List UInt8 → List Nat
  | [] => []
  | [a] => [a.toNat * 256]
  | a :: b :: rest => (a.toNat * 256 + b.toNat) :: words rest

/-- The one's complement sum is zero. -/
def SumsToZero (bytes : List UInt8) : Prop :=
  OnesComplement.IsZero 16 (OnesComplement.sum 16 (words bytes))

/-- The ones' complement sum is zero exactly for the multiples of 65535. -/
theorem sumsToZero_iff : SumsToZero l ↔ 65535 ∣ (words l).sum :=
  OnesComplement.isZero_sum (by decide)

/-- A word is made of two bytes. -/
theorem Bytes.word_eq (ptr : Bytes) (i : Nat) :
    ptr.word i = (ptr i).toNat * 256 + (ptr (i + 1)).toNat := by
  have hlow : (ptr (i + 1)).toNat < 2 ^ 8 := UInt8.toNat_lt _
  unfold Bytes.word
  rw [← Nat.shiftLeft_add_eq_or_of_lt hlow, Nat.shiftLeft_eq]

/-- A word has 16 bits. -/
theorem Bytes.word_lt (ptr : Bytes) (i : Nat) : ptr.word i < 2 ^ 16 := by
  have hhigh : (ptr i).toNat < 2 ^ 8 := UInt8.toNat_lt _
  have hlow : (ptr (i + 1)).toNat < 2 ^ 8 := UInt8.toNat_lt _
  rw [Bytes.word_eq]
  omega

/-- The first `n` words from an address on. -/
def wordSum (ptr : Bytes) (n : Nat) : Nat := ((List.range n).map fun j => ptr.word (2 * j)).sum

/-- One word more. -/
theorem wordSum_succ (ptr : Bytes) (n : Nat) :
    wordSum ptr (n + 1) = wordSum ptr n + ptr.word (2 * n) := by
  simp [wordSum, List.range_succ]

/-- Words of two parts, the first of even length. -/
theorem words_append (h : l.length % 2 = 0) : words (l ++ l') = words l ++ words l' := by
  induction l using words.induct with
  | case1 => rfl
  | case2 a => simp at h
  | case3 a b rest ih =>
    have hrest : rest.length % 2 = 0 := by
      simp only [List.length_cons] at h
      omega
    simp only [List.cons_append, words, ih hrest]

/-- The words of a prefix add up to the sum of the source. -/
theorem words_take (ptr : Bytes) (n : Nat) : (words (ptr.take (2 * n))).sum = wordSum ptr n := by
  induction n with
  | zero => rfl
  | succ n ih =>
    have hsplit : ptr.take (2 * (n + 1)) = ptr.take (2 * n) ++ [ptr (2 * n), ptr (2 * n + 1)] := by
      rw [show 2 * (n + 1) = 2 * n + 1 + 1 by omega]
      simp [Bytes.take, List.range_succ]
    rw [hsplit, words_append (by simp [Bytes.take]), List.sum_append, ih, wordSum_succ,
      Bytes.word_eq]
    simp only [words, List.sum_cons, List.sum_nil, Nat.add_zero]

/-- The largest sum of so many words. -/
theorem wordSum_le (ptr : Bytes) (n : Nat) : wordSum ptr n ≤ n * 65535 := by
  induction n with
  | zero => exact Nat.le_refl 0
  | succ n ih =>
    have hlt := ptr.word_lt (2 * n)
    rw [wordSum_succ]
    omega

/-! ## What `IP::checksum` computes -/

/-- The loop adds the words, modulo 2³². -/
theorem addWords_mod (ptr : Bytes) (n sum : Nat) :
    addWords ptr n sum % 2 ^ 32 = (sum + wordSum ptr n) % 2 ^ 32 := by
  induction n with
  | zero => rfl
  | succ n ih =>
    rw [addWords, wordSum_succ]
    omega

/-- The loop adds the words, modulo 2³², to a sum that fits. -/
theorem addWords_eq (h : sum < 2 ^ 32) (ptr : Bytes) (n : Nat) :
    addWords ptr n sum = (sum + wordSum ptr n) % 2 ^ 32 := by
  rw [← addWords_mod]
  cases n with
  | zero => exact (Nat.mod_eq_of_lt h).symm
  | succ n =>
    rw [addWords]
    omega

/-- What `checksum` adds up for `size` bytes; with an odd size, the byte behind them too. -/
def bytesRead (ptr : Bytes) (size : Nat) : Nat :=
  wordSum ptr ((size + 1) / 2) + if size % 2 = 1 then (ptr (size - 1)).toNat else 0

/-- What the function reads, modulo 2³². -/
theorem addBytes_eq (ptr : Bytes) (size : Nat) :
    addBytes ptr size 0 = bytesRead ptr size % 2 ^ 32 := by
  have hwords := addWords_eq (show 0 < 2 ^ 32 by decide) ptr ((size + 1) / 2)
  unfold addBytes bytesRead
  rw [hwords]
  dsimp only
  split <;> omega

/-- Folding the carries is the library's fold. -/
theorem fold_eq (n : Nat) : fold n = OnesComplement.fold 16 n := by
  induction n using Nat.strongRecOn with
  | ind n ih =>
    rw [fold]
    by_cases h : n < 2 ^ 16
    · rw [OnesComplement.fold_of_lt h, if_pos]
      rw [Nat.shiftRight_eq_div_pow]
      omega
    · have hle : 2 ^ 16 ≤ n := Nat.le_of_not_lt h
      have hmask : n &&& 0xffff = n % 2 ^ 16 := Nat.and_two_pow_sub_one_eq_mod n 16
      rw [OnesComplement.fold_of_le (by decide) hle, if_neg, hmask, Nat.shiftRight_eq_div_pow]
      · exact ih _ (OnesComplement.fold_decreasing (by decide) h)
      · rw [Nat.shiftRight_eq_div_pow]
        omega

/-- The complement of it. -/
theorem complement_fold (n : Nat) :
    complement (fold n) = 65535 - OnesComplement.fold 16 n := by
  have hlt : OnesComplement.fold 16 n < 2 ^ 16 := OnesComplement.fold_lt (by decide)
  unfold complement
  rw [fold_eq]
  omega

/-- The value that `check()` looks for stands for a sum of zero, not for one that is zero
    in one's complement. -/
theorem checksum_eq_iff : IP.checksum ptr size = 0xffff ↔ 2 ^ 32 ∣ bytesRead ptr size := by
  have hlt : OnesComplement.fold 16 (addBytes ptr size 0) < 2 ^ 16 :=
    OnesComplement.fold_lt (by decide)
  have hzero := OnesComplement.fold_eq_zero (w := 16) (n := addBytes ptr size 0) (by decide)
  rw [IP.checksum, complement_fold, Nat.dvd_iff_mod_eq_zero, ← addBytes_eq, ← hzero]
  omega

/-- Only small sizes occur, for which that means that all bytes are zero. -/
theorem dvd_bytesRead_iff (h : size ≤ 131072) :
    2 ^ 32 ∣ bytesRead ptr size ↔ bytesRead ptr size = 0 := by
  have hle := wordSum_le ptr ((size + 1) / 2)
  have hlast : (ptr (size - 1)).toNat < 2 ^ 8 := UInt8.toNat_lt _
  have hlt : bytesRead ptr size < 2 ^ 32 := by
    unfold bytesRead
    split <;> omega
  constructor
  · exact fun hdvd => Nat.eq_zero_of_dvd_of_lt hdvd hlt
  · exact fun hzero => hzero ▸ Nat.dvd_zero _

/-! ## The three checks -/

/-- The IP check fails only for sums that are zero in 32 bits. -/
theorem check_iff : p.check = true ↔ ¬2 ^ 32 ∣ bytesRead p.bytes (p.ihl * 4) := by
  rw [IP.Packet.check, bne_iff_ne, ne_eq, checksum_eq_iff]

/-- The UDP check fails only for sums that are zero in 32 bits. -/
theorem UDP.check_iff {m : UDP.Message} :
    m.check = true ↔ ¬2 ^ 32 ∣ bytesRead m.bytes m.length := by
  rw [UDP.Message.check, bne_iff_ne, ne_eq, checksum_eq_iff]

/-- The TCP check fails only for sums that are zero in 32 bits. -/
theorem TCP.check_iff {g : TCP.Segment} :
    g.check size = true ↔ ¬2 ^ 32 ∣ bytesRead g.bytes size := by
  rw [TCP.Segment.check, bne_iff_ne, ne_eq, checksum_eq_iff]

/-- The bytes that `Header::sum` goes over. -/
def IP.Packet.header (p : IP.Packet) : List UInt8 := p.bytes.take (p.ihl * 4)

/-- What all buffers of a pool hold. -/
def datagram (pool : List IP.Buffer) : List UInt8 := pool.flatMap IP.Buffer.payload

/-- The bytes that the sender of a UDP message has summed up. -/
def UDP.summed (pool : List IP.Buffer) (p : IP.Packet) : List UInt8 :=
  IP.pseudoHeader p.from p.to UDP.protocol (UDP.message p).length ++ datagram pool

/-- The bytes that the sender of a TCP segment has summed up. -/
def TCP.summed (pool : List IP.Buffer) (p : IP.Packet) : List UInt8 :=
  IP.pseudoHeader p.from p.to TCP.protocol (datagram pool).length ++ datagram pool

/-- The words of the header are what the function reads. -/
theorem header_sum (p : IP.Packet) : (words p.header).sum = bytesRead p.bytes (p.ihl * 4) := by
  have hodd : p.ihl * 4 % 2 = 0 := by omega
  have hhalf : (p.ihl * 4 + 1) / 2 = p.ihl * 2 := by omega
  rw [IP.Packet.header, show p.ihl * 4 = 2 * (p.ihl * 2) by omega, words_take, bytesRead,
    ← show p.ihl * 4 = 2 * (p.ihl * 2) by omega, hhalf, if_neg (by omega), Nat.add_zero]

/-- `check()` accepts exactly the sound messages, and `receive()` returns nothing for the
    others. -/
def UDP.Verifies (pool : List IP.Buffer) (p : IP.Packet) (s : Nat) : Prop :=
  ((UDP.message p).check = true ↔ SumsToZero (UDP.summed pool p)) ∧
    (¬SumsToZero (UDP.summed pool p) → UDP.receive pool s = 0)

/-- `check(length)` accepts exactly the sound segments, and `update()` drops the others. -/
def TCP.Verifies (pool : List IP.Buffer) (head : IP.Buffer) (length : Nat) : Prop :=
  ((TCP.segment head.packet).check length = true ↔ SumsToZero (TCP.summed pool head.packet)) ∧
    (¬SumsToZero (TCP.summed pool head.packet) → TCP.drops head = true)

/-- When the UDP check verifies a datagram. -/
theorem UDP.verifies_iff {head : IP.Buffer} {rest : List IP.Buffer} {s : Nat} :
    UDP.Verifies (head :: rest) head.packet s ↔
      (SumsToZero (UDP.summed (head :: rest) head.packet) ↔
        ¬2 ^ 32 ∣ bytesRead (UDP.message head.packet).bytes (UDP.message head.packet).length) := by
  unfold UDP.Verifies
  rw [← UDP.check_iff]
  constructor
  · exact fun h => h.1.symm
  · intro h
    refine ⟨h.symm, fun hns => ?_⟩
    have hcheck : ¬(UDP.message head.packet).check = true := mt h.mpr hns
    simp only [UDP.receive, if_neg hcheck]

/-- When TCP drops a segment. -/
theorem TCP.drops_iff {head : IP.Buffer} : TCP.drops head = true ↔
    subUnsigned (subUnsigned head.size IP.headerSize) TCP.headerSize ≠ 0 ∧
      2 ^ 32 ∣ bytesRead (TCP.segment head.packet).bytes
        (subUnsigned (subUnsigned head.size IP.headerSize) TCP.headerSize) := by
  unfold TCP.drops
  rw [Bool.and_eq_true, bne_iff_ne, Bool.not_eq_true', ← Bool.not_eq_true, TCP.check_iff, not_not]

/-- `IP::Header::check` decides as it should exactly for the sound headers that are not all
    zero; those of UDP and TCP exactly for the sound packets of which they read something
    else than zeros, and the others of which they read zeros. -/
theorem checksums_verify_iff (p : IP.Packet) (head : IP.Buffer) (rest : List IP.Buffer)
    (s length : Nat) :
    ((p.check = true ↔ SumsToZero p.header) ↔
      0 < (words p.header).sum ∧ 65535 ∣ (words p.header).sum) ∧
    (UDP.Verifies (head :: rest) head.packet s ↔
      (SumsToZero (UDP.summed (head :: rest) head.packet) ↔
        ¬2 ^ 32 ∣ bytesRead (UDP.message head.packet).bytes
          (UDP.message head.packet).length)) ∧
    (TCP.Verifies (head :: rest) head length ↔
      (SumsToZero (TCP.summed (head :: rest) head.packet) ↔
        ¬2 ^ 32 ∣ bytesRead (TCP.segment head.packet).bytes length) ∧
      (¬SumsToZero (TCP.summed (head :: rest) head.packet) →
        subUnsigned (subUnsigned head.size IP.headerSize) TCP.headerSize ≠ 0 ∧
          2 ^ 32 ∣ bytesRead (TCP.segment head.packet).bytes
            (subUnsigned (subUnsigned head.size IP.headerSize) TCP.headerSize))) := by
  refine ⟨?_, UDP.verifies_iff, ?_⟩
  · -- the header has at most 15 words of four bytes, so the 32-bit sum cannot wrap
    have hsmall : p.ihl * 4 ≤ 131072 := by
      have hlt : p.ihl < 16 := Nat.mod_lt _ (by decide)
      omega
    rw [check_iff, dvd_bytesRead_iff hsmall, sumsToZero_iff, header_sum]
    by_cases hzero : bytesRead p.bytes (p.ihl * 4) = 0
    · simp [hzero]
    · have hpos : 0 < bytesRead p.bytes (p.ihl * 4) := Nat.pos_of_ne_zero hzero
      simp [hzero, hpos]
  · unfold TCP.Verifies
    rw [TCP.check_iff, TCP.drops_iff]
    exact and_congr_left fun _ => Iff.comm

/-- A header whose first byte is all that is left of it. -/
def corruptHeader : IP.Packet := ⟨fun i => if i = 0 then 0x45 else 0⟩

/-- It passes although its words do not add up to zero. -/
theorem not_checksums_verify : corruptHeader.check = true ∧ ¬SumsToZero corruptHeader.header := by
  have hsum : (words corruptHeader.header).sum = 0x4500 := by decide
  have hread : bytesRead corruptHeader.bytes (corruptHeader.ihl * 4) = 0x4500 := by
    rw [← header_sum, hsum]
  rw [check_iff, sumsToZero_iff, hread, hsum]
  decide

/-! ## What the senders produce -/

/-- A stored word leaves the others alone. -/
theorem Bytes.word_store_of_ne (ptr : Bytes) (v : Nat) {k m : Nat} (hm : m ≠ k) :
    (ptr.store (2 * k) v).word (2 * m) = ptr.word (2 * m) := by
  have h1 : 2 * m ≠ 2 * k + 1 := by omega
  have h2 : 2 * m ≠ 2 * k := by omega
  have h3 : 2 * m + 1 ≠ 2 * k + 1 := by omega
  have h4 : 2 * m + 1 ≠ 2 * k := by omega
  unfold Bytes.word Bytes.store
  rw [Function.update_of_ne h1, Function.update_of_ne h2, Function.update_of_ne h3,
    Function.update_of_ne h4]

/-- Reading back what was stored. -/
theorem Bytes.word_store (ptr : Bytes) (k v : Nat) (hv : v < 2 ^ 16) (m : Nat) :
    (ptr.store (2 * k) v).word (2 * m) = if m = k then v else ptr.word (2 * m) := by
  by_cases hm : m = k
  · subst hm
    have hne : 2 * m ≠ 2 * m + 1 := by omega
    rw [Bytes.word_eq]
    unfold Bytes.store
    rw [if_pos rfl, Function.update_of_ne hne, Function.update_self, Function.update_self,
      Nat.shiftRight_eq_div_pow]
    simp only [UInt8.toNat_ofNat']
    omega
  · rw [if_neg hm, Bytes.word_store_of_ne ptr v hm]

/-- Different words are stored differently. -/
theorem Bytes.store_inj {ptr : Bytes} {k v w : Nat} (hv : v < 2 ^ 16) (hw : w < 2 ^ 16)
    (h : ptr.store (2 * k) v = ptr.store (2 * k) w) : v = w := by
  have hword := congrArg (Bytes.word · (2 * k)) h
  rwa [Bytes.word_store _ _ _ hv, Bytes.word_store _ _ _ hw, if_pos rfl, if_pos rfl] at hword

/-- A word that is stored adds its value. -/
theorem wordSum_store (ptr : Bytes) (k v : Nat) (hv : v < 2 ^ 16) (n : Nat) :
    wordSum (ptr.store (2 * k) v) n =
      wordSum (ptr.store (2 * k) 0) n + if k < n then v else 0 := by
  induction n with
  | zero => simp [wordSum]
  | succ n ih =>
    rw [wordSum_succ, wordSum_succ, ih, Bytes.word_store ptr k v hv,
      Bytes.word_store ptr k 0 (by decide)]
    by_cases hn : n = k
    · subst hn
      simp
    · rw [if_neg hn, if_neg hn]
      split <;> split <;> omega

/-- The bytes in front stay. -/
theorem Bytes.store_apply (ptr : Bytes) (k v i : Nat) (h : i < k) : ptr.store k v i = ptr i := by
  have h1 : i ≠ k + 1 := by omega
  have h2 : i ≠ k := by omega
  unfold Bytes.store
  rw [Function.update_of_ne h1, Function.update_of_ne h2]

/-- The later word wins. -/
theorem Bytes.store_store (ptr : Bytes) (k v v' : Nat) :
    (ptr.store k v).store k v' = ptr.store k v' := by
  unfold Bytes.store
  funext i
  simp only [Function.update_apply]
  split
  · rfl
  · split <;> rfl

/-- A header that reaches to its checksum is sound once it has been summed up. -/
theorem sumsToZero_sum (h : 3 ≤ p.ihl) : SumsToZero p.sum.header := by
  obtain ⟨c, hc⟩ : ∃ c, c = IP.checksum (p.setChecksum 0).bytes (p.ihl * 4) := ⟨_, rfl⟩
  have hihl0 : (p.setChecksum 0).ihl = p.ihl :=
    congrArg (·.toNat % 16) (p.bytes.store_apply 10 0 0 (by decide))
  have hsum : p.sum = p.setChecksum c := by
    show (p.setChecksum 0).setChecksum
      (IP.checksum (p.setChecksum 0).bytes ((p.setChecksum 0).ihl * 4)) = p.setChecksum c
    rw [hihl0, ← hc]
    exact congrArg IP.Packet.mk (p.bytes.store_store 10 0 c)
  have hihl : (p.setChecksum c).ihl = p.ihl :=
    congrArg (·.toNat % 16) (p.bytes.store_apply 10 c 0 (by decide))
  have hread : bytesRead (p.setChecksum 0).bytes (p.ihl * 4) =
      wordSum (p.bytes.store (2 * 5) 0) (p.ihl * 2) := by
    unfold bytesRead
    rw [if_neg (by omega), Nat.add_zero, show (p.ihl * 4 + 1) / 2 = p.ihl * 2 by omega]
    rfl
  have hlt : p.ihl < 16 := Nat.mod_lt _ (by decide)
  have hle := wordSum_le (p.bytes.store (2 * 5) 0) (p.ihl * 2)
  -- the complement of the sum without a checksum
  have hcval : c = 65535 - OnesComplement.fold 16 (wordSum (p.bytes.store (2 * 5) 0) (p.ihl * 2)) := by
    rw [hc, IP.checksum, complement_fold, addBytes_eq, hread, Nat.mod_eq_of_lt (by omega)]
  have htotal : (words (p.setChecksum c).header).sum =
      wordSum (p.bytes.store (2 * 5) 0) (p.ihl * 2) + c := by
    rw [IP.Packet.header, hihl, show p.ihl * 4 = 2 * (p.ihl * 2) by omega, words_take]
    have hstore := wordSum_store p.bytes 5 c (by omega) (p.ihl * 2)
    rw [if_pos (by omega)] at hstore
    exact hstore
  rw [hsum, sumsToZero_iff, htotal, hcval]
  exact OnesComplement.dvd_add_complement (w := 16) (by decide)

end Epos
