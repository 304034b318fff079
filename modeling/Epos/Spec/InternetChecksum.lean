import Epos.Network.ChecksumBounds
import Epos.Spec.ChecksumCorrect

/-!
# The Internet checksum

RFC 1071 complements the one's complement sum of the words of the data. `checksum` and
`TCP::Segment::sum` compute it, reading nothing else, for data of an even size whose words
add up in 32 bits.
-/

namespace Epos

open Checksum

variable {l : List UInt8} {n sum : Nat}

/-- The checksum of RFC 1071; an odd last byte is filled up with zero. -/
def internetChecksum (l : List UInt8) : Nat := 65535 - OnesComplement.sum 16 (words l)

/-- The checksum by folding the carries. -/
theorem internetChecksum_eq (l : List UInt8) :
    internetChecksum l = 65535 - OnesComplement.fold 16 (words l).sum := by
  unfold internetChecksum
  rw [OnesComplement.sum_eq_fold (by decide)]

/-- The checksum has 16 bits. -/
theorem internetChecksum_lt (l : List UInt8) : internetChecksum l < 2 ^ 16 := by
  unfold internetChecksum
  omega

/-! ## Reading inside a buffer -/

/-- Reading back the list. -/
theorem Bytes.take_ofList (l : List UInt8) : (Bytes.ofList l).take l.length = l := by
  apply List.ext_getElem
  · simp [Bytes.take]
  · intro i _ hi
    simp [Bytes.take, Bytes.ofList, hi]

/-- A word inside of the list. -/
theorem wordIn_eq {i : Nat} (h : i + 1 < l.length) :
    wordIn l i = some ((Bytes.ofList l).word i) := by
  unfold wordIn Bytes.word Bytes.ofList
  rw [List.getElem?_eq_getElem (by omega), List.getElem?_eq_getElem h]
  simp only [Option.bind_eq_bind, Option.bind_some, List.getD_eq_getElem?_getD,
    List.getElem?_eq_getElem h, List.getElem?_eq_getElem (Nat.lt_of_succ_lt h), Option.getD_some]

/-- The words inside of the list add up. -/
theorem addWordsIn_eq (h : 2 * n ≤ l.length) (sum : Nat) :
    addWordsIn l n sum = some (addWords (.ofList l) n sum) := by
  induction n with
  | zero => rfl
  | succ n ih =>
    rw [addWordsIn, ih (by omega), Option.bind_eq_bind, Option.bind_some, wordIn_eq (by omega)]
    rfl

/-- The last round leaves a buffer of an odd size. -/
theorem addWordsIn_none (h : l.length < 2 * n) (sum : Nat) : addWordsIn l n sum = none := by
  induction n with
  | zero => omega
  | succ n ih =>
    by_cases hn : l.length < 2 * n
    · rw [addWordsIn, ih hn]
      rfl
    · have hword : wordIn l (2 * n) = none := by
        unfold wordIn
        rw [List.getElem?_eq_none (l := l) (i := 2 * n + 1) (by omega)]
        cases l[2 * n]? <;> rfl
      rw [addWordsIn, hword]
      cases addWordsIn l n sum <;> rfl

/-- A list of odd length is read beyond its end. -/
theorem addBytesIn_odd (h : l.length % 2 = 1) (sum : Nat) : addBytesIn l sum = none := by
  unfold addBytesIn
  rw [addWordsIn_none (by omega)]
  rfl

/-- One of even length is not. -/
theorem addBytesIn_even (h : l.length % 2 = 0) (hsum : sum < 2 ^ 32) :
    addBytesIn l sum = some ((sum + (words l).sum) % 2 ^ 32) := by
  have hlength : 2 * ((l.length + 1) / 2) = l.length := by omega
  have hwords := words_take (.ofList l) ((l.length + 1) / 2)
  rw [hlength, Bytes.take_ofList] at hwords
  unfold addBytesIn
  rw [addWordsIn_eq (by omega), Option.bind_eq_bind, Option.bind_some, if_neg (by omega),
    addWords_eq hsum, hwords]

/-! ## Lost carries -/

/-- The largest sum of so many bytes. -/
theorem words_sum_le (l : List UInt8) : (words l).sum ≤ (l.length + 1) / 2 * 65535 := by
  induction l using words.induct with
  | case1 => exact Nat.le_refl 0
  | case2 a =>
    have ha : a.toNat < 2 ^ 8 := UInt8.toNat_lt _
    simp only [words, List.sum_cons, List.sum_nil, List.length_singleton]
    omega
  | case3 a b rest ih =>
    have ha : a.toNat < 2 ^ 8 := UInt8.toNat_lt _
    have hb : b.toNat < 2 ^ 8 := UInt8.toNat_lt _
    simp only [words, List.sum_cons, List.length_cons]
    omega

/-- A carry out of 32 bits is lost, and shows unless there are too many of them. -/
theorem fold_mod_eq_iff (h : n < 65535 * 2 ^ 32) :
    OnesComplement.fold 16 (n % 2 ^ 32) = OnesComplement.fold 16 n ↔ n < 2 ^ 32 := by
  constructor
  · intro heq
    have hmod : n % 2 ^ 32 ≡ n [MOD 2 ^ 16 - 1] := by
      have h₁ := OnesComplement.fold_modEq (w := 16) (n := n % 2 ^ 32) (by decide)
      have h₂ := OnesComplement.fold_modEq (w := 16) (n := n) (by decide)
      rw [heq] at h₁
      exact h₁.symm.trans h₂
    have hsplit := Nat.mod_add_div n (2 ^ 32)
    have hdvd := (Nat.modEq_iff_dvd' (Nat.mod_le n (2 ^ 32))).mp hmod
    have hsub : n - n % 2 ^ 32 = n / 2 ^ 32 * (2 ^ 32 - 1) + n / 2 ^ 32 := by omega
    rw [hsub, Nat.dvd_add_right (Nat.dvd_mul_left_of_dvd (by decide) _)] at hdvd
    have hlt : n / 2 ^ 32 < 65535 := Nat.div_lt_of_lt_mul (by omega)
    have hzero := Nat.eq_zero_of_dvd_of_lt hdvd hlt
    omega
  · intro hlt
    rw [Nat.mod_eq_of_lt hlt]

/-- The sum may be taken modulo 2³² exactly if it fits. -/
theorem complement_fold_mod_iff (h : n < 65535 * 2 ^ 32) :
    complement (fold (n % 2 ^ 32)) = 65535 - OnesComplement.fold 16 n ↔ n < 2 ^ 32 := by
  have hlt : OnesComplement.fold 16 n < 2 ^ 16 := OnesComplement.fold_lt (by decide)
  have hlt' : OnesComplement.fold 16 (n % 2 ^ 32) < 2 ^ 16 := OnesComplement.fold_lt (by decide)
  rw [complement_fold, ← fold_mod_eq_iff h]
  omega

/-! ## `IP::checksum` -/

/-- The IP checksum is right exactly under the two conditions. -/
theorem checksumIn_iff (hsize : l.length < 2 ^ 32) :
    IP.checksumIn l = some (internetChecksum l) ↔
      l.length % 2 = 0 ∧ (words l).sum < 2 ^ 32 := by
  unfold IP.checksumIn
  rcases Nat.mod_two_eq_zero_or_one l.length with heven | hodd
  · have hbound := words_sum_le l
    rw [addBytesIn_even heven (by decide), Nat.zero_add, Option.map_some, Option.some_inj,
      internetChecksum_eq, complement_fold_mod_iff (by omega), and_iff_right heven]
  · rw [addBytesIn_odd hodd, Option.map_none]
    constructor
    · intro h
      cases h
    · exact fun h => by omega

/-! ## `TCP::Segment::sum` -/

namespace TCP.Segment

variable {g : Segment} {src dst : IP.Address} {data : Option (List UInt8)} {v w : Nat}

/-- The pseudo header, the header without a checksum and the data. -/
def summedBytes (g : Segment) (src dst : IP.Address) (data : List UInt8) : List UInt8 :=
  IP.pseudoHeader src dst protocol (headerSize + data.length) ++
    (g.setChecksum 0).bytes.take headerSize ++ data

/-- Different checksums make different segments. -/
theorem setChecksum_inj (hv : v < 2 ^ 16) (hw : w < 2 ^ 16)
    (h : g.setChecksum v = g.setChecksum w) : v = w :=
  Bytes.store_inj (k := 8) hv hw (congrArg Segment.bytes h)

/-- The words of the list add up. -/
theorem addWordsIn_words (h : l.length = 2 * n) (hsum : sum < 2 ^ 32) :
    addWordsIn l n sum = some ((sum + (words l).sum) % 2 ^ 32) := by
  have hwords := words_take (.ofList l) n
  rw [← h, Bytes.take_ofList] at hwords
  rw [addWordsIn_eq (by omega), addWords_eq hsum, hwords]

/-- What is summed up in the end, modulo 32 bits. -/
theorem sumIn_even (h : (data.getD []).length % 2 = 0) :
    g.sumIn src dst data = some (g.setChecksum
      (complement (fold ((words (g.summedBytes src dst (data.getD []))).sum % 2 ^ 32)))) := by
  have hpseudo : (IP.pseudoHeader src dst protocol
      (headerSize + (data.getD []).length)).length = 2 * 6 := by
    simp [IP.pseudoHeader]
  have hheader : ((g.setChecksum 0).bytes.take headerSize).length = 2 * 10 := by
    simp [Bytes.take, headerSize]
  -- the data are summed like the header, and nothing is added without data
  have hdata {x : Nat} (hx : x < 2 ^ 32) :
      addDataIn data x = some ((x + (words (data.getD [])).sum) % 2 ^ 32) := by
    cases data with
    | none =>
      show some x = some ((x + 0) % 2 ^ 32)
      rw [Nat.add_zero, Nat.mod_eq_of_lt hx]
    | some ptr => exact addBytesIn_even h hx
  have htotal : (words (g.summedBytes src dst (data.getD []))).sum =
      (words (IP.pseudoHeader src dst protocol (headerSize + (data.getD []).length))).sum +
        (words ((g.setChecksum 0).bytes.take headerSize)).sum + (words (data.getD [])).sum := by
    unfold summedBytes
    rw [words_append (by rw [List.length_append, hpseudo, hheader]), words_append (by rw [hpseudo]),
      List.sum_append, List.sum_append]
  have hstore (v : Nat) : (g.setChecksum 0).setChecksum v = g.setChecksum v :=
    congrArg Segment.mk (Bytes.store_store _ _ _ _)
  unfold sumIn
  dsimp only
  rw [addWordsIn_words hpseudo (by decide), Option.bind_eq_bind, Option.bind_some,
    addWordsIn_words hheader (Nat.mod_lt _ (by decide)), Option.bind_some,
    hdata (Nat.mod_lt _ (by decide)), Option.bind_some, hstore, htotal,
    Nat.zero_add, Nat.mod_add_mod, Nat.add_assoc (_ % _), Nat.mod_add_mod, Nat.add_assoc]

/-- Data of odd length is read beyond its end. -/
theorem sumIn_odd (h : (data.getD []).length % 2 = 1) : g.sumIn src dst data = none := by
  have hdata (sum : Nat) : addDataIn data sum = none := by
    cases data with
    | none => cases h
    | some ptr => exact addBytesIn_odd h sum
  unfold sumIn
  simp only [hdata, Option.bind_eq_bind, Option.bind_none, Option.bind_fun_none]

/-- The TCP checksum is right exactly under the two conditions. -/
theorem sumIn_iff (hsize : (data.getD []).length < 2 ^ 32) :
    g.sumIn src dst data =
        some (g.setChecksum (internetChecksum (g.summedBytes src dst (data.getD [])))) ↔
      (data.getD []).length % 2 = 0 ∧
        (words (g.summedBytes src dst (data.getD []))).sum < 2 ^ 32 := by
  -- with an odd length the code reads one byte too much, and there is no result
  rcases Nat.mod_two_eq_zero_or_one (data.getD []).length with heven | hodd
  · have hbound := words_sum_le (g.summedBytes src dst (data.getD []))
    have hlength : (g.summedBytes src dst (data.getD [])).length =
        32 + (data.getD []).length := by
      simp [summedBytes, IP.pseudoHeader, Bytes.take, headerSize]
      omega
    have hlt : (words (g.summedBytes src dst (data.getD []))).sum < 65535 * 2 ^ 32 := by omega
    rw [sumIn_even heven, and_iff_right heven, ← complement_fold_mod_iff hlt,
      ← internetChecksum_eq, Option.some_inj]
    constructor
    · -- two checksums that give the same segment are the same
      intro heq
      refine setChecksum_inj ?_ (internetChecksum_lt _) heq
      exact Nat.mod_lt _ (by decide)
    · intro heq
      rw [heq]
  · rw [sumIn_odd hodd]
    constructor
    · intro h
      cases h
    · exact fun h => by omega

end TCP.Segment

/-! ## Both -/

/-- For every buffer, and every header with every data: the sums read nothing else and give the
    Internet checksum exactly if the size is even and the words add up in 32 bits. -/
theorem internet_checksum_iff (buffer : List UInt8) (hbuffer : buffer.length < 2 ^ 32)
    (g : TCP.Segment) (src dst : IP.Address) (data : Option (List UInt8))
    (hdata : (data.getD []).length < 2 ^ 32) :
    (IP.checksumIn buffer = some (internetChecksum buffer) ↔
      buffer.length % 2 = 0 ∧ (words buffer).sum < 2 ^ 32) ∧
    (g.sumIn src dst data =
        some (g.setChecksum (internetChecksum (g.summedBytes src dst (data.getD [])))) ↔
      (data.getD []).length % 2 = 0 ∧
        (words (g.summedBytes src dst (data.getD []))).sum < 2 ^ 32) :=
  ⟨checksumIn_iff hbuffer, TCP.Segment.sumIn_iff hdata⟩

/-- The byte behind a buffer of one byte is read, whatever follows. -/
theorem not_internet_checksum :
    ¬ ∀ data : List UInt8, data.length < 2 ^ 32 →
      IP.checksumIn data = some (internetChecksum data) := by
  intro h
  have hodd := h [1] (by decide)
  have hnone : IP.checksumIn [1] = none := rfl
  rw [hnone] at hodd
  cases hodd

/-- A header of four bytes and a segment with two. -/
theorem internet_checksum_iff_example :
    IP.checksumIn [0x45, 0x00, 0xff, 0xff] = some (internetChecksum [0x45, 0x00, 0xff, 0xff]) ∧
    TCP.Segment.sumIn ⟨fun _ => 0xff⟩ (fun _ => 10) (fun _ => 20) (some [1, 2]) =
      some (TCP.Segment.setChecksum ⟨fun _ => 0xff⟩ (internetChecksum
        (TCP.Segment.summedBytes ⟨fun _ => 0xff⟩ (fun _ => 10) (fun _ => 20) [1, 2]))) :=
  have h := internet_checksum_iff [0x45, 0x00, 0xff, 0xff] (by decide) ⟨fun _ => 0xff⟩
    (fun _ => 10) (fun _ => 20) (some [1, 2]) (by decide)
  ⟨h.1.mpr (by decide), h.2.mpr (by decide)⟩

end Epos
