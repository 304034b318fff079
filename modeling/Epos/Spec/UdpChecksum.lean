import Mathlib.Data.Fin.VecNotation
import Epos.Network.UdpSend
import Epos.Spec.InternetChecksum

/-!
# The checksum of a datagram in parts

Between two parts the sum is in the 16 bits of the header's checksum field, so a carry out of
them is lost, while the checksum takes it back in. The byte that is added twice at the
end of odd data, and the one behind it, can make up for the lost carries.
-/

namespace Epos

open Checksum

namespace UDP

variable {m : Message} {src dst : IP.Address} {data : Bytes} {sizes : List Nat} {size sum v w : Nat}

/-! ## Splitting -/

/-- All parts but the last have an even size. -/
def EvenSplit (sizes : List Nat) : Prop := ∀ size ∈ sizes.dropLast, size % 2 = 0

instance (sizes : List Nat) : Decidable (EvenSplit sizes) :=
  inferInstanceAs (Decidable (∀ size ∈ sizes.dropLast, size % 2 = 0))

/-- The rest of an even split is even. -/
theorem EvenSplit.tail (h : EvenSplit (size :: sizes)) : EvenSplit sizes := by
  cases sizes with
  | nil => exact fun _ hx => nomatch hx
  | cons x xs => exact fun y hy => h y (List.mem_cons_of_mem size hy)

/-! ## What is added up -/

/-- What is added for the end of odd data besides its words. -/
def overread (data : Bytes) (size : Nat) : Nat :=
  if size % 2 = 1 then (data (size - 1)).toNat + (data size).toNat else 0

/-- What is read of a chunk: its words, and a byte behind an odd one. -/
theorem bytesRead_eq (data : Bytes) (size : Nat) :
    bytesRead data size = (words (data.take size)).sum + overread data size := by
  unfold bytesRead overread
  rcases Nat.mod_two_eq_zero_or_one size with heven | hodd
  · have hsize : size = 2 * ((size + 1) / 2) := by omega
    rw [if_neg (by omega), if_neg (by omega), ← words_take, ← hsize]
  · obtain ⟨n, rfl⟩ : ∃ n, size = 2 * n + 1 := ⟨size / 2, by omega⟩
    have hn : (2 * n + 1 + 1) / 2 = n + 1 := by omega
    have hlast : (words ((data.shift (2 * n)).take 1)).sum = (data (2 * n)).toNat * 256 := by
      simp [Bytes.take, Bytes.shift, words]
    have hwords : (words (data.take (2 * n + 1))).sum =
        wordSum data n + (data (2 * n)).toNat * 256 := by
      rw [Bytes.take_add, words_append (by rw [Bytes.length_take]; omega), List.sum_append, words_take, hlast]
    rw [if_pos hodd, if_pos hodd, hn, wordSum_succ, Bytes.word_eq, hwords, Nat.add_sub_cancel]
    omega

/-- A chunk adds what is read of it, modulo 2¹⁶. -/
theorem addBytes_mod (data : Bytes) (size sum : Nat) :
    addBytes data size sum % 2 ^ 16 = (sum + bytesRead data size) % 2 ^ 16 := by
  have hwords := addWords_mod data ((size + 1) / 2) sum
  unfold addBytes bytesRead
  dsimp only
  split <;> omega

/-- One part after the other adds up the words of all data. -/
theorem sumChunks_mod (h : EvenSplit sizes) (data : Bytes) (sum : Nat) :
    Message.sumChunks sum data sizes % 2 ^ 16 =
      (sum + (words (data.take sizes.sum)).sum + overread data sizes.sum) % 2 ^ 16 := by
  -- induction on the fragments, whose data follow each other
  induction sizes generalizing data sum with
  | nil => rfl
  | cons size rest ih =>
    have hsum : Message.sumData sum data size % 2 ^ 16 = (sum + bytesRead data size) % 2 ^ 16 := by
      rw [Message.sumData, Nat.mod_mod, addBytes_mod]
    have hrest := ih h.tail (data.shift size) (Message.sumData sum data size)
    rw [Message.sumChunks, hrest, List.sum_cons, Nat.add_assoc, Nat.add_mod, hsum, ← Nat.add_mod,
      bytesRead_eq, Bytes.take_add]
    cases rest with
    | nil =>
      have hzero : overread (data.shift size) 0 = 0 := rfl
      simp only [List.sum_nil, Nat.add_zero, hzero]
      simp [Bytes.take, words, Nat.add_assoc]
    -- a fragment with others behind it has an even length, so only the last can be overread
    | cons x xs =>
      have heven : size % 2 = 0 := h size List.mem_cons_self
      have hread : overread data size = 0 := if_neg (by omega)
      have hshift : overread (data.shift size) (x :: xs).sum =
          overread data (size + (x :: xs).sum) := by
        unfold overread Bytes.shift
        by_cases hodd : (x :: xs).sum % 2 = 1
        · rw [if_pos hodd, if_pos (by omega), Nat.add_sub_assoc (by omega)]
        · rw [if_neg hodd, if_neg (by omega)]
      rw [words_append (by rw [Bytes.length_take]; exact heven), List.sum_append, hread, hshift]
      congr 1
      omega

/-! ## The header -/

/-- The pseudo header, the header without a checksum and the data. -/
def Message.summedBytes (m : Message) (src dst : IP.Address) (data : List UInt8) : List UInt8 :=
  IP.pseudoHeader src dst protocol m.length ++ (m.setChecksum 0).bytes.take headerSize ++ data

/-- The checksum is no part of the length. -/
theorem length_setChecksum (m : Message) (v : Nat) : (m.setChecksum v).length = m.length :=
  Bytes.word_store_of_ne m.bytes v (k := 3) (m := 2) (by decide)

/-- Both headers are summed before the data. -/
theorem sumHeader_eq (m : Message) (src dst : IP.Address) (data : List UInt8) :
    (m.sumHeader src dst + (words data).sum) % 2 ^ 16 =
      (words (m.summedBytes src dst data)).sum % 2 ^ 16 := by
  have hpseudo : (IP.pseudoHeader src dst protocol m.length).length = 2 * 6 := by
    simp [IP.pseudoHeader]
  have hheader : ((m.setChecksum 0).bytes.take headerSize).length = 2 * 4 := Bytes.length_take _ _
  have hpseudoWords := words_take (.ofList (IP.pseudoHeader src dst protocol m.length)) 6
  rw [← hpseudo, Bytes.take_ofList] at hpseudoWords
  have hheaderWords : (words ((m.setChecksum 0).bytes.take headerSize)).sum =
      wordSum (m.setChecksum 0).bytes 4 := words_take (m.setChecksum 0).bytes 4
  have htotal : (words (m.summedBytes src dst data)).sum =
      (words (IP.pseudoHeader src dst protocol m.length)).sum +
        (words ((m.setChecksum 0).bytes.take headerSize)).sum + (words data).sum := by
    unfold Message.summedBytes
    rw [words_append (by rw [List.length_append, hpseudo, hheader]), words_append (by rw [hpseudo]),
      List.sum_append, List.sum_append]
  have hfirst := addWords_mod (.ofList (IP.pseudoHeader src dst protocol m.length)) 6 0
  have hsecond := addWords_mod (m.setChecksum 0).bytes 4
    (addWords (.ofList (IP.pseudoHeader src dst protocol m.length)) 6 0)
  rw [htotal, hpseudoWords, hheaderWords]
  unfold Message.sumHeader
  dsimp only
  rw [length_setChecksum]
  omega

/-- Different checksums make different messages. -/
theorem setChecksum_inj (hv : v < 2 ^ 16) (hw : w < 2 ^ 16)
    (h : m.setChecksum v = m.setChecksum w) : v = w :=
  Bytes.store_inj (k := 3) hv hw (congrArg Message.bytes h)

/-- The sum of the headers is kept in 16 bits. -/
theorem sumHeader_lt (m : Message) (src dst : IP.Address) : m.sumHeader src dst < 2 ^ 16 :=
  Nat.mod_lt _ (by decide)

/-- The sum of the chunks is kept in 16 bits. -/
theorem sumChunks_lt (h : sum < 2 ^ 16) (data : Bytes) (sizes : List Nat) :
    Message.sumChunks sum data sizes < 2 ^ 16 := by
  induction sizes generalizing sum data with
  | nil => exact h
  | cons size rest ih => exact ih (Nat.mod_lt _ (by decide)) _

/-! ## The checksum -/

/-- On an even split the checksum is right exactly if no carry is lost. -/
theorem sumAll_iff (h : EvenSplit sizes) (hsize : sizes.sum ≤ mtu) :
    m.sumAll src dst data sizes =
        m.setChecksum (internetChecksum (m.summedBytes src dst (data.take sizes.sum))) ↔
      ((words (m.summedBytes src dst (data.take sizes.sum))).sum - 1) / 65535 =
        overread data sizes.sum := by
  have hheader := sumHeader_eq m src dst (data.take sizes.sum)
  have hchunks := sumChunks_mod h data (m.sumHeader src dst)
  have hlt := sumChunks_lt (sumHeader_lt m src dst) data sizes
  have hbound := words_sum_le (m.summedBytes src dst (data.take sizes.sum))
  have hlength : (m.summedBytes src dst (data.take sizes.sum)).length = 20 + sizes.sum := by
    simp [Message.summedBytes, IP.pseudoHeader, Bytes.length_take, headerSize]
    omega
  have hover : overread data sizes.sum < 2 ^ 9 := by
    have h₁ : (data (sizes.sum - 1)).toNat < 2 ^ 8 := UInt8.toNat_lt _
    have h₂ : (data sizes.sum).toNat < 2 ^ 8 := UInt8.toNat_lt _
    unfold overread
    split <;> omega
  have hmtu : mtu = 65507 := rfl
  have hfold := OnesComplement.fold_eq_sub (w := 16) (by decide)
    (words (m.summedBytes src dst (data.take sizes.sum))).sum
  have hfoldLt : OnesComplement.fold 16
      (words (m.summedBytes src dst (data.take sizes.sum))).sum < 2 ^ 16 :=
    OnesComplement.fold_lt (by decide)
  unfold Message.sumAll Message.sumTrailer
  rw [complement_fold, OnesComplement.fold_of_lt hlt, internetChecksum_eq]
  generalize (words (m.summedBytes src dst (data.take sizes.sum))).sum = S at *
  generalize Message.sumChunks (m.sumHeader src dst) data sizes = T at *
  -- the sum is short of the carries, and has too much of what was read beyond the words
  have hT : T = (S + overread data sizes.sum) % 2 ^ 16 := by omega
  constructor
  · intro heq
    have heq := setChecksum_inj (by omega) (by omega) heq
    omega
  · intro heq
    have hT' : T = OnesComplement.fold 16 S := by omega
    rw [hT']

/-! ## The parts that `send` makes -/

/-- All chunks but the last have even length. -/
theorem evenSplit_cons_iff (h : sizes ≠ []) :
    EvenSplit (size :: sizes) ↔ size % 2 = 0 ∧ EvenSplit sizes := by
  unfold EvenSplit
  rw [List.dropLast_cons_of_ne_nil h, List.forall_mem_cons]

/-- One buffer, and those for the rest. -/
theorem bufferSizes_cons (h : size ≠ 0) :
    IP.bufferSizes size =
      (min size 1480 + IP.headerSize) :: IP.bufferSizes (size - 1480) := by
  have hmax : IP.maxData = 1480 := rfl
  have hframe : IP.frameSize = 1480 + IP.headerSize := rfl
  rw [IP.bufferSizes, if_neg h, hmax, hframe]
  congr 1
  split <;> omega

/-- Only nothing needs no buffer. -/
theorem bufferSizes_eq_nil_iff : IP.bufferSizes size = [] ↔ size = 0 := by
  constructor
  · intro h
    by_contra hsize
    rw [bufferSizes_cons hsize] at h
    cases h
  · rintro rfl
    rw [IP.bufferSizes, if_pos rfl]

/-- What the buffers hold behind their IP headers. -/
theorem bufferSizes_payload (size : Nat) :
    ((IP.bufferSizes size).map (· - IP.headerSize)).sum = size ∧
      EvenSplit ((IP.bufferSizes size).map (· - IP.headerSize)) := by
  induction size using Nat.strong_induction_on with
  | _ size ih =>
    by_cases hsize : size = 0
    · rw [bufferSizes_eq_nil_iff.mpr hsize]
      exact ⟨hsize.symm, fun _ hx => nomatch hx⟩
    · obtain ⟨hsum, heven⟩ := ih (size - 1480) (by omega)
      rw [bufferSizes_cons hsize, List.map_cons, List.sum_cons, hsum, Nat.add_sub_cancel]
      refine ⟨by omega, ?_⟩
      by_cases hlast : size - 1480 = 0
      · rw [bufferSizes_eq_nil_iff.mpr hlast]
        exact fun _ hx => nomatch hx
      · rw [evenSplit_cons_iff]
        · exact ⟨by omega, heven⟩
        · rwa [ne_eq, List.map_eq_nil_iff, bufferSizes_eq_nil_iff]

/-- The chunks are an even split of the data. -/
theorem chunkSizes_spec (size : Nat) :
    (chunkSizes size).sum = size ∧ EvenSplit (chunkSizes size) := by
  have hpos : size + headerSize ≠ 0 := by
    unfold headerSize
    omega
  obtain ⟨hsum, heven⟩ := bufferSizes_payload (size + headerSize - 1480)
  have hheader : headerSize = 8 := rfl
  unfold chunkSizes
  rw [bufferSizes_cons hpos]
  dsimp only
  rw [Nat.sub_right_comm, Nat.add_sub_cancel, List.sum_cons, hsum]
  refine ⟨by omega, ?_⟩
  by_cases hlast : size + headerSize - 1480 = 0
  · rw [bufferSizes_eq_nil_iff.mpr hlast]
    exact fun _ hx => nomatch hx
  · rw [evenSplit_cons_iff]
    · exact ⟨by omega, heven⟩
    · rwa [ne_eq, List.map_eq_nil_iff, bufferSizes_eq_nil_iff]

/-- On the chunks of `alloc()` the checksum is right exactly if no carry is lost. -/
theorem sumAll_chunkSizes_iff (hsize : size ≤ mtu) :
    m.sumAll src dst data (chunkSizes size) =
        m.setChecksum (internetChecksum (m.summedBytes src dst (data.take size))) ↔
      ((words (m.summedBytes src dst (data.take size))).sum - 1) / 65535 = overread data size := by
  obtain ⟨hsum, heven⟩ := chunkSizes_spec size
  have hiff : m.sumAll src dst data (chunkSizes size) =
      m.setChecksum (internetChecksum (m.summedBytes src dst (data.take (chunkSizes size).sum))) ↔
        _ := sumAll_iff heven (by rwa [hsum])
  rwa [hsum] at hiff

/-- For every datagram, every pair of addresses and all data in parts as `send` makes them:
    the header gets the checksum exactly if as many carries are lost as the bytes that are
    read beyond the words of the data amount to. -/
theorem udp_checksum_iff (m : Message) (src dst : IP.Address) (data : Bytes) :
    (∀ size, (chunkSizes size).sum = size ∧ EvenSplit (chunkSizes size)) ∧
    ∀ sizes : List Nat, EvenSplit sizes → sizes.sum ≤ mtu →
      (m.sumAll src dst data sizes =
          m.setChecksum (internetChecksum (m.summedBytes src dst (data.take sizes.sum))) ↔
        ((words (m.summedBytes src dst (data.take sizes.sum))).sum - 1) / 65535 =
          overread data sizes.sum) :=
  ⟨chunkSizes_spec, fun _ => sumAll_iff⟩

/-- From port 1000 to port 1001, with two bytes of data. -/
def twoBytes : Message := ⟨.ofList [0x03, 0xe8, 0x03, 0xe9, 0, 10, 0, 0]⟩

/-- From 10.0.0.1 to 10.0.0.2 with the data `ff ff`, which makes a carry. -/
theorem udp_checksum_loses_carry :
    ¬ ∀ (m : Message) (src dst : IP.Address) (data : Bytes) (size : Nat), size ≤ mtu →
      m.sumAll src dst data (chunkSizes size) =
        m.setChecksum (internetChecksum (m.summedBytes src dst (data.take size))) := by
  intro h
  have heq := h twoBytes ![10, 0, 0, 1] ![10, 0, 0, 2] (fun _ => 0xff) 2 (by decide)
  rw [sumAll_chunkSizes_iff (by decide)] at heq
  exact absurd heq (by decide +kernel)

/-- Six bytes in two chunks. -/
theorem udp_checksum_iff_example :
    twoBytes.sumAll ![10, 0, 0, 1] ![10, 0, 0, 2] (fun _ => 1) [4, 2] =
      twoBytes.setChecksum (internetChecksum
        (twoBytes.summedBytes ![10, 0, 0, 1] ![10, 0, 0, 2] (Bytes.take (fun _ => 1) 6))) :=
  ((udp_checksum_iff twoBytes _ _ (fun _ => 1)).2 [4, 2] (by decide) (by decide)).mpr
    (by decide +kernel)

end UDP

end Epos
