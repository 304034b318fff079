import Epos.Network.Receive
import Epos.Spec.ChecksumCorrect

/-!
# Receiving into a buffer with an end

A buffer's data are copied as a whole when what has been copied before fits. So nothing is
written behind the end exactly if all data of the pool fit.
-/

namespace Epos

variable {s offset len headerSize : Nat} {parts : List (Bytes × Nat)} {src : Bytes}

/-! ## The loop -/

/-- The data of all buffers. -/
def dataOf (parts : List (Bytes × Nat)) : List UInt8 :=
  parts.flatMap fun part => part.1.take part.2

theorem dataOf_cons : dataOf ((src, len) :: parts) = src.take len ++ dataOf parts :=
  List.flatMap_cons

theorem length_dataOf_cons :
    (dataOf ((src, len) :: parts)).length = len + (dataOf parts).length := by
  rw [dataOf_cons, List.length_append, Bytes.length_take]

/-- If everything fits, everything is copied. -/
theorem copyBuffers_fits (hs : s < 2 ^ 32) (h : offset + (dataOf parts).length ≤ s) :
    copyBuffers s parts offset offset =
      (offset + (dataOf parts).length, (dataOf parts).zipIdx offset) := by
  induction parts generalizing offset with
  | nil => rfl
  | cons part rest ih =>
    obtain ⟨src, len⟩ := part
    rw [length_dataOf_cons] at h ⊢
    have hsize : (offset + len) % 2 ^ 32 = offset + len := Nat.mod_eq_of_lt (by omega)
    have hfits : offset ≤ s := by omega
    simp only [copyBuffers, if_pos hfits, hsize]
    rw [ih (by omega), dataOf_cons, List.zipIdx_append, Bytes.length_take, memcpy]
    exact Prod.ext (Nat.add_assoc ..) rfl

/-- Otherwise there is a first buffer that does not fit, and it is copied. -/
theorem copyBuffers_overflow (hs : s < 2 ^ 32) (hle : offset ≤ s)
    (h : s < offset + (dataOf parts).length) :
    ∃ w ∈ (copyBuffers s parts offset offset).2, w.2 = s := by
  induction parts generalizing offset with
  | nil =>
    have hnone : (dataOf []).length = 0 := rfl
    omega
  | cons part rest ih =>
    obtain ⟨src, len⟩ := part
    rw [length_dataOf_cons] at h
    simp only [copyBuffers, if_pos hle]
    -- the byte at `s` is in a later buffer or in this one
    by_cases hlen : offset + len ≤ s
    · have hsize : (offset + len) % 2 ^ 32 = offset + len := Nat.mod_eq_of_lt (by omega)
      obtain ⟨w, hw, heq⟩ := ih hlen (by omega)
      rw [hsize]
      exact ⟨w, List.mem_append_right _ hw, heq⟩
    · have hlt : s - offset < (src.take len).length := by
        rw [Bytes.length_take]
        omega
      refine ⟨((src.take len)[s - offset], s), List.mem_append_left _ ?_, rfl⟩
      have hat : offset + (s - offset) = s := by omega
      simp [memcpy, List.mk_mem_zipIdx_iff_le_and_getElem?_sub, hle, hlt]

/-! ## Both functions -/

namespace ReceivedPool

variable (pool : ReceivedPool headerSize)

/-- What the sender has sent, behind the headers. -/
def payload : List UInt8 :=
  (pool.head.packet.data.shift headerSize).take (pool.head.size - IP.headerSize - headerSize) ++
    pool.rest.flatMap fun buf => buf.packet.data.take (buf.size - IP.headerSize)

theorem dataOf_parts : dataOf pool.parts = pool.payload := by
  have hhead := pool.le_head
  have hlen : subUnsigned pool.head.size IP.headerSize = pool.head.size - IP.headerSize :=
    subUnsigned_of_le (by omega) pool.lt_head
  have hlen' : subUnsigned (pool.head.size - IP.headerSize) headerSize =
      pool.head.size - IP.headerSize - headerSize :=
    subUnsigned_of_le (by omega) (by have := pool.lt_head; omega)
  have hrest : ∀ buf ∈ pool.rest,
      buf.packet.data.take (subUnsigned buf.size IP.headerSize) =
        buf.packet.data.take (buf.size - IP.headerSize) := fun buf hbuf => by
    rw [subUnsigned_of_le (pool.le_rest buf hbuf) (pool.lt_rest buf hbuf)]
  rw [parts, dataOf_cons, hlen, hlen', payload, dataOf, List.flatMap_map]
  exact congrArg _ (List.flatMap_congr hrest)

end ReceivedPool

/-- The writes go inside the buffer and are the first bytes in order, and so is the result. -/
structure CopiesInside (result : Nat) (writes : List (UInt8 × Nat)) (payload : List UInt8)
    (s : Nat) : Prop where
  inside : ∀ w ∈ writes, w.2 < s
  le : result ≤ s
  inOrder : ∃ n, writes = (payload.take n).zipIdx

theorem bounded_copyBuffers_iff (hs : s < 2 ^ 32) {result : Nat}
    (hresult : result ≤ (copyBuffers s parts 0 0).1) :
    CopiesInside result (copyBuffers s parts 0 0).2 (dataOf parts) s ↔
      (dataOf parts).length ≤ s := by
  constructor
  · intro h
    by_contra hlt
    have hbehind : s < 0 + (dataOf parts).length := by omega
    obtain ⟨w, hw, heq⟩ := copyBuffers_overflow hs s.zero_le hbehind
    exact absurd (h.inside w hw) (by omega)
  · intro h
    have hbefore : 0 + (dataOf parts).length ≤ s := by omega
    have hcopied := copyBuffers_fits hs hbefore
    rw [hcopied] at hresult ⊢
    rw [Nat.zero_add] at hresult
    refine ⟨fun w hw => ?_, hresult.trans h, (dataOf parts).length, ?_⟩
    · have hplace := (List.mk_mem_zipIdx_iff_getElem?.1 hw)
      have hlt := (List.getElem?_eq_some_iff.1 hplace).1
      omega
    · rw [List.take_length]

variable {u : ReceivedPool UDP.headerSize} {t : ReceivedPool TCP.headerSize}

theorem UDP.receiveTo_le :
    (UDP.receiveTo u s).1 ≤ (copyBuffers s u.parts 0 0).1 := by
  simp only [UDP.receiveTo]
  split
  · exact Nat.le_refl _
  · exact Nat.zero_le _

theorem UDP.bounded_receiveTo_iff (hs : s < 2 ^ 32) :
    CopiesInside (UDP.receiveTo u s).1 (UDP.receiveTo u s).2 u.payload s ↔
      u.payload.length ≤ s := by
  rw [← u.dataOf_parts]
  exact bounded_copyBuffers_iff hs UDP.receiveTo_le

theorem TCP.bounded_read_iff (hs : s < 2 ^ 32) :
    CopiesInside (TCP.Connection.read t s).1 (TCP.Connection.read t s).2 t.payload s ↔
      t.payload.length ≤ s := by
  rw [← t.dataOf_parts]
  exact bounded_copyBuffers_iff hs (Nat.le_refl _)

/-- Buffers with `first` and `rest` bytes of data. Every byte of a buffer is its number. -/
def numbered (headerSize first : Nat) (rest : List Nat)
    (hfirst : IP.headerSize + headerSize + first < 2 ^ 32)
    (hrest : ∀ n ∈ rest, IP.headerSize + n < 2 ^ 32) : ReceivedPool headerSize where
  head := ⟨⟨fun i => UInt8.ofNat i⟩, IP.headerSize + headerSize + first⟩
  rest := rest.map fun n => ⟨⟨fun i => UInt8.ofNat i⟩, IP.headerSize + n⟩
  le_head := Nat.le_add_right _ _
  le_rest := List.forall_mem_map.mpr fun _ _ => Nat.le_add_right _ _
  lt_head := hfirst
  lt_rest := List.forall_mem_map.mpr hrest

/-- Both functions stay inside the buffer exactly if the data of all fragments fit. -/
theorem bounded_receive_iff (hs : s < 2 ^ 32) :
    (CopiesInside (UDP.receiveTo u s).1 (UDP.receiveTo u s).2 u.payload s ↔
        u.payload.length ≤ s) ∧
      (CopiesInside (TCP.Connection.read t s).1 (TCP.Connection.read t s).2 t.payload s ↔
        t.payload.length ≤ s) :=
  ⟨UDP.bounded_receiveTo_iff hs, TCP.bounded_read_iff hs⟩

/-- Three buffers with 17 bytes in all. -/
theorem bounded_receive_example :
    let u := numbered UDP.headerSize 10 [4, 3] (by decide) (by decide)
    let t := numbered TCP.headerSize 10 [4, 3] (by decide) (by decide)
    CopiesInside (UDP.receiveTo u 17).1 (UDP.receiveTo u 17).2 u.payload 17 ∧
      CopiesInside (TCP.Connection.read t 17).1 (TCP.Connection.read t 17).2 t.payload 17 :=
  have h := bounded_receive_iff (u := numbered UDP.headerSize 10 [4, 3] (by decide) (by decide))
    (t := numbered TCP.headerSize 10 [4, 3] (by decide) (by decide)) (s := 17) (by decide)
  ⟨h.1.2 (by decide), h.2.2 (by decide)⟩

/-- One buffer of ten bytes is copied to a buffer of four. -/
theorem not_bounded_receive :
    ¬ ∀ (u : ReceivedPool UDP.headerSize) (t : ReceivedPool TCP.headerSize) (s : Nat),
      s < 2 ^ 32 →
        CopiesInside (UDP.receiveTo u s).1 (UDP.receiveTo u s).2 u.payload s ∧
          CopiesInside (TCP.Connection.read t s).1 (TCP.Connection.read t s).2 t.payload s := by
  intro h
  have hread := (h (numbered UDP.headerSize 10 [] (by decide) (by decide))
    (numbered TCP.headerSize 10 [] (by decide) (by decide)) 4 (by decide)).2
  exact absurd hread.le (by decide)

end Epos
