import Epos.Network.BlockingRead
import Epos.Spec.BoundedReceive
import Mathlib.Order.Bounds.Basic

/-!
# Blocking reads against the stream

A call is right if it returns with the last segment that it needs, after the bytes in front have
been written and nothing behind them. `read` goes on when it has what it needs. `read_all` takes
the size of a segment from its first buffer, and a buffer is copied as a whole.
-/

namespace Epos

namespace Communicator

/-! ## What a call is for -/

/-- The payloads of the segments, one after the other. -/
def stream (segments : List Pool) : List UInt8 := segments.flatMap ReceivedPool.payload

/-- What was written to a place last. -/
def written (writes : List (UInt8 × Nat)) (i : Nat) : Option UInt8 :=
  (writes.reverse.find? fun w => w.2 = i).map Prod.fst

/-- A call for `size` bytes: it waits where the segments have fewer; otherwise it consumes
    segments until there are `size` bytes, has written the first `size` bytes of the stream, and
    returns `size`. Nothing is written behind them. -/
structure ReadsExactly (segments : List Pool) (size : Nat) (o : Outcome) : Prop where
  inside : ∀ w ∈ o.writes, w.2 < size
  waits : (stream segments).length < size → o.returned = none
  returns : size ≤ (stream segments).length → o.returned = some size
  content : size ≤ (stream segments).length →
    ∀ i < size, written o.writes i = (stream segments)[i]?
  consumes : size ≤ (stream segments).length →
    IsLeast {k | size ≤ (stream (segments.take k)).length} o.consumed

/-- All data of a segment are in its first buffer. -/
def InHead (buf : Pool) : Prop := buf.payload.length = buf.head.size - HEADERS_SIZE

variable {buf : Pool} {segments rest : List Pool} {size s : Nat}

/-- No segment, no byte. -/
@[simp] theorem stream_nil : stream [] = [] := rfl

/-- The bytes of one segment more. -/
@[simp] theorem stream_cons : stream (buf :: rest) = buf.payload ++ stream rest := rfl

/-! ## One segment -/

/-- The data of the first buffer, and those behind it. -/
theorem payload_head (buf : Pool) :
    ∃ src rest, buf.parts = (src, buf.head.size - HEADERS_SIZE) :: rest ∧
      buf.payload = src.take (buf.head.size - HEADERS_SIZE) ++ dataOf rest := by
  have hle := buf.le_head
  have hlt := buf.lt_head
  have hhead : subUnsigned (subUnsigned buf.head.size IP.headerSize) TCP.headerSize =
      buf.head.size - HEADERS_SIZE := by
    rw [subUnsigned_of_le (by omega) hlt, subUnsigned_of_le (by omega) (by omega), HEADERS_SIZE]
    omega
  have hparts := buf.dataOf_parts
  rw [ReceivedPool.parts, hhead] at *
  exact ⟨_, _, rfl, by rw [← hparts, dataOf_cons]⟩

/-- What the source takes for the size of the payload. -/
theorem full_eq (buf : Pool) :
    subUnsigned buf.head.size HEADERS_SIZE = buf.head.size - HEADERS_SIZE :=
  subUnsigned_of_le buf.le_head buf.lt_head

/-- The first buffer of a pool holds a part of its payload. -/
theorem head_le_payload (buf : Pool) : buf.head.size - HEADERS_SIZE ≤ buf.payload.length := by
  obtain ⟨src, rest, -, hpayload⟩ := payload_head buf
  rw [hpayload, List.length_append, Bytes.length_take]
  exact Nat.le_add_right _ _

/-- This part fits into 32 bits. -/
theorem head_lt (buf : Pool) : buf.head.size - HEADERS_SIZE < 2 ^ 32 := by
  have hlt := buf.lt_head
  omega

/-- A segment that fits is copied. -/
theorem read_fits (hs : s < 2 ^ 32) (h : buf.payload.length ≤ s) :
    TCP.Connection.read buf s = (buf.payload.length, buf.payload.zipIdx) := by
  have hroom : 0 + (dataOf buf.parts).length ≤ s := by rwa [buf.dataOf_parts, Nat.zero_add]
  have hfits := copyBuffers_fits hs hroom
  rw [buf.dataOf_parts, Nat.zero_add] at hfits
  exact hfits

/-- Of a segment that does not fit, the byte behind the end is written. -/
theorem read_overflow (hs : s < 2 ^ 32) (h : s < buf.payload.length) :
    ∃ w ∈ (TCP.Connection.read buf s).2, w.2 = s :=
  copyBuffers_overflow hs (Nat.zero_le s) (by rw [buf.dataOf_parts]; omega)

/-- Of a segment that is longer than what is left, something is written behind that. -/
theorem read_behind (hs : s < 2 ^ 32) {left : Nat} (hle : left ≤ s)
    (h : left < buf.payload.length) : ∃ w ∈ (TCP.Connection.read buf s).2, left ≤ w.2 := by
  by_cases hfits : buf.payload.length ≤ s
  · rw [read_fits hs hfits]
    refine ⟨(buf.payload[left], left), ?_, Nat.le_refl left⟩
    simp [List.mk_mem_zipIdx_iff_getElem?, h]
  · obtain ⟨w, hw, heq⟩ := read_overflow hs (Nat.lt_of_not_le hfits)
    exact ⟨w, hw, heq ▸ hle⟩

/-- The first buffer is always copied as a whole. -/
theorem read_head (buf : Pool) (s : Nat) {i : Nat} (hi : i < buf.head.size - HEADERS_SIZE) :
    ∃ w ∈ (TCP.Connection.read buf s).2, w.2 = i := by
  obtain ⟨src, rest, hparts, -⟩ := payload_head buf
  have hlt : i < (src.take (buf.head.size - HEADERS_SIZE)).length := by
    rwa [Bytes.length_take]
  rw [TCP.Connection.read, hparts, copyBuffers, if_pos (Nat.zero_le s)]
  refine ⟨((src.take (buf.head.size - HEADERS_SIZE))[i], i), List.mem_append_left _ ?_, rfl⟩
  simp [memcpy, List.mk_mem_zipIdx_iff_getElem?, hlt]

/-- Buffers are copied in order, up to some place. -/
theorem copyBuffers_within {parts : List (Bytes × Nat)} {offset : Nat}
    (h : offset + (dataOf parts).length < 2 ^ 32) :
    ∃ n ≤ (dataOf parts).length, copyBuffers s parts offset offset =
      (offset + n, ((dataOf parts).take n).zipIdx offset) := by
  induction parts generalizing offset with
  | nil => exact ⟨0, Nat.le_refl 0, rfl⟩
  | cons part rest ih =>
    obtain ⟨src, len⟩ := part
    rw [length_dataOf_cons] at h
    by_cases hle : offset ≤ s
    · have hsize : (offset + len) % 2 ^ 32 = offset + len := Nat.mod_eq_of_lt (by omega)
      have hnext : offset + len + (dataOf rest).length < 2 ^ 32 := by omega
      obtain ⟨n, hn, heq⟩ := ih hnext
      refine ⟨len + n, by rw [length_dataOf_cons]; omega, ?_⟩
      have htake : (dataOf ((src, len) :: rest)).take (len + n) =
          src.take len ++ (dataOf rest).take n := by
        have hlen := Bytes.length_take src len
        rw [dataOf_cons, List.take_append, hlen, Nat.add_sub_cancel_left,
          List.take_of_length_le (by omega)]
      simp only [copyBuffers, if_pos hle, hsize, heq]
      rw [htake, List.zipIdx_append, Bytes.length_take, memcpy]
      exact Prod.ext (Nat.add_assoc ..) rfl
    · exact ⟨0, Nat.zero_le _, by simp [copyBuffers, hle]⟩

/-- A write stays inside of the data. -/
theorem lt_of_mem_zipIdx {l : List UInt8} {w : UInt8 × Nat} (h : w ∈ l.zipIdx) :
    w.2 < l.length := by
  have hplace := List.mk_mem_zipIdx_iff_getElem?.mp h
  exact (List.getElem?_eq_some_iff.mp hplace).1

/-- A write of a prefix stays inside of the prefix. -/
theorem lt_of_mem_zipIdx_take {l : List UInt8} {n : Nat} {w : UInt8 × Nat}
    (h : w ∈ (l.take n).zipIdx) : w.2 < n := by
  have hlt := lt_of_mem_zipIdx h
  rw [List.length_take] at hlt
  omega

/-- At least the first buffer is copied, and more where there is more and it has room behind. -/
theorem read_within (hs : s < 2 ^ 32) (h : buf.payload.length < 2 ^ 32) :
    ∃ n, buf.head.size - HEADERS_SIZE ≤ n ∧ n ≤ buf.payload.length ∧
      TCP.Connection.read buf s = (n, (buf.payload.take n).zipIdx) ∧
      (buf.head.size - HEADERS_SIZE ≤ s → n = buf.head.size - HEADERS_SIZE → InHead buf) := by
  have hbound : 0 + (dataOf buf.parts).length < 2 ^ 32 := by rwa [buf.dataOf_parts, Nat.zero_add]
  obtain ⟨n, hn, heq⟩ := copyBuffers_within (s := s) hbound
  rw [buf.dataOf_parts, Nat.zero_add] at heq
  rw [buf.dataOf_parts] at hn
  have hread : TCP.Connection.read buf s = (n, (buf.payload.take n).zipIdx) := heq
  have hle : buf.head.size - HEADERS_SIZE ≤ n := by
    by_contra hlt
    obtain ⟨w, hw, hplace⟩ := read_head buf s (i := n) (by omega)
    rw [hread] at hw
    have hwlt := lt_of_mem_zipIdx_take hw
    omega
  refine ⟨n, hle, hn, hread, fun hroom hnone => ?_⟩
  rw [InHead]
  by_cases hfits : buf.payload.length ≤ s
  · have hall := read_fits hs hfits
    rw [hread] at hall
    have hlen : n = buf.payload.length := congrArg Prod.fst hall
    omega
  · -- what follows the first buffer is written from its end on
    obtain ⟨w, hw, hplace⟩ := read_overflow hs (Nat.lt_of_not_le hfits)
    rw [hread] at hw
    have hwlt := lt_of_mem_zipIdx_take hw
    omega

/-! ## The number of segments -/

/-- Where there are `got` bytes already, the number of segments that are still needed. -/
def Needs (segments : List Pool) (size got k : Nat) : Prop :=
  IsLeast {k | size ≤ got + (stream (segments.take k)).length} k

/-- No segment is needed for what is there. -/
theorem needs_zero {got : Nat} (h : size ≤ got) : Needs segments size got 0 :=
  ⟨Nat.le_trans h (Nat.le_add_right _ _), fun _ _ => Nat.zero_le _⟩

/-- One segment, and then what is left. -/
theorem needs_cons {got k : Nat} (hgot : got < size) :
    Needs (buf :: rest) size got (k + 1) ↔ Needs rest size (got + buf.payload.length) k := by
  -- the first segment counts in every sum
  have hsum : ∀ k, got + (stream ((buf :: rest).take (k + 1))).length =
      got + buf.payload.length + (stream (rest.take k)).length := by
    intro k
    rw [List.take_succ_cons, stream_cons, List.length_append, Nat.add_assoc]
  constructor
  · intro h
    constructor
    · have hmem : size ≤ _ := h.1
      rwa [hsum] at hmem
    · intro j hj
      have hle : k + 1 ≤ j + 1 := h.2 (by
        show size ≤ _
        rw [hsum]
        exact hj)
      omega
  · intro h
    constructor
    · show size ≤ _
      rw [hsum]
      exact h.1
    · intro j hj
      -- no segment at all would not be enough
      cases j with
      | zero =>
        have hnone : size ≤ got + (stream ((buf :: rest).take 0)).length := hj
        simp at hnone
        omega
      | succ j =>
        have hmem : size ≤ _ := hj
        rw [hsum] at hmem
        exact Nat.succ_le_succ (h.2 hmem)

/-- One number of segments is needed. -/
theorem Needs.unique {got j k : Nat} (h : Needs segments size got j)
    (h' : Needs segments size got k) : j = k :=
  IsLeast.unique h h'

/-! ## `read` -/

/-- Earlier writes do not change the result. -/
@[simp] theorem after_returned (offset : Nat) (writes : List (UInt8 × Nat)) (o : Outcome) :
    (o.after offset writes).returned = o.returned := rfl

/-- One segment more is consumed. -/
@[simp] theorem after_consumed (offset : Nat) (writes : List (UInt8 × Nat)) (o : Outcome) :
    (o.after offset writes).consumed = o.consumed + 1 := rfl

/-- Writes behind an offset. -/
theorem zipIdx_shift (l : List UInt8) (offset : Nat) :
    l.zipIdx.map (fun w => (w.1, offset + w.2)) = l.zipIdx offset := by
  apply List.ext_getElem
  · simp
  · intro i hi hi'
    simp

/-- The writes are inside exactly if both parts are. -/
theorem mem_after {offset : Nat} {writes : List (UInt8 × Nat)} {o : Outcome} :
    (∀ w ∈ (o.after offset writes).writes, w.2 < size) ↔
      (∀ w ∈ writes, offset + w.2 < size) ∧ ∀ w ∈ o.writes, w.2 < size := by
  simp only [Outcome.after, List.forall_mem_append, List.forall_mem_map]

/-- With too few bytes `read()` waits and stays inside. -/
theorem readLoop_waits (hsize : size < 2 ^ 32) {got : Nat}
    (h : got + (stream segments).length < size) :
    (readLoop size segments got got).returned = none ∧
      ∀ w ∈ (readLoop size segments got got).writes, w.2 < size := by
  induction segments generalizing got with
  | nil => simp [readLoop]
  | cons buf rest ih =>
    rw [stream_cons, List.length_append] at h
    have hfits : buf.payload.length ≤ size := by omega
    have hread := read_fits hsize hfits
    have hmod : (got + buf.payload.length) % 2 ^ 32 = got + buf.payload.length :=
      Nat.mod_eq_of_lt (by omega)
    have hlt : got + buf.payload.length + (stream rest).length < size := by omega
    obtain ⟨hreturned, hinside⟩ := ih hlt
    have hle : got + buf.payload.length ≤ size := by omega
    simp only [readLoop, hread, hmod, if_pos hle, after_returned, mem_after]
    refine ⟨hreturned, ?_, hinside⟩
    intro w hw
    have hlt := lt_of_mem_zipIdx hw
    omega

/-- Where there are enough bytes, either one is written behind the end or one segment too many is
    waited for. -/
theorem readLoop_wrong (hsize : size < 2 ^ 32) {got : Nat} (hgot : got < size)
    (h : size ≤ got + (stream segments).length)
    (hinside : ∀ w ∈ (readLoop size segments got got).writes, w.2 < size)
    (hreturned : (readLoop size segments got got).returned = some size) :
    ¬ Needs segments size got (readLoop size segments got got).consumed := by
  induction segments generalizing got with
  | nil =>
    simp at h
    omega
  | cons buf rest ih =>
    rw [stream_cons, List.length_append] at h
    by_cases hfits : got + buf.payload.length ≤ size
    · have hread := read_fits hsize (Nat.le_trans (Nat.le_add_left _ got) hfits)
      have hmod : (got + buf.payload.length) % 2 ^ 32 = got + buf.payload.length :=
        Nat.mod_eq_of_lt (by omega)
      simp only [readLoop, hread, hmod, if_pos hfits, after_consumed, after_returned, mem_after,
        needs_cons hgot] at hinside hreturned ⊢
      by_cases hfull : got + buf.payload.length = size
      · -- the last byte has come with this segment, and the loop goes on
        intro hneeds
        have hzero := hneeds.unique (needs_zero (Nat.le_of_eq hfull.symm))
        cases rest with
        | nil => simp [readLoop] at hreturned
        | cons buf' rest => simp [readLoop] at hzero
      · exact ih (by omega) (by omega) hinside.2 hreturned
    · -- a byte behind the end has been written
      have hleft : size - got < buf.payload.length := by omega
      obtain ⟨w, hw, hbehind⟩ := read_behind hsize (Nat.sub_le size got) hleft
      simp only [readLoop, mem_after] at hinside
      have hlt := hinside.1 w hw
      omega

/-! ## `read_all` -/

/-- What is copied of a segment that fits. -/
theorem coppied_eq {received : Nat} (hsize : size < 2 ^ 32)
    (h : received + (buf.head.size - HEADERS_SIZE) ≤ size) :
    coppied buf size received = buf.head.size - HEADERS_SIZE := by
  have hmod : (received + (buf.head.size - HEADERS_SIZE)) % 2 ^ 32 =
      received + (buf.head.size - HEADERS_SIZE) := Nat.mod_eq_of_lt (by omega)
  rw [coppied, full_eq, hmod, if_neg (by omega)]

/-- One pass of the loop, for a segment whose first buffer fits. -/
theorem readAllLoop_cons (hsize : size < 2 ^ 32) {received r : Nat} (hlt : received < size)
    (h : received + (buf.head.size - HEADERS_SIZE) ≤ size) :
    readAllLoop size (buf :: rest) received r =
      (readAllLoop size rest (received + (buf.head.size - HEADERS_SIZE))
          ((r + (TCP.Connection.read buf (buf.head.size - HEADERS_SIZE)).1) % 2 ^ 32)).after
        received (TCP.Connection.read buf (buf.head.size - HEADERS_SIZE)).2 := by
  have hmod : (received + (buf.head.size - HEADERS_SIZE)) % 2 ^ 32 =
      received + (buf.head.size - HEADERS_SIZE) := Nat.mod_eq_of_lt (by omega)
  simp only [readAllLoop, if_pos hlt, coppied_eq hsize h, hmod]

/-- The loop ends when all has been received. -/
theorem readAllLoop_done {received : Nat} (h : size ≤ received) (segments : List Pool) (r : Nat) :
    readAllLoop size segments received r = { returned := some r } := by
  cases segments with
  | nil => rw [readAllLoop, if_neg (by omega)]
  | cons buf rest => rw [readAllLoop, if_neg (by omega)]

/-- With too few bytes `read_all()` waits and stays inside. -/
theorem readAllLoop_waits (hsize : size < 2 ^ 32) {received r : Nat}
    (h : received + (stream segments).length < size) :
    (readAllLoop size segments received r).returned = none ∧
      ∀ w ∈ (readAllLoop size segments received r).writes, w.2 < size := by
  induction segments generalizing received r with
  | nil =>
    rw [readAllLoop, if_pos (by simpa using h)]
    simp
  | cons buf rest ih =>
    rw [stream_cons, List.length_append] at h
    have hhead := head_le_payload buf
    have hbound : buf.payload.length < 2 ^ 32 := by omega
    obtain ⟨n, -, hn, hread, -⟩ := read_within (head_lt buf) hbound
    have hlt : received + (buf.head.size - HEADERS_SIZE) + (stream rest).length < size := by omega
    obtain ⟨hreturned, hinside⟩ := ih (r := (r + n) % 2 ^ 32) hlt
    rw [readAllLoop_cons hsize (by omega) (by omega), hread, after_returned, mem_after]
    refine ⟨hreturned, ?_, hinside⟩
    intro w hw
    have hlt := lt_of_mem_zipIdx_take hw
    omega

/-- The segments that are needed amount to `size` bytes, each in one buffer. -/
def EndsAt (segments : List Pool) (left : Nat) : Prop :=
  ∃ k, (stream (segments.take k)).length = left ∧ ∀ buf ∈ segments.take k, InHead buf

/-- One segment more that ends in its first buffer. -/
theorem EndsAt.cons {left : Nat} (hhead : InHead buf) (h : EndsAt rest left) :
    EndsAt (buf :: rest) (buf.payload.length + left) := by
  obtain ⟨k, hlen, hheads⟩ := h
  refine ⟨k + 1, ?_, ?_⟩
  · rw [List.take_succ_cons, stream_cons, List.length_append, hlen]
  · rw [List.take_succ_cons, List.forall_mem_cons]
    exact ⟨hhead, hheads⟩

/-- Nothing is left. -/
theorem endsAt_zero (segments : List Pool) : EndsAt segments 0 := ⟨0, rfl, by simp⟩

/-- Nothing is consumed where nothing is needed, so the loop has ended. -/
theorem readAllLoop_ended {received r : Nat}
    (hreturned : (readAllLoop size segments received r).returned = some size)
    (hzero : (readAllLoop size segments received r).consumed = 0) : size ≤ received := by
  by_contra hlt
  cases segments with
  | nil => simp [readAllLoop, Nat.lt_of_not_le hlt] at hreturned
  | cons buf rest => simp [readAllLoop, Nat.lt_of_not_le hlt] at hzero

/-- What `read_all` writes where the segments end at the right place. -/
theorem readAllLoop_right (hsize : size < 2 ^ 32) {received : Nat} (hlt : received < size)
    (h : EndsAt segments (size - received)) :
    (readAllLoop size segments received received).returned = some size ∧
      (readAllLoop size segments received received).writes =
        ((stream segments).take (size - received)).zipIdx received ∧
      Needs segments size received (readAllLoop size segments received received).consumed := by
  obtain ⟨k, hlen, hheads⟩ := h
  induction k generalizing segments received with
  | zero =>
    simp at hlen
    omega
  | succ k ih =>
    cases segments with
    | nil =>
      simp at hlen
      omega
    | cons buf rest =>
      rw [List.take_succ_cons, stream_cons, List.length_append] at hlen
      rw [List.take_succ_cons, List.forall_mem_cons] at hheads
      obtain ⟨hhead, hrest⟩ := hheads
      have hhead' : buf.payload.length = buf.head.size - HEADERS_SIZE := hhead
      have hbound : buf.payload.length < 2 ^ 32 := by omega
      have hread := read_fits hbound (Nat.le_refl _)
      have hmod : (received + buf.payload.length) % 2 ^ 32 = received + buf.payload.length :=
        Nat.mod_eq_of_lt (by omega)
      rw [readAllLoop_cons hsize hlt (by omega), ← hhead', hread, hmod, after_returned,
        after_consumed, needs_cons hlt]
      simp only [Outcome.after, zipIdx_shift, stream_cons]
      by_cases hfull : received + buf.payload.length = size
      · -- The segment ends where the caller's buffer does.
        have hleft : size - received = buf.payload.length := by omega
        rw [readAllLoop_done (by omega), hfull, hleft, List.take_left]
        exact ⟨rfl, List.append_nil _, needs_zero (Nat.le_refl size)⟩
      · have hlt' : received + buf.payload.length < size := by omega
        have hlen' : (stream (rest.take k)).length = size - (received + buf.payload.length) := by
          omega
        obtain ⟨hreturned, hwrites, hneeds⟩ := ih hlt' hlen' hrest
        have hleft : size - received = buf.payload.length + (size - (received +
            buf.payload.length)) := by omega
        rw [hwrites, hleft, List.take_length_add_append, List.zipIdx_append]
        exact ⟨hreturned, rfl, hneeds⟩

/-- Where `read_all` returns the right number with nothing written behind the end, nothing has
    been left out on the way: `r` is what has been copied, and `received` what has been counted. -/
theorem readAllLoop_exact (hsize : size < 2 ^ 32) {received r got : Nat} (hlt : received < size)
    (hr : received ≤ r) (hgot : r ≤ got) (hgotlt : got < size)
    (h : size ≤ got + (stream segments).length)
    (hinside : ∀ w ∈ (readAllLoop size segments received r).writes, w.2 < size)
    (hreturned : (readAllLoop size segments received r).returned = some size)
    (hneeds : Needs segments size got (readAllLoop size segments received r).consumed) :
    r = received ∧ EndsAt segments (size - received) := by
  induction segments generalizing received r got with
  | nil =>
    simp at h
    omega
  | cons buf rest ih =>
    rw [stream_cons, List.length_append] at h
    -- the first buffer is inside, as all of it is written
    have hroom : received + (buf.head.size - HEADERS_SIZE) ≤ size := by
      by_contra hnot
      have hleft : size - received < buf.head.size - HEADERS_SIZE := by omega
      obtain ⟨w, hw, hplace⟩ := read_head buf (coppied buf size received) hleft
      simp only [readAllLoop, if_pos hlt, mem_after] at hinside
      have hwlt := hinside.1 w hw
      omega
    rw [readAllLoop_cons hsize hlt hroom] at hinside hreturned hneeds
    rw [mem_after] at hinside
    rw [after_returned] at hreturned
    rw [after_consumed, needs_cons hgotlt] at hneeds
    by_cases hlast : size ≤ got + buf.payload.length
    · -- the last segment: the first buffer ends where the others would be written
      have hended := readAllLoop_ended hreturned (hneeds.unique (needs_zero hlast))
      have hhead : InHead buf := by
        by_contra hnot
        have hle := head_le_payload buf
        have hlt' : buf.head.size - HEADERS_SIZE < buf.payload.length :=
          Nat.lt_of_le_of_ne hle (Ne.symm hnot)
        obtain ⟨w, hw, hplace⟩ := read_overflow (head_lt buf) hlt'
        have hwlt := hinside.1 w hw
        omega
      have hhead' : buf.payload.length = buf.head.size - HEADERS_SIZE := hhead
      rw [readAllLoop_done hended, read_fits (head_lt buf) (Nat.le_of_eq hhead)] at hreturned
      have hsum : (r + buf.payload.length) % 2 ^ 32 = size := Option.some.inj hreturned
      have hleft : size - received = buf.payload.length + 0 := by omega
      refine ⟨by omega, ?_⟩
      rw [hleft]
      exact (endsAt_zero rest).cons hhead
    · have hhead := head_le_payload buf
      have hbound : buf.payload.length < 2 ^ 32 := by omega
      obtain ⟨n, hn, hn', hread, hsame⟩ := read_within (head_lt buf) hbound
      have hmod : (r + n) % 2 ^ 32 = r + n := Nat.mod_eq_of_lt (by omega)
      rw [hread, hmod] at hinside hreturned hneeds
      obtain ⟨heq, hends⟩ := ih (by omega) (by omega) (by omega) (by omega) (by omega) hinside.2
        hreturned hneeds
      have hhead := hsame (Nat.le_refl _) (by omega)
      have hhead' : buf.payload.length = buf.head.size - HEADERS_SIZE := hhead
      refine ⟨by omega, ?_⟩
      have hleft : size - received = buf.payload.length +
          (size - (received + (buf.head.size - HEADERS_SIZE))) := by omega
      rw [hleft]
      exact hends.cons hhead

/-! ## Both calls -/

/-- What the writes leave at a place. -/
theorem written_zipIdx (l : List UInt8) {i : Nat} (hi : i < l.length) :
    written l.zipIdx i = l[i]? := by
  have hmem : (l[i], i) ∈ l.zipIdx.reverse := by
    simp [List.mk_mem_zipIdx_iff_getElem?, hi]
  have hsome : (l.zipIdx.reverse.find? fun w => w.2 = i).isSome :=
    List.find?_isSome.mpr ⟨_, hmem, by simp⟩
  obtain ⟨w, hw⟩ := Option.isSome_iff_exists.mp hsome
  -- whatever write is found, it is the one of this place
  have hplace : w.2 = i := by simpa using List.find?_some hw
  have hin : w ∈ l.zipIdx := List.mem_reverse.mp (List.mem_of_find?_eq_some hw)
  rw [written, hw, Option.map_some, ← hplace]
  exact (List.mk_mem_zipIdx_iff_getElem?.mp hin).symm

/-- The least number of segments is the one that is needed. -/
theorem needs_of_isLeast {k : Nat}
    (h : IsLeast {k | size ≤ (stream (segments.take k)).length} k) :
    Needs segments size 0 k := by
  simpa only [Needs, Nat.zero_add] using h

/-- The number of segments that is needed is the least one that suffices. -/
theorem Needs.isLeast {k : Nat} (h : Needs segments size 0 k) :
    IsLeast {k | size ≤ (stream (segments.take k)).length} k := by
  simpa only [Needs, Nat.zero_add] using h

/-- A call that waits with nothing written behind the end, where there are too few bytes. -/
theorem ReadsExactly.of_lt {o : Outcome} (h : (stream segments).length < size)
    (hreturned : o.returned = none) (hinside : ∀ w ∈ o.writes, w.2 < size) :
    ReadsExactly segments size o :=
  ⟨hinside, fun _ => hreturned, fun hge => by omega, fun hge => by omega, fun hge => by omega⟩

/-- `read()` is right exactly if the bytes never suffice. -/
theorem readsExactly_read_iff (hsize : size < 2 ^ 32) (hpos : 0 < size) :
    ReadsExactly segments size (read segments size) ↔ (stream segments).length < size := by
  constructor
  · intro h
    by_contra hge
    have hge' : size ≤ (stream segments).length := by omega
    exact readLoop_wrong hsize hpos (by omega) h.inside (h.returns hge')
      (needs_of_isLeast (h.consumes hge'))
  · intro h
    have hlt : 0 + (stream segments).length < size := by omega
    obtain ⟨hreturned, hinside⟩ := readLoop_waits hsize hlt
    exact ReadsExactly.of_lt h hreturned hinside

/-- `read_all()` is right exactly if they never suffice or end with a segment. -/
theorem readsExactly_read_all_iff (hsize : size < 2 ^ 32) (hpos : 0 < size) :
    ReadsExactly segments size (read_all segments size) ↔
      (stream segments).length < size ∨ EndsAt segments size := by
  constructor
  · intro h
    -- with too few bytes nothing is returned, so only the other case is open
    by_cases hlt : (stream segments).length < size
    · exact Or.inl hlt
    · have hge' : size ≤ (stream segments).length := by omega
      have hexact := readAllLoop_exact hsize hpos (Nat.le_refl 0) (Nat.le_refl 0) hpos (by omega)
        h.inside (h.returns hge') (needs_of_isLeast (h.consumes hge'))
      exact Or.inr hexact.2
  · intro h
    by_cases hlt : (stream segments).length < size
    · have hlt' : 0 + (stream segments).length < size := by omega
      obtain ⟨hreturned, hinside⟩ := readAllLoop_waits (r := 0) hsize hlt'
      exact ReadsExactly.of_lt hlt hreturned hinside
    · have hends : EndsAt segments (size - 0) := h.resolve_left hlt
      obtain ⟨hreturned, hwrites, hneeds⟩ := readAllLoop_right hsize hpos hends
      rw [Nat.sub_zero] at hwrites
      have hlen : ((stream segments).take size).length = size := by
        rw [List.length_take]
        omega
      constructor
      · intro w hw
        rw [read_all, hwrites] at hw
        exact lt_of_mem_zipIdx_take hw
      · exact fun hlt' => absurd hlt' hlt
      · exact fun _ => hreturned
      · intro _ i hi
        rw [read_all, hwrites, written_zipIdx _ (by omega), List.getElem?_take, if_pos hi]
      · exact fun _ => hneeds.isLeast

/-- `read` always needs one byte more than it should have, and `read_all` counts first buffers but
    copies whole segments. -/
theorem blocking_reads_iff (segments : List Pool) (hsize : size < 2 ^ 32) (hpos : 0 < size) :
    (ReadsExactly segments size (read segments size) ↔ (stream segments).length < size) ∧
      (ReadsExactly segments size (read_all segments size) ↔
        (stream segments).length < size ∨ EndsAt segments size) :=
  ⟨readsExactly_read_iff hsize hpos, readsExactly_read_all_iff hsize hpos⟩

/-- A segment with so much data in its buffers. -/
def segment (first : Nat) (rest : List Nat) (hfirst : HEADERS_SIZE + first < 2 ^ 32)
    (hrest : ∀ n ∈ rest, IP.headerSize + n < 2 ^ 32) : Pool :=
  numbered TCP.headerSize first rest hfirst hrest

/-- A segment of ten bytes in one buffer. -/
def tenBytes : Pool := segment 10 [] (by decide) (by decide)

/-- Two segments in one buffer each, and one in two. -/
def threeSegments : List Pool :=
  [tenBytes, segment 5 [] (by decide) (by decide), segment 4 [3] (by decide) (by decide)]

/-- A `read` of more than there is, and a `read_all` of the first two segments. -/
theorem blocking_reads_example :
    ReadsExactly threeSegments 23 (read threeSegments 23) ∧
      ReadsExactly threeSegments 15 (read_all threeSegments 15) := by
  have h := blocking_reads_iff threeSegments (by decide : 23 < 2 ^ 32) (by decide)
  have h' := blocking_reads_iff threeSegments (by decide : 15 < 2 ^ 32) (by decide)
  exact ⟨h.1.2 (by decide), h'.2.2 (Or.inr ⟨2, by decide, by simp [InHead]; decide⟩)⟩

/-- A `read` of the ten bytes of a segment still waits, and a `read_all` of four writes ten. -/
theorem not_blocking_reads :
    ¬ (∀ segments size, 0 < size → size < 2 ^ 32 →
        ReadsExactly segments size (read segments size)) ∧
      ¬ (∀ segments size, 0 < size → size < 2 ^ 32 →
        ReadsExactly segments size (read_all segments size)) := by
  constructor
  · intro h
    have hreturned := (h [tenBytes] 10 (by decide) (by decide)).returns (by decide)
    exact absurd hreturned (by decide)
  · intro h
    have hinside := (h [tenBytes] 4 (by decide) (by decide)).inside
    exact absurd hinside (by decide)

end Communicator

end Epos
