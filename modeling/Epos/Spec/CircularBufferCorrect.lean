import Epos.ForStd.TransitionSystem
import Epos.Utility.CircularBuffer
import Mathlib.Data.Nat.ModEq

/-!
# Circular buffers as bounded queues

`_size` counts the elements as long as what `insert` overwrites is zero exactly if the queue is not
full. `remove` leaves `_head` where it is, on the zero that it has written: the queue goes on from
there only if it has no other element, or only zeros. Then `_tail` is one too far until the buffer
is full.
-/

namespace Epos

namespace Circular_Buffer

variable {α : Type*} {N : Nat} [NeZero N]

/-! ## Places in the ring -/

section Place

variable {h : Fin N} {i j : Nat}

/-- The first place is the head. -/
theorem place_zero (h : Fin N) : h + Fin.ofNat N 0 = h := by simp

/-- The place behind is one further. -/
theorem place_succ (h : Fin N) (i : Nat) :
    h + Fin.ofNat N i + 1 = h + Fin.ofNat N (i + 1) := by
  apply Fin.ext
  simp [Fin.val_add, Nat.add_assoc]

/-- Places counted from behind the head. -/
theorem succ_place (h : Fin N) (i : Nat) :
    h + 1 + Fin.ofNat N i = h + Fin.ofNat N (i + 1) := by
  apply Fin.ext
  simp [Fin.val_add, Nat.add_right_comm, Nat.add_assoc]

/-- After the capacity the places begin again. -/
theorem place_self (h : Fin N) : h + Fin.ofNat N N = h := by simp

/-- All places of a round are different. -/
theorem place_inj (hi : i < N) (hj : j < N) (heq : h + Fin.ofNat N i = h + Fin.ofNat N j) :
    i = j := by
  have hval := congrArg Fin.val heq
  simp only [Fin.val_add, Fin.val_ofNat, Nat.add_mod_mod] at hval
  have hmod : i ≡ j [MOD N] := Nat.ModEq.add_left_cancel' h.val hval
  exact hmod.eq_of_lt_of_lt hi hj

end Place

/-! ## The buffer as a queue -/

/-- The bounded queue drops its oldest element when it is full. -/
def enqueue (N : Nat) (q : List α) (o : α) : List α :=
  (if q.length < N then q else q.tail) ++ [o]

/-- What can be read from the buffer is what is in the queue. -/
structure Agrees (b : Circular_Buffer α N) (q : List α) : Prop where
  size : b.size = q.length
  empty : b.empty = true ↔ q = []
  get : ∀ i o, q[i]? = some o → b.get i = o
  last : ∀ o, q.getLast? = some o → b.last = o

variable {b : Circular_Buffer α N} {q p : List α} {o : α}

omit [NeZero N] in
/-- A buffer whose size counts its elements is empty when there are none. -/
theorem empty_iff_of_size (h : b.size = q.length) : b.empty = true ↔ q = [] := by
  rw [Circular_Buffer.empty, decide_eq_true_iff, h, Int.natCast_eq_zero, List.length_eq_zero_iff]

/-- `_tail` is the place of the newest element, or `_head` if there is none. -/
def InStep (b : Circular_Buffer α N) (q : List α) : Prop :=
  b.tail = b.head + Fin.ofNat N (q.length - 1)

/-- `_tail` is one too far. -/
def Late (b : Circular_Buffer α N) (q : List α) : Prop :=
  q ≠ [] ∧ b.tail = b.head + Fin.ofNat N q.length

/-- An empty buffer writes at its tail. -/
theorem slot_of_nil (h : Agrees b []) : b.slot = b.tail := if_pos (h.empty.mpr rfl)

/-- A buffer with elements writes behind its tail. -/
theorem slot_of_ne_nil (h : Agrees b q) (hq : q ≠ []) : b.slot = b.tail + 1 :=
  if_neg fun hempty => hq (h.empty.mp hempty)

/-- The buffer is full when the places behind `_head` are all taken. -/
theorem full_iff {k : Nat} (hk : 0 < k) (hkN : k ≤ N)
    (htail : b.tail + 1 = b.head + Fin.ofNat N k) : b.full = true ↔ k = N := by
  rw [full, decide_eq_true_iff, htail]
  constructor
  · intro h
    -- Fewer than `N` places further is not `_head` again.
    by_contra hne
    have hzero : b.head + Fin.ofNat N k = b.head + Fin.ofNat N 0 := by rw [h, place_zero]
    have := place_inj (lt_of_le_of_ne hkN hne) (Nat.pos_of_neZero N) hzero
    omega
  · rintro rfl
    exact place_self b.head

/-- A buffer in step writes behind its last element. -/
theorem InStep.slot_eq (hplace : InStep b q) (h : Agrees b q) (hq : q ≠ []) :
    b.slot = b.head + Fin.ofNat N q.length := by
  have hpos := List.length_pos_iff.mpr hq
  rw [slot_of_ne_nil h hq, hplace, place_succ, Nat.sub_add_cancel hpos]

/-- A buffer in step is full when it holds as many elements as its capacity. -/
theorem InStep.full_iff (hplace : InStep b q) (h : Agrees b q) (hq : q ≠ [])
    (hle : q.length ≤ N) : b.full = true ↔ q.length = N := by
  have hslot := hplace.slot_eq h hq
  rw [slot_of_ne_nil h hq] at hslot
  exact Circular_Buffer.full_iff (List.length_pos_iff.mpr hq) hle hslot

/-- A buffer that is late leaves one place out. -/
theorem Late.slot_eq (hlate : Late b q) (h : Agrees b q) :
    b.slot = b.head + Fin.ofNat N (q.length + 1) := by
  rw [slot_of_ne_nil h hlate.1, hlate.2, place_succ]

/-- A buffer that is late is full one element too early. -/
theorem Late.full_iff (hlate : Late b q) (h : Agrees b q) (hlt : q.length < N) :
    b.full = true ↔ q.length + 1 = N := by
  have hslot := hlate.slot_eq h
  rw [slot_of_ne_nil h hlate.1] at hslot
  exact Circular_Buffer.full_iff (Nat.succ_pos _) hlt hslot

/-- The first element is the front of the queue. -/
theorem Agrees.first_eq {a : α} {r : List α} (h : Agrees b (a :: r)) : b.first = a := by
  have hget : b.get 0 = a := h.get 0 a rfl
  rwa [Circular_Buffer.get, place_zero] at hget

omit [NeZero N] in
/-- With room the queue grows. -/
theorem enqueue_of_lt (h : q.length < N) : enqueue N q o = q ++ [o] := by rw [enqueue, if_pos h]

omit [NeZero N] in
/-- Without room the oldest element is lost. -/
theorem enqueue_of_eq (h : q.length = N) : enqueue N q o = q.tail ++ [o] := by
  rw [enqueue, if_neg (Nat.not_lt.mpr h.ge)]

/-- In step, `_tail` is one too far only where every place is taken. -/
theorem InStep.not_late (hplace : InStep b q) (hlt : q.length < N) : ¬Late b q := by
  intro hlate
  have hpos := List.length_pos_iff.mpr hlate.1
  have := place_inj (by omega) hlt (hplace.symm.trans hlate.2)
  omega

variable [Element α]

/-- `_tail` is one too far in a queue of zeros only, and then a place is left. -/
def Placed (b : Circular_Buffer α N) (q : List α) : Prop :=
  InStep b q ∨ Late b q ∧ q.length < N ∧ ∀ x ∈ q, x = 0

/-- Between two calls. -/
structure Inv (b : Circular_Buffer α N) (q : List α) : Prop extends Agrees b q where
  length_le : q.length ≤ N
  placed : Placed b q

/-! ## `insert` -/

/-- What has been inserted is the last element. -/
theorem last_insert (b : Circular_Buffer α N) (o : α) : (b.insert o).last = o :=
  Function.update_self ..

/-- The inserted element is at the slot. -/
theorem get_insert_self {i : Nat} (h : (b.insert o).head + Fin.ofNat N i = b.slot) :
    (b.insert o).get i = o := by
  rw [get, h]
  exact Function.update_self ..

/-- The other places keep their elements. -/
theorem get_insert_of_ne {i : Nat} (h : (b.insert o).head + Fin.ofNat N i ≠ b.slot) :
    (b.insert o).get i = b.data ((b.insert o).head + Fin.ofNat N i) :=
  Function.update_of_ne h ..

/-- The newest element is read from `tail()` after every `insert`. -/
theorem agrees_insert_iff : Agrees (b.insert o) (p ++ [o]) ↔
    (b.insert o).size = p.length + 1 ∧ (∀ i x, p[i]? = some x → (b.insert o).get i = x) ∧
      (b.insert o).get p.length = o := by
  constructor
  · intro h
    refine ⟨by simpa using h.size, fun i x hx => h.get i x ?_, h.get _ _ ?_⟩
    · rw [List.getElem?_append_left (List.getElem?_eq_some_iff.mp hx).1, hx]
    · simp
  · intro ⟨hsize, hget, hnew⟩
    have hsize' : (b.insert o).size = (p ++ [o]).length := by simpa using hsize
    refine ⟨hsize', empty_iff_of_size hsize', fun i x hx => ?_, fun x hx => ?_⟩
    · -- an element that was there before, or the new one
      cases Nat.lt_or_ge i p.length with
      | inl hi =>
        rw [List.getElem?_append_left hi] at hx
        exact hget i x hx
      | inr hi =>
        rw [List.getElem?_append_right hi, List.getElem?_singleton] at hx
        split at hx
        · next hzero =>
          have heq : i = p.length := by omega
          cases hx
          rw [heq, hnew]
        · cases hx
    · rw [List.getLast?_concat] at hx
      cases hx
      exact last_insert b o

/-- The size grows exactly if the slot held nothing that counts as true. -/
theorem size_insert_iff {n : Int} (h : b.size = n) :
    (b.insert o).size = n + 1 ↔ Element.truth (b.data b.slot) = false := by
  rw [insert, h]
  cases Element.truth (b.data b.slot) with
  | false => simp
  | true => simp

/-- The size stays exactly if it did. -/
theorem size_insert_eq_iff {n : Int} (h : b.size = n) :
    (b.insert o).size = n ↔ Element.truth (b.data b.slot) = true := by
  rw [insert, h]
  cases Element.truth (b.data b.slot) with
  | false => simp
  | true => simp

/-- Inserting into an empty buffer. -/
theorem insert_nil (h : Agrees b []) (hplace : InStep b []) :
    Agrees (b.insert o) [o] ↔ Element.truth (b.data b.slot) = false := by
  have htail : b.tail = b.head := hplace.trans (place_zero b.head)
  have hhead : (b.insert o).head = b.head := by
    show (if b.full then b.head + 1 else b.head) = b.head
    split
    · -- The buffer has one place, and `_head` moves on to where it is.
      next hfull =>
      have hwrap : b.tail + 1 = b.head := of_decide_eq_true hfull
      rwa [htail] at hwrap
    · rfl
  have hslot : (b.insert o).head + Fin.ofNat N 0 = b.slot := by
    rw [place_zero, hhead, slot_of_nil h, htail]
  have hiff := agrees_insert_iff (b := b) (p := []) (o := o)
  rw [List.nil_append] at hiff
  rw [hiff, ← size_insert_iff (o := o) h.size]
  refine ⟨fun hall => hall.1, fun hsize => ⟨hsize, fun i x hx => ?_, get_insert_self hslot⟩⟩
  simp at hx

/-- The queue goes on from `_head`, and the new element is put behind it. -/
theorem get_insert_room {k i : Nat} (hslot : b.slot = b.head + Fin.ofNat N k) (hk : k < N)
    (hfull : b.full = false) (hi : i < k) : (b.insert o).get i = b.get i := by
  have hhead : (b.insert o).head = b.head := if_neg (by simp [hfull])
  have hne : (b.insert o).head + Fin.ofNat N i ≠ b.slot := by
    rw [hhead, hslot]
    intro heq
    have := place_inj (hi.trans hk) hk heq
    omega
  rw [get_insert_of_ne hne, hhead]
  rfl

/-- With room the inserted element is behind the others. -/
theorem get_insert_room_self {k : Nat} (hslot : b.slot = b.head + Fin.ofNat N k)
    (hfull : b.full = false) : (b.insert o).get k = o := by
  have hhead : (b.insert o).head = b.head := if_neg (by simp [hfull])
  exact get_insert_self (by rw [hhead, hslot])

/-- The oldest element is overwritten. -/
theorem get_insert_full {i : Nat} (hslot : b.slot = b.head) (hfull : b.full = true)
    (hi : i + 1 < N) : (b.insert o).get i = b.get (i + 1) := by
  have hhead : (b.insert o).head = b.head + 1 := if_pos hfull
  have hne : (b.insert o).head + Fin.ofNat N i ≠ b.slot := by
    rw [hhead, hslot, succ_place]
    intro heq
    have hzero : b.head + Fin.ofNat N (i + 1) = b.head + Fin.ofNat N 0 := by rw [heq, place_zero]
    have := place_inj hi (by omega) hzero
    omega
  rw [get_insert_of_ne hne, hhead, succ_place]
  rfl

/-- In a full buffer it takes the place of the oldest one and is the last. -/
theorem get_insert_full_self {k : Nat} (hslot : b.slot = b.head) (hfull : b.full = true)
    (hk : k + 1 = N) : (b.insert o).get k = o := by
  have hhead : (b.insert o).head = b.head + 1 := if_pos hfull
  exact get_insert_self (by rw [hhead, hslot, succ_place, hk, place_self])

/-- With room a buffer is in step afterwards. -/
theorem inStep_insert_room (hslot : b.slot = b.head + Fin.ofNat N p.length)
    (hfull : b.full = false) : InStep (b.insert o) (p ++ [o]) := by
  have hhead : (b.insert o).head = b.head := if_neg (by simp [hfull])
  rw [InStep, hhead, List.length_append, List.length_singleton, Nat.add_sub_cancel]
  exact hslot

/-- A full buffer is in step after an insertion. -/
theorem inStep_insert_full (hslot : b.slot = b.head) (hfull : b.full = true)
    (hlen : p.length + 1 = N) : InStep (b.insert o) (p ++ [o]) := by
  have hhead : (b.insert o).head = b.head + 1 := if_pos hfull
  rw [InStep, hhead, succ_place, List.length_append, List.length_singleton, Nat.add_sub_cancel,
    hlen, place_self]
  exact hslot

section InStep

variable (h : Agrees b q) (hplace : InStep b q) (hq : q ≠ [])

include h hplace hq

/-- With room inserting is right exactly if the slot held nothing that counts as true. -/
theorem insert_room (hlt : q.length < N) :
    Agrees (b.insert o) (q ++ [o]) ↔ Element.truth (b.data b.slot) = false := by
  have hslot := hplace.slot_eq h hq
  have hfull : b.full = false := by
    rw [Bool.eq_false_iff, ne_eq, hplace.full_iff h hq hlt.le]
    exact hlt.ne
  rw [agrees_insert_iff, ← size_insert_iff (o := o) h.size]
  refine ⟨fun hall => hall.1, fun hsize => ⟨hsize, fun i x hx => ?_, ?_⟩⟩
  · rw [get_insert_room hslot hlt hfull (List.getElem?_eq_some_iff.mp hx).1]
    exact h.get i x hx
  · exact get_insert_room_self hslot hfull

/-- In a full buffer it is right exactly if the slot did. -/
theorem insert_full (hlen : q.length = N) :
    Agrees (b.insert o) (q.tail ++ [o]) ↔ Element.truth (b.data b.slot) = true := by
  have hslot : b.slot = b.head := by rw [hplace.slot_eq h hq, hlen, place_self]
  have hfull : b.full = true := (hplace.full_iff h hq hlen.le).mpr hlen
  have hpos := List.length_pos_iff.mpr hq
  have htail : q.tail.length + 1 = N := by
    rw [List.length_tail]
    omega
  have hsize : b.size = q.tail.length + 1 := by
    rw [h.size]
    omega
  rw [agrees_insert_iff, size_insert_eq_iff hsize]
  refine ⟨fun hall => hall.1, fun hsize => ⟨hsize, fun i x hx => ?_, ?_⟩⟩
  · have hi := (List.getElem?_eq_some_iff.mp hx).1
    rw [get_insert_full hslot hfull (by omega)]
    exact h.get (i + 1) x (by rwa [List.getElem?_tail] at hx)
  · exact get_insert_full_self hslot hfull htail

end InStep

/-- Where the new element is expected there is still a zero. -/
theorem Late.get_length (hlate : Late b q) (h : Agrees b q) (hzero : ∀ x ∈ q, x = 0) :
    b.get q.length = 0 := by
  obtain ⟨x, hx⟩ : ∃ x, q.getLast? = some x :=
    ⟨_, List.getLast?_eq_some_getLast hlate.1⟩
  have hlast := h.last x hx
  rw [last, hlate.2] at hlast
  exact hlast.trans (hzero x (List.mem_of_getLast? hx))

section Late

variable (h : Agrees b q) (hlate : Late b q) (hzero : ∀ x ∈ q, x = 0)

include h hlate hzero

/-- In a buffer that is late it is right only for a zero. -/
theorem insert_late (hroom : q.length + 1 < N) :
    Agrees (b.insert o) (q ++ [o]) ↔ Element.truth (b.data b.slot) = false ∧ o = 0 := by
  have hslot := hlate.slot_eq h
  have hfull : b.full = false := by
    rw [Bool.eq_false_iff, ne_eq, hlate.full_iff h (by omega)]
    exact hroom.ne
  have hnew : (b.insert o).get q.length = 0 := by
    rw [get_insert_room hslot hroom hfull (Nat.lt_succ_self _)]
    exact hlate.get_length h hzero
  rw [agrees_insert_iff, ← size_insert_iff (o := o) h.size, hnew]
  refine ⟨fun hall => ⟨hall.1, hall.2.2.symm⟩, fun hall => ⟨hall.1, fun i x hx => ?_, hall.2.symm⟩⟩
  have hi := (List.getElem?_eq_some_iff.mp hx).1
  rw [get_insert_room hslot hroom hfull (by omega)]
  exact h.get i x hx

/-- The buffer gets full, and what is overwritten is the zero at `_head`. -/
theorem insert_late_full (hlen : q.length + 1 = N) :
    Agrees (b.insert o) (q ++ [o]) ∧ Element.truth (b.data b.slot) = false := by
  have hslot : b.slot = b.head := by rw [hlate.slot_eq h, hlen, place_self]
  have hfull : b.full = true := (hlate.full_iff h (by omega)).mpr hlen
  have htruth : Element.truth (b.data b.slot) = false := by
    obtain ⟨x, hx⟩ : ∃ x, q[0]? = some x :=
      ⟨_, List.getElem?_eq_getElem (List.length_pos_iff.mpr hlate.1)⟩
    have hfirst := h.get 0 x hx
    rw [get, place_zero, hzero x (List.mem_of_getElem? hx)] at hfirst
    rw [hslot, hfirst, Element.truth_zero]
  refine ⟨agrees_insert_iff.mpr ⟨(size_insert_iff h.size).mpr htruth, fun i x hx => ?_, ?_⟩, htruth⟩
  · -- All are read one place further, where there are zeros too.
    have hi := (List.getElem?_eq_some_iff.mp hx).1
    rw [get_insert_full hslot hfull (by omega), hzero x (List.mem_of_getElem? hx)]
    cases Nat.lt_or_ge (i + 1) q.length with
    | inl hnext =>
      obtain ⟨y, hy⟩ : ∃ y, q[i + 1]? = some y := ⟨_, List.getElem?_eq_getElem hnext⟩
      rw [h.get (i + 1) y hy, hzero y (List.mem_of_getElem? hy)]
    | inr hend =>
      have heq : i + 1 = q.length := by omega
      rw [heq, hlate.get_length h hzero]
  · exact get_insert_full_self hslot hfull hlen

end Late

/-! ## `remove` -/

omit [NeZero N] in
/-- A first element that counts as true is removed. -/
theorem remove_of_true (h : Element.truth b.first = true) :
    b.remove = (b.first, { b with data := Function.update b.data b.head 0, size := b.size - 1 }) :=
  if_pos h

omit [NeZero N] in
/-- A first element that counts as false is not removed. -/
theorem remove_of_false (h : Element.truth b.first = false) : b.remove = (0, b) :=
  if_neg (by simp [h])

/-- The place that `_head` stays at has the zero, and the others have moved on. -/
theorem get_remove (h : Element.truth b.first = true) {i : Nat} (hi : i < N) :
    b.remove.2.get i = if i = 0 then 0 else b.get i := by
  rw [remove_of_true h, get]
  split
  · next hzero =>
    rw [hzero, place_zero]
    exact Function.update_self ..
  · next hne =>
    refine Function.update_of_ne (fun heq => hne ?_) ..
    have hplace : b.head + Fin.ofNat N i = b.head + Fin.ofNat N 0 := by rw [place_zero]; exact heq
    exact place_inj hi (Nat.pos_of_neZero N) hplace

/-- With more than one element, the oldest that is left is read as zero, and each of the others as
    the one before it. -/
theorem remove_cons {a : α} {r : List α} (h : Agrees b (a :: r)) (hle : (a :: r).length ≤ N)
    (hplace : InStep b (a :: r)) (htruth : Element.truth a = true) :
    Agrees b.remove.2 r ↔ ∀ x ∈ r, x = 0 := by
  have hfirst : Element.truth b.first = true := by rw [h.first_eq, htruth]
  have hget (i : Nat) (hi : i < r.length) : b.remove.2.get i = if i = 0 then 0 else b.get i := by
    rw [List.length_cons] at hle
    exact get_remove hfirst (by omega)
  constructor
  · intro h'
    -- Each is the one before it, and the first is the zero.
    have hall : ∀ (i : Nat) x, r[i]? = some x → x = 0 := by
      intro i
      induction i with
      | zero =>
        intro x hx
        have heq := h'.get 0 x hx
        rw [hget 0 (List.getElem?_eq_some_iff.mp hx).1, if_pos rfl] at heq
        exact heq.symm
      | succ i ih =>
        intro x hx
        have hi := (List.getElem?_eq_some_iff.mp hx).1
        obtain ⟨y, hy⟩ : ∃ y, r[i]? = some y := ⟨_, List.getElem?_eq_getElem (by omega)⟩
        have heq := h'.get (i + 1) x hx
        rw [hget (i + 1) hi, if_neg (Nat.succ_ne_zero i), h.get (i + 1) y hy] at heq
        exact heq.symm.trans (ih y hy)
    intro x hx
    obtain ⟨i, hi⟩ := List.mem_iff_getElem?.mp hx
    exact hall i x hi
  · intro hzero
    have hsize : b.remove.2.size = r.length := by
      rw [remove_of_true hfirst]
      have hsize := h.size
      rw [List.length_cons] at hsize
      show b.size - 1 = r.length
      omega
    refine ⟨hsize, empty_iff_of_size hsize, fun i x hx => ?_, fun x hx => ?_⟩
    · rw [hget i (List.getElem?_eq_some_iff.mp hx).1, hzero x (List.mem_of_getElem? hx)]
      split
      · rfl
      · next hne =>
        obtain ⟨j, rfl⟩ := Nat.exists_eq_succ_of_ne_zero hne
        obtain ⟨y, hy⟩ : ∃ y, r[j]? = some y :=
          ⟨_, List.getElem?_eq_getElem (by have := (List.getElem?_eq_some_iff.mp hx).1; omega)⟩
        rw [h.get (j + 1) y hy, hzero y (List.mem_of_getElem? hy)]
    · -- `tail()` is behind the place of `_head`.
      have hne : r ≠ [] := by
        rintro rfl
        cases hx
      have hpos := List.length_pos_iff.mpr hne
      have hlast : b.last = x := by
        apply h.last
        rw [List.getLast?_cons_of_ne_nil hne, hx]
      have htail : b.remove.2.last = b.remove.2.get r.length := by
        rw [remove_of_true hfirst]
        show Function.update b.data b.head 0 b.tail = _
        rw [hplace]
        rfl
      have hold : b.last = b.get r.length := by rw [last, hplace]; rfl
      rw [List.length_cons] at hle
      rw [htail, get_remove hfirst (by omega), if_neg hpos.ne', ← hold, hlast]

/-! ## Sequences of calls -/

inductive Call (α : Type*) where
  | insert (o : α)
  | remove
  deriving DecidableEq, Repr

/-- A buffer and the queue that it should be. -/
structure Queued (α : Type*) (N : Nat) where
  buffer : Circular_Buffer α N
  queue : List α

namespace Queued

def next (s : Queued α N) : Call α → Queued α N
  | .insert o => ⟨s.buffer.insert o, enqueue N s.queue o⟩
  | .remove => ⟨s.buffer.remove.2, s.queue.tail⟩

/-- `remove()` returns the oldest element, if there is one. -/
def Returns (s : Queued α N) (c : Call α) : Prop :=
  c = .remove → ∀ o, s.queue.head? = some o → s.buffer.remove.1 = o

/-- `insert` overwrites a zero exactly if the queue is not full, and what it adds behind a removed
    element is zero or fills the buffer. `remove` finds an element that is not zero exactly if the
    queue is not empty, and leaves only zeros. -/
def Proper (s : Queued α N) : Call α → Prop
  | .insert o =>
    (Element.truth (s.buffer.data s.buffer.slot) = false ↔ s.queue.length < N) ∧
      (Late s.buffer s.queue → o = 0 ∨ s.buffer.full = true)
  | .remove =>
    (Element.truth s.buffer.first = true ↔ s.queue ≠ []) ∧ ∀ x ∈ s.queue.tail, x = 0

instance [DecidableEq α] (s : Queued α N) : (c : Call α) → Decidable (s.Proper c)
  | .insert _ =>
    have : Decidable (Late s.buffer s.queue) := inferInstanceAs (Decidable (_ ∧ _))
    inferInstanceAs (Decidable ((_ ↔ _) ∧ (_ → _)))
  | .remove => inferInstanceAs (Decidable ((_ ↔ _) ∧ _))

/-- After a constructor, over any memory. -/
def system : TransitionSystem (Queued α N) (Call α) where
  Init s := ∃ memory, s = ⟨init memory, []⟩
  Enabled _ _ := True
  next := next

/-- Every run of calls is one of the system. -/
theorem valid (s : Queued α N) (cs : List (Call α)) : system.Valid s cs := by
  induction cs generalizing s with
  | nil => trivial
  | cons c cs ih => exact ⟨trivial, ih _⟩

end Queued

open Queued

/-- A new buffer is empty and in step. -/
theorem inv_init (memory : Fin N → α) : Inv (init memory) [] where
  size := rfl
  empty := iff_of_true rfl rfl
  get i o ho := by simp at ho
  last o ho := nomatch ho
  length_le := Nat.zero_le _
  placed := .inl (place_zero 0).symm

/-- With a place left, a zero has to be overwritten. -/
theorem proper_insert_iff (hlt : q.length < N) : (Queued.mk b q).Proper (.insert o) ↔
    Element.truth (b.data b.slot) = false ∧ (Late b q → o = 0 ∨ b.full = true) := by
  show (_ ↔ q.length < N) ∧ _ ↔ _
  rw [iff_true_right hlt]

/-- Inserting with room keeps a buffer in step, and is right exactly when proper. -/
theorem insert_inStep_room (h : Agrees b q) (hplace : InStep b q) (hlt : q.length < N) :
    (Agrees (b.insert o) (q ++ [o]) ↔ (Queued.mk b q).Proper (.insert o)) ∧
      InStep (b.insert o) (q ++ [o]) := by
  rw [proper_insert_iff hlt, and_iff_left fun hlate => absurd hlate (hplace.not_late hlt)]
  by_cases hq : q = []
  · subst hq
    refine ⟨insert_nil h hplace, ?_⟩
    have htail : b.slot = b.head := by
      rw [slot_of_nil h]
      exact hplace.trans (place_zero b.head)
    cases hfull : b.full with
    | false => exact inStep_insert_room (by rw [htail]; exact (place_zero b.head).symm) hfull
    | true =>
      -- There is one place only.
      have hone : b.tail + 1 = b.head + Fin.ofNat N 1 := by
        rw [← slot_of_nil h, htail, ← place_succ, place_zero]
      exact inStep_insert_full htail hfull ((full_iff Nat.one_pos hlt hone).mp hfull)
  · have hfull : b.full = false := by
      rw [Bool.eq_false_iff, ne_eq, hplace.full_iff h hq hlt.le]
      exact hlt.ne
    exact ⟨insert_room h hplace hq hlt, inStep_insert_room (hplace.slot_eq h hq) hfull⟩

/-- Inserting into a full buffer keeps it in step, and is right exactly when proper. -/
theorem insert_inStep_full (h : Agrees b q) (hplace : InStep b q) (hlen : q.length = N) :
    (Agrees (b.insert o) (q.tail ++ [o]) ↔ (Queued.mk b q).Proper (.insert o)) ∧
      InStep (b.insert o) (q.tail ++ [o]) := by
  have hpos := Nat.pos_of_neZero N
  have hq : q ≠ [] := List.length_pos_iff.mp (by omega)
  have hslot : b.slot = b.head := by rw [hplace.slot_eq h hq, hlen, place_self]
  have hfull : b.full = true := (hplace.full_iff h hq hlen.le).mpr hlen
  have hproper : (Queued.mk b q).Proper (.insert o) ↔ Element.truth (b.data b.slot) = true := by
    show (_ ↔ q.length < N) ∧ (_ → _ ∨ b.full = true) ↔ _
    rw [and_iff_left fun _ => .inr hfull, iff_false_right (Nat.not_lt.mpr hlen.ge),
      Bool.not_eq_false]
  rw [hproper]
  have htail : q.tail.length + 1 = N := by
    rw [List.length_tail]
    omega
  exact ⟨insert_full h hplace hq hlen, inStep_insert_full hslot hfull htail⟩

/-- Inserting into a late buffer of zeros is right exactly when proper. -/
theorem insert_late_room (h : Agrees b q) (hlate : Late b q) (hlt : q.length < N)
    (hzero : ∀ x ∈ q, x = 0) :
    (Agrees (b.insert o) (q ++ [o]) ↔ (Queued.mk b q).Proper (.insert o)) ∧
      ((Queued.mk b q).Proper (.insert o) → Placed (b.insert o) (q ++ [o])) := by
  rw [proper_insert_iff hlt, forall_prop_of_true hlate]
  -- the buffer fills up with this element, or has room behind it
  by_cases hlen : q.length + 1 = N
  · have hfull : b.full = true := (hlate.full_iff h hlt).mpr hlen
    have hslot : b.slot = b.head := by rw [hlate.slot_eq h, hlen, place_self]
    obtain ⟨hagrees, htruth⟩ := insert_late_full (o := o) h hlate hzero hlen
    exact ⟨iff_of_true hagrees ⟨htruth, .inr hfull⟩, fun _ =>
      .inl (inStep_insert_full hslot hfull hlen)⟩
  · have hroom : q.length + 1 < N := by omega
    have hfull : b.full = false := by
      rw [Bool.eq_false_iff, ne_eq, hlate.full_iff h hlt]
      exact hlen
    have hhead : (b.insert o).head = b.head := if_neg (by simp [hfull])
    rw [hfull, or_iff_left Bool.false_ne_true]
    refine ⟨insert_late h hlate hzero hroom, fun ⟨_, ho⟩ => .inr ⟨⟨by simp, ?_⟩, ?_, ?_⟩⟩
    · rw [hhead, List.length_append, List.length_singleton]
      exact hlate.slot_eq h
    · rwa [List.length_append]
    · intro x hx
      rw [List.mem_append, List.mem_singleton] at hx
      cases hx with
      | inl hx => exact hzero x hx
      | inr hx => rw [hx, ho]

/-- One `insert`. -/
theorem Inv.insert (h : Inv b q) (o : α) :
    (Agrees (b.insert o) (enqueue N q o) ↔ (Queued.mk b q).Proper (.insert o)) ∧
      ((Queued.mk b q).Proper (.insert o) → Inv (b.insert o) (enqueue N q o)) := by
  have hkeep : (Agrees (b.insert o) (enqueue N q o) ↔ (Queued.mk b q).Proper (.insert o)) ∧
      ((Queued.mk b q).Proper (.insert o) → Placed (b.insert o) (enqueue N q o)) := by
    -- the stored elements begin at the head, or the buffer holds zeros only
    cases h.placed with
    | inl hplace =>
      by_cases hlt : q.length < N
      · rw [enqueue_of_lt hlt]
        obtain ⟨hiff, hnext⟩ := insert_inStep_room (o := o) h.toAgrees hplace hlt
        exact ⟨hiff, fun _ => .inl hnext⟩
      · have hlen : q.length = N := le_antisymm h.length_le (Nat.not_lt.mp hlt)
        rw [enqueue_of_eq hlen]
        obtain ⟨hiff, hnext⟩ := insert_inStep_full (o := o) h.toAgrees hplace hlen
        exact ⟨hiff, fun _ => .inl hnext⟩
    | inr hlate =>
      rw [enqueue_of_lt hlate.2.1]
      exact insert_late_room h.toAgrees hlate.1 hlate.2.1 hlate.2.2
  refine ⟨hkeep.1, fun hproper => ⟨hkeep.1.mpr hproper, ?_, hkeep.2 hproper⟩⟩
  have hpos := Nat.pos_of_neZero N
  have hle := h.length_le
  rw [enqueue, List.length_append, List.length_singleton]
  split
  · omega
  · rw [List.length_tail]
    omega

/-- Removing from an empty buffer is right exactly when proper. -/
theorem Inv.remove_nil (h : Inv b []) :
    (Agrees b.remove.2 [] ↔ (Queued.mk b []).Proper .remove) ∧
      ((Queued.mk b []).Proper .remove → Inv b.remove.2 []) := by
  have hproper : (Queued.mk b []).Proper .remove ↔ Element.truth b.first = false := by
    show (_ ↔ ([] : List α) ≠ []) ∧ (∀ x ∈ ([] : List α), x = 0) ↔ _
    simp
  rw [hproper]
  cases htruth : Element.truth b.first with
  | false =>
    rw [remove_of_false htruth]
    exact ⟨iff_of_true h.toAgrees rfl, fun _ => h⟩
  | true =>
    refine ⟨iff_of_false (fun h' => ?_) Bool.false_ne_true.symm, fun heq => ?_⟩
    · -- The size gets below zero.
      have hsize := h'.size
      rw [remove_of_true htruth] at hsize
      replace hsize : b.size - 1 = 0 := hsize
      rw [h.size] at hsize
      cases hsize
    · cases heq

/-- Removing the first element is right exactly when proper. -/
theorem Inv.remove_cons {a : α} {r : List α} (h : Inv b (a :: r)) :
    (Agrees b.remove.2 r ↔ (Queued.mk b (a :: r)).Proper .remove) ∧
      ((Queued.mk b (a :: r)).Proper .remove → b.remove.1 = a ∧ Inv b.remove.2 r) := by
  have hfirst := h.first_eq
  have hproper : (Queued.mk b (a :: r)).Proper .remove ↔
      Element.truth a = true ∧ ∀ x ∈ r, x = 0 := by
    show (Element.truth b.first = true ↔ a :: r ≠ []) ∧ (∀ x ∈ r, x = 0) ↔ _
    rw [hfirst, iff_true_right (List.cons_ne_nil a r)]
  rw [hproper]
  cases htruth : Element.truth a with
  | false =>
    -- The oldest element is a zero, and is taken for a place that is empty.
    refine ⟨iff_of_false (fun h' => ?_) fun h' => Bool.false_ne_true h'.1,
      fun h' => absurd h'.1 Bool.false_ne_true⟩
    have hsize := h'.size
    rw [remove_of_false (by rw [hfirst, htruth]), h.size, List.length_cons] at hsize
    omega
  | true =>
    -- An element that is not zero is no element of a queue of zeros.
    have hplace : InStep b (a :: r) := by
      cases h.placed with
      | inl hplace => exact hplace
      | inr hlate =>
        rw [hlate.2.2 a List.mem_cons_self, Element.truth_zero] at htruth
        cases htruth
    have hiff := Circular_Buffer.remove_cons h.toAgrees h.length_le hplace htruth
    have hremove := remove_of_true (b := b) (by rw [hfirst, htruth])
    have hle := h.length_le
    rw [List.length_cons] at hle
    refine ⟨by rw [hiff, and_iff_right rfl], fun ⟨_, hzero⟩ => ⟨by rw [hremove, hfirst], ?_⟩⟩
    refine ⟨hiff.mpr hzero, by omega, ?_⟩
    rw [hremove]
    by_cases hr : r = []
    · subst hr
      exact .inl hplace
    · -- One element fewer, and `_tail` where it was.
      exact .inr ⟨⟨hr, hplace⟩, by omega, hzero⟩

/-- One `remove`. -/
theorem Inv.remove (h : Inv b q) :
    (Agrees b.remove.2 q.tail ∧ (Queued.mk b q).Returns .remove ↔
        (Queued.mk b q).Proper .remove) ∧
      ((Queued.mk b q).Proper .remove → Inv b.remove.2 q.tail) := by
  cases q with
  | nil =>
    obtain ⟨hiff, hnext⟩ := h.remove_nil
    exact ⟨⟨fun h' => hiff.mp h'.1, fun hp => ⟨hiff.mpr hp, fun _ o ho => nomatch ho⟩⟩, hnext⟩
  | cons a r =>
    obtain ⟨hiff, hnext⟩ := h.remove_cons
    refine ⟨⟨fun h' => hiff.mp h'.1, fun hp => ⟨hiff.mpr hp, fun _ o ho => ?_⟩⟩, fun hp =>
      (hnext hp).2⟩
    cases ho
    exact (hnext hp).1

/-- In every sequence of calls, the buffer is the bounded queue and `remove()` returns its oldest
    element exactly if all calls are proper. -/
theorem circular_buffer_iff (s : Queued α N) (cs : List (Call α)) (hs : system.Init s) :
    system.Always (fun s => Agrees s.buffer s.queue) s cs ∧ system.Meets Queued.Returns s cs ↔
      system.Meets Queued.Proper s cs := by
  refine TransitionSystem.always_and_meets_iff (I := fun s => Inv s.buffer s.queue)
    (fun s h => h.toAgrees) ?_ ?_ ?_ (valid s cs)
  · rintro ⟨b, q⟩ c h - hproper
    cases c with
    | insert o => exact (h.insert o).2 hproper
    | remove => exact h.remove.2 hproper
  · rintro ⟨b, q⟩ c h -
    cases c with
    | insert o =>
      have hreturns : (Queued.mk b q).Returns (.insert o) := fun heq => nomatch heq
      rw [and_iff_left hreturns]
      exact (h.insert o).1
    | remove => exact h.remove.1
  · obtain ⟨memory, rfl⟩ := hs
    exact inv_init memory

/-- A sensor's history of two values in cleared memory. -/
theorem circular_buffer_example :
    system.Always (fun s => Agrees s.buffer s.queue) (⟨init fun _ => 0, []⟩ : Queued Int 2)
        [.insert 5, .remove, .insert 6, .insert 7, .insert 8] ∧
      system.Meets Queued.Returns (⟨init fun _ => 0, []⟩ : Queued Int 2)
        [.insert 5, .remove, .insert 6, .insert 7, .insert 8] :=
  (circular_buffer_iff _ _ ⟨fun _ => 0, rfl⟩).mpr (by decide)

/-- After two elements and one `remove()`, the oldest that is left is read as zero. -/
theorem not_circular_buffer : ¬∀ (s : Queued Int 5) (cs : List (Call Int)), system.Init s →
    system.Always (fun s => Agrees s.buffer s.queue) s cs ∧ system.Meets Queued.Returns s cs := by
  intro h
  have hproper := (circular_buffer_iff _ _ ⟨fun _ => 0, rfl⟩).mp
    (h ⟨init fun _ => 0, []⟩ [.insert 1, .insert 2, .remove] ⟨fun _ => 0, rfl⟩)
  revert hproper
  decide

end Circular_Buffer

end Epos
