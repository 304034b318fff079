import Mathlib.Data.List.FinRange
import Epos.Spec.FragmentsCorrect

/-!
# From `alloc` to `reorder`

The fragments that `alloc` makes have the offsets `k * MFS` as long as these fit in 16
bits. A receiver puts up to 45 of them together again, in whatever order and however
often they come. With one more the offsets start over, and the first 45 look complete.
-/

namespace Epos

namespace IP

open Gathering

variable {p q header : Packet} {n k off flg size once payload txBufs : Nat}
  {sizes : List Nat} {frags : List Packet}

/-! ## Fields -/

/-- The flags and the offset share a word. -/
theorem Packet.word_six (p : Packet) : p.bytes.word 6 = p.flags * 8192 + p.offset / 8 ∧
    p.offset % 8 = 0 ∧ p.offset / 8 < 8192 := by
  have hand : p.bytes.word 6 &&& 0x1fff = p.bytes.word 6 % 8192 :=
    Nat.and_two_pow_sub_one_eq_mod _ 13
  unfold Packet.flags Packet.offset
  rw [hand, Nat.shiftLeft_eq, Nat.shiftRight_eq_div_pow]
  omega

/-- The flags and the offset are what the seventh and the eighth byte are made of. -/
theorem Packet.fields_of_word {o f : Nat} (h : p.bytes.word 6 = f * 8192 + o) (ho : o < 8192) :
    p.flags = f ∧ p.offset = o * 8 := by
  obtain ⟨hword, hmod, hlt⟩ := p.word_six
  omega

/-- Both only depend on it. -/
theorem Packet.fields_eq (h : p.bytes.word 6 = q.bytes.word 6) :
    p.flags = q.flags ∧ p.offset = q.offset := by
  unfold Packet.flags Packet.offset
  rw [h]
  exact ⟨rfl, rfl⟩

/-- Reading back what was stored there. -/
theorem Packet.fields_store (f o : Nat) (hf : f < 8) (ho : o < 8192) :
    (⟨p.bytes.store 6 (f <<< 13 ||| o)⟩ : Packet).flags = f ∧
      (⟨p.bytes.store 6 (f <<< 13 ||| o)⟩ : Packet).offset = o * 8 := by
  have hor : f <<< 13 ||| o = f * 8192 + o := by
    rw [← Nat.shiftLeft_add_eq_or_of_lt (show o < 2 ^ 13 from ho), Nat.shiftLeft_eq]
  apply Packet.fields_of_word _ ho
  rw [hor]
  show (p.bytes.store (2 * 3) (f * 8192 + o)).word (2 * 3) = _
  rw [Bytes.word_store _ 3 _ (by omega) 3, if_pos rfl]

/-- There are three flags. -/
theorem Packet.flags_lt (p : Packet) : p.flags < 8 := by
  have hlt := p.bytes.word_lt 6
  unfold Packet.flags
  rw [Nat.shiftRight_eq_div_pow]
  omega

/-- `flags(flg)` keeps the offset. -/
theorem Packet.fields_setFlags (h : flg < 8) :
    (p.setFlags flg).flags = flg ∧ (p.setFlags flg).offset = p.offset := by
  obtain ⟨-, hmod, hlt⟩ := p.word_six
  have hfields := Packet.fields_store (p := p) flg (p.offset / 8) h hlt
  unfold Packet.setFlags
  rw [Nat.shiftRight_eq_div_pow]
  exact ⟨hfields.1, hfields.2.trans (by omega)⟩

/-- `offset(off)` keeps the flags. -/
theorem Packet.fields_setOffset (h : 8 ∣ off) :
    (p.setOffset off).flags = p.flags ∧ (p.setOffset off).offset = off % 2 ^ 16 := by
  have hfields := Packet.fields_store (p := p) p.flags (off % 2 ^ 16 / 8) p.flags_lt (by omega)
  unfold Packet.setOffset
  rw [Nat.shiftRight_eq_div_pow]
  exact ⟨hfields.1, hfields.2.trans (by omega)⟩

/-- `length(length)` keeps the flags and the offset. -/
theorem Packet.fields_setLength (length : Nat) :
    (p.setLength length).flags = p.flags ∧ (p.setLength length).offset = p.offset := by
  have hword := Bytes.word_store_of_ne p.bytes length (k := 1) (m := 3) (by decide)
  exact Packet.fields_eq hword

/-- `checksum(v)` keeps the flags and the offset. -/
theorem Packet.fields_setChecksum (v : Nat) :
    (p.setChecksum v).flags = p.flags ∧ (p.setChecksum v).offset = p.offset := by
  have hword := Bytes.word_store_of_ne p.bytes v (k := 5) (m := 3) (by decide)
  exact Packet.fields_eq hword

/-- `sum()` keeps the flags and the offset. -/
theorem Packet.fields_sum (p : Packet) : p.sum.flags = p.flags ∧ p.sum.offset = p.offset := by
  unfold Packet.sum
  rw [(Packet.fields_setChecksum _).1, (Packet.fields_setChecksum _).2]
  exact Packet.fields_setChecksum 0

/-! ## Sending -/

/-- One buffer for each 1480 bytes. -/
theorem length_bufferSizes (size : Nat) : (bufferSizes size).length = (size + 1479) / 1480 := by
  induction size using bufferSizes.induct with
  | case1 => rw [bufferSizes, if_pos rfl]; rfl
  | case2 size h ih =>
    have hmax : maxData = 1480 := rfl
    rw [bufferSizes, if_neg h, List.length_cons, ih, hmax]
    omega

/-- One header for each buffer. -/
theorem length_setupHeaders : (setupHeaders header off sizes).length = sizes.length := by
  induction sizes generalizing off with
  | nil => rfl
  | cons size rest ih => simp [setupHeaders, ih]

/-- The `k`-th fragment has its offset modulo 2^16, and all but the last have `MF`. -/
theorem setupHeaders_fields (hoff : 8 ∣ off) (hk : (setupHeaders header off sizes)[k]? = some p) :
    p.offset = (off + k * 1480) % 2 ^ 16 ∧
      p.flags = if k + 1 = sizes.length then 0 else Header.MF := by
  induction sizes generalizing off k with
  | nil => cases hk
  | cons size rest ih =>
    cases k with
    | zero =>
      -- the flags share a word with the offset, which is written last
      have hp := Option.some.inj hk
      have hflags : (if rest = [] then 0 else Header.MF) < 8 := by
        split <;> decide
      have hsum := Packet.fields_sum
        (((header.setFlags (if rest = [] then 0 else Header.MF)).setLength size).setOffset off)
      rw [hp, (Packet.fields_setOffset hoff).1, (Packet.fields_setOffset hoff).2,
        (Packet.fields_setLength size).1, (Packet.fields_setFlags hflags).1] at hsum
      refine ⟨by rw [hsum.2, Nat.zero_mul, Nat.add_zero], hsum.1.trans ?_⟩
      cases rest with
      | nil => rfl
      | cons s ss => simp
    -- the next fragment begins 1480 bytes later
    | succ k =>
      have hmfs : mfs = 1480 := rfl
      have hdvd : 8 ∣ off + mfs := by omega
      obtain ⟨hoffset, hflags⟩ := ih hdvd hk
      refine ⟨by rw [hoffset, hmfs, Nat.succ_mul]; congr 1; omega, ?_⟩
      rw [hflags, List.length_cons]
      simp only [Nat.add_right_cancel_iff]

/-- What the header of a fragment says, out of `n`. -/
def IsPiece (n k : Nat) (p : Packet) : Prop :=
  p.offset = k * 1480 % 2 ^ 16 ∧ p.flags = if k + 1 = n then 0 else Header.MF

/-- `alloc` cuts its payload in pieces of 1480 bytes. -/
theorem alloc_pieces (h : alloc header txBufs once payload = some frags) :
    frags.length = ((payload + once) % 2 ^ 32 + 1479) / 1480 ∧ 0 < frags.length ∧
      ∀ k p, frags[k]? = some p → IsPiece frags.length k p := by
  unfold alloc at h
  obtain ⟨sizes, hsizes, rfl⟩ := Option.map_eq_some_iff.mp h
  simp only [nicAlloc] at hsizes
  split at hsizes
  · cases hsizes
  · rename_i hcond
    obtain rfl := Option.some.inj hsizes
    rw [length_setupHeaders, length_bufferSizes]
    simp only [not_or] at hcond
    refine ⟨rfl, by omega, fun k p hk => ?_⟩
    obtain ⟨hoffset, hflags⟩ := setupHeaders_fields (Nat.dvd_zero 8) hk
    rw [length_bufferSizes] at hflags
    exact ⟨by rw [hoffset, Nat.zero_add], hflags⟩

/-- When `alloc()` passes its tests. -/
theorem alloc_eq (hbufs : ¬txBufs < (payload + once) % 2 ^ 32 / maxData)
    (hsize : ¬(2 ^ 31 ≤ (payload + once) % 2 ^ 32 ∨ (payload + once) % 2 ^ 32 = 0)) :
    alloc header txBufs once payload =
      some (setupHeaders header 0 (bufferSizes ((payload + once) % 2 ^ 32))) := by
  simp only [alloc, nicAlloc]
  rw [if_neg (not_or.mpr ⟨hbufs, hsize⟩)]
  rfl

/-! ## Receiving -/

/-- A packet with the header of a fragment. What it carries behind it is left open. -/
def Packet.Carries (p frag : Packet) : Prop := ∀ i < headerSize, p.bytes i = frag.bytes i

/-- A packet carries its piece. -/
theorem Packet.Carries.piece (h : p.Carries q) (hq : IsPiece n k q) : IsPiece n k p := by
  have hword : p.bytes.word 6 = q.bytes.word 6 := by
    unfold Bytes.word
    rw [h 6 (by decide), h 7 (by decide)]
  obtain ⟨hflags, hoffset⟩ := Packet.fields_eq hword
  exact ⟨hoffset.trans hq.1, hflags.trans hq.2⟩

/-- Whatever the order and the number of times in which the fragments come, they are
    complete exactly when all of them have come, and then `reorder()` ends with each of
    them in its place. -/
def RoundTrip (frags : List Packet) : Prop :=
  ∀ (next : Buf → Option Buf) (arrivals : List (Fin frags.length)) (packet : Buf → Packet),
    (∀ (b : Nat) k, arrivals[b]? = some k → (packet b).Carries frags[k]) →
    ∃ g r, Gathering.insertAll packet (List.range arrivals.length) { next := next } = some g ∧
      g.reassembled = some r ∧ (r = true ↔ ∀ k, k ∈ arrivals) ∧
      (r = true → ∃ fuel g', ∃ pool : List Nat, g.reorderWithin fuel packet = some g' ∧
        pool.HeadedBy g'.next g'.list ∧
        pool.map (arrivals[·]?) = (List.finRange frags.length).map some)

variable {packet : Nat → Packet} {arrivals : List (Fin n)}

/-- The arrivals are pieces. -/
def Delivers (packet : Buf → Packet) (arrivals : List (Fin n)) : Prop :=
  ∀ (b : Nat) k, arrivals[b]? = some k → IsPiece n k (packet b)

/-- The index of a piece. -/
theorem IsPiece.index (h : IsPiece n k p) (hk : k < 45) : p.index = k := by
  have hmfs : mfs = 1480 := rfl
  unfold Packet.index
  rw [h.1, hmfs]
  omega

/-- The number of the last fragment is counted from its index, once it has come. -/
theorem Delivers.counted_eq (h : Delivers packet arrivals) (hn : n ≤ 45) :
    counted packet (List.range arrivals.length) =
      if ∃ k ∈ arrivals, k.val + 1 = n then n else maxFragments := by
  unfold counted
  -- by the arrivals, the last one at the end
  induction arrivals using List.reverseRecOn with
  | nil =>
    rw [if_neg (by simp)]
    rfl
  | append_singleton arrivals k ih =>
    have hinit : Delivers packet arrivals := by
      intro b j hb
      refine h b j ?_
      rw [List.getElem?_append_left (List.getElem?_eq_some_iff.mp hb).1]
      exact hb
    have hk : IsPiece n k (packet arrivals.length) := h arrivals.length k (by simp)
    rw [List.length_append, List.length_singleton, List.range_succ, List.foldl_append,
      ih hinit, List.foldl_cons, List.foldl_nil, countWith, hk.1, hk.2]
    have hmfs : mfs = 1480 := rfl
    have hlt := k.isLt
    -- only the last piece tells how many there are
    by_cases hlast : k.val + 1 = n
    · rw [if_pos hlast, if_pos (by decide), if_pos ⟨k, by simp, hlast⟩, hmfs]
      omega
    · have hiff : (∃ j ∈ arrivals ++ [k], j.val + 1 = n) ↔ ∃ j ∈ arrivals, j.val + 1 = n := by
        simp only [List.mem_append, List.mem_singleton]
        constructor
        · rintro ⟨j, hj | rfl, hjn⟩
          · exact ⟨j, hj, hjn⟩
          · exact absurd hjn hlast
        · rintro ⟨j, hj, hjn⟩
          exact ⟨j, .inl hj, hjn⟩
      rw [if_neg hlast, if_neg (by decide)]
      simp only [hiff]

/-- The index of the piece that arrives. -/
theorem Delivers.index (h : Delivers packet arrivals) (hn : n ≤ 45) {b : Buf} {k : Fin n}
    (hb : arrivals[b]? = some k) : (packet b).index = k :=
  (h b k hb).index (by omega)

/-- The indices that have come are those of the fragments that have. -/
theorem Delivers.exists_index (h : Delivers packet arrivals) (hn : n ≤ 45) {i : Nat} :
    (∃ b ∈ List.range arrivals.length, (packet b).index = i) ↔ ∃ k ∈ arrivals, k.val = i := by
  constructor
  · rintro ⟨b, hb, hi⟩
    have hlt : b < arrivals.length := List.mem_range.mp hb
    have hsome := List.getElem?_eq_getElem hlt
    exact ⟨arrivals[b], List.getElem_mem _, by rw [← hi, h.index hn hsome]⟩
  · rintro ⟨k, hk, hi⟩
    obtain ⟨b, hb⟩ := List.mem_iff_getElem?.mp hk
    have hlt := (List.getElem?_eq_some_iff.mp hb).1
    exact ⟨b, List.mem_range.mpr hlt, by rw [h.index hn hb, hi]⟩

/-- What has arrived is complete exactly if every piece has. -/
theorem Delivers.complete_iff (h : Delivers packet arrivals) (hpos : 0 < n) (hn : n ≤ 45) :
    Complete packet (List.range arrivals.length) ↔ ∀ k, k ∈ arrivals := by
  unfold Complete
  rw [h.counted_eq hn]
  simp only [h.exists_index hn]
  constructor
  · intro hall k
    by_cases hlast : ∃ k ∈ arrivals, k.val + 1 = n
    · rw [if_pos hlast] at hall
      obtain ⟨j, hj, hjk⟩ := hall k k.isLt
      exact Fin.ext hjk ▸ hj
    · -- without the last fragment its index is missing below 45
      rw [if_neg hlast] at hall
      have hmax : maxFragments = 45 := rfl
      obtain ⟨j, hj, hjn⟩ := hall (n - 1) (by omega)
      exact absurd ⟨j, hj, by omega⟩ hlast
  · intro hall i hi
    have hlast : ∃ k ∈ arrivals, k.val + 1 = n :=
      ⟨⟨n - 1, by omega⟩, hall _, show n - 1 + 1 = n by omega⟩
    rw [if_pos hlast] at hi
    exact ⟨⟨i, hi⟩, hall _, rfl⟩

/-- A pool with the indices in order holds each fragment once. -/
theorem Delivers.pool_eq (h : Delivers packet arrivals) (hn : n ≤ 45) {pool : List Nat}
    (hsub : pool ⊆ List.range arrivals.length)
    (hpool : (pool.map fun b => (packet b).index) = List.range n) :
    pool.map (arrivals[·]?) = (List.finRange n).map some := by
  have hlen : pool.length = n := by
    have hlength := congrArg List.length hpool
    rwa [List.length_map, List.length_range] at hlength
  refine List.ext_getElem (by simp [hlen]) fun i hi _ => ?_
  rw [List.length_map] at hi
  have hlt := List.mem_range.mp (hsub (List.getElem_mem hi))
  have hsome := List.getElem?_eq_getElem hlt
  have hindex : (packet pool[i]).index = i := by
    have hget := List.getElem_map (fun b => (packet b).index) (l := pool) (h := by simpa using hi)
    rw [← hget]
    simp only [hpool, List.getElem_range]
  rw [h.index hn hsome] at hindex
  simp only [List.getElem_map, List.getElem_finRange, hsome]
  exact congrArg some (Fin.ext hindex)

/-- When every piece has arrived they are put together in their order. -/
theorem Delivers.roundTrip (h : Delivers packet arrivals) (hpos : 0 < n) (hn : n ≤ 45)
    (next : Buf → Option Buf) :
    ∃ g r, Gathering.insertAll packet (List.range arrivals.length) { next := next } = some g ∧
      g.reassembled = some r ∧ (r = true ↔ ∀ k, k ∈ arrivals) ∧
      (r = true → ∃ fuel g', ∃ pool : List Nat, g.reorderWithin fuel packet = some g' ∧
        pool.HeadedBy g'.next g'.list ∧
        pool.map (arrivals[·]?) = (List.finRange n).map some) := by
  obtain ⟨g, hall, hg, hcount⟩ :=
    insertAll_holds packet next (List.nodup_range (n := arrivals.length))
  obtain ⟨r, hr, hiff⟩ := hg.reassembled
  have hcomplete : r = true ↔ Complete packet (List.range arrivals.length) := by
    rw [hiff, hcount]
    exact forall₂_congr fun i _ => exists_accepted
  refine ⟨g, r, hall, hr, hcomplete.trans (h.complete_iff hpos hn), fun htrue => ?_⟩
  have hmem := (hcomplete.trans (h.complete_iff hpos hn)).mp htrue
  have hgap : (accepted packet (List.range arrivals.length)).Gapless fun b => (packet b).index := by
    intro x hx i hi
    obtain ⟨k, -, hk⟩ := (h.exists_index hn).mp ⟨x, accepted_subset hx, rfl⟩
    have hlt : (packet x).index < n := hk ▸ k.isLt
    have hi' : i < (packet x).index := hi
    exact exists_accepted.mpr ((h.exists_index hn).mpr ⟨⟨i, by omega⟩, hmem _, rfl⟩)
  obtain ⟨g', pool, hreorder, hg', hperm, hrange, -, -⟩ := hg.reorder hgap
  -- there are as many indices as fragments
  have hlen : (accepted packet (List.range arrivals.length)).length = n := by
    have hrange' : ∀ i, i ∈ List.range (accepted packet (List.range arrivals.length)).length ↔
        i ∈ List.range n := by
      intro i
      rw [← hrange, List.mem_map]
      simp only [hperm.mem_iff]
      rw [exists_accepted, h.exists_index hn, List.mem_range]
      constructor
      · rintro ⟨k, -, rfl⟩
        exact k.isLt
      · exact fun hi => ⟨⟨i, hi⟩, hmem _, rfl⟩
    have hperm' := (List.perm_ext_iff_of_nodup List.nodup_range List.nodup_range).mpr hrange'
    simpa using hperm'.length_eq
  rw [hlen] at hrange
  refine ⟨Gathering.reorderFuel, g', pool, hreorder, hg'.headed, h.pool_eq hn (fun x hx => ?_) hrange⟩
  exact accepted_subset (hperm.mem_iff.mp hx)

/-- The fragments from the first to the 45th are complete for the receiver. -/
theorem not_roundTrip (h : ∀ k p, frags[k]? = some p → IsPiece frags.length k p)
    (hlen : 45 < frags.length) : ¬RoundTrip frags := by
  intro hround
  -- they come in order, and nothing else does
  let arrivals : List (Fin frags.length) := (List.finRange frags.length).take 45
  have hget (b : Nat) (hb : b < 45) : arrivals[b]? = some ⟨b, by omega⟩ := by
    rw [List.getElem?_take_of_lt hb, List.getElem?_eq_getElem (by simp; omega)]
    simp
  have hlength : arrivals.length = 45 := by
    simp only [arrivals, List.length_take, List.length_finRange]
    omega
  let packet : Nat → Packet := fun b => frags.getD b ⟨fun _ => 0⟩
  have hfrag (b : Nat) (hb : b < 45) : frags[b]? = some (packet b) := by
    have hsome := List.getElem?_eq_getElem (show b < frags.length by omega)
    simp only [packet, List.getD_eq_getElem?_getD, hsome, Option.getD_some]
  have hpacket (b : Nat) (hb : b < 45) : IsPiece frags.length b (packet b) := by
    exact h b _ (hfrag b hb)
  have hcarries : ∀ (b : Nat) k, arrivals[b]? = some k → (packet b).Carries frags[k] := by
    intro b k hb i hi
    have hlt : b < 45 := hlength ▸ (List.getElem?_eq_some_iff.mp hb).1
    rw [hget b hlt] at hb
    obtain rfl := Option.some.inj hb
    have heq : packet b = frags[b] :=
      Option.some.inj ((hfrag b hlt).symm.trans (List.getElem?_eq_getElem (by omega)))
    rw [heq]
    rfl
  obtain ⟨g, r, hall, hr, hiff, -⟩ := hround (fun _ => none) arrivals packet hcarries
  obtain ⟨g', hall', hg, hcount⟩ := insertAll_holds packet (fun _ => none)
    (List.nodup_range (n := arrivals.length))
  obtain rfl := Option.some.inj (hall.symm.trans hall')
  obtain ⟨r', hr', hfull⟩ := hg.reassembled
  obtain rfl := Option.some.inj (hr.symm.trans hr')
  have htrue : r = true := by
    rw [hfull]
    intro i hi
    have hmax : maxFragments = 45 := rfl
    have hi45 : i < 45 := Nat.lt_of_lt_of_le hi (hmax ▸ hg.frags.2)
    refine exists_accepted.mpr ⟨i, List.mem_range.mpr (by omega), ?_⟩
    exact (hpacket i hi45).index hi45
  obtain ⟨b, hb⟩ := List.mem_iff_getElem?.mp (hiff.mp htrue ⟨45, hlen⟩)
  have hlt : b < 45 := hlength ▸ (List.getElem?_eq_some_iff.mp hb).1
  rw [hget b hlt] at hb
  have heq := congrArg Fin.val (Option.some.inj hb)
  simp only at heq
  omega

/-- The round trip succeeds exactly if there are not too many fragments. -/
theorem roundTrip_iff (h : alloc header txBufs once payload = some frags) :
    RoundTrip frags ↔ frags.length ≤ maxFragments := by
  obtain ⟨-, hpos, hpieces⟩ := alloc_pieces h
  have hmax : maxFragments = 45 := rfl
  constructor
  · intro hround
    by_contra hlt
    exact not_roundTrip hpieces (by omega) hround
  · intro hle next arrivals packet hcarries
    refine Delivers.roundTrip (fun b k hb => ?_) hpos (by omega) next
    exact (hcarries b k hb).piece (hpieces k frags[k] (List.getElem?_eq_getElem k.isLt))

end IP

open IP

/-- The fragments of a datagram can be put together again exactly if there are at most
    `MAX_FRAGMENTS` of them. -/
theorem alloc_roundTrip_iff (header : Packet) (txBufs once payload : Nat) (frags : List Packet)
    (h : alloc header txBufs once payload = some frags) :
    RoundTrip frags ↔ (payload + once) % 2 ^ 32 ≤ maxFragments * mfs := by
  have hmax : maxFragments = 45 := rfl
  have hmfs : mfs = 1480 := rfl
  have hlen := (alloc_pieces h).1
  rw [roundTrip_iff h, hlen, hmax, hmfs]
  omega

/-- A header of 20 bytes from 10.0.0.1 to 10.0.0.9. -/
def someHeader : Packet :=
  ⟨.ofList [0x45, 0, 0, 0, 0, 7, 0, 0, 64, 0x11, 0, 0, 10, 0, 0, 1, 10, 0, 0, 9]⟩

/-- A message of 3000 bytes with its header of 8 bytes. -/
theorem alloc_roundTrip_3000 : RoundTrip (setupHeaders someHeader 0 (bufferSizes 3008)) :=
  (alloc_roundTrip_iff someHeader 64 8 3000 _ (alloc_eq (by decide) (by decide))).mpr (by decide)

/-- With 64 buffers for sending, `alloc` takes 66608 bytes and makes 46 fragments. -/
theorem not_alloc_roundTrip :
    ¬∀ (header : Packet) (txBufs once payload : Nat) (frags : List Packet),
      alloc header txBufs once payload = some frags → RoundTrip frags := by
  intro h
  have halloc : alloc someHeader 64 8 66600 = _ := alloc_eq (by decide) (by decide)
  have hround := h someHeader 64 8 66600 _ halloc
  rw [roundTrip_iff halloc, (alloc_pieces halloc).1] at hround
  exact absurd hround (by decide)

end Epos
