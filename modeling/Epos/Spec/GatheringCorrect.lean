import Epos.ForStd.Rotation
import Epos.Network.Fragments
import Epos.Spec.BitmapCorrect
import Epos.Spec.SimpleListCorrect

/-!
# Gathering fragments

A `Fragmented` holds the first buffer that has arrived for each index and takes the
number of fragments from the last one without `MF`. Whatever arrives, its bitmap is left
alone beyond its words. `reorder()` gets through exactly if the indices have no gap; what
lies beyond the end that the count stands for may leave one.
-/

namespace Epos

namespace IP

variable {packet packet' : Buf → Packet} {b : Buf} {l l' t r : List Buf} {fuel i : Nat}

/-! ## Indices -/

/-- The greatest offset. -/
theorem Packet.offset_le (p : Packet) : p.offset ≤ 65528 := by
  have hle : p.bytes.word 6 &&& 0x1fff ≤ 0x1fff := Nat.and_le_right
  unfold Packet.offset
  rw [Nat.shiftLeft_eq]
  omega

/-- There are 45 indices at most. -/
theorem Packet.index_lt (p : Packet) : p.index < maxFragments := by
  have hle := p.offset_le
  have hmax : maxFragments = 45 := rfl
  have hmfs : mfs = 1480 := rfl
  unfold Packet.index
  rw [hmfs, hmax]
  omega

/-- The buffers behind the index of a `Fragmented`, in the order of their arrival. -/
def accept (packet : Buf → Packet) (l : List Buf) (b : Buf) : List Buf :=
  if ∃ x ∈ l, (packet x).index = (packet b).index then l else l ++ [b]

/-- What `_frags` becomes with another fragment. -/
def countWith (p : Packet) (frags : Nat) : Nat :=
  if p.flags &&& Header.MF = 0 then (p.offset + mfs) / mfs else frags

/-- The number of fragments stays in its bounds. -/
theorem countWith_bounds {p : Packet} {frags : Nat} (h : 0 < frags ∧ frags ≤ maxFragments) :
    0 < countWith p frags ∧ countWith p frags ≤ maxFragments := by
  have hle := p.offset_le
  have hmax : maxFragments = 45 := rfl
  have hmfs : mfs = 1480 := rfl
  unfold countWith
  rw [hmax] at h
  rw [hmfs, hmax]
  split <;> omega

/-- Only the new buffer is accepted. -/
theorem mem_accept {x : Buf} : x ∈ accept packet l b → x = b ∨ x ∈ l := by
  unfold accept
  split
  · exact .inr
  · intro h
    cases List.mem_append.mp h with
    | inl h => exact .inr h
    | inr h => exact .inl (List.mem_singleton.mp h)

/-- Afterwards there is a buffer of its index. -/
theorem exists_accept : (∃ x ∈ accept packet l b, (packet x).index = i) ↔
    i = (packet b).index ∨ ∃ x ∈ l, (packet x).index = i := by
  unfold accept
  split
  · rename_i h
    constructor
    · exact .inr
    · intro hi
      cases hi with
      | inl heq => exact heq ▸ h
      | inr hi => exact hi
  · simp only [List.mem_append, List.mem_singleton]
    constructor
    · rintro ⟨x, hx | rfl, hxi⟩
      · exact .inr ⟨x, hx, hxi⟩
      · exact .inl hxi.symm
    · rintro (rfl | ⟨x, hx, hxi⟩)
      · exact ⟨b, .inr rfl, rfl⟩
      · exact ⟨x, .inl hx, hxi⟩

/-- No index comes twice. -/
theorem nodup_accept (h : (l.map fun x => (packet x).index).Nodup) :
    ((accept packet l b).map fun x => (packet x).index).Nodup := by
  unfold accept
  split
  · exact h
  · rename_i hnew
    rw [List.map_append, List.nodup_append]
    refine ⟨h, by simp, fun i hi j hj heq => hnew ?_⟩
    obtain ⟨x, hx, rfl⟩ := List.mem_map.mp hi
    have hjb : j = (packet b).index := by simpa using hj
    exact ⟨x, hx, heq.trans hjb⟩

/-! ## `insert` -/

/-- The list holds these buffers, whose distinct indices are in the bitmap. -/
structure Gathering.Holds (g : Gathering) (packet : Buf → Packet) (l : List Buf) : Prop where
  headed : l.HeadedBy g.next g.list
  whole : g.bitmap.Whole
  bits : g.bitmap.bits = maxFragments
  has_iff : ∀ i, g.bitmap.Has i ↔ ∃ x ∈ l, (packet x).index = i
  index_nodup : (l.map fun x => (packet x).index).Nodup
  frags : 0 < g.frags ∧ g.frags ≤ maxFragments

/-- The buffers that are not in the list keep their links. -/
def SameLinks (next next' : Buf → Option Buf) (l : List Buf) : Prop :=
  ∀ x, x ∉ l → next' x = next x

namespace Gathering

variable {g g' : Gathering}

/-- A new gathering holds nothing. -/
theorem Holds.init (packet : Buf → Packet) (next : Buf → Option Buf) :
    Gathering.Holds { next := next } packet [] where
  headed := ⟨rfl, rfl, rfl, trivial⟩
  whole := Bitmap.whole_init (by decide)
  bits := rfl
  has_iff i := by simpa using Bitmap.not_has_init _ i
  index_nodup := List.nodup_nil
  frags := by
    show 0 < maxFragments ∧ maxFragments ≤ maxFragments
    decide

/-- What it holds only depends on the packets of its buffers. -/
theorem Holds.congr (h : g.Holds packet l)
    (hpacket : ∀ x ∈ l, packet' x = packet x) : g.Holds packet' l where
  headed := h.headed
  whole := h.whole
  bits := h.bits
  has_iff i := by
    rw [h.has_iff]
    exact exists_congr fun x => and_congr_right fun hx => by rw [hpacket x hx]
  index_nodup := by
    have hmap : l.map (fun x => (packet' x).index) = l.map fun x => (packet x).index :=
      List.map_congr_left fun x hx => congrArg Packet.index (hpacket x hx)
    exact hmap ▸ h.index_nodup
  frags := h.frags

/-- What a gathering holds only depends on the links of its buffers. -/
theorem Holds.relink {next : Buf → Option Buf} (h : g.Holds packet l)
    (hnext : ∀ x ∈ l, next x = g.next x) : ({ g with next := next } : Gathering).Holds packet l :=
  { h with headed := h.headed.congr hnext }

/-- No buffer comes twice. -/
theorem Holds.nodup (h : g.Holds packet l) : l.Nodup := h.headed.nodup

/-- An insertion keeps the first buffer of each index and sets the count. -/
theorem Holds.insert (h : g.Holds packet l) (hb : b ∉ l) :
    ∃ g', g.insert packet b = some g' ∧ g'.Holds packet (accept packet l b) ∧
      g'.frags = countWith (packet b) g.frags ∧ SameLinks g.next g'.next (b :: l) := by
  have hlt : (packet b).index < g.bitmap.bits := h.bits ▸ (packet b).index_lt
  obtain ⟨fresh, bitmap, hset, hfresh, hwhole, hbits, hhas⟩ := h.whole.set hlt
  have hiff (i : Nat) :
      bitmap.Has i ↔ ∃ x ∈ accept packet l b, (packet x).index = i := by
    rw [hhas, h.has_iff, exists_accept]
  have hcount := countWith_bounds (p := packet b) h.frags
  unfold Gathering.insert
  rw [hset]
  simp only [Option.bind_eq_bind, Option.bind_some]
  -- a new index links the buffer in, a known one leaves the list as it is
  by_cases hnew : fresh = true
  · have hnot : ¬∃ x ∈ l, (packet x).index = (packet b).index := by
      rw [← h.has_iff]
      exact hfresh.mp hnew
    have hrep : SimpleList.Represents { next := g.next, header := g.list } l := h.headed
    obtain ⟨q, hq, hq'⟩ := hrep.insertTail hb
    rw [if_pos hnew, hq, Option.bind_some]
    refine ⟨_, rfl, ⟨?_, hwhole, hbits.trans h.bits, hiff, nodup_accept h.index_nodup, hcount⟩,
      rfl, ?_⟩
    · unfold accept
      rw [if_neg hnot]
      exact hq'
    · intro x hx
      rw [List.mem_cons, not_or] at hx
      exact hrep.insertTail_next hq hx.2 hx.1
  · have hold : ∃ x ∈ l, (packet x).index = (packet b).index := by
      rw [← h.has_iff]
      exact not_not.mp (mt hfresh.mpr hnew)
    rw [if_neg hnew]
    refine ⟨_, rfl, ⟨?_, hwhole, hbits.trans h.bits, hiff, nodup_accept h.index_nodup, hcount⟩,
      rfl, fun x _ => rfl⟩
    unfold accept
    rw [if_pos hold]
    exact h.headed

/-- The whole of what is counted has arrived. -/
theorem Holds.reassembled (h : g.Holds packet l) :
    ∃ r, g.reassembled = some r ∧ (r = true ↔ ∀ i < g.frags, ∃ x ∈ l, (packet x).index = i) := by
  obtain ⟨r, hr, hiff⟩ := h.whole.full (h.bits ▸ h.frags.2)
  refine ⟨r, hr, hiff.trans ?_⟩
  simp only [h.has_iff]

/-! ## `reorder` -/

/-- An empty list. -/
theorem headed_nil (next : Buf → Option Buf) : [].HeadedBy next ({} : ListHeader Buf) :=
  ⟨rfl, rfl, rfl, trivial⟩

/-- The first loop does on the links what `List.rotateSort` does on lists. -/
theorem sortWithin_eq (packet : Buf → Packet) (fuel i : Nat) {next : Buf → Option Buf}
    {list tmp : ListHeader Buf} (hl : l.HeadedBy next list) (ht : t.HeadedBy next tmp) (hdisj : ∀ x ∈ l, x ∉ t) :
    match List.rotateSort (fun x => (packet x).index) fuel i l t with
    | none => sortWithin packet fuel i next list tmp = none
    | some r => ∃ next' list' tmp', sortWithin packet fuel i next list tmp =
        some (next', list', tmp') ∧ [].HeadedBy next' list' ∧ r.HeadedBy next' tmp' ∧
          SameLinks next next' (l ++ t) := by
  induction fuel generalizing i l t next list tmp with
  | zero => rfl
  | succ fuel ih =>
    have hrep : SimpleList.Represents { next := next, header := list } l := hl
    rw [sortWithin, hrep.empty_eq]
    cases l with
    | nil => exact ⟨next, list, tmp, rfl, hl, ht, fun _ _ => rfl⟩
    | cons x xs =>
      obtain ⟨q, hremove, hq, hqnext⟩ := hrep.removeHead
      have hxxs : x ∉ xs := (List.nodup_cons.mp hl.nodup).1
      have hxt : x ∉ t := hdisj x List.mem_cons_self
      have hempty : (x :: xs).isEmpty = false := rfl
      simp only [hempty, Bool.false_eq_true, if_false, hremove, List.head?_cons, List.rotateSort,
        Option.bind_eq_bind, Option.bind_some]
      by_cases hx : (packet x).index = i
      · -- the wanted one goes behind `tmp`
        have htrep : SimpleList.Represents { next := q.next, header := tmp } t := by
          rw [hqnext]
          exact ht
        obtain ⟨t', hins, ht'⟩ := htrep.insertTail hxt
        have hlinks (y : Buf) (hy : y ∉ t) (hyx : y ≠ x) : t'.next y = next y := by
          rw [htrep.insertTail_next hins hy hyx, hqnext]
        have hxs : xs.HeadedBy t'.next q.header := by
          have hxs' : xs.HeadedBy q.next q.header := hq
          rw [hqnext] at hxs'
          refine hxs'.congr fun y hy => hlinks y (hdisj y (List.mem_cons_of_mem _ hy)) ?_
          exact fun heq => hxxs (heq ▸ hy)
        have hdisj' : ∀ y ∈ xs, y ∉ t ++ [x] := by
          intro y hy hmem
          cases List.mem_append.mp hmem with
          | inl hyt => exact hdisj y (List.mem_cons_of_mem _ hy) hyt
          | inr hyx => exact hxxs (List.mem_singleton.mp hyx ▸ hy)
        rw [if_pos hx, if_pos hx, hins, Option.bind_some]
        have hih := ih (i + 1) hxs ht' hdisj'
        revert hih
        cases List.rotateSort (fun x => (packet x).index) fuel (i + 1) xs (t ++ [x]) with
        | none => exact id
        | some r =>
          intro hih
          obtain ⟨next', list', tmp', heq, hlist', htmp', hsame⟩ := hih
          refine ⟨next', list', tmp', heq, hlist', htmp', fun y hy => ?_⟩
          simp only [List.cons_append, List.mem_cons, List.mem_append, not_or] at hy
          rw [hsame y (by simp [hy]), hlinks y hy.2.2 hy.1]
      · obtain ⟨q', hins, hq'⟩ := hq.insertTail hxxs
        have hlinks (y : Buf) (hy : y ∉ xs) (hyx : y ≠ x) : q'.next y = next y := by
          rw [hq.insertTail_next hins hy hyx, hqnext]
        have ht' : t.HeadedBy q'.next tmp := by
          refine ht.congr fun y hy => hlinks y ?_ fun heq => hxt (heq ▸ hy)
          exact fun hyxs => hdisj y (List.mem_cons_of_mem _ hyxs) hy
        have hdisj' : ∀ y ∈ xs ++ [x], y ∉ t := by
          intro y hy
          cases List.mem_append.mp hy with
          | inl hyxs => exact hdisj y (List.mem_cons_of_mem _ hyxs)
          | inr hyx => exact List.mem_singleton.mp hyx ▸ hxt
        rw [if_neg hx, if_neg hx, hins, Option.bind_some]
        have hih := ih i (l := xs ++ [x]) hq' ht' hdisj'
        revert hih
        cases List.rotateSort (fun x => (packet x).index) fuel i (xs ++ [x]) t with
        | none => exact id
        | some r =>
          intro hih
          obtain ⟨next', list', tmp', heq, hlist', htmp', hsame⟩ := hih
          refine ⟨next', list', tmp', heq, hlist', htmp', fun y hy => ?_⟩
          simp only [List.cons_append, List.mem_cons, List.mem_append, not_or] at hy
          rw [hsame y (by simp [hy]), hlinks y hy.2.1 hy.1]

/-- The second loop appends. -/
theorem moveWithin_eq (fuel : Nat) {next : Buf → Option Buf} {list tmp : ListHeader Buf}
    (hl : l.HeadedBy next list) (ht : t.HeadedBy next tmp) (hdisj : ∀ x ∈ l, x ∉ t)
    (hfuel : t.length < fuel) :
    ∃ next' list', moveWithin fuel next list tmp = some (next', list') ∧
      (l ++ t).HeadedBy next' list' ∧ SameLinks next next' (l ++ t) := by
  induction t generalizing fuel l next list tmp with
  | nil =>
    obtain ⟨n, rfl⟩ := Nat.exists_eq_succ_of_ne_zero (Nat.ne_of_gt (Nat.zero_lt_of_lt hfuel))
    have htrep : SimpleList.Represents { next := next, header := tmp } [] := ht
    refine ⟨next, list, ?_, by simpa using hl, fun _ _ => rfl⟩
    rw [moveWithin, htrep.empty_eq]
    rfl
  | cons x xs ih =>
    obtain ⟨n, rfl⟩ := Nat.exists_eq_succ_of_ne_zero (Nat.ne_of_gt (Nat.zero_lt_of_lt hfuel))
    have htrep : SimpleList.Represents { next := next, header := tmp } (x :: xs) := ht
    obtain ⟨t', hremove, ht', htnext⟩ := htrep.removeHead
    have hxl : x ∉ l := fun hx => hdisj x hx List.mem_cons_self
    have hxxs : x ∉ xs := (List.nodup_cons.mp ht.nodup).1
    have hrep : SimpleList.Represents { next := t'.next, header := list } l := by
      rw [htnext]
      exact hl
    -- the head of `tmp` goes behind `list`
    obtain ⟨q, hins, hq⟩ := hrep.insertTail hxl
    have hlinks (y : Buf) (hy : y ∉ l) (hyx : y ≠ x) : q.next y = next y := by
      rw [hrep.insertTail_next hins hy hyx, htnext]
    have hxs : xs.HeadedBy q.next t'.header := by
      have hxs' : xs.HeadedBy t'.next t'.header := ht'
      rw [htnext] at hxs'
      refine hxs'.congr fun y hy => hlinks y ?_ fun heq => hxxs (heq ▸ hy)
      exact fun hyl => hdisj y hyl (List.mem_cons_of_mem _ hy)
    have hdisj' : ∀ y ∈ l ++ [x], y ∉ xs := by
      intro y hy hyxs
      cases List.mem_append.mp hy with
      | inl hyl => exact hdisj y hyl (List.mem_cons_of_mem _ hyxs)
      | inr hyx => exact hxxs (List.mem_singleton.mp hyx ▸ hyxs)
    have hlen : xs.length < n := by
      simp only [List.length_cons] at hfuel
      omega
    obtain ⟨next', list', heq, hlist', hsame⟩ := ih n hq hxs hdisj' hlen
    refine ⟨next', list', ?_, by simpa using hlist', fun y hy => ?_⟩
    · have hempty : (x :: xs).isEmpty = false := rfl
      rw [moveWithin, htrep.empty_eq]
      simp only [hempty, Bool.false_eq_true, if_false, hremove, List.head?_cons,
        Option.bind_eq_bind, Option.bind_some, hins]
      exact heq
    · simp only [List.mem_append, List.mem_cons, not_or] at hy
      rw [hsame y (by simp [hy]), hlinks y hy.1 hy.2.1]

/-- The size counts the buffers. -/
theorem Holds.size_le (h : g.Holds packet l) : 1 < g.list.size ↔ 1 < l.length := by
  rw [h.headed.size]
  omega

/-- There are not more fragments than indices. -/
theorem Holds.length_le (h : g.Holds packet l) : l.length ≤ maxFragments := by
  have hsub : l.map (fun x => (packet x).index) ⊆ List.range maxFragments := by
    intro i hi
    obtain ⟨x, -, rfl⟩ := List.mem_map.mp hi
    exact List.mem_range.mpr (packet x).index_lt
  have hle := (h.index_nodup.subperm hsub).length_le
  rwa [List.length_map, List.length_range] at hle

/-- Without a gap `reorder()` sorts the list. -/
theorem Holds.reorder (h : g.Holds packet l)
    (hgap : l.Gapless fun x => (packet x).index) :
    ∃ g' pool, g.reorder packet = some g' ∧ g'.Holds packet pool ∧
      pool.Perm l ∧ (pool.map fun x => (packet x).index) = List.range l.length ∧
      g'.toFragmented = { g.toFragmented with list := g'.list } ∧
      SameLinks g.next g'.next l := by
  have hperm := hgap.perm_range h.index_nodup
  have hlen := h.length_le
  unfold Gathering.reorder
  by_cases hone : 1 < l.length
  · rw [List.range_eq_range'] at hperm
    -- without gaps the wanted index comes round at most once a turn: `n * n` rounds
    obtain ⟨r, hr, hrl, hrange⟩ := List.rotateSort_sorts (t := []) hperm
    obtain ⟨more, hmore⟩ : ∃ more, reorderFuel = l.length * l.length + 1 + more := by
      have hsq := Nat.mul_le_mul hlen hlen
      exact ⟨reorderFuel - (l.length * l.length + 1), by unfold reorderFuel; omega⟩
    have hr' := List.rotateSort_mono hr more
    rw [← hmore] at hr'
    have hsort := sortWithin_eq packet reorderFuel 0 h.headed (headed_nil g.next) (by simp)
    rw [hr'] at hsort
    obtain ⟨next, list, tmp, hsort, hlist, htmp, hsame⟩ := hsort
    have hshort : ([] ++ r).length < reorderFuel := by
      have hmax : maxFragments = 45 := rfl
      rw [List.nil_append, hrl.length_eq, reorderFuel]
      rw [hmax] at hlen ⊢
      omega
    obtain ⟨next', list', hmove, hlist', hsame'⟩ := moveWithin_eq reorderFuel
      hlist htmp (by simp) hshort
    rw [List.nil_append, List.nil_append] at hlist'
    refine ⟨{ g with list := list', next := next' }, r, ?_,
      ⟨hlist', h.whole, h.bits, fun i => ?_, ?_, h.frags⟩, hrl, ?_, rfl, fun x hx => ?_⟩
    · unfold reorderWithin
      rw [if_pos (h.size_le.mpr hone), hsort]
      simp only [Option.bind_eq_bind, Option.bind_some, hmove]
    · show g.bitmap.Has i ↔ _
      rw [h.has_iff]
      simp only [hrl.mem_iff]
    · exact (hrl.map _).nodup_iff.mpr h.index_nodup
    · rw [hrange, List.range_eq_range']
    · show next' x = g.next x
      rw [hsame' x (by simpa [hrl.mem_iff] using hx), hsame x (by simpa using hx)]
  · -- one buffer is sorted, and the loops are not entered
    refine ⟨g, l, ?_, h, .refl _, ?_, rfl, fun _ _ => rfl⟩
    · unfold reorderWithin
      rw [if_neg (mt h.size_le.mp hone)]
    · cases l with
      | nil => rfl
      | cons x xs =>
        obtain rfl : xs = [] := by
          simp only [List.length_cons] at hone
          exact List.length_eq_zero_iff.mp (by omega)
        exact List.perm_singleton.mp hperm

/-- With a gap it never ends. -/
theorem Holds.reorder_stuck (h : g.Holds packet l) (hone : 1 < l.length)
    (hgap : ¬l.Gapless fun x => (packet x).index) (fuel : Nat) :
    g.reorderWithin fuel packet = none := by
  simp only [List.Gapless, not_forall, not_exists, not_and] at hgap
  obtain ⟨x, hx, gap, hlt, hno⟩ := hgap
  have hstuck := List.rotateSort_stuck (t := []) hx hlt (Nat.zero_le gap) hno fuel
  have hsort := sortWithin_eq packet fuel 0 h.headed (headed_nil g.next) (by simp)
  rw [hstuck] at hsort
  unfold reorderWithin
  rw [if_pos (h.size_le.mpr hone), hsort]
  rfl

/-! ## Fuel -/

/-- More fuel does not matter. -/
theorem sortWithin_mono {next : Buf → Option Buf} {list tmp : ListHeader Buf}
    {r : (Buf → Option Buf) × ListHeader Buf × ListHeader Buf}
    (h : sortWithin packet fuel i next list tmp = some r) (more : Nat) :
    sortWithin packet (fuel + more) i next list tmp = some r := by
  -- more fuel changes nothing: the same branch is taken in every pass
  induction fuel generalizing i next list tmp with
  | zero => cases h
  | succ fuel ih =>
    rw [Nat.succ_add_eq_add_succ, Nat.add_succ]
    simp only [sortWithin, Option.bind_eq_bind] at h ⊢
    split at h
    · rename_i hempty
      rw [if_pos hempty]
      exact h
    · rename_i hempty
      rw [if_neg hempty, Option.bind_eq_some_iff]
      obtain ⟨⟨x, q⟩, hremove, h⟩ := Option.bind_eq_some_iff.mp h
      obtain ⟨buf, hbuf, h⟩ := Option.bind_eq_some_iff.mp h
      refine ⟨(x, q), hremove, Option.bind_eq_some_iff.mpr ⟨buf, hbuf, ?_⟩⟩
      split at h
      · rename_i hindex
        rw [if_pos hindex]
        obtain ⟨t, hins, h⟩ := Option.bind_eq_some_iff.mp h
        exact Option.bind_eq_some_iff.mpr ⟨t, hins, ih h⟩
      · rename_i hindex
        rw [if_neg hindex]
        obtain ⟨q', hins, h⟩ := Option.bind_eq_some_iff.mp h
        exact Option.bind_eq_some_iff.mpr ⟨q', hins, ih h⟩

/-- More fuel does not matter. -/
theorem moveWithin_mono {next : Buf → Option Buf} {list tmp : ListHeader Buf}
    {r : (Buf → Option Buf) × ListHeader Buf}
    (h : moveWithin fuel next list tmp = some r) (more : Nat) :
    moveWithin (fuel + more) next list tmp = some r := by
  induction fuel generalizing next list tmp with
  | zero => cases h
  | succ fuel ih =>
    rw [Nat.succ_add_eq_add_succ, Nat.add_succ]
    simp only [moveWithin, Option.bind_eq_bind] at h ⊢
    split at h
    · rename_i hempty
      rw [if_pos hempty]
      exact h
    · rename_i hempty
      rw [if_neg hempty]
      obtain ⟨⟨x, t⟩, hremove, h⟩ := Option.bind_eq_some_iff.mp h
      obtain ⟨buf, hbuf, h⟩ := Option.bind_eq_some_iff.mp h
      obtain ⟨q, hins, h⟩ := Option.bind_eq_some_iff.mp h
      rw [hremove, Option.bind_some, hbuf, Option.bind_some, hins, Option.bind_some]
      exact ih h

/-- More fuel does not matter. -/
theorem reorderWithin_mono (h : g.reorderWithin fuel packet = some g') (more : Nat) :
    g.reorderWithin (fuel + more) packet = some g' := by
  unfold reorderWithin at h ⊢
  split at h
  · rename_i hone
    simp only [Option.bind_eq_bind] at h
    obtain ⟨⟨next, list, tmp⟩, hsort, h⟩ := Option.bind_eq_some_iff.mp h
    obtain ⟨⟨next', list'⟩, hmove, h⟩ := Option.bind_eq_some_iff.mp h
    rw [if_pos hone, sortWithin_mono hsort more]
    simp only [Option.bind_eq_bind, Option.bind_some, moveWithin_mono hmove more]
    exact h
  · rename_i hone
    rw [if_neg hone]
    exact h

/-- What `reorder()` ends with does not depend on the bound. -/
theorem reorderWithin_unique {fuel' : Nat} {g₁ g₂ : Gathering}
    (h₁ : g.reorderWithin fuel packet = some g₁) (h₂ : g.reorderWithin fuel' packet = some g₂) :
    g₁ = g₂ := by
  have h₁' := reorderWithin_mono h₁ fuel'
  rw [Nat.add_comm, reorderWithin_mono h₂ fuel] at h₁'
  exact (Option.some.inj h₁').symm

end Gathering

end IP

end Epos
