import Epos.Spec.ChecksumCorrect
import Epos.Spec.GatheringCorrect

/-!
# Reassembling datagrams

What a receiver makes of the fragments of one datagram, in any order and with any
repetitions, and what it makes of fragments that others have chosen. An index has room
for 45 fragments, which is as many as the largest datagram has; `alloc` does not look
whether its payload is one.
-/

namespace Epos

namespace IP

open Gathering

variable {packet : Buf → Packet} {l pool arrivals : List Buf} {i n start : Nat}

/-! ## Sequences of fragments -/

/-- The buffers that are kept of those that arrive. -/
def accepted (packet : Buf → Packet) (arrivals : List Buf) : List Buf :=
  arrivals.foldl (accept packet) []

/-- `_frags` after the arrivals. -/
def counted (packet : Buf → Packet) (arrivals : List Buf) : Nat :=
  arrivals.foldl (fun n b => countWith (packet b) n) maxFragments

theorem Gathering.Holds.insertAll {g : Gathering} (h : g.Holds packet l) (hnd : arrivals.Nodup)
    (hdisj : ∀ b ∈ arrivals, b ∉ l) :
    ∃ g', Gathering.insertAll packet arrivals g = some g' ∧
      g'.Holds packet (arrivals.foldl (accept packet) l) ∧
      g'.frags = arrivals.foldl (fun n b => countWith (packet b) n) g.frags := by
  induction arrivals generalizing g l with
  | nil => exact ⟨g, rfl, h, rfl⟩
  | cons b rest ih =>
    obtain ⟨hb, hrest⟩ := List.nodup_cons.mp hnd
    obtain ⟨g₁, hins, hg₁, hcount, -⟩ := h.insert (hdisj b List.mem_cons_self)
    have hdisj' : ∀ x ∈ rest, x ∉ accept packet l b := by
      intro x hx hmem
      cases mem_accept hmem with
      | inl heq => exact hb (heq ▸ hx)
      | inr hl => exact hdisj x (List.mem_cons_of_mem _ hx) hl
    obtain ⟨g', hall, hg', hcount'⟩ := ih hg₁ hrest hdisj'
    refine ⟨g', ?_, hg', ?_⟩
    · rw [Gathering.insertAll, hins]
      exact hall
    · rw [hcount', hcount]
      rfl

theorem insertAll_holds (packet : Buf → Packet) (next : Buf → Option Buf)
    (hnd : arrivals.Nodup) :
    ∃ g, Gathering.insertAll packet arrivals { next := next } = some g ∧
      g.Holds packet (accepted packet arrivals) ∧ g.frags = counted packet arrivals :=
  (Holds.init packet next).insertAll hnd fun _ _ hb => nomatch hb

theorem exists_accepted : (∃ x ∈ accepted packet arrivals, (packet x).index = i) ↔
    ∃ x ∈ arrivals, (packet x).index = i := by
  have hfold (l : List Buf) : (∃ x ∈ arrivals.foldl (accept packet) l, (packet x).index = i) ↔
      (∃ x ∈ l, (packet x).index = i) ∨ ∃ x ∈ arrivals, (packet x).index = i := by
    induction arrivals generalizing l with
    | nil => simp
    | cons b rest ih =>
      rw [List.foldl_cons, ih, exists_accept]
      simp only [List.mem_cons, exists_eq_or_imp]
      rw [eq_comm (a := i), or_assoc, or_left_comm]
  unfold accepted
  simpa using hfold []

theorem accepted_subset : accepted packet arrivals ⊆ arrivals := by
  have hfold (l : List Buf) : arrivals.foldl (accept packet) l ⊆ arrivals ++ l := by
    induction arrivals generalizing l with
    | nil => exact fun x hx => hx
    | cons b rest ih =>
      intro x hx
      cases List.mem_append.mp (ih (accept packet l b) hx) with
      | inl hrest => exact List.mem_append_left _ (List.mem_cons_of_mem _ hrest)
      | inr hacc =>
        cases mem_accept hacc with
        | inl heq => exact heq ▸ List.mem_cons_self
        | inr hl => exact List.mem_append_right _ hl
  unfold accepted
  simpa using hfold []

/-! ## Fragments that others have chosen -/

def Packet.more (p : Packet) : Prop := p.flags &&& Header.MF ≠ 0

/-- The bytes of the datagram that a fragment carries. -/
def Packet.dataLength (p : Packet) : Nat := p.length - headerSize

/-- The fragments begin at `start`, each where the one in front ends, and only the last one
    is final. -/
def Covers (packet : Buf → Packet) : Nat → List Buf → Prop
  | _, [] => False
  | start, [b] => (packet b).offset = start ∧ ¬(packet b).more
  | start, b :: rest =>
    (packet b).offset = start ∧ (packet b).more ∧
      Covers packet (start + (packet b).dataLength) rest

/-- The fragments are the pieces of one datagram, told by their indices. -/
structure Tiles (packet : Buf → Packet) (l : List Buf) : Prop where
  gapless : l.Gapless fun x => (packet x).index
  first : ∀ x ∈ l, (packet x).index = 0 → (packet x).offset = 0
  adjacent : ∀ x ∈ l, ∀ y ∈ l, (packet y).index = (packet x).index + 1 →
    (packet x).more ∧ (packet y).offset = (packet x).offset + (packet x).dataLength
  last : ∀ x ∈ l, (∀ y ∈ l, (packet y).index ≠ (packet x).index + 1) → ¬(packet x).more

/-- All indices below the count have arrived. -/
def Complete (packet : Buf → Packet) (arrivals : List Buf) : Prop :=
  ∀ i < counted packet arrivals, ∃ x ∈ arrivals, (packet x).index = i

/-- No insertion leaves the bitmap, and once the fragments are complete `reorder()` ends
    with a pool that covers a datagram. -/
def Survives (packet : Buf → Packet) (next : Buf → Option Buf) (arrivals : List Buf) : Prop :=
  ∃ g r, Gathering.insertAll packet arrivals { next := next } = some g ∧
    g.reassembled = some r ∧
    (r = true → ∃ fuel g' pool, g.reorderWithin fuel packet = some g' ∧
      pool.HeadedBy g'.next g'.list ∧ pool ⊆ arrivals ∧ Covers packet 0 pool)

theorem covers_iff (h : (pool.map fun x => (packet x).index) = List.range' i (n + 1)) :
    Covers packet start pool ↔
      (∀ x ∈ pool, (packet x).index = i → (packet x).offset = start) ∧
      (∀ x ∈ pool, ∀ y ∈ pool, (packet y).index = (packet x).index + 1 →
        (packet x).more ∧ (packet y).offset = (packet x).offset + (packet x).dataLength) ∧
      (∀ x ∈ pool, (∀ y ∈ pool, (packet y).index ≠ (packet x).index + 1) →
        ¬(packet x).more) := by
  induction n generalizing i start pool with
  | zero =>
    obtain ⟨b, rfl⟩ : ∃ b, pool = [b] := by
      have hlen := congrArg List.length h
      rw [List.length_map, List.length_range'] at hlen
      exact List.length_eq_one_iff.mp hlen
    have hb : (packet b).index = i := by simpa using h
    simp [Covers, hb]
  | succ n ih =>
    obtain ⟨b, rest, rfl⟩ : ∃ b rest, pool = b :: rest := by
      cases pool with
      | nil => simp at h
      | cons b rest => exact ⟨b, rest, rfl⟩
    rw [List.map_cons, List.range'_succ] at h
    obtain ⟨hb, hrest⟩ := List.cons.inj h
    have hlt : ∀ y ∈ rest, i < (packet y).index := by
      intro y hy
      have hmem : (packet y).index ∈ List.range' (i + 1) (n + 1) := by
        rw [← hrest]
        exact List.mem_map_of_mem hy
      rw [List.mem_range'_1] at hmem
      omega
    -- the next one is there
    obtain ⟨z, hz, hzi⟩ : ∃ z ∈ rest, (packet z).index = i + 1 := by
      have hmem : i + 1 ∈ rest.map fun x => (packet x).index := by
        rw [hrest, List.mem_range'_1]
        omega
      exact List.mem_map.mp hmem
    have hcov : Covers packet start (b :: rest) ↔ (packet b).offset = start ∧ (packet b).more ∧
        Covers packet (start + (packet b).dataLength) rest := by
      cases rest with
      | nil => cases hz
      | cons c cs => rfl
    rw [hcov, ih hrest]
    constructor
    · intro ⟨hoff, hmore, hfirst, hadj, hlast⟩
      refine ⟨fun x hx hxi => ?_, fun x hx y hy hxy => ?_, fun x hx hno => ?_⟩
      · cases List.mem_cons.mp hx with
        | inl heq => exact heq ▸ hoff
        | inr hx => exact absurd hxi (Nat.ne_of_gt (hlt x hx))
      · cases List.mem_cons.mp hx with
        | inl heq =>
          subst heq
          cases List.mem_cons.mp hy with
          | inl heq =>
            subst heq
            omega
          | inr hy =>
            rw [hfirst y hy (by omega), hoff]
            exact ⟨hmore, rfl⟩
        | inr hx =>
          cases List.mem_cons.mp hy with
          | inl heq =>
            have hxlt := hlt x hx
            subst heq
            omega
          | inr hy => exact hadj x hx y hy hxy
      · cases List.mem_cons.mp hx with
        | inl heq =>
          subst heq
          exact absurd (hzi.trans (congrArg (· + 1) hb.symm)) (hno z (List.mem_cons_of_mem _ hz))
        | inr hx => exact hlast x hx fun y hy => hno y (List.mem_cons_of_mem _ hy)
    · intro ⟨hfirst, hadj, hlast⟩
      have hoff : (packet b).offset = start := hfirst b List.mem_cons_self hb
      refine ⟨hoff, ?_, fun x hx hxi => ?_, fun x hx y hy hxy => ?_, fun x hx hno => ?_⟩
      · exact (hadj b List.mem_cons_self z (List.mem_cons_of_mem _ hz) (by omega)).1
      · rw [(hadj b List.mem_cons_self x (List.mem_cons_of_mem _ hx) (by omega)).2, hoff]
      · exact hadj x (List.mem_cons_of_mem _ hx) y (List.mem_cons_of_mem _ hy) hxy
      · refine hlast x (List.mem_cons_of_mem _ hx) fun y hy => ?_
        cases List.mem_cons.mp hy with
        | inl heq =>
          have hxlt := hlt x hx
          subst heq
          omega
        | inr hy => exact hno y hy

/-- A pool with all indices below its length covers a datagram if its fragments are the
    pieces of one. -/
theorem covers_iff_tiles (hpos : 0 < l.length) (hperm : pool.Perm l)
    (h : (pool.map fun x => (packet x).index) = List.range l.length) :
    Covers packet 0 pool ↔ Tiles packet l := by
  obtain ⟨n, hn⟩ := Nat.exists_eq_succ_of_ne_zero (Nat.ne_of_gt hpos)
  have hgap : l.Gapless fun x => (packet x).index :=
    List.gapless_of_perm_range (h ▸ (hperm.map _).symm)
  rw [hn, List.range_eq_range'] at h
  rw [covers_iff h]
  simp only [hperm.mem_iff]
  constructor
  · exact fun ⟨hfirst, hadj, hlast⟩ => ⟨hgap, hfirst, hadj, hlast⟩
  · exact fun ht => ⟨ht.first, ht.adjacent, ht.last⟩

theorem Complete.pos (h : Complete packet arrivals) (hnd : arrivals.Nodup) :
    0 < (accepted packet arrivals).length := by
  obtain ⟨g, -, hg, hcount⟩ := insertAll_holds packet (fun _ => none) hnd
  obtain ⟨x, hx, -⟩ := exists_accepted.mpr (h 0 (hcount ▸ hg.frags.1))
  exact List.length_pos_of_mem hx

/-- Where `reorder()` ends is decided by the fragments that have been kept. -/
theorem survives_of_complete (next : Buf → Option Buf) (hnd : arrivals.Nodup)
    (h : Complete packet arrivals) :
    Survives packet next arrivals ↔ Tiles packet (accepted packet arrivals) := by
  obtain ⟨g, hall, hg, hcount⟩ := insertAll_holds packet next hnd
  obtain ⟨r, hr, hiff⟩ := hg.reassembled
  have hpos := h.pos hnd
  have htrue : r = true := by
    rw [hiff, hcount]
    exact fun i hi => exists_accepted.mpr (h i hi)
  constructor
  · intro ⟨g₁, r₁, hall₁, hr₁, hend⟩
    obtain rfl := Option.some.inj (hall.symm.trans hall₁)
    obtain rfl := Option.some.inj (hr.symm.trans hr₁)
    obtain ⟨fuel, g', pool, hreorder, hpool, -, hcovers⟩ := hend htrue
    by_cases hgap : (accepted packet arrivals).Gapless fun x => (packet x).index
    · obtain ⟨g₁, pool₁, hreorder₁, hg₁, hperm, hrange, -, -⟩ := hg.reorder hgap
      have hsame : g' = g₁ := reorderWithin_unique hreorder hreorder₁
      subst hsame
      obtain rfl : pool = pool₁ := hpool.unique hg₁.headed
      exact (covers_iff_tiles hpos hperm hrange).mp hcovers
    · -- a single fragment that completes a datagram has the index 0
      exfalso
      by_cases hone : 1 < (accepted packet arrivals).length
      · rw [hg.reorder_stuck hone hgap] at hreorder
        cases hreorder
      · apply hgap
        intro x hx gap hlt
        obtain ⟨y, hy, hyi⟩ := exists_accepted.mpr (h 0 (hcount ▸ hg.frags.1))
        obtain ⟨z, hz⟩ := List.length_eq_one_iff.mp
          (show (accepted packet arrivals).length = 1 by omega)
        rw [hz, List.mem_singleton] at hx hy
        subst hx
        subst hy
        have hyi' : gap < (packet y).index := hlt
        omega
  · intro ht
    obtain ⟨g', pool, hreorder, hg', hperm, hrange, -, -⟩ := hg.reorder ht.gapless
    refine ⟨g, r, hall, hr, fun _ => ⟨reorderFuel, g', pool, hreorder, hg'.headed, ?_, ?_⟩⟩
    · exact fun x hx => accepted_subset (hperm.mem_iff.mp hx)
    · exact (covers_iff_tiles hpos hperm hrange).mpr ht

theorem survives_of_not_complete (next : Buf → Option Buf) (hnd : arrivals.Nodup)
    (h : ¬Complete packet arrivals) : Survives packet next arrivals := by
  obtain ⟨g, hall, hg, hcount⟩ := insertAll_holds packet next hnd
  obtain ⟨r, hr, hiff⟩ := hg.reassembled
  refine ⟨g, r, hall, hr, fun htrue => absurd (fun i hi => ?_) h⟩
  exact exists_accepted.mp (hiff.mp htrue i (hcount ▸ hi))

/-- The packet in the buffer with the number `b` of those that have been received. -/
def received (packets : List Packet) (b : Buf) : Packet := packets.getD b ⟨fun _ => 0⟩

end IP

open IP

/-- A fragment of 1480 bytes; `hi` and `lo` have its flags and its offset. -/
def fragmentAt (hi lo : UInt8) : Packet :=
  ⟨.ofList [0x45, 0, 5, 220, 0, 7, hi, lo, 64, 0x11, 0, 0, 10, 0, 0, 1, 10, 0, 0, 9]⟩

end Epos
