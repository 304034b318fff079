import Epos.Network.Reassembly
import Epos.Spec.GatheringCorrect
import Epos.Spec.SimpleHashCorrect

/-!
# Where the buffers are

Every buffer has one holder: the NIC, a live `Fragmented` or an observer's pool. An
invariant names the holder of each buffer, and each part of `update` hands some buffers
over to another holder.
-/

namespace Epos

namespace IP

open Gathering (Holds)

/-! ## Links -/

/-- From every buffer on there is a chain of buffers that ends. -/
def Grounded (n : Nat) (next : Buf → Option Buf) : Prop :=
  ∀ b < n, ∃ l : List Buf, l.Chained next none ∧ l.head? = some b ∧ ∀ x ∈ l, x < n

section

variable {n fuel : Nat} {next next' : Buf → Option Buf} {l L : List Buf} {b : Buf}

theorem SameLinks.chained (h : SameLinks next next' L) (hl : l.Chained next none)
    (hdisj : ∀ x ∈ l, x ∉ L) : l.Chained next' none :=
  hl.congr fun x hx => h x (hdisj x hx)

/-- Links may be changed within a chain. -/
theorem Grounded.relink (h : Grounded n next) (hsame : SameLinks next next' L)
    (hL : L.Chained next' none) (hlt : ∀ x ∈ L, x < n) : Grounded n next' := by
  have hchain (l : List Buf) (hl : l.Chained next none) (hln : ∀ x ∈ l, x < n) :
      ∃ l' : List Buf, l'.Chained next' none ∧ l'.head? = l.head? ∧ ∀ x ∈ l', x < n := by
    induction l with
    | nil => exact ⟨[], trivial, rfl, by simp⟩
    | cons x xs ih =>
      by_cases hx : x ∈ L
      · -- from here on it is the chain that has been changed
        obtain ⟨as, bs, rfl⟩ := List.append_of_mem hx
        exact ⟨x :: bs, (List.chained_append.mp hL).2, rfl, fun y hy =>
          hlt y (List.mem_append_right as hy)⟩
      · obtain ⟨l', hl', hhead, hln'⟩ := ih hl.2 fun y hy => hln y (List.mem_cons_of_mem x hy)
        refine ⟨x :: l', ⟨?_, hl'⟩, rfl, fun y hy => ?_⟩
        · rw [hsame x hx, hl.1, hhead]
        · cases List.mem_cons.mp hy with
          | inl heq => exact hln y (heq ▸ List.mem_cons_self)
          | inr hy => exact hln' y hy
  intro b hb
  obtain ⟨l, hl, hhead, hln⟩ := h b hb
  obtain ⟨l', hl', hhead', hln'⟩ := hchain l hl hln
  exact ⟨l', hl', hhead'.trans hhead, hln'⟩

theorem length_le_of_chained (h : l.Chained next none) (hlt : ∀ x ∈ l, x < n) : l.length ≤ n := by
  have hsub : l ⊆ List.range n := fun x hx => List.mem_range.mpr (hlt x hx)
  have hle := (h.nodup.subperm hsub).length_le
  rwa [List.length_range] at hle

theorem freeFrom_eq (h : l.Chained next none) (hfuel : l.length ≤ fuel) (locked : Buf → Bool) :
    freeFrom next fuel l.head? locked = some fun b => if b ∈ l then false else locked b := by
  induction l generalizing fuel locked with
  | nil => simp [freeFrom]
  | cons x xs ih =>
    obtain ⟨n, rfl⟩ := Nat.exists_eq_succ_of_ne_zero (Nat.ne_of_gt (Nat.zero_lt_of_lt hfuel))
    have hnext : next x = xs.head? := by rw [h.1, Option.or_none]
    rw [List.head?_cons, freeFrom, hnext, ih h.2 (Nat.le_of_succ_le_succ hfuel)]
    congr 1
    funext b
    by_cases hb : b = x
    · simp [hb]
    · simp [hb]

end

/-! ## Holders -/

/-- Who has a buffer. -/
inductive Holder where
  | nic
  | frag (frag : Frag)
  | pool (head : Buf)
  deriving DecidableEq

/-- What `old` had goes to `new`. -/
def handOver (holder : Buf → Holder) (old new : Holder) : Buf → Holder := fun b =>
  if holder b = old then new else holder b

/-- Only `old` and `new` have lost or got buffers. -/
def Between (old new : Holder) (holder holder' : Buf → Holder) : Prop :=
  ∀ k, k ≠ old → k ≠ new → ∀ x, holder' x = k ↔ holder x = k

section

variable {holder : Buf → Holder} {old new : Holder} {b : Buf}

theorem between_update (hb : holder b = old) (new : Holder) :
    Between old new holder (Function.update holder b new) := by
  intro k hold hnew x
  by_cases hx : x = b
  · subst hx
    rw [Function.update_self, hb]
    exact ⟨fun heq => absurd heq.symm hnew, fun heq => absurd heq.symm hold⟩
  · rw [Function.update_of_ne hx]

theorem between_handOver (holder : Buf → Holder) (old new : Holder) :
    Between old new holder (handOver holder old new) := by
  intro k hold hnew x
  unfold handOver
  split
  · rename_i hx
    rw [hx]
    exact ⟨fun heq => absurd heq.symm hnew, fun heq => absurd heq.symm hold⟩
  · rfl

theorem handOver_ne (hne : new ≠ old) (x : Buf) : handOver holder old new x ≠ old := by
  unfold handOver
  split
  · exact hne
  · assumption

end

/-! ## Joining a `Fragmented` -/

/-- With the packet in, the index is taken. -/
def Fragmented.Takes (object : Fragmented) (packet : Packet) (i : Nat) : Prop :=
  object.bitmap.Has i ∨ i = packet.index

/-- Another packet has the index of none that has arrived, and does not complete a
    datagram that has a gap beyond its end. -/
def Fragmented.Joins (object : Fragmented) (packet : Packet) : Prop :=
  ¬object.bitmap.Has packet.index ∧
    ((∀ i < countWith packet object.frags, object.Takes packet i) →
      ∀ i, object.Takes packet i → ∀ j < i, object.Takes packet j)

/-- The first fragment joins. -/
theorem joins_init (packet : Packet) : ({} : Fragmented).Joins packet := by
  have hnot (i : Nat) : ¬({} : Fragmented).bitmap.Has i := Bitmap.not_has_init _ i
  have htakes (i : Nat) : ({} : Fragmented).Takes packet i ↔ i = packet.index :=
    or_iff_right (hnot i)
  have hpos := (countWith_bounds (p := packet) (Holds.init (fun _ => packet) fun _ => none).frags).1
  refine ⟨hnot _, fun hall i hi j hj => ?_⟩
  have hzero := (htakes 0).mp (hall 0 hpos)
  have hi' := (htakes i).mp hi
  omega

namespace Reassembly

variable {host : Host} {s s' : Reassembly} {holder : Buf → Holder} {b p : Buf} {f : Frag}
  {l : List Buf}

/-- The links, the objects and the pools agree with the holders of the buffers. -/
structure Held (host : Host) (s : Reassembly) (holder : Buf → Holder) : Prop where
  grounded : Grounded host.rxBufs s.next
  lt : ∀ b, holder b ≠ .nic → b < host.rxBufs
  frag : ∀ f object, s.frags f = some object → ∃ l,
    Holds { object with next := s.next } s.packet l ∧ ∀ b, b ∈ l ↔ holder b = .frag f
  no_frag : ∀ f, s.frags f = none → ∀ b, holder b ≠ .frag f
  pool : ∀ p ∈ s.passed, ∃ l : List Buf,
    l.Chained s.next none ∧ l.head? = some p ∧ ∀ b, b ∈ l ↔ holder b = .pool p
  no_pool : ∀ p, p ∉ s.passed → ∀ b, holder b ≠ .pool p
  passed_nodup : s.passed.Nodup
  table : ∃ L, s.reassembling.Represents L ∧ ∀ f, f ∈ L ↔ s.frags f ≠ none

/-- The unlocked buffers are those of the NIC. -/
def Locked (s : Reassembly) (holder : Buf → Holder) : Prop :=
  ∀ b, s.locked b = false ↔ holder b = .nic

/-- No live object has all its fragments. -/
def Incomplete (s : Reassembly) : Prop :=
  ∀ f object, s.frags f = some object → object.bitmap.full object.frags = some false

/-! ### Steps -/

/-- What buffers of the NIC hold does not matter. -/
theorem Held.receive (h : s.Held host holder) (hb : holder b = .nic) (packet : Packet)
    (locked : Buf → Bool) :
    Held host { s with packet := Function.update s.packet b packet, locked := locked } holder where
  grounded := h.grounded
  lt := h.lt
  frag f object hf := by
    obtain ⟨l, hl, hmem⟩ := h.frag f object hf
    refine ⟨l, hl.congr fun x hx => Function.update_of_ne ?_ _ _, hmem⟩
    rintro rfl
    rw [(hmem x).mp hx] at hb
    cases hb
  no_frag := h.no_frag
  pool := h.pool
  no_pool := h.no_pool
  passed_nodup := h.passed_nodup
  table := h.table

/-- A buffer without a `next` is passed to an observer. -/
theorem Held.pass (h : s.Held host holder) (hb : holder b = .nic) (hlt : b < host.rxBufs)
    (hnext : s.next b = none) :
    Held host { s with passed := b :: s.passed } (Function.update holder b (.pool b)) := by
  -- b is still with the network interface, so it was not passed on yet
  have hnew : b ∉ s.passed := by
    intro hmem
    obtain ⟨l, -, hhead, hl⟩ := h.pool b hmem
    rw [(hl b).mp (List.mem_of_mem_head? hhead)] at hb
    cases hb
  have hother := between_update hb (.pool b)
  refine ⟨h.grounded, fun x hx => ?_, fun f object hf => ?_, fun f hf x => ?_,
    fun p hp => ?_, fun p hp x => ?_, List.nodup_cons.mpr ⟨hnew, h.passed_nodup⟩, h.table⟩
  · -- the buffers are those of the host
    by_cases hxb : x = b
    · exact hxb ▸ hlt
    · rw [Function.update_of_ne hxb] at hx
      exact h.lt x hx
  · -- the fragments under reassembly keep their chains
    obtain ⟨l, hl, hmem⟩ := h.frag f object hf
    exact ⟨l, hl, fun x => (hmem x).trans (hother (.frag f) nofun nofun x).symm⟩
  · exact mt (hother (.frag f) nofun nofun x).mp (h.no_frag f hf x)
  · by_cases hpb : p = b
    · -- the buffer itself is a chain of its own
      subst hpb
      refine ⟨[p], ⟨hnext, trivial⟩, rfl, fun x => ?_⟩
      rw [List.mem_singleton]
      by_cases hx : x = p
      · simp [hx]
      · rw [Function.update_of_ne hx]
        exact iff_of_false hx (h.no_pool p hnew x)
    · -- those passed on before keep their chains
      obtain ⟨l, hl, hhead, hmem⟩ := h.pool p ((List.mem_cons.mp hp).resolve_left hpb)
      have hne : Holder.pool p ≠ .pool b := fun heq => hpb (Holder.pool.inj heq)
      exact ⟨l, hl, hhead, fun x => (hmem x).trans (hother (.pool p) nofun hne x).symm⟩
  · have hpb : p ≠ b := fun heq => hp (heq ▸ List.mem_cons_self)
    have hne : Holder.pool p ≠ .pool b := fun heq => hpb (Holder.pool.inj heq)
    exact mt (hother (.pool p) nofun hne x).mp (h.no_pool p (fun hmem => hp (List.mem_cons_of_mem b hmem)) x)

/-- A pool is no longer there. -/
theorem Held.release (h : s.Held host holder) (p : Buf) (locked : Buf → Bool) :
    Held host { s with passed := s.passed.erase p, locked := locked }
      (handOver holder (.pool p) .nic) := by
  have hother := between_handOver holder (.pool p) .nic
  refine ⟨h.grounded, fun x hx => h.lt x fun hnic => hx ?_, fun f object hf => ?_,
    fun f hf x => ?_, fun q hq => ?_, fun q hq x => ?_, h.passed_nodup.erase p, h.table⟩
  · unfold handOver
    rw [if_neg (by rw [hnic]; nofun), hnic]
  · obtain ⟨l, hl, hmem⟩ := h.frag f object hf
    exact ⟨l, hl, fun x => (hmem x).trans (hother (.frag f) nofun nofun x).symm⟩
  · exact mt (hother (.frag f) nofun nofun x).mp (h.no_frag f hf x)
  · obtain ⟨hqp, hq⟩ := h.passed_nodup.mem_erase_iff.mp hq
    obtain ⟨l, hl, hhead, hmem⟩ := h.pool q hq
    have hne : Holder.pool q ≠ .pool p := fun heq => hqp (Holder.pool.inj heq)
    exact ⟨l, hl, hhead, fun x => (hmem x).trans (hother (.pool q) hne nofun x).symm⟩
  · by_cases hqp : q = p
    · subst hqp
      exact handOver_ne (by nofun) x
    · have hne : Holder.pool q ≠ .pool p := fun heq => hqp (Holder.pool.inj heq)
      refine mt (hother (.pool q) hne nofun x).mp (h.no_pool q (fun hmem => hq ?_) x)
      exact h.passed_nodup.mem_erase_iff.mpr ⟨hqp, hmem⟩

/-- A new `Fragmented` has no buffers. -/
theorem Held.create (h : s.Held host holder) (hf : s.frags f = none) (key : Nat) :
    ∃ table, s.create f key = some
        { s with frags := Function.update s.frags f (some {}), reassembling := table } ∧
      Held host { s with frags := Function.update s.frags f (some {}), reassembling := table }
        holder := by
  obtain ⟨L, hL, hmem⟩ := h.table
  -- the table of datagrams under reassembly holds f from now on
  have hfL : f ∉ L := fun hin => (hmem f).mp hin hf
  obtain ⟨table, hins, htable, -⟩ := (hL.construct hfL key).insert hfL
  refine ⟨table, ?_, h.grounded, h.lt, fun f' object hf' => ?_, fun f' hf' b => ?_, h.pool,
    h.no_pool, h.passed_nodup, f :: L, htable, fun f' => ?_⟩
  · rw [Reassembly.create, hins, Option.map_some]
  · have hf' : Function.update s.frags f (some {}) f' = some object := hf'
    rw [Function.update_apply] at hf'
    split at hf'
    · rename_i heq
      cases hf'
      exact ⟨[], .init s.packet s.next, fun b =>
        iff_of_false List.not_mem_nil (heq ▸ h.no_frag f hf b)⟩
    · exact h.frag f' object hf'
  · have hf' : Function.update s.frags f (some {}) f' = none := hf'
    rw [Function.update_apply] at hf'
    split at hf'
    · cases hf'
    · exact h.no_frag f' hf' b
  · show f' ∈ f :: L ↔ Function.update s.frags f (some {}) f' ≠ none
    rw [List.mem_cons, hmem, Function.update_apply]
    split
    · rename_i heq
      exact iff_of_true (.inl heq) nofun
    · rename_i heq
      exact or_iff_right heq

/-- A buffer joins the list of a `Fragmented` that has none with its index. -/
theorem Held.insert {object : Fragmented} (h : s.Held host holder)
    (hf : s.frags f = some object) (hb : holder b = .nic) (hlt : b < host.rxBufs)
    (hfresh : ¬object.bitmap.Has (s.packet b).index) :
    ∃ g l, Gathering.insert { object with next := s.next } s.packet b = some g ∧
      g.Holds s.packet l ∧ b ∈ l ∧ (∀ x, x ∈ l ↔ Function.update holder b (.frag f) x = .frag f) ∧
      g.frags = countWith (s.packet b) object.frags ∧
      (∀ i, g.bitmap.Has i ↔ object.bitmap.Has i ∨ i = (s.packet b).index) ∧
      Held host { s with
        next := g.next
        frags := Function.update s.frags f (some g.toFragmented) }
        (Function.update holder b (.frag f)) := by
  obtain ⟨l, hl, hmem⟩ := h.frag f object hf
  have hbl : b ∉ l := fun hin => by cases hb.symm.trans ((hmem b).mp hin)
  obtain ⟨g, hins, hg, hcount, hsame⟩ := hl.insert hbl
  have hnot : ¬∃ x ∈ l, (s.packet x).index = (s.packet b).index := mt (hl.has_iff _).mpr hfresh
  rw [accept, if_neg hnot] at hg
  have hother := between_update hb (.frag f)
  have hmem' (x : Buf) : x ∈ l ++ [b] ↔ Function.update holder b (.frag f) x = .frag f := by
    rw [List.mem_append, List.mem_singleton, hmem, Function.update_apply]
    split
    · rename_i hx
      exact iff_of_true (.inr hx) rfl
    · rename_i hx
      exact or_iff_left hx
  have hlt' (x : Buf) (hx : x ∈ l ++ [b]) : x < host.rxBufs := by
    cases List.mem_append.mp hx with
    | inl hx => exact h.lt x (by rw [(hmem x).mp hx]; nofun)
    | inr hx => exact List.mem_singleton.mp hx ▸ hlt
  have hsame' : SameLinks s.next g.next (l ++ [b]) := by
    intro x hx
    refine hsame x fun hin => hx ?_
    rw [List.mem_append, List.mem_singleton]
    exact (List.mem_cons.mp hin).symm
  -- who else has buffers has none of the list
  have hdisj {k : Holder} (hk : k ≠ .frag f) {l' : List Buf}
      (hl' : ∀ x, x ∈ l' ↔ Function.update holder b (.frag f) x = k) :
      ∀ x ∈ l', x ∉ l ++ [b] := by
    intro x hx hin
    exact hk (((hl' x).mp hx).symm.trans ((hmem' x).mp hin))
  refine ⟨g, l ++ [b], hins, hg, by simp, hmem', hcount, fun i => ?_,
    h.grounded.relink hsame' hg.headed.chained hlt', fun x hx => ?_, fun f' object' hf' => ?_,
    fun f' hf' x => ?_, fun p hp => ?_, fun p hp x => ?_, h.passed_nodup, ?_⟩
  · rw [hg.has_iff, hl.has_iff]
    simp only [List.mem_append, List.mem_singleton]
    constructor
    · rintro ⟨x, hx | rfl, hxi⟩
      · exact .inl ⟨x, hx, hxi⟩
      · exact .inr hxi.symm
    · rintro (⟨x, hx, hxi⟩ | rfl)
      · exact ⟨x, .inl hx, hxi⟩
      · exact ⟨b, .inr rfl, rfl⟩
  · rw [Function.update_apply] at hx
    split at hx
    · rename_i hxb
      exact hxb ▸ hlt
    · exact h.lt x hx
  · have hf' : Function.update s.frags f (some g.toFragmented) f' = some object' := hf'
    rw [Function.update_apply] at hf'
    split at hf'
    · rename_i heq
      cases hf'
      exact ⟨l ++ [b], hg, heq ▸ hmem'⟩
    · rename_i heq
      obtain ⟨l', hl', hmem''⟩ := h.frag f' object' hf'
      have hne : Holder.frag f' ≠ .frag f := fun hhf => heq (Holder.frag.inj hhf)
      have hl'' (x : Buf) := (hmem'' x).trans (hother (.frag f') nofun hne x).symm
      refine ⟨l', hl'.relink fun x hx => hsame' x (hdisj hne hl'' x hx), hl''⟩
  · have hf' : Function.update s.frags f (some g.toFragmented) f' = none := hf'
    rw [Function.update_apply] at hf'
    split at hf'
    · cases hf'
    · rename_i heq
      have hne : Holder.frag f' ≠ .frag f := fun hhf => heq (Holder.frag.inj hhf)
      exact mt (hother (.frag f') nofun hne x).mp (h.no_frag f' hf' x)
  · obtain ⟨l', hl', hhead, hmem''⟩ := h.pool p hp
    have hl'' (x : Buf) := (hmem'' x).trans (hother (.pool p) nofun nofun x).symm
    exact ⟨l', hsame'.chained hl' (hdisj (by nofun) hl''), hhead, hl''⟩
  · exact mt (hother (.pool p) nofun nofun x).mp (h.no_pool p hp x)
  · obtain ⟨L, hL, hLmem⟩ := h.table
    refine ⟨L, hL, fun f' => (hLmem f').trans ?_⟩
    show s.frags f' ≠ none ↔ Function.update s.frags f (some g.toFragmented) f' ≠ none
    rw [Function.update_apply]
    split
    · rename_i heq
      exact iff_of_true (by rw [heq, hf]; nofun) nofun
    · rfl

/-- A complete `Fragmented` becomes a pool. -/
theorem Held.finish {object : Fragmented} (h : s.Held host holder)
    (hf : s.frags f = some object) (hl : Holds { object with next := s.next } s.packet l)
    (hmem : ∀ x, x ∈ l ↔ holder x = .frag f) (hne : l ≠ [])
    (hgap : l.Gapless fun x => (s.packet x).index) :
    ∃ g p table, Gathering.reorder { object with next := s.next } s.packet = some g ∧
      g.list.head = some p ∧ s.reassembling.remove f = some table ∧
      Held host { s with
        next := g.next
        frags := Function.update s.frags f none
        reassembling := table
        passed := p :: s.passed }
        (handOver holder (.frag f) (.pool p)) := by
  obtain ⟨g, pool, hreorder, hg, hperm, -, -, hsame⟩ := hl.reorder hgap
  -- the head of the sorted buffers names the pool
  obtain ⟨p, hp⟩ : ∃ p, pool.head? = some p := by
    cases pool with
    | nil => exact absurd hperm.nil_eq.symm hne
    | cons x xs => exact ⟨x, rfl⟩
  obtain ⟨L, hL, hLmem⟩ := h.table
  have hfL : f ∈ L := (hLmem f).mpr (by rw [hf]; nofun)
  obtain ⟨table, hremove, htable, -⟩ := hL.remove hfL
  have hpl : holder p = .frag f := (hmem p).mp (hperm.mem_iff.mp (List.mem_of_mem_head? hp))
  -- `p` was of the `Fragmented`, so it names no pool yet
  have hnew : p ∉ s.passed := by
    intro hin
    obtain ⟨l', -, hhead, hmem'⟩ := h.pool p hin
    cases hpl.symm.trans ((hmem' p).mp (List.mem_of_mem_head? hhead))
  have hother := between_handOver holder (.frag f) (.pool p)
  -- the chains of the other holders share no buffer with this one, so they stay
  have hdisj {k : Holder} (hk : k ≠ .frag f) {l' : List Buf} (hl' : ∀ x, x ∈ l' ↔ holder x = k) :
      ∀ x ∈ l', x ∉ l := fun x hx hin =>
    hk (((hl' x).mp hx).symm.trans ((hmem x).mp hin))
  have hlt (x : Buf) (hx : x ∈ pool) : x < host.rxBufs :=
    h.lt x (by rw [(hmem x).mp (hperm.mem_iff.mp hx)]; nofun)
  have hsame' : SameLinks s.next g.next pool := fun x hx => hsame x (mt hperm.mem_iff.mpr hx)
  refine ⟨g, p, table, hreorder, hg.headed.head.trans hp, hremove,
    h.grounded.relink hsame' hg.headed.chained hlt, fun x hx => ?_, fun f' object' hf' => ?_,
    fun f' hf' x => ?_, fun q hq => ?_, fun q hq x => ?_,
    List.nodup_cons.mpr ⟨hnew, h.passed_nodup⟩, L.erase f, htable, fun f' => ?_⟩
  · refine h.lt x fun hnic => hx ?_
    unfold handOver
    rw [if_neg (by rw [hnic]; nofun), hnic]
  · have hf' : Function.update s.frags f none f' = some object' := hf'
    rw [Function.update_apply] at hf'
    split at hf'
    · cases hf'
    · rename_i heq
      obtain ⟨l', hl', hmem'⟩ := h.frag f' object' hf'
      have hne' : Holder.frag f' ≠ .frag f := fun hhf => heq (Holder.frag.inj hhf)
      refine ⟨l', hl'.relink fun x hx => hsame x (hdisj hne' hmem' x hx), fun x => ?_⟩
      exact (hmem' x).trans (hother (.frag f') hne' nofun x).symm
  · by_cases heq : f' = f
    · subst heq
      exact handOver_ne (by nofun) x
    · have hne' : Holder.frag f' ≠ .frag f := fun hhf => heq (Holder.frag.inj hhf)
      have hf'' : s.frags f' = none := (Function.update_of_ne heq _ _).symm.trans hf'
      exact mt (hother (.frag f') hne' nofun x).mp (h.no_frag f' hf'' x)
  · by_cases hqp : q = p
    · subst hqp
      refine ⟨pool, hg.headed.chained, hp, fun x => ?_⟩
      rw [hperm.mem_iff, hmem]
      unfold handOver
      split
      · rename_i hx
        exact iff_of_true hx rfl
      · rename_i hx
        exact iff_of_false hx (h.no_pool q hnew x)
    · obtain ⟨l', hl', hhead, hmem'⟩ := h.pool q ((List.mem_cons.mp hq).resolve_left hqp)
      have hne' : Holder.pool q ≠ .pool p := fun hhq => hqp (Holder.pool.inj hhq)
      refine ⟨l', hl'.congr fun x hx => hsame x (hdisj (by nofun) hmem' x hx), hhead, fun x => ?_⟩
      exact (hmem' x).trans (hother (.pool q) nofun hne' x).symm
  · have hqp : q ≠ p := fun heq => hq (heq ▸ List.mem_cons_self)
    have hne' : Holder.pool q ≠ .pool p := fun hhq => hqp (Holder.pool.inj hhq)
    refine mt (hother (.pool q) nofun hne' x).mp (h.no_pool q (fun hin => hq ?_) x)
    exact List.mem_cons_of_mem p hin
  · show f' ∈ L.erase f ↔ Function.update s.frags f none f' ≠ none
    rw [hL.nodup.mem_erase_iff, hLmem, Function.update_apply]
    split
    · rename_i heq
      exact iff_of_false (fun hin => hin.1 heq) (not_not.mpr rfl)
    · rename_i heq
      exact and_iff_right heq

/-- The pool of an observer goes back to the NIC. -/
theorem Held.free (h : s.Held host holder) (hlocked : s.Locked holder) (hp : p ∈ s.passed) :
    ∃ locked, ({ s with passed := s.passed.erase p } : Reassembly).free host p =
        some { s with passed := s.passed.erase p, locked := locked } ∧
      Held host { s with passed := s.passed.erase p, locked := locked }
        (handOver holder (.pool p) .nic) ∧
      ∀ b, locked b = false ↔ handOver holder (.pool p) .nic b = .nic := by
  obtain ⟨l, hl, hhead, hmem⟩ := h.pool p hp
  have hlt (x : Buf) (hx : x ∈ l) : x < host.rxBufs :=
    h.lt x (by rw [(hmem x).mp hx]; nofun)
  have hfree := freeFrom_eq hl (length_le_of_chained hl hlt) s.locked
  rw [hhead] at hfree
  refine ⟨fun b => if b ∈ l then false else s.locked b, ?_, h.release p _, fun b => ?_⟩
  · unfold Reassembly.free
    rw [hfree, Option.map_some]
  · show (if b ∈ l then false else s.locked b) = false ↔ _
    unfold handOver
    by_cases hb : b ∈ l
    · rw [if_pos hb, if_pos ((hmem b).mp hb)]
      exact iff_of_true rfl rfl
    · rw [if_neg hb, if_neg (mt (hmem b).mpr hb)]
      exact hlocked b

/-- A pool is passed to an observer or freed. -/
theorem Held.deliver (h : Held host { s with passed := p :: s.passed } holder)
    (hlocked : s.Locked holder) (prot : UInt8) :
    ∃ s' holder', s.deliver host prot p = some s' ∧ s'.Held host holder' ∧ s'.Locked holder' ∧
      s'.frags = s.frags := by
  unfold Reassembly.deliver
  by_cases hon : s.listening prot = true
  · rw [if_pos hon]
    exact ⟨_, holder, rfl, h, hlocked, rfl⟩
  · obtain ⟨locked, hfree, hheld, hlocked'⟩ := h.free hlocked List.mem_cons_self
    rw [List.erase_cons_head] at hfree hheld
    rw [if_neg hon]
    exact ⟨_, _, hfree, hheld, hlocked', rfl⟩

/-- A buffer joins a `Fragmented`, which is passed on if that completes it and stays
    otherwise. -/
theorem Held.gather {object : Fragmented} (h : s.Held host holder)
    (hlocked : ∀ x, s.locked x = false ↔ holder x = .nic ∧ x ≠ b) (hinc : s.Incomplete)
    (hf : s.frags f = some object) (hb : holder b = .nic) (hlt : b < host.rxBufs)
    (hjoin : object.Joins (s.packet b)) :
    ∃ s' holder', s.gather host f b = some s' ∧
      (s'.Held host holder' ∧ s'.Locked holder' ∧ s'.Incomplete) ∧
      ((∀ i < countWith (s.packet b) object.frags, object.Takes (s.packet b) i) ∨
        s'.frags f ≠ none) := by
  obtain ⟨g, l, hins, hg, hbl, hmem, hcount, hhas, hheld⟩ := h.insert hf hb hlt hjoin.1
  obtain ⟨r, hr, hrtrue⟩ := hg.reassembled
  have hlocked' (x : Buf) :
      s.locked x = false ↔ Function.update holder b (.frag f) x = .nic := by
    rw [hlocked, Function.update_apply]
    split
    · rename_i hx
      exact iff_of_false (fun hand => hand.2 hx) nofun
    · rename_i hx
      exact and_iff_left hx
  -- the bitmap says which fragments are in the list
  have htakes (i : Nat) : object.Takes (s.packet b) i ↔ ∃ x ∈ l, (s.packet x).index = i := by
    rw [← hg.has_iff, hhas]
    rfl
  unfold Reassembly.gather
  simp only [hf, Option.bind_eq_bind, Option.bind_some, hins, hr]
  cases r with
  | false =>
    rw [if_neg Bool.false_ne_true]
    have hself : Function.update s.frags f (some g.toFragmented) f ≠ none := by
      rw [Function.update_self]
      nofun
    refine ⟨_, _, rfl, ⟨hheld, hlocked', fun f' object' hf' => ?_⟩, .inr hself⟩
    have hf' : Function.update s.frags f (some g.toFragmented) f' = some object' := hf'
    rw [Function.update_apply] at hf'
    split at hf'
    · cases hf'
      exact hr
    · exact hinc f' object' hf'
  | true =>
    have hall (i : Nat) (hi : i < countWith (s.packet b) object.frags) :
        object.Takes (s.packet b) i :=
      (htakes i).mpr (hrtrue.mp rfl i (hcount.symm ▸ hi))
    -- all offsets up to the count have arrived, so `reorder` finds each in its turn
    have hgap : l.Gapless fun x => (s.packet x).index := by
      intro x hx j hj
      exact (htakes j).mp (hjoin.2 hall _ ((htakes _).mpr ⟨x, hx, rfl⟩) j hj)
    have hself : Function.update s.frags f (some g.toFragmented) f = some g.toFragmented :=
      Function.update_self _ _ _
    obtain ⟨g', p, table, hreorder, hp, hremove, hheld'⟩ :=
      hheld.finish hself hg hmem (List.ne_nil_of_mem hbl) hgap
    have hreorder : g.reorder s.packet = some g' := hreorder
    have hremove : s.reassembling.remove f = some table := hremove
    simp only [if_true, hreorder, hp, hremove, Option.bind_some]
    rw [Function.update_idem] at hheld'
    -- a buffer that goes from the `Fragmented` to the pool is not with the NIC
    have hlocked'' (x : Buf) : s.locked x = false ↔
        handOver (Function.update holder b (.frag f)) (.frag f) (.pool p) x = .nic :=
      (hlocked' x).trans (between_handOver _ (.frag f) (.pool p) .nic nofun nofun x).symm
    obtain ⟨s', holder', hdeliver, hs', hlocked', hfrags⟩ := Held.deliver
      (s := { s with
        next := g'.next
        frags := Function.update s.frags f none
        reassembling := table })
      hheld' hlocked'' (s.packet b).protocol
    refine ⟨s', holder', hdeliver, ⟨hs', hlocked', fun f' object' hf' => ?_⟩, .inl hall⟩
    have hf' : Function.update s.frags f none f' = some object' :=
      (congrFun hfrags f').symm.trans hf'
    rw [Function.update_apply] at hf'
    split at hf'
    · cases hf'
    · exact hinc f' object' hf'

end Reassembly

end IP

end Epos
