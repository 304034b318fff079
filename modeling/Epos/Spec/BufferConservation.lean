import Epos.Spec.ReassemblyCorrect
import Epos.Spec.ReassemblyKeys

/-!
# Conservation of the buffers

Each buffer is with the NIC, in one list or in a pool, as long as no fragment comes
twice, no alarm goes off, no datagram is complete with a gap beyond its end and a buffer
that is freed or passed on by itself leads to no other one. `insert` forgets a duplicate
without freeing it, `timeout` leaves the table as it is, and `free` follows the links
that a buffer has from its last pool.
-/

namespace Epos

namespace IP

namespace Reassembly

/-- The buffer is in the list of the object. -/
def Linked (s : Reassembly) (frag : Frag) (buf : Buf) : Prop :=
  ∃ object, s.frags frag = some object ∧ List.ChainHas s.next object.list.head buf

/-- An observer has been passed the buffer. -/
def Passed (s : Reassembly) (buf : Buf) : Prop :=
  ∃ pool ∈ s.passed, List.ChainHas s.next (some pool) buf

/-- The buffer is in exactly one of the three conditions. -/
def Placed (s : Reassembly) (buf : Buf) : Prop :=
  (s.locked buf = false ∧ (∀ frag, ¬s.Linked frag buf) ∧ ¬s.Passed buf) ∨
    (s.locked buf = true ∧ (∃! frag, s.Linked frag buf) ∧ ¬s.Passed buf) ∨
      (s.locked buf = true ∧ (∀ frag, ¬s.Linked frag buf) ∧ s.Passed buf)

/-- Every buffer is in one condition, and the table has the live objects that are not
    complete. -/
def Conserved (host : Host) (s : Reassembly) : Prop :=
  (∀ buf < host.rxBufs, s.Placed buf) ∧
    ∀ frag, s.reassembling.Contains frag ↔
      ∃ object, s.frags frag = some object ∧ object.bitmap.full object.frags ≠ some true

/-- The links of a buffer that `free` is called for lead to buffers of the NIC only. -/
def FreesAlone (s : Reassembly) (buf : Buf) : Prop :=
  ∀ x, List.ChainHas s.next (s.next buf) x → s.locked x = false

/-- No alarm goes off, a fragment joins the object with its key, and other packets come in
    buffers that lead to no other. -/
def Harmless (host : Host) (s : Reassembly) : ReassemblyAction → Prop
  | .frame buf packet _ =>
    if host.refuses packet then s.FreesAlone buf
    else if packet.fragmented then
      ∀ frag object, s.frags frag = some object →
        s.reassembling.key frag = key host.netmask packet → object.Joins packet
    else if s.listening packet.protocol then s.next buf = none
    else s.FreesAlone buf
  | .timeout _ => False
  | .free _ | .listen _ _ => True

variable {host : Host} {s s' : Reassembly} {holder : Buf → Holder} {b : Buf} {f : Frag}

/-! ## The invariant -/

def Kept (host : Host) (s : Reassembly) : Prop :=
  ∃ holder, s.Held host holder ∧ s.Locked holder ∧ s.Incomplete

/-- A buffer is linked where a fragment list holds it. -/
theorem Held.linked_iff (h : s.Held host holder) : s.Linked f b ↔ holder b = .frag f := by
  constructor
  · intro ⟨object, hf, hb⟩
    obtain ⟨l, hl, hmem⟩ := h.frag f object hf
    have hhead : object.list.head = l.head? := hl.headed.head
    rw [hhead] at hb
    exact (hmem b).mp (hl.headed.chained.chainHas_iff.mp hb)
  · intro hb
    cases hf : s.frags f with
    | none => exact absurd hb (h.no_frag f hf b)
    | some object =>
      obtain ⟨l, hl, hmem⟩ := h.frag f object hf
      have hhead : object.list.head = l.head? := hl.headed.head
      refine ⟨object, hf, ?_⟩
      rw [hhead]
      exact hl.headed.chained.chainHas_iff.mpr ((hmem b).mpr hb)

/-- A buffer was passed on where a pool holds it. -/
theorem Held.passed_iff (h : s.Held host holder) : s.Passed b ↔ ∃ p, holder b = .pool p := by
  constructor
  · intro ⟨p, hp, hb⟩
    obtain ⟨l, hl, hhead, hmem⟩ := h.pool p hp
    rw [← hhead] at hb
    exact ⟨p, (hmem b).mp (hl.chainHas_iff.mp hb)⟩
  · intro ⟨p, hb⟩
    have hp : p ∈ s.passed := by_contra fun hnot => h.no_pool p hnot b hb
    obtain ⟨l, hl, hhead, hmem⟩ := h.pool p hp
    refine ⟨p, hp, ?_⟩
    rw [← hhead]
    exact hl.chainHas_iff.mpr ((hmem b).mpr hb)

/-- The invariant gives what is claimed of every state. -/
theorem Kept.conserved (h : s.Kept host) : s.Conserved host := by
  obtain ⟨holder, hheld, hlocked, hinc⟩ := h
  refine ⟨fun b _ => ?_, fun f => ?_⟩
  · unfold Placed
    simp only [hheld.linked_iff, hheld.passed_iff, ← Bool.not_eq_false (s.locked b), hlocked b]
    cases holder b with
    | nic => simp
    | frag f => simp
    | pool p => simp
  · obtain ⟨L, hL, hmem⟩ := hheld.table
    rw [hL.contains_iff, hmem, Option.ne_none_iff_exists']
    refine exists_congr fun object => ⟨fun hf => ⟨hf, ?_⟩, And.left⟩
    rw [hinc f object hf]
    simp

/-- A buffer that leads to buffers of the NIC only goes back to the NIC alone. -/
theorem Held.drop (h : s.Held host holder) (hlocked : s.Locked holder) (hb : s.locked b = false)
    (hlt : b < host.rxBufs) (halone : s.FreesAlone b) (packet : Packet) :
    ∃ locked, ({ s with
        packet := Function.update s.packet b packet
        locked := Function.update s.locked b true } : Reassembly).free host b =
          some { s with packet := Function.update s.packet b packet, locked := locked } ∧
      ∀ x, locked x = false ↔ holder x = .nic := by
  obtain ⟨l, hl, hhead, hln⟩ := h.grounded b hlt
  have hfree := freeFrom_eq hl (length_le_of_chained hl hln) (Function.update s.locked b true)
  -- the chain from `b` is `b` itself, which is not locked before, and buffers that are free alone
  have hunlocked (x : Buf) (hx : x ∈ l) : s.locked x = false := by
    cases l with
    | nil => cases hx
    | cons y ys =>
      cases hhead
      cases List.mem_cons.mp hx with
      | inl heq => exact heq ▸ hb
      | inr hx =>
        have hnext : s.next b = ys.head? := by rw [hl.1, Option.or_none]
        exact halone x (hnext ▸ hl.2.chainHas_iff.mpr hx)
  rw [hhead] at hfree
  refine ⟨fun x => if x ∈ l then false else Function.update s.locked b true x, ?_, fun x => ?_⟩
  · unfold Reassembly.free
    rw [hfree, Option.map_some]
  · show (if x ∈ l then false else Function.update s.locked b true x) = false ↔ _
    rw [← hlocked x]
    split
    · rename_i hx
      exact iff_of_true rfl (hunlocked x hx)
    · rename_i hx
      have hxb : x ≠ b := fun heq => hx (heq ▸ List.mem_of_mem_head? hhead)
      rw [Function.update_of_ne hxb]

/-! ## Steps -/

/-- A received buffer is locked. -/
theorem Locked.receive (h : s.Locked holder) (b x : Buf) :
    Function.update s.locked b true x = false ↔ holder x = .nic ∧ x ≠ b := by
  rw [Function.update_apply, ← h x]
  split
  · rename_i hx
    exact iff_of_false nofun fun hand => hand.2 hx
  · rename_i hx
    exact (and_iff_left hx).symm

/-- A new object takes any fragment. -/
theorem Held.first (h : s.Held host holder)
    (hlocked : ∀ x, s.locked x = false ↔ holder x = .nic ∧ x ≠ b) (hinc : s.Incomplete)
    (hf : s.frags f = none) (hb : holder b = .nic) (hlt : b < host.rxBufs) (key : Nat) :
    ∃ s' holder', ((s.create f key).bind fun s => s.gather host f b) = some s' ∧
      (s'.Held host holder' ∧ s'.Locked holder' ∧ s'.Incomplete) ∧
      ((∀ i < countWith (s.packet b) maxFragments, i = (s.packet b).index) ∨
        s'.frags f ≠ none) := by
  obtain ⟨table, hcreate, hheld⟩ := h.create hf key
  have hnew : Function.update s.frags f (some {}) f = some {} := Function.update_self _ _ _
  have hinc' : Incomplete { s with
      frags := Function.update s.frags f (some {})
      reassembling := table } := by
    intro f' object hf'
    have hf' : Function.update s.frags f (some {}) f' = some object := hf'
    rw [Function.update_apply] at hf'
    split at hf'
    · cases hf'
      decide
    · exact hinc f' object hf'
  obtain ⟨s', holder', hgather, hkept, hstays⟩ :=
    hheld.gather hlocked hinc' hnew hb hlt (joins_init _)
  rw [hcreate, Option.bind_some]
  refine ⟨s', holder', hgather, hkept, hstays.imp_left fun hall i hi => ?_⟩
  exact (hall i hi).resolve_left (Bitmap.not_has_init _ i)

/-- A frame that does no harm keeps the invariant. -/
theorem Kept.frame (h : s.Kept host) {packet : Packet} (hlt : b < host.rxBufs)
    (hb : s.locked b = false) (hf : s.frags f = none)
    (hharm : s.Harmless host (.frame b packet f)) :
    ∃ s', s.step host (.frame b packet f) = some s' ∧ s'.Kept host := by
  obtain ⟨holder, hheld, hlocked, hinc⟩ := h
  have hnic : holder b = .nic := (hlocked b).mp hb
  have hreceive := hheld.receive hnic packet (Function.update s.locked b true)
  have hlocked' := hlocked.receive b
  have hpacket : Function.update s.packet b packet b = packet := Function.update_self _ _ _
  -- a buffer that is not wanted goes back alone
  have hdrop (halone : s.FreesAlone b) : ∃ s', ({ s with
      packet := Function.update s.packet b packet
      locked := Function.update s.locked b true } : Reassembly).free host b = some s' ∧
        s'.Kept host := by
    obtain ⟨locked, hfree, hlocked''⟩ := hheld.drop hlocked hb hlt halone packet
    exact ⟨_, hfree, holder, hheld.receive hnic packet locked, hlocked'', hinc⟩
  unfold Reassembly.step Reassembly.update
  simp only [hpacket]
  simp only [Harmless] at hharm
  by_cases hrefuses : host.refuses packet = true
  · rw [if_pos hrefuses] at hharm ⊢
    exact hdrop hharm
  · rw [if_neg hrefuses] at hharm ⊢
    by_cases hfragmented : packet.fragmented = true
    · rw [if_pos hfragmented] at hharm ⊢
      obtain ⟨L, hL, hmem⟩ := hheld.table
      obtain ⟨r, hr, hfound, -⟩ := hL.searchKey (key host.netmask packet)
      simp only [hr, Option.bind_eq_bind, Option.bind_some]
      cases r with
      | some el =>
        obtain ⟨hel, hkey⟩ := hfound el rfl
        obtain ⟨object, hobject⟩ := Option.ne_none_iff_exists'.mp ((hmem el).mp hel)
        have hjoin := hharm el object hobject hkey
        rw [← hpacket] at hjoin
        obtain ⟨s', holder', hgather, hkept, -⟩ :=
          hreceive.gather hlocked' hinc hobject hnic hlt hjoin
        exact ⟨s', hgather, holder', hkept⟩
      | none =>
        obtain ⟨s', holder', hfirst, hkept, -⟩ :=
          hreceive.first hlocked' hinc hf hnic hlt (key host.netmask packet)
        exact ⟨s', hfirst, holder', hkept⟩
    · rw [if_neg hfragmented] at hharm ⊢
      unfold Reassembly.deliver
      by_cases hon : s.listening packet.protocol = true
      · rw [if_pos hon] at hharm ⊢
        refine ⟨_, rfl, Function.update holder b (.pool b), hreceive.pass hnic hlt hharm,
          fun x => ?_, hinc⟩
        rw [hlocked', Function.update_apply]
        split
        · rename_i hx
          exact iff_of_false (fun hand => hand.2 hx) nofun
        · rename_i hx
          exact and_iff_left hx
      · rw [if_neg hon] at hharm ⊢
        exact hdrop hharm

/-- Every step that does no harm keeps the invariant. -/
theorem Kept.step (h : s.Kept host) {a : ReassemblyAction} (hen : s.Enabled host a)
    (hharm : s.Harmless host a) : ∃ s', s.step host a = some s' ∧ s'.Kept host := by
  cases a with
  | frame buf packet frag => exact h.frame hen.1 hen.2.1 hen.2.2 hharm
  | timeout frag => exact hharm.elim
  | free pool =>
    obtain ⟨holder, hheld, hlocked, hinc⟩ := h
    obtain ⟨locked, hfree, hheld', hlocked'⟩ := hheld.free hlocked hen
    exact ⟨_, hfree, _, hheld', hlocked', hinc⟩
  | listen prot on =>
    obtain ⟨holder, hheld, hlocked, hinc⟩ := h
    exact ⟨_, rfl, holder, ⟨hheld.grounded, hheld.lt, hheld.frag, hheld.no_frag, hheld.pool,
      hheld.no_pool, hheld.passed_nodup, hheld.table⟩, hlocked, hinc⟩

/-- The invariant holds at the beginning. -/
theorem kept_init {σ : Option Reassembly} (h : (reassembly host).Init σ) :
    ∃ s, σ = some s ∧ s.Kept host := by
  obtain ⟨packet, next, rank, listening, rfl⟩ := h
  refine ⟨_, rfl, fun _ => .nic, ⟨fun b hb => ?_, fun b hb => absurd rfl hb,
    fun f object hf => ?_, fun f hf b => nofun, fun p hp => ?_, fun p hp b => nofun,
    List.nodup_nil, [], SimpleHash.represents_init host.nodes_pos next rank, fun f => ?_⟩,
    fun b => ⟨fun _ => rfl, fun _ => rfl⟩, fun f object hf => ?_⟩
  · exact ⟨[b], ⟨rfl, trivial⟩, rfl, by simpa using hb⟩
  · cases hf
  · cases hp
  · exact iff_of_false List.not_mem_nil (not_not.mpr rfl)
  · cases hf

/-- An object that is gone stays in the table. -/
theorem Kept.timeout (h : s.Kept host) (hf : s.frags f ≠ none)
    (hs : s.timeout host f = some s') : ¬s'.Conserved host := by
  intro hconserved
  unfold Reassembly.timeout at hs
  obtain ⟨object, hobject, hs⟩ := Option.bind_eq_some_iff.mp hs
  obtain ⟨p, -, hs⟩ := Option.bind_eq_some_iff.mp hs
  obtain ⟨s₁, hfree, hs⟩ := Option.bind_eq_some_iff.mp hs
  obtain ⟨locked, -, rfl⟩ := Option.map_eq_some_iff.mp hfree
  cases hs
  have hin : s.reassembling.Contains f := by
    obtain ⟨holder, hheld, -, -⟩ := h
    obtain ⟨L, hL, hmem⟩ := hheld.table
    exact hL.contains_iff.mpr ((hmem f).mpr hf)
  obtain ⟨object', hobject', -⟩ := (hconserved.2 f).mp hin
  cases (Function.update_self f none s.frags).symm.trans hobject'

/-! ## The objects that a frame leaves as they are -/

/-- Buffers go back to the NIC without the objects. -/
theorem free_frags (hs : s.free host b = some s') : s'.frags = s.frags := by
  obtain ⟨locked, -, rfl⟩ := Option.map_eq_some_iff.mp hs
  rfl

/-- A pool goes to an observer or back. -/
theorem deliver_frags {prot : UInt8} (hs : s.deliver host prot b = some s') :
    s'.frags = s.frags := by
  unfold Reassembly.deliver at hs
  split at hs
  · cases hs
    rfl
  · exact free_frags hs

/-- A fragment makes no other object live. -/
theorem gather_frags {el : Frag} (hs : s.gather host el b = some s') (hf : s.frags f = none) :
    s'.frags f = none := by
  unfold Reassembly.gather at hs
  obtain ⟨object, hobject, hs⟩ := Option.bind_eq_some_iff.mp hs
  have hne : f ≠ el := by
    intro heq
    rw [← heq, hf] at hobject
    cases hobject
  obtain ⟨g, -, hs⟩ := Option.bind_eq_some_iff.mp hs
  obtain ⟨r, -, hs⟩ := Option.bind_eq_some_iff.mp hs
  split at hs
  · obtain ⟨g', -, hs⟩ := Option.bind_eq_some_iff.mp hs
    obtain ⟨pool, -, hs⟩ := Option.bind_eq_some_iff.mp hs
    obtain ⟨table, -, hs⟩ := Option.bind_eq_some_iff.mp hs
    rw [deliver_frags hs]
    exact (Function.update_of_ne hne ..).trans hf
  · cases hs
    exact (Function.update_of_ne hne ..).trans hf

/-- A frame makes at most the new object live. -/
theorem frame_frags {packet : Packet} {el : Frag} (hs : s.step host (.frame b packet el) = some s')
    (hne : f ≠ el) (hf : s.frags f = none) : s'.frags f = none := by
  unfold Reassembly.step Reassembly.update at hs
  simp only at hs
  split at hs
  · rw [free_frags hs]
    exact hf
  split at hs
  · obtain ⟨r, -, hs⟩ := Option.bind_eq_some_iff.mp hs
    cases r with
    | some old => exact gather_frags hs hf
    | none =>
      obtain ⟨s₁, hcreate, hs⟩ := Option.bind_eq_some_iff.mp hs
      obtain ⟨table, -, rfl⟩ := Option.map_eq_some_iff.mp hcreate
      exact gather_frags hs ((Function.update_of_ne hne ..).trans hf)
  · rw [deliver_frags hs]
    exact hf

end Reassembly

end IP

open IP Reassembly

/-- The host 10.0.0.9 with a NIC of eight buffers. -/
def lanHost : Host where
  address i := if i = 0 then 10 else if i = 3 then 9 else 0
  netmask i := if i = 3 then 0 else 255
  broadcast i := if i = 0 then 10 else if i = 3 then 255 else 0
  rxBufs := 8
  nodes := 1
  nodes_pos := Nat.one_pos

/-- It has not received anything. -/
def unreceived : Reassembly where
  packet _ := fragmentFrom 0
  next _ := none
  locked _ := false
  frags _ := none
  reassembling :=
    { vector := .init 1
      synonyms := { next := fun _ => none, header := {}, rank := fun _ => 0 } }
  listening _ := false
  passed := []

/-- The fragments of the example pass the check. -/
theorem check_fragmentFrom : (fragmentFrom 1).check = true := by
  have hsum : (words (fragmentFrom 1).header).sum ≠ 0 := by decide
  have hle : (fragmentFrom 1).ihl * 4 ≤ 131072 := by decide
  rw [check_iff, dvd_bytesRead_iff hle, ← header_sum]
  exact hsum

/-- The fragments of the example are not refused. -/
theorem refuses_fragmentFrom : lanHost.refuses (fragmentFrom 1) = false := by
  unfold Host.refuses
  rw [check_fragmentFrom]
  decide

/-- Nothing is received at the beginning. -/
theorem init_unreceived : (reassembly lanHost).Init (some unreceived) :=
  ⟨_, _, _, _, rfl⟩

/-- The first fragment of 10.0.0.1 gets a new object, which stays. -/
theorem firstFragment_step : ∃ s, unreceived.step lanHost (.frame 0 (fragmentFrom 1) 0) = some s ∧
    s.Kept lanHost ∧ s.frags 0 ≠ none := by
  obtain ⟨s, hs, holder, hheld, hlocked, hinc⟩ := kept_init init_unreceived
  cases hs
  have hnic : holder 0 = .nic := (hlocked 0).mp rfl
  have hreceive := hheld.receive hnic (fragmentFrom 1) (Function.update unreceived.locked 0 true)
  have hlocked' := hlocked.receive 0
  have hfragmented : (fragmentFrom 1).fragmented = true := by decide
  have hpacket : Function.update unreceived.packet 0 (fragmentFrom 1) 0 = fragmentFrom 1 :=
    Function.update_self _ _ _
  have hempty : unreceived.reassembling.Represents [] :=
    SimpleHash.represents_init Nat.one_pos _ _
  obtain ⟨r, hr, hfound, -⟩ := hempty.searchKey (key lanHost.netmask (fragmentFrom 1))
  have hnone : r = none := by
    cases r with
    | none => rfl
    | some el => cases (hfound el rfl).1
  obtain ⟨s, holder', hfirst, hkept, hstays⟩ := hreceive.first hlocked' hinc rfl hnic
    (show 0 < lanHost.rxBufs by decide) (key lanHost.netmask (fragmentFrom 1))
  refine ⟨s, ?_, ⟨holder', hkept⟩, hstays.resolve_left fun hall => ?_⟩
  · unfold Reassembly.step Reassembly.update
    simp only [hpacket, refuses_fragmentFrom, hfragmented, Bool.false_eq_true, if_false, if_true]
    rw [hr, hnone]
    exact hfirst
  · -- it is the fragment with the index 0 of 45
    simp only [hpacket] at hall
    have hone := hall 1 (by decide)
    revert hone
    decide

/-- The fragment behind the first one of 10.0.0.1, and the last. -/
def lastFragment : Packet :=
  ⟨.ofList [0x45, 0, 0, 40, 0, 7, 0, 185, 64, 0x11, 0, 0, 10, 0, 0, 1, 10, 0, 0, 9]⟩

/-- The two fragments make up a datagram. -/
theorem joins_lastFragment {object : Fragmented} (hbits : object.bitmap = ⟨45, [1, 0]⟩) :
    object.Joins lastFragment := by
  obtain ⟨fresh, bitmap, hset, -, -, -, hhas⟩ :=
    (Bitmap.whole_init (n := 45) (by decide)).set (show 0 < 45 by decide)
  obtain rfl : bitmap = ⟨45, [1, 0]⟩ := by
    have heq : (Bitmap.init 45).set 0 = some (true, ⟨45, [1, 0]⟩) := by decide
    cases hset.symm.trans heq
    rfl
  have hone (i : Nat) : object.bitmap.Has i ↔ i = 0 := by
    rw [hbits, hhas]
    exact or_iff_left (Bitmap.not_has_init 45 i)
  have hindex : lastFragment.index = 1 := by decide
  have htakes (i : Nat) : object.Takes lastFragment i ↔ i ≤ 1 := by
    unfold Fragmented.Takes
    rw [hone, hindex]
    omega
  refine ⟨?_, fun _ i hi j hj => ?_⟩
  · rw [hone, hindex]
    decide
  · rw [htakes] at hi ⊢
    omega

end Epos
