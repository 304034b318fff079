import Epos.Spec.SrecDecode
import Mathlib.Data.List.Sort

/-!
# What an image is loaded as

A run over an image passes one record after the other up to the first that ends the image or is
refused. What follows the text of the image takes part in it.
-/

namespace Epos.SREC

open MarkedLoop

variable {σ : Type*} {m l : Nat → BitVec 8} {srec srec' : Srec_t} {load : σ → Srec_t → σ} {x x' : σ}
  {s s' : σ × Srec_t} {p q : Nat} {ps : List Nat} {ok : Bool}

/-! ## One record -/

/-- The line is read inside of the array and has the sum that is asked for. -/
def Accepted (l : Nat → BitVec 8) : Prop :=
  ∃ len, HasLength l len ∧ len ≤ alen l + 518 ∧ lineSum l len = 0xff

/-- The line is read inside of the array and has another sum. -/
def Rejected (l : Nat → BitVec 8) : Prop :=
  ∃ len, HasLength l len ∧ len ≤ alen l + 518 ∧ lineSum l len ≠ 0xff

/-- A run goes on after the record. -/
def Passes (m : Nat → BitVec 8) (p : Nat) : Prop :=
  skipped m p ∨ carries m p ∧ Accepted (line m p)

/-- A run returns -1 at the record. -/
def Refuses (m : Nat → BitVec 8) (p : Nat) : Prop :=
  carries m p ∧ Rejected (line m p) ∨ ¬terminates m p ∧ ¬skipped m p ∧ ¬carries m p

/-- A record that is skipped does not end the loop. -/
theorem not_terminates_of_skipped (h : skipped m p) : terminates m p = false := by
  unfold skipped at h
  unfold terminates
  rcases of_decide_eq_true h with h | h <;> rw [h] <;> decide

/-- A data record does not end the loop. -/
theorem not_terminates_of_carries (h : carries m p) : terminates m p = false := by
  unfold carries at h
  unfold terminates
  rcases of_decide_eq_true h with h | h | h <;> rw [h] <;> decide

/-- A data record is not skipped. -/
theorem not_skipped_of_carries (h : carries m p) : skipped m p = false := by
  unfold carries at h
  unfold skipped
  rcases of_decide_eq_true h with h | h | h <;> rw [h] <;> decide

/-- A record that is skipped carries no data. -/
theorem not_carries_of_skipped (h : skipped m p) : ¬carries m p := by
  intro hcarries
  rw [not_skipped_of_carries hcarries] at h
  cases h

/-- The loop passes a data record only if the decoder accepts it. -/
theorem Passes.accepted (h : Passes m p) (hcarries : carries m p) : Accepted (line m p) :=
  (h.resolve_left fun hskipped => not_carries_of_skipped hskipped hcarries).2

/-- The record that the loop passes does not end it. -/
theorem not_terminates_of_passes (h : Passes m p) : terminates m p = false := by
  rcases h with h | ⟨h, -⟩
  · exact not_terminates_of_skipped h
  · exact not_terminates_of_carries h

/-- The type of a data record is a digit. -/
theorem type_of_carries (h : carries m p) : ¬9 < type (line m p) := by
  unfold carries at h
  show ¬9 < digit (m (p + 1))
  rcases of_decide_eq_true h with h | h | h <;> rw [h] <;> decide

/-- The type of a record that ends the loop is a digit. -/
theorem type_of_terminates (h : terminates m p) : ¬9 < type (line m p) := by
  unfold terminates at h
  show ¬9 < digit (m (p + 1))
  rcases of_decide_eq_true h with h | h | h <;> rw [h] <;> decide

/-- The decoder returns true exactly for the accepted lines. -/
theorem exists_returns_true_iff (srec : Srec_t) (h : ¬9 < type l) :
    (∃ srec', Fuel.Returns (fun time => srec_decode time srec l) (true, srec')) ↔ Accepted l := by
  constructor
  · rintro ⟨srec', hret⟩
    obtain ⟨len, hlen, -⟩ := returns_srec_decode_iff.mp hret
    obtain ⟨hfit, heq⟩ := (returns_of_length h hlen).mp hret
    exact ⟨len, hlen, hfit, of_decide_eq_true (Prod.mk.inj heq).1.symm⟩
  · rintro ⟨len, hlen, hfit, hsum⟩
    exact ⟨decoded srec l len, (returns_of_length h hlen).mpr ⟨hfit, by rw [hsum]; rfl⟩⟩

/-- The decoder returns false exactly for the rejected lines. -/
theorem exists_returns_false_iff (srec : Srec_t) (h : ¬9 < type l) :
    (∃ srec', Fuel.Returns (fun time => srec_decode time srec l) (false, srec')) ↔
      Rejected l := by
  constructor
  · rintro ⟨srec', hret⟩
    obtain ⟨len, hlen, -⟩ := returns_srec_decode_iff.mp hret
    obtain ⟨hfit, heq⟩ := (returns_of_length h hlen).mp hret
    exact ⟨len, hlen, hfit, of_decide_eq_false (Prod.mk.inj heq).1.symm⟩
  · rintro ⟨len, hlen, hfit, hsum⟩
    refine ⟨decoded srec l len, (returns_of_length h hlen).mpr ⟨hfit, ?_⟩⟩
    rw [decide_eq_false hsum]

/-- A round that ends does so whatever the fuel. -/
theorem independent_segmentBody (s : σ × Srec_t) (p : Nat) :
    Fuel.Independent fun time => segmentBody m load time s p := by
  unfold segmentBody
  split
  · exact Fuel.independent_const _
  split
  · exact Fuel.independent_const _
  split
  · exact (independent_srec_decode s.2 (line m p)).map _
  · exact Fuel.independent_const _

/-- At a data record a round loads it, or ends the loop with an error. -/
theorem returns_segmentBody_of_carries {r : (σ × Srec_t) ⊕ (σ × Bool)} (h : carries m p) :
    Fuel.Returns (fun time => segmentBody m load time s p) r ↔
      (∃ srec', Fuel.Returns (fun time => srec_decode time s.2 (line m p)) (true, srec') ∧
        r = .inl (load s.1 srec', srec')) ∨
      (∃ srec', Fuel.Returns (fun time => srec_decode time s.2 (line m p)) (false, srec')) ∧
        r = .inr (s.1, false) := by
  unfold segmentBody
  simp only [not_terminates_of_carries h, not_skipped_of_carries h, h, Bool.false_eq_true,
    if_false, if_true]
  rw [Fuel.returns_map_iff]
  constructor
  · rintro ⟨⟨ok, srec'⟩, hret, rfl⟩
    cases ok with
    | true => exact .inl ⟨srec', hret, rfl⟩
    | false => exact .inr ⟨⟨srec', hret⟩, rfl⟩
  · rintro (⟨srec', hret, rfl⟩ | ⟨⟨srec', hret⟩, rfl⟩)
    · exact ⟨(true, srec'), hret, rfl⟩
    · exact ⟨(false, srec'), hret, rfl⟩

/-- The body goes on with the record. -/
theorem returns_segmentBody_inl_iff :
    Fuel.Returns (fun time => segmentBody m load time s p) (.inl s') ↔
      skipped m p ∧ s' = s ∨
      carries m p ∧ ∃ srec',
        Fuel.Returns (fun time => srec_decode time s.2 (line m p)) (true, srec') ∧
          s' = (load s.1 srec', srec') := by
  by_cases hcarries : carries m p
  · simp [returns_segmentBody_of_carries hcarries, not_skipped_of_carries hcarries, hcarries]
  by_cases hskipped : skipped m p
  · have hend := not_terminates_of_skipped hskipped
    simp [segmentBody, hend, hskipped, hcarries, Fuel.returns_const_iff, eq_comm]
  · by_cases hend : terminates m p <;>
      simp [segmentBody, hend, hskipped, hcarries, Fuel.returns_const_iff]

/-- The body ends the loop at the record. -/
theorem returns_segmentBody_inr_iff :
    Fuel.Returns (fun time => segmentBody m load time s p) (.inr (x, ok)) ↔
      x = s.1 ∧ (ok = true ∧ terminates m p ∨ ok = false ∧ Refuses m p) := by
  unfold Refuses
  by_cases hcarries : carries m p
  · simp [returns_segmentBody_of_carries hcarries, not_terminates_of_carries hcarries, hcarries,
      exists_returns_false_iff _ (type_of_carries hcarries)]
    tauto
  by_cases hskipped : skipped m p
  · have hend := not_terminates_of_skipped hskipped
    simp [segmentBody, hend, hskipped, hcarries, Fuel.returns_const_iff]
  · by_cases hend : terminates m p <;>
      simp [segmentBody, hend, hskipped, hcarries, Fuel.returns_const_iff, eq_comm]

/-! ## Runs -/

/-- A run goes on as long as the records pass. -/
theorem exists_chain_iff :
    (∃ s', Chain (segmentBody m load) s ps s') ↔ ∀ p ∈ ps, Passes m p := by
  induction ps generalizing s with
  | nil => exact ⟨fun _ _ hp => (nomatch hp), fun _ => ⟨s, .nil⟩⟩
  | cons p ps ih =>
    rw [List.forall_mem_cons]
    constructor
    · rintro ⟨s', _ | ⟨head, tail⟩⟩
      refine ⟨?_, ih.mp ⟨s', tail⟩⟩
      rcases returns_segmentBody_inl_iff.mp head with ⟨h, -⟩ | ⟨h, srec', hret, -⟩
      · exact .inl h
      · exact .inr ⟨h, (exists_returns_true_iff _ (type_of_carries h)).mp ⟨srec', hret⟩⟩
    · rintro ⟨hp, hps⟩
      rcases hp with h | ⟨h, haccepted⟩
      · obtain ⟨s', tail⟩ := ih.mpr hps
        exact ⟨s', .cons (returns_segmentBody_inl_iff.mpr (.inl ⟨h, rfl⟩)) tail⟩
      · obtain ⟨srec', hret⟩ := (exists_returns_true_iff _ (type_of_carries h)).mpr haccepted
        obtain ⟨s', tail⟩ := ih.mpr hps
        exact ⟨s', .cons (returns_segmentBody_inl_iff.mpr (.inr ⟨h, srec', hret, rfl⟩)) tail⟩

/-- A run gets to the record at `q` and no further. -/
structure Reaches (m : Nat → BitVec 8) (q : Nat) : Prop where
  starts : starts m q
  passes : ∀ p < q, SREC.starts m p → Passes m p

/-- The loop ends at a record, after a chain of rounds over the records before. -/
theorem returns_segmentLoop_iff (h : starts m 0) :
    Fuel.Returns (fun time => segmentLoop m load time x srec) (x', ok) ↔
      ∃ q, starts m q ∧ (ok = true ∧ terminates m q ∨ ok = false ∧ Refuses m q) ∧
        ∃ srec', Chain (segmentBody m load) (x, srec) (marks (starts m) 0 q) (x', srec') := by
  unfold segmentLoop
  rw [returns_run_iff independent_segmentBody h]
  simp only [returns_segmentBody_inr_iff]
  constructor
  · rintro ⟨q, -, hq, s', hchain, rfl, hend⟩
    exact ⟨q, hq, hend, s'.2, hchain⟩
  · rintro ⟨q, hq, hend, srec', hchain⟩
    exact ⟨q, Nat.zero_le q, hq, (x', srec'), hchain, rfl, hend⟩

/-- Where a chain of rounds leads, every record before is passed. -/
theorem reaches_of_chain (hq : starts m q)
    (h : Chain (segmentBody m load) s (marks (starts m) 0 q) s') : Reaches m q := by
  refine ⟨hq, fun p hp hstarts => ?_⟩
  exact exists_chain_iff.mp ⟨s', h⟩ p (mem_marks.mpr ⟨Nat.zero_le p, hp, hstarts⟩)

/-- Where every record before is passed, a chain of rounds leads. -/
theorem Reaches.exists_chain (h : Reaches m q) (load : σ → Srec_t → σ) (x : σ) (srec : Srec_t) :
    ∃ x' srec',
      Chain (segmentBody m load) (x, srec) (marks (SREC.starts m) 0 q) (x', srec') := by
  obtain ⟨s', hchain⟩ :
      ∃ s', Chain (segmentBody m load) (x, srec) (marks (SREC.starts m) 0 q) s' := by
    apply exists_chain_iff.mpr
    intro p hp
    obtain ⟨-, hlt, hstarts⟩ := mem_marks.mp hp
    exact h.passes p hlt hstarts
  exact ⟨s'.1, s'.2, hchain⟩

/-- Where a run returns. -/
def SegmentEnds (m : Nat → BitVec 8) : Prop :=
  starts m 0 = false ∨ ∃ q, Reaches m q ∧ (terminates m q ∨ Refuses m q)

/-- The loop returns exactly when it reaches a record at which it stops. -/
theorem exists_returns_segmentLoop_iff (load : σ → Srec_t → σ) (x : σ) (srec : Srec_t) :
    (∃ r, Fuel.Returns (fun time => segmentLoop m load time x srec) r) ↔ SegmentEnds m := by
  unfold SegmentEnds
  -- A text that does not start with `S` is left at once.
  cases h : starts m 0 with
  | false =>
    refine iff_of_true ⟨(x, true), ?_⟩ (.inl rfl)
    exact (returns_run_of_not_marked h).mpr rfl
  | true =>
    rw [or_iff_right (by decide)]
    constructor
    · rintro ⟨⟨x', ok⟩, hret⟩
      obtain ⟨q, hq, hend, srec', hchain⟩ := (returns_segmentLoop_iff h).mp hret
      exact ⟨q, reaches_of_chain hq hchain, hend.imp And.right And.right⟩
    · rintro ⟨q, hreach, hend⟩
      obtain ⟨x', srec', hchain⟩ := hreach.exists_chain load x srec
      rcases hend with hend | hend
      · exact ⟨(x', true), (returns_segmentLoop_iff h).mpr
          ⟨q, hreach.starts, .inl ⟨rfl, hend⟩, srec', hchain⟩⟩
      · exact ⟨(x', false), (returns_segmentLoop_iff h).mpr
          ⟨q, hreach.starts, .inr ⟨rfl, hend⟩, srec', hchain⟩⟩

/-! ## Copies -/

section Copies

variable {addr : BitVec 32} {n n' : Nat} {cs cs' : List Copy} {bytes bytes' : Nat → List (BitVec 8)}

/-- One copy for each of the records at `ps`, with `n` bytes before them. -/
def copies (addr : BitVec 32) (m : Nat → BitVec 8) (bytes : Nat → List (BitVec 8)) :
    Nat → List Nat → List Copy
  | _, [] => []
  | n, p :: ps =>
    let dst := if addr ≠ 0 then addr + BitVec.ofNat 32 n
      else BitVec.ofNat 32 (address (line m p))
    (dst, bytes p) :: copies addr m bytes (n + size (line m p)) ps

/-- The number of bytes in the records at `ps`. -/
def total (m : Nat → BitVec 8) (ps : List Nat) : Nat := (ps.map fun p => size (line m p)).sum

/-- The bytes of a record as they are read. -/
def readBytes (m : Nat → BitVec 8) (p : Nat) : List (BitVec 8) :=
  (List.range (size (line m p))).map fun j => dataByte (line m p) (j % 128)

/-- One copy for each record. -/
@[simp] theorem length_copies : (copies addr m bytes n ps).length = ps.length := by
  induction ps generalizing n with
  | nil => rfl
  | cons p ps ih => rw [copies, List.length_cons, ih, List.length_cons]

/-- The copies are the same exactly when the bytes of every record are. -/
theorem copies_inj :
    copies addr m bytes n ps = copies addr m bytes' n ps ↔ ∀ p ∈ ps, bytes p = bytes' p := by
  induction ps generalizing n with
  | nil => simp [copies]
  | cons p ps ih => simp [copies, ih]

/-- A valid line that is accepted. -/
theorem Valid.of_returns (h : Valid l)
    (hret : Fuel.Returns (fun time => srec_decode time srec l) (true, srec')) :
    srec'.count.toNat = size l ∧ srec'.addr = BitVec.ofNat 32 (address l) ∧
      srec'.bytes = (List.range (size l)).map fun j => dataByte l (j % 128) := by
  obtain ⟨-, heq⟩ := (returns_of_length h.type_le h.length).mp hret
  obtain ⟨-, rfl⟩ := Prod.mk.inj heq
  exact ⟨h.count_eq, rfl, h.bytes_decoded⟩

/-- What is loaded from records that are valid. -/
theorem chain_copies (hps : ∀ p ∈ ps, skipped m p ∨ carries m p ∧ Valid (line m p))
    (h : Chain (segmentBody m (SREC.load addr)) ((n, cs), srec) ps ((n', cs'), srec')) :
    n' = n + total m (ps.filter (carries m)) ∧
      cs' = cs ++ copies addr m (readBytes m) n (ps.filter (carries m)) := by
  induction ps generalizing n cs srec with
  | nil =>
    cases h
    simp [total, copies]
  | cons p ps ih =>
    obtain ⟨hp, hps⟩ := List.forall_mem_cons.mp hps
    cases h with
    | cons head tail =>
      rcases returns_segmentBody_inl_iff.mp head with ⟨hskipped, rfl⟩ | ⟨hcarries, srec₁, hret, rfl⟩
      · rw [List.filter_cons_of_neg (not_carries_of_skipped hskipped)]
        exact ih hps tail
      · have hvalid : Valid (line m p) :=
          (hp.resolve_left fun hskipped => not_carries_of_skipped hskipped hcarries).2
        obtain ⟨hcount, haddr, hbytes⟩ := hvalid.of_returns hret
        obtain ⟨rfl, rfl⟩ := ih hps tail
        rw [List.filter_cons_of_pos hcarries]
        constructor
        · simp [total, hcount, Nat.add_assoc]
        · simp [copies, hcount, haddr, hbytes, readBytes]

/-- There is one copy for each record with data. -/
theorem chain_length
    (h : Chain (segmentBody m (SREC.load addr)) ((n, cs), srec) ps ((n', cs'), srec')) :
    ∃ more, cs' = cs ++ more ∧ more.length = (ps.filter (carries m)).length := by
  induction ps generalizing n cs srec with
  | nil =>
    cases h
    exact ⟨[], by simp⟩
  | cons p ps ih =>
    cases h with
    | cons head tail =>
      rcases returns_segmentBody_inl_iff.mp head with ⟨hskipped, rfl⟩ | ⟨hcarries, srec₁, hret, rfl⟩
      · rw [List.filter_cons_of_neg (not_carries_of_skipped hskipped)]
        exact ih tail
      · obtain ⟨more, hcs, hlength⟩ := ih tail
        rw [List.filter_cons_of_pos hcarries]
        exact ⟨_, hcs.trans (List.append_assoc _ _ _), by simp [hlength]⟩

end Copies

/-! ## Images -/

/-- A text with a NUL behind it, and whatever the memory has after that. -/
structure Image where
  memory : Nat → BitVec 8
  length : Nat
  text : ∀ p < length, memory p ≠ 0
  terminated : memory length = 0

namespace Image

variable (im : Image)

/-- A record in the text that no terminating record precedes, and which is none itself. -/
def Record (p : Nat) : Prop :=
  starts im.memory 0 ∧ starts im.memory p ∧ p < im.length ∧
    ∀ q ≤ p, starts im.memory q → ¬terminates im.memory q

instance (p : Nat) : Decidable (im.Record p) := inferInstanceAs (Decidable (_ ∧ _ ∧ _ ∧ _))

/-- The records with data. -/
def places : List Nat :=
  (List.range im.length).filter fun p => im.Record p ∧ carries im.memory p

/-- All records before the terminator are headers, numbers of records or valid. -/
def WellFormed : Prop :=
  ∀ p, im.Record p → skipped im.memory p ∨ carries im.memory p ∧ Valid (line im.memory p)

end Image

structure LoadCorrect (im : Image) (srec : Srec_t) (addr : BitVec 32) : Prop where
  loads : im.WellFormed → ∀ i ≤ segments,
    Fuel.Returns (load_segment im.memory srec i addr)
        ((total im.memory im.places : Int),
          copies addr im.memory (fun p => dataBytes (line im.memory p)) 0 im.places) ∧
      Fuel.Returns (segment_size im.memory srec i) (total im.memory im.places : Int)
  refuses : ¬im.WellFormed → ∀ i ≤ segments,
    (∃ cs, Fuel.Returns (load_segment im.memory srec i addr) (-1, cs)) ∧
      Fuel.Returns (segment_size im.memory srec i) (-1)

/-- Records that are well-formed repeat themselves, and only headers and numbers of records
    stand between the text and the next terminating record. One of the records that are not is
    refused. -/
def LoadFits (im : Image) : Prop :=
  (im.WellFormed → starts im.memory 0 = false ∨
    (∀ p, im.Record p → carries im.memory p → Repeats (line im.memory p)) ∧
      ∃ q, starts im.memory q ∧ terminates im.memory q ∧
        ∀ p, im.length < p → p < q → starts im.memory p → skipped im.memory p) ∧
  (¬im.WellFormed → ∃ q, Reaches im.memory q ∧ Refuses im.memory q)

namespace Image

variable {im : Image}

/-- Every line of the image has an end. -/
theorem exists_lineEnd (hp : p ≤ im.length) : ∃ len, HasLength (line im.memory p) len := by
  have hend : lineEnd (line im.memory p) (im.length - p) := by
    have hzero : im.memory (p + (im.length - p)) = 0 := by
      rw [Nat.add_sub_cancel' hp, im.terminated]
    simp [lineEnd, line, hzero]
  obtain ⟨len, hlen, -⟩ := exists_first (Nat.zero_le _) hend
  exact ⟨len, hlen⟩

/-- The places of the image are its data records. -/
theorem mem_places : p ∈ im.places ↔ im.Record p ∧ carries im.memory p := by
  simp only [places, List.mem_filter, List.mem_range, decide_eq_true_eq]
  exact ⟨fun h => h.2, fun h => ⟨h.1.2.2.1, h⟩⟩

/-- An image that does not start with a record has no data record. -/
theorem places_eq_nil (h0 : starts im.memory 0 = false) : im.places = [] := by
  rw [List.eq_nil_iff_forall_not_mem]
  intro p hp
  rw [(mem_places.mp hp).1.1] at h0
  cases h0

/-- No record starts at the end of the image. -/
theorem starts_ne (hp : starts im.memory p) : p ≠ im.length := by
  rintro rfl
  have hterminated := im.terminated
  have hchar := of_decide_eq_true hp
  rw [hterminated] at hchar
  exact absurd hchar (by decide)

/-- The data records of a well-formed image are valid. -/
theorem WellFormed.valid (h : im.WellFormed) (hrecord : im.Record p)
    (hcarries : carries im.memory p) : Valid (line im.memory p) :=
  ((h p hrecord).resolve_left fun hskipped => not_carries_of_skipped hskipped hcarries).2

/-- The records with data before the first terminating record, or in the text if it has none. -/
theorem places_eq (h0 : starts im.memory 0) (hq : q ≤ im.length)
    (hbefore : ∀ p < q, starts im.memory p → ¬terminates im.memory p)
    (hend : q < im.length → starts im.memory q ∧ terminates im.memory q) :
    (marks (starts im.memory) 0 q).filter (carries im.memory) = im.places := by
  -- Both lists are in the order of the text, and it remains to compare their members.
  have hsorted : ((marks (starts im.memory) 0 q).filter (carries im.memory)).Pairwise (· < ·) :=
    ((List.pairwise_lt_range' _).filter _).filter _
  have hsorted' : im.places.Pairwise (· < ·) := List.pairwise_lt_range.filter _
  apply hsorted.eq_of_mem_iff hsorted'
  intro p
  rw [List.mem_filter, mem_marks, mem_places]
  constructor
  · rintro ⟨⟨-, hpq, hstarts⟩, hcarries⟩
    refine ⟨⟨h0, hstarts, by omega, fun r hr => hbefore r (by omega)⟩, hcarries⟩
  · rintro ⟨⟨-, hstarts, hlt, hnot⟩, hcarries⟩
    refine ⟨⟨Nat.zero_le p, ?_, hstarts⟩, hcarries⟩
    -- A record behind the terminating one is no record of the image.
    by_contra hle
    obtain ⟨hq, hterm⟩ := hend (by omega)
    exact hnot q (by omega) hq hterm

end Image

/-! ## Both functions -/

/-- What `load_segment` returns, by the loop. -/
theorem returns_load_segment_iff {im : Image} {addr : BitVec 32} {i : Int} (hi : i ≤ segments)
    {r : Int × List Copy} :
    Fuel.Returns (load_segment im.memory srec i addr) r ↔ ∃ n cs ok,
      Fuel.Returns (fun time => segmentLoop im.memory (SREC.load addr) time (0, []) srec)
        ((n, cs), ok) ∧ r = (if ok then (n : Int) else -1, cs) := by
  have heq : load_segment im.memory srec i addr = fun time =>
      (segmentLoop im.memory (SREC.load addr) time (0, []) srec).map
        fun r => (if r.2 then (r.1.1 : Int) else -1, r.1.2) := by
    funext time
    exact if_neg (not_lt.mpr hi)
  rw [heq, Fuel.returns_map_iff]
  constructor
  · rintro ⟨⟨⟨n, cs⟩, ok⟩, hret, rfl⟩
    exact ⟨n, cs, ok, hret, rfl⟩
  · rintro ⟨n, cs, ok, hret, rfl⟩
    exact ⟨((n, cs), ok), hret, rfl⟩

/-- A run with less to remember. -/
theorem map_segmentLoop {τ : Type*} (load : σ → Srec_t → σ) (load' : τ → Srec_t → τ) (f : σ → τ)
    (hload : ∀ x srec, load' (f x) srec = f (load x srec)) (time : Nat) (x : σ) (srec : Srec_t) :
    segmentLoop m load' time (f x) srec =
      (segmentLoop m load time x srec).map (Prod.map f id) := by
  refine map_run (Prod.map f id) (Prod.map f id) (fun time s p => ?_) (fun _ => rfl) time
    (x, srec) 0
  unfold segmentBody
  split
  · rfl
  split
  · rfl
  split
  · rw [Option.map_map]
    congr 1
    funext ⟨ok, srec⟩
    cases ok with
    | false => rfl
    | true => simp [hload]
  · rfl

/-- `segment_size()` returns what `load_segment()` returns. -/
theorem segment_size_eq (m : Nat → BitVec 8) (srec : Srec_t) (i : Int) (addr : BitVec 32)
    (time : Nat) :
    segment_size m srec i time = (load_segment m srec i addr time).map Prod.fst := by
  unfold segment_size load_segment
  split
  · rfl
  · have hloop := map_segmentLoop (m := m) (SREC.load addr)
      (fun seg_size srec => seg_size + srec.count.toNat) Prod.fst (fun _ _ => rfl) time (0, []) srec
    rw [hloop, Option.map_map, Option.map_map]
    rfl

/-- `segment_size` returns what `load_segment` returns. -/
theorem returns_segment_size_iff {m : Nat → BitVec 8} {i : Int} (addr : BitVec 32) {n : Int} :
    Fuel.Returns (segment_size m srec i) n ↔
      ∃ cs, Fuel.Returns (load_segment m srec i addr) (n, cs) := by
  have heq : segment_size m srec i = fun time =>
      (load_segment m srec i addr time).map Prod.fst := funext (segment_size_eq m srec i addr)
  rw [heq, Fuel.returns_map_iff]
  constructor
  · rintro ⟨⟨n, cs⟩, hret, rfl⟩
    exact ⟨cs, hret⟩
  · rintro ⟨cs, hret⟩
    exact ⟨(n, cs), hret, rfl⟩

/-- A valid line that repeats its data is accepted. -/
theorem Valid.accepted (h : Valid l) (hrep : Repeats l) : Accepted l :=
  ⟨_, h.length, h.fits, (h.repeats_iff.mpr hrep).1⟩

/-- A valid line that is accepted with its own bytes repeats its data. -/
theorem Valid.repeats (h : Valid l) (haccepted : Accepted l)
    (hbytes : ((List.range (size l)).map fun j => dataByte l (j % 128)) = dataBytes l) :
    Repeats l := by
  obtain ⟨len, hlen, -, hsum⟩ := haccepted
  obtain rfl := hlen.unique h.length
  exact h.repeats_iff.mp ⟨hsum, hbytes⟩

section Load

variable {im : Image} {addr : BitVec 32}

/-- The records of the text that a run has passed. -/
theorem record_of_lt (h0 : starts im.memory 0) (hreach : Reaches im.memory q) (hpq : p < q)
    (hp : p < im.length) (hstarts : starts im.memory p) : im.Record p := by
  refine ⟨h0, hstarts, hp, fun r hr hr' => ?_⟩
  rw [not_terminates_of_passes (hreach.passes r (by omega) hr')]
  exact Bool.false_ne_true

/-- The data records before the end of the loop are those of the image. -/
theorem places_of_reaches (h0 : starts im.memory 0) (hreach : Reaches im.memory q)
    (hterm : terminates im.memory q) :
    (marks (starts im.memory) 0 (min q im.length)).filter (carries im.memory) = im.places := by
  apply Image.places_eq h0 (Nat.min_le_right _ _)
  · intro p hp hstarts
    rw [not_terminates_of_passes (hreach.passes p (by omega) hstarts)]
    exact Bool.false_ne_true
  · intro hlt
    rw [show min q im.length = q by omega]
    exact ⟨hreach.starts, hterm⟩

/-- Valid records that repeat themselves pass. -/
theorem reaches_of_repeats (hwell : im.WellFormed) (h0 : starts im.memory 0)
    (hrep : ∀ p, im.Record p → carries im.memory p → Repeats (line im.memory p))
    (hstarts : starts im.memory q)
    (hbefore : ∀ p < q, starts im.memory p → ¬terminates im.memory p)
    (hafter : ∀ p, im.length < p → p < q → starts im.memory p → skipped im.memory p) :
    Reaches im.memory q := by
  refine ⟨hstarts, fun p hpq hp => ?_⟩
  have hne := Image.starts_ne hp
  obtain hlt | hgt := Nat.lt_or_gt_of_ne hne
  · -- A record of the text.
    have hrecord : im.Record p := ⟨h0, hp, hlt, fun r hr => hbefore r (by omega)⟩
    rcases hwell p hrecord with hskipped | ⟨hcarries, hvalid⟩
    · exact .inl hskipped
    · exact .inr ⟨hcarries, hvalid.accepted (hrep p hrecord hcarries)⟩
  · exact .inl (hafter p hgt hpq hp)

/-- A well-formed image whose records repeat their data is loaded as it says. -/
theorem loads_of_repeats (hwell : im.WellFormed) (h0 : starts im.memory 0)
    (hrep : ∀ p, im.Record p → carries im.memory p → Repeats (line im.memory p))
    (hq : starts im.memory q) (hterm : terminates im.memory q)
    (hafter : ∀ p, im.length < p → p < q → starts im.memory p → skipped im.memory p) :
    Fuel.Returns (fun time => segmentLoop im.memory (SREC.load addr) time (0, []) srec)
      ((total im.memory im.places,
        copies addr im.memory (fun p => dataBytes (line im.memory p)) 0 im.places), true) := by
  -- The first terminating record is where the run ends.
  obtain ⟨q₀, hfirst, hq₀⟩ :
      ∃ k, First (fun p => starts im.memory p && terminates im.memory p) 0 k ∧ k ≤ q :=
    exists_first (Nat.zero_le q) (by simp [hq, hterm])
  obtain ⟨hstarts, hterm₀⟩ := Bool.and_eq_true_iff.mp hfirst.marked
  have hreach : Reaches im.memory q₀ := by
    apply reaches_of_repeats hwell h0 hrep hstarts
    · intro p hp hp' hterm'
      have := hfirst.before p (Nat.zero_le p) hp
      simp [hp', hterm'] at this
    · exact fun p hp hpq => hafter p hp (by omega)
  have hps : ∀ p ∈ marks (starts im.memory) 0 q₀,
      skipped im.memory p ∨ carries im.memory p ∧ Valid (line im.memory p) := by
    intro p hp
    obtain ⟨-, hpq, hp⟩ := mem_marks.mp hp
    obtain hlt | hgt := Nat.lt_or_gt_of_ne (Image.starts_ne hp)
    · exact hwell p (record_of_lt h0 hreach hpq hlt hp)
    · exact .inl (hafter p hgt (by omega) hp)
  -- What the run passes behind the text has no data.
  have hplaces : (marks (starts im.memory) 0 q₀).filter (carries im.memory) = im.places := by
    rw [← marks_append (b := min q₀ im.length) (Nat.zero_le _) (Nat.min_le_left _ _),
      List.filter_append, places_of_reaches h0 hreach hterm₀, List.append_right_eq_self,
      List.filter_eq_nil_iff]
    intro p hp hcarries
    obtain ⟨hle, hpq, hp⟩ := mem_marks.mp hp
    have hne := Image.starts_ne hp
    exact not_carries_of_skipped (hafter p (by omega) (by omega) hp) hcarries
  obtain ⟨⟨n, cs⟩, srec', hchain⟩ := hreach.exists_chain (SREC.load addr) (0, []) srec
  obtain ⟨hn, hcs⟩ := chain_copies hps hchain
  rw [hplaces, Nat.zero_add] at hn
  rw [hplaces, List.nil_append] at hcs
  -- Up to 128 bytes are read as they stand, and more repeat the first ones.
  have hbytes : copies addr im.memory (readBytes im.memory) 0 im.places =
      copies addr im.memory (fun p => dataBytes (line im.memory p)) 0 im.places := by
    apply copies_inj.mpr
    intro p hp
    obtain ⟨hrecord, hcarries⟩ := Image.mem_places.mp hp
    exact ((hwell.valid hrecord hcarries).repeats_iff.mpr (hrep p hrecord hcarries)).2
  rw [← hbytes, ← hn, ← hcs]
  exact (returns_segmentLoop_iff h0).mpr ⟨q₀, hreach.starts, .inl ⟨rfl, hterm₀⟩, srec', hchain⟩

/-- An image that is loaded as it says has records that repeat their data. -/
theorem repeats_of_loads (hwell : im.WellFormed) (h0 : starts im.memory 0) {n : Nat}
    (hret : Fuel.Returns (fun time => segmentLoop im.memory (SREC.load addr) time (0, []) srec)
      ((n, copies addr im.memory (fun p => dataBytes (line im.memory p)) 0 im.places), true)) :
    (∀ p, im.Record p → carries im.memory p → Repeats (line im.memory p)) ∧
      ∃ q, starts im.memory q ∧ terminates im.memory q ∧
        ∀ p, im.length < p → p < q → starts im.memory p → skipped im.memory p := by
  obtain ⟨q, hq, hend, srec', hchain⟩ := (returns_segmentLoop_iff h0).mp hret
  obtain ⟨-, hterm⟩ := hend.resolve_right fun h => Bool.false_ne_true h.1.symm
  have hreach : Reaches im.memory q := reaches_of_chain hq hchain
  have hplaces := places_of_reaches h0 hreach hterm
  -- What is loaded from the text, and what is loaded behind it.
  rw [← marks_append (b := min q im.length) (Nat.zero_le _) (Nat.min_le_left _ _)] at hchain
  obtain ⟨⟨⟨n₁, cs₁⟩, srec₁⟩, htext, hrest⟩ := Chain.append_iff.mp hchain
  have hps : ∀ p ∈ marks (starts im.memory) 0 (min q im.length),
      skipped im.memory p ∨ carries im.memory p ∧ Valid (line im.memory p) := by
    intro p hp
    obtain ⟨-, hlt, hp⟩ := mem_marks.mp hp
    exact hwell p (record_of_lt h0 hreach (by omega) (by omega) hp)
  obtain ⟨-, hcs₁⟩ := chain_copies hps htext
  obtain ⟨more, hcs, hmore⟩ := chain_length hrest
  rw [hplaces, List.nil_append] at hcs₁
  -- The copies of the text are as many as there should be, which leaves none behind it.
  have hnil : more = [] := by
    have hlength := congrArg List.length hcs
    rw [hcs₁, List.length_append, length_copies, length_copies] at hlength
    exact List.eq_nil_of_length_eq_zero (by omega)
  rw [hnil, List.append_nil, hcs₁, copies_inj] at hcs
  rw [hnil, List.length_nil, eq_comm, List.length_eq_zero_iff, List.filter_eq_nil_iff] at hmore
  constructor
  · intro p hrecord hcarries
    have hp := Image.mem_places.mpr ⟨hrecord, hcarries⟩
    have hpq : p < q := by
      rw [← hplaces, List.mem_filter, mem_marks] at hp
      omega
    have haccepted := (hreach.passes p hpq hrecord.2.1).accepted hcarries
    exact (hwell.valid hrecord hcarries).repeats haccepted (hcs p hp).symm
  · refine ⟨q, hq, hterm, fun p hlp hpq hp => ?_⟩
    rcases hreach.passes p hpq hp with hskipped | ⟨hcarries, -⟩
    · exact hskipped
    · have hmem : p ∈ marks (starts im.memory) (min q im.length) q :=
        mem_marks.mpr ⟨by omega, hpq, hp⟩
      exact absurd hcarries (hmore p hmem)

end Load

/-! ## The entry point -/

/-- Where `entry()` returns: at the first terminating record, if that is read inside of the
    array. -/
def EntryEnds (m : Nat → BitVec 8) : Prop :=
  starts m 0 = false ∨ ∃ q, starts m q ∧ terminates m q ∧
    (∀ p < q, starts m p → ¬terminates m p) ∧
    ∃ len, HasLength (line m q) len ∧ len ≤ alen (line m q) + 518

/-- A round that ends does so whatever the fuel. -/
theorem independent_entryBody (srec : Srec_t) (p : Nat) :
    Fuel.Independent fun time => entryBody m time srec p := by
  unfold entryBody
  split
  · exact (independent_srec_decode srec (line m p)).map _
  · exact Fuel.independent_const _

/-- A round goes on exactly when the record does not end the loop. -/
theorem returns_entryBody_inl_iff :
    Fuel.Returns (fun time => entryBody m time srec p) (.inl srec') ↔
      ¬terminates m p ∧ srec' = srec := by
  unfold entryBody
  by_cases h : terminates m p
  · simp [h, Fuel.returns_map_iff]
  · simp [h, Fuel.returns_const_iff, eq_comm]

/-- A round returns an address when the record ends the loop and its line is short enough. -/
theorem exists_returns_entryBody_inr_iff (srec : Srec_t) :
    (∃ a, Fuel.Returns (fun time => entryBody m time srec p) (.inr a)) ↔
      terminates m p ∧ ∃ len, HasLength (line m p) len ∧ len ≤ alen (line m p) + 518 := by
  unfold entryBody
  by_cases h : terminates m p
  · -- The address is returned whether the sum is right or not.
    have htype := type_of_terminates h
    simp only [h, if_true, Fuel.returns_map_iff, true_and]
    constructor
    · rintro ⟨a, r, hret, -⟩
      obtain ⟨len, hlen, -⟩ := returns_srec_decode_iff.mp hret
      exact ⟨len, hlen, ((returns_of_length htype hlen).mp hret).1⟩
    · rintro ⟨len, hlen, hfit⟩
      exact ⟨_, _, (returns_of_length htype hlen).mpr ⟨hfit, rfl⟩, rfl⟩
  · simp [h, Fuel.returns_const_iff]

/-- Rounds that go on leave the buffer alone. -/
theorem chain_entryBody_iff :
    Chain (entryBody m) srec ps srec' ↔ srec' = srec ∧ ∀ p ∈ ps, ¬terminates m p := by
  induction ps with
  | nil =>
    constructor
    · rintro ⟨⟩
      exact ⟨rfl, fun _ hp => (nomatch hp)⟩
    · rintro ⟨rfl, -⟩
      exact .nil
  | cons p ps ih =>
    rw [List.forall_mem_cons]
    constructor
    · rintro (_ | ⟨head, tail⟩)
      obtain ⟨hp, rfl⟩ := returns_entryBody_inl_iff.mp head
      obtain ⟨rfl, hps⟩ := ih.mp tail
      exact ⟨rfl, hp, hps⟩
    · rintro ⟨rfl, hp, hps⟩
      exact .cons (returns_entryBody_inl_iff.mpr ⟨hp, rfl⟩) (ih.mpr ⟨rfl, hps⟩)

/-- `entry` returns exactly when the loop reaches an end. -/
theorem exists_returns_entry_iff :
    (∃ a, Fuel.Returns (entry m srec) a) ↔ EntryEnds m := by
  unfold EntryEnds
  cases h : starts m 0 with
  | false => exact iff_of_true ⟨0, (returns_run_of_not_marked h).mpr rfl⟩ (.inl rfl)
  | true =>
    rw [or_iff_right (by decide)]
    have hiff (a : BitVec 32) : Fuel.Returns (entry m srec) a ↔ _ :=
      returns_run_iff independent_entryBody h
    simp only [hiff, chain_entryBody_iff]
    constructor
    · rintro ⟨a, q, -, hq, _, ⟨rfl, hbefore⟩, hend⟩
      obtain ⟨hterm, hlen⟩ := (exists_returns_entryBody_inr_iff _).mp ⟨a, hend⟩
      refine ⟨q, hq, hterm, fun p hp hp' => ?_, hlen⟩
      exact hbefore p (mem_marks.mpr ⟨Nat.zero_le p, hp, hp'⟩)
    · rintro ⟨q, hq, hterm, hbefore, hlen⟩
      obtain ⟨a, hend⟩ := (exists_returns_entryBody_inr_iff srec).mpr ⟨hterm, hlen⟩
      refine ⟨a, q, Nat.zero_le q, hq, srec, ⟨rfl, fun p hp => ?_⟩, hend⟩
      obtain ⟨-, hlt, hp'⟩ := mem_marks.mp hp
      exact hbefore p hlt hp'

/-! ## Images as a whole -/

section Whole

variable {im : Image} {addr : BitVec 32}

/-- `load_segment` returns -1 exactly when the loop reaches a record that it refuses. -/
theorem refuses_iff (srec : Srec_t) (addr : BitVec 32) (h0 : starts im.memory 0) {i : Int}
    (hi : i ≤ segments) :
    (∃ cs, Fuel.Returns (load_segment im.memory srec i addr) (-1, cs)) ↔
      ∃ q, Reaches im.memory q ∧ Refuses im.memory q := by
  simp only [returns_load_segment_iff hi]
  constructor
  · rintro ⟨cs, n, _, ok, hret, heq⟩
    obtain ⟨q, hq, hend, srec', hchain⟩ := (returns_segmentLoop_iff h0).mp hret
    refine ⟨q, reaches_of_chain hq hchain, ?_⟩
    rcases hend with ⟨rfl, -⟩ | ⟨-, hrefuses⟩
    · -- A size is not -1.
      have hn := (Prod.mk.inj heq).1
      rw [if_pos rfl] at hn
      omega
    · exact hrefuses
  · rintro ⟨q, hreach, hrefuses⟩
    obtain ⟨⟨n, cs⟩, srec', hchain⟩ := hreach.exists_chain (SREC.load addr) (0, []) srec
    refine ⟨cs, n, cs, false, ?_, rfl⟩
    exact (returns_segmentLoop_iff h0).mpr
      ⟨q, hreach.starts, .inr ⟨rfl, hrefuses⟩, srec', hchain⟩

/-- Loading is right exactly for the images that fit. -/
theorem loadCorrect_iff : LoadCorrect im srec addr ↔ LoadFits im := by
  constructor
  · -- the call with all segments decides what the image looks like
    intro h
    constructor
    · intro hwell
      cases h0 : starts im.memory 0 with
      | false => exact .inl rfl
      | true =>
        obtain ⟨n, cs, ok, hret, heq⟩ := (returns_load_segment_iff (Int.le_refl _)).mp
          (h.loads hwell segments (Int.le_refl _)).1
        obtain ⟨hn, rfl⟩ := Prod.mk.inj heq
        cases ok with
        | false =>
          rw [if_neg Bool.false_ne_true] at hn
          omega
        | true => exact .inr (repeats_of_loads hwell h0 hret)
    · intro hwell
      have h0 : starts im.memory 0 := by
        by_contra h0
        exact hwell fun p hp => absurd hp.1 h0
      exact (refuses_iff srec addr h0 (Int.le_refl _)).mp (h.refuses hwell segments (Int.le_refl _)).1
  · intro h
    constructor
    · -- a call for i segments loads what the image holds, whatever i is
      intro hwell i hi
      have hloads : Fuel.Returns (load_segment im.memory srec i addr)
          ((total im.memory im.places : Int),
            copies addr im.memory (fun p => dataBytes (line im.memory p)) 0 im.places) := by
        rw [returns_load_segment_iff hi]
        refine ⟨_, _, true, ?_, rfl⟩
        cases h0 : starts im.memory 0 with
        | false =>
          rw [Image.places_eq_nil h0]
          exact (returns_run_of_not_marked h0).mpr rfl
        | true =>
          obtain ⟨hrep, q, hq, hterm, hafter⟩ := (h.1 hwell).resolve_left (by simp [h0])
          exact loads_of_repeats hwell h0 hrep hq hterm hafter
      exact ⟨hloads, (returns_segment_size_iff addr).mpr ⟨_, hloads⟩⟩
    · intro hwell i hi
      have h0 : starts im.memory 0 := by
        by_contra h0
        exact hwell fun p hp => absurd hp.1 h0
      obtain ⟨cs, hret⟩ := (refuses_iff srec addr h0 hi).mpr (h.2 hwell)
      exact ⟨⟨cs, hret⟩, (returns_segment_size_iff addr).mpr ⟨cs, hret⟩⟩

/-- `load_segment` returns exactly when the segment ends. -/
theorem exists_returns_load_segment_iff (srec : Srec_t) (addr : BitVec 32) :
    (∀ i, ∃ r, Fuel.Returns (load_segment im.memory srec i addr) r) ↔ SegmentEnds im.memory := by
  rw [← exists_returns_segmentLoop_iff (SREC.load addr) (0, []) srec]
  constructor
  · intro h
    obtain ⟨r, hr⟩ := h segments
    obtain ⟨n, cs, ok, hret, -⟩ := (returns_load_segment_iff (Int.le_refl _)).mp hr
    exact ⟨_, hret⟩
  · rintro ⟨⟨⟨n, cs⟩, ok⟩, hret⟩ i
    by_cases hi : i ≤ segments
    · exact ⟨_, (returns_load_segment_iff hi).mpr ⟨n, cs, ok, hret, rfl⟩⟩
    · -- There is no such segment, and the text is not read.
      exact ⟨(-1, []), 0, if_pos (not_le.mp hi)⟩

/-- `segment_size` returns exactly when the segment ends. -/
theorem exists_returns_segment_size_iff :
    (∀ i, ∃ n, Fuel.Returns (segment_size im.memory srec i) n) ↔ SegmentEnds im.memory := by
  rw [← exists_returns_load_segment_iff srec 0]
  refine forall_congr' fun i => ?_
  simp only [returns_segment_size_iff 0]
  exact Prod.exists.symm

end Whole

/-- When decoding, the entry point, the sizes and loading are right. -/
theorem srec_correct_iff (im : Image) (srec : Srec_t) (addr : BitVec 32) :
    (DecodeCorrect srec im.memory ↔ DecodeFits im.memory) ∧
      ((∃ a, Fuel.Returns (entry im.memory srec) a) ↔ EntryEnds im.memory) ∧
      ((∀ i, ∃ n, Fuel.Returns (segment_size im.memory srec i) n) ↔ SegmentEnds im.memory) ∧
      ((∀ i, ∃ r, Fuel.Returns (load_segment im.memory srec i addr) r) ↔
        SegmentEnds im.memory) ∧
      (LoadCorrect im srec addr ↔ LoadFits im) := by
  obtain ⟨len, hlen⟩ := Image.exists_lineEnd (Nat.zero_le im.length)
  have hline : line im.memory 0 = im.memory := by
    funext i
    rw [line, Nat.zero_add]
  rw [hline] at hlen
  exact ⟨decodeCorrect_iff hlen, exists_returns_entry_iff, exists_returns_segment_size_iff,
    exists_returns_load_segment_iff srec addr, loadCorrect_iff⟩

/-! ## Images that fail -/

/-- The characters and NUL behind them. -/
def text (cs : List Char) (p : Nat) : BitVec 8 := (cs.map ascii).getD p 0

/-- The count is for one byte more than there is, and the sum is right. -/
def miscounted : Image where
  memory := text ['S', '1', '0', '5', '0', '0', '0', '0', '0', '0', 'F', 'A']
  length := 12
  text := by decide
  terminated := by decide

/-- No record follows the header. -/
def endless : Image where
  memory := text ['S', '0']
  length := 2
  text := by decide
  terminated := by decide

/-- A line of 602 characters. -/
def overlong : Image where
  memory p := if p = 0 then ascii 'S' else if p = 1 then ascii '1' else if p < 602 then ascii '0' else 0
  length := 602
  text p hp := by
    simp only [hp, if_true]
    split_ifs <;> decide
  terminated := by decide

/-- The line with the wrong count ends after twelve characters. -/
theorem miscounted_length : HasLength miscounted.memory 12 where
  le := Nat.zero_le _
  marked := by decide
  before := by
    have hall : ∀ k < 12, lineEnd miscounted.memory k = false := by decide
    exact fun k _ hk => hall k hk

/-- The overlong line ends after 602 characters. -/
theorem overlong_length : HasLength overlong.memory 602 where
  le := Nat.zero_le _
  marked := by decide
  before k _ hk := by
    simp only [lineEnd, overlong, hk, if_true]
    split_ifs <;> decide

/-- A wrong count, an overlong line and an image without an end record. -/
theorem not_srec_correct :
    ¬(∀ srec, DecodeCorrect srec miscounted.memory) ∧
      ¬(∀ srec, DecodeCorrect srec overlong.memory) ∧
      ¬∃ srec a, Fuel.Returns (entry endless.memory srec) a := by
  let srec : Srec_t := ⟨0, 0, 0, fun _ => 0⟩
  refine ⟨fun h => ?_, fun h => ?_, ?_⟩
  · have hlength := miscounted_length
    have haccepted : Accepted miscounted.memory := ⟨12, hlength, by decide, by decide⟩
    obtain ⟨srec', hret⟩ := (exists_returns_true_iff srec (by decide)).mpr haccepted
    have hvalid := (h srec).sound srec' hret
    -- Its count asks for 14 characters.
    have hlen : 6 + alen miscounted.memory + 2 * size miscounted.memory = 12 :=
      hvalid.length.unique hlength
    exact absurd hlen (by decide)
  · have hfits := (decodeCorrect_iff overlong_length).mp (h srec)
    obtain ⟨len, hlen, hfit, -⟩ := hfits.resolve_left (by decide)
    obtain rfl := hlen.unique overlong_length
    exact absurd hfit (by decide)
  · rintro ⟨srec, hret⟩
    obtain ⟨q, hq, hterm, -⟩ := (exists_returns_entry_iff.mp hret).resolve_left (by decide)
    -- There is no other `S`.
    have hzero : q = 0 := by
      by_contra hne
      have hmem : endless.memory q ≠ ascii 'S' := by
        by_cases hone : q = 1
        · rw [hone]
          decide
        · show (List.map ascii ['S', '0']).getD q 0 ≠ ascii 'S'
          rw [List.getD_eq_default _ _ (by simp; omega)]
          decide
      exact hmem (of_decide_eq_true hq)
    rw [hzero] at hterm
    exact absurd hterm (by decide)

end Epos.SREC
