import Epos.ForStd.TransitionSystem
import Epos.Network.TcpWrite
import Epos.Spec.TcpAcceptability

/-!
# What SND.NXT counts

`SND.NXT` is the initial number with the bytes that have been handed to `dsend`, the `SYN` and
the `FIN`. `fsend` adds one for every control segment with `SYN` or `FIN`, whether it is the
first or not. `timeout` takes one away before it sends a segment again, whether or not there
is a buffer for it.
-/

namespace Epos

namespace TCP

open TCP.Flags

namespace Connection

/-- What the alarm sends again. -/
def retransmission (c : Connection) : Option Flags :=
  if c.state = .TIME_WAIT ∨ c.tries = 3 then none
  else if c.state = .FIN_WAIT1 ∨ c.state = .LAST_ACK ∨ c.state = .CLOSING then some (FIN ||| ACK)
  else if c.state = .SYN_SENT then some SYN
  else none

end Connection

/-- A connection with the bytes handed to `dsend`, and whether `SYN` and `FIN` have been
    sent. -/
structure Accounted where
  conn : Connection
  data : Nat := 0
  syn : Bool := false
  fin : Bool := false

namespace Accounted

/-- A segment with these flags is sent if there is a buffer for it. -/
def note (s : Accounted) (ok : Bool) (flags : Flags) : Accounted :=
  { s with
    syn := s.syn || (ok && flags &&& SYN != 0)
    fin := s.fin || (ok && flags &&& FIN != 0) }

/-- `fsend`, the alarm and `dsend`; no other code writes to `_next` or `_initial`, and the
    rest of the connection may change in any way. -/
inductive Action where
  | fsend (ok : Bool) (flags : Flags)
  | timeout (ok : Bool)
  | dsend (ok : Bool) (data : Bytes) (size : Nat)
  | other (c : Connection)

/-- There is no buffer. -/
def Action.Fails : Action → Prop
  | .fsend ok _ | .timeout ok | .dsend ok _ _ => ok = false
  | .other _ => False

/-- The initial number with everything that counts. -/
def total (s : Accounted) : Nat := s.conn.initial + s.data + s.syn.toNat + s.fin.toNat

def Balanced (s : Accounted) : Prop := s.conn.next = s.total % 2 ^ 32

/-- Bytes that are sent again have been handed over before. -/
def accounts : TransitionSystem Accounted Action where
  Init := Balanced
  Enabled _ a :=
    match a with
    | .dsend _ _ size => size ≤ mss
    | _ => True
  next s a :=
    match a with
    | .fsend ok flags => { s.note ok flags with conn := s.conn.fsend ok flags }
    | .timeout ok =>
      { s.note ok (s.conn.retransmission.getD 0) with conn := s.conn.timeout ok }
    | .dsend ok data size =>
      { s with
        conn := s.conn.dsend ok data size
        data := if ok && !s.conn.retransmitting then s.data + size else s.data }
    | .other c => { s with conn := { c with next := s.conn.next, initial := s.conn.initial } }

/-- Without a buffer, `SND.NXT` stays as it was. -/
def KeepsNext (s : Accounted) (a : Action) : Prop :=
  a.Fails → (accounts.next s a).conn.next = s.conn.next

/-- How many of `SYN` and `FIN` a segment has that have not been sent. -/
def newly (s : Accounted) (flags : Flags) : Nat :=
  (flags &&& SYN != 0 && !s.syn).toNat + (flags &&& FIN != 0 && !s.fin).toNat

/-- What `fsend` adds. -/
def taken (flags : Flags) : Nat := (flags &&& FIN != 0 || flags &&& SYN != 0).toNat

/-- A segment with `SYN` or `FIN` has just one of them that has not been sent; and what the
    alarm sends again has been sent, and has a buffer. -/
def Counts (s : Accounted) : Action → Prop
  | .fsend ok flags => ok = true → s.newly flags = taken flags
  | .timeout ok => ∀ flags ∈ s.conn.retransmission, ok = true ∧ s.newly flags = 0
  | _ => True

instance (s : Accounted) : (a : Action) → Decidable (s.Counts a)
  | .fsend _ _ => inferInstanceAs (Decidable (_ → _))
  | .timeout _ => inferInstanceAs (Decidable (∀ flags ∈ s.conn.retransmission, _))
  | .dsend .. => isTrue trivial
  | .other _ => isTrue trivial

variable {s : Accounted} {c : Connection} {flags : Flags}

/-! ## What the functions do with SND.NXT -/

/-- What sending flags does to `SND.NXT`. -/
theorem fsend_next_eq (hlt : c.next < 2 ^ 32) (ok : Bool) (flags : Flags) :
    (c.fsend ok flags).next = if ok then (c.next + taken flags) % 2 ^ 32 else c.next := by
  unfold Connection.fsend taken
  cases ok with
  | false => rfl
  | true =>
    cases hflags : (flags &&& FIN != 0 || flags &&& SYN != 0) with
    | false => exact (Nat.mod_eq_of_lt hlt).symm
    | true => rfl

/-- A timeout keeps the first number. -/
theorem timeout_initial (c : Connection) (ok : Bool) : (c.timeout ok).initial = c.initial := by
  unfold Connection.timeout
  dsimp only
  repeat' split
  all_goals rfl

/-- Without something to send again it keeps `SND.NXT`. -/
theorem timeout_next_of_none (h : c.retransmission = none) (ok : Bool) :
    (c.timeout ok).next = c.next := by
  unfold Connection.retransmission at h
  unfold Connection.timeout
  dsimp only
  by_cases hwait : c.state = .TIME_WAIT
  · rw [if_pos hwait]
    rfl
  · by_cases htries : c.tries = 3
    · rw [if_neg hwait, if_pos htries]
      rfl
    · rw [if_neg (not_or.2 ⟨hwait, htries⟩)] at h
      rw [if_neg hwait, if_neg htries]
      split at h
      · exact nomatch h
      · rename_i hfin
        split at h
        · exact nomatch h
        · rename_i hsyn
          rw [if_neg hfin, if_neg hsyn]

/-- A timeout with flags to send again. -/
theorem timeout_eq_of_some (h : c.retransmission = some flags) (ok : Bool) :
    c.timeout ok =
        ({ c with
            alarm := false
            tries := c.tries + 1
            next := subUnsigned c.next 1 }.fsend ok flags).setTimeout ∧
      taken flags = 1 := by
  unfold Connection.retransmission at h
  unfold Connection.timeout
  dsimp only
  split at h
  · -- closed and tried often enough are the cases without a retransmission
    exact nomatch h
  · rename_i hactive
    obtain ⟨hwait, htries⟩ := not_or.1 hactive
    rw [if_neg hwait, if_neg htries]
    split at h
    · rename_i hfin
      obtain rfl := Option.some.inj h
      rw [if_pos hfin]
      exact ⟨rfl, by decide⟩
    · rename_i hfin
      split at h
      · rename_i hsyn
        obtain rfl := Option.some.inj h
        rw [if_neg hfin, if_pos hsyn]
        exact ⟨rfl, by decide⟩
      · exact nomatch h

/-- One is taken away, and comes back with the segment. -/
theorem timeout_next_of_some (h : c.retransmission = some flags) (hlt : c.next < 2 ^ 32)
    (ok : Bool) : (c.timeout ok).next = if ok then c.next else subUnsigned c.next 1 := by
  obtain ⟨htimeout, htaken⟩ := timeout_eq_of_some h ok
  have hone := subUnsigned_one_eq hlt
  have hfsend := fsend_next_eq (c := { c with
    alarm := false
    tries := c.tries + 1
    next := subUnsigned c.next 1 }) (subUnsigned_lt _ _) ok flags
  rw [htimeout]
  refine hfsend.trans ?_
  rw [htaken]
  cases ok with
  | false => rw [if_neg Bool.false_ne_true, if_neg Bool.false_ne_true]
  | true =>
    dsimp only
    rw [if_pos rfl, if_pos rfl, hone]
    split <;> omega

/-! ## What counts -/

/-- What is accounted for when flags are sent. -/
theorem note_total (ok : Bool) (flags : Flags) :
    (s.note ok flags).total = s.total + if ok then s.newly flags else 0 := by
  unfold note total newly
  cases ok with
  | false => simp
  | true =>
    cases hsyn : s.syn <;> cases hfin : s.fin <;> simp <;> omega

/-- The total only depends on the first number of the connection. -/
theorem total_conn (h : c.initial = s.conn.initial) : ({ s with conn := c }).total = s.total := by
  unfold total
  rw [h]

/-- No flag is new. -/
theorem newly_zero (s : Accounted) : s.newly 0 = 0 := by
  unfold newly
  simp

/-- Flags take one number at most. -/
theorem taken_le (flags : Flags) : taken flags ≤ 1 := Bool.toNat_le _

/-- Two are new at most. -/
theorem newly_le (s : Accounted) (flags : Flags) : s.newly flags ≤ 2 :=
  Nat.add_le_add (Bool.toNat_le _) (Bool.toNat_le _)

/-- With a buffer, the balance is kept exactly if both sides move by the same. -/
theorem add_mod_eq_iff {n a b : Nat} (ha : a ≤ 1) (hb : b ≤ 2) :
    (n % 2 ^ 32 + a) % 2 ^ 32 = (n + b) % 2 ^ 32 ↔ b = a := by
  omega

/-- `SND.NXT` has 32 bits. -/
theorem Balanced.lt (h : s.Balanced) : s.conn.next < 2 ^ 32 := by
  rw [h]
  exact Nat.mod_lt _ (by decide)

/-! ## One step -/

/-- Sending flags keeps the balance exactly if it counts them. -/
theorem Balanced.fsend_iff (h : s.Balanced) (ok : Bool) (flags : Flags) :
    (accounts.next s (.fsend ok flags)).Balanced ∧ s.KeepsNext (.fsend ok flags) ↔
      s.Counts (.fsend ok flags) := by
  have hbalanced : (accounts.next s (.fsend ok flags)).Balanced ↔
      (s.conn.fsend ok flags).next = (s.note ok flags).total % 2 ^ 32 := Iff.rfl
  have hkeeps : s.KeepsNext (.fsend ok flags) ↔
      (ok = false → (s.conn.fsend ok flags).next = s.conn.next) := Iff.rfl
  have hcounts : s.Counts (.fsend ok flags) ↔ (ok = true → s.newly flags = taken flags) := Iff.rfl
  rw [hbalanced, hkeeps, hcounts, fsend_next_eq h.lt, note_total]
  -- without a buffer neither side moves
  cases ok with
  | false =>
    rw [if_neg Bool.false_ne_true, if_neg Bool.false_ne_true, Nat.add_zero]
    exact iff_of_true ⟨h, fun _ => rfl⟩ nofun
  | true =>
    simp only [↓reduceIte, Bool.true_eq_false, false_imp_iff, and_true, true_imp_iff]
    rw [h]
    exact add_mod_eq_iff (taken_le flags) (s.newly_le flags)

/-- A timeout keeps the balance exactly if it counts what it sends again. -/
theorem Balanced.timeout_iff (h : s.Balanced) (ok : Bool) :
    (accounts.next s (.timeout ok)).Balanced ∧ s.KeepsNext (.timeout ok) ↔
      s.Counts (.timeout ok) := by
  have hbalanced : (accounts.next s (.timeout ok)).Balanced ↔
      (s.conn.timeout ok).next =
        (s.note ok (s.conn.retransmission.getD 0)).total % 2 ^ 32 := by
    rw [← total_conn (s := s.note ok (s.conn.retransmission.getD 0)) (timeout_initial s.conn ok)]
    rfl
  have hkeeps : s.KeepsNext (.timeout ok) ↔
      (ok = false → (s.conn.timeout ok).next = s.conn.next) := Iff.rfl
  have hcounts : s.Counts (.timeout ok) ↔
      ∀ flags ∈ s.conn.retransmission, ok = true ∧ s.newly flags = 0 := Iff.rfl
  rw [hbalanced, hkeeps, hcounts, note_total]
  cases hsome : s.conn.retransmission with
  | none =>
    rw [timeout_next_of_none hsome, Option.getD_none, newly_zero, ite_self, Nat.add_zero]
    exact iff_of_true ⟨h, fun _ => rfl⟩ nofun
  | some flags =>
    rw [timeout_next_of_some hsome h.lt, Option.getD_some]
    simp only [Option.mem_some_iff, forall_eq']
    cases ok with
    | false =>
      -- one is missing, and stays so
      have hone := subUnsigned_one_eq h.lt
      have hlt := h.lt
      simp only [Bool.false_eq_true, ↓reduceIte, true_imp_iff, false_and, iff_false, hone]
      rintro ⟨-, heq⟩
      split at heq <;> omega
    | true =>
      simp only [↓reduceIte, Bool.true_eq_false, false_imp_iff, and_true, true_and]
      have hmod := add_mod_eq_iff (n := s.total) (a := 0) (Nat.zero_le 1) (s.newly_le flags)
      rw [Nat.add_zero, Nat.mod_mod, ← h] at hmod
      exact hmod

/-- Sending data keeps the balance. -/
theorem Balanced.dsend (h : s.Balanced) (ok : Bool) (data : Bytes) (size : Nat) :
    (accounts.next s (.dsend ok data size)).Balanced ∧ s.KeepsNext (.dsend ok data size) := by
  have hnext : s.conn.next = s.total % 2 ^ 32 := h
  unfold total at hnext
  unfold Balanced KeepsNext total
  simp only [accounts, Connection.dsend, Action.Fails]
  by_cases hsent : (ok && !s.conn.retransmitting) = true
  · simp only [hsent, ↓reduceIte]
    refine ⟨by omega, ?_⟩
    rintro rfl
    exact nomatch hsent
  · simp only [hsent]
    exact ⟨hnext, fun _ => rfl⟩

/-- A step keeps the balance exactly if it counts. -/
theorem Balanced.step_iff (h : s.Balanced) (a : Action) :
    (accounts.next s a).Balanced ∧ s.KeepsNext a ↔ s.Counts a := by
  cases a with
  | fsend ok flags => exact h.fsend_iff ok flags
  | timeout ok => exact h.timeout_iff ok
  | dsend ok data size => exact iff_of_true (h.dsend ok data size) trivial
  | other c => exact iff_of_true ⟨h, nofun⟩ trivial

end Accounted

open Accounted

/-- `SND.NXT` counts what has been sent, and stays where a buffer is missing, in exactly the
    runs in which every `SYN` and `FIN` is sent once and the alarm sends again what has been
    sent, with a buffer. -/
theorem snd_next_counts_iff {s : Accounted} {as : List Accounted.Action} (hs : s.Balanced)
    (hv : accounts.Valid s as) :
    accounts.Always Balanced s as ∧ accounts.Meets KeepsNext s as ↔
      accounts.Meets Counts s as :=
  TransitionSystem.always_and_meets_iff (I := Balanced) (fun _ h => h)
    (fun _ a h _ hcounts => ((Balanced.step_iff h a).2 hcounts).1)
    (fun _ a h _ => Balanced.step_iff h a) hs hv

/-- A connection with this initial number that `connect` opens. -/
def openingAt (n : Nat) (s : State) : Connection where
  fromPort := 0
  toPort := 0
  sequence := n
  peer := Address.null
  next := n
  unacknowledged := n
  initial := n
  state := s

/-- `SYN`, ten bytes and `FIN`; the `SYN` is sent twice. -/
def opensAndCloses : List Accounted.Action :=
  [.fsend true SYN, .timeout true, .other (openingAt 1000 .ESTABLISHED),
    .dsend true (fun _ => 0) 10, .fsend true (FIN ||| ACK)]

/-- A connection that opens and closes. -/
theorem snd_next_counts_example :
    accounts.Always Balanced ⟨openingAt 1000 .SYN_SENT, 0, false, false⟩ opensAndCloses ∧
      accounts.Meets KeepsNext ⟨openingAt 1000 .SYN_SENT, 0, false, false⟩ opensAndCloses :=
  have hs : Balanced ⟨openingAt 1000 .SYN_SENT, 0, false, false⟩ := rfl
  have hv : accounts.Valid ⟨openingAt 1000 .SYN_SENT, 0, false, false⟩ opensAndCloses :=
    ⟨trivial, trivial, trivial, show 10 ≤ mss by decide, trivial, trivial⟩
  (snd_next_counts_iff hs hv).2 (by decide +kernel)

/-- The alarm goes off without a buffer for the second `SYN`: the first is not counted any
    more. -/
theorem not_snd_next_counts :
    ¬∀ (s : Accounted) (as : List Accounted.Action), s.Balanced → accounts.Valid s as →
      accounts.Always Balanced s as ∧ accounts.Meets KeepsNext s as := by
  intro h
  have hmeets := (h ⟨openingAt 1000 .SYN_SENT, 0, false, false⟩
    [.fsend true SYN, .timeout false] rfl ⟨trivial, trivial, trivial⟩).2
  exact absurd (hmeets.2.1 rfl) (by decide)

end TCP

end Epos
