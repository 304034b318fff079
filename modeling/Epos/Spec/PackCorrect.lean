import Epos.Network.Pack
import Mathlib.Data.List.TakeWhile

/-!
# The protection of messages can be taken off

The receiver looks for a time window in which the message verifies, among its own, the one before
and the one behind. Whatever an earlier try has decrypted into the message, the next one starts
from the original, so `unpack` is a search for the first window, and what it leaves is what that
window makes of the message as it was received.
-/

namespace Epos

namespace TSTP.Security.Pack

open Poly1305 (Block Memory)

/-! ## Memory -/

variable {msg : Memory} {b b' : Block}

/-- Reading back what was stored. -/
@[simp] theorem load_store (msg : Memory) (offset : Nat) (b : Block) :
    load (store msg offset b) offset = b := by
  funext i
  simp [load, store]

/-- The later block wins. -/
@[simp] theorem store_store (msg : Memory) (offset : Nat) (b b' : Block) :
    store (store msg offset b) offset b' = store msg offset b' := by
  funext i
  simp only [store]
  split <;> rfl

/-- Storing what is there changes nothing. -/
@[simp] theorem store_load (msg : Memory) (offset : Nat) : store msg offset (load msg offset) = msg := by
  funext i
  simp only [store, load]
  split
  · next h =>
    congr 1
    omega
  · rfl

/-- What is protected and the MAC are apart. -/
@[simp] theorem load_store_mac (msg : Memory) (b : Block) :
    load (store msg SECRET_SIZE b) 0 = load msg 0 := by
  funext i
  have hi : 0 + i.val < SECRET_SIZE := by
    have hlt := i.isLt
    simp only [SECRET_SIZE]
    omega
  exact dif_neg fun h => absurd h.1 (Nat.not_le.mpr hi)

/-- The two blocks of a message are apart. -/
@[simp] theorem load_mac_store (msg : Memory) (b : Block) :
    load (store msg 0 b) SECRET_SIZE = load msg SECRET_SIZE := by
  funext i
  have hi : ¬ SECRET_SIZE + i.val - 0 < 16 := by
    simp only [SECRET_SIZE]
    omega
  exact dif_neg fun h => hi h.2

/-! ## Windows -/

/-- The windows that are tried, one after the other. -/
def tried (t : Time) : List Time := [t, t - 1, t + 1]

/-- The times that are tried. -/
theorem sub_one_add_two (t : Time) : t - 1 + 2 = t + 1 := by
  grind

/-- A window that is at most one away from another one is tried for it. -/
theorem mem_tried {t t' : Time} (h : t.toNat ≤ t'.toNat + 1) (h' : t'.toNat ≤ t.toNat + 1) :
    t ∈ tried t' := by
  have ht := t.toNat_lt
  have ht' := t'.toNat_lt
  have hcases : t = t' ∨ t = t' - 1 ∨ t = t' + 1 := by
    simp only [← UInt64.toNat_inj, UInt64.toNat_sub, UInt64.toNat_add]
    simp
    omega
  simpa [tried] using hcases

/-- The first one that passes a test. -/
theorem find?_of_first {α : Type} [DecidableEq α] {p : α → Bool} {l : List α} {w : α}
    (hmem : w ∈ l) (hw : p w = true) (hearlier : ∀ x ∈ l.takeWhile (· ≠ w), p x = false) :
    l.find? p = some w := by
  induction l with
  | nil => simp at hmem
  | cons x l ih =>
    by_cases hx : x = w
    · simp [hx, hw]
    · have hfirst : p x = false := hearlier x (by simp [hx])
      rw [List.find?_cons_of_neg (by simp [hfirst])]
      apply ih
      · simpa [Ne.symm hx] using hmem
      · intro y hy
        apply hearlier
        rw [List.takeWhile_cons_of_pos (by simp [hx])]
        exact List.mem_cons_of_mem x hy

/-! ## Messages -/

namespace Crypto

variable (c : Crypto) (peer : Peer) {mac : Block} {t : Time}

/-- What a window makes of a message as it was received. -/
def opened (msg : Memory) (t : Time) : Block :=
  if c.use_encryption then
    c.decrypt (load msg 0) (c.stamp peer.id peer.master_secret (nonce t)
      (mi peer.id peer.master_secret))
  else load msg 0

/-- A message verifies in a window. -/
def verifies (msg : Memory) (mac : Block) (t : Time) : Bool :=
  c.verify peer.id peer.master_secret mac (nonce t) (c.opened peer msg t)

/-- `verify` compares the stamps. -/
theorem verify_iff (id ms mac nonce message : Block) :
    c.verify id ms mac nonce message = true ↔ c.stamp id ms nonce message = mac := by
  simp only [verify, List.all_eq_true, List.mem_finRange, forall_const, beq_iff_eq]
  exact ⟨fun h => funext h, fun h i => by rw [h]⟩

/-- Whatever an earlier try has left in the message, a try starts from the original. -/
theorem attempt_store (msg : Memory) (mac : Block) (t t' : Time) :
    c.attempt peer (load msg 0) mac t (store msg 0 (c.opened peer msg t')) =
      (c.verifies peer msg mac t, store msg 0 (c.opened peer msg t)) := by
  by_cases h : c.use_encryption <;> simp [attempt, verifies, opened, h]

/-- One attempt to unpack. -/
theorem attempt_eq (msg : Memory) (mac : Block) (t : Time) :
    c.attempt peer (load msg 0) mac t msg =
      (c.verifies peer msg mac t, store msg 0 (c.opened peer msg t)) := by
  by_cases h : c.use_encryption <;> simp [attempt, verifies, opened, h]

/-- `unpack` looks for the first window in which the message verifies. -/
theorem unpack_eq (msg : Memory) (mac : Block) (reception_time : Time) :
    c.unpack peer msg mac reception_time =
      match (tried (reception_time / POLY_TIME_WINDOW)).find? (c.verifies peer msg mac) with
      | some t => (true, store msg 0 (c.opened peer msg t))
      | none => (false, msg) := by
  simp only [unpack, attempt_eq, attempt_store, sub_one_add_two, tried, List.find?_cons,
    List.find?_nil, store_store, store_load]
  generalize reception_time / POLY_TIME_WINDOW = t
  cases c.verifies peer msg mac t with
  | true => rfl
  | false =>
    cases c.verifies peer msg mac (t - 1) with
    | true => rfl
    | false => cases c.verifies peer msg mac (t + 1) <;> rfl

/-- `verify_auth_request` looks for any window in which the password verifies. -/
theorem verify_auth_request_eq (master_secret id otp : Block) (now : Time) :
    c.verify_auth_request master_secret id otp now =
      (tried (now / POLY_TIME_WINDOW)).any fun t =>
        c.verify id master_secret otp (nonce t) (mi id master_secret) := by
  simp only [verify_auth_request, sub_one_add_two, tried, List.any_cons, List.any_nil]
  generalize now / POLY_TIME_WINDOW = t
  cases c.verify id master_secret otp (nonce t) (mi id master_secret) with
  | true => rfl
  | false =>
    cases c.verify id master_secret otp (nonce (t - 1)) (mi id master_secret) with
    | true => rfl
    | false =>
      cases c.verify id master_secret otp (nonce (t + 1)) (mi id master_secret) <;> rfl

/-- The MAC that `pack` puts behind a message is the one of the plain message. -/
theorem load_pack_mac (msg : Memory) (sent : Time) :
    load (c.pack msg peer sent) SECRET_SIZE =
      c.stamp peer.id peer.master_secret (nonce (sent / POLY_TIME_WINDOW)) (load msg 0) := by
  by_cases h : c.use_encryption <;> simp [pack, h]

/-- In the window of the sender, the message is opened again. -/
theorem opened_pack (hcipher : ∀ message key, c.decrypt (c.encrypt message key) key = message)
    (msg : Memory) (sent : Time) :
    c.opened peer (c.pack msg peer sent) (sent / POLY_TIME_WINDOW) = load msg 0 := by
  by_cases h : c.use_encryption
  · simp [opened, pack, h, hcipher]
  · simp [opened, pack, h]

/-- A packed message is verified with its key at its time. -/
theorem verifies_pack (hcipher : ∀ message key, c.decrypt (c.encrypt message key) key = message)
    (msg : Memory) (sent : Time) :
    c.verifies peer (c.pack msg peer sent) (load (c.pack msg peer sent) SECRET_SIZE)
      (sent / POLY_TIME_WINDOW) = true := by
  rw [verifies, verify_iff, opened_pack c peer hcipher, load_pack_mac]

/-- For every message, peer and times, with and without encryption. -/
theorem pack_unpack_correct
    (hcipher : ∀ message key, c.decrypt (c.encrypt message key) key = message) :
    -- what was packed is unpacked
    (∀ (peer : Peer) (msg : Memory) (sent received : Time),
      (sent / POLY_TIME_WINDOW).toNat ≤ (received / POLY_TIME_WINDOW).toNat + 1 →
      (received / POLY_TIME_WINDOW).toNat ≤ (sent / POLY_TIME_WINDOW).toNat + 1 →
      let packed := c.pack msg peer sent
      let mac := load packed SECRET_SIZE
      (c.unpack peer packed mac received).1 = true ∧
      ((∀ t ∈ (tried (received / POLY_TIME_WINDOW)).takeWhile (· ≠ sent / POLY_TIME_WINDOW),
          c.verifies peer packed mac t = false) →
        (c.unpack peer packed mac received).2 = store packed 0 (load msg 0))) ∧
    -- what does not verify is left as it was
    (∀ (peer : Peer) (msg : Memory) (mac : Block) (received : Time),
      (c.unpack peer msg mac received).1 = false → (c.unpack peer msg mac received).2 = msg) ∧
    -- passwords are accepted
    ∀ (master_secret id : Block) (made checked : Time),
      (made / POLY_TIME_WINDOW).toNat ≤ (checked / POLY_TIME_WINDOW).toNat + 1 →
      (checked / POLY_TIME_WINDOW).toNat ≤ (made / POLY_TIME_WINDOW).toNat + 1 →
      c.verify_auth_request master_secret id (c.otp master_secret id made) checked = true := by
  refine ⟨?_, ?_, ?_⟩
  · intro peer msg sent received hle hle' packed mac
    have hmem := mem_tried hle hle'
    have hverifies : c.verifies peer packed mac (sent / POLY_TIME_WINDOW) = true :=
      c.verifies_pack peer hcipher msg sent
    rw [unpack_eq]
    constructor
    · -- some window verifies, as the one of the sender does
      have hsome : ((tried (received / POLY_TIME_WINDOW)).find?
          (c.verifies peer packed mac)).isSome :=
        List.find?_isSome.mpr ⟨_, hmem, hverifies⟩
      obtain ⟨t, ht⟩ := Option.isSome_iff_exists.mp hsome
      rw [ht]
    · intro hearlier
      rw [find?_of_first hmem hverifies hearlier]
      show store packed 0 (c.opened peer packed _) = _
      rw [c.opened_pack peer hcipher msg sent]
  · intro peer msg mac received hfalse
    rw [unpack_eq] at hfalse ⊢
    split at hfalse
    · cases hfalse
    · rfl
  · intro master_secret id made checked hle hle'
    rw [verify_auth_request_eq, List.any_eq_true]
    refine ⟨made / POLY_TIME_WINDOW, mem_tried hle hle', ?_⟩
    rw [verify_iff]
    rfl

/-- A cipher that adds the key bit by bit, and sums as stamps. -/
def sums : Crypto where
  stamp id ms nonce message i := id i + ms i + 3 * nonce i + message i
  encrypt message key i := message i ^^^ key i
  decrypt message key i := message i ^^^ key i
  use_encryption := true

/-- A peer and a message of its own. -/
def somePeer : Peer := { id := fun _ => 1, master_secret := fun _ => 2 }

def someMessage : Memory := fun i => UInt8.ofNat i

/-- A message that was sent one microsecond before its window ended, and received in the next one,
    and a password for that time. -/
theorem pack_unpack_correct_example :
    (sums.unpack somePeer (sums.pack someMessage somePeer 29999999)
        (load (sums.pack someMessage somePeer 29999999) SECRET_SIZE) 30000000).1 = true ∧
    (sums.unpack somePeer (sums.pack someMessage somePeer 29999999)
        (load (sums.pack someMessage somePeer 29999999) SECRET_SIZE) 30000000).2 =
      store (sums.pack someMessage somePeer 29999999) 0 (load someMessage 0) ∧
    sums.verify_auth_request (fun _ => 2) (fun _ => 1)
      (sums.otp (fun _ => 2) (fun _ => 1) 29999999) 30000000 = true := by
  have hcipher : ∀ message key, sums.decrypt (sums.encrypt message key) key = message := by
    intro message key
    funext i
    show message i ^^^ key i ^^^ key i = message i
    rw [UInt8.xor_assoc, UInt8.xor_self, UInt8.xor_zero]
  obtain ⟨hunpack, -, hotp⟩ := sums.pack_unpack_correct hcipher
  obtain ⟨htrue, hopen⟩ := hunpack somePeer someMessage 29999999 30000000 (by decide) (by decide)
  -- it does not verify in the window in which it was received
  have hbefore : (tried (30000000 / POLY_TIME_WINDOW)).takeWhile
      (· ≠ 29999999 / POLY_TIME_WINDOW) = [1] := by decide
  have hfalse : sums.verifies somePeer (sums.pack someMessage somePeer 29999999)
      (load (sums.pack someMessage somePeer 29999999) SECRET_SIZE) 1 = false := by decide +kernel
  rw [hbefore, List.forall_mem_singleton] at hopen
  exact ⟨htrue, hopen hfalse, hotp _ _ _ _ (by decide) (by decide)⟩

end Crypto

end TSTP.Security.Pack

end Epos
