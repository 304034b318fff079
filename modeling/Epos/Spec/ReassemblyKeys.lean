import Epos.Network.Fragments
import Epos.Spec.ChecksumCorrect

/-!
# The keys of fragments

The key of a fragment is meant to have the host part of its source above the 16 bits of
its identification. The address is converted to a `bool` before it is shifted, so that
all that is left of the host part is whether it is zero.
-/

namespace Epos

namespace IP

variable {netmask address : Address} {p q : Packet}

/-- Whether the host part of the source is not zero. -/
def Packet.fromHost (netmask : Address) (p : Packet) : Bool := (p.from.and netmask.not).toBool

/-- Fragments of senders in the local network have different keys unless they belong to
    the same datagram. -/
def Separates (netmask address : Address) (p q : Packet) : Prop :=
  p.from.and netmask = address.and netmask → q.from.and netmask = address.and netmask →
    (p.from, p.id) ≠ (q.from, q.id) → key netmask p ≠ key netmask q

theorem key_eq (netmask : Address) (p : Packet) :
    key netmask p = (if p.fromHost netmask then 65536 else 0) + p.id := by
  have hid : p.id < 2 ^ 16 := p.bytes.word_lt 4
  unfold key Packet.fromHost
  rw [← Nat.shiftLeft_add_eq_or_of_lt hid, Nat.shiftLeft_eq]
  split <;> rfl

theorem key_eq_iff : key netmask p = key netmask q ↔
    p.id = q.id ∧ p.fromHost netmask = q.fromHost netmask := by
  have hp : p.id < 2 ^ 16 := p.bytes.word_lt 4
  have hq : q.id < 2 ^ 16 := q.bytes.word_lt 4
  rw [key_eq, key_eq]
  cases p.fromHost netmask <;> cases q.fromHost netmask <;> simp <;> omega

end IP

open IP

/-- Two datagrams with the same identification are told apart only if exactly one of the
    host parts of their senders is zero. -/
theorem keys_separate_iff (netmask address : IP.Address) (p q : Packet) :
    Separates netmask address p q ↔
      (p.from.and netmask = address.and netmask → q.from.and netmask = address.and netmask →
        p.id = q.id → p.from ≠ q.from → p.fromHost netmask ≠ q.fromHost netmask) := by
  constructor
  · intro h hp hq hid hfrom hhost
    have hne : (p.from, p.id) ≠ (q.from, q.id) := fun heq => hfrom (Prod.ext_iff.mp heq).1
    exact h hp hq hne (key_eq_iff.mpr ⟨hid, hhost⟩)
  · intro h hp hq hne hkey
    obtain ⟨hid, hhost⟩ := key_eq_iff.mp hkey
    have hfrom : p.from ≠ q.from := fun heq => hne (Prod.ext heq hid)
    exact h hp hq hid hfrom hhost

/-- A fragment with the identification 7, from 10.0.0.`host`. -/
def fragmentFrom (host : UInt8) : Packet :=
  ⟨.ofList [0x45, 0, 0, 40, 0, 7, 0x20, 0, 64, 0x11, 0, 0, 10, 0, 0, host, 10, 0, 0, 9]⟩

/-- The fragments of 10.0.0.1 and 10.0.0.2 get one key with the netmask 255.255.255.0. -/
theorem not_keys_separate :
    ¬Separates (fun i => if i = 3 then 0 else 255) (fun i => if i = 0 then 10 else 0)
      (fragmentFrom 1) (fragmentFrom 2) := by
  intro h
  have hne : (fragmentFrom 1).from ≠ (fragmentFrom 2).from := fun heq =>
    absurd (congrFun heq 3) (by decide)
  refine h (by decide) (by decide) (fun heq => hne (Prod.ext_iff.mp heq).1) ?_
  exact key_eq_iff.mpr ⟨by decide, by decide⟩

end Epos
