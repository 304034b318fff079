import Epos.ForStd.RecursiveLock
import Epos.Utility.Spin
import Mathlib.Algebra.Group.Nat.Defs

/-!
# The spin lock refines a recursive lock

The recursive lock is acquired when `_level++` writes and released when `--_level` does; all
other accesses leave it as it is. It is free from the last `--_level` on, the spin lock only once
`_owner` is cleared.
-/

namespace Epos.Util.Spin

variable {ι : Type*} {ids : Ids ι} {s s' : State ι} {t u : ι}
  {l l' : RecursiveLock ι}

/-! ## What a thread may rely on -/

/-- The thread has taken the lock and not given it back. -/
def Point.inside : Point → Bool
  | .outside | .cas => false
  | _ => true

/-- The thread is in `acquire()`. -/
def Point.acquiring : Point → Bool
  | .cas | .incRead | .incWrite _ => true
  | _ => false

/-- The thread is in `release()`. -/
def Point.releasing : Point → Bool
  | .outside | .cas | .incRead | .incWrite _ => false
  | _ => true

/-- The thread is in `release()` and has written `--_level`. -/
def Point.lowered : Point → Bool
  | .test | .clearLevel | .clearOwner => true
  | _ => false

/-- The calls of `acquire()` by `t` that `_level` counts. -/
def State.counted (s : State ι) (t : ι) : Nat :=
  if (s.point t).lowered then s.unmatched t - 1 else s.unmatched t

/-- The state as `t` relies on it. -/
structure Relies (ids : Ids ι) (s : State ι) (t : ι) : Prop where
  owned : (s.point t).inside ∨ 0 < s.unmatched t → s.owner = ids.id t
  due : (s.point t).releasing → 0 < s.unmatched t
  entered : s.owner = ids.id t → s.point t = .outside → 0 < s.unmatched t
  loaded : ∀ v, s.point t = .incWrite v ∨ s.point t = .decWrite v → v = s.level
  emptied : s.point t = .clearLevel ∨ s.point t = .clearOwner → s.counted t = 0

structure Inv (ids : Ids ι) (l : RecursiveLock ι) (s : State ι) : Prop where
  accounts : l.Accounts s.counted
  level : s.level.toInt = l.level
  known : s.owner = 0 ∨ ∃ t, s.owner = ids.id t
  relies : ∀ t, Relies ids s t

/-- The lock after an action. -/
def abstractNext (l : RecursiveLock ι) (s : State ι) : Action ι → RecursiveLock ι
  | .acquire _ | .release _ => l
  | .access t =>
    match s.point t with
    | .incWrite _ => l.acquire t
    | .decWrite _ => l.release
    | _ => l

/-- The access completes a call of `acquire()`. -/
def Point.completes : Point → Bool
  | .incWrite _ => true
  | _ => false

/-- The action completes no call of `acquire()` beyond the largest `int`. -/
def Nests (s : State ι) : Action ι → Prop
  | .access t => (s.point t).completes → s.unmatched t + 1 < 2 ^ 31
  | .acquire _ | .release _ => True

instance (s : State ι) : (a : Action ι) → Decidable (Nests s a)
  | .access _ => inferInstanceAs (Decidable (_ → _))
  | .acquire _ | .release _ => isTrue trivial

/-- Not more levels are counted than there are unmatched acquisitions. -/
theorem State.counted_le : s.counted t ≤ s.unmatched t := by
  unfold State.counted
  split <;> omega

/-- A thread that is not the owner is outside and has nothing unmatched. -/
theorem Relies.idle (h : Relies ids s t) (ht : s.owner ≠ ids.id t) :
    (s.point t).inside = false ∧ s.unmatched t = 0 := by
  constructor
  · by_contra hin
    exact ht (h.owned (.inl (by simpa using hin)))
  · by_contra hn
    exact ht (h.owned (.inr (by omega)))

/-- A thread that does not own the lock relies on nothing. -/
theorem Relies.of_idle (hp : (s.point t).inside = false) (hn : s.unmatched t = 0)
    (ht : s.owner ≠ ids.id t) : Relies ids s t where
  owned h := by
    rw [hp, hn] at h
    simp at h
  due h := by
    -- A releasing thread is inside.
    cases hpt : s.point t <;> simp_all [Point.inside, Point.releasing]
  entered h := absurd h ht
  loaded v h := by
    rcases h with h | h <;> simp [h, Point.inside] at hp
  emptied h := by
    rcases h with h | h <;> simp [h, Point.inside] at hp

/-- The threads that make no access. -/
theorem Relies.other (h : Relies ids s u) (hpoint : s'.point u = s.point u)
    (hunmatched : s'.unmatched u = s.unmatched u)
    (hspin : s'.toSpin = s.toSpin ∨ s.owner ≠ ids.id u ∧ s'.owner ≠ ids.id u) :
    Relies ids s' u := by
  rcases hspin with heq | ⟨hne, hne'⟩
  · -- The words are as before.
    have hcounted : s'.counted u = s.counted u := by
      unfold State.counted
      rw [hpoint, hunmatched]
    constructor
    · rw [hpoint, hunmatched, heq]
      exact h.owned
    · rw [hpoint, hunmatched]
      exact h.due
    · rw [hpoint, hunmatched, heq]
      exact h.entered
    · rw [hpoint, heq]
      exact h.loaded
    · rw [hpoint, hcounted]
      exact h.emptied
  · -- `u` owns the lock neither before nor after.
    have hidle := h.idle hne
    exact .of_idle (hpoint ▸ hidle.1) (hunmatched ▸ hidle.2) hne'

namespace Inv

/-- The invariant holds at the beginning. -/
theorem init : Inv ids {} (State.init : State ι) where
  accounts := RecursiveLock.Accounts.init
  level := rfl
  known := .inl rfl
  relies t := .of_idle rfl rfl (ids.ne_zero t).symm

/-- Only the owner has acquired the recursive lock. -/
theorem owner_eq (h : Inv ids l s) (ht : l.owner = some t) : s.owner = ids.id t := by
  have hpos := h.accounts.owner_pos t ht
  exact (h.relies t).owned (.inr (hpos.trans_le State.counted_le))

/-- The level counts what the owner has acquired. -/
theorem level_eq (h : Inv ids l s) (ht : s.owner = ids.id t) :
    s.level.toInt = s.counted t := by
  rw [h.level]
  by_cases hown : l.owner = some t
  · rw [h.accounts.level_eq t hown]
  · -- An owner of the recursive lock would own the spin lock in place of `t`.
    have hnone : l.owner = none := by
      rw [Option.eq_none_iff_forall_ne_some]
      intro u hu
      have hid : ids.id u = ids.id t := (h.owner_eq hu).symm.trans ht
      exact hown (ids.injective hid ▸ hu)
    rw [h.accounts.others t hown, h.accounts.free hnone]

/-- The owner may acquire the abstract lock. -/
theorem canAcquire (h : Inv ids l s) (ht : s.owner = ids.id t) : l.CanAcquire t := by
  by_cases hown : l.owner = none
  · exact .inl hown
  · obtain ⟨u, hu⟩ := Option.ne_none_iff_exists'.mp hown
    have hid : ids.id u = ids.id t := (h.owner_eq hu).symm.trans ht
    exact .inr (ids.injective hid ▸ hu)

end Inv

/-- The others, when `t` owns the lock. -/
theorem not_owner (ht : s.owner = ids.id t) (hu : u ≠ t) : s.owner ≠ ids.id u := by
  intro hown
  exact hu (ids.injective (hown.symm.trans ht))

/-! ## One action -/

/-- Everything else is unchanged. -/
structure Frame (s s' : State ι) (t : ι) : Prop where
  point : ∀ u, u ≠ t → s'.point u = s.point u
  unmatched : ∀ u, u ≠ t → s'.unmatched u = s.unmatched u

/-- A step of another thread changes no count. -/
theorem Frame.counted (h : Frame s s' t) (hu : u ≠ t) : s'.counted u = s.counted u := by
  unfold State.counted
  rw [h.point u hu, h.unmatched u hu]

namespace Inv

/-- An action of `t`, when what the others may access changes only while they own nothing. -/
theorem step (h : Inv ids l s) (hframe : Frame s s' t)
    (hspin : s'.toSpin = s.toSpin ∨ ∀ u, u ≠ t → s.owner ≠ ids.id u ∧ s'.owner ≠ ids.id u)
    (haccounts : l'.Accounts s'.counted) (hlevel : s'.level.toInt = l'.level)
    (hknown : s'.owner = 0 ∨ ∃ t, s'.owner = ids.id t) (ht : Relies ids s' t) :
    Inv ids l' s' where
  accounts := haccounts
  level := hlevel
  known := hknown
  relies u := by
    by_cases hu : u = t
    · rw [hu]
      exact ht
    · apply (h.relies u).other (hframe.point u hu) (hframe.unmatched u hu)
      exact hspin.imp_right fun hne => hne u hu

/-- An action of `t` that leaves the words as they are. -/
theorem stutter (h : Inv ids l s) (hframe : Frame s s' t) (hspin : s'.toSpin = s.toSpin)
    (hcounted : s'.counted t = s.counted t) (ht : Relies ids s' t) : Inv ids l s' := by
  have hcounted' (u : ι) : s'.counted u = s.counted u := by
    by_cases hu : u = t
    · rw [hu, hcounted]
    · exact hframe.counted hu
  apply h.step hframe (.inl hspin) (h.accounts.congr hcounted') _ _ ht
  · rw [hspin]
    exact h.level
  · rw [hspin]
    exact h.known

end Inv

/-- A thread that has not lowered the level is counted with all its calls. -/
theorem counted_eq (hp : (s.point t).lowered = false) : s.counted t = s.unmatched t := by
  unfold State.counted
  rw [hp, if_neg Bool.false_ne_true]

/-- A level that has been lowered is counted no more. -/
theorem counted_lowered (hp : (s.point t).lowered = true) :
    s.counted t = s.unmatched t - 1 := by
  unfold State.counted
  rw [if_pos hp]

variable [DecidableEq ι] {p : Point} {n : Nat}

/-- What the action does to the words is left open. -/
theorem goto_frame (w : Spin) : Frame s (State.goto { s with toSpin := w } t p) t where
  point _ hu := Function.update_of_ne hu _ _
  unmatched _ _ := rfl

/-- A return changes nothing of the other threads. -/
theorem ret_frame (w : Spin) : Frame s (State.ret { s with toSpin := w } t n) t where
  point _ hu := Function.update_of_ne hu _ _
  unmatched _ hu := Function.update_of_ne hu _ _

/-- What `goto` and a return do to their own thread. -/
@[simp] theorem goto_point : (s.goto t p).point t = p := Function.update_self _ _ _
@[simp] theorem goto_toSpin : (s.goto t p).toSpin = s.toSpin := rfl
@[simp] theorem goto_unmatched : (s.goto t p).unmatched = s.unmatched := rfl
@[simp] theorem ret_point : (s.ret t n).point t = .outside := Function.update_self _ _ _
@[simp] theorem ret_toSpin : (s.ret t n).toSpin = s.toSpin := rfl
@[simp] theorem ret_unmatched : (s.ret t n).unmatched t = n := Function.update_self _ _ _

/-- What is counted depends on the point. -/
theorem goto_counted :
    (s.goto t p).counted t = if p.lowered then s.unmatched t - 1 else s.unmatched t := by
  unfold State.counted
  rw [goto_point, goto_unmatched]

/-- What is counted after a return. -/
theorem ret_counted : (s.ret t n).counted t = n := by
  unfold State.counted
  rw [ret_point, ret_unmatched]
  rfl

/-- The test of `release()`, by the level. -/
theorem access_eq_test (ht : s.point t = .test) : s.access ids t =
    if s.level ≤ 0 then s.goto t .clearLevel else s.ret t (s.unmatched t - 1) := by
  simp only [State.access, ht]

/-- The compare-and-swap lets the owner go on and makes another thread try again. -/
theorem access_eq_cas (ht : s.point t = .cas) : s.access ids t =
    State.goto { s with owner := if s.owner = 0 then ids.id t else s.owner } t
      (if s.owner ≠ ids.id t then .cas else .incRead) := by
  simp only [State.access, ht]
  rfl

namespace Inv

/-- Calling `acquire()` keeps the invariant. -/
theorem acquire (h : Inv ids l s) (ht : s.point t = .outside) : Inv ids l (s.goto t .cas) := by
  have hrel := h.relies t
  apply h.stutter (goto_frame _) rfl
  · exact goto_counted.trans (counted_eq (by rw [ht]; rfl)).symm
  · constructor
    · simpa [Point.inside, ht] using hrel.owned
    · simp [Point.releasing]
    · simp
    · simp
    · simp

/-- Calling `release()` keeps the invariant. -/
theorem release (h : Inv ids l s) (ht : s.point t = .outside) (hn : 0 < s.unmatched t) :
    Inv ids l (s.goto t .decRead) := by
  have hown := (h.relies t).owned (.inr hn)
  apply h.stutter (goto_frame _) rfl
  · exact goto_counted.trans (counted_eq (by rw [ht]; rfl)).symm
  · constructor
    · simpa using fun _ => hown
    · simpa using fun _ => hn
    · simp
    · simp
    · simp

/-- The compare-and-swap keeps the invariant. -/
theorem cas (h : Inv ids l s) (ht : s.point t = .cas) : Inv ids l (s.access ids t) := by
  have hrel := h.relies t
  have hcounted : s.counted t = s.unmatched t := counted_eq (by rw [ht]; rfl)
  have haccess : s.access ids t = _ := access_eq_cas ht
  by_cases hfree : s.owner = 0
  · -- The lock is taken, and the loop goes on once.
    have hne (u : ι) : s.owner ≠ ids.id u := by
      rw [hfree]
      exact (ids.ne_zero u).symm
    rw [if_pos hfree, if_pos (hne t)] at haccess
    rw [haccess]
    apply h.step (goto_frame _)
    · refine .inr fun u hu => ⟨hne u, ?_⟩
      exact fun heq => hu (ids.injective heq).symm
    · apply h.accounts.congr
      intro u
      by_cases hu : u = t
      · rw [hu, goto_counted, hcounted]
        rfl
      · exact (goto_frame _).counted hu
    · exact h.level
    · exact .inr ⟨t, rfl⟩
    · constructor
      · exact fun _ => rfl
      · simp [Point.releasing]
      · simp
      · simp
      · simp
  · rw [if_neg hfree] at haccess
    by_cases hown : s.owner = ids.id t
    · -- `cas` returns the caller's own id, which leaves the loop.
      rw [if_neg (by simpa using hown)] at haccess
      rw [haccess]
      apply h.stutter (goto_frame _) rfl (by rw [goto_counted, hcounted]; rfl)
      constructor
      · exact fun _ => hown
      · simp [Point.releasing]
      · simp
      · simp
      · simp
    · -- Another thread owns the lock, and the loop goes on.
      rw [if_pos hown] at haccess
      rw [haccess]
      apply h.stutter (goto_frame _) rfl (by rw [goto_counted, hcounted]; rfl)
      apply Relies.of_idle
      · simp [Point.inside]
      · exact (hrel.idle hown).2
      · exact hown

/-- Reading the level keeps the invariant. -/
theorem incRead (h : Inv ids l s) (ht : s.point t = .incRead) :
    Inv ids l (s.goto t (.incWrite s.level)) := by
  have hown := (h.relies t).owned (.inl (by rw [ht]; rfl))
  apply h.stutter (goto_frame _) rfl
  · exact goto_counted.trans (counted_eq (by rw [ht]; rfl)).symm
  · constructor
    · simpa using fun _ => hown
    · simp [Point.releasing]
    · simp
    · simp
    · simp

/-- The read of `release()` keeps the invariant. -/
theorem decRead (h : Inv ids l s) (ht : s.point t = .decRead) :
    Inv ids l (s.goto t (.decWrite s.level)) := by
  have hown := (h.relies t).owned (.inl (by rw [ht]; rfl))
  have hdue := (h.relies t).due (by rw [ht]; rfl)
  apply h.stutter (goto_frame _) rfl
  · exact goto_counted.trans (counted_eq (by rw [ht]; rfl)).symm
  · constructor
    · simpa using fun _ => hown
    · simpa using fun _ => hdue
    · simp
    · simp
    · simp

/-- Writing the incremented level acquires the abstract lock. -/
theorem incWrite (h : Inv ids l s) (ht : s.point t = .incWrite s.level)
    (hn : s.unmatched t + 1 < 2 ^ 31) :
    Inv ids (l.acquire t) (State.ret { s with level := s.level + 1 } t (s.unmatched t + 1)) := by
  have hown := (h.relies t).owned (.inl (by rw [ht]; rfl))
  have hcounted : s.counted t = s.unmatched t := counted_eq (by rw [ht]; rfl)
  have hlevel := h.level_eq hown
  apply h.step (ret_frame _)
  · exact .inr fun u hu => ⟨not_owner hown hu, not_owner hown hu⟩
  · apply h.accounts.acquire (h.canAcquire hown)
    · rw [ret_counted, hcounted]
    · exact fun u hu => (ret_frame _).counted hu
  · -- The level is the number of calls, so that `hn` keeps the sum inside of `int`.
    show (s.level + 1).toInt = ((l.level + 1 : Nat) : Int)
    have hstep : (s.level + 1).toInt = s.level.toInt + 1 := by
      rw [Int32.toInt_add]
      apply Int.bmod_eq_of_le <;> simp <;> omega
    have := h.level
    omega
  · exact .inr ⟨t, hown⟩
  · constructor
    · exact fun _ => hown
    · simp [Point.releasing]
    · simp
    · simp
    · simp

/-- Writing the decremented level releases it. -/
theorem decWrite (h : Inv ids l s) (ht : s.point t = .decWrite s.level) :
    Inv ids l.release (State.goto { s with level := s.level - 1 } t .test) := by
  have hown := (h.relies t).owned (.inl (by rw [ht]; rfl))
  have hdue := (h.relies t).due (by rw [ht]; rfl)
  have hcounted : s.counted t = s.unmatched t := counted_eq (by rw [ht]; rfl)
  have hlevel := h.level_eq hown
  have haccounts : l.release.Accounts (State.goto { s with level := s.level - 1 } t .test).counted := by
    apply h.accounts.release (hcounted ▸ hdue)
    · rw [goto_counted, hcounted]
      rfl
    · exact fun u hu => (goto_frame _).counted hu
  apply h.step (goto_frame _)
  · exact .inr fun u hu => ⟨not_owner hown hu, not_owner hown hu⟩
  · exact haccounts
  · have hrelease : l.release.level = l.level - 1 := by
      unfold RecursiveLock.release
      split
      · show 0 = l.level - 1
        omega
      · rfl
    show (s.level - 1).toInt = (l.release.level : Int)
    -- The call to be released is counted, and the level is not zero.
    have hstep : (s.level - 1).toInt = s.level.toInt - 1 := by
      have hlt := s.level.toInt_lt
      rw [Int32.toInt_sub]
      apply Int.bmod_eq_of_le <;> simp <;> omega
    have := h.level
    omega
  · exact .inr ⟨t, hown⟩
  · constructor
    · exact fun _ => hown
    · simpa using fun _ => hdue
    · simp
    · simp
    · simp

/-- The test of the level keeps the invariant. -/
theorem test (h : Inv ids l s) (ht : s.point t = .test) : Inv ids l (s.access ids t) := by
  have hown := (h.relies t).owned (.inl (by rw [ht]; rfl))
  have hdue := (h.relies t).due (by rw [ht]; rfl)
  have hcounted : s.counted t = s.unmatched t - 1 := counted_lowered (by rw [ht]; rfl)
  have hlevel := h.level_eq hown
  rw [access_eq_test ht]
  split
  · -- The last release goes on to clear both words.
    rename_i hle
    have hzero : s.level.toInt ≤ 0 := Int32.le_iff_toInt_le.mp hle
    apply h.stutter (goto_frame _) rfl
    · rw [goto_counted, hcounted]
      rfl
    · constructor
      · exact fun _ => hown
      · exact fun _ => hdue
      · simp
      · simp
      · intro _
        rw [goto_counted]
        show s.unmatched t - 1 = 0
        omega
  · -- An inner release returns.
    rename_i hgt
    have hpos : 0 < s.level.toInt := by
      rw [Int32.le_iff_toInt_le] at hgt
      exact not_le.mp hgt
    apply h.stutter (ret_frame _) rfl
    · rw [ret_counted, hcounted]
    · constructor
      · exact fun _ => hown
      · simp [Point.releasing]
      · intro _ _
        rw [ret_unmatched]
        omega
      · simp
      · simp

/-- Clearing the level keeps the invariant. -/
theorem clearLevel (h : Inv ids l s) (ht : s.point t = .clearLevel) :
    Inv ids l (State.goto { s with level := 0 } t .clearOwner) := by
  have hown := (h.relies t).owned (.inl (by rw [ht]; rfl))
  have hdue := (h.relies t).due (by rw [ht]; rfl)
  have hemptied := (h.relies t).emptied (.inl ht)
  have hcounted : s.counted t = s.unmatched t - 1 := counted_lowered (by rw [ht]; rfl)
  have hzero : s.level = 0 := by
    have hlevel := h.level_eq hown
    rw [hemptied] at hlevel
    exact Int32.toInt_inj.mp hlevel
  -- The level is zero already, and writing it changes nothing.
  rw [← hzero]
  apply h.stutter (goto_frame _) rfl
  · rw [goto_counted, hcounted]
    rfl
  · constructor
    · exact fun _ => hown
    · exact fun _ => hdue
    · simp
    · simp
    · intro _
      rw [goto_counted]
      exact hcounted.symm.trans hemptied

/-- Clearing the owner keeps the invariant. -/
theorem clearOwner (h : Inv ids l s) (ht : s.point t = .clearOwner) :
    Inv ids l (State.ret { s with owner := 0 } t (s.unmatched t - 1)) := by
  have hown := (h.relies t).owned (.inl (by rw [ht]; rfl))
  have hemptied := (h.relies t).emptied (.inr ht)
  have hcounted : s.counted t = s.unmatched t - 1 := counted_lowered (by rw [ht]; rfl)
  have hne (u : ι) : (0 : Int32) ≠ ids.id u := (ids.ne_zero u).symm
  apply h.step (ret_frame _)
  · exact .inr fun u hu => ⟨not_owner hown hu, hne u⟩
  · apply h.accounts.congr
    intro u
    by_cases hu : u = t
    · rw [hu, ret_counted, hcounted]
    · exact (ret_frame _).counted hu
  · exact h.level
  · exact .inl rfl
  · apply Relies.of_idle
    · simp [Point.inside]
    · rw [ret_unmatched, ← hcounted, hemptied]
    · exact hne t

/-- What an action does to the recursive lock. -/
theorem next (h : Inv ids l s) {a : Action ι} (ha : s.Enabled a) (hn : Nests s a) :
    Inv ids (abstractNext l s a) (s.next ids a) := by
  cases a with
  | acquire t => exact h.acquire ha
  | release t => exact h.release ha.1 ha.2
  | access t =>
    show Inv ids (abstractNext l s (.access t)) (s.access ids t)
    have hloaded := (h.relies t).loaded
    -- one case for each instruction of acquire() and release()
    cases ht : s.point t with
    | outside => exact absurd ht ha
    | cas =>
      simp only [abstractNext, ht]
      exact h.cas ht
    | incRead =>
      simp only [abstractNext, State.access, ht]
      exact h.incRead ht
    | incWrite v =>
      obtain rfl := hloaded v (.inl ht)
      simp only [abstractNext, State.access, ht]
      exact h.incWrite ht (hn (by rw [ht]; rfl))
    | decRead =>
      simp only [abstractNext, State.access, ht]
      exact h.decRead ht
    | decWrite v =>
      obtain rfl := hloaded v (.inr ht)
      simp only [abstractNext, State.access, ht]
      exact h.decWrite ht
    | test =>
      simp only [abstractNext, ht]
      exact h.test ht
    | clearLevel =>
      simp only [abstractNext, State.access, ht]
      exact h.clearLevel ht
    | clearOwner =>
      simp only [abstractNext, State.access, ht]
      exact h.clearOwner ht

end Inv

/-! ## Every run -/

/-- The owner has not written its first `_level++` yet, or it has written the `--_level` of its
    last release and not returned from that. -/
def Between (ids : Ids ι) (s : State ι) : Prop :=
  ∃ t, s.owner = ids.id t ∧
    ((s.point t).acquiring ∧ s.unmatched t = 0 ∨ (s.point t).lowered ∧ s.unmatched t = 1)

structure Correct (ids : Ids ι) (s : State ι) : Prop where
  level_pos : 0 < s.level ↔ s.taken ∧ ¬Between ids s
  owner_eq : ∀ t, 0 < s.unmatched t → s.owner = ids.id t
  level_eq : ∀ t, s.owner = ids.id t → s.level.toInt = s.counted t
  free : ¬s.taken → s.level = 0

/-- The lock becomes free exactly when the owner returns from the release that matches the last
    of its calls of `acquire()`. -/
def Frees (ids : Ids ι) (s : State ι) (a : Action ι) : Prop :=
  s.taken ∧ ¬(s.next ids a).taken ↔
    ∃ t, s.owner = ids.id t ∧ 0 < s.unmatched t ∧ (s.next ids a).unmatched t = 0

omit [DecidableEq ι] in
/-- The lock is taken while there is an owner. -/
theorem taken_iff : s.taken ↔ s.owner ≠ 0 := by
  simp [Spin.taken]

omit [DecidableEq ι] in
/-- The lock of its owner is taken. -/
theorem taken_of_eq (ht : s.owner = ids.id t) : s.taken := by
  rw [taken_iff, ht]
  exact ids.ne_zero t

omit [DecidableEq ι] in
/-- An owner with no counted level is acquiring or has lowered its last level. -/
theorem Relies.acquiring_or (h : Relies ids s t) (ht : s.owner = ids.id t)
    (hcounted : s.counted t = 0) :
    (s.point t).acquiring ∧ s.unmatched t = 0 ∨ (s.point t).lowered ∧ s.unmatched t = 1 := by
  have hdue := h.due
  have hentered := h.entered ht
  unfold State.counted at hcounted
  cases hp : s.point t <;>
    simp [hp, Point.lowered, Point.releasing, Point.acquiring] at hcounted hdue hentered ⊢ <;>
    omega

namespace Inv

omit [DecidableEq ι]

/-- Between two words of a call nothing is counted although there is an owner. -/
theorem between_iff (h : Inv ids l s) (ht : s.owner = ids.id t) :
    Between ids s ↔ s.counted t = 0 := by
  constructor
  · rintro ⟨u, hu, hbetween⟩
    obtain rfl := ids.injective (hu.symm.trans ht)
    unfold State.counted
    rcases hbetween with ⟨-, hn⟩ | ⟨hp, hn⟩
    · rw [hn]
      simp
    · rw [if_pos hp, hn]
  · exact fun hzero => ⟨t, ht, (h.relies t).acquiring_or ht hzero⟩

/-- The invariant gives what is claimed of every state. -/
theorem correct (h : Inv ids l s) : Correct ids s where
  level_pos := by
    rw [Int32.lt_iff_toInt_lt]
    constructor
    · intro hpos
      have hpos' : 0 < s.level.toInt := hpos
      have hlevel := h.level
      -- A level above zero is that of an owner of the recursive lock.
      cases hown : l.owner with
      | none =>
        have := h.accounts.free hown
        omega
      | some t =>
        have ht := h.owner_eq hown
        have hcounted := h.level_eq ht
        refine ⟨taken_of_eq ht, fun hbetween => ?_⟩
        have := (h.between_iff ht).mp hbetween
        omega
    · rintro ⟨htaken, hbetween⟩
      obtain ⟨t, ht⟩ := h.known.resolve_left (taken_iff.mp htaken)
      have hcounted := h.level_eq ht
      have hne : s.counted t ≠ 0 := mt (h.between_iff ht).mpr hbetween
      show 0 < s.level.toInt
      omega
  owner_eq t ht := (h.relies t).owned (.inr ht)
  level_eq t ht := h.level_eq ht
  free htaken := by
    have hzero : s.owner = 0 := by
      rw [taken_iff] at htaken
      exact not_not.mp htaken
    have hnone : l.owner = none := by
      rw [Option.eq_none_iff_forall_ne_some]
      intro t ht
      exact ids.ne_zero t ((h.owner_eq ht).symm.trans hzero)
    have hlevel := h.level
    rw [h.accounts.free hnone] at hlevel
    exact Int32.toInt_inj.mp hlevel

end Inv

/-- An action that keeps the lock taken and no thread's calls matched. -/
theorem Frees.of_kept {a : Action ι} (htaken : s.taken → (s.next ids a).taken)
    (hn : ∀ t, 0 < s.unmatched t → 0 < (s.next ids a).unmatched t) : Frees ids s a := by
  constructor
  · rintro ⟨h, h'⟩
    exact absurd (htaken h) h'
  · rintro ⟨t, -, hpos, hzero⟩
    have := hn t hpos
    omega

/-- A return keeps the counts positive. -/
theorem ret_unmatched_pos (hu : 0 < s.unmatched u) (hn : 0 < n) :
    0 < (s.ret t n).unmatched u := by
  by_cases hut : u = t
  · rw [hut, ret_unmatched]
    exact hn
  · rw [ret_frame (s := s) s.toSpin |>.unmatched u hut]
    exact hu

namespace Inv

/-- A step frees the lock only at the last `release()`. -/
theorem frees (h : Inv ids l s) {a : Action ι} (ha : s.Enabled a) : Frees ids s a := by
  cases a with
  | acquire t => exact .of_kept id fun _ => id
  | release t => exact .of_kept id fun _ => id
  | access t =>
    cases ht : s.point t with
    | outside => exact absurd ht ha
    | cas =>
      apply Frees.of_kept
      · intro htaken
        rw [State.next, access_eq_cas ht, taken_iff]
        show (if s.owner = 0 then ids.id t else s.owner) ≠ 0
        rw [if_neg (taken_iff.mp htaken)]
        exact taken_iff.mp htaken
      · intro u hu
        rw [State.next, access_eq_cas ht]
        exact hu
    | incRead | decRead | decWrite | clearLevel =>
      -- Neither `_owner` nor the calls change.
      apply Frees.of_kept
      · intro htaken
        simp only [State.next, State.access, ht]
        exact htaken
      · intro u hu
        simp only [State.next, State.access, ht]
        exact hu
    | incWrite v =>
      apply Frees.of_kept
      · intro htaken
        simp only [State.next, State.access, ht]
        exact htaken
      · intro u hu
        simp only [State.next, State.access, ht]
        exact ret_unmatched_pos hu (Nat.succ_pos _)
    | test =>
      have hlevel := h.level_eq ((h.relies t).owned (.inl (by rw [ht]; rfl)))
      have hcounted : s.counted t = s.unmatched t - 1 := counted_lowered (by rw [ht]; rfl)
      apply Frees.of_kept
      · intro htaken
        rw [State.next, access_eq_test ht]
        split <;> exact htaken
      · intro u hu
        rw [State.next, access_eq_test ht]
        split
        · exact hu
        · -- At a level above zero the release that returns is not the last one.
          rename_i hgt
          rw [Int32.le_iff_toInt_le] at hgt
          have hpos : 0 < s.level.toInt := not_le.mp hgt
          exact ret_unmatched_pos hu (by omega)
    | clearOwner =>
      have hown := (h.relies t).owned (.inl (by rw [ht]; rfl))
      have hdue := (h.relies t).due (by rw [ht]; rfl)
      have hemptied := (h.relies t).emptied (.inr ht)
      have hcounted : s.counted t = s.unmatched t - 1 := counted_lowered (by rw [ht]; rfl)
      have hnext : s.next ids (.access t) =
          State.ret { s with owner := 0 } t (s.unmatched t - 1) := by
        simp only [State.next, State.access, ht]
      -- The only access that frees the lock, and the only one that matches a last call.
      constructor
      · intro _
        refine ⟨t, hown, hdue, ?_⟩
        rw [hnext, ret_unmatched, ← hcounted, hemptied]
      · intro _
        refine ⟨taken_of_eq hown, ?_⟩
        rw [hnext, taken_iff]
        exact not_not.mpr rfl

/-- Beyond the largest `int` the level is not the number of calls. -/
theorem nests (h : Inv ids l s) {a : Action ι} (hcorrect : Correct ids (s.next ids a)) :
    Nests s a := by
  cases a with
  | acquire t => trivial
  | release t => trivial
  | access t =>
    intro hcompletes
    cases ht : s.point t with
    | incWrite v =>
      have hown := (h.relies t).owned (.inl (by rw [ht]; rfl))
      have hnext : s.next ids (.access t) =
          State.ret { s with level := v + 1 } t (s.unmatched t + 1) := by
        simp only [State.next, State.access, ht]
      rw [hnext] at hcorrect
      have hlevel := hcorrect.level_eq t hown
      rw [ret_counted] at hlevel
      have hlt := (v + 1).toInt_lt
      have hlevel' : (v + 1).toInt = ((s.unmatched t + 1 : Nat) : Int) := hlevel
      omega
    | _ =>
      rw [ht] at hcompletes
      cases hcompletes

end Inv

/-- Every run in which no thread is inside of `2 ^ 31` calls is correct, and no other run is. -/
theorem correct_iff_nests {as : List (Action ι)}
    (hv : (system ids).Valid State.init as) :
    (system ids).Always (Correct ids) State.init as ∧
        (system ids).Meets (Frees ids) State.init as ↔
      (system ids).Meets Nests State.init as := by
  refine TransitionSystem.always_and_meets_iff (I := fun s => ∃ l, Inv ids l s) ?_ ?_ ?_
    ⟨{}, Inv.init⟩ hv
  · rintro s ⟨l, h⟩
    exact h.correct
  · rintro s a ⟨l, h⟩ ha hn
    exact ⟨_, h.next ha hn⟩
  · rintro s a ⟨l, h⟩ ha
    constructor
    · exact fun hP => h.nests hP.1
    · exact fun hn => ⟨(h.next ha hn).correct, h.frees ha⟩

/-- The recursive lock after the actions. -/
def abstractRun (ids : Ids ι) : RecursiveLock ι → State ι → List (Action ι) → RecursiveLock ι
  | l, _, [] => l
  | l, s, a :: as => abstractRun ids (abstractNext l s a) (s.next ids a) as

/-- The invariant holds along every run, next to the abstract lock. -/
theorem Inv.run (h : Inv ids l s) {as : List (Action ι)} (hv : (system ids).Valid s as)
    (hn : (system ids).Meets Nests s as) :
    Inv ids (abstractRun ids l s as) ((system ids).run s as) := by
  induction as generalizing l s with
  | nil => exact h
  | cons a as ih => exact ih (h.next hv.1 hn.1) hv.2 hn.2

/-- The accesses that complete a call of `acquire()` by the owner. -/
theorem exists_acquired (hs : (system ids).Reachable s) (hown : s.owner = ids.id t)
    (ht : s.point t = .cas) (hn : s.unmatched t = n) :
    ∃ s', (system ids).Reachable s' ∧ s'.point t = .outside ∧ s'.owner = ids.id t ∧
      s'.unmatched t = n + 1 := by
  have hne := ids.ne_zero t
  have hv : (system ids).Valid s [.access t, .access t, .access t] := by
    simp [TransitionSystem.Valid, system, State.Enabled, State.next, State.access, State.goto,
      Util.cas, ht, hown]
  refine ⟨_, hv.reachable hs, ?_⟩
  simp [TransitionSystem.run, system, State.next, State.access, State.goto, State.ret, Util.cas,
    ht, hown, hn, hne]

/-- Every depth of nesting is reachable. -/
theorem exists_nested (ids : Ids ι) (t : ι) (n : Nat) :
    ∃ s, (system ids).Reachable s ∧ s.point t = .outside ∧ s.owner = ids.id t ∧
      s.unmatched t = n + 1 := by
  induction n with
  | zero =>
    have hne : (0 : Int32) ≠ ids.id t := (ids.ne_zero t).symm
    have hv : (system ids).Valid State.init [.acquire t, .access t] := by
      simp [TransitionSystem.Valid, system, State.Enabled, State.next, State.goto, State.init]
    apply exists_acquired (hv.reachable (.init rfl))
    · simp [TransitionSystem.run, system, State.next, State.access, State.goto, State.init,
        Spin.init, Util.cas]
    · simp [TransitionSystem.run, system, State.next, State.access, State.goto, State.init,
        Spin.init, Util.cas, hne]
    · simp [TransitionSystem.run, system, State.next, State.access, State.goto, State.init,
        Spin.init, Util.cas]
  | succ n ih =>
    obtain ⟨s, hs, ht, hown, hn⟩ := ih
    have henabled : (system ids).Enabled s (.acquire t) := ht
    exact exists_acquired (hs.step henabled) hown goto_point hn

/-- Some run reaches a level that no `int` holds. -/
theorem exists_not_correct (ids : Ids ι) (t : ι) :
    ∃ s, (system ids).Reachable s ∧ ¬Correct ids s := by
  obtain ⟨s, hs, ht, hown, hn⟩ := exists_nested ids t (2 ^ 31 - 1)
  refine ⟨s, hs, fun h => ?_⟩
  have hlevel := h.level_eq t hown
  have hcounted : s.counted t = s.unmatched t := counted_eq (by rw [ht]; rfl)
  have hlt := s.level.toInt_lt
  omega

/-- Mutual exclusion, ownership and release along every run that nests below 2³¹. -/
theorem spin_correct (ids : Ids ι) {as : List (Action ι)}
    (hv : (system ids).Valid State.init as) (hn : (system ids).Meets Nests State.init as) :
    (system ids).Always (Correct ids) State.init as ∧
      (system ids).Meets (Frees ids) State.init as :=
  (correct_iff_nests hv).mpr hn

/-- Two threads. -/
def twoIds : Ids Bool where
  id t := if t then 1 else 2
  ne_zero := by decide
  injective := by
    unfold Function.Injective
    decide

/-- One thread waits until the other one has released the lock as often as it acquired it. -/
def handOver : List (Action Bool) :=
  [.acquire true, .access true, .acquire false, .access true, .access false, .access true,
    .access true, .acquire true, .access true, .access true, .access true, .release true,
    .access true, .access false, .access true, .access true, .release true, .access true,
    .access true, .access true, .access true, .access false, .access true, .access false,
    .access false, .access false, .access false]

/-- A run in which the lock is handed over. -/
theorem spin_correct_example :
    (system twoIds).Always (Correct twoIds) State.init handOver ∧
      (system twoIds).Meets (Frees twoIds) State.init handOver :=
  spin_correct twoIds (by decide) (by decide)

/-- `Correct` without the states inside of `acquire()` and `release()` that other threads see. -/
structure Stated (ids : Ids ι) (s : State ι) : Prop where
  level_pos : 0 < s.level ↔ s.taken
  owner_eq : ∀ t, 0 < s.unmatched t → s.owner = ids.id t
  level_eq : ∀ t, s.owner = ids.id t → s.level.toInt = s.unmatched t

/-- A thread has taken the lock and not counted itself yet. -/
theorem not_spin_correct :
    (∃ s, (system twoIds).Reachable s ∧ s.taken ∧ s.level = 0 ∧ ¬Stated twoIds s) ∧
      ∃ s, (system twoIds).Reachable s ∧ ¬Correct twoIds s := by
  constructor
  · have hv : (system twoIds).Valid State.init [.acquire true, .access true] := by decide
    refine ⟨_, hv.reachable (.init rfl), by decide, by decide, fun h => ?_⟩
    exact absurd (h.level_pos.mpr (by decide)) (by decide)
  · exact exists_not_correct twoIds true

end Epos.Util.Spin
