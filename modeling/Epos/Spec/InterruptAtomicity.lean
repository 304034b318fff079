import Epos.Spec.MachineCorrect

/-!
# Interrupts in the middle of a protocol

Without `smp` the only lock is the interrupt flag, and it does not count: the
`unlock()` in `Thread::setPriority` enables interrupts although its caller is still
between `begin_atomic()` and `end_atomic()`. A call keeps interrupts off to its end
exactly if it has no priority to set (`staysDisabled_iff_setsNone`).
-/

namespace Epos

/-- The counter of the semaphore is done. -/
def Instr.counts : Instr → Bool
  | .p _ _ | .v _ _ => true
  | _ => false

/-- `end_atomic()` or the `dispatch()` of another thread. -/
def Instr.ends : Instr → Bool
  | .intEnable | .switchContext _ => true
  | _ => false

/-- The call has ended: by an `end_atomic()` or a `dispatch()` after its counter. -/
def callOver (executed : List Instr) : Bool :=
  (executed.dropWhile fun i => !i.counts).any Instr.ends

/-- A call that is over stays over. -/
theorem callOver_append {executed : List Instr} (h : callOver executed) (more : List Instr) :
    callOver (executed ++ more) := by
  unfold callOver at h ⊢
  induction executed with
  | nil => cases h
  | cons i executed ih =>
    simp only [List.cons_append, List.dropWhile_cons] at h ⊢
    split
    · rename_i hi
      rw [if_pos hi] at h
      exact ih h
    · rename_i hi
      rw [if_neg hi] at h
      simp only [List.any_cons, List.any_append, Bool.or_eq_true] at h ⊢
      cases h with
      | inl h => exact .inl h
      | inr h => exact .inr (.inl h)

/-- What comes before the counter ends nothing. -/
theorem callOver_skip {executed : List Instr} (h : ¬executed.any Instr.counts)
    (more : List Instr) : callOver (executed ++ more) = callOver more := by
  unfold callOver
  rw [List.dropWhile_append_of_pos]
  intro i hi
  simp only [List.any_eq_true, not_exists, not_and] at h
  simpa using h i hi

/-! ## Calls that set no priority -/

/-- The `p()` of `t` on `s` sets no priority: a PIP or PCP semaphore without an owner, or
    with one that has nothing to inherit, or an IPCP or MPCP semaphore with an owner. -/
def Sync.SetsNone (σ : Sync) (s : Sid) (t : Tid) : Prop :=
  match (σ.sem s).protocol, (σ.sem s).owner with
  | .pip, some own => σ.priority own ≤ σ.priority t
  | .pcp, some own => σ.priority own ≤ σ.ceiling s
  | .ipcp, own | .mpcp _, own => own ≠ none
  | _, _ => True

/-- The ownership part of `p()` calls `setPriority()` once, or it calls nothing. -/
theorem own_code (σ : Sync) (s : Sid) (t : Tid) (hk : (σ.sem s).protocol.owned) :
    (σ.SetsNone s t ∧ (SemaphoreRT.own σ s t).2 = []) ∨
      (¬σ.SetsNone s t ∧ ∃ u prio, (SemaphoreRT.own σ s t).2 = Thread.setPriority u prio) := by
  unfold SemaphoreRT.own Sync.SetsNone
  cases hp : (σ.sem s).protocol with
  | pip =>
    cases ho : (σ.sem s).owner with
    | none => simp [SemaphoreRT.take, SemaphorePIP.saveOwner, Sync.savePriority, Sync.setOwner, hp]
    | some own =>
      -- the owner is raised where the thread that waits is more urgent
      by_cases hlt : σ.priority t < σ.priority own
      · exact .inr ⟨not_le.mpr hlt, own, σ.priority t,
          by simp only [SemaphoreRT.contend, hp, if_pos hlt]⟩
      · exact .inl ⟨not_lt.mp hlt, by simp only [SemaphoreRT.contend, hp, if_neg hlt]⟩
  | pcp =>
    cases ho : (σ.sem s).owner with
    | none => simp [SemaphoreRT.take, SemaphorePIP.saveOwner, Sync.savePriority, Sync.setOwner, hp]
    | some own =>
      -- here where the ceiling is
      by_cases hlt : σ.ceiling s < σ.priority own
      · exact .inr ⟨not_le.mpr hlt, own, σ.ceiling s,
          by simp only [SemaphoreRT.contend, hp, if_pos hlt]⟩
      · exact .inl ⟨not_lt.mp hlt, by simp only [SemaphoreRT.contend, hp, if_neg hlt]⟩
  -- the thread itself is raised as soon as it has the semaphore, and nobody else later
  | ipcp | mpcp =>
    cases ho : (σ.sem s).owner with
    | none =>
      refine .inr ⟨by simp, ?_⟩
      simp only [SemaphoreRT.take, SemaphorePIP.saveOwner, Sync.savePriority, Sync.setOwner,
        Sync.modify_sem, Function.update_self, hp]
      exact ⟨_, _, rfl⟩
    | some own => simp [SemaphoreRT.contend, hp]
  | condition | plain | srp | msrp => rw [hp] at hk; cases hk

namespace Machine

variable {m : Machine} {c n : Nat} {s : Sid} {i : Instr} {rest : List Instr}
  {u : Tid} {prio : Int}

/-- The machine after `n` instructions on the core `c`. -/
def after (c : Nat) : Nat → Machine → Machine
  | 0, m => m
  | n + 1, m => after c n (m.exec c)

/-- The `n` instructions that the core `c` executes next. -/
def executes (c : Nat) : Nat → Machine → List Instr
  | 0, _ => []
  | n + 1, m => (m.instr c).toList ++ executes c n (m.exec c)

/-- From its first instruction on and as long as the call is not over, the core takes no
    interrupts. -/
def StaysDisabled (m : Machine) (c : Nat) : Prop :=
  ∀ n, 0 < n → ¬callOver (m.executes c n) → (m.after c n).interrupts c = false

/-- The call, of which `executed` is over, keeps interrupts off from here on. -/
def Quiet (c : Nat) (executed : List Instr) (m : Machine) : Prop :=
  ∀ n, ¬callOver (executed ++ m.executes c n) → (m.after c n).interrupts c = false

/-- One instruction, and what follows. -/
theorem executes_cons (hcode : m.code (m.context c) = i :: rest) (n : Nat) :
    m.executes c (n + 1) = i :: (m.exec c).executes c n := by
  simp only [executes, instr, hcode]
  rfl

/-- Interrupts stay disabled if they do after the first instruction. -/
theorem staysDisabled_iff (hcode : m.code (m.context c) = i :: rest) :
    m.StaysDisabled c ↔ Quiet c [i] (m.exec c) := by
  constructor
  · intro h n hn
    exact h (n + 1) n.succ_pos (by rwa [executes_cons hcode])
  · intro h n hpos hn
    cases n with
    | zero => cases hpos
    | succ n => exact h n (by rwa [executes_cons hcode] at hn)

variable {executed : List Instr}

/-- After the call nothing is asked. -/
theorem quiet_of_callOver (h : callOver executed) : Quiet c executed m :=
  fun _ hn => absurd (callOver_append h _) hn

/-- During the call interrupts are disabled. -/
theorem Quiet.off (h : Quiet c executed m) (hover : ¬callOver executed) :
    m.interrupts c = false :=
  h 0 (by simpa [executes] using hover)

/-! ## Straight code -/

/-- The core `c` is about to execute `code`, with interrupts off. -/
structure Going (m : Machine) (c : Nat) (code : List Instr) : Prop where
  code_eq : m.code (m.context c) = code
  off : m.interrupts c = false

/-- Whether the call stays quiet can be asked one instruction later. -/
theorem Going.quiet_iff (h : m.Going c (i :: rest)) :
    Quiet c executed m ↔ Quiet c (executed ++ [i]) (m.exec c) := by
  constructor
  · intro hq n hn
    apply hq (n + 1)
    rw [executes_cons h.code_eq]
    simpa using hn
  · intro hq n hn
    cases n with
    | zero => exact h.off
    | succ n =>
      apply hq n
      rw [executes_cons h.code_eq] at hn
      simpa using hn

/-- A call that does not end goes on. -/
theorem Going.exec (h : m.Going c (i :: rest)) (hi : ¬i.ends) :
    (m.exec c).Going c ((i.exec m.toKernel c (m.context c)).2 ++ rest) where
  code_eq := by
    have hctx : (m.exec c).context c = m.context c := by
      rw [exec_context h.code_eq, Function.update_self]
      cases i with
      | switchContext => exact absurd rfl hi
      | _ => rfl
    rw [hctx, exec_code h.code_eq, Function.update_self]
  off := by
    rw [exec_interrupts h.code_eq, Function.update_self]
    cases i with
    | intEnable => exact absurd rfl hi
    | intDisable => rfl
    | _ => exact h.off

/-- After the counter the call only releases the lock, and ends. -/
theorem Going.quiet_counts (h : m.Going c (i :: rest)) (hi : i.counts)
    (hrest : ∃ e rest', e.ends ∧
      (i.exec m.toKernel c (m.context c)).2 ++ rest = .release :: e :: rest')
    (hcounts : ¬executed.any Instr.counts) : Quiet c executed m := by
  obtain ⟨e, rest', he, heq⟩ := hrest
  have hends : ¬i.ends := by
    cases i with
    | p | v => simp [Instr.ends]
    | _ => cases hi
  have h₁ := h.exec hends
  rw [heq] at h₁
  have h₂ : ((m.exec c).exec c).Going c (e :: rest') := h₁.exec (by simp [Instr.ends])
  rw [h.quiet_iff, h₁.quiet_iff, h₂.quiet_iff]
  apply quiet_of_callOver
  simp only [List.append_assoc, callOver_skip hcounts]
  simp [callOver, hi, he]

/-- A `setPriority()` before the counter enables interrupts too early. -/
theorem Going.not_quiet (h : m.Going c (Thread.setPriority u prio ++ rest))
    (hcounts : ¬executed.any Instr.counts) : ¬Quiet c executed m := by
  have h₁ := h.exec (by simp [Instr.ends])
  have h₂ := h₁.exec (by simp [Instr.ends])
  have h₃ := h₂.exec (by simp [Instr.ends])
  have h₄ := h₃.exec (by simp [Instr.ends])
  rw [h.quiet_iff, h₁.quiet_iff, h₂.quiet_iff, h₃.quiet_iff, h₄.quiet_iff]
  intro hq
  have hoff := hq.off (by
    simp only [List.append_assoc, callOver_skip hcounts]
    simp [callOver, Instr.counts])
  rw [exec_interrupts h₄.code_eq, Function.update_self] at hoff
  cases hoff

/-! ## Calls -/

/-- What the counter of a real-time semaphore expands into, before an `end_atomic()`. -/
theorem counts_exec (k : Kernel) (c : Nat) (t : Tid) (hi : i = .p s true ∨ i = .v s true) :
    ∃ e rest', e.ends ∧ (i.exec k c t).2 ++ (Thread.unlock ++ rest) = .release :: e :: rest' := by
  -- a switch leaves nothing behind but the release of the lock and one more instruction
  have hswitch (k : Kernel) : ∃ e rest', e.ends ∧
      k.switchCode c t ++ (Thread.unlock ++ rest) = .release :: e :: rest' := by
    unfold Kernel.switchCode
    split
    · exact ⟨.intEnable, _, rfl, rfl⟩
    · split
      · exact ⟨.intEnable, _, rfl, rfl⟩
      · exact ⟨.switchContext _, _, rfl, rfl⟩
  cases hi with
  | inl hi =>
    subst hi
    simp only [Instr.exec]
    split
    · exact hswitch _
    · exact ⟨.intEnable, _, rfl, rfl⟩
  | inr hi =>
    subst hi
    simp only [Instr.exec]
    split
    · exact hswitch _
    · split
      · exact ⟨.intEnable, _, rfl, rfl⟩
      · exact ⟨.intEnable, _, rfl, rfl⟩

/-- After `begin_atomic()`, the first instruction `i` of a body. -/
theorem begins (hcode : m.code (m.context c) = Thread.lock ++ (i :: rest)) (hi : ¬i.ends) :
    ∃ m', (m.StaysDisabled c ↔ Quiet c [.intDisable, .acquire, i] m') ∧
      m'.Going c ((i.exec m.toKernel c (m.context c)).2 ++ rest) := by
  have hctx : (m.exec c).context c = m.context c := by
    rw [exec_context hcode, Function.update_self]
    rfl
  have h₁ : (m.exec c).Going c (.acquire :: i :: rest) := by
    constructor
    · rw [hctx, exec_code hcode, Function.update_self]
      rfl
    · rw [exec_interrupts hcode, Function.update_self]
      rfl
  have h₂ : ((m.exec c).exec c).Going c (i :: rest) := h₁.exec (by simp [Instr.ends])
  have hk : ((m.exec c).exec c).toKernel = m.toKernel :=
    (exec_toKernel h₁.code_eq).trans (exec_toKernel hcode)
  have hctx₂ : ((m.exec c).exec c).context c = m.context c := by
    rw [exec_context h₁.code_eq, Function.update_self, hctx]
    rfl
  have h₃ := h₂.exec hi
  rw [hk, hctx₂] at h₃
  refine ⟨((m.exec c).exec c).exec c, ?_, h₃⟩
  rw [staysDisabled_iff hcode, h₁.quiet_iff, h₂.quiet_iff]
  rfl

/-- `p()` stays disabled exactly if it sets no priority. -/
theorem staysDisabled_p (hcode : m.code (m.context c) = []) (hk : (m.sem s).protocol.owned) :
    (m.step (.p c s)).StaysDisabled c ↔ m.SetsNone s (m.context c) := by
  have hatomic : (m.step (.p c s)).code (m.context c) =
      Thread.lock ++ (.own s :: .p s true :: (Thread.unlock ++ [.ret])) := by
    show Function.update m.code (m.context c) _ (m.context c) = _
    rw [Function.update_self, hcode]
    cases hp : (m.sem s).protocol <;> rw [hp] at hk <;> first | rfl | cases hk
  obtain ⟨m', hiff, hgoing⟩ := begins (m := m.step (.p c s)) hatomic (by simp [Instr.ends])
  rw [hiff]
  cases own_code m.toSync s (m.context c) hk with
  | inl hnone =>
    have hcode' : (Instr.exec m.toKernel c (m.context c) (.own s)).2 = [] := hnone.2
    refine iff_of_true ?_ hnone.1
    have hgo : m'.Going c (.p s true :: (Thread.unlock ++ [.ret])) := by
      have hgoing : m'.Going c ((Instr.exec m.toKernel c (m.context c) (.own s)).2 ++ _) := hgoing
      rwa [hcode'] at hgoing
    exact hgo.quiet_counts rfl (counts_exec _ _ _ (.inl rfl)) (by simp [Instr.counts])
  | inr hsome =>
    obtain ⟨hsets, u, prio, hcode'⟩ := hsome
    refine iff_of_false ?_ hsets
    have hgo : m'.Going c (Thread.setPriority u prio ++ (.p s true :: (Thread.unlock ++ [.ret]))) :=
      hcode' ▸ hgoing
    exact hgo.not_quiet (by simp [Instr.counts])

/-- `v()` stays disabled exactly if its thread is not the owner. -/
theorem staysDisabled_v (hcode : m.code (m.context c) = []) (hk : (m.sem s).protocol.owned) :
    (m.step (.v c s)).StaysDisabled c ↔ (m.sem s).owner ≠ some (m.context c) := by
  have hatomic : (m.step (.v c s)).code (m.context c) =
      Thread.lock ++ (.disown s :: .v s true :: (Thread.unlock ++ [.ret])) := by
    show Function.update m.code (m.context c) _ (m.context c) = _
    rw [Function.update_self, hcode]
    cases hp : (m.sem s).protocol <;> rw [hp] at hk <;> first | rfl | cases hk
  obtain ⟨m', hiff, hgoing⟩ := begins (m := m.step (.v c s)) hatomic (by simp [Instr.ends])
  replace hgoing : m'.Going c (SemaphoreRT.disown m.toSync s (m.context c) ++
      (.v s true :: (Thread.unlock ++ [.ret]))) := hgoing
  rw [hiff]
  by_cases ho : (m.sem s).owner = some (m.context c)
  · refine iff_of_false ?_ (not_not.mpr ho)
    rw [SemaphoreRT.disown, if_pos ho, List.append_assoc] at hgoing
    exact hgoing.not_quiet (by simp [Instr.counts])
  · refine iff_of_true ?_ ho
    rw [SemaphoreRT.disown, if_neg ho] at hgoing
    exact hgoing.quiet_counts rfl (counts_exec _ _ _ (.inr rfl)) (by simp [Instr.counts])

/-- One CPU, whose thread is outside the kernel. -/
structure Uniprocessor (m : Machine) : Prop where
  smp : m.smp = false
  cores : m.cores = 1
  outside : m.code (m.context 0) = []

end Machine

/-- On one CPU, a `p()` or `v()` keeps interrupts off to its end exactly if it sets no
    priority; a `v()` of the owner always restores one. -/
theorem staysDisabled_iff_setsNone (m : Machine) (s : Sid) (hm : m.Uniprocessor)
    (hk : (m.sem s).protocol.owned) :
    ((m.step (.p 0 s)).StaysDisabled 0 ↔ m.SetsNone s (m.context 0)) ∧
      ((m.step (.v 0 s)).StaysDisabled 0 ↔ (m.sem s).owner ≠ some (m.context 0)) :=
  ⟨Machine.staysDisabled_p hm.outside hk, Machine.staysDisabled_v hm.outside hk⟩

/-- Thread 9 on the only CPU, with a free IPCP semaphore. -/
def Machine.flagExample : Machine where
  toKernel := .single
    { priority := fun t => if t = 8 then Priority.idle else t
      sem := fun _ => { protocol := .ipcp }
      store := fun _ _ => 4 } 9 8 .always (fun _ => 0) []
  context _ := 9

/-- Thread 9 enables interrupts in `toCeiling()`, before it counts. -/
theorem staysDisabled_iff_setsNone_free :
    ¬(Machine.flagExample.step (.p 0 0)).StaysDisabled 0 ∧
      (Machine.flagExample.step (.v 0 0)).StaysDisabled 0 := by
  have hiff := staysDisabled_iff_setsNone Machine.flagExample 0 ⟨rfl, rfl, rfl⟩ rfl
  exact ⟨fun h => absurd rfl (hiff.1.mp h), hiff.2.mpr (by decide)⟩

/-- Eight instructions into the `p()` of an IPCP semaphore, interrupts are on and the
    counter is still to be decremented. -/
theorem not_staysDisabled : ¬∀ (m : Machine) (s : Sid), m.Uniprocessor →
    (m.sem s).protocol.owned →
    (m.step (.p 0 s)).StaysDisabled 0 ∧ (m.step (.v 0 s)).StaysDisabled 0 := by
  intro h
  have hoff := (h Machine.flagExample 0 ⟨rfl, rfl, rfl⟩ rfl).1 8 (by decide) (by decide)
  revert hoff
  decide

end Epos
