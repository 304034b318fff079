import Epos.Network.Arp
import Mathlib.Algebra.GroupWithZero.Nat

/-!
# Calls of `resolve()`

What a call should return, what may not come in between, and the invariant that this keeps:
for each call, what it knows of its mapping and of the address that it has copied a part of.
Here are the steps of the calls and of `insert()`; those of the replies are in
`Epos.Spec.ArpCorrect`.
-/

namespace Epos

namespace ARP

namespace Resolver

variable {PA β : Type*} {len : Nat} [DecidableEq PA] [DecidableEq β] [Zero β]
  {s s' : Resolver PA len β} {t u : Tid} {pa : PA} {ha x y : HA len β} {m n : Mid} {i k : Nat}
  {μ ν : Mapping PA len β}

/-! ## What a call should return -/

/-- The null address needs as many requests as are tried, all without a reply, and any other
    one must have been received or inserted. -/
def Justified (s : Resolver PA len β) (t : Tid) (pa : PA) (ha : HA len β) : Prop :=
  if ha = 0 then s.requests t = s.retries ∧ s.timeouts t = s.retries ∧ s.replied t = false
  else (pa, ha) ∈ s.learned

/-- Where a call returns, its result is justified. -/
def ReturnsJustified (s : Resolver PA len β) : ResolveAction PA len β → Prop
  | .read t => ∀ pa m ha, s.point t = .found pa m len ha → s.Justified t pa ha
  | .finish t => ∀ pa m i ha, s.point t = .loop pa m i ha → s.Justified t pa ha
  | _ => True

/-- The call of `t` gets a reply for `pa` that the mapping `el` gets: it is not between its
    search and its insertion, it will look at its mapping again, and if it has not searched
    yet there is a mapping to be found. -/
def Listens (s : Resolver PA len β) (t : Tid) (pa : PA) (el : Option Mid) : Prop :=
  (s.point t = .search pa → el ≠ none) ∧ s.point t ≠ .absent pa ∧
    (∀ m i, s.point t = .loop pa m i 0 → i < s.retries) ∧
    ∀ m i, s.point t = .woken pa m i len 0 → i + 1 < s.retries

/-- A call has copied a part of the address of `m`. -/
def Copies (s : Resolver PA len β) (t : Tid) (m : Mid) : Prop :=
  ∃ k, (s.point t).copying? = some (m, k) ∧ 0 < k ∧ k < len

/-- The address of `m` is not partly written. -/
def Whole (s : Resolver PA len β) (m : Mid) : Prop :=
  ∀ μ x k, s.mapping m = some μ → s.writing = some (m, x, k) → μ.ha = x

/-- A reply with `ha` that finds `m` changes no address of which a call has a part, and no
    other one is about to forget the semaphore. -/
def Apart (s : Resolver PA len β) (m : Mid) (ha : HA len β) : Prop :=
  m ∉ s.clearing ∧ ∀ μ, s.mapping m = some μ → μ.ha ≠ ha → ∀ t, ¬s.Copies t m

/-- No call finds the pending mapping of another one, inserts its own beside a mapping or
    begins to copy an address that is partly written, and replies, which have an address,
    come while all calls listen and none has a part of the old address. -/
def Undisturbed (s : Resolver PA len β) : ResolveAction PA len β → Prop
  | .search _ el => ∀ m ∈ el, ∀ μ, s.mapping m = some μ → μ.ha ≠ 0
  | .copy t _ => ∀ m, (s.point t).copying? = some (m, 0) → s.Whole m
  | .insert t _ => ∀ pa, s.point t = .absent pa → s.Finds pa none
  | .reply pa ha el => ha ≠ 0 ∧ (∀ t, s.Listens t pa el) ∧ ∀ m ∈ el, s.Apart m ha
  | .enter pa ha _ =>
    ha ≠ 0 ∧ ∀ m ∈ s.table, ∀ μ, s.mapping m = some μ → μ.pa = pa → μ.ha ≠ 0
  | _ => True

/-! ## The invariant -/

/-- A reply is being written to `m`. -/
def Writing (s : Resolver PA len β) (m : Mid) : Prop := ∃ x k, s.writing = some (m, x, k)

/-- The mapping waits for its first reply. -/
def Pending (s : Resolver PA len β) (m : Mid) (μ : Mapping PA len β) : Prop :=
  μ.ha = 0 ∧ ¬s.Writing m

/-- There is a mapping for `pa` that has an address or is getting one. -/
def Resolved (s : Resolver PA len β) (pa : PA) (m : Mid) : Prop :=
  ∃ μ, s.mapping m = some μ ∧ μ.pa = pa ∧ ¬s.Pending m μ

/-- The mapping `m` of the call of `t` is as `pending` says until a reply comes, and then
    as `resolved` says. -/
def Holds (s : Resolver PA len β) (t : Tid) (pa : PA) (m : Mid) (pending resolved : Prop) : Prop :=
  ∃ μ, s.mapping m = some μ ∧ μ.pa = pa ∧
    (s.Pending m μ → μ.sem = some t ∧ s.replied t = false ∧ pending) ∧
    (¬s.Pending m μ → resolved)

/-- The mapping `m` has the address `x`, and what is being written there is `x`, too. -/
def Shows (s : Resolver PA len β) (m : Mid) (x : HA len β) : Prop :=
  ∃ μ, s.mapping m = some μ ∧ μ.ha = x ∧ ∀ y k, s.writing = some (m, y, k) → y = x

/-- The first `k` bytes are those of `x`. -/
def Agrees (k : Nat) (ha x : HA len β) : Prop := ∀ j : Fin len, j < k → ha j = x j

/-- As many requests have been sent and timed out. -/
def TimedOut (s : Resolver PA len β) (t : Tid) (i : Nat) : Prop :=
  s.requests t = i ∧ s.timeouts t = i ∧ s.sem t = 0 ∧ s.alarm t = false

/-- What is known of the address `x` that a call reads after `i` requests. -/
def Reads (s : Resolver PA len β) (t : Tid) (pa : PA) (m : Mid) (i : Nat) (x : HA len β) : Prop :=
  (x ≠ 0 → (pa, x) ∈ s.learned ∧ s.Resolved pa m) ∧
    (x = 0 → s.Holds t pa m (s.TimedOut t i) (i < s.retries))

/-- What is true of a call at its point of `resolve()`. -/
def At (s : Resolver PA len β) (t : Tid) : ResolvePoint PA len β → Prop
  | .out => True
  | .search pa =>
    s.requests t = 0 ∧ s.timeouts t = 0 ∧ (s.replied t = true → ∃ m, s.Resolved pa m)
  | .found pa m k ha =>
    s.Resolved pa m ∧
      (0 < k → ∃ x, Agrees k ha x ∧ x ≠ 0 ∧ (pa, x) ∈ s.learned ∧ (k < len → s.Shows m x))
  | .absent _ => s.requests t = 0 ∧ s.timeouts t = 0 ∧ s.replied t = false
  | .loop pa m i ha => i ≤ s.retries ∧ s.Reads t pa m i ha
  | .waiting pa m i =>
    i < s.retries ∧
      s.Holds t pa m
        (s.requests t = i + 1 ∧ s.sem t + (s.alarm t).toNat = 1 ∧ s.timeouts t = i + s.sem t) True
  | .woken pa m i k ha =>
    i < s.retries ∧ k ≤ len ∧ s.Holds t pa m (s.TimedOut t (i + 1)) True ∧
      (0 < k → ∃ x, Agrees k ha x ∧ s.Reads t pa m (i + 1) x ∧ (k < len → s.Shows m x))

/-- The mapping that a call has inserted. -/
def own? : ResolvePoint PA len β → Option Mid
  | .loop _ m _ _ | .waiting _ m _ | .woken _ m _ _ _ => some m
  | _ => none

/-- The alarm of a call is there until it has looked at its mapping. -/
def Alarmed : ResolvePoint PA len β → Prop
  | .waiting .. | .woken .. => True
  | _ => False

structure Inv (s : Resolver PA len β) : Prop where
  nodup : s.table.Nodup
  mem_iff : ∀ m, m ∈ s.table ↔ ∃ μ, s.mapping m = some μ
  alone : ∀ m μ, s.mapping m = some μ → s.Pending m μ →
    ∀ n ν, s.mapping n = some ν → ν.pa = μ.pa → n = m
  owned : ∀ m μ t, s.mapping m = some μ → μ.sem = some t →
    m ∈ s.clearing ∨ own? (s.point t) = some m ∧ (μ.ha = 0 ∨ s.Writing m)
  learned : ∀ m μ, s.mapping m = some μ → μ.ha ≠ 0 → ¬s.Writing m → (μ.pa, μ.ha) ∈ s.learned
  written : ∀ m x k, s.writing = some (m, x, k) → x ≠ 0 ∧ m ∉ s.clearing ∧
    ∃ μ, s.mapping m = some μ ∧ Agrees k μ.ha x ∧ (μ.pa, x) ∈ s.learned
  clearing : ∀ m ∈ s.clearing, ∃ μ, s.mapping m = some μ ∧ μ.ha ≠ 0
  alarmed : ∀ t, s.alarm t = true → Alarmed (s.point t)
  points : ∀ t, s.At t (s.point t)

/-! ## What the others see of a step -/

omit [DecidableEq PA] [DecidableEq β] in
/-- A mapping that is resolved serves a call that relies on it. -/
theorem Resolved.holds {pending resolved : Prop} (h : s.Resolved pa m) (hr : resolved) :
    s.Holds t pa m pending resolved := by
  obtain ⟨μ, hm, hpa, hnot⟩ := h
  exact ⟨μ, hm, hpa, fun hp => absurd hp hnot, fun _ => hr⟩

/-- The mapping `m`, which is `μ`, is as good for a call as before: it is pending or not as
    it was, and shows what it did. -/
def Keeps (s s' : Resolver PA len β) (m : Mid) (μ : Mapping PA len β) : Prop :=
  ∃ μ', s'.mapping m = some μ' ∧ μ'.pa = μ.pa ∧ (s'.Pending m μ' ↔ s.Pending m μ) ∧
    (s.Pending m μ → μ'.sem = μ.sem) ∧ (s.Shows m μ.ha → s'.Shows m μ.ha)

omit [DecidableEq PA] [DecidableEq β] in
/-- A step that changes no mapping keeps this one. -/
theorem Keeps.of_same (hm : s'.mapping m = some μ)
    (hw : ∀ x k, s'.writing = some (m, x, k) ↔ s.writing = some (m, x, k)) : Keeps s s' m μ := by
  refine ⟨μ, hm, rfl, and_congr_right fun _ => not_congr (exists₂_congr hw), fun _ => rfl, ?_⟩
  intro ⟨_, _, _, hy⟩
  exact ⟨μ, hm, rfl, fun y k hyk => hy y k ((hw y k).mp hyk)⟩

omit [DecidableEq PA] [DecidableEq β] in
/-- A mapping that is kept stays resolved. -/
theorem Keeps.resolved (h : Keeps s s' m μ) (hm : s.mapping m = some μ) (hr : s.Resolved pa m) :
    s'.Resolved pa m := by
  obtain ⟨ν, hν, hpa, hnot⟩ := hr
  obtain ⟨μ', hm', hpa', hpend, -⟩ := h
  obtain rfl : ν = μ := Option.some.inj (hν.symm.trans hm)
  exact ⟨μ', hm', hpa'.trans hpa, fun hp => hnot (hpend.mp hp)⟩

omit [DecidableEq PA] [DecidableEq β] in
/-- What a call relies on is kept with its mapping. -/
theorem Keeps.holds {pending resolved pending' : Prop} (h : Keeps s s' m μ)
    (hm : s.mapping m = some μ) (hh : s.Holds t pa m pending resolved)
    (hreplied : s'.replied t = s.replied t) (himp : s.Pending m μ → pending → pending') :
    s'.Holds t pa m pending' resolved := by
  obtain ⟨ν, hν, hpa, hpending, hrest⟩ := hh
  obtain ⟨μ', hm', hpa', hpend, hsem, -⟩ := h
  obtain rfl : ν = μ := Option.some.inj (hν.symm.trans hm)
  refine ⟨μ', hm', hpa'.trans hpa, fun hp => ?_, fun hnot => hrest fun hp => hnot (hpend.mpr hp)⟩
  have hp' := hpend.mp hp
  obtain ⟨hs, hr, hpd⟩ := hpending hp'
  exact ⟨(hsem hp').trans hs, hreplied.trans hr, himp hp' hpd⟩

omit [DecidableEq PA] [DecidableEq β] in
/-- What a call does not look at may change: other mappings, its own when it is not pending
    any more, and then its semaphore. -/
theorem At.congr {p : ResolvePoint PA len β} (h : s.At t p)
    (hkeeps : ∀ m μ, s.mapping m = some μ → p.address? = some μ.pa →
      ¬s.Pending m μ ∨ μ.sem = some t → Keeps s s' m μ)
    (hlearned : ∀ x ∈ s.learned, x ∈ s'.learned) (hretries : s'.retries = s.retries)
    (hrequests : s'.requests t = s.requests t) (htimeouts : s'.timeouts t = s.timeouts t)
    (hreplied : s'.replied t = s.replied t)
    (hsem : ∀ m μ, own? p = some m → s.mapping m = some μ → s.Pending m μ → s'.sem t = s.sem t)
    (halarm : s'.alarm t = s.alarm t) : s'.At t p := by
  have hresolved {pa : PA} {m : Mid} (haddress : p.address? = some pa) (hr : s.Resolved pa m) :
      s'.Resolved pa m := by
    obtain ⟨μ, hm, hpa, hnot⟩ := id hr
    exact (hkeeps m μ hm (hpa ▸ haddress) (.inl hnot)).resolved hm hr
  -- a mapping that a call waits for has the semaphore of the call
  have hown {pa : PA} {m : Mid} {pending resolved : Prop} (haddress : p.address? = some pa)
      (hh : s.Holds t pa m pending resolved) :
      ∃ μ, s.mapping m = some μ ∧ Keeps s s' m μ := by
    obtain ⟨μ, hm, hpa, hpending, -⟩ := hh
    refine ⟨μ, hm, hkeeps m μ hm (hpa ▸ haddress) ?_⟩
    by_cases hp : s.Pending m μ
    · exact .inr (hpending hp).1
    · exact .inl hp
  have hholds {pa : PA} {m : Mid} {pending resolved pending' : Prop}
      (haddress : p.address? = some pa) (hh : s.Holds t pa m pending resolved)
      (himp : ∀ μ, s.mapping m = some μ → s.Pending m μ → pending → pending') :
      s'.Holds t pa m pending' resolved := by
    obtain ⟨μ, hm, hk⟩ := hown haddress hh
    exact hk.holds hm hh hreplied (himp μ hm)
  have htimed {m : Mid} {i : Nat} (hm : own? p = some m) (μ : Mapping PA len β)
      (hμ : s.mapping m = some μ) (hp : s.Pending m μ) (ht : s.TimedOut t i) : s'.TimedOut t i := by
    unfold TimedOut
    rw [hrequests, htimeouts, hsem m μ hm hμ hp, halarm]
    exact ht
  have hreads {pa : PA} {m : Mid} {i : Nat} {x : HA len β} (haddress : p.address? = some pa)
      (hm : own? p = some m) (hr : s.Reads t pa m i x) : s'.Reads t pa m i x := by
    refine ⟨fun hx => ⟨hlearned _ (hr.1 hx).1, hresolved haddress (hr.1 hx).2⟩, fun hx => ?_⟩
    rw [hretries]
    exact hholds haddress (hr.2 hx) (htimed hm)
  cases p with
  | out => trivial
  | search pa =>
    unfold At
    rw [hrequests, htimeouts, hreplied]
    exact ⟨h.1, h.2.1, fun hyes => (h.2.2 hyes).imp fun _ => hresolved rfl⟩
  | found pa m k ha =>
    obtain ⟨hr, hcopy⟩ := h
    refine ⟨hresolved rfl hr, fun hk => ?_⟩
    obtain ⟨x, hagree, hx, hmem, hshows⟩ := hcopy hk
    refine ⟨x, hagree, hx, hlearned _ hmem, fun hlt => ?_⟩
    obtain ⟨μ, hm, hpa, hnot⟩ := hr
    obtain ⟨-, -, -, -, -, hshow⟩ := hkeeps m μ hm (hpa ▸ rfl) (.inl hnot)
    have hs := hshows hlt
    obtain ⟨ν, hν, hνx, -⟩ := id hs
    obtain rfl : ν = μ := Option.some.inj (hν.symm.trans hm)
    rw [← hνx] at hs ⊢
    exact hshow hs
  | absent pa =>
    unfold At
    rw [hrequests, htimeouts, hreplied]
    exact h
  | loop pa m i ha =>
    unfold At
    rw [hretries]
    exact ⟨h.1, hreads rfl rfl h.2⟩
  | waiting pa m i =>
    unfold At
    rw [hretries]
    refine ⟨h.1, hholds rfl h.2 fun μ hm hp hall => ?_⟩
    rw [hrequests, htimeouts, hsem m μ rfl hm hp, halarm]
    exact hall
  | woken pa m i k ha =>
    obtain ⟨hi, hk, hh, hcopy⟩ := h
    refine ⟨hretries ▸ hi, hk, hholds rfl hh (htimed rfl), fun hpos => ?_⟩
    obtain ⟨x, hagree, hr, hshows⟩ := hcopy hpos
    refine ⟨x, hagree, hreads rfl rfl hr, fun hlt => ?_⟩
    obtain ⟨μ, hm, hkeep⟩ := hown rfl hh
    obtain ⟨-, -, -, -, -, hshow⟩ := hkeep
    have hs := hshows hlt
    obtain ⟨ν, hν, hνx, -⟩ := id hs
    obtain rfl : ν = μ := Option.some.inj (hν.symm.trans hm)
    rw [← hνx] at hs ⊢
    exact hshow hs

/-! ## Steps of a caller -/

/-- `t` goes to the point `p`, and what belongs to its call is set. -/
def moveTo (s : Resolver PA len β) (t : Tid) (p : ResolvePoint PA len β)
    (requests timeouts sem : Nat) (alarm replied : Bool) : Resolver PA len β :=
  { s.setPoint t p with
    requests := Function.update s.requests t requests
    timeouts := Function.update s.timeouts t timeouts
    sem := Function.update s.sem t sem
    alarm := Function.update s.alarm t alarm
    replied := Function.update s.replied t replied }

section

variable {p : ResolvePoint PA len β} {requests timeouts sem : Nat} {alarm replied : Bool}

omit [DecidableEq PA] [DecidableEq β] in
/-- Another call does not see what `t` does. -/
theorem At.moveTo_of_ne (h : s.At u (s.point u)) (hut : u ≠ t) :
    (s.moveTo t p requests timeouts sem alarm replied).At u
      ((s.moveTo t p requests timeouts sem alarm replied).point u) := by
  have hpoint : (s.moveTo t p requests timeouts sem alarm replied).point u = s.point u :=
    Function.update_of_ne hut _ _
  rw [hpoint]
  exact h.congr (fun m μ hm _ _ => Keeps.of_same hm fun _ _ => Iff.rfl) (fun _ hx => hx) rfl
    (Function.update_of_ne hut _ _) (Function.update_of_ne hut _ _)
    (Function.update_of_ne hut _ _) (fun _ _ _ _ _ => Function.update_of_ne hut _ _)
    (Function.update_of_ne hut _ _)

omit [DecidableEq PA] [DecidableEq β] in
/-- A step of `t` that leaves the mappings alone. After a call no mapping but one that
    forgets it has its semaphore. -/
theorem Inv.of_moveTo (h : s.Inv) (halarm : alarm = true → Alarmed p)
    (hown : own? p = own? (s.point t) ∨
      ∀ m μ, s.mapping m = some μ → μ.sem = some t → m ∈ s.clearing)
    (hat : (s.moveTo t p requests timeouts sem alarm replied).At t p) :
    (s.moveTo t p requests timeouts sem alarm replied).Inv where
  nodup := h.nodup
  mem_iff := h.mem_iff
  alone := h.alone
  -- only the call of `t` has moved
  owned m μ u hm hsem := by
    by_cases hut : u = t
    · rw [hut] at hsem ⊢
      cases hown with
      | inl heq =>
        refine (h.owned m μ t hm hsem).imp_right fun ⟨hu, hor⟩ => ⟨?_, hor⟩
        show own? (Function.update s.point t p t) = some m
        rw [Function.update_self, heq, hu]
      | inr hno => exact .inl (hno m μ hm hsem)
    · refine (h.owned m μ u hm hsem).imp_right fun ⟨hu, hor⟩ => ⟨?_, hor⟩
      show own? (Function.update s.point t p u) = some m
      rwa [Function.update_of_ne hut]
  learned := h.learned
  written := h.written
  clearing := h.clearing
  alarmed u hu := by
    have hu' : Function.update s.alarm t alarm u = true := hu
    show Alarmed (Function.update s.point t p u)
    by_cases hut : u = t
    · rw [hut, Function.update_self] at hu' ⊢
      exact halarm hu'
    · rw [Function.update_of_ne hut] at hu' ⊢
      exact h.alarmed u hu'
  points u := by
    by_cases hut : u = t
    · rw [hut]
      show Resolver.At _ t (Function.update s.point t p t)
      rw [Function.update_self]
      exact hat
    · exact (h.points u).moveTo_of_ne hut

omit [DecidableEq PA] [DecidableEq β] [Zero β] in
/-- What a call finds of itself. -/
theorem moveTo_eqs (s : Resolver PA len β) (t : Tid) (p : ResolvePoint PA len β)
    (requests timeouts sem : Nat) (alarm replied : Bool) :
    (s.moveTo t p requests timeouts sem alarm replied).requests t = requests ∧
      (s.moveTo t p requests timeouts sem alarm replied).timeouts t = timeouts ∧
      (s.moveTo t p requests timeouts sem alarm replied).sem t = sem ∧
      (s.moveTo t p requests timeouts sem alarm replied).alarm t = alarm ∧
      (s.moveTo t p requests timeouts sem alarm replied).replied t = replied :=
  ⟨Function.update_self .., Function.update_self .., Function.update_self ..,
    Function.update_self .., Function.update_self ..⟩

end

omit [DecidableEq PA] [DecidableEq β] in
/-- The point of a call that has no alarm. -/
theorem Inv.alarm_eq_false (h : s.Inv) {p : ResolvePoint PA len β} (hp : s.point t = p)
    (hno : ¬Alarmed p) : s.alarm t = false := by
  cases halarm : s.alarm t with
  | false => rfl
  | true => exact absurd (hp ▸ h.alarmed t halarm) hno

/-- A new call keeps the invariant. -/
theorem Inv.call (h : s.Inv) (hp : s.point t = .out) (pa : PA) : (s.step (.call t pa)).Inv := by
  have heq : s.step (.call t pa) = s.moveTo t (.search pa) 0 0 (s.sem t) (s.alarm t) false := by
    simp only [step, moveTo, setPoint, Function.update_eq_self]
  obtain ⟨hreq, htime, -, -, hrep⟩ := moveTo_eqs s t (.search pa) 0 0 (s.sem t) (s.alarm t) false
  rw [heq]
  refine h.of_moveTo (fun ha => ?_) (.inl (by rw [hp]; rfl)) ⟨hreq, htime, fun hyes => ?_⟩
  · rw [h.alarm_eq_false hp id] at ha
    cases ha
  · rw [hrep] at hyes
    cases hyes

omit [DecidableEq PA] [DecidableEq β] [Zero β] in
/-- Nothing is being written. -/
theorem not_writing (hw : s.writing = none) (m : Mid) : ¬s.Writing m := by
  rintro ⟨x, k, h⟩
  rw [hw] at h
  cases h

/-- The search keeps the invariant. -/
theorem Inv.search (h : s.Inv) {el : Option Mid} (hp : s.point t = .search pa)
    (hfinds : s.Finds pa el) (hclean : ∀ m ∈ el, ∀ μ, s.mapping m = some μ → μ.ha ≠ 0) :
    (s.step (.search t el)).Inv := by
  have hat := h.points t
  rw [hp] at hat
  have halarm := h.alarm_eq_false hp id
  cases el with
  | some m =>
    have heq : s.step (.search t (some m)) = s.moveTo t (.found pa m 0 0) (s.requests t)
        (s.timeouts t) (s.sem t) (s.alarm t) (s.replied t) := by
      simp only [step, hp, moveTo, setPoint, Function.update_eq_self]
    obtain ⟨hmem, μ, hm, hpa⟩ := hfinds
    rw [heq]
    refine h.of_moveTo (fun ha => ?_) (.inl (by rw [hp]; rfl))
      ⟨⟨μ, hm, hpa, fun hpend => hclean m rfl μ hm hpend.1⟩, nofun⟩
    -- a call that searches has no alarm
    rw [halarm] at ha
    cases ha
  | none =>
    have heq : s.step (.search t none) = s.moveTo t (.absent pa) (s.requests t) (s.timeouts t)
        (s.sem t) (s.alarm t) (s.replied t) := by
      simp only [step, hp, moveTo, setPoint, Function.update_eq_self]
    obtain ⟨hreq, htime, -, -, hrep⟩ := moveTo_eqs s t (.absent pa) (s.requests t) (s.timeouts t)
      (s.sem t) (s.alarm t) (s.replied t)
    rw [heq]
    refine h.of_moveTo (fun ha => ?_) (.inl (by rw [hp]; rfl))
      ⟨hreq.trans hat.1, htime.trans hat.2.1, hrep.trans ?_⟩
    · rw [halarm] at ha
      cases ha
    · -- a reply would have left a mapping, and the search has found none
      cases hreplied : s.replied t with
      | false => rfl
      | true =>
        obtain ⟨m, μ, hm, hpa, -⟩ := hat.2.2 hreplied
        exact absurd hpa (hfinds m ((h.mem_iff m).mpr ⟨μ, hm⟩) μ hm)

/-! ## Copies of an address -/

omit [DecidableEq PA] [DecidableEq β] [Zero β] in
/-- Addresses that agree in all bytes are the same. -/
theorem Agrees.eq (h : Agrees len ha x) : ha = x := funext fun j => h j j.isLt

omit [DecidableEq PA] [DecidableEq β] [Zero β] in
/-- A copy goes on with the byte that the mapping shows. -/
theorem Agrees.copyByte (h : Agrees k ha x) (hk : k < len) (hm : s.mapping m = some μ)
    (hx : μ.ha ⟨k, hk⟩ = x ⟨k, hk⟩) (garbage : β) :
    Agrees (k + 1) (s.copyByte m k ha garbage) x := by
  intro j hj
  simp only [Resolver.copyByte, dif_pos hk, byte, hm]
  by_cases hjk : j = ⟨k, hk⟩
  · rw [hjk, Function.update_self]
    exact hx
  · rw [Function.update_of_ne hjk]
    refine h j ?_
    have hne : (j : Nat) ≠ k := fun heq => hjk (Fin.ext heq)
    omega

omit [DecidableEq PA] [DecidableEq β] in
/-- An address that is not partly written is shown, and has been learned if it is one. -/
theorem Inv.of_whole (h : s.Inv) (hwhole : s.Whole m) (hm : s.mapping m = some μ) :
    s.Shows m μ.ha ∧ (μ.ha ≠ 0 → (μ.pa, μ.ha) ∈ s.learned) ∧ (¬s.Pending m μ → μ.ha ≠ 0) := by
  refine ⟨⟨μ, hm, rfl, fun y k hw => (hwhole μ y k hm hw).symm⟩, fun hne => ?_, fun hnot hz => ?_⟩
  · by_cases hw : s.Writing m
    · obtain ⟨y, k, hw⟩ := hw
      obtain ⟨-, -, ν, hν, -, hmem⟩ := h.written m y k hw
      obtain rfl : ν = μ := Option.some.inj (hν.symm.trans hm)
      rwa [hwhole ν y k hm hw]
    · exact h.learned m μ hm hne hw
  · refine hnot ⟨hz, fun ⟨y, k, hw⟩ => ?_⟩
    exact (h.written m y k hw).1 ((hwhole μ y k hm hw).symm.trans hz)

omit [DecidableEq PA] [DecidableEq β] in
/-- What a call that has been woken knows of the address it begins to copy. -/
theorem Inv.reads_of_whole (h : s.Inv) (hwhole : s.Whole m)
    (hh : s.Holds t pa m (s.TimedOut t i) True) :
    ∃ μ, s.mapping m = some μ ∧ s.Shows m μ.ha ∧ s.Reads t pa m i μ.ha := by
  obtain ⟨μ, hm, rfl, hpending, -⟩ := hh
  obtain ⟨hshows, hlearned, hne⟩ := h.of_whole hwhole hm
  refine ⟨μ, hm, hshows, fun hx => ⟨hlearned hx, μ, hm, rfl, fun hp => hx hp.1⟩, fun hx => ?_⟩
  exact ⟨μ, hm, rfl, hpending, fun hnot => absurd hx (hne hnot)⟩

omit [DecidableEq PA] [DecidableEq β] in
/-- What a call knows of the address it has found and begins to copy. -/
theorem Inv.learned_of_whole (h : s.Inv) (hwhole : s.Whole m) (hr : s.Resolved pa m) :
    ∃ μ, s.mapping m = some μ ∧ s.Shows m μ.ha ∧ μ.ha ≠ 0 ∧ (pa, μ.ha) ∈ s.learned := by
  obtain ⟨μ, hm, rfl, hnot⟩ := hr
  obtain ⟨hshows, hlearned, hne⟩ := h.of_whole hwhole hm
  exact ⟨μ, hm, hshows, hne hnot, hlearned (hne hnot)⟩

/-- A byte copied from a mapping that was found keeps the invariant. -/
theorem Inv.copy_found (h : s.Inv) (hp : s.point t = .found pa m k ha) (hk : k < len)
    (hwhole : k = 0 → s.Whole m) (garbage : β) : (s.step (.copy t garbage)).Inv := by
  have heq : s.step (.copy t garbage) = s.moveTo t
      (.found pa m (k + 1) (s.copyByte m k ha garbage)) (s.requests t) (s.timeouts t) (s.sem t)
      (s.alarm t) (s.replied t) := by
    simp only [step, hp, moveTo, setPoint, Function.update_eq_self]
  have hat := h.points t
  rw [hp] at hat
  obtain ⟨hr, hcopy⟩ := hat
  have hx : ∃ x, Agrees k ha x ∧ x ≠ 0 ∧ (pa, x) ∈ s.learned ∧ s.Shows m x := by
    by_cases hzero : k = 0
    · obtain ⟨μ, -, hshows, hne, hmem⟩ := h.learned_of_whole (hwhole hzero) hr
      exact ⟨μ.ha, fun j hj => absurd hj (by omega), hne, hmem, hshows⟩
    · obtain ⟨x, hagree, hne, hmem, hshows⟩ := hcopy (by omega)
      exact ⟨x, hagree, hne, hmem, hshows hk⟩
  obtain ⟨x, hagree, hne, hmem, hshows⟩ := hx
  obtain ⟨μ, hm, hμx, -⟩ := id hshows
  rw [heq]
  refine h.of_moveTo (fun ha => ?_) (.inl (by rw [hp]; rfl)) ⟨hr, fun _ =>
    ⟨x, hagree.copyByte hk hm (by rw [hμx]) garbage, hne, hmem, fun _ => hshows⟩⟩
  rw [h.alarm_eq_false hp id] at ha
  cases ha

omit [DecidableEq PA] [DecidableEq β] in
/-- A weaker reliance. -/
theorem Holds.imp {pending resolved pending' resolved' : Prop}
    (h : s.Holds t pa m pending resolved) (hmapping : s'.mapping = s.mapping)
    (hwriting : s'.writing = s.writing) (hreplied : s'.replied t = s.replied t)
    (hp : pending → pending') (hr : resolved → resolved') :
    s'.Holds t pa m pending' resolved' := by
  obtain ⟨μ, hm, hpa, hpending, hres⟩ := h
  have hpend : s'.Pending m μ ↔ s.Pending m μ := by
    unfold Pending Writing
    rw [hwriting]
  refine ⟨μ, hmapping ▸ hm, hpa, fun hz => ?_, fun hnot => hr (hres fun hz => hnot (hpend.mpr hz))⟩
  obtain ⟨hsem, hrep, hpd⟩ := hpending (hpend.mp hz)
  exact ⟨hsem, hreplied.trans hrep, hp hpd⟩

/-- Only the point of `t` changes. -/
theorem Inv.copy_woken (h : s.Inv) (hp : s.point t = .woken pa m i k ha) (hk : k < len)
    (hwhole : k = 0 → s.Whole m) (garbage : β) : (s.step (.copy t garbage)).Inv := by
  have heq : s.step (.copy t garbage) = s.moveTo t
      (.woken pa m i (k + 1) (s.copyByte m k ha garbage)) (s.requests t) (s.timeouts t) (s.sem t)
      (s.alarm t) (s.replied t) := by
    simp only [step, hp, moveTo, setPoint, Function.update_eq_self]
  have hat := h.points t
  rw [hp] at hat
  obtain ⟨hi, -, hh, hcopy⟩ := hat
  -- the address that the copy follows: it is fixed with the first byte
  have hx : ∃ x, Agrees k ha x ∧ s.Reads t pa m (i + 1) x ∧ s.Shows m x := by
    by_cases hzero : k = 0
    · obtain ⟨μ, -, hshows, hreads⟩ := h.reads_of_whole (hwhole hzero) hh
      exact ⟨μ.ha, fun j hj => absurd hj (by omega), hreads, hshows⟩
    · obtain ⟨x, hagree, hreads, hshows⟩ := hcopy (by omega)
      exact ⟨x, hagree, hreads, hshows hk⟩
  obtain ⟨x, hagree, hreads, hshows⟩ := hx
  obtain ⟨μ, hm, hμx, -⟩ := id hshows
  obtain ⟨hreq, htime, hsem, halarm, hrep⟩ := moveTo_eqs s t
    (.woken pa m i (k + 1) (s.copyByte m k ha garbage)) (s.requests t) (s.timeouts t) (s.sem t)
    (s.alarm t) (s.replied t)
  -- nothing that the time-outs depend on has changed
  have htimed (hall : s.TimedOut t (i + 1)) : (s.moveTo t
      (.woken pa m i (k + 1) (s.copyByte m k ha garbage)) (s.requests t) (s.timeouts t) (s.sem t)
      (s.alarm t) (s.replied t)).TimedOut t (i + 1) := by
    unfold TimedOut
    rw [hreq, htime, hsem, halarm]
    exact hall
  rw [heq]
  refine h.of_moveTo (fun _ => trivial) (.inl (by rw [hp]; rfl))
    ⟨hi, hk, hh.imp rfl rfl hrep htimed id, fun _ =>
      ⟨x, hagree.copyByte hk hm (by rw [hμx]) garbage, ?_, fun _ => hshows⟩⟩
  exact ⟨hreads.1, fun hz => (hreads.2 hz).imp rfl rfl hrep htimed id⟩

/-- The first test of the address keeps the invariant. -/
theorem Inv.read (h : s.Inv) (hp : s.point t = .found pa m k ha) : (s.step (.read t)).Inv := by
  have heq : s.step (.read t) = s.moveTo t .out (s.requests t) (s.timeouts t) (s.sem t)
      (s.alarm t) (s.replied t) := by
    simp only [step, moveTo, setPoint, Function.update_eq_self]
  rw [heq]
  refine h.of_moveTo (fun ha => ?_) (.inl (by rw [hp]; rfl)) trivial
  rw [h.alarm_eq_false hp id] at ha
  cases ha

/-! ## Requests -/

/-- A request keeps the invariant. -/
theorem Inv.request (h : s.Inv) (hp : s.point t = .loop pa m i 0) (hi : i < s.retries) :
    (s.step (.request t)).Inv := by
  have heq : s.step (.request t) = s.moveTo t (.waiting pa m i) (s.requests t + 1) (s.timeouts t)
      (s.sem t) true (s.replied t) := by
    simp only [step, hp, moveTo, setPoint, Function.update_eq_self]
  obtain ⟨hreq, htime, hsem, halarm, hrep⟩ := moveTo_eqs s t (.waiting pa m i) (s.requests t + 1)
    (s.timeouts t) (s.sem t) true (s.replied t)
  have hat := h.points t
  rw [hp] at hat
  rw [heq]
  refine h.of_moveTo (fun _ => trivial) (.inl (by rw [hp]; rfl)) ⟨hi, ?_⟩
  rw [hreq, htime, hsem, halarm]
  refine (hat.2.2 rfl).imp rfl rfl hrep (fun ⟨hr, ht, hs, _⟩ => ?_) fun _ => trivial
  exact ⟨by rw [hr], by rw [hs]; rfl, by rw [ht, hs, Nat.add_zero]⟩

/-- The alarm of a call keeps the invariant. -/
theorem Inv.alarm (h : s.Inv) (halarm : s.alarm t = true) : (s.step (.alarm t)).Inv := by
  have heq : s.step (.alarm t) = s.moveTo t (s.point t) (s.requests t) (s.timeouts t + 1)
      (s.sem t + 1) false (s.replied t) := by
    simp only [step, moveTo, setPoint, Function.update_eq_self]
  obtain ⟨hreq, htime, hsem, halarm', hrep⟩ := moveTo_eqs s t (s.point t) (s.requests t)
    (s.timeouts t + 1) (s.sem t + 1) false (s.replied t)
  have hat := h.points t
  have halarmed := h.alarmed t halarm
  -- with its alarm still set, a call that has been woken has a reply
  have hnot (i : Nat) : ¬s.TimedOut t i := by
    rintro ⟨-, -, -, ha⟩
    rw [halarm] at ha
    cases ha
  rw [heq]
  refine h.of_moveTo nofun (.inl rfl) ?_
  cases hp : s.point t with
  | waiting pa m i =>
    rw [hp] at hat hreq htime hsem halarm' hrep
    refine ⟨hat.1, ?_⟩
    rw [hreq, htime, hsem, halarm']
    refine hat.2.imp rfl rfl hrep (fun ⟨hr, hs, ht⟩ => ?_) fun _ => trivial
    rw [halarm] at hs
    have hzero : s.sem t = 0 := Nat.succ.inj hs
    exact ⟨hr, by rw [hzero]; rfl, by rw [ht, hzero]⟩
  | woken pa m i k ha =>
    rw [hp] at hat hrep
    obtain ⟨hi, hk, hh, hcopy⟩ := hat
    refine ⟨hi, hk, hh.imp rfl rfl hrep (fun hall => absurd hall (hnot _)) id, fun hpos => ?_⟩
    obtain ⟨x, hagree, hreads, hshows⟩ := hcopy hpos
    exact ⟨x, hagree, ⟨hreads.1, fun hz => (hreads.2 hz).imp rfl rfl hrep
      (fun hall => absurd hall (hnot _)) id⟩, hshows⟩
  | _ =>
    rw [hp] at halarmed
    exact halarmed.elim

/-- Waking up keeps the invariant. -/
theorem Inv.pass (h : s.Inv) (hp : s.point t = .waiting pa m i) (hpos : 0 < s.sem t) :
    (s.step (.pass t)).Inv := by
  have heq : s.step (.pass t) = s.moveTo t (.woken pa m i 0 0) (s.requests t) (s.timeouts t)
      (s.sem t - 1) (s.alarm t) (s.replied t) := by
    simp only [step, hp, moveTo, setPoint, Function.update_eq_self]
  obtain ⟨hreq, htime, hsem, halarm, hrep⟩ := moveTo_eqs s t (.woken pa m i 0 0) (s.requests t)
    (s.timeouts t) (s.sem t - 1) (s.alarm t) (s.replied t)
  have hat := h.points t
  rw [hp] at hat
  rw [heq]
  refine h.of_moveTo (fun _ => trivial) (.inl (by rw [hp]; rfl))
    ⟨hat.1, Nat.zero_le _, ?_, nofun⟩
  unfold TimedOut
  rw [hreq, htime, hsem, halarm]
  refine hat.2.imp rfl rfl hrep (fun ⟨hr, hs, ht⟩ => ?_) fun _ => trivial
  -- with its semaphore at 1 the alarm of the call has gone off
  cases ha : s.alarm t with
  | false =>
    rw [ha] at hs
    have hone : s.sem t = 1 := hs
    exact ⟨hr, by rw [ht, hone], by rw [hone], rfl⟩
  | true =>
    rw [ha] at hs
    have hzero : s.sem t = 0 := Nat.succ.inj hs
    omega

omit [DecidableEq PA] [DecidableEq β] in
/-- What a call has read when it has all bytes. -/
theorem Inv.reads_of_woken (h : s.Inv) (hp : s.point t = .woken pa m i len ha) :
    s.Reads t pa m (i + 1) ha := by
  have hat := h.points t
  rw [hp] at hat
  obtain ⟨-, -, hh, hcopy⟩ := hat
  by_cases hpos : 0 < len
  · obtain ⟨x, hagree, hreads, -⟩ := hcopy hpos
    rwa [hagree.eq]
  · -- there is just one address
    have hsame (x y : HA len β) : x = y := funext fun j => absurd j.isLt (by omega)
    obtain ⟨μ, -, -, hreads⟩ := h.reads_of_whole (fun _ _ _ _ _ => hsame _ _) hh
    rwa [hsame ha μ.ha]

omit [DecidableEq PA] [DecidableEq β] in
/-- What a call has found when it has all bytes. -/
theorem Inv.learned_of_found (h : s.Inv) (hp : s.point t = .found pa m len ha) :
    ha ≠ 0 ∧ (pa, ha) ∈ s.learned := by
  have hat := h.points t
  rw [hp] at hat
  obtain ⟨hr, hcopy⟩ := hat
  by_cases hpos : 0 < len
  · obtain ⟨x, hagree, hne, hmem, -⟩ := hcopy hpos
    rw [hagree.eq]
    exact ⟨hne, hmem⟩
  · -- there is just one address
    have hsame (x y : HA len β) : x = y := funext fun j => absurd j.isLt (by omega)
    obtain ⟨μ, -, -, hne, -⟩ := h.learned_of_whole (fun _ _ _ _ _ => hsame _ _) hr
    exact absurd (hsame _ _) hne

/-- The test of the copied address keeps the invariant. -/
theorem Inv.look (h : s.Inv) (hp : s.point t = .woken pa m i len ha) : (s.step (.look t)).Inv := by
  have heq : s.step (.look t) = s.moveTo t (.loop pa m (i + 1) ha)
      (s.requests t) (s.timeouts t) (s.sem t) false (s.replied t) := by
    simp only [step, hp, moveTo, setPoint, Function.update_eq_self]
  obtain ⟨hreq, htime, hsem, halarm, hrep⟩ := moveTo_eqs s t (.loop pa m (i + 1) ha)
    (s.requests t) (s.timeouts t) (s.sem t) false (s.replied t)
  have hreads := h.reads_of_woken hp
  have hat := h.points t
  rw [hp] at hat
  rw [heq]
  refine h.of_moveTo nofun (.inl (by rw [hp]; rfl)) ⟨hat.1, hreads.1, fun hz => ?_⟩
  refine (hreads.2 hz).imp rfl rfl hrep (fun hall => ?_) id
  exact ⟨hreq.trans hall.1, htime.trans hall.2.1, hsem.trans hall.2.2.1, halarm⟩

/-- A call that has an address leaves its mapping in the table. -/
theorem Inv.finish_resolved (h : s.Inv) (hp : s.point t = .loop pa m i ha) (hne : ha ≠ 0)
    (hw : s.writing = none) : (s.step (.finish t)).Inv := by
  have heq : s.step (.finish t) = s.moveTo t .out (s.requests t) (s.timeouts t) (s.sem t)
      (s.alarm t) (s.replied t) := by
    simp only [step, hp, if_neg hne, moveTo, setPoint, Function.update_eq_self]
  have hat := h.points t
  rw [hp] at hat
  obtain ⟨-, μ, hm, -, hnot⟩ := hat.2.1 hne
  rw [heq]
  refine h.of_moveTo (fun ha => ?_) (.inr fun n ν hn hsem => ?_) trivial
  · rw [h.alarm_eq_false hp id] at ha
    cases ha
  · refine (h.owned n ν t hn hsem).resolve_right fun ⟨hown, hor⟩ => ?_
    rw [hp] at hown
    cases hown
    rw [hm] at hn
    cases hn
    exact hnot ⟨hor.resolve_right (not_writing hw m), not_writing hw m⟩

omit [DecidableEq PA] [DecidableEq β] in
/-- Without an address after the last request, the mapping of the call is still pending. -/
theorem Inv.pending_of_finish (h : s.Inv) (hp : s.point t = .loop pa m i 0)
    (hi : ¬i < s.retries) : i = s.retries ∧ ∃ μ, s.mapping m = some μ ∧ s.Pending m μ ∧
      μ.sem = some t ∧ s.replied t = false ∧ s.requests t = i ∧ s.timeouts t = i := by
  have hat := h.points t
  rw [hp] at hat
  obtain ⟨hle, -, hholds⟩ := hat
  obtain ⟨μ, hm, -, hpending, hres⟩ := hholds rfl
  have hz : s.Pending m μ := by
    by_contra hnot
    exact hi (hres hnot)
  obtain ⟨hsem, hrep, hreq, htime, -⟩ := hpending hz
  exact ⟨by omega, μ, hm, hz, hsem, hrep, hreq, htime⟩

/-- Giving up keeps the invariant. -/
theorem Inv.finish_pending (h : s.Inv) (hp : s.point t = .loop pa m i 0)
    (hi : ¬i < s.retries) : (s.step (.finish t)).Inv := by
  obtain ⟨-, μ, hm, hz, hsem, -⟩ := h.pending_of_finish hp hi
  have heq : s.step (.finish t) = (s.delete m).setPoint t .out := by
    simp only [step, hp, if_true]
  have hkept {n : Mid} {ν : Mapping PA len β}
      (hn : Function.update s.mapping m none n = some ν) : n ≠ m ∧ s.mapping n = some ν := by
    by_cases hnm : n = m
    · rw [hnm, Function.update_self] at hn
      cases hn
    · rw [Function.update_of_ne hnm] at hn
      exact ⟨hnm, hn⟩
  have hsame {n : Mid} (hnm : n ≠ m) : Function.update s.mapping m none n = s.mapping n :=
    Function.update_of_ne hnm _ _
  rw [heq]
  constructor
  case nodup => exact h.nodup.erase m
  case mem_iff =>
    intro n
    show n ∈ s.table.erase m ↔ ∃ ν, Function.update s.mapping m none n = some ν
    rw [h.nodup.mem_erase_iff, h.mem_iff]
    constructor
    · rintro ⟨hnm, ν, hn⟩
      exact ⟨ν, by rw [Function.update_of_ne hnm, hn]⟩
    · rintro ⟨ν, hn⟩
      exact ⟨(hkept hn).1, ν, (hkept hn).2⟩
  case alone =>
    intro n ν hn hzero n' ν' hn' hpa
    exact h.alone n ν (hkept hn).2 hzero n' ν' (hkept hn').2 hpa
  case owned =>
    intro n ν u hn hu
    obtain ⟨hnm, hn'⟩ := hkept hn
    refine (h.owned n ν u hn' hu).imp_right fun ⟨hown, hor⟩ => ⟨?_, hor⟩
    show own? (Function.update s.point t .out u) = some n
    by_cases hut : u = t
    · rw [hut, hp] at hown
      exact absurd (Option.some.inj hown).symm hnm
    · rwa [Function.update_of_ne hut]
  case learned => exact fun n ν hn => h.learned n ν (hkept hn).2
  case written =>
    intro n x k hw
    obtain ⟨hx, hc, ν, hn, hrest⟩ := h.written n x k hw
    have hnm : n ≠ m := by
      rintro rfl
      exact hz.2 ⟨x, k, hw⟩
    exact ⟨hx, hc, ν, (hsame hnm).trans hn, hrest⟩
  case clearing =>
    intro n hc
    obtain ⟨ν, hn, hne⟩ := h.clearing n hc
    have hnm : n ≠ m := by
      rintro rfl
      rw [hm] at hn
      cases hn
      exact hne hz.1
    exact ⟨ν, (hsame hnm).trans hn, hne⟩
  case alarmed =>
    intro u hu
    show Alarmed (Function.update s.point t .out u)
    by_cases hut : u = t
    · rw [hut] at hu
      have hu' : s.alarm t = true := hu
      rw [h.alarm_eq_false hp id] at hu'
      cases hu'
    · rw [Function.update_of_ne hut]
      exact h.alarmed u hu
  case points =>
    intro u
    show Resolver.At _ u (Function.update s.point t .out u)
    by_cases hut : u = t
    · rw [hut, Function.update_self]
      trivial
    · rw [Function.update_of_ne hut]
      refine (h.points u).congr (fun n ν hn _ hor => ?_) (fun _ hx => hx) rfl rfl rfl rfl
        (fun _ _ _ _ _ => rfl) rfl
      -- the mapping that is deleted is neither resolved nor of another call
      have hnm : n ≠ m := by
        rintro rfl
        rw [hm] at hn
        cases hn
        cases hor with
        | inl hne => exact hne hz
        | inr hu => exact hut (Option.some.inj (hu.symm.trans hsem))
      exact Keeps.of_same ((hsame hnm).trans hn) fun _ _ => Iff.rfl

/-! ## New mappings -/

omit [DecidableEq PA] [DecidableEq β] [Zero β] in
/-- What has been in the table stays there. -/
theorem insert_mapping (hm : s.mapping m = none) (hn : s.mapping n = some ν) :
    (s.insert m μ).mapping n = some ν := by
  have hnm : n ≠ m := by
    rintro rfl
    rw [hm] at hn
    cases hn
  show Function.update s.mapping m (some μ) n = some ν
  rwa [Function.update_of_ne hnm]

omit [DecidableEq PA] [DecidableEq β] [Zero β] in
/-- A mapping is the inserted one or was there before. -/
theorem insert_mapping_cases (hn : (s.insert m μ).mapping n = some ν) :
    n = m ∧ ν = μ ∨ n ≠ m ∧ s.mapping n = some ν := by
  have hn' : Function.update s.mapping m (some μ) n = some ν := hn
  by_cases hnm : n = m
  · rw [hnm, Function.update_self] at hn'
    exact .inl ⟨hnm, (Option.some.inj hn').symm⟩
  · rw [Function.update_of_ne hnm] at hn'
    exact .inr ⟨hnm, hn'⟩

/-- The part of the invariant that is about the table. -/
structure TableInv (s : Resolver PA len β) : Prop where
  nodup : s.table.Nodup
  mem_iff : ∀ m, m ∈ s.table ↔ ∃ μ, s.mapping m = some μ
  alone : ∀ m μ, s.mapping m = some μ → s.Pending m μ →
    ∀ n ν, s.mapping n = some ν → ν.pa = μ.pa → n = m
  written : ∀ m x k, s.writing = some (m, x, k) → x ≠ 0 ∧ m ∉ s.clearing ∧
    ∃ μ, s.mapping m = some μ ∧ Agrees k μ.ha x ∧ (μ.pa, x) ∈ s.learned
  clearing : ∀ m ∈ s.clearing, ∃ μ, s.mapping m = some μ ∧ μ.ha ≠ 0

omit [DecidableEq PA] [DecidableEq β] in
/-- The table with a new mapping beside which there is no pending one, and which is not
    pending beside another. -/
theorem Inv.insert_table (h : s.Inv) (hm : s.mapping m = none)
    (hpending : ∀ n ν, s.mapping n = some ν → ν.pa = μ.pa → ¬s.Pending n ν)
    (hother : μ.ha = 0 → ∀ n ν, s.mapping n = some ν → ν.pa ≠ μ.pa) :
    (s.insert m μ).TableInv := by
  constructor
  case nodup =>
    refine List.nodup_cons.mpr ⟨fun hmem => ?_, h.nodup⟩
    obtain ⟨ν, hν⟩ := (h.mem_iff m).mp hmem
    rw [hm] at hν
    cases hν
  case mem_iff =>
    intro n
    show n ∈ m :: s.table ↔ _
    rw [List.mem_cons, h.mem_iff]
    constructor
    · rintro (rfl | ⟨ν, hn⟩)
      · exact ⟨μ, Function.update_self ..⟩
      · exact ⟨ν, insert_mapping hm hn⟩
    · rintro ⟨ν, hn⟩
      exact (insert_mapping_cases hn).imp And.left fun hn => ⟨ν, hn.2⟩
  -- two mappings of one address, of which one is pending
  case alone =>
    intro n ν hn hzero n' ν' hn' hpa
    rcases insert_mapping_cases hn with ⟨rfl, rfl⟩ | ⟨-, hold⟩
    · rcases insert_mapping_cases hn' with ⟨rfl, -⟩ | ⟨-, hold'⟩
      · rfl
      · exact absurd hpa (hother hzero.1 n' ν' hold')
    · rcases insert_mapping_cases hn' with ⟨-, rfl⟩ | ⟨-, hold'⟩
      · exact absurd hzero (hpending n ν hold hpa.symm)
      · exact h.alone n ν hold hzero n' ν' hold' hpa
  case written =>
    intro n x k hw
    obtain ⟨hx, hc, ν, hn, hrest⟩ := h.written n x k hw
    exact ⟨hx, hc, ν, insert_mapping hm hn, hrest⟩
  case clearing =>
    intro n hc
    obtain ⟨ν, hn, hne⟩ := h.clearing n hc
    exact ⟨ν, insert_mapping hm hn, hne⟩

/-- An address that is learned from a request keeps the invariant. -/
theorem Inv.enter (h : s.Inv) (hm : s.mapping m = none) (hw : s.writing = none) (hne : ha ≠ 0)
    (hclean : ∀ m ∈ s.table, ∀ μ, s.mapping m = some μ → μ.pa = pa → μ.ha ≠ 0) :
    (s.step (.enter pa ha m)).Inv := by
  have htable := h.insert_table (μ := ⟨pa, ha, none⟩) hm
    (fun n ν hn hpa hp => hclean n ((h.mem_iff n).mpr ⟨ν, hn⟩) ν hn hpa hp.1)
    fun hz => absurd hz hne
  constructor
  case nodup => exact htable.nodup
  case mem_iff => exact htable.mem_iff
  case alone => exact htable.alone
  case owned =>
    -- the new entry has no caller of resolve()
    intro n ν u hn hu
    rcases insert_mapping_cases hn with ⟨rfl, rfl⟩ | ⟨-, hn⟩
    · cases hu
    · exact h.owned n ν u hn hu
  case learned =>
    -- it counts as a reply, since it was learned from one
    intro n ν hn hν hnot
    rcases insert_mapping_cases hn with ⟨rfl, rfl⟩ | ⟨-, hn⟩
    · exact List.mem_cons_self
    · exact List.mem_cons_of_mem _ (h.learned n ν hn hν hnot)
  case written => exact fun n x k hwr => absurd ⟨x, k, hwr⟩ (not_writing hw n)
  case clearing => exact htable.clearing
  case alarmed => exact h.alarmed
  case points =>
    intro u
    exact (h.points u).congr
      (fun n ν hn _ _ => Keeps.of_same (insert_mapping hm hn) fun _ _ => Iff.rfl)
      (fun _ hx => List.mem_cons_of_mem _ hx) rfl rfl rfl rfl (fun _ _ _ _ _ => rfl) rfl

/-- A new pending mapping keeps the invariant. -/
theorem Inv.insert (h : s.Inv) (hp : s.point t = .absent pa) (hm : s.mapping m = none)
    (hfinds : s.Finds pa none) : (s.step (.insert t m)).Inv := by
  have hat := h.points t
  rw [hp] at hat
  -- the search found nothing, so no entry has the address yet
  have hnone (n : Mid) (ν : Mapping PA len β) (hn : s.mapping n = some ν) : ν.pa ≠ pa :=
    hfinds n ((h.mem_iff n).mpr ⟨ν, hn⟩) ν hn
  have htable := h.insert_table (μ := ⟨pa, 0, some t⟩) hm
    (fun n ν hn hpa => absurd hpa (hnone n ν hn)) fun _ => hnone
  have hfresh : ¬s.Writing m := by
    rintro ⟨x, k, hw⟩
    obtain ⟨-, -, ν, hν, -⟩ := h.written m x k hw
    rw [hm] at hν
    cases hν
  have heq : s.step (.insert t m) = (s.insert m ⟨pa, 0, some t⟩).moveTo t (.loop pa m 0 0)
      (s.requests t) (s.timeouts t) 0 false (s.replied t) := by
    simp only [step, hp, moveTo, setPoint, Resolver.insert, Function.update_eq_self]
  obtain ⟨hreq, htime, hsem, halarm, hrep⟩ := moveTo_eqs (s.insert m ⟨pa, 0, some t⟩) t
    (.loop pa m 0 0) (s.requests t) (s.timeouts t) 0 false (s.replied t)
  rw [heq]
  constructor
  case nodup => exact htable.nodup
  case mem_iff => exact htable.mem_iff
  case alone => exact htable.alone
  case owned =>
    intro n ν u hn hu
    rcases insert_mapping_cases hn with ⟨rfl, rfl⟩ | ⟨-, hold⟩
    · cases hu
      refine .inr ⟨?_, .inl rfl⟩
      show own? (Function.update s.point t (.loop pa n 0 0) t) = some n
      rw [Function.update_self]
      rfl
    · refine (h.owned n ν u hold hu).imp_right fun ⟨hown, hor⟩ => ⟨?_, hor⟩
      show own? (Function.update s.point t (.loop pa m 0 0) u) = some n
      -- `t` waits for no mapping yet
      have hut : u ≠ t := by
        rintro rfl
        rw [hp] at hown
        cases hown
      rwa [Function.update_of_ne hut]
  case learned =>
    intro n ν hn hν hnot
    rcases insert_mapping_cases hn with ⟨rfl, rfl⟩ | ⟨-, hn⟩
    · exact absurd rfl hν
    · exact h.learned n ν hn hν hnot
  case written => exact htable.written
  case clearing => exact htable.clearing
  case alarmed =>
    intro u hu
    have hu' : Function.update s.alarm t false u = true := hu
    show Alarmed (Function.update s.point t (.loop pa m 0 0) u)
    by_cases hut : u = t
    · rw [hut, Function.update_self] at hu'
      cases hu'
    · rw [Function.update_of_ne hut] at hu' ⊢
      exact h.alarmed u hu'
  case points =>
    intro u
    by_cases hut : u = t
    · rw [hut]
      show Resolver.At _ t (Function.update s.point t (.loop pa m 0 0) t)
      rw [Function.update_self]
      refine ⟨Nat.zero_le _, fun hne => absurd rfl hne, fun _ => ?_⟩
      exact ⟨⟨pa, 0, some t⟩, Function.update_self .., rfl,
        fun _ => ⟨rfl, hrep.trans hat.2.2, hreq.trans hat.1, htime.trans hat.2.1, hsem, halarm⟩,
        fun hnot => absurd ⟨rfl, hfresh⟩ hnot⟩
    · refine At.moveTo_of_ne (s := s.insert m ⟨pa, 0, some t⟩) ?_ hut
      exact (h.points u).congr
        (fun n ν hn _ _ => Keeps.of_same (insert_mapping hm hn) fun _ _ => Iff.rfl)
        (fun _ hx => hx) rfl rfl rfl rfl (fun _ _ _ _ _ => rfl) rfl

end Resolver

end ARP

end Epos
