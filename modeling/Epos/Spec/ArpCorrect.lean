import Epos.Spec.ArpCalls

/-!
# Resolving addresses

A pending mapping stands in the table like a resolved one, and a reply is for whichever
mapping the search finds. As long as no caller finds a pending mapping, no second mapping
is inserted beside one, no reply comes while a call does not listen, and no address changes
while a call copies it, `resolve()` returns what it should.
-/

namespace Epos

namespace ARP

namespace Resolver

variable {PA β : Type*} {len : Nat} [DecidableEq PA] [DecidableEq β] [Zero β]
  {s s' : Resolver PA len β} {t u : Tid} {pa : PA} {ha x y : HA len β} {m n : Mid} {i k : Nat}
  {μ ν : Mapping PA len β}

/-! ## Replies -/

/-- What a reply with the lock is about to write. -/
theorem reply_writing_iff {el : Option Mid} :
    (s.step (.reply pa ha el)).writing = some (n, x, k) ↔ el = some n ∧ ha = x ∧ k = 0 := by
  show el.map (fun m => (m, ha, 0)) = some (n, x, k) ↔ _
  cases el with
  | none => simp
  | some m =>
    simp only [Option.map_some, Option.some.injEq, Prod.mk.injEq]
    exact and_congr_right fun _ => and_congr_right fun _ => eq_comm

/-- Beside the mapping that a reply finds, what was pending is. -/
theorem reply_pending_iff (hw : s.writing = none) {el : Option Mid} :
    (s.step (.reply pa ha el)).Pending n ν ↔ s.Pending n ν ∧ el ≠ some n := by
  have hnew : (s.step (.reply pa ha el)).Writing n ↔ el = some n :=
    ⟨fun ⟨_, _, hy⟩ => (reply_writing_iff.mp hy).1,
      fun hel => ⟨ha, 0, reply_writing_iff.mpr ⟨hel, rfl, rfl⟩⟩⟩
  unfold Pending
  rw [hnew, and_iff_left (not_writing hw n)]

omit [DecidableEq PA] [DecidableEq β] in
/-- A pending mapping is the only one that can be found. -/
theorem Inv.found_of_pending (h : s.Inv) {el : Option Mid} (hfinds : s.Finds pa el)
    (hn : s.mapping n = some ν) (hpa : ν.pa = pa) (hpend : s.Pending n ν) : el = some n := by
  cases el with
  | none => exact absurd hpa (hfinds n ((h.mem_iff n).mpr ⟨ν, hn⟩) ν hn)
  | some m =>
    obtain ⟨-, μ, hm, hmpa⟩ := hfinds
    exact congrArg some (h.alone n ν hn hpend m μ hm (hmpa.trans hpa.symm))

/-- After a reply for `pa` no mapping for `pa` is pending. -/
theorem Inv.reply_resolved (h : s.Inv) (hw : s.writing = none) {el : Option Mid}
    (hfinds : s.Finds pa el) (hn : s.mapping n = some ν) (hpa : ν.pa = pa) :
    (s.step (.reply pa ha el)).Resolved pa n := by
  refine ⟨ν, hn, hpa, fun hpend => ?_⟩
  obtain ⟨hpend', hel⟩ := (reply_pending_iff hw).mp hpend
  exact hel (h.found_of_pending hfinds hn hpa hpend')

/-- A copy that has begun goes on, as the reply is another mapping's or brings the same. -/
theorem reply_shows {el : Option Mid} (hapart : ∀ m ∈ el, s.Apart m ha)
    (hcopies : s.Copies u n) (hs : s.Shows n x) : (s.step (.reply pa ha el)).Shows n x := by
  obtain ⟨μ, hn, hμx, -⟩ := hs
  refine ⟨μ, hn, hμx, fun y k hy => ?_⟩
  obtain ⟨hel, hay, -⟩ := reply_writing_iff.mp hy
  rw [← hay]
  by_contra hne
  exact (hapart n hel).2 μ hn (fun heq => hne (heq.symm.trans hμx)) u hcopies

/-- A call for the address of a reply. -/
theorem Inv.reply_at (h : s.Inv) (hw : s.writing = none) (hne : ha ≠ 0) {el : Option Mid}
    (hfinds : s.Finds pa el) (hlistens : s.Listens u pa el) (hapart : ∀ m ∈ el, s.Apart m ha)
    (haddress : (s.point u).address? = some pa) :
    (s.step (.reply pa ha el)).At u (s.point u) := by
  have hat := h.points u
  -- the entry that the reply finds is resolved by it, wherever `u` is in `resolve`
  have hresolved {m : Mid} (hex : ∃ μ, s.mapping m = some μ ∧ μ.pa = pa) :
      (s.step (.reply pa ha el)).Resolved pa m := by
    obtain ⟨μ, hm, hpa⟩ := hex
    exact h.reply_resolved hw hfinds hm hpa
  have hholds {m : Mid} {pending resolved : Prop} (hh : s.Holds u pa m pending resolved) :
      (s.step (.reply pa ha el)).Resolved pa m := by
    obtain ⟨μ, hm, hpa, -⟩ := hh
    exact hresolved ⟨μ, hm, hpa⟩
  have hof {m : Mid} (hr : s.Resolved pa m) : (s.step (.reply pa ha el)).Resolved pa m := by
    obtain ⟨μ, hm, hpa, -⟩ := hr
    exact hresolved ⟨μ, hm, hpa⟩
  cases hp : s.point u with
  | out => trivial
  | search pa' =>
    rw [hp] at hat haddress
    cases haddress
    refine ⟨hat.1, hat.2.1, fun _ => ?_⟩
    cases hel : el with
    | none => exact absurd hel (hlistens.1 hp)
    | some m =>
      rw [hel] at hfinds
      obtain ⟨-, μ, hm, hpa⟩ := hfinds
      rw [← hel]
      exact ⟨m, hresolved ⟨μ, hm, hpa⟩⟩
  | found pa' m k x =>
    rw [hp] at hat haddress
    cases haddress
    refine ⟨hof hat.1, fun hpos => ?_⟩
    obtain ⟨y, hagree, hne, hmem, hshows⟩ := hat.2 hpos
    exact ⟨y, hagree, hne, List.mem_cons_of_mem _ hmem, fun hlt =>
      reply_shows hapart ⟨k, by rw [hp]; rfl, hpos, hlt⟩ (hshows hlt)⟩
  | absent pa' =>
    rw [hp] at haddress
    cases haddress
    exact absurd hp hlistens.2.1
  | loop pa' m i x =>
    rw [hp] at hat haddress
    cases haddress
    refine ⟨hat.1, fun hx => ?_, fun hx => ?_⟩
    · obtain ⟨hmem, hr⟩ := hat.2.1 hx
      exact ⟨List.mem_cons_of_mem _ hmem, hof hr⟩
    · refine (hholds (hat.2.2 hx)).holds (hlistens.2.2.1 m i ?_)
      rw [hp, hx]
  | waiting pa' m i =>
    rw [hp] at hat haddress
    cases haddress
    exact ⟨hat.1, (hholds hat.2).holds trivial⟩
  | woken pa' m i k x =>
    rw [hp] at hat haddress
    cases haddress
    obtain ⟨hi, hk, hh, hcopy⟩ := hat
    refine ⟨hi, hk, (hholds hh).holds trivial, fun hpos => ?_⟩
    obtain ⟨y, hagree, hreads, hshows⟩ := hcopy hpos
    refine ⟨y, hagree, ⟨fun hy => ?_, fun hy => ?_⟩, fun hlt =>
      reply_shows hapart ⟨k, by rw [hp]; rfl, hpos, hlt⟩ (hshows hlt)⟩
    · obtain ⟨hmem, hr⟩ := hreads.1 hy
      exact ⟨List.mem_cons_of_mem _ hmem, hof hr⟩
    · refine (hholds hh).holds ?_
      by_cases hlt : k < len
      · -- the null address that is copied is that of the mapping that the reply changes
        obtain ⟨μ, hm, hpa, -⟩ := hh
        obtain ⟨ν, hν, hνy, -⟩ := hshows hlt
        obtain rfl : ν = μ := Option.some.inj (hν.symm.trans hm)
        have hz : ν.ha = 0 := hνy.trans hy
        have hel := h.found_of_pending hfinds hm hpa ⟨hz, not_writing hw m⟩
        exact absurd ⟨k, by rw [hp]; rfl, hpos, hlt⟩
          ((hapart m hel).2 ν hm (fun heq => hne (heq.symm.trans hz)) u)
      · have hlen : k = len := by omega
        refine hlistens.2.2.2 m i ?_
        rw [hp, hlen, (hlen ▸ hagree : Agrees len x y).eq, hy]

/-- A reply that disturbs no call keeps the invariant. -/
theorem Inv.reply (h : s.Inv) (hw : s.writing = none) {el : Option Mid} (hfinds : s.Finds pa el)
    (hne : ha ≠ 0) (hlistens : ∀ t, s.Listens t pa el) (hapart : ∀ m ∈ el, s.Apart m ha) :
    (s.step (.reply pa ha el)).Inv := by
  have hfound {m : Mid} {μ : Mapping PA len β} (hel : el = some m) (hm : s.mapping m = some μ) :
      μ.pa = pa := by
    rw [hel] at hfinds
    obtain ⟨-, ν, hν, hpa⟩ := hfinds
    rw [hm] at hν
    cases hν
    exact hpa
  constructor
  case nodup => exact h.nodup
  case mem_iff => exact h.mem_iff
  case alone =>
    exact fun n ν hn hpend => h.alone n ν hn ((reply_pending_iff hw).mp hpend).1
  case owned =>
    intro n ν u hn hu
    exact (h.owned n ν u hn hu).imp_right fun ⟨hown, hor⟩ =>
      ⟨hown, .inl (hor.resolve_right (not_writing hw n))⟩
  case learned =>
    exact fun n ν hn hν _ => List.mem_cons_of_mem _ (h.learned n ν hn hν (not_writing hw n))
  case written =>
    intro n x k hwr
    obtain ⟨hel, rfl, rfl⟩ := reply_writing_iff.mp hwr
    obtain ⟨-, ν, hn, hpa⟩ : n ∈ s.table ∧ ∃ μ, s.mapping n = some μ ∧ μ.pa = pa := by
      rw [hel] at hfinds
      exact hfinds
    refine ⟨hne, (hapart n hel).1, ν, hn, fun j hj => absurd hj (Nat.not_lt_zero _), ?_⟩
    rw [hpa]
    exact List.mem_cons_self
  case clearing => exact h.clearing
  case alarmed => exact h.alarmed
  case points =>
    intro u
    show (s.step (.reply pa ha el)).At u (s.point u)
    by_cases haddress : (s.point u).address? = some pa
    · exact h.reply_at hw hne hfinds (hlistens u) hapart haddress
    · -- a call for another address has another mapping
      refine (h.points u).congr (fun m μ hm hu _ => Keeps.of_same hm fun x k => ?_)
        (fun x hx => List.mem_cons_of_mem _ hx) rfl rfl rfl ?_ (fun _ _ _ _ _ => rfl) rfl
      · have hel : el ≠ some m := fun hel => haddress (hu.trans (congrArg some (hfound hel hm)))
        rw [reply_writing_iff, hw]
        exact iff_of_false (fun hx => hel hx.1) nofun
      · show (s.replied u || decide ((s.point u).address? = some pa)) = s.replied u
        simp [haddress]

/-! ## The update of a mapping -/

/-- A step of a reply that works on the mapping `m`, which has an address or is getting one
    before and after. -/
structure Updates (s s' : Resolver PA len β) (m : Mid) (μ μ' : Mapping PA len β) : Prop where
  old : s.mapping m = some μ
  mapping : ∀ n, s'.mapping n = if n = m then some μ' else s.mapping n
  pa : μ'.pa = μ.pa
  not_pending : ¬s.Pending m μ
  not_pending' : ¬s'.Pending m μ'
  shows : s.Shows m μ.ha → s'.Shows m μ.ha
  writing : ∀ n ≠ m, ∀ x k, s'.writing = some (n, x, k) ↔ s.writing = some (n, x, k)
  clearing : ∀ n ≠ m, n ∈ s'.clearing ↔ n ∈ s.clearing
  sem : ∀ t n ν, own? (s.point t) = some n → s.mapping n = some ν → s.Pending n ν →
    s'.sem t = s.sem t
  table : s'.table = s.table
  point : s'.point = s.point
  retries : s'.retries = s.retries
  alarm : s'.alarm = s.alarm
  requests : s'.requests = s.requests
  timeouts : s'.timeouts = s.timeouts
  replied : s'.replied = s.replied
  learned : s'.learned = s.learned

namespace Updates

variable {μ' : Mapping PA len β}

omit [DecidableEq PA] [DecidableEq β] in
/-- The other mappings stay. -/
theorem mapping_of_ne (hu : Updates s s' m μ μ') (hnm : n ≠ m) : s'.mapping n = s.mapping n := by
  rw [hu.mapping, if_neg hnm]

omit [DecidableEq PA] [DecidableEq β] in
/-- The mapping that was updated. -/
theorem mapping_self (hu : Updates s s' m μ μ') : s'.mapping m = some μ' := by
  rw [hu.mapping, if_pos rfl]

omit [DecidableEq PA] [DecidableEq β] in
/-- The other mappings are written as before. -/
theorem writing_iff (hu : Updates s s' m μ μ') (hnm : n ≠ m) : s'.Writing n ↔ s.Writing n :=
  exists₂_congr (hu.writing n hnm)

omit [DecidableEq PA] [DecidableEq β] in
/-- To the calls a mapping is what it was. -/
theorem keeps (hu : Updates s s' m μ μ') (hn : s.mapping n = some ν) : Keeps s s' n ν := by
  by_cases hnm : n = m
  · subst hnm
    obtain rfl : ν = μ := Option.some.inj (hn.symm.trans hu.old)
    exact ⟨μ', hu.mapping_self, hu.pa, iff_of_false hu.not_pending' hu.not_pending,
      fun hp => absurd hp hu.not_pending, hu.shows⟩
  · exact Keeps.of_same ((hu.mapping_of_ne hnm).trans hn) (hu.writing n hnm)

omit [DecidableEq PA] [DecidableEq β] in
/-- What is left to show is about `m`. -/
theorem inv (hu : Updates s s' m μ μ') (h : s.Inv)
    (howned : ∀ t, μ'.sem = some t →
      m ∈ s'.clearing ∨ own? (s.point t) = some m ∧ (μ'.ha = 0 ∨ s'.Writing m))
    (hlearned : μ'.ha ≠ 0 → ¬s'.Writing m → (μ.pa, μ'.ha) ∈ s.learned)
    (hwritten : ∀ x k, s'.writing = some (m, x, k) →
      x ≠ 0 ∧ m ∉ s'.clearing ∧ Agrees k μ'.ha x ∧ (μ.pa, x) ∈ s.learned)
    (hclearing : m ∈ s'.clearing → μ'.ha ≠ 0) : s'.Inv := by
  -- a mapping after the step, and the one it was
  have hold {n : Mid} {ν : Mapping PA len β} (hn : s'.mapping n = some ν) :
      n = m ∧ ν = μ' ∨ n ≠ m ∧ s.mapping n = some ν := by
    by_cases hnm : n = m
    · rw [hnm, hu.mapping_self] at hn
      exact .inl ⟨hnm, (Option.some.inj hn).symm⟩
    · rw [hu.mapping_of_ne hnm] at hn
      exact .inr ⟨hnm, hn⟩
  constructor
  case nodup =>
    rw [hu.table]
    exact h.nodup
  case mem_iff =>
    intro n
    rw [hu.table, h.mem_iff]
    by_cases hnm : n = m
    · subst hnm
      exact ⟨fun _ => ⟨μ', hu.mapping_self⟩, fun _ => ⟨μ, hu.old⟩⟩
    · rw [hu.mapping_of_ne hnm]
  case alone =>
    intro n ν hn hpend n' ν' hn' hpa
    obtain ⟨rfl, rfl⟩ | ⟨hnm, hn⟩ := hold hn
    · exact absurd hpend hu.not_pending'
    · have hpend' : s.Pending n ν := ⟨hpend.1, fun hw => hpend.2 ((hu.writing_iff hnm).mpr hw)⟩
      obtain ⟨rfl, rfl⟩ | ⟨-, hn'⟩ := hold hn'
      · exact h.alone n ν hn hpend' _ μ hu.old (hu.pa.symm.trans hpa)
      · exact h.alone n ν hn hpend' n' ν' hn' hpa
  case owned =>
    intro n ν t hn ht
    rw [hu.point]
    obtain ⟨rfl, rfl⟩ | ⟨hnm, hn⟩ := hold hn
    · exact howned t ht
    · rw [hu.clearing n hnm, hu.writing_iff hnm]
      exact h.owned n ν t hn ht
  case learned =>
    intro n ν hn hne hnot
    rw [hu.learned]
    obtain ⟨rfl, rfl⟩ | ⟨hnm, hn⟩ := hold hn
    · rw [hu.pa]
      exact hlearned hne hnot
    · exact h.learned n ν hn hne fun hw => hnot ((hu.writing_iff hnm).mpr hw)
  case written =>
    intro n x k hw
    rw [hu.learned]
    by_cases hnm : n = m
    · subst hnm
      obtain ⟨hx, hc, hagree, hmem⟩ := hwritten x k hw
      exact ⟨hx, hc, μ', hu.mapping_self, hagree, by rwa [hu.pa]⟩
    · rw [hu.clearing n hnm, hu.mapping_of_ne hnm]
      exact h.written n x k ((hu.writing n hnm x k).mp hw)
  case clearing =>
    intro n hc
    by_cases hnm : n = m
    · subst hnm
      exact ⟨μ', hu.mapping_self, hclearing hc⟩
    · rw [hu.mapping_of_ne hnm]
      exact h.clearing n ((hu.clearing n hnm).mp hc)
  case alarmed =>
    rw [hu.alarm, hu.point]
    exact h.alarmed
  case points =>
    intro t
    rw [hu.point]
    refine (h.points t).congr (fun n ν hn _ _ => hu.keeps hn) (fun x hx => ?_) hu.retries
      (congrFun hu.requests t) (congrFun hu.timeouts t) (congrFun hu.replied t) (hu.sem t)
      (congrFun hu.alarm t)
    rwa [hu.learned]

end Updates

omit [DecidableEq PA] [DecidableEq β] [Zero β] in
/-- What a change of the mapping `m` makes of the mappings. -/
theorem modify_mapping {f : Mapping PA len β → Mapping PA len β} (hm : s.mapping m = some μ)
    (n : Mid) : (s.modify m f).mapping n = if n = m then some (f μ) else s.mapping n := by
  show Function.update s.mapping m ((s.mapping m).map f) n = _
  rw [Function.update_apply, hm]
  rfl

omit [DecidableEq PA] [DecidableEq β] [Zero β] in
/-- There is one mapping at a time that a reply writes to. -/
theorem writing_of_ne (hw : s.writing = some (m, x, k)) (hnm : n ≠ m) {y : HA len β} {l : Nat} :
    s.writing ≠ some (n, y, l) := by
  rw [hw]
  intro heq
  exact hnm (Prod.mk.inj (Option.some.inj heq)).1.symm

/-- A byte that is written keeps the invariant. -/
theorem Inv.write (h : s.Inv) (hw : s.writing = some (m, x, k)) (hk : k < len) :
    (s.step .write).Inv := by
  obtain ⟨hx, hc, μ, hm, hagree, hmem⟩ := h.written m x k hw
  have heq : s.step .write =
      { s.modify m fun μ => { μ with ha := Function.update μ.ha ⟨k, hk⟩ (x ⟨k, hk⟩) } with
        writing := some (m, x, k + 1) } := by
    simp only [step, hw, dif_pos hk]
  rw [heq]
  have hu : Updates s
      { s.modify m fun μ => { μ with ha := Function.update μ.ha ⟨k, hk⟩ (x ⟨k, hk⟩) } with
        writing := some (m, x, k + 1) } m μ
      { μ with ha := Function.update μ.ha ⟨k, hk⟩ (x ⟨k, hk⟩) } := by
    constructor
    case old => exact hm
    case mapping => exact modify_mapping hm
    case not_pending => exact fun hp => hp.2 ⟨x, k, hw⟩
    case not_pending' => exact fun hp => hp.2 ⟨x, k + 1, rfl⟩
    case shows =>
      -- an address that is shown is the one that is being written
      rintro ⟨ν, hν, hνx, hsame⟩
      have hxμ : x = μ.ha := hsame x k hw
      refine ⟨_, (modify_mapping hm m).trans (if_pos rfl), ?_, fun y l hy => ?_⟩
      · show Function.update μ.ha ⟨k, hk⟩ (x ⟨k, hk⟩) = μ.ha
        rw [hxμ, Function.update_eq_self]
      · obtain ⟨-, rfl, -⟩ : m = m ∧ x = y ∧ k + 1 = l := by simpa using hy
        exact hxμ
    case writing =>
      intro n hnm y l
      refine iff_of_false (fun hy => hnm ?_) (writing_of_ne hw hnm)
      exact (Prod.mk.inj (Option.some.inj hy)).1.symm
    case clearing => exact fun _ _ => Iff.rfl
    case sem => exact fun _ _ _ _ _ _ => rfl
    all_goals rfl
  refine hu.inv h (fun t ht => ?_) (fun _ hnot => absurd ⟨x, k + 1, rfl⟩ hnot)
    (fun y l hy => ?_) fun hmem' => absurd hmem' hc
  · refine .inr ⟨((h.owned m μ t hm ht).resolve_left hc).1, .inr ⟨x, k + 1, rfl⟩⟩
  · obtain ⟨-, rfl, rfl⟩ : m = m ∧ x = y ∧ k + 1 = l := by simpa using hy
    refine ⟨hx, hc, fun j hj => ?_, hmem⟩
    show Function.update μ.ha ⟨k, hk⟩ (x ⟨k, hk⟩) j = x j
    by_cases hjk : j = ⟨k, hk⟩
    · rw [hjk, Function.update_self]
    · rw [Function.update_of_ne hjk]
      have hne : (j : Nat) ≠ k := fun heq => hjk (Fin.ext heq)
      exact hagree j (by omega)

/-- The last byte has been written, and whoever waits for the mapping is woken. -/
theorem Inv.wake (h : s.Inv) (hw : s.writing = some (m, x, len)) : (s.step .wake).Inv := by
  obtain ⟨hx, hc, μ, hm, hagree, hmem⟩ := h.written m x len hw
  have hμx : μ.ha = x := hagree.eq
  have hidle (n : Mid) (y : HA len β) (l : Nat) :
      (none : Option (Mid × HA len β × Nat)) ≠ some (n, y, l) := (Option.some_ne_none _).symm
  have hsame (n : Mid) : s.mapping n = if n = m then some μ else s.mapping n := by
    split
    · rename_i hnm
      rw [hnm, hm]
    · rfl
  cases hsem : μ.sem with
  | none =>
    have heq : s.step .wake = { s with writing := none } := by
      simp only [step, hw, hm, Option.bind_some, hsem]
    rw [heq]
    have hu : Updates s { s with writing := none } m μ μ := by
      constructor
      case old => exact hm
      case mapping => exact hsame
      case not_pending => exact fun hp => hp.2 ⟨x, len, hw⟩
      case not_pending' => exact fun hp => hx (hμx.symm.trans hp.1)
      case shows => exact fun _ => ⟨μ, hm, rfl, fun y l hy => absurd hy (hidle m y l)⟩
      case writing => exact fun n hnm y l => iff_of_false (hidle n y l) (writing_of_ne hw hnm)
      case clearing => exact fun _ _ => Iff.rfl
      case sem => exact fun _ _ _ _ _ _ => rfl
      all_goals rfl
    refine hu.inv h (fun t ht => ?_) (fun _ _ => ?_) (fun y l hy => absurd hy (hidle m y l))
      fun hmem' => absurd hmem' hc
    · rw [hsem] at ht
      cases ht
    · rw [hμx]
      exact hmem
  | some t =>
    have heq : s.step .wake =
        { s with
          sem := Function.update s.sem t (s.sem t + 1)
          writing := none
          clearing := m :: s.clearing } := by
      simp only [step, hw, hm, Option.bind_some, hsem]
    rw [heq]
    have hu : Updates s
        { s with
          sem := Function.update s.sem t (s.sem t + 1)
          writing := none
          clearing := m :: s.clearing } m μ μ := by
      constructor
      case old => exact hm
      case mapping => exact hsame
      case not_pending => exact fun hp => hp.2 ⟨x, len, hw⟩
      case not_pending' => exact fun hp => hx (hμx.symm.trans hp.1)
      case shows => exact fun _ => ⟨μ, hm, rfl, fun y l hy => absurd hy (hidle m y l)⟩
      case writing => exact fun n hnm y l => iff_of_false (hidle n y l) (writing_of_ne hw hnm)
      case clearing => exact fun n hnm => List.mem_cons.trans (or_iff_right hnm)
      case sem =>
        -- the thread that is woken waits for this mapping, which is not pending
        intro u n ν hown hn hpend
        have hut : u ≠ t := by
          rintro rfl
          have hown' := ((h.owned m μ u hm hsem).resolve_left hc).1
          obtain rfl : m = n := Option.some.inj (hown'.symm.trans hown)
          exact hpend.2 ⟨x, len, hw⟩
        exact Function.update_of_ne hut _ _
      all_goals rfl
    refine hu.inv h (fun u _ => .inl List.mem_cons_self) (fun _ _ => ?_)
      (fun y l hy => absurd hy (hidle m y l)) fun _ hz => hx (hμx.symm.trans hz)
    rw [hμx]
    exact hmem

/-- Deleting a mapping keeps the invariant. -/
theorem Inv.clear (h : s.Inv) (hc : m ∈ s.clearing) : (s.step (.clear m)).Inv := by
  obtain ⟨μ, hm, hne⟩ := h.clearing m hc
  have hnot : ¬s.Writing m := fun ⟨y, l, hw⟩ => (h.written m y l hw).2.1 hc
  have hu : Updates s (s.step (.clear m)) m μ { μ with sem := none } := by
    constructor
    case old => exact hm
    case mapping => exact modify_mapping hm
    case not_pending => exact fun hp => hne hp.1
    case not_pending' => exact fun hp => hne hp.1
    case shows =>
      rintro ⟨-, -, -, hsame⟩
      exact ⟨_, (modify_mapping hm m).trans (if_pos rfl), rfl, hsame⟩
    case clearing => exact fun n hnm => List.mem_erase_of_ne hnm
    case writing => exact fun _ _ _ _ => Iff.rfl
    case sem => exact fun _ _ _ _ _ _ => rfl
    all_goals rfl
  refine hu.inv h nofun (fun _ _ => h.learned m μ hm hne hnot) (fun y l hy => ?_) fun _ => hne
  exact absurd ⟨y, l, hy⟩ hnot

/-! ## Runs -/

/-- Every step that disturbs no call keeps the invariant. -/
theorem Inv.step (h : s.Inv) {a : ResolveAction PA len β} (ha : s.CanAct a)
    (hclean : s.Undisturbed a) : (s.step a).Inv := by
  cases a with
  | call t pa => exact h.call ha pa
  | search t el =>
    obtain ⟨⟨pa, hp, hfinds⟩, -⟩ := ha
    exact h.search hp hfinds hclean
  | copy t garbage =>
    obtain ⟨m, k, hcopying, hk⟩ := ha
    -- the copy is the one before the first test or the one after a time-out
    cases hp : s.point t with
    | found pa m' k' x =>
      rw [hp] at hcopying
      cases hcopying
      exact h.copy_found hp hk (fun hz => hclean m (by rw [hp, hz]; rfl)) garbage
    | woken pa m' i k' x =>
      rw [hp] at hcopying
      cases hcopying
      exact h.copy_woken hp hk (fun hz => hclean m (by rw [hp, hz]; rfl)) garbage
    | _ =>
      rw [hp] at hcopying
      cases hcopying
  | read t =>
    obtain ⟨pa, m, x, hp⟩ := ha
    exact h.read hp
  | insert t m =>
    obtain ⟨⟨pa, hp⟩, hm, -⟩ := ha
    exact h.insert hp hm (hclean pa hp)
  | request t =>
    obtain ⟨pa, m, i, hp, hi⟩ := ha
    exact h.request hp hi
  | alarm t => exact h.alarm ha
  | pass t =>
    obtain ⟨⟨pa, m, i, hp⟩, hpos⟩ := ha
    exact h.pass hp hpos
  | look t =>
    obtain ⟨pa, m, i, x, hp⟩ := ha
    exact h.look hp
  | finish t =>
    obtain ⟨⟨pa, m, i, x, hp, hends⟩, hw⟩ := ha
    -- the call gives up on a mapping, or returns an address
    by_cases hz : x = 0
    · rw [hz] at hp
      exact h.finish_pending hp fun hi => hends ⟨hi, hz⟩
    · exact h.finish_resolved hp hz hw
  | reply pa x el => exact h.reply ha.2 ha.1 hclean.1 hclean.2.1 hclean.2.2
  | write =>
    obtain ⟨m, x, k, hw, hk⟩ := ha
    exact h.write hw hk
  | wake =>
    obtain ⟨m, x, hw⟩ := ha
    exact h.wake hw
  | clear m => exact h.clear ha
  | enter pa x m => exact h.enter ha.1 ha.2 hclean.1 hclean.2

omit [DecidableEq PA] in
/-- What is returned is justified. -/
theorem Inv.returnsJustified (h : s.Inv) {a : ResolveAction PA len β} (ha : s.CanAct a) :
    s.ReturnsJustified a := by
  cases a with
  | read t =>
    intro pa m x hp
    -- an address found at once was learned
    obtain ⟨hne, hmem⟩ := h.learned_of_found hp
    unfold Justified
    rwa [if_neg hne]
  | finish t =>
    intro pa m i x hp
    obtain ⟨⟨pa', m', i', x', hp', hends⟩, -⟩ := ha
    rw [hp] at hp'
    cases hp'
    unfold Justified
    -- zero is returned after all tries only
    by_cases hx : x = 0
    · rw [if_pos hx]
      rw [hx] at hp
      obtain ⟨hi, μ, -, -, -, hrep, hreq, htime⟩ :=
        h.pending_of_finish hp fun hi => hends ⟨hi, hx⟩
      exact ⟨hreq.trans hi, htime.trans hi, hrep⟩
    · rw [if_neg hx]
      have hat := h.points t
      rw [hp] at hat
      exact (hat.2.1 hx).1
  | _ => trivial

end Resolver

open Resolver

/-- Nothing has been resolved, and three requests are tried. -/
def noMappings : Resolver Nat 2 Nat := { retries := 3, mapping := fun _ => none, table := [] }

end ARP

end Epos
