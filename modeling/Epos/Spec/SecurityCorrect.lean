import Epos.ForStd.Except
import Epos.ForStd.TransitionSystem
import Epos.Network.Security
import Epos.Spec.SimpleListCorrect

/-!
# The peers of the security manager, over whole runs

Every live peer is in exactly one of the two lists after any events. A round of
`key_manager` reads deleted peers, or sends its request to a trusted one, exactly when the
element that it remembers from the round before is no longer where it was.
-/

namespace Epos

namespace TSTP.Security

variable {El Region Space Bytes Secret Point : Type} [DecidableEq El]
variable {s s' : State El Region Bytes Secret Point} {L : PeerList → List El} {w : PeerList}
variable {el : El}

/-- The lists in memory. -/
structure Holds (s : State El Region Bytes Secret Point) (L : PeerList → List El) : Prop where
  list : ∀ w, (s.list w).Represents (L w)
  disjoint : ∀ el w w', el ∈ L w → el ∈ L w' → w = w'

/-- Each live peer is in one of the lists. -/
structure Listed (s : State El Region Bytes Secret Point) (L : PeerList → List El) : Prop
    extends Holds s L where
  live : ∀ el, (s.peers el).isSome ↔ ∃ w, el ∈ L w

/-- The attributes that no list operation writes. -/
structure Untouched (s s' : State El Region Bytes Secret Point) : Prop where
  pending_keys : s'.pending_keys = s.pending_keys
  dh_requests_open : s'.dh_requests_open = s.dh_requests_open
  last_dh_request : s'.last_dh_request = s.last_dh_request

omit [DecidableEq El] in
theorem Untouched.refl (s : State El Region Bytes Secret Point) : Untouched s s := ⟨rfl, rfl, rfl⟩

omit [DecidableEq El] in
theorem Untouched.trans {s'' : State El Region Bytes Secret Point} (h : Untouched s s')
    (h' : Untouched s' s'') : Untouched s s'' :=
  ⟨h'.1.trans h.1, h'.2.trans h.2, h'.3.trans h.3⟩

omit [DecidableEq El] in
/-- What the lists hold only depends on their links. -/
theorem Holds.congr (h : Holds s L) (hnext : s'.next = s.next) (hheader : s'.header = s.header) :
    Holds s' L where
  list w := by
    have hw := h.list w
    unfold State.list at hw ⊢
    rwa [hnext, hheader]
  disjoint := h.disjoint

omit [DecidableEq El] in
/-- What is listed depends on the links and on which elements are peers. -/
theorem Listed.congr (h : Listed s L) (hnext : s'.next = s.next) (hheader : s'.header = s.header)
    (hpeers : ∀ el, (s'.peers el).isSome = (s.peers el).isSome) : Listed s' L where
  toHolds := h.toHolds.congr hnext hheader
  live el := by rw [hpeers, h.live]

omit [DecidableEq El] in
/-- Every listed element is a peer. -/
theorem Listed.exists_peer (h : Listed s L) (hel : el ∈ L w) : ∃ peer, s.peers el = some peer :=
  Option.isSome_iff_exists.mp ((h.live el).mpr ⟨w, hel⟩)

omit [DecidableEq El] in
/-- No list is longer than the memory. -/
theorem Holds.length_le_fuel (h : Holds s L) (w : PeerList) : (L w).length ≤ s.fuel := by
  have hp : (s.header .pending).size = (L .pending).length := (h.list .pending).size
  have ht : (s.header .trusted).size = (L .trusted).length := (h.list .trusted).size
  unfold State.fuel
  generalize 2 ^ 32 = bound
  cases w <;> omega

/-! ## Moves -/

omit [DecidableEq El] in
/-- Who is listed after one list has changed. -/
theorem exists_mem_update {l : List El} {x : El} :
    (∃ w', x ∈ Function.update L w l w') ↔ x ∈ l ∨ ∃ w', w' ≠ w ∧ x ∈ L w' := by
  constructor
  · intro ⟨w', hx⟩
    by_cases hw : w' = w
    · subst hw
      rw [Function.update_self] at hx
      exact Or.inl hx
    · rw [Function.update_of_ne hw] at hx
      exact Or.inr ⟨w', hw, hx⟩
  · intro h
    cases h with
    | inl hx =>
      refine ⟨w, ?_⟩
      rwa [Function.update_self]
    | inr h =>
      obtain ⟨w', hw, hx⟩ := h
      refine ⟨w', ?_⟩
      rwa [Function.update_of_ne hw]

omit [DecidableEq El] in
/-- Who is listed, with one list apart. -/
theorem exists_mem_iff {x : El} : (∃ w', x ∈ L w') ↔ x ∈ L w ∨ ∃ w', w' ≠ w ∧ x ∈ L w' := by
  have h := exists_mem_update (L := L) (w := w) (l := L w) (x := x)
  rwa [Function.update_eq_self] at h

omit [DecidableEq El] in
/-- One list is rewritten, and with it no element of the other one. -/
theorem Holds.setList (h : Holds s L) {q : SimpleList El} {l : List El} (hq : q.Represents l)
    (hnext : ∀ w' ≠ w, ∀ x ∈ L w', q.next x = s.next x)
    (hl : ∀ x ∈ l, x ∈ L w ∨ ∀ w', x ∉ L w') :
    Holds (s.setList w q) (Function.update L w l) where
  list w' := by
    -- the written list is the new one, the others keep their links
    by_cases hw : w' = w
    · subst hw
      show List.HeadedBy _ q.next (Function.update s.header w' q.header w')
      rw [Function.update_self, Function.update_self]
      exact hq
    · show List.HeadedBy _ q.next (Function.update s.header w q.header w')
      rw [Function.update_of_ne hw, Function.update_of_ne hw]
      exact (h.list w').congr (hnext w' hw)
  disjoint x w₁ w₂ h₁ h₂ := by
    -- an element of the new lists is new in w, or was in the same list before
    have hold (w' : PeerList) (hx : x ∈ Function.update L w l w') :
        (w' = w ∧ ∀ w'', x ∉ L w'') ∨ x ∈ L w' := by
      by_cases hw : w' = w
      · subst hw
        rw [Function.update_self] at hx
        cases hl x hx with
        | inl hmem => exact Or.inr hmem
        | inr hnew => exact Or.inl ⟨rfl, hnew⟩
      · rw [Function.update_of_ne hw] at hx
        exact Or.inr hx
    cases hold w₁ h₁ with
    | inl hnew₁ =>
      cases hold w₂ h₂ with
      | inl hnew₂ => exact hnew₁.1.trans hnew₂.1.symm
      | inr hmem₂ => exact absurd hmem₂ (hnew₁.2 w₂)
    | inr hmem₁ =>
      cases hold w₂ h₂ with
      | inl hnew₂ => exact absurd hmem₁ (hnew₂.2 w₁)
      | inr hmem₂ => exact h.disjoint x w₁ w₂ hmem₁ hmem₂

/-- `remove()` takes the element off its list. -/
theorem Holds.remove (h : Holds s L) (hel : el ∈ L w) :
    ∃ s', s.remove w el = .ok s' ∧ Holds s' (Function.update L w ((L w).erase el)) ∧
      Untouched s s' ∧ s'.peers = s.peers := by
  obtain ⟨q, hq, hrep⟩ := (h.list w).remove hel
  refine ⟨s.setList w q, ?_, h.setList hrep ?_ ?_, ⟨rfl, rfl, rfl⟩, rfl⟩
  · rw [State.remove, hq]
  · intro w' hw x hx
    exact (h.list w).remove_next hq fun hmem => hw (h.disjoint x w' w hx hmem)
  · intro x hx
    exact Or.inl (List.mem_of_mem_erase hx)

/-- `insert()` puts an element that is on no list at the end of one. -/
theorem Holds.insert (h : Holds s L) (w : PeerList) (hel : ∀ w', el ∉ L w') :
    ∃ s', s.insert w el = .ok s' ∧ Holds s' (Function.update L w (L w ++ [el])) ∧
      Untouched s s' ∧ s'.peers = s.peers := by
  obtain ⟨q, hq, hrep⟩ := (h.list w).insertTail (hel w)
  refine ⟨s.setList w q, ?_, h.setList hrep ?_ ?_, ⟨rfl, rfl, rfl⟩, rfl⟩
  · rw [State.insert, hq]
  · intro w' hw x hx
    exact (h.list w).insertTail_next hq (fun hmem => hw (h.disjoint x w' w hx hmem))
      fun heq => hel w' (heq ▸ hx)
  · intro x hx
    cases List.mem_append.mp hx with
    | inl hmem => exact Or.inl hmem
    | inr hnew => exact Or.inr (List.mem_singleton.mp hnew ▸ hel)

/-- The lists after a move. -/
def moved (L : PeerList → List El) (w : PeerList) (dest : Option PeerList) (el : El) :
    PeerList → List El :=
  match dest with
  | none => Function.update L w ((L w).erase el)
  | some w' => Function.update (Function.update L w ((L w).erase el)) w' (L w' ++ [el])

/-- An element moves from one list to another, or to none. -/
theorem Listed.move (h : Listed s L) (hel : el ∈ L w) {dest : Option PeerList}
    (hdest : dest ≠ some w) :
    ∃ s', s.move w dest el = .ok s' ∧ Listed s' (moved L w dest el) ∧ Untouched s s' ∧
      ∀ x, x ≠ el ∨ dest ≠ none → s'.peers x = s.peers x := by
  obtain ⟨s₁, hremove, h₁, hun₁, hpeers₁⟩ := h.toHolds.remove hel
  have hnodup : (L w).Nodup := (h.list w).nodup
  -- the removed element is in neither list
  have hout : ∀ w', el ∉ Function.update L w ((L w).erase el) w' := by
    intro w' hmem
    by_cases hw : w' = w
    · subst hw
      rw [Function.update_self] at hmem
      exact (List.Nodup.mem_erase_iff hnodup).mp hmem |>.1 rfl
    · rw [Function.update_of_ne hw] at hmem
      exact hw (h.disjoint el w' w hmem hel)
  have hothers (x : El) (hx : x ≠ el) :
      (∃ w', x ∈ Function.update L w ((L w).erase el) w') ↔ ∃ w', x ∈ L w' := by
    rw [exists_mem_update, List.mem_erase_of_ne hx, ← exists_mem_iff]
  cases dest with
  | none =>
    refine ⟨{ s₁ with peers := Function.update s₁.peers el none }, ?_, ⟨?_, ?_⟩, ?_, ?_⟩
    · rw [State.move, hremove]
      rfl
    · exact h₁.congr rfl rfl
    · intro x
      show (Function.update s₁.peers el none x).isSome ↔ _
      by_cases hx : x = el
      · subst hx
        rw [Function.update_self]
        exact iff_of_false (by simp) fun ⟨w', hw'⟩ => hout w' hw'
      · rw [Function.update_of_ne hx, hpeers₁, h.live]
        exact (hothers x hx).symm
    · exact hun₁.trans ⟨rfl, rfl, rfl⟩
    · intro x hx
      have hne : x ≠ el := hx.resolve_right (not_not.mpr rfl)
      exact (Function.update_of_ne hne _ _).trans (congrFun hpeers₁ x)
  | some w' =>
    have hw' : w' ≠ w := fun heq => hdest (congrArg some heq)
    obtain ⟨s₂, hinsert, h₂, hun₂, hpeers₂⟩ := h₁.insert w' hout
    rw [Function.update_of_ne hw'] at h₂
    refine ⟨s₂, ?_, ⟨h₂, ?_⟩, hun₁.trans hun₂, ?_⟩
    · rw [State.move, hremove]
      exact hinsert
    · intro x
      have hlast : Function.update L w ((L w).erase el) w' = L w' := Function.update_of_ne hw' _ _
      rw [hpeers₂, hpeers₁, h.live, moved, exists_mem_update, List.mem_append,
        List.mem_singleton, ← hlast]
      by_cases hx : x = el
      · exact iff_of_true ⟨w, hx ▸ hel⟩ (Or.inl (Or.inr hx))
      · rw [or_iff_left hx, ← exists_mem_iff, hothers x hx]
    · intro x _
      rw [hpeers₂, hpeers₁]

/-- The list that it left. -/
theorem moved_self {dest : Option PeerList} (hdest : dest ≠ some w) :
    moved L w dest el w = (L w).erase el := by
  cases dest with
  | none => exact Function.update_self _ _ _
  | some w' =>
    have hw' : w ≠ w' := fun heq => hdest (congrArg some heq.symm)
    exact (Function.update_of_ne hw' _ _).trans (Function.update_self _ _ _)

/-- The other lists. -/
theorem moved_of_ne {dest : Option PeerList} {w' : PeerList} (hw' : w' ≠ w) :
    moved L w dest el w' = if dest = some w' then L w' ++ [el] else L w' := by
  cases dest with
  | none => exact Function.update_of_ne hw' _ _
  | some w'' =>
    show Function.update (Function.update L w ((L w).erase el)) w'' (L w'' ++ [el]) w' = _
    by_cases heq : w'' = w'
    · subst heq
      rw [Function.update_self, if_pos rfl]
    · rw [Function.update_of_ne (Ne.symm heq), Function.update_of_ne hw',
        if_neg fun h => heq (Option.some.inj h)]

/-! ## Loops over a list -/

/-- The peer of the element passes the test. -/
def hit (s : State El Region Bytes Secret Point) (test : El → Peer Region Bytes Secret → Bool)
    (el : El) : Bool := (s.peers el).any (test el)

omit [DecidableEq El] in
/-- A search is one for an element of the list. -/
theorem search_eq {κ : Type} (test : El → Peer Region Bytes Secret → Option κ) {l : List El}
    {fuel : Nat} (hch : l.Chained s.next none) (hlive : ∀ el ∈ l, (s.peers el).isSome)
    (hfuel : l.length ≤ fuel) :
    s.search test fuel l.head? =
      .ok (l.findSome? fun el => ((s.peers el).bind (test el)).map fun k => (el, k)) := by
  induction l generalizing fuel with
  | nil => rw [List.head?_nil, State.search.eq_def]; rfl
  | cons el rest ih =>
    obtain ⟨fuel, rfl⟩ := Nat.exists_eq_succ_of_ne_zero (Nat.ne_of_gt (Nat.zero_lt_of_lt hfuel))
    obtain ⟨peer, hpeer⟩ := Option.isSome_iff_exists.mp (hlive el List.mem_cons_self)
    have hnext : s.next el = rest.head? := hch.1.trans Option.or_none
    rw [List.head?_cons, State.search, hpeer, List.findSome?_cons, hpeer]
    dsimp only [Option.bind_some]
    cases htest : test el peer with
    | some k => rfl
    | none =>
      rw [hnext]
      exact ih hch.2 (fun x hx => hlive x (List.mem_cons_of_mem _ hx)) (Nat.le_of_succ_le_succ hfuel)

omit [DecidableEq El] in
/-- A search finds nothing or an element of the list that passes the test. -/
theorem Listed.searchList {κ : Type} (h : Listed s L) (w : PeerList)
    (test : El → Peer Region Bytes Secret → Option κ) :
    s.searchList w test = .ok none ∨
    ∃ el k peer, s.searchList w test = .ok (some (el, k)) ∧ el ∈ L w ∧ s.peers el = some peer ∧
      test el peer = some k := by
  have heq := search_eq test (h.list w).chained (fun el hel => (h.live el).mpr ⟨w, hel⟩)
    (h.length_le_fuel w)
  rw [← (h.list w).head] at heq
  rw [State.searchList]
  cases hfound : (L w).findSome? fun el => ((s.peers el).bind (test el)).map fun k => (el, k) with
  | none => exact Or.inl (heq.trans (congrArg _ hfound))
  | some found =>
    obtain ⟨x, hx, hmap⟩ := List.exists_of_findSome?_eq_some hfound
    obtain ⟨k, hk, rfl⟩ := Option.map_eq_some_iff.mp hmap
    obtain ⟨peer, hpeer, htest⟩ := Option.bind_eq_some_iff.mp hk
    exact Or.inr ⟨x, k, peer, heq.trans (congrArg _ hfound), hx, hpeer, htest⟩

/-- A loop that moves peers, from an element on: those in front stay. -/
theorem Listed.sweep {dest : Option PeerList} (hdest : dest ≠ some w)
    (test : El → Peer Region Bytes Secret → Bool) (rest : List El) :
    ∀ (front : List El) (s : State El Region Bytes Secret Point) (L : PeerList → List El)
      (fuel : Nat), Listed s L → L w = front ++ rest → rest.length ≤ fuel →
      ∃ s' L', State.sweep w dest test fuel rest.head? s = .ok s' ∧ Listed s' L' ∧
        Untouched s s' ∧
        L' w = front ++ rest.filter (fun el => !hit s test el) ∧
        (∀ w' ≠ w, L' w' = if dest = some w' then L w' ++ rest.filter (hit s test) else L w') ∧
        ∀ el, el ∉ rest ∨ hit s test el = false ∨ dest ≠ none → s'.peers el = s.peers el := by
  induction rest with
  | nil =>
    intro front s L fuel h hw _
    refine ⟨s, L, ?_, h, Untouched.refl s, hw, ?_, fun _ _ => rfl⟩
    · rw [List.head?_nil, State.sweep.eq_def]
    · intro w' _
      rw [List.filter_nil, List.append_nil, ite_self]
  | cons el rest ih =>
    intro front s L fuel h hw hfuel
    obtain ⟨fuel, rfl⟩ := Nat.exists_eq_succ_of_ne_zero (Nat.ne_of_gt (Nat.zero_lt_of_lt hfuel))
    have hfuel' : rest.length ≤ fuel := Nat.le_of_succ_le_succ hfuel
    have hel : el ∈ L w := hw ▸ List.mem_append_right _ List.mem_cons_self
    obtain ⟨peer, hpeer⟩ := h.exists_peer hel
    have hchained := (h.list w).chained
    have hnodup := (h.list w).nodup
    rw [hw] at hchained hnodup
    have hnext : s.next el = rest.head? :=
      (List.chained_append.mp hchained).2.1.trans Option.or_none
    have hhit : hit s test el = test el peer := by rw [hit, hpeer, Option.any_some]
    have hfront : el ∉ front := fun hmem =>
      (List.nodup_append.mp hnodup).2.2 el hmem el List.mem_cons_self rfl
    have hrest : el ∉ rest := (List.nodup_cons.mp (List.nodup_append.mp hnodup).2.1).1
    rw [List.head?_cons, State.sweep, hpeer]
    dsimp only
    cases htest : test el peer with
    | true =>
      obtain ⟨s₁, hmove, h₁, hun₁, hpeers₁⟩ := h.move hel hdest
      have herase : moved L w dest el w = front ++ rest := by
        rw [moved_self hdest, hw, List.erase_append_right _ hfront, List.erase_cons_head]
      obtain ⟨s', L', hrun, h', hun, hw', hothers, hpeers⟩ :=
        ih front s₁ (moved L w dest el) fuel h₁ herase hfuel'
      -- the tests of the elements that follow are as before
      have hsame : ∀ x ∈ rest, hit s₁ test x = hit s test x := fun x hx => by
        rw [hit, hit, hpeers₁ x (Or.inl fun heq => hrest (heq ▸ hx))]
      rw [htest] at hhit
      refine ⟨s', L', ?_, h', hun₁.trans hun, ?_, ?_, ?_⟩
      · rw [hnext, if_pos rfl, hmove]
        exact hrun
      · rw [hw', List.filter_cons_of_neg (by rw [hhit]; exact Bool.false_ne_true)]
        congr 1
        exact List.filter_congr fun x hx => by rw [hsame x hx]
      · intro w' hne
        rw [hothers w' hne, moved_of_ne hne, List.filter_cons_of_pos hhit]
        split
        · rw [List.append_assoc, List.singleton_append, List.filter_congr hsame]
        · rfl
      · intro x hx
        by_cases hd : dest = none
        · have hor : x ∉ el :: rest ∨ hit s test x = false :=
            hx.imp_right fun h => h.resolve_right (not_not.mpr hd)
          have hne : x ≠ el := by
            intro heq
            cases hor with
            | inl hout => exact hout (heq ▸ List.mem_cons_self)
            | inr hmiss => exact Bool.false_ne_true (hmiss.symm.trans (heq ▸ hhit))
          have hpeer₁ := hpeers₁ x (Or.inl hne)
          refine (hpeers x ?_).trans hpeer₁
          refine hor.imp (fun hout hx' => hout (List.mem_cons_of_mem _ hx')) fun hmiss => Or.inl ?_
          rwa [hit, hpeer₁]
        · exact (hpeers x (Or.inr (Or.inr hd))).trans (hpeers₁ x (Or.inr hd))
    | false =>
      obtain ⟨s', L', hrun, h', hun, hw', hothers, hpeers⟩ := ih (front ++ [el]) s L fuel h
        (by rw [hw, List.append_assoc, List.singleton_append]) hfuel'
      rw [htest] at hhit
      refine ⟨s', L', ?_, h', hun, ?_, ?_, ?_⟩
      · rw [hnext]
        exact hrun
      · rw [hw', List.filter_cons_of_pos (by rw [hhit]; rfl), List.append_assoc,
          List.singleton_append]
      · intro w' hne
        rw [hothers w' hne, List.filter_cons_of_neg (by rw [hhit]; exact Bool.false_ne_true)]
      · intro x hx
        apply hpeers
        by_cases heq : x = el
        · exact Or.inr (Or.inl (heq ▸ hhit))
        · exact hx.imp_left fun hmem hx' => hmem (List.mem_cons_of_mem _ hx')

/-- A sweep takes off the list whatever passes the test. -/
theorem Listed.sweepList (h : Listed s L) {dest : Option PeerList} (hdest : dest ≠ some w)
    (test : El → Peer Region Bytes Secret → Bool) :
    ∃ s' L', s.sweepList w dest test = .ok s' ∧ Listed s' L' ∧ Untouched s s' ∧
      L' w = (L w).filter (fun el => !hit s test el) ∧
      (∀ w' ≠ w, L' w' = if dest = some w' then L w' ++ (L w).filter (hit s test) else L w') ∧
      ∀ el, el ∉ L w ∨ hit s test el = false ∨ dest ≠ none → s'.peers el = s.peers el := by
  have hhead : (s.header w).head = (L w).head? := (h.list w).head
  rw [State.sweepList, hhead]
  exact Listed.sweep hdest test (L w) [] s L s.fuel h rfl (h.length_le_fuel w)

/-! ## One round of `key_manager` -/

section Round

variable (env : Env Region Space Bytes Secret Point) (clock : State.Clock El)

/-- The peers that are left by the cleanup. -/
def kept (s : State El Region Bytes Secret Point) (el : El) : Bool :=
  hit s (State.valid env clock.cleanup) el

def expired (s : State El Region Bytes Secret Point) (el : El) : Bool :=
  hit s (State.keyExpired clock.expiry) el

/-- The peers that stay trusted. -/
def stays (s : State El Region Bytes Secret Point) (el : El) : Bool :=
  !expired clock s el && kept env clock s el

/-- The peers to which a request may be sent. -/
def eligible (s : State El Region Bytes Secret Point) (el : El) : Bool :=
  hit s (State.valid env clock.send) el

omit [DecidableEq El] in
/-- The opposite test. -/
theorem hit_not (test : El → Peer Region Bytes Secret → Bool) {peer : Peer Region Bytes Secret}
    (hpeer : s.peers el = some peer) :
    hit s (fun el peer => !test el peer) el = !hit s test el := by
  rw [hit, hit, hpeer, Option.any_some, Option.any_some]

omit [DecidableEq El] in
/-- A hit fails the opposite test. -/
theorem hit_not_of_hit {test : El → Peer Region Bytes Secret → Bool} (h : hit s test el) :
    hit s (fun el peer => !test el peer) el = false := by
  unfold hit at h ⊢
  cases hpeer : s.peers el with
  | none => rfl
  | some peer =>
    rw [hpeer, Option.any_some] at h
    exact (Option.any_some ..).trans (congrArg (!·) h)

omit [DecidableEq El] in
/-- Whether an element is hit only depends on its peer. -/
theorem hit_congr {test : El → Peer Region Bytes Secret → Bool}
    (h : s'.peers el = s.peers el) : hit s' test el = hit s test el := by
  rw [hit, hit, h]

/-- The state before the request. -/
theorem Listed.tidied (h : Listed s L) :
    ∃ s₃ L₃, Listed s₃ L₃ ∧ s.keyManager env clock = s₃.sendRequest env clock.send ∧
      s₃.last_dh_request = s.last_dh_request ∧
      L₃ .trusted = (L .trusted).filter (stays env clock s) ∧
      L₃ .pending = (L .pending).filter (kept env clock s) ++
        (L .trusted).filter (fun el => expired clock s el && kept env clock s el) ∧
      (∀ el, kept env clock s el → s₃.peers el = s.peers el) := by
  have h₀ : Listed (s.cleanupKeys clock.keys) L := h.congr rfl rfl fun _ => rfl
  obtain ⟨s₁, L₁, hrun₁, h₁, hun₁, htrusted₁, hothers₁, hpeers₁⟩ :=
    h₀.sweepList (show none ≠ some PeerList.trusted by simp)
      fun el peer => !State.valid env clock.cleanup el peer
  obtain ⟨s₂, L₂, hrun₂, h₂, hun₂, hpending₂, hothers₂, hpeers₂⟩ :=
    h₁.sweepList (show none ≠ some PeerList.pending by simp)
      fun el peer => !State.valid env clock.cleanup el peer
  obtain ⟨s₃, L₃, hrun₃, h₃, hun₃, htrusted₃, hothers₃, hpeers₃⟩ :=
    h₂.sweepList (show some PeerList.pending ≠ some .trusted by simp)
      (State.keyExpired clock.expiry)
  have hpending₁ : L₁ .pending = L .pending :=
    (hothers₁ .pending (by simp)).trans (if_neg (by simp))
  have htrusted₂ : L₂ .trusted = L₁ .trusted :=
    (hothers₂ .trusted (by simp)).trans (if_neg (by simp))
  have hpending₃ := (hothers₃ .pending (by simp)).trans (if_pos rfl)
  -- a peer that is kept is not written, nor is a pending one by the first loop
  have hkept₁ (el : El) (hel : kept env clock s el) : s₁.peers el = s.peers el :=
    hpeers₁ el (Or.inr (Or.inl (hit_not_of_hit (s := s.cleanupKeys clock.keys) hel)))
  have hkept₂ (el : El) (hel : kept env clock s el) : s₂.peers el = s.peers el := by
    refine (hpeers₂ el (Or.inr (Or.inl ?_))).trans (hkept₁ el hel)
    rw [hit_congr (hkept₁ el hel)]
    exact hit_not_of_hit hel
  have hkept₃ (el : El) (hel : kept env clock s el) : s₃.peers el = s.peers el :=
    (hpeers₃ el (Or.inr (Or.inr (by simp)))).trans (hkept₂ el hel)
  have hpend₁ (el : El) (hel : el ∈ L .pending) : s₁.peers el = s.peers el := by
    refine hpeers₁ el (Or.inl fun hmem => ?_)
    cases h.disjoint el _ _ hel hmem
  have hkeptOf (w : PeerList) (el : El) (hel : el ∈ L w) :
      (!hit s (fun el peer => !State.valid env clock.cleanup el peer) el) = kept env clock s el := by
    obtain ⟨peer, hpeer⟩ := h.exists_peer hel
    rw [hit_not _ hpeer, Bool.not_not]
    rfl
  have hkeepT : L₁ .trusted = (L .trusted).filter (kept env clock s) :=
    htrusted₁.trans (List.filter_congr fun el hel => hkeptOf .trusted el hel)
  have hkeepP : L₂ .pending = (L .pending).filter (kept env clock s) := by
    rw [hpending₂, hpending₁]
    refine List.filter_congr fun el hel => ?_
    rw [hit_congr (hpend₁ el hel)]
    exact hkeptOf .pending el hel
  have hexpired (el : El) (hel : el ∈ (L .trusted).filter (kept env clock s)) :
      hit s₂ (State.keyExpired clock.expiry) el = expired clock s el :=
    hit_congr (hkept₂ el (List.mem_filter.mp hel).2)
  refine ⟨s₃, L₃, h₃, ?_, ?_, ?_, ?_, hkept₃⟩
  · rw [State.keyManager, hrun₁, Except.ok_bind, hrun₂, Except.ok_bind, hrun₃, Except.ok_bind]
  · rw [hun₃.last_dh_request, hun₂.last_dh_request, hun₁.last_dh_request]
    rfl
  · have hboth : (L .trusted).filter (stays env clock s) =
        ((L .trusted).filter (kept env clock s)).filter fun el => !expired clock s el :=
      List.filter_filter.symm
    rw [htrusted₃, htrusted₂, hkeepT, hboth]
    exact List.filter_congr fun el hel => by rw [hexpired el hel]
  · rw [hpending₃, htrusted₂, hkeepT, hkeepP, ← List.filter_filter, List.filter_congr hexpired]

omit [DecidableEq El] in
/-- The search finds the first hit. -/
theorem findSome?_eq_find? (test : El → Peer Region Bytes Secret → Bool) (l : List El) :
    (l.findSome? fun el => ((s.peers el).bind fun peer =>
      if test el peer then some () else none).map fun k => (el, k)).map Prod.fst =
      l.find? (hit s test) := by
  induction l with
  | nil => rfl
  | cons el rest ih =>
    rw [List.findSome?_cons, List.find?_cons, hit]
    cases s.peers el with
    | none => exact ih
    | some peer =>
      rw [Option.bind_some, Option.any_some]
      cases test el peer with
      | true => rfl
      | false => exact ih

omit [DecidableEq El] in
/-- The request goes to the first eligible candidate. -/
theorem Listed.sendRequest (h : Listed s L) {c : List El} (hsub : c ⊆ L w)
    (hfirst : s.firstCandidate = .ok c.head?) (hch : c.Chained s.next none) :
    ∃ s', s.sendRequest env clock.send = .ok s' ∧ Listed s' L ∧
      s'.last_dh_request = c.find? (eligible env clock s) := by
  have hfuel : c.length ≤ s.fuel :=
    Nat.le_trans (List.subperm_of_subset hch.nodup hsub).length_le (h.length_le_fuel w)
  have hsearch := search_eq (fun el peer => if State.valid env clock.send el peer then some ()
    else none) hch (fun el hel => (h.live el).mpr ⟨w, hsub hel⟩) hfuel
  rw [State.sendRequest, hfirst, Except.ok_bind, hsearch, Except.ok_bind]
  exact ⟨_, rfl, h.congr rfl rfl fun _ => rfl, findSome?_eq_find? _ c⟩

omit [DecidableEq El] in
/-- Behind an element that is remembered, its list goes on, or else the pending one starts. -/
theorem Listed.sendRequest_of_last (h : Listed s L) {a : El} {xs ys : List El}
    (hlast : s.last_dh_request = some a) (hw : L w = xs ++ a :: ys) :
    ∃ s', s.sendRequest env clock.send = .ok s' ∧ Listed s' L ∧
      s'.last_dh_request =
        (if ys = [] then L .pending else ys).find? (eligible env clock s) := by
  have hmem : a ∈ L w := hw ▸ List.mem_append_right _ List.mem_cons_self
  obtain ⟨peer, hpeer⟩ := h.exists_peer hmem
  have hch := (h.list w).chained
  rw [hw] at hch
  have hbehind := (List.chained_append.mp hch).2
  have hnext : s.next a = ys.head? := hbehind.1.trans Option.or_none
  have hhead : (s.header .pending).head = (L .pending).head? := (h.list .pending).head
  -- the search starts behind the last request, or at the head of the pending peers
  have hfirst : s.firstCandidate = .ok (ys.head?.or (L .pending).head?) := by
    rw [State.firstCandidate, hlast]
    dsimp only
    rw [hpeer, hnext, hhead]
    rfl
  cases ys with
  -- the last request went to the last peer, so the search begins anew
  | nil =>
    rw [if_pos rfl]
    exact h.sendRequest env clock (List.Subset.refl _) hfirst (h.list .pending).chained
  | cons y ys =>
    rw [if_neg (by simp)]
    refine h.sendRequest (w := w) env clock ?_ hfirst hbehind.2
    intro x hx
    rw [hw]
    exact List.mem_append_right _ (List.mem_cons_of_mem _ hx)

end Round

/-! ## The condition -/

/-- The element is in a list. -/
def InList (s : State El Region Bytes Secret Point) (w : PeerList) (el : El) : Prop :=
  List.ChainHas s.next (s.header w).head el

omit [DecidableEq El] in
/-- Following the links finds exactly the elements of the list. -/
theorem Holds.inList_iff (h : Holds s L) : InList s w el ↔ el ∈ L w := by
  have hhead : (s.header w).head = (L w).head? := (h.list w).head
  rw [InList, hhead]
  exact (h.list w).chained.chainHas_iff

/-- The element remembered from the round before is kept by the cleanup of this one, and it is
    pending, becomes pending, or no peer behind it among the trusted ones can be sent to. -/
def Settled (env : Env Region Space Bytes Secret Point) (clock : State.Clock El)
    (s : State El Region Bytes Secret Point) : Prop :=
  ∀ a, s.last_dh_request = some a → kept env clock s a ∧
    (InList s .pending a ∨ expired clock s a ∨
      ∀ b, List.ChainHas s.next (s.next a) b →
        ¬ (stays env clock s b ∧ eligible env clock s b))

/-- Each live peer is in exactly one list, and no other one is in any. -/
def Partitioned (s : State El Region Bytes Secret Point) : Prop :=
  ∀ el, ((s.peers el).isSome ↔ InList s .pending el ∨ InList s .trusted el) ∧
    ¬ (InList s .pending el ∧ InList s .trusted el)

/-- After the round, the peer to which a request was sent is pending. -/
def SentToPending (s' : State El Region Bytes Secret Point) : Prop :=
  ∀ el, s'.last_dh_request = some el → InList s' .pending el

/-- The invariant of all runs. -/
structure Inv (s : State El Region Bytes Secret Point) (L : PeerList → List El) : Prop
    extends Listed s L where
  last : ∀ a, s.last_dh_request = some a → ∃ w, a ∈ L w

omit [DecidableEq El] in
/-- No element is on two lists, and every peer is on one. -/
theorem Listed.partitioned (h : Listed s L) : Partitioned s := by
  intro el
  rw [h.live, h.inList_iff, h.inList_iff]
  constructor
  · constructor
    · intro ⟨w, hw⟩
      cases w with
      | pending => exact Or.inl hw
      | trusted => exact Or.inr hw
    · intro hor
      cases hor with
      | inl hp => exact ⟨_, hp⟩
      | inr ht => exact ⟨_, ht⟩
  · intro ⟨hp, ht⟩
    cases h.disjoint el _ _ hp ht

section Round

variable (env : Env Region Space Bytes Secret Point) (clock : State.Clock El)

omit [DecidableEq El] in
/-- What is found among the elements of a list is in it. -/
theorem Listed.inv_of_find (h : Listed s' L) {c : List El} {test : El → Bool} (hc : c ⊆ L w)
    (hlast : s'.last_dh_request = c.find? test) : Inv s' L where
  toListed := h
  last _ ha := ⟨w, hc (List.mem_of_find?_eq_some (hlast.symm.trans ha))⟩

omit [DecidableEq El] in
/-- A request that goes to the first hit goes to a pending peer. -/
theorem Listed.sent_of_find (h : Listed s' L) {c : List El} {test : El → Bool}
    (hc : c ⊆ L .pending) (hlast : s'.last_dh_request = c.find? test) : SentToPending s' :=
  fun _ hel => h.inList_iff.mpr (hc (List.mem_of_find?_eq_some (hlast.symm.trans hel)))

/-- The element that is remembered is deleted by the cleanup. -/
theorem Inv.keyManager_of_dead (h : Inv s L) {a : El} (hlast : s.last_dh_request = some a)
    (hdead : kept env clock s a = false) : s.keyManager env clock = .error (.dead a) := by
  obtain ⟨s₃, L₃, h₃, hrun, hlast₃, htrusted, hpending, -⟩ := h.toListed.tidied env clock
  have hout : ¬ ∃ w, a ∈ L₃ w := by
    intro ⟨w, hw⟩
    have hkept : kept env clock s a = true := by
      cases w with
      | pending =>
        rw [hpending] at hw
        cases List.mem_append.mp hw with
        | inl hmem => exact (List.mem_filter.mp hmem).2
        | inr hmem => exact (Bool.and_eq_true_iff.mp (List.mem_filter.mp hmem).2).2
      | trusted =>
        rw [htrusted] at hw
        exact (Bool.and_eq_true_iff.mp (List.mem_filter.mp hw).2).2
    exact Bool.false_ne_true (hdead.symm.trans hkept)
  have hnone : (s₃.peers a).isNone := by
    rw [← h₃.live] at hout
    simpa using hout
  rw [hrun, State.sendRequest, State.firstCandidate, hlast₃, hlast]
  dsimp only
  rw [if_pos hnone]
  rfl

/-- A round in which the element that is remembered is kept. -/
theorem Inv.keyManager_of_kept (h : Inv s L)
    (hkept : ∀ a, s.last_dh_request = some a → kept env clock s a) :
    ∃ s' L', s.keyManager env clock = .ok s' ∧ Inv s' L' ∧
      (SentToPending s' ↔ Settled env clock s) := by
  obtain ⟨s₃, L₃, h₃, hrun, hlast₃, htrusted, hpending, hpeers⟩ := h.toListed.tidied env clock
  rw [hrun]
  cases hlast : s.last_dh_request with
  | none =>
    -- no element is remembered: the search starts at the head of the pending list
    have hfirst : s₃.firstCandidate = .ok (L₃ .pending).head? := by
      rw [State.firstCandidate, hlast₃, hlast]
      exact congrArg _ (h₃.list .pending).head
    obtain ⟨s', hs', h', hlast'⟩ := h₃.sendRequest env clock (List.Subset.refl _) hfirst
      (h₃.list .pending).chained
    refine ⟨s', L₃, hs', h'.inv_of_find (List.Subset.refl _) hlast', ?_⟩
    refine iff_of_true (h'.sent_of_find (List.Subset.refl _) hlast') fun a ha => ?_
    cases hlast.symm.trans ha
  | some a =>
    have hka := hkept a hlast
    have hlast₃a : s₃.last_dh_request = some a := hlast₃.trans hlast
    obtain ⟨w, haw⟩ := h.last a hlast
    by_cases hpend : a ∈ L₃ .pending
    · -- the list goes on behind it, or starts anew
      obtain ⟨xs, ys, hsplit⟩ := List.append_of_mem hpend
      obtain ⟨s', hs', h', hlast'⟩ := h₃.sendRequest_of_last env clock hlast₃a hsplit
      have hsub : (if ys = [] then L₃ .pending else ys) ⊆ L₃ .pending := by
        split
        · exact List.Subset.refl _
        · intro x hx
          rw [hsplit]
          exact List.mem_append_right _ (List.mem_cons_of_mem _ hx)
      refine ⟨s', L₃, hs', h'.inv_of_find hsub hlast', ?_⟩
      refine iff_of_true (h'.sent_of_find hsub hlast') fun a' ha' => ?_
      obtain rfl := Option.some.inj (hlast.symm.trans ha')
      refine ⟨hka, ?_⟩
      rw [hpending] at hpend
      cases List.mem_append.mp hpend with
      | inl hmem => exact Or.inl (h.inList_iff.mpr (List.mem_filter.mp hmem).1)
      | inr hmem =>
        exact Or.inr (Or.inl (Bool.and_eq_true_iff.mp (List.mem_filter.mp hmem).2).1)
    · have hpendL : a ∉ L .pending := fun hmem => hpend (by
        rw [hpending]
        exact List.mem_append_left _ (List.mem_filter.mpr ⟨hmem, hka⟩))
      -- it stays trusted, so it has not expired
      have hmemT : a ∈ L .trusted := by
        cases w with
        | pending => exact absurd haw hpendL
        | trusted => exact haw
      have hfresh : expired clock s a = false := by
        by_contra hexpired
        rw [Bool.not_eq_false] at hexpired
        apply hpend
        rw [hpending]
        refine List.mem_append_right _ (List.mem_filter.mpr ⟨hmemT, ?_⟩)
        rw [hexpired, hka]
        rfl
      obtain ⟨xs, ys, hsplit⟩ := List.append_of_mem hmemT
      have hstay : stays env clock s a = true := by
        rw [stays, hfresh, hka]
        rfl
      rw [hsplit, List.filter_append, List.filter_cons_of_pos hstay] at htrusted
      obtain ⟨s', hs', h', hlast'⟩ := h₃.sendRequest_of_last env clock hlast₃a htrusted
      -- what is behind it in the trusted list is what the search walks through
      have hbehind (b : El) : List.ChainHas s.next (s.next a) b ↔ b ∈ ys := by
        have hch := (h.list .trusted).chained
        rw [hsplit] at hch
        have hrest := (List.chained_append.mp hch).2
        have hnext : s.next a = ys.head? := hrest.1.trans Option.or_none
        rw [hnext]
        exact hrest.2.chainHas_iff
      have hsettled : Settled env clock s ↔ ∀ b ∈ ys,
          ¬ (stays env clock s b ∧ eligible env clock s b) := by
        constructor
        · intro hset b hb
          cases (hset a hlast).2 with
          | inl hin => exact absurd (h.inList_iff.mp hin) hpendL
          | inr hor =>
            cases hor with
            | inl hexp => exact absurd (hfresh.symm.trans hexp) Bool.false_ne_true
            | inr hall => exact hall b ((hbehind b).mpr hb)
        · intro hall a' ha'
          obtain rfl := Option.some.inj (hlast.symm.trans ha')
          exact ⟨hka, Or.inr (Or.inr fun b hb => hall b ((hbehind b).mp hb))⟩
      have hstays {b : El} (hb : b ∈ ys.filter (stays env clock s)) :
          eligible env clock s₃ b = eligible env clock s b :=
        hit_congr (hpeers b (Bool.and_eq_true_iff.mp (List.mem_filter.mp hb).2).2)
      have hrest : ys.filter (stays env clock s) ⊆ L₃ .trusted := by
        intro b hb
        rw [htrusted]
        exact List.mem_append_right _ (List.mem_cons_of_mem _ hb)
      -- nothing behind it is left: the search is in the pending list again
      by_cases hnil : ys.filter (stays env clock s) = []
      · rw [if_pos hnil] at hlast'
        refine ⟨s', L₃, hs', h'.inv_of_find (List.Subset.refl _) hlast', ?_⟩
        refine iff_of_true (h'.sent_of_find (List.Subset.refl _) hlast') (hsettled.mpr ?_)
        intro b hb hboth
        have hmem := List.mem_filter.mpr ⟨hb, hboth.1⟩
        rw [hnil] at hmem
        cases hmem
      · rw [if_neg hnil] at hlast'
        refine ⟨s', L₃, hs', h'.inv_of_find hrest hlast', ?_⟩
        rw [hsettled]
        constructor
        · -- an eligible one behind it would be found, and it is not pending
          intro hsent b hb hboth
          have hmem := List.mem_filter.mpr ⟨hb, hboth.1⟩
          have hsome : ((ys.filter (stays env clock s)).find? (eligible env clock s₃)).isSome :=
            List.find?_isSome.mpr ⟨b, hmem, (hstays hmem).trans hboth.2⟩
          obtain ⟨b', hb'⟩ := Option.isSome_iff_exists.mp hsome
          have hpend' := h'.inList_iff.mp (hsent b' (hlast'.trans hb'))
          cases h₃.disjoint b' _ _ hpend' (hrest (List.mem_of_find?_eq_some hb'))
        · intro hall b hb
          have hfound := hlast'.symm.trans hb
          have hmem := List.mem_of_find?_eq_some hfound
          have helig := (hstays hmem).symm.trans (List.find?_some hfound)
          exact absurd ⟨(List.mem_filter.mp hmem).2, helig⟩ (hall b (List.mem_filter.mp hmem).1)

/-- A round, from the condition on. -/
theorem Inv.keyManager (h : Inv s L) :
    (∀ s', s.keyManager env clock = .ok s' → ∃ L', Inv s' L') ∧
    ((∃ s', s.keyManager env clock = .ok s' ∧ SentToPending s') ↔ Settled env clock s) := by
  -- the peer of the last request is still there, or was deleted with the memory still read
  by_cases hkept : ∀ a, s.last_dh_request = some a → kept env clock s a
  · obtain ⟨s', L', hs', h', hiff⟩ := h.keyManager_of_kept env clock hkept
    rw [hs', ← hiff]
    constructor
    · intro s'' heq
      cases heq
      exact ⟨L', h'⟩
    · constructor
      · intro ⟨s'', heq, hsent⟩
        cases heq
        exact hsent
      · intro hsent
        exact ⟨s', rfl, hsent⟩
  · obtain ⟨a, hlast, hdead⟩ : ∃ a, s.last_dh_request = some a ∧ ¬ kept env clock s a := by
      simpa using hkept
    rw [h.keyManager_of_dead env clock hlast (Bool.eq_false_iff.mpr hdead)]
    constructor
    · intro s' heq
      cases heq
    · refine iff_of_false ?_ fun hsettled => hdead (hsettled a hlast).1
      intro ⟨s', heq, _⟩
      cases heq

end Round

/-! ## Messages and new peers -/

section Handlers

variable (env : Env Region Space Bytes Secret Point)

omit [DecidableEq El] in
/-- The invariant when the last request is as before. -/
theorem Inv.of_listed (h : Inv s L) {L' : PeerList → List El} (h' : Listed s' L')
    (hlast : s'.last_dh_request = s.last_dh_request)
    (hpeers : ∀ a, (s.peers a).isSome → (s'.peers a).isSome) : Inv s' L' where
  toListed := h'
  last a ha := (h'.live a).mp (hpeers a ((h.live a).mpr (h.last a (hlast.symm.trans ha))))

omit [DecidableEq El] in
/-- A new key changes no list. -/
theorem Inv.insertKey (h : Inv s L) (key : Point) (creation : Time) :
    Inv (s.insertKey key creation) L :=
  h.of_listed (h.toListed.congr rfl rfl fun _ => rfl) rfl fun _ ha => ha

/-- A move from one list to the other one. -/
theorem Inv.move (h : Inv s L) (hel : el ∈ L w) {w' : PeerList} (hw' : w' ≠ w) :
    ∃ s' L', s.move w (some w') el = .ok s' ∧ Inv s' L' := by
  have hdest : some w' ≠ some w := fun heq => hw' (Option.some.inj heq)
  obtain ⟨s', hs', h', hun, hpeers⟩ := h.toListed.move hel hdest
  refine ⟨s', _, hs', h.of_listed h' hun.last_dh_request fun a ha => ?_⟩
  rwa [hpeers a (Or.inr (by simp))]

/-- `add_peer()` keeps the invariant. -/
theorem Inv.add_peer (h : Inv s L) (hnew : (s.peers el).isNone) (peer_id : Bytes)
    (valid_region : Region) :
    ∃ s' L', s.add_peer env el peer_id valid_region = .ok s' ∧ Inv s' L' := by
  -- the memory of the new peer is in no list
  have hout : ∀ w, el ∉ L w := by
    intro w hmem
    have hlive := (h.live el).mpr ⟨w, hmem⟩
    rw [Option.isNone_iff_eq_none.mp hnew] at hlive
    cases hlive
  let peer : Peer Region Bytes Secret :=
    { id := peer_id, auth := env.encrypt peer_id peer_id, valid := valid_region }
  let s₀ : State El Region Bytes Secret Point :=
    { s with peers := Function.update s.peers el (some peer) }
  have h₀ : Holds s₀ L := h.toHolds.congr rfl rfl
  obtain ⟨s', hs', h', hun, hpeers⟩ := h₀.insert .pending hout
  have hlive (x : El) : (s'.peers x).isSome ↔ x = el ∨ (s.peers x).isSome := by
    rw [hpeers]
    show (Function.update s.peers el (some peer) x).isSome ↔ _
    by_cases hx : x = el
    · rw [hx, Function.update_self]
      exact iff_of_true rfl (Or.inl rfl)
    · rw [Function.update_of_ne hx]
      exact (or_iff_right hx).symm
  refine ⟨s', _, hs', h.of_listed ⟨h', fun x => ?_⟩ hun.last_dh_request fun a ha =>
    (hlive a).mpr (Or.inr ha)⟩
  rw [hlive, h.live, exists_mem_update, List.mem_append, List.mem_singleton, or_right_comm,
    ← exists_mem_iff, or_comm]

/-- A Diffie-Hellman request keeps the invariant. -/
theorem Inv.dhRequest (h : Inv s L) (sink : Bool) (origin : Space) (key : Point)
    (now : El → Time) (creation : Time) :
    ∃ s' L', s.dhRequest env sink origin key now creation = .ok s' ∧ Inv s' L' := by
  rw [State.dhRequest]
  cases sink with
  | true => exact ⟨s, L, rfl, h⟩
  | false =>
    rw [if_neg (by simp)]
    -- a pending peer gets the key, a trusted one becomes pending again
    cases h.toListed.searchList .pending (State.deployed env origin now) with
    | inr hfound =>
      obtain ⟨el, k, peer, hsearch, -⟩ := hfound
      rw [hsearch]
      exact ⟨_, L, rfl, h.insertKey key creation⟩
    | inl hnone =>
      rw [hnone]
      cases h.toListed.searchList .trusted (State.deployed env origin now) with
      | inl hnone' =>
        rw [Except.ok_bind, hnone']
        exact ⟨s, L, rfl, h⟩
      | inr hfound =>
        obtain ⟨el, k, peer, hsearch, hel, -⟩ := hfound
        obtain ⟨s', L', hs', h'⟩ := h.move hel (show PeerList.pending ≠ .trusted by simp)
        rw [Except.ok_bind, hsearch, Except.ok_bind]
        dsimp only
        rw [hs']
        exact ⟨_, L', rfl, h'.insertKey key creation⟩

omit [DecidableEq El] in
/-- A Diffie-Hellman response keeps the invariant. -/
theorem Inv.dhResponse (h : Inv s L) (origin : Space) (key : Point) (now : El → Time)
    (creation : Time) :
    ∃ s' L', s.dhResponse env origin key now creation = .ok s' ∧ Inv s' L' := by
  rw [State.dhResponse]
  split
  · exact ⟨s, L, rfl, h⟩
  · cases h.toListed.searchList .pending (State.deployed env origin now) with
    | inl hnone =>
      rw [hnone]
      exact ⟨s, L, rfl, h⟩
    | inr hfound =>
      obtain ⟨el, k, peer, hsearch, -⟩ := hfound
      rw [hsearch]
      exact ⟨_, L, rfl, h.of_listed (h.toListed.congr rfl rfl fun _ => rfl) rfl fun _ ha => ha⟩

/-- Trusting a peer keeps the invariant. -/
theorem Inv.trust (h : Inv s L) (hel : el ∈ L .pending) (i : Nat) (pk : Pending_Key Point)
    (time : Time) : ∃ s' L', s.trust env el i pk time = .ok s' ∧ Inv s' L' := by
  obtain ⟨peer, hpeer⟩ := h.toListed.exists_peer hel
  let peer' : Peer Region Bytes Secret :=
    { peer with master_secret := some (env.shared_key pk.public_key), auth_time := time }
  let s₀ : State El Region Bytes Secret Point :=
    { s with peers := Function.update s.peers el (some peer') }
  have hsome (x : El) : (s₀.peers x).isSome = (s.peers x).isSome := by
    show (Function.update s.peers el (some peer') x).isSome = _
    by_cases hx : x = el
    · rw [hx, Function.update_self, hpeer]
      rfl
    · rw [Function.update_of_ne hx]
  have h₀ : Inv s₀ L :=
    h.of_listed (h.toListed.congr rfl rfl hsome) rfl fun a ha => (hsome a).trans ha
  obtain ⟨s', L', hs', h'⟩ := h₀.move hel (show PeerList.trusted ≠ .pending by simp)
  rw [State.trust, hpeer]
  dsimp only
  rw [hs']
  exact ⟨_, L', rfl,
    h'.of_listed (h'.toListed.congr rfl rfl fun _ => rfl) rfl fun _ ha => ha⟩

variable [DecidableEq Bytes]

/-- An authentication request keeps the invariant. -/
theorem Inv.authRequest (h : Inv s L) (origin : Space) (auth otp : Bytes) (now : El → Time)
    (nowKey : El → Nat → Time) (time : Time) :
    ∃ s' L', s.authRequest env origin auth otp now nowKey time = .ok s' ∧ Inv s' L' := by
  rw [State.authRequest]
  cases h.toListed.searchList .pending (s.requested env origin auth otp now nowKey) with
  | inl hnone =>
    rw [hnone]
    exact ⟨s, L, rfl, h⟩
  | inr hfound =>
    obtain ⟨el, ⟨i, pk⟩, peer, hsearch, hel, -⟩ := hfound
    rw [hsearch]
    exact h.trust env hel i pk time

/-- A granted authentication keeps the invariant. -/
theorem Inv.authGranted (h : Inv s L) (sink : Bool) (auth : Bytes) (nowKey : El → Nat → Time)
    (time : Time) :
    ∃ s' L', s.authGranted env sink auth nowKey time = .ok s' ∧ Inv s' L' := by
  rw [State.authGranted]
  cases sink with
  | true => exact ⟨s, L, rfl, h⟩
  | false =>
    rw [if_neg (by simp)]
    cases h.toListed.searchList .pending (s.granted env auth nowKey) with
    | inl hnone =>
      rw [hnone]
      exact ⟨s, L, rfl, h⟩
    | inr hfound =>
      obtain ⟨el, ⟨i, pk⟩, peer, hsearch, hel, -⟩ := hfound
      rw [hsearch]
      exact h.trust env hel i pk time

end Handlers

/-! ## Runs -/

section Runs

variable [DecidableEq Bytes] (env : Env Region Space Bytes Secret Point)

/-- Whether an event can happen. Nothing follows a fault, and a peer is allocated where none
    is. -/
def enabled : Except (Fault El) (State El Region Bytes Secret Point) →
    Event El Region Space Bytes Point → Bool
  | .error _, _ => false
  | .ok s, .addPeer el _ _ => (s.peers el).isNone
  | .ok _, _ => true

variable (El) in
/-- What happens one after the other. -/
def system : TransitionSystem (Except (Fault El) (State El Region Bytes Secret Point))
    (Event El Region Space Bytes Point) where
  Init r := r = .ok {}
  Enabled r e := enabled r e
  next r e := r >>= fun s => s.handle env e

/-- A state without a fault handles the event. -/
theorem next_ok (s : State El Region Bytes Secret Point) (e : Event El Region Space Bytes Point) :
    (system El env).next (.ok s) e = s.handle env e := rfl

/-- The round of the key manager. -/
theorem handle_keyManager (s : State El Region Bytes Secret Point) (clock : State.Clock El) :
    s.handle env (.keyManager clock) = s.keyManager env clock := rfl

instance decidableEnabled (r : Except (Fault El) (State El Region Bytes Secret Point))
    (e : Event El Region Space Bytes Point) : Decidable ((system El env).Enabled r e) :=
  inferInstanceAs (Decidable (enabled r e = true))

/-- Every round starts from a settled state. -/
def Condition (r : Except (Fault El) (State El Region Bytes Secret Point)) :
    Event El Region Space Bytes Point → Prop
  | .keyManager clock => ∀ s, r = .ok s → Settled env clock s
  | _ => True

/-- No deleted peer was read, and the lists are as they should be. -/
def Sound (r : Except (Fault El) (State El Region Bytes Secret Point)) : Prop :=
  ∃ s, r = .ok s ∧ Partitioned s

/-- A round sends its request to a peer that is pending then. -/
def RequestsPending (r : Except (Fault El) (State El Region Bytes Secret Point)) :
    Event El Region Space Bytes Point → Prop
  | .keyManager clock => ∀ s s', r = .ok s → s.keyManager env clock = .ok s' → SentToPending s'
  | _ => True

/-- The invariant, where there was no fault. -/
def Invariant (r : Except (Fault El) (State El Region Bytes Secret Point)) : Prop :=
  ∃ s L, r = .ok s ∧ Inv s L

omit [DecidableEq El] [DecidableEq Bytes] in
/-- The invariant holds at the beginning. -/
theorem invariant_init : Invariant (.ok ({} : State El Region Bytes Secret Point)) := by
  refine ⟨{}, fun _ => [], rfl, ⟨⟨⟨fun w => ⟨rfl, rfl, rfl, trivial⟩, ?_⟩, ?_⟩, ?_⟩⟩
  · intro el w w' hmem
    cases hmem
  · intro el
    refine iff_of_false (by simp) ?_
    intro ⟨w, hmem⟩
    cases hmem
  · intro a ha
    cases ha

/-- A step other than a round. -/
theorem Inv.handle (h : Inv s L) {e : Event El Region Space Bytes Point}
    (hen : enabled (.ok s) e) (hround : ∀ clock, e ≠ .keyManager clock) :
    ∃ s' L', s.handle env e = .ok s' ∧ Inv s' L' := by
  cases e with
  | addPeer el peer_id valid_region => exact h.add_peer env hen peer_id valid_region
  | dhRequest sink origin key now creation => exact h.dhRequest env sink origin key now creation
  | dhResponse origin key now creation => exact h.dhResponse env origin key now creation
  | authRequest origin auth otp now nowKey time =>
    exact h.authRequest env origin auth otp now nowKey time
  | authGranted sink auth nowKey time => exact h.authGranted env sink auth nowKey time
  | keyManager clock => exact absurd rfl (hround clock)

/-- One step from the invariant. -/
theorem step_iff {r : Except (Fault El) (State El Region Bytes Secret Point)}
    {e : Event El Region Space Bytes Point} (h : Invariant r) (hen : (system El env).Enabled r e) :
    Sound ((system El env).next r e) ∧ RequestsPending env r e ↔ Condition env r e := by
  obtain ⟨s, L, rfl, h⟩ := h
  rw [next_ok]
  -- only the key manager sends requests
  by_cases hround : ∃ clock, e = .keyManager clock
  · obtain ⟨clock, rfl⟩ := hround
    obtain ⟨hinv, hiff⟩ := h.keyManager env clock
    rw [handle_keyManager]
    constructor
    · intro ⟨⟨s', hs', _⟩, hrequests⟩ s₁ heq
      cases heq
      exact hiff.mp ⟨s', hs', hrequests s s' rfl hs'⟩
    · intro hcond
      obtain ⟨s', hs', hsent⟩ := hiff.mpr (hcond s rfl)
      obtain ⟨L', h'⟩ := hinv s' hs'
      refine ⟨⟨s', hs', h'.toListed.partitioned⟩, ?_⟩
      intro s₁ s₂ heq hs₂
      cases heq
      cases hs'.symm.trans hs₂
      exact hsent
  · obtain ⟨s', L', hs', h'⟩ := h.handle env hen fun clock heq => hround ⟨clock, heq⟩
    have hsound : Sound (s.handle env e) := ⟨s', hs', h'.toListed.partitioned⟩
    cases e with
    | keyManager clock => exact absurd ⟨clock, rfl⟩ hround
    | _ => exact iff_of_true ⟨hsound, trivial⟩ trivial

/-- Every event keeps it. -/
theorem invariant_step {r : Except (Fault El) (State El Region Bytes Secret Point)}
    {e : Event El Region Space Bytes Point} (h : Invariant r) (hen : (system El env).Enabled r e)
    {s' : State El Region Bytes Secret Point} (hs' : (system El env).next r e = .ok s') :
    ∃ L', Inv s' L' := by
  obtain ⟨s, L, rfl, h⟩ := h
  rw [next_ok] at hs'
  by_cases hround : ∃ clock, e = .keyManager clock
  · obtain ⟨clock, rfl⟩ := hround
    rw [handle_keyManager] at hs'
    exact (h.keyManager env clock).1 s' hs'
  · obtain ⟨s'', L', hs'', h'⟩ := h.handle env hen fun clock heq => hround ⟨clock, heq⟩
    cases hs''.symm.trans hs'
    exact ⟨L', h'⟩

/-- Unless there was a fault, the invariant holds in every state. -/
theorem reachable_inv {r : Except (Fault El) (State El Region Bytes Secret Point)}
    (h : (system El env).Reachable r) {s : State El Region Bytes Secret Point} (hr : r = .ok s) :
    ∃ L, Inv s L := by
  induction h generalizing s with
  | init hinit =>
    cases hinit.symm.trans hr
    have hinv : Invariant (.ok ({} : State El Region Bytes Secret Point)) := invariant_init
    obtain ⟨s, L, heq, h⟩ := hinv
    cases heq
    exact ⟨L, h⟩
  | @step r e _ hen ih =>
    cases r with
    | error fault => cases hen
    | ok s₀ =>
      obtain ⟨L, h⟩ := ih rfl
      exact invariant_step env ⟨s₀, L, rfl, h⟩ hen hr

/-- Every live peer is in exactly one list in all states. The runs that read no deleted peer and
    send to pending peers alone are those whose rounds start from settled states. -/
theorem peers_correct_iff :
    (∀ s : State El Region Bytes Secret Point,
      (system El env).Reachable (.ok s) → Partitioned s) ∧
    ∀ as, (system El env).Valid (.ok {}) as →
      ((system El env).Always Sound (.ok {}) as ∧
        (system El env).Meets (RequestsPending env) (.ok {}) as ↔
        (system El env).Meets (Condition env) (.ok {}) as) := by
  constructor
  · intro s hs
    obtain ⟨L, h⟩ := reachable_inv env hs rfl
    exact h.toListed.partitioned
  · intro as hv
    refine TransitionSystem.always_and_meets_iff ?_ ?_ ?_ invariant_init hv
    · intro r ⟨s, L, heq, h⟩
      exact ⟨s, heq, h.toListed.partitioned⟩
    · intro r e hinv hen hcond
      obtain ⟨⟨s', hs', _⟩, _⟩ := (step_iff env hinv hen).mpr hcond
      obtain ⟨L', h'⟩ := invariant_step env hinv hen hs'
      exact ⟨s', L', hs', h'⟩
    · intro r e hinv hen
      exact step_iff env hinv hen

end Runs

/-! ## Two runs -/

/-- Regions that are intervals of time, and a cipher that accepts everything. -/
def timeEnv : Env (Time × Time) Unit Unit Unit Unit where
  contains valid _ time := valid.1 ≤ time && time ≤ valid.2
  center _ := ()
  encrypt _ _ := ()
  decrypt _ _ := ()
  otp _ _ _ := ()
  verify_auth_request _ _ _ _ := true
  shared_key _ := ()
  auth := ()

/-- A round at one time. -/
def roundAt (time : Time) : Event Nat (Time × Time) Unit Unit Unit :=
  .keyManager { keys _ := time, cleanup _ := time, expiry _ := time, send _ := time }

/-- A peer and two rounds of the key manager. -/
theorem peers_correct_iff_short :
    (system Nat timeEnv).Always Sound (.ok {}) [.addPeer 0 () (0, 100), roundAt 50, roundAt 60] ∧
      (system Nat timeEnv).Meets (RequestsPending timeEnv) (.ok {})
        [.addPeer 0 () (0, 100), roundAt 50, roundAt 60] ↔
      (system Nat timeEnv).Meets (Condition timeEnv) (.ok {})
        [.addPeer 0 () (0, 100), roundAt 50, roundAt 60] :=
  (peers_correct_iff timeEnv).2 [.addPeer 0 () (0, 100), roundAt 50, roundAt 60]
    (by decide +kernel)

/-- The deleted peer that was read. -/
def readDead {El σ : Type} : Except (Fault El) σ → Option El
  | .error (.dead el) => some el
  | _ => none

/-- The peer to which the last request was sent is deleted by the next round. -/
theorem not_peers_correct :
    (system Nat timeEnv).Valid (.ok {}) [.addPeer 0 () (0, 100), roundAt 50, roundAt 200] ∧
    readDead ((system Nat timeEnv).run (.ok {}) [.addPeer 0 () (0, 100), roundAt 50, roundAt 200]) =
      some 0 ∧
    ¬ (system Nat timeEnv).Always Sound (.ok {})
      [.addPeer 0 () (0, 100), roundAt 50, roundAt 200] := by
  have hdead : readDead ((system Nat timeEnv).run (.ok {})
      [.addPeer 0 () (0, 100), roundAt 50, roundAt 200]) = some 0 := by decide +kernel
  refine ⟨by decide +kernel, hdead, fun halways => ?_⟩
  obtain ⟨s, hs, -⟩ := halways.last
  rw [hs] at hdead
  cases hdead

end TSTP.Security

end Epos
