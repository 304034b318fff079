import Epos.Network.MacRadio
import Epos.Spec.MacCorrect
import Epos.Spec.MicroframeFields

/-!
# The train of microframes

From `update_tx_schedule` on, the radio holds the microframe that is transmitted next and `_mf` is
a copy of it, so the count that `tx_mf` decrements is the one it has just put on the air: the train
counts down to zero, and the data frame is copied behind it.
-/

namespace Epos

namespace TSTP.MAC

variable {Addr Frame : Type} [DecidableEq Addr] (env : Env Frame)

/-! ## The pending buffer -/

theorem State.of_pending {s : State Addr Frame} {p : Addr} {b : Buffer Frame}
    (h : s.pending = .ok (p, b)) :
    s.tx_pending = some p ∧ s.buffers p = some b ∧ p ∈ s.tx_schedule := by
  rw [State.pending] at h
  split at h
  · cases h
  · next q hq =>
    split at h
    · cases h
    · next buf hbuf =>
      split at h
      · next hmem =>
        cases h
        exact ⟨hq, hbuf, hmem⟩
      · cases h

/-- What is read behind `_tx_pending` after the buffer has been written. -/
theorem State.pending_write {s s' : State Addr Frame} {p : Addr} {b b' : Buffer Frame}
    (h : s.pending = .ok (p, b)) (hpending : s'.tx_pending = s.tx_pending)
    (hschedule : s'.tx_schedule = s.tx_schedule) (hbuffers : s'.buffers = (s.write p b').buffers) :
    s'.pending = .ok (p, b') := by
  obtain ⟨hp, -, hmem⟩ := State.of_pending h
  have hread : s'.buffers p = some b' := by
    rw [hbuffers]
    exact Function.update_self p (some b') s.buffers
  simp [State.pending, hpending, hp, hschedule, hmem, hread]

/-! ## The MAC without its radio -/

/-- The buffer that `tx_mf` copies is there whenever the MAC has come to an end. -/
theorem State.pending_of_tx_mf {s s' : State Addr Frame} (h : s.tx_mf env = .ok s')
    (hlast : ¬ s.mf.dec_count.1 > 0) : ∃ p b, s'.pending = .ok (p, b) := by
  simp only [State.tx_mf, if_neg hlast, State.copyPending] at h
  obtain ⟨⟨p, b⟩, hpending, h⟩ := Except.of_bind_ok h
  cases h
  exact ⟨p, _, State.pending_write hpending rfl rfl rfl⟩

/-- What the radio holds has no influence on the handlers. -/
theorem Station.timer_mac (st : Station Addr Frame) (i : Inputs) :
    (st.timer env i).map Station.mac = st.mac.handle env (.timer i) := by
  rw [Station.timer, State.handle]
  cases htimer : st.mac.timer with
  | none => rfl
  | some entry =>
    obtain ⟨time, handler⟩ := entry
    generalize { st.mac with timer := none } = s
    cases handler with
    | update_tx_schedule =>
      simp only [Station.run, State.run, Station.update_tx_schedule, Except.map_bind]
      cases s.update_tx_schedule env i with
      | error fault => rfl
      | ok mac =>
        simp only [Except.ok_bind]
        split <;> rfl
    | cca =>
      simp only [Station.run, State.run, Station.cca]
      split <;> rfl
    | rx_mf => rfl
    | rx_data => rfl
    | tx_mf =>
      simp only [Station.run, State.run, Station.tx_mf, Except.map_bind]
      cases hmac : s.tx_mf env with
      | error fault => rfl
      | ok mac =>
        simp only [Except.ok_bind]
        split
        · rfl
        · next hlast =>
          -- where the data frame is copied, `tx_mf` has found it
          obtain ⟨p, b, hpending⟩ := State.pending_of_tx_mf env hmac hlast
          rw [hpending]
          rfl
    | tx_data =>
      simp only [Station.run, State.run, Station.tx_data, Except.map_bind]
      cases s.tx_data env i <;> rfl

/-! ## The countdown -/

namespace Microframe

/-- A train counts down from `n - 1`. -/
def countdown (f : Fields) (n : Nat) : List Fields :=
  (List.range n).reverse.map fun k => { f with count := UInt16.ofNat k }

theorem countdown_succ (f : Fields) (n : Nat) :
    countdown f (n + 1) = { f with count := UInt16.ofNat n } :: countdown f n := by
  simp [countdown, List.range_succ]

@[simp] theorem countdown_zero (f : Fields) : countdown f 0 = [] := rfl

theorem toNat_ofNat_count {k : Nat} (hk : k < 2048) : (UInt16.ofNat k).toNat = k := by
  rw [UInt16.toNat_ofNat']
  omega

/-- `dec_count()` of a count that is not zero leaves the rest alone. -/
theorem fields_dec_count {mf : Microframe} {f : Fields} {k : Nat} (hk : k + 1 < 2048)
    (h : mf.fields = { f with count := UInt16.ofNat (k + 1) }) :
    mf.dec_count.2.fields = { f with count := UInt16.ofNat k } := by
  have hcount : mf.count = UInt16.ofNat (k + 1) := congrArg Fields.count h
  -- below 2048 the counter is decremented without a borrow
  have hsub : mf.count - 1 = UInt16.ofNat k := by
    rw [hcount]
    apply UInt16.toNat_inj.mp
    have h1 := toNat_ofNat_count hk
    have h0 := toNat_ofNat_count (k := k) (by omega)
    rw [UInt16.toNat_sub, h1, h0]
    simp
    omega
  have hne : mf.count ≠ 0 := by
    rw [hcount]
    intro heq
    have hzero := congrArg UInt16.toNat heq
    rw [toNat_ofNat_count hk] at hzero
    simp at hzero
  -- the mask of eleven bits changes nothing
  have hmask : UInt16.ofNat k &&& 0x07ff = UInt16.ofNat k := by
    apply UInt16.toNat_inj.mp
    rw [UInt16.toNat_and]
    apply Nat.and_two_pow_sub_one_of_lt_two_pow (n := 11)
    rw [toNat_ofNat_count (by omega)]
    omega
  rw [(dec_count_own_iff mf).mpr (Or.inl hne), h, hsub, hmask]

end Microframe

/-! ## One interrupt after the other -/

namespace Station

variable {st : Station Addr Frame} {f : Microframe.Fields} {p : Addr} {b : Buffer Frame}

/-- Between two handlers: the microframe with the count `k` is in the radio. -/
structure Loaded (st : Station Addr Frame) (handler : Handler) (f : Microframe.Fields) (k : Nat)
    (p : Addr) (b : Buffer Frame) : Prop where
  handler : st.mac.timer.map Prod.snd = some handler
  nic : st.radio.nic = some (.microframe st.mac.mf)
  fields : st.mac.mf.fields = { f with count := UInt16.ofNat k }
  pending : st.mac.pending = .ok (p, b)

/-- Behind the train: the data frame is in the radio. -/
structure Sent (st : Station Addr Frame) (frame : Frame) : Prop where
  handler : st.mac.timer.map Prod.snd = some .tx_data
  nic : st.radio.nic = some (.frame frame)
  pending : ∃ p b, st.mac.pending = .ok (p, b)

theorem timer_eq {handler : Handler} (h : st.mac.timer.map Prod.snd = some handler) (i : Inputs) :
    st.timer env i =
      { st with mac := { st.mac with timer := none } }.run env i handler := by
  obtain ⟨⟨time, handler'⟩, htimer, rfl⟩ := Option.map_eq_some_iff.mp h
  rw [timer, htimer]

/-- A microframe with a count that is not zero is followed by the next one. -/
theorem Loaded.tx_mf {k : Nat} (hk : k + 1 < 2048) (h : Loaded st .tx_mf f (k + 1) p b)
    (i : Inputs) :
    ∃ st', st.timer env i = .ok st' ∧ Loaded st' .tx_mf f k p b ∧
      st'.radio.air = st.radio.air ++ [.microframe st.mac.mf] := by
  have hcount : st.mac.mf.dec_count.1 > 0 := by
    have heq : st.mac.mf.count = UInt16.ofNat (k + 1) :=
      congrArg Microframe.Fields.count h.fields
    rw [Microframe.dec_count, heq, gt_iff_lt, UInt16.lt_iff_toNat_lt,
      Microframe.toNat_ofNat_count hk]
    simp
  rw [timer_eq env h.handler]
  simp only [run, Station.tx_mf, State.tx_mf, if_pos hcount, Except.ok_bind]
  refine ⟨_, rfl, ⟨rfl, rfl, ?_, ?_⟩, ?_⟩
  · exact Microframe.fields_dec_count hk h.fields
  · exact h.pending
  · simp [Radio.copy_to_nic, Radio.transmit, h.nic]

/-- The microframe with the count zero is followed by the data. -/
theorem Loaded.last (h : Loaded st .tx_mf f 0 p b) (i : Inputs) :
    ∃ st' time, st.timer env i = .ok st' ∧ Sent st' (env.last_hop b.frame time) ∧
      st'.radio.air = st.radio.air ++ [.microframe st.mac.mf] := by
  have hcount : ¬ st.mac.mf.dec_count.1 > 0 := by
    have heq : st.mac.mf.count = UInt16.ofNat 0 := congrArg Microframe.Fields.count h.fields
    rw [Microframe.dec_count, heq]
    simp
  -- nothing that `_tx_pending` is read through has been changed before
  have hread : ∀ time mf, State.pending { st.mac with timer := none, mf_time := time, mf := mf } =
      .ok (p, b) := fun _ _ => h.pending
  generalize htime : st.mac.mf_time + env.us2count
    (env.TIME_BETWEEN_MICROFRAMES + env.MICROFRAME_TIME).toUInt64 +
      env.us2count (env.TX_DELAY + env.Tu).toUInt64 = time
  have hmac : ∃ mac, State.tx_mf env { st.mac with timer := none } = .ok mac ∧
      mac.timer.map Prod.snd = some .tx_data ∧
      mac.pending = .ok (p, { b with frame := env.last_hop b.frame time }) := by
    simp only [State.tx_mf, if_neg hcount, State.copyPending, hread, Except.ok_bind, State.nextMfTime,
      htime]
    refine ⟨_, rfl, rfl, ?_⟩
    exact State.pending_write h.pending rfl rfl rfl
  obtain ⟨mac, htx, hhandler, hpending⟩ := hmac
  rw [timer_eq env h.handler]
  simp only [run, Station.tx_mf, htx, Except.ok_bind, if_neg hcount, hpending]
  refine ⟨_, time, rfl, ⟨hhandler, rfl, p, _, hpending⟩, ?_⟩
  simp [Radio.copy_to_nic, Radio.transmit, h.nic]

/-- The data frame is put on the air. -/
theorem Sent.step {frame : Frame} (h : Sent st frame) (i : Inputs) :
    ∃ st', st.timer env i = .ok st' ∧ st'.radio.air = st.radio.air ++ [.frame frame] := by
  obtain ⟨p, b, hpending⟩ := h.pending
  obtain ⟨hp, -, -⟩ := State.of_pending hpending
  have hsome : st.mac.tx_pending.isSome = true := by rw [hp]; rfl
  have hread : State.pending { st.mac with timer := none } = .ok (p, b) := hpending
  have hmac : ∃ mac, State.tx_data env { st.mac with timer := none } i = .ok mac := by
    simp only [State.tx_data, hsome, if_true, hread, Except.ok_bind]
    split <;> exact ⟨_, rfl⟩
  obtain ⟨mac, htx⟩ := hmac
  rw [timer_eq env h.handler]
  simp only [run, tx_data, htx, Except.ok_bind, hsome, if_true]
  exact ⟨_, rfl, by simp [Radio.transmit, h.nic]⟩

/-- From a microframe in the radio on, the train goes down to zero. -/
theorem Loaded.interrupts {k : Nat} (hk : k < 2048) (h : Loaded st .tx_mf f k p b)
    (is : List Inputs) (his : is.length = k + 1) :
    ∃ st' time, ∃ train : List Microframe, Station.interrupts env is st = .ok st' ∧
      Sent st' (env.last_hop b.frame time) ∧
      st'.radio.air = st.radio.air ++ train.map .microframe ∧
      train.map Microframe.fields = Microframe.countdown f (k + 1) := by
  induction k generalizing st is with
  | zero =>
    match is, his with
    | [i], _ =>
      obtain ⟨st', time, hst', hsent, hair⟩ := h.last env i
      refine ⟨st', time, [st.mac.mf], ?_, hsent, hair, ?_⟩
      · simp only [Station.interrupts, hst', Except.ok_bind]
      · simp [Microframe.countdown_succ, h.fields]
  | succ k ih =>
    match is, his with
    | i :: is, his =>
      -- one microframe, and those behind it by induction
      obtain ⟨st₁, hst₁, hloaded, hair₁⟩ := h.tx_mf env (by omega) i
      have hlen : is.length = k + 1 := by simpa using his
      obtain ⟨st', time, train, hst', hsent, hair, htrain⟩ := ih (by omega) hloaded is hlen
      refine ⟨st', time, st.mac.mf :: train, ?_, hsent, ?_, ?_⟩
      · simp only [Station.interrupts, hst₁, Except.ok_bind, hst']
      · simp [hair, hair₁]
      · simp [Microframe.countdown_succ f (k + 1), h.fields, htrain]

/-! ## The first microframe -/

/-- The fields that `update_tx_schedule` gives to the train of a message. -/
def trainFields (b : Buffer Frame) : Microframe.Fields where
  all_listen := (!b.destined_to_me && b.downlink) ||
    (env.type b.frame = CONTROL && env.subtype b.frame = MODEL)
  id := b.id.toUInt16 &&& 0x0fff
  count := 0
  hint := b.hint

/-- `cca()` on a free channel. -/
theorem Loaded.cca {k : Nat} (hk : k + 1 < 2048) (h : Loaded st .cca f (k + 1) p b) {i : Inputs}
    (hcca : i.cca = true) (htransmit : i.transmit = true) :
    ∃ st', st.timer env i = .ok st' ∧ Loaded st' .tx_mf f k p b ∧
      st'.radio.air = st.radio.air ++ [.microframe st.mac.mf] := by
  rw [timer_eq env h.handler]
  simp only [run, Station.cca, State.cca, hcca, htransmit, Bool.and_self, if_true]
  refine ⟨_, rfl, ⟨rfl, rfl, ?_, ?_⟩, ?_⟩
  · exact Microframe.fields_dec_count hk h.fields
  · exact h.pending
  · simp [Radio.copy_to_nic, Radio.transmit, h.nic]

theorem fields_first {n : UInt32} (hpos : 1 ≤ n.toNat) (hn : n.toNat ≤ 2048) (listen : Bool)
    (id : UInt16) (hint : UInt32) :
    (Microframe.new listen id (n - 1).toUInt16 hint).fields =
      { all_listen := listen, id := id &&& 0x0fff, count := UInt16.ofNat (n.toNat - 1), hint } := by
  have hcount : (n - 1).toUInt16 &&& 0x07ff = UInt16.ofNat (n.toNat - 1) := by
    have hle : (1 : UInt32) ≤ n := by simpa [UInt32.le_iff_toNat_le] using hpos
    apply UInt16.toNat_inj.mp
    rw [UInt16.toNat_and, Microframe.toNat_ofNat_count (by omega), UInt32.toNat_toUInt16,
      UInt32.toNat_sub_of_le _ _ hle]
    have hsmall : (n.toNat - 1) % 65536 = n.toNat - 1 := by omega
    simp only [UInt32.reduceToNat, UInt16.reduceToNat, Nat.reducePow, hsmall]
    exact Nat.and_two_pow_sub_one_of_lt_two_pow (n := 11) (by omega)
  rw [Microframe.fields_new, hcount]

/-- A message that has been chosen goes to the contention with the first microframe of it. -/
theorem contend_loaded (hpos : 1 ≤ env.N_MICROFRAMES.toNat) (hn : env.N_MICROFRAMES.toNat ≤ 2048)
    {s s' : State Addr Frame} {i : Inputs} (h : s.contend env i = .ok s') :
    ∃ p b, s'.pending = .ok (p, b) ∧ s'.timer.map Prod.snd = some .cca ∧
      s'.mf.fields =
        { trainFields env b with count := UInt16.ofNat (env.N_MICROFRAMES.toNat - 1) } := by
  rw [State.contend] at h
  obtain ⟨⟨p, b⟩, hpending, h⟩ := Except.of_bind_ok h
  -- the contention changes nothing that the microframe is made of
  generalize hbackoff : State.backoff env b i.random = contention at h
  obtain ⟨offset, random_backoff_exponent⟩ := contention
  simp only [hbackoff, Except.ok.injEq] at h
  subst h
  refine ⟨p, { b with random_backoff_exponent }, ?_, rfl, fields_first hpos hn _ _ _⟩
  exact State.pending_write hpending rfl rfl rfl

/-- `update_tx_schedule` leaves the first microframe of a chosen message in the radio. -/
theorem update_tx_schedule_loaded (hpos : 1 ≤ env.N_MICROFRAMES.toNat)
    (hn : env.N_MICROFRAMES.toNat ≤ 2048) {st' : Station Addr Frame} {i : Inputs}
    (h : st.update_tx_schedule env i = .ok st') (hchosen : st'.mac.tx_pending.isSome) :
    ∃ p b, Loaded st' .cca (trainFields env b) (env.N_MICROFRAMES.toNat - 1) p b ∧
      st'.radio.air = st.radio.air := by
  rw [Station.update_tx_schedule] at h
  obtain ⟨mac, hmac, h⟩ := Except.of_bind_ok h
  rw [State.update_tx_schedule] at hmac
  obtain ⟨s₁, hchoose, hmac⟩ := Except.of_bind_ok hmac
  by_cases hsome : s₁.tx_pending.isSome = true
  · rw [if_pos hsome] at hmac
    obtain ⟨p, b, hpending, hhandler, hfields⟩ := contend_loaded env hpos hn hmac
    have hpend : mac.tx_pending.isSome = true := by
      rw [(State.of_pending hpending).1]
      rfl
    rw [if_pos hpend] at h
    cases h
    exact ⟨p, b, ⟨hhandler, rfl, hfields, hpending⟩, rfl⟩
  · -- without a message the node goes to sleep
    rw [if_neg hsome] at hmac
    cases hmac
    rw [if_neg (by exact hsome)] at h
    cases h
    exact absurd hchosen hsome

/-- From `update_tx_schedule` to the data frame: where the channel is free, the microframes on the
    air are the train of the message, down to the count zero, and the next interrupt transmits the
    data. -/
theorem microframe_train (hpos : 2 ≤ env.N_MICROFRAMES.toNat) (hn : env.N_MICROFRAMES.toNat ≤ 2048)
    (st : Station Addr Frame) {st₁ : Station Addr Frame} {i j : Inputs}
    (h : st.update_tx_schedule env i = .ok st₁) (hchosen : st₁.mac.tx_pending.isSome)
    (hcca : j.cca = true) (htransmit : j.transmit = true) (is : List Inputs)
    (his : is.length + 1 = env.N_MICROFRAMES.toNat) :
    ∃ p b st₂ time, ∃ train : List Microframe,
      st₁.mac.pending = .ok (p, b) ∧ interrupts env (j :: is) st₁ = .ok st₂ ∧
      st₂.radio.air = st.radio.air ++ train.map .microframe ∧
      train.map Microframe.fields =
        Microframe.countdown (trainFields env b) env.N_MICROFRAMES.toNat ∧
      ∀ l, ∃ st₃, st₂.timer env l = .ok st₃ ∧
        st₃.radio.air = st₂.radio.air ++ [.frame (env.last_hop b.frame time)] := by
  -- the chosen frame is loaded, the channel is free, and each interrupt sends one microframe
  obtain ⟨p, b, hloaded, hair⟩ := update_tx_schedule_loaded env (by omega) hn h hchosen
  obtain ⟨k, hk⟩ : ∃ k, env.N_MICROFRAMES.toNat = k + 2 := ⟨env.N_MICROFRAMES.toNat - 2, by omega⟩
  have hlast : env.N_MICROFRAMES.toNat - 1 = k + 1 := by omega
  rw [hlast] at hloaded
  obtain ⟨st', hst', hsending, hair'⟩ := hloaded.cca env (by omega) hcca htransmit
  obtain ⟨st₂, time, train, hst₂, hsent, hair₂, htrain⟩ :=
    hsending.interrupts env (by omega) is (by omega)
  refine ⟨p, b, st₂, time, st₁.mac.mf :: train, hloaded.pending, ?_, ?_, ?_, ?_⟩
  · simp only [interrupts, hst', Except.ok_bind, hst₂]
  · simp [hair₂, hair', hair]
  · rw [hk, Microframe.countdown_succ]
    simp [hloaded.fields, htrain]
  · -- the interrupt behind the train sends the frame itself
    intro l
    exact hsent.step env l

/-- A message waits to be transmitted, and the radio is empty. -/
def waiting : Station Nat Unit where
  mac :=
    { tx_schedule := [0]
      buffers := fun a =>
        if a = 0 then some { frame := (), id := 7, hint := 9, downlink := true, deadline := 1000 }
        else none }
  radio := {}

/-- Three microframes, with the counts 2, 1 and 0. -/
theorem microframe_train_example :
    ∃ st₁ st₂, ∃ train : List Microframe,
      waiting.update_tx_schedule shortEnv {} = .ok st₁ ∧
      interrupts shortEnv [{}, {}, {}] st₁ = .ok st₂ ∧
      st₂.radio.air = train.map .microframe ∧
      train.map Microframe.fields =
        [{ all_listen := true, id := 7, count := 2, hint := 9 },
          { all_listen := true, id := 7, count := 1, hint := 9 },
          { all_listen := true, id := 7, count := 0, hint := 9 }] := by
  obtain ⟨st₁, h⟩ : ∃ st₁, waiting.update_tx_schedule shortEnv {} = .ok st₁ := ⟨_, rfl⟩
  -- the only message is chosen
  have hchosen : (waiting.update_tx_schedule shortEnv {}).map (·.mac.tx_pending) = .ok (some 0) :=
    rfl
  -- and these are the fields that its microframes start from
  have hfields : (waiting.update_tx_schedule shortEnv {}).map
      (·.mac.pending.map fun q => trainFields shortEnv q.2) =
        .ok (.ok { all_listen := true, id := 7, count := 0, hint := 9 }) := rfl
  rw [h] at hchosen hfields
  have hsome : st₁.mac.tx_pending.isSome := by
    have hzero : st₁.mac.tx_pending = some 0 := Except.ok.inj hchosen
    rw [hzero]
    rfl
  obtain ⟨p, b, st₂, time, train, hpending, hst₂, hair, htrain, -⟩ :=
    microframe_train shortEnv (by decide) (by decide) waiting h hsome (j := {}) rfl rfl [{}, {}] rfl
  refine ⟨st₁, st₂, train, h, hst₂, hair, ?_⟩
  have heq : st₁.mac.pending.map (fun q => trainFields shortEnv q.2) =
      .ok { all_listen := true, id := 7, count := 0, hint := 9 } := Except.ok.inj hfields
  rw [hpending] at heq
  have hfields₀ : trainFields shortEnv b = { all_listen := true, id := 7, count := 0, hint := 9 } :=
    Except.ok.inj heq
  rw [htrain, hfields₀]
  rfl

end Station

end TSTP.MAC

end Epos
