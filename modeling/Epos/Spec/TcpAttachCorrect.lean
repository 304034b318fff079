import Epos.Network.TcpAttach
import Epos.Spec.ObserverCorrect
import Epos.Spec.TcpCorrect

/-!
# Deleted connections

`attach` deletes a connection that is not established and leaves it in `_observed`. `detach`
deletes first and then removes the link, which is a part of what has been deleted; the removal
does not read it only where it is the last one. `close()` in the destructor sets an alarm, and
the end of its wait does not take it back.
-/

namespace Epos

namespace TCP

open TCP.Flags

/-! ## The identifier of a connection -/

namespace Connection

/-- What an identifier is made of. -/
def ends (c : Connection) : Port × Port × IP.Address := (c.fromPort, c.toPort, c.peer)

variable {c r : Connection} {g : Received} {invalidate : Bool} {body : Connection → Connection}

/-- The key only depends on the ends of the connection. -/
theorem key_eq_of_ends (h : r.ends = c.ends) : r.key = c.key := by
  obtain ⟨hfrom, hrest⟩ := Prod.mk.inj h
  obtain ⟨hto, hpeer⟩ := Prod.mk.inj hrest
  unfold key id
  rw [hfrom, hto, hpeer]

/-- Sending leaves the ends alone. -/
@[simp] theorem ends_fsend (c : Connection) (ok : Bool) (flags : Flags) :
    (c.fsend ok flags).ends = c.ends := rfl

/-- A change of the state leaves the ends alone. -/
@[simp] theorem ends_setState (c : Connection) (s : State) : (c.setState s).ends = c.ends := rfl

/-- Signalling leaves the ends alone. -/
@[simp] theorem ends_signal (c : Connection) : c.signal.ends = c.ends := rfl

/-- The timer leaves the ends alone. -/
@[simp] theorem ends_setTimeout (c : Connection) : c.setTimeout.ends = c.ends := rfl

/-- A FIN leaves the ends alone. -/
@[simp] theorem ends_processFin (c : Connection) (ok : Bool) (g : Received) :
    (c.processFin ok g).ends = c.ends := rfl

/-- Acknowledging data leaves the ends alone. -/
@[simp] theorem ends_acknowledgeData (c : Connection) (ok : Bool) :
    (c.acknowledgeData ok).ends = c.ends := by
  unfold acknowledgeData
  split <;> rfl

/-- A segment in sequence leaves the ends alone. -/
theorem ends_inSequence (ok : Bool) (hbody : (body { c with valid := true }).ends = c.ends) :
    (c.inSequence ok invalidate g body).ends = c.ends := by
  cases hcheck : c.checkSequence g with
  | false =>
    rw [inSequence_invalid ok hcheck]
    split <;> rfl
  | true =>
    cases hrst : g.has RST with
    | true =>
      rw [inSequence_reset ok hcheck hrst]
      rfl
    | false =>
      cases hsyn : g.has SYN with
      | true =>
        rw [inSequence_syn ok hcheck hrst hsyn]
        rfl
      | false =>
        rw [inSequence_body ok hcheck hrst hsyn]
        exact hbody

/-- `listening()` writes the port that `update` has written before. -/
theorem ends_listening (ok : Bool) (hport : c.toPort = g.fromPort) :
    (c.listening ok g).ends = c.ends := by
  unfold listening ends
  rw [← hport]
  repeat' split
  all_goals rfl

/-- The answer to a SYN leaves the ends alone. -/
theorem ends_synSent (ok : Bool) : (c.synSent ok g).ends = c.ends := by
  unfold synSent
  dsimp only
  repeat' split
  all_goals rfl

/-- The handlers leave the ends alone once the port of the peer is known. -/
theorem ends_handler (ok : Bool) (hport : c.state = .LISTENING → c.toPort = g.fromPort) :
    (c.handler ok g).ends = c.ends := by
  unfold handler
  -- LISTENING takes the peer, every other state keeps both ends
  cases hstate : c.state with
  | LISTENING => exact ends_listening ok (hport hstate)
  | SYN_SENT => exact ends_synSent ok
  | CLOSED => rfl
  | FIN_WAIT1 =>
    apply ends_inSequence ok
    dsimp only
    repeat' split
    all_goals
      first
      | rfl
      | simp only [ends_setState, ends_setTimeout, ends_processFin, ends_acknowledgeData]
        rfl
  | _ =>
    apply ends_inSequence ok
    repeat' split
    all_goals
      first
      | rfl
      | simp only [ends_setState, ends_signal, ends_setTimeout, ends_processFin,
          ends_acknowledgeData]
        rfl

/-- `update()` leaves the ends as the arrival of the segment set them. -/
theorem ends_update (ok : Bool) (c : Connection) (g : Received) :
    (c.update ok g).ends = (c.arrive g).ends := by
  by_cases hearly : c.Early g
  · rw [update_early ok hearly]
  · by_cases hnext : c.next < g.acknowledgment
    · rw [update_beyond ok hearly hnext]
      rfl
    · obtain ⟨relevant, hupdate⟩ := update_handled ok hearly hnext
      obtain ⟨streamSignal, hfinish⟩ := finish_eq ((c.opened g).handler ok g) c.state relevant g
      have hopened : (c.opened g).ends = (c.arrive g).ends := by
        unfold opened
        rw [slide_eq]
        rfl
      have hport : (c.opened g).state = .LISTENING → (c.opened g).toPort = g.fromPort := by
        unfold opened
        rw [slide_eq]
        unfold arrive
        dsimp only
        split
        · exact fun _ => rfl
        · rename_i hno
          exact fun h => absurd h hno
      rw [hupdate, hfinish]
      exact (ends_handler ok hport).trans hopened

/-- A connection that does not listen keeps its ends. -/
theorem ends_arrive (h : c.state ≠ .LISTENING) : (c.arrive g).ends = c.ends := by
  unfold arrive
  dsimp only
  rw [if_neg h]
  rfl

/-- A timeout leaves the ends alone. -/
theorem ends_timeout (c : Connection) (ok : Bool) : (c.timeout ok).ends = c.ends := by
  unfold timeout
  dsimp only
  repeat' split
  all_goals rfl

/-- `close()` leaves the ends alone. -/
theorem ends_close (c : Connection) (ok : Bool) : (c.close ok).1.ends = c.ends := by
  unfold close
  repeat' split
  all_goals rfl

/-- The destructor leaves the ends alone. -/
theorem ends_destroy (c : Connection) (ok : Bool) : (c.destroy ok).ends = c.ends :=
  ends_close { c with alarm := false } ok

end Connection

/-! ## What is right -/

namespace Channel

variable {α : Type*} [DecidableEq α] {σ : Channel α} {o : α} {c : Connection}

/-- The live connections as what is attached. -/
def view (σ : Channel α) : Observation α where
  observers := σ.observed
  attached := σ.live.map fun o => (o, (σ.conn o).key)

/-- The live connections and no others are registered, each under its identifier, and no
    alarm is for a deleted one. -/
structure Clean (σ : Channel α) : Prop where
  exact : σ.view.Exact .conditional
  alarms : ∀ o, (σ.conn o).alarm = true → o ∈ σ.live

/-- No link of a deleted connection is read. -/
def Spares (σ : Channel α) (a : Action α) : Prop := ∀ x ∈ σ.reads a, x ∈ (σ.step a).live

/-- A connection is deleted by `detach` alone, as the only one there is, and without an
    alarm. -/
def Settled (σ : Channel α) : Action α → Prop
  | .delete o _ _ => σ.call o = some .detaching ∧ σ.live = [o] ∧ (σ.conn o).alarm = false
  | _ => True

instance (σ : Channel α) : (a : Action α) → Decidable (σ.Settled a)
  | .delete .. => inferInstanceAs (Decidable (_ ∧ _ ∧ _))
  | .attach .. | .segment .. | .alarm .. | .other .. | .test .. | .detach .. => isTrue trivial

/-- The list in `_observed` is that of the live connections. -/
structure Inv (σ : Channel α) : Prop where
  listed : σ.view.Listed .conditional
  nodup : σ.live.Nodup
  alarms : ∀ o, (σ.conn o).alarm = true → o ∈ σ.live

omit [DecidableEq α] in
/-- The invariant gives what is claimed of every state. -/
theorem Inv.clean (h : σ.Inv) : σ.Clean := ⟨h.listed.exact, h.alarms⟩

omit [DecidableEq α] in
/-- The order of the observers does not matter. -/
theorem listed_of_perm {σ τ : Observation α} {k : ObservedClass} (h : σ.Listed k)
    (ho : τ.observers = σ.observers) (hperm : τ.attached.Perm σ.attached) : τ.Listed k := by
  obtain ⟨q, l, hq, hl, hattached⟩ := h
  exact ⟨q, l, ho.trans hq, hl, hperm.trans hattached⟩

omit [DecidableEq α] in
/-- The observers are the live connections. -/
theorem view_fst (σ : Channel α) : σ.view.attached.map Prod.fst = σ.live := by
  unfold view
  rw [List.map_map]
  exact List.map_id _

/-- What is registered under the identifiers after a connection has changed. -/
theorem map_key_update (hkey : c.key = (σ.conn o).key) :
    (σ.live.map fun x => (x, (Function.update σ.conn o c x).key)) = σ.view.attached := by
  refine List.map_congr_left fun x _ => ?_
  by_cases hx : x = o
  · rw [hx, Function.update_self, hkey]
  · rw [Function.update_of_ne hx]

/-- A change of one connection keeps the keys of the others. -/
theorem map_key_other {live : List α} (ho : o ∉ live) (c : Connection) :
    (live.map fun x => (x, (Function.update σ.conn o c x).key)) =
      live.map fun x => (x, (σ.conn x).key) :=
  List.map_congr_left fun x hx => by rw [Function.update_of_ne (ne_of_mem_of_not_mem hx ho)]

/-- The alarms are those of live connections. -/
theorem alarms_update (h : σ.Inv) (ho : o ∈ σ.live) (c : Connection) (x : α)
    (hx : (Function.update σ.conn o c x).alarm = true) : x ∈ σ.live := by
  by_cases heq : x = o
  · exact heq ▸ ho
  · rw [Function.update_of_ne heq] at hx
    exact h.alarms x hx

/-! ## Steps that delete nothing -/

/-- A change of a live connection that keeps its identifier. -/
theorem Inv.update (h : σ.Inv) (ho : o ∈ σ.live) (hkey : c.key = (σ.conn o).key)
    (call : α → Option Call) :
    Inv { σ with conn := Function.update σ.conn o c, call := call } where
  listed := listed_of_perm h.listed rfl (by
    show (List.map _ _).Perm _
    rw [map_key_update hkey])
  nodup := h.nodup
  alarms := alarms_update h ho c

/-- Attaching one that is not attached puts it in front of the attached ones. -/
theorem listed_attach {τ : Observation α} (h : τ.Listed .conditional)
    (ho : o ∉ τ.attached.map Prod.fst) (key : Int) :
    (⟨τ.observers.bind (ObservedClass.conditional.attach · o key), (o, key) :: τ.attached⟩ :
      Observation α).Listed .conditional := by
  have hfresh : (o, key) ∉ τ.attached := fun hmem => ho (List.mem_map.mpr ⟨_, hmem, rfl⟩)
  refine listed_of_perm (h.attach ho key) rfl ?_
  have hinsert := List.insert_of_not_mem hfresh
  rw [← hinsert]
  exact .refl _

/-- Without the link of `o`, the others are registered. -/
theorem Inv.listed_detach (h : σ.Inv) (ho : o ∈ σ.live) :
    (⟨σ.observed.bind (·.detach o), (σ.live.erase o).map fun x => (x, (σ.conn x).key)⟩ :
      Observation α).Listed .conditional := by
  have hmem : (o, (σ.conn o).key) ∈ σ.view.attached := List.mem_map.mpr ⟨o, ho, rfl⟩
  have hinj : Function.Injective fun x => (x, (σ.conn x).key) :=
    fun _ _ heq => (Prod.mk.inj heq).1
  have herase := List.map_erase hinj σ.live (a := o)
  refine listed_of_perm (h.listed.detach hmem) rfl ?_
  rw [herase]
  exact .refl _

/-- A new connection keeps the invariant. -/
theorem Inv.attach (h : σ.Inv) (ho : o ∉ σ.live) (fromPort toPort : Port) (peer : IP.Address)
    (n : Nat) : (σ.step (.attach o fromPort toPort peer n)).Inv := by
  have hnew : o ∉ σ.view.attached.map Prod.fst := by rwa [view_fst]
  have hlisted := listed_attach h.listed hnew (Connection.create fromPort toPort peer n).key
  refine ⟨listed_of_perm hlisted rfl ?_, List.nodup_cons.mpr ⟨ho, h.nodup⟩, fun x hx => ?_⟩
  · show ((o :: σ.live).map fun x => (x, (Function.update σ.conn o _ x).key)).Perm _
    rw [List.map_cons, Function.update_self, map_key_other ho]
    exact .refl _
  · -- the alarm of a new connection is not set
    by_cases heq : x = o
    · exact List.mem_cons.mpr (.inl heq)
    · have hx' : (Function.update σ.conn o _ x).alarm = true := hx
      rw [Function.update_of_ne heq] at hx'
      exact List.mem_cons_of_mem o (h.alarms x hx')

/-- A listening connection is taken from the list and comes back under its new identifier. -/
theorem listed_register (h : σ.Inv) (ho : o ∈ σ.live) (g : Received)
    (hkey : c.key = ((σ.conn o).arrive g).key) :
    (⟨σ.register o g, σ.live.map fun x => (x, (Function.update σ.conn o c x).key)⟩ :
      Observation α).Listed .conditional := by
  unfold register
  dsimp only
  by_cases hlistening : (σ.conn o).state = .LISTENING
  · rw [if_pos hlistening]
    have ho' : o ∉ σ.live.erase o := h.nodup.not_mem_erase
    have hnew : o ∉ ((σ.live.erase o).map fun x => (x, (σ.conn x).key)).map Prod.fst := by
      rw [List.map_map]
      intro hin
      obtain ⟨x, hx, rfl⟩ := List.mem_map.mp hin
      exact ho' hx
    refine listed_of_perm (listed_attach (h.listed_detach ho) hnew c.key) (by rw [hkey]) ?_
    -- the others keep their identifiers
    have hperm := (List.perm_cons_erase ho).map fun x => (x, (Function.update σ.conn o c x).key)
    rw [List.map_cons, Function.update_self, map_key_other ho'] at hperm
    exact hperm
  · rw [if_neg hlistening]
    have hsame := Connection.key_eq_of_ends (Connection.ends_arrive (g := g) hlistening)
    rw [map_key_update (hkey.trans hsame)]
    exact h.listed

/-- A segment keeps the invariant. -/
theorem Inv.segment (h : σ.Inv) (ho : o ∈ σ.live) (ok : Bool) (g : Received) :
    (σ.step (.segment o ok g)).Inv where
  listed := listed_register h ho g
    (Connection.key_eq_of_ends (Connection.ends_update ok (σ.conn o) g))
  nodup := h.nodup
  alarms := alarms_update h ho _

/-- A step that deletes nothing keeps the list. -/
theorem Inv.step {a : Action α} (h : σ.Inv) (ha : (channel α).Enabled σ a)
    (hdelete : ∀ o next rank, a ≠ .delete o next rank) : (σ.step a).Inv := by
  cases a with
  | attach o fromPort toPort peer n => exact h.attach ha fromPort toPort peer n
  | segment o ok g => exact h.segment ha ok g
  | alarm o ok =>
    exact h.update (h.alarms o ha)
      (Connection.key_eq_of_ends (Connection.ends_timeout (σ.conn o) ok)) σ.call
  -- what else happens to a connection changes no end of it
  | other o c =>
    have hends : ({ c with
        fromPort := (σ.conn o).fromPort
        toPort := (σ.conn o).toPort
        peer := (σ.conn o).peer } : Connection).ends = (σ.conn o).ends := rfl
    exact h.update ha (Connection.key_eq_of_ends hends) σ.call
  | test o ok =>
    unfold Channel.step
    by_cases hstate : (σ.conn o).state = .ESTABLISHED
    · simp only [if_pos hstate]
      exact ⟨h.listed, h.nodup, h.alarms⟩
    · simp only [if_neg hstate]
      exact h.update ha.1 (Connection.key_eq_of_ends (Connection.ends_destroy (σ.conn o) ok)) _
  | detach o ok =>
    exact h.update ha.1 (Connection.key_eq_of_ends
      (Connection.ends_destroy { σ.conn o with observer := false } ok)) _
  | delete o next rank => exact absurd rfl (hdelete o next rank)

omit [DecidableEq α] in
/-- The list of observers holds the live connections. -/
theorem Inv.represents (h : σ.Inv) :
    ∃ q l, σ.observed = some q ∧ q.Represents l ∧ l.Perm σ.live := by
  obtain ⟨q, l, hq, hl, hattached⟩ := h.listed
  have hfst := hattached.map Prod.fst
  have hid : (l.map fun o => (o, ObservedClass.conditional.conditionOf q o)).map Prod.fst = l := by
    rw [List.map_map]
    exact List.map_id l
  rw [view_fst, hid] at hfst
  exact ⟨q, l, hq, hl, hfst.symm⟩

/-- Without a deletion, what is live stays so. -/
theorem mem_live_step {a : Action α} (hdelete : ∀ o next rank, a ≠ .delete o next rank) {x : α}
    (hx : x ∈ σ.live) : x ∈ (σ.step a).live := by
  cases a with
  | attach o _ _ _ _ => exact List.mem_cons_of_mem o hx
  | test o ok =>
    unfold Channel.step
    by_cases hstate : (σ.conn o).state = .ESTABLISHED
    · simp only [if_pos hstate]
      exact hx
    · simp only [if_neg hstate]
      exact hx
  | delete o next rank => exact absurd rfl (hdelete o next rank)
  | _ => exact hx

/-- The whole list is live. -/
theorem Inv.spares {a : Action α} (h : σ.Inv)
    (hdelete : ∀ o next rank, a ≠ .delete o next rank) : σ.Spares a := by
  obtain ⟨q, l, hq, hl, hlive⟩ := h.represents
  have hvisit := ObservedClass.visit_eq hl.chained hl.length_le_findFuel
  have hhead : q.header.head = l.head? := hl.head
  rw [← hhead] at hvisit
  have hreads : σ.reads a = l := by
    unfold reads
    split
    · exact absurd rfl (hdelete _ _ _)
    · rw [hq, Option.elim_some, hvisit, Option.getD_some]
  intro x hx
  rw [hreads] at hx
  exact mem_live_step hdelete (hlive.mem_iff.mp hx)

/-! ## Deletion -/

section

variable {next : Option α} {rank : Int}

/-- Where the list is longer than one, `_observed.detach` reads the link of `o`. -/
theorem mem_removeReads {q : SimpleList α} {x : α} (hlast : q.last = false)
    (hhead : q.header.head = some x) : o ∈ removeReads q o := by
  unfold removeReads
  rw [hlast, hhead]
  dsimp only
  rw [if_neg Bool.false_ne_true]
  split
  · exact List.mem_singleton_self o
  · exact List.mem_append_right _ (List.mem_singleton_self o)

/-- `attach` leaves a deleted connection in the list. -/
theorem not_clean_refused (h : σ.Inv) (ho : o ∈ σ.live) (hcall : σ.call o ≠ some .detaching) :
    ¬(σ.step (.delete o next rank)).Clean := by
  intro hclean
  obtain ⟨q, l, hq, hl, hlive⟩ := h.represents
  have hsize := hclean.exact.observers
  have hobservers : (σ.step (.delete o next rank)).view.observers.map (·.header.size) =
      some q.header.size := by
    show (if σ.call o = some .detaching then _ else σ.overwritten o next rank).map _ = _
    rw [if_neg hcall, overwritten, hq]
    rfl
  have hcount : (σ.step (.delete o next rank)).view.attached.length = σ.live.length - 1 := by
    show (List.map _ (σ.live.erase o)).length = _
    rw [List.length_map, List.length_erase_of_mem ho]
  -- the size still counts `o`, the live ones do not
  have hheader : q.header.size = l.length := hl.size
  have hpos := List.length_pos_of_mem ho
  rw [hobservers, hcount, hheader, hlive.length_eq, Option.some.injEq] at hsize
  omega

/-- The last observer leaves an empty list. -/
theorem detach_last {q : SimpleOrderedList α} (hlast : q.last = true) :
    q.detach o = some { q with header := ⟨q.header.size - 1, none, none⟩ } := by
  unfold SimpleOrderedList.detach SimpleOrderedList.remove SimpleList.remove
    SimpleList.removeWithin
  rw [if_pos hlast]
  rfl

/-- The list of a single connection, with anything in its link. -/
theorem Inv.overwritten_of_alone (h : σ.Inv) (halone : σ.live = [o]) (next : Option α)
    (rank : Int) :
    ∃ q, σ.overwritten o next rank = some q ∧ q.last = true ∧ q.header.size = 1 := by
  obtain ⟨q, l, hq, hl, hlive⟩ := h.represents
  have hsize : q.header.size = 1 := by
    have hheader : q.header.size = l.length := hl.size
    rw [hheader, hlive.length_eq, halone]
    rfl
  refine ⟨{ q with next := Function.update q.next o next, rank := Function.update q.rank o rank },
    ?_, ?_, hsize⟩
  · rw [overwritten, hq]
    rfl
  · show (q.header.size == 1) = true
    rw [hsize]
    rfl

/-- Deleting a settled connection keeps the invariant and spares the others. -/
theorem Inv.delete (h : σ.Inv) (hsettled : σ.Settled (.delete o next rank)) :
    (σ.step (.delete o next rank)).Inv ∧ σ.Spares (.delete o next rank) := by
  obtain ⟨hcall, halone, halarm⟩ := hsettled
  -- the object is the last one in the list, so detach() empties it
  obtain ⟨q, hq, hlast, hsize⟩ := h.overwritten_of_alone halone next rank
  have hlive : (σ.step (.delete o next rank)).live = [] := by
    show σ.live.erase o = []
    rw [halone, List.erase_cons_head]
  have hobserved : (σ.step (.delete o next rank)).observed =
      some { q with header := ⟨q.header.size - 1, none, none⟩ } := by
    show (if σ.call o = some .detaching then (σ.overwritten o next rank).bind (·.detach o)
      else _) = _
    rw [if_pos hcall, hq]
    exact detach_last hlast
  refine ⟨⟨⟨_, [], hobserved, ⟨?_, rfl, rfl, trivial⟩, ?_⟩, ?_, fun x hx => ?_⟩, fun x hx => ?_⟩
  · show q.header.size - 1 = _
    rw [hsize]
    rfl
  · show (List.map _ (σ.step (.delete o next rank)).live).Perm _
    rw [hlive]
    exact .refl _
  · rw [hlive]
    exact List.nodup_nil
  · have hmem := h.alarms x hx
    rw [halone, List.mem_singleton] at hmem
    obtain rfl := hmem
    have hset : (σ.conn x).alarm = true := hx
    rw [halarm] at hset
    exact nomatch hset
  · have hnone : σ.reads (.delete o next rank) = [] := by
      show (if σ.call o = some .detaching then _ else _) = _
      rw [if_pos hcall, hq, Option.elim_some, removeReads, if_pos hlast]
    rw [hnone] at hx
    exact absurd hx List.not_mem_nil

/-- A deletion that leaves everything clean was settled. -/
theorem settled_of_clean (h : σ.Inv) (ho : o ∈ σ.live)
    (hclean : (σ.step (.delete o next rank)).Clean) (hspares : σ.Spares (.delete o next rank)) :
    σ.Settled (.delete o next rank) := by
  have hgone : o ∉ (σ.step (.delete o next rank)).live := h.nodup.not_mem_erase
  have hcall : σ.call o = some .detaching :=
    of_not_not fun hno => not_clean_refused h ho hno hclean
  refine ⟨hcall, ?_, ?_⟩
  · obtain ⟨q, l, hq, hl, hlive⟩ := h.represents
    have hlast : q.last = true := by
      by_contra hno
      have hlast' := Bool.eq_false_iff.mpr hno
      -- the removal walks from the head of the list to `o`, and reads its link
      obtain ⟨x, xs, rfl⟩ := List.exists_cons_of_ne_nil
        (List.ne_nil_of_mem (hlive.mem_iff.mpr ho))
      have hhead : q.header.head = some x := hl.head
      have hreads : σ.reads (.delete o next rank) = removeReads
          { q.toSimpleList with next := Function.update q.next o next } o := by
        show (if σ.call o = some .detaching then (σ.overwritten o next rank).elim [] _ else _) = _
        rw [if_pos hcall, overwritten, hq]
        rfl
      exact hgone (hspares o (hreads ▸ mem_removeReads hlast' hhead))
    have hone : σ.live.length = 1 := by
      rw [hl.last_eq, beq_iff_eq, hlive.length_eq] at hlast
      exact hlast
    obtain ⟨x, hx⟩ := List.length_eq_one_iff.mp hone
    rw [hx, List.mem_singleton] at ho
    rw [hx, ho]
  · exact Bool.eq_false_iff.mpr fun halarm => hgone (hclean.alarms o halarm)

end

/-! ## Runs -/

/-- The invariant holds at the beginning. -/
theorem Inv.of_init (h : (channel α).Init σ) : σ.Inv := by
  obtain ⟨⟨next, rank, hobserved⟩, hlive, halarm⟩ := h
  refine ⟨⟨_, [], hobserved, ⟨rfl, rfl, rfl, trivial⟩, ?_⟩, ?_, fun o ho => ?_⟩
  · show (List.map _ σ.live).Perm _
    rw [hlive]
    exact .refl _
  · rw [hlive]
    exact List.nodup_nil
  · rw [halarm o] at ho
    exact nomatch ho

/-- In a step that keeps what is right, nothing is deleted or it is settled. -/
theorem Inv.step_iff {a : Action α} (h : σ.Inv) (ha : (channel α).Enabled σ a) :
    (σ.Settled a → (σ.step a).Inv) ∧ ((σ.step a).Clean ∧ σ.Spares a ↔ σ.Settled a) := by
  by_cases hdelete : ∃ o next rank, a = .delete o next rank
  · obtain ⟨o, next, rank, rfl⟩ := hdelete
    refine ⟨fun hsettled => (h.delete hsettled).1, fun hright => ?_, fun hsettled => ?_⟩
    · exact settled_of_clean h ha.1 hright.1 hright.2
    · obtain ⟨hinv, hspares⟩ := h.delete hsettled
      exact ⟨hinv.clean, hspares⟩
  · -- no other step is unsettled
    have hno : ∀ o next rank, a ≠ .delete o next rank :=
      fun o next rank heq => hdelete ⟨o, next, rank, heq⟩
    have hinv := h.step ha hno
    have hsettled : σ.Settled a := by
      cases a with
      | delete o next rank => exact absurd rfl (hno o next rank)
      | _ => trivial
    exact ⟨fun _ => hinv, iff_of_true ⟨hinv.clean, h.spares hno⟩ hsettled⟩

end Channel

open Channel

/-- No connections yet. -/
def unattached : Channel Nat where
  observed := some { next := fun _ => none, header := {}, rank := fun _ => 0 }
  conn _ := Connection.create 0 0 Address.null 0

/-- No connection at the beginning. -/
theorem unattached_init : (channel Nat).Init unattached := ⟨⟨_, _, rfl⟩, rfl, fun _ => rfl⟩

/-- A connection that its peer accepts and then does not answer. -/
def acceptedOnce : List (Channel.Action Nat) :=
  let c := (Connection.create 1024 80 Address.null 1000).connect true
  [.attach 1 1024 80 Address.null 1000, .other 1 c,
    .segment 1 true ⟨Address.null, 80, 1024, 5000, 1001, SYN ||| ACK, 4096, 0, []⟩,
    .test 1 true, .detach 1 true, .alarm 1 true, .alarm 1 true, .alarm 1 true, .alarm 1 true,
    .delete 1 (some 7) 3]

instance (σ : Channel Nat) : (a : Channel.Action Nat) → Decidable ((channel Nat).Enabled σ a)
  | .attach o .. => inferInstanceAs (Decidable (o ∉ σ.live))
  | .segment o .. | .other o _ => inferInstanceAs (Decidable (o ∈ σ.live))
  | .alarm o _ => inferInstanceAs (Decidable ((σ.conn o).alarm = true))
  | .test .. | .detach .. => inferInstanceAs (Decidable (_ ∧ _))
  | .delete .. => inferInstanceAs (Decidable (_ ∧ (_ ∨ _)))

/-- A connection that is refused. -/
def refusedOnce : List (Channel.Action Nat) :=
  [.attach 1 1024 80 Address.null 1000,
    .other 1 ((Connection.create 1024 80 Address.null 1000).connect true),
    .other 1 (Connection.create 1024 80 Address.null 1000), .test 1 true, .delete 1 none 0]

end TCP

end Epos
