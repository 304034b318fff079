import Mathlib.Data.List.Perm.Basic

/-!
# Selection in one pass

One pass over a list that keeps one element, which the next one may replace. Whether an element
takes the place of another need not be an order, and then the result may depend on the order of
the list. Nothing here mentions what is selected.
-/

namespace Selection

variable {α : Type*}

/-- What is kept after one pass. -/
def pick (takes : α → α → Bool) : Option α → List α → Option α
  | p, [] => p
  | none, b :: rest => pick takes (some b) rest
  | some p, b :: rest => pick takes (some (if takes b p then b else p)) rest

variable {takes : α → α → Bool} {l l₁ l₂ : List α} {G : α → Prop} {g y : α}

@[simp] theorem pick_nil (p : Option α) : pick takes p [] = p := by cases p <;> rfl

theorem pick_none_cons (b : α) (rest : List α) :
    pick takes none (b :: rest) = pick takes (some b) rest := rfl

theorem pick_some_cons (p b : α) (rest : List α) :
    pick takes (some p) (b :: rest) = pick takes (some (if takes b p then b else p)) rest := rfl

theorem pick_append (p : Option α) (l₁ l₂ : List α) :
    pick takes p (l₁ ++ l₂) = pick takes (pick takes p l₁) l₂ := by
  induction l₁ generalizing p with
  | nil => rw [List.nil_append, pick_nil]
  | cons b rest ih =>
    cases p with
    | none => exact ih (some b)
    | some p => exact ih (some (if takes b p then b else p))

/-- What was kept or an element of the list. -/
theorem pick_some_mem (takes : α → α → Bool) (p : α) (l : List α) : ∃ x ∈ p :: l, pick takes (some p) l = some x := by
  induction l generalizing p with
  | nil => exact ⟨p, by simp, rfl⟩
  | cons b rest ih =>
    obtain ⟨x, hx, heq⟩ := ih (if takes b p then b else p)
    refine ⟨x, ?_, heq⟩
    by_cases hb : takes b p
    · rw [if_pos hb] at hx
      exact List.mem_cons_of_mem p hx
    · rw [if_neg hb] at hx
      cases List.mem_cons.mp hx with
      | inl hp => exact hp ▸ List.mem_cons_self
      | inr hrest => exact List.mem_cons_of_mem p (List.mem_cons_of_mem b hrest)

theorem mem_of_pick {x : α} (h : pick takes none l = some x) : x ∈ l := by
  cases l with
  | nil => cases h
  | cons b rest =>
    obtain ⟨x', hmem, heq⟩ := pick_some_mem takes b rest
    rw [pick_none_cons, heq] at h
    cases h
    exact hmem

/-- What no element of the list replaces is kept. -/
theorem pick_keeps {p : α} (h : ∀ b ∈ l, takes b p = false) : pick takes (some p) l = some p := by
  induction l with
  | nil => rfl
  | cons b rest ih =>
    rw [List.forall_mem_cons] at h
    rw [pick_some_cons, h.1]
    exact ih h.2

/-- Something good is only replaced by something good. -/
theorem pick_stays {p : α} (hp : G p)
    (hstays : ∀ b ∈ l, ¬ G b → ∀ x, x ∈ p :: l → G x → takes b x = false) :
    ∃ x, pick takes (some p) l = some x ∧ G x := by
  induction l generalizing p with
  | nil => exact ⟨p, rfl, hp⟩
  | cons b rest ih =>
    have hnext : G (if takes b p then b else p) := by
      by_cases hb : takes b p
      · rw [if_pos hb]
        by_contra hbad
        rw [hstays b List.mem_cons_self hbad p List.mem_cons_self hp] at hb
        cases hb
      · rwa [if_neg hb]
    refine ih hnext fun c hc hbad x hx hgood => ?_
    refine hstays c (List.mem_cons_of_mem b hc) hbad x ?_ hgood
    cases List.mem_cons.mp hx with
    | inl heq =>
      rw [heq]
      split <;> simp
    | inr hrest => exact List.mem_cons_of_mem p (List.mem_cons_of_mem b hrest)

/-- One good element that replaces all that are not good is enough, where these replace none. -/
theorem pick_good (hg : g ∈ l) (hgood : G g) (htakes : ∀ y ∈ l, ¬ G y → takes g y = true)
    (hstays : ∀ y ∈ l, ¬ G y → ∀ x ∈ l, G x → takes y x = false) :
    ∃ x, pick takes none l = some x ∧ G x := by
  obtain ⟨l₁, l₂, rfl⟩ := List.append_of_mem hg
  -- whatever is kept before the element, something good is kept behind it
  have hmid : ∃ x ∈ l₁ ++ [g], pick takes none (l₁ ++ [g]) = some x ∧ G x := by
    cases l₁ with
    | nil => exact ⟨g, by simp, rfl, hgood⟩
    | cons b rest =>
      obtain ⟨p, hp, heq⟩ := pick_some_mem takes b rest
      rw [pick_append, pick_none_cons, heq, pick_some_cons, pick_nil]
      by_cases hgp : takes g p
      · exact ⟨g, by simp, by rw [if_pos hgp], hgood⟩
      · refine ⟨p, List.mem_append_left _ hp, by rw [if_neg hgp], ?_⟩
        by_contra hbad
        exact hgp (htakes p (List.mem_append_left _ hp) hbad)
  obtain ⟨x, hx, heq, hxgood⟩ := hmid
  have hsplit : l₁ ++ g :: l₂ = (l₁ ++ [g]) ++ l₂ := by simp
  rw [hsplit, pick_append, heq]
  rw [hsplit] at hstays
  refine pick_stays hxgood fun b hb hbad z hz hzgood => ?_
  refine hstays b (List.mem_append_right _ hb) hbad z ?_ hzgood
  cases List.mem_cons.mp hz with
  | inl heq => exact heq ▸ List.mem_append_left _ hx
  | inr hmem => exact List.mem_append_right _ hmem

/-- Where nothing good is left, nothing good is kept. -/
theorem pick_bad (h : ∀ x ∈ y :: l, ¬ G x) : ¬ ∃ x, pick takes (some y) l = some x ∧ G x := by
  intro ⟨x, hx, hgood⟩
  obtain ⟨x', hmem, hx'⟩ := pick_some_mem takes y l
  cases hx.symm.trans hx'
  exact h x hmem hgood

/-- The good elements, one that is not good, and what is left. -/
theorem exists_perm (hy : y ∈ l) (hbad : ¬ G y) :
    ∃ good rest, (good ++ y :: rest).Perm l ∧ (∀ x, x ∈ good ↔ x ∈ l ∧ G x) ∧
      ∀ x ∈ y :: rest, ¬ G x := by
  classical
  have hmem : y ∈ l.filter (fun x => ¬ G x) := by simp [hy, hbad]
  obtain ⟨b₁, b₂, hsplit⟩ := List.append_of_mem hmem
  have hperm : (y :: (b₁ ++ b₂)).Perm (l.filter (fun x => ¬ G x)) := by
    rw [hsplit]
    exact List.perm_middle.symm
  refine ⟨l.filter (fun x => G x), b₁ ++ b₂, ?_, by simp, ?_⟩
  · have hall := List.filter_append_perm (fun x => decide (G x)) l
    refine (hperm.append_left _).trans ?_
    simpa using hall
  · intro x hx
    have hx' := hperm.mem_iff.mp hx
    simp at hx'
    exact hx'.2

section Orders

variable (hfirst : ∃ g ∈ l, G g ∧
  ∀ x ∈ l, G x → ∀ y ∈ l, ¬ G y → takes x y = true → takes g y = true)
variable (hsame : ∀ x ∈ l, G x → ∀ x' ∈ l, G x' → ∀ y ∈ l, ¬ G y → takes y x = takes y x')

include hfirst hsame in
/-- Where one good element replaces as much as any, and all are replaced by the same, something
    good is kept in every order exactly if every other element is replaced by something good and
    replaces nothing good. -/
theorem good_in_every_order_iff :
    (∀ l', l'.Perm l → ∃ x, pick takes none l' = some x ∧ G x) ↔
      ∀ y ∈ l, ¬ G y → (∃ x ∈ l, G x ∧ takes x y = true) ∧
        ∀ x ∈ l, G x → takes y x = false := by
  constructor
  · intro h y hy hbad
    obtain ⟨good, rest, hperm, hmem, hrest⟩ := exists_perm hy hbad
    constructor
    · by_contra hnone
      -- the element comes first, and all that is good comes next
      have hkeeps : ∀ b ∈ good, takes b y = false := by
        intro b hb
        by_contra htakes
        have hb' := (hmem b).mp hb
        exact hnone ⟨b, hb'.1, hb'.2, by simpa using htakes⟩
      have hpick := h (y :: good ++ rest) (List.perm_middle.symm.trans hperm)
      rw [pick_append, pick_none_cons, pick_keeps hkeeps] at hpick
      exact pick_bad hrest hpick
    · intro x hx hgood
      by_contra htakes
      -- all that is good comes first, and the element comes next
      have hpick := h (good ++ y :: rest) hperm
      cases good with
      | nil => exact absurd ((hmem x).mpr ⟨hx, hgood⟩) List.not_mem_nil
      | cons b good =>
        obtain ⟨p, hp, heq⟩ := pick_some_mem takes b good
        have hp' := (hmem p).mp hp
        have htakes' : takes y p = true := by
          rw [← hsame x hx hgood p hp'.1 hp'.2 y hy hbad]
          simpa using htakes
        rw [pick_append, pick_none_cons, heq, pick_some_cons, if_pos htakes'] at hpick
        exact pick_bad hrest hpick
  · intro h l' hperm
    obtain ⟨g, hg, hgood, hmost⟩ := hfirst
    refine pick_good (hperm.mem_iff.mpr hg) hgood ?_ ?_
    · intro y hy hbad
      obtain ⟨x, hx, hxgood, htakes⟩ := (h y (hperm.mem_iff.mp hy) hbad).1
      exact hmost x hx hxgood y (hperm.mem_iff.mp hy) hbad htakes
    · intro y hy hbad x hx hxgood
      exact (h y (hperm.mem_iff.mp hy) hbad).2 x (hperm.mem_iff.mp hx) hxgood

end Orders

end Selection
