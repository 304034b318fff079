import Mathlib.Data.List.GetD
import Epos.ForStd.Fuel
import Epos.Network.Dhcp

/-!
# Parsing DHCP options

The loop goes from tag to tag, and from an end option to the index 256, which is inside
the area. So it returns if no tag that it comes to makes it read behind the area and no end
option is among the tags from 256 on, and it keeps the last value of each option.
-/

namespace List

/-- What a loop leaves in a field that its elements overwrite. -/
theorem foldl_overwrite {α β γ : Type*} {f : β → α → β} {field : β → γ} {writes : α → Bool}
    {value : α → γ} (h : ∀ b a, field (f b a) = if writes a then value a else field b)
    (l : List α) (b : β) :
    field (l.foldl f b) = ((l.filter writes).getLast?.map value).getD (field b) := by
  induction l generalizing b with
  | nil => rfl
  | cons a l ih =>
    rw [foldl_cons, ih, h]
    by_cases ha : writes a
    · rw [if_pos ha, filter_cons_of_pos ha, getLast?_cons]
      cases (l.filter writes).getLast? <;> rfl
    · rw [if_neg ha, filter_cons_of_neg ha]

end List

namespace Epos

namespace DHCP

namespace Options

variable {opt : Options} {c : Config} {n p q : Nat}

/-! ## One option -/

/-- `opt[i]` inside the area. -/
def byte (opt : Options) (i : Nat) : UInt8 := opt.bytes.getD i 0

/-- A byte inside of the options. -/
theorem get_eq (h : p < maxOptionsLength) : opt.get p = some (opt.byte p) := by
  have hlt : p < opt.bytes.length := by rwa [opt.length]
  unfold get byte
  rw [List.getElem?_eq_getElem hlt, List.getD_eq_getElem?_getD, List.getElem?_eq_getElem hlt,
    Option.getD_some]

/-- Behind the options nothing is read. -/
theorem get_eq_none (h : ¬ p < maxOptionsLength) : opt.get p = none := by
  unfold get
  rw [List.getElem?_eq_none_iff, opt.length]
  omega

/-- The four bytes from `i` on. -/
def addressAt (opt : Options) (i : Nat) : IP.Address :=
  ![opt.byte i, opt.byte (i + 1), opt.byte (i + 2), opt.byte (i + 3)]

/-- Four bytes inside of the options. -/
theorem getFour_eq (h : p + 3 < maxOptionsLength) : opt.getFour p = some (opt.addressAt p) := by
  unfold getFour
  rw [get_eq (by omega), get_eq (by omega), get_eq (by omega), get_eq h]
  rfl

/-- Behind the options nothing is read. -/
theorem getFour_eq_none (h : ¬ p + 3 < maxOptionsLength) : opt.getFour p = none := by
  unfold getFour
  rw [get_eq_none h]
  cases opt.get p with
  | none => rfl
  | some a =>
    cases opt.get (p + 1) with
    | none => rfl
    | some b => cases opt.get (p + 2) <;> rfl

/-- An option with this tag and length is read as an address or as the lease time. -/
def Stores (tag len : UInt8) : Prop :=
  ((tag = 1 ∨ tag = 28 ∨ tag = 51) ∧ len = 4) ∨ ((tag = 3 ∨ tag = 6) ∧ 4 ≤ len)

instance (tag len : UInt8) : Decidable (Stores tag len) := inferInstanceAs (Decidable (_ ∨ _))

/-- What is read for the tag at `p` is in the area. -/
def Reads (opt : Options) (p : Nat) : Prop :=
  opt.byte p = 0 ∨ opt.byte p = 255 ∨
    (p + 1 < maxOptionsLength ∧
      (Stores (opt.byte p) (opt.byte (p + 1)) → p + 5 < maxOptionsLength))

instance (opt : Options) (p : Nat) : Decidable (opt.Reads p) :=
  inferInstanceAs (Decidable (_ ∨ _))

/-- The index behind the option at `p`, from where the loop goes on. -/
def next (opt : Options) (p : Nat) : Nat :=
  if opt.byte p = 0 then p + 1
  else if opt.byte p = 255 then 256
  else p + 2 + (opt.byte (p + 1)).toNat

end Options

/-- The value of the option with this tag. -/
def Config.store (tag : UInt8) (a : IP.Address) (c : Config) : Config :=
  if tag = 1 then { c with netmask := a }
  else if tag = 3 then { c with gateway := a }
  else if tag = 6 then { c with nameserver := a }
  else if tag = 28 then { c with broadcast := a }
  else if tag = 51 then { c with leaseTime := seconds a }
  else c

namespace Options

variable {opt : Options} {c : Config} {n p q : Nat}

/-- What the option at `p` writes. -/
def apply (opt : Options) (c : Config) (p : Nat) : Config :=
  if Stores (opt.byte p) (opt.byte (p + 1)) then c.store (opt.byte p) (opt.addressAt (p + 2))
  else c

/-- The case of a known option. -/
theorem known_eq (valid : UInt8 → Bool) (store : IP.Address → Config → Config)
    (h : p + 1 < maxOptionsLength) :
    opt.known valid store p c =
      if valid (opt.byte (p + 1)) then
        if p + 5 < maxOptionsLength then
          some (p + 1 + (opt.byte (p + 1)).toNat, store (opt.addressAt (p + 2)) c)
        else none
      else some (p + 1 + (opt.byte (p + 1)).toNat, c) := by
  unfold known
  dsimp only
  rw [get_eq h, Option.bind_eq_bind, Option.bind_some]
  by_cases hvalid : valid (opt.byte (p + 1))
  · rw [if_pos hvalid, if_pos hvalid]
    by_cases hp : p + 5 < maxOptionsLength
    · rw [if_pos hp, getFour_eq hp]
      rfl
    · rw [if_neg hp, getFour_eq_none hp]
      rfl
  · rw [if_neg hvalid, if_neg hvalid]
    rfl

/-- Behind the options the length of a known option is not read. -/
theorem known_eq_none (valid : UInt8 → Bool) (store : IP.Address → Config → Config)
    (h : ¬ p + 1 < maxOptionsLength) : opt.known valid store p c = none := by
  unfold known
  dsimp only
  rw [get_eq_none h]
  rfl

/-- The case of a known tag, if its test and its store are the ones of the tag. -/
theorem known_body {tag : UInt8} {valid : UInt8 → Bool} {store : IP.Address → Config → Config}
    (htag : opt.byte p = tag) (hpad : tag ≠ 0) (hend : tag ≠ 255)
    (hvalid : ∀ len, valid len = true ↔ Stores tag len)
    (hstore : ∀ a c, store a c = Config.store tag a c) :
    opt.known valid store p c =
      if opt.Reads p then some (opt.next p - 1, opt.apply c p) else none := by
  -- the option is read if its length is, and its address where it is stored
  have hreads : opt.Reads p ↔ p + 1 < maxOptionsLength ∧
      (Stores tag (opt.byte (p + 1)) → p + 5 < maxOptionsLength) := by
    unfold Reads
    rw [htag, or_iff_right hpad, or_iff_right hend]
  have hnext : opt.next p - 1 = p + 1 + (opt.byte (p + 1)).toNat := by
    unfold next
    rw [htag, if_neg hpad, if_neg hend]
    omega
  by_cases hp : p + 1 < maxOptionsLength
  · rw [known_eq valid store hp, hnext]
    -- whether the value of the option is stored depends on its length
    by_cases hs : Stores tag (opt.byte (p + 1))
    · have happly : opt.apply c p = c.store tag (opt.addressAt (p + 2)) := by
        unfold apply
        rw [htag, if_pos hs]
      rw [if_pos ((hvalid _).mpr hs), happly, hstore]
      by_cases hfour : p + 5 < maxOptionsLength
      · rw [if_pos hfour, if_pos (hreads.mpr ⟨hp, fun _ => hfour⟩)]
      · rw [if_neg hfour, if_neg fun h => hfour ((hreads.mp h).2 hs)]
    · have happly : opt.apply c p = c := by
        unfold apply
        rw [htag, if_neg hs]
      rw [if_neg fun h => hs ((hvalid _).mp h), happly,
        if_pos (hreads.mpr ⟨hp, fun h => absurd h hs⟩)]
  · rw [known_eq_none valid store hp, if_neg fun h => hp (hreads.mp h).1]

/-- The test of the options with one address. -/
theorem stores_four {tag : UInt8} (h : tag = 1 ∨ tag = 28 ∨ tag = 51) (len : UInt8) :
    (len == 4) = true ↔ Stores tag len := by
  have hnot : ¬ (tag = 3 ∨ tag = 6) := by
    rcases h with rfl | rfl | rfl <;> decide
  unfold Stores
  rw [beq_iff_eq, and_iff_right h, or_iff_left fun h => hnot h.1]

/-- The test of the options with several. -/
theorem stores_more {tag : UInt8} (h : tag = 3 ∨ tag = 6) (len : UInt8) :
    decide (4 ≤ len) = true ↔ Stores tag len := by
  have hnot : ¬ (tag = 1 ∨ tag = 28 ∨ tag = 51) := by
    rcases h with rfl | rfl <;> decide
  unfold Stores
  rw [decide_eq_true_iff, and_iff_right h, or_iff_right fun h => hnot h.1]

/-- The body of the loop as one step. -/
theorem body_eq (hp : p < maxOptionsLength) (c : Config) :
    opt.body p c = if opt.Reads p then some (opt.next p - 1, opt.apply c p) else none := by
  unfold body
  rw [get_eq hp, Option.bind_eq_bind, Option.bind_some]
  by_cases h0 : opt.byte p = 0
  · -- a pad has neither length nor value
    have happly : opt.apply c p = c := by
      unfold apply
      rw [h0, if_neg (by rintro (⟨h | h | h, -⟩ | ⟨h | h, -⟩) <;> cases h)]
    rw [if_pos h0, if_pos (.inl h0), next, if_pos h0, happly, Nat.add_sub_cancel]
  rw [if_neg h0]
  by_cases h1 : opt.byte p = 1
  · rw [if_pos h1]
    exact known_body h1 (by decide) (by decide) (stores_four (by decide)) fun _ _ => rfl
  rw [if_neg h1]
  by_cases h3 : opt.byte p = 3
  · rw [if_pos h3]
    exact known_body h3 (by decide) (by decide) (stores_more (by decide)) fun _ _ => rfl
  rw [if_neg h3]
  by_cases h6 : opt.byte p = 6
  · rw [if_pos h6]
    exact known_body h6 (by decide) (by decide) (stores_more (by decide)) fun _ _ => rfl
  rw [if_neg h6]
  by_cases h28 : opt.byte p = 28
  · rw [if_pos h28]
    exact known_body h28 (by decide) (by decide) (stores_four (by decide)) fun _ _ => rfl
  rw [if_neg h28]
  by_cases h51 : opt.byte p = 51
  · rw [if_pos h51]
    exact known_body h51 (by decide) (by decide) (stores_four (by decide)) fun _ _ => rfl
  rw [if_neg h51]
  -- no other tag is stored
  have hstores (len : UInt8) : ¬ Stores (opt.byte p) len := by
    rintro (⟨h | h | h, -⟩ | ⟨h | h, -⟩)
    · exact h1 h
    · exact h28 h
    · exact h51 h
    · exact h3 h
    · exact h6 h
  have happly : opt.apply c p = c := by
    unfold apply
    rw [if_neg (hstores _)]
  by_cases h255 : opt.byte p = 255
  · rw [if_pos h255, if_pos (.inr (.inl h255)), next, if_neg h0, if_pos h255, happly]
  rw [if_neg h255]
  -- the length of an unknown option is read, wherever it is
  by_cases hp1 : p + 1 < maxOptionsLength
  · rw [get_eq hp1, Option.bind_some, next, if_neg h0, if_neg h255, happly,
      if_pos (.inr (.inr ⟨hp1, fun h => absurd h (hstores _)⟩))]
    congr 2
    omega
  · rw [get_eq_none hp1, Option.bind_none, if_neg]
    rintro (h | h | h)
    · exact h0 h
    · exact h255 h
    · exact hp1 h.1

/-! ## The tags that the loop comes to -/

/-- The tags from `p` on, up to an end option, with a bound on their number. -/
def visitedFrom (opt : Options) : Nat → Nat → List Nat
  | 0, _ => []
  | n + 1, p =>
    if p < maxOptionsLength then
      p :: if opt.byte p = 255 then [] else visitedFrom opt n (opt.next p)
    else []

def visited (opt : Options) (p : Nat) : List Nat := opt.visitedFrom maxOptionsLength p

/-- There is an end option among them. -/
def Ends (opt : Options) (l : List Nat) : Prop := ∃ q ∈ l, opt.byte q = 255

instance (opt : Options) (l : List Nat) : Decidable (opt.Ends l) :=
  inferInstanceAs (Decidable (∃ q ∈ l, opt.byte q = 255))

/-- Every option but the last takes the loop on. -/
theorem lt_next (h : opt.byte p ≠ 255) : p < opt.next p := by
  unfold next
  by_cases h0 : opt.byte p = 0
  · rw [if_pos h0]
    omega
  · rw [if_neg h0, if_neg h]
    omega

/-- One step of the loop. -/
theorem parseLoop_step (hp : p < maxOptionsLength) (hreads : opt.Reads p) (n : Nat) (c : Config) :
    opt.parseLoop (n + 1) p c = opt.parseLoop n (opt.next p) (opt.apply c p) := by
  have hpos : opt.next p - 1 + 1 = opt.next p := by
    unfold next
    split
    · omega
    · split <;> omega
  rw [parseLoop, if_pos hp, body_eq hp, if_pos hreads]
  dsimp only
  rw [hpos]

/-- A step that reads outside of the options. -/
theorem parseLoop_outside (hp : p < maxOptionsLength) (hreads : ¬ opt.Reads p) (n : Nat)
    (c : Config) : opt.parseLoop (n + 1) p c = some none := by
  rw [parseLoop, if_pos hp, body_eq hp, if_neg hreads]

/-- A loop that ends does so whatever the fuel. -/
theorem parseLoop_independent (p : Nat) (c : Config) :
    Fuel.Independent fun n => opt.parseLoop n p c := by
  intro n
  induction n generalizing p c with
  | zero => exact fun r h => nomatch h
  | succ n ih =>
    intro r h
    by_cases hp : p < maxOptionsLength
    · by_cases hreads : opt.Reads p
      · dsimp only at h ⊢
        rw [parseLoop_step hp hreads] at h ⊢
        exact ih _ _ r h
      · dsimp only at h ⊢
        rwa [parseLoop_outside hp hreads] at h ⊢
    · dsimp only at h ⊢
      rw [parseLoop, if_neg hp] at h ⊢
      exact h

/-! ## What the loop does -/

/-- The loop leaves the area if one of the tags does. -/
theorem parseLoop_of_outside (h : ∃ q ∈ opt.visitedFrom n p, ¬ opt.Reads q) (c : Config) :
    Fuel.Returns (fun k => opt.parseLoop k p c) none := by
  induction n generalizing p c with
  | zero =>
    obtain ⟨q, hq, -⟩ := h
    cases hq
  | succ n ih =>
    obtain ⟨q, hq, hnot⟩ := h
    unfold visitedFrom at hq
    by_cases hp : p < maxOptionsLength
    · by_cases hreads : opt.Reads p
      · rw [if_pos hp] at hq
        cases List.mem_cons.mp hq with
        | inl hqp => exact absurd (hqp ▸ hreads) hnot
        | inr hq =>
          by_cases hend : opt.byte p = 255
          · rw [if_pos hend] at hq
            cases hq
          · rw [if_neg hend] at hq
            exact .step (fun k => parseLoop_step hp hreads k c) (ih ⟨q, hq, hnot⟩ _)
      · exact ⟨1, parseLoop_outside hp hreads 0 c⟩
    · rw [if_neg hp] at hq
      cases hq

/-- Without an end option the loop runs to the end of the area. -/
theorem parseLoop_of_not_ends (hn : maxOptionsLength ≤ p + n)
    (hreads : ∀ q ∈ opt.visitedFrom n p, opt.Reads q) (hends : ¬ opt.Ends (opt.visitedFrom n p))
    (c : Config) :
    Fuel.Returns (fun k => opt.parseLoop k p c)
      (some ((opt.visitedFrom n p).foldl opt.apply c)) := by
  -- each pass begins further on, so the distance to the end bounds the passes
  induction n generalizing p c with
  | zero =>
    refine ⟨1, ?_⟩
    dsimp only
    rw [parseLoop, if_neg (by omega)]
    rfl
  | succ n ih =>
    by_cases hp : p < maxOptionsLength
    · have hcons : opt.visitedFrom (n + 1) p =
          p :: if opt.byte p = 255 then [] else opt.visitedFrom n (opt.next p) := by
        rw [visitedFrom, if_pos hp]
      have hend : opt.byte p ≠ 255 :=
        fun h => hends ⟨p, hcons ▸ List.mem_cons_self, h⟩
      rw [if_neg hend] at hcons
      rw [hcons] at hreads hends ⊢
      have hlt := lt_next hend
      refine .step (fun k => parseLoop_step hp (hreads p List.mem_cons_self) k c) (ih (by omega) ?_ ?_ _)
      · exact fun q hq => hreads q (List.mem_cons_of_mem p hq)
      · exact fun ⟨q, hq, h⟩ => hends ⟨q, List.mem_cons_of_mem p hq, h⟩
    · refine ⟨1, ?_⟩
      dsimp only
      rw [parseLoop, if_neg hp, visitedFrom, if_neg hp]
      rfl

/-- With an end option it goes on from the index 256. -/
theorem parseLoop_of_ends (hreads : ∀ q ∈ opt.visitedFrom n p, opt.Reads q)
    (hends : opt.Ends (opt.visitedFrom n p)) (c : Config) :
    ∃ k, 0 < k ∧ ∀ m, opt.parseLoop (m + k) p c =
      opt.parseLoop m 256 ((opt.visitedFrom n p).foldl opt.apply c) := by
  induction n generalizing p c with
  | zero =>
    obtain ⟨q, hq, -⟩ := hends
    cases hq
  | succ n ih =>
    unfold visitedFrom at hreads hends ⊢
    by_cases hp : p < maxOptionsLength
    · rw [if_pos hp] at hreads hends ⊢
      have hstep := parseLoop_step hp (hreads p List.mem_cons_self)
      by_cases hend : opt.byte p = 255
      · -- The end option sets the index beyond all options.
        have hnext : opt.next p = 256 := by
          have h0 : opt.byte p ≠ 0 := by
            rw [hend]
            decide
          rw [next, if_neg h0, if_pos hend]
        rw [if_pos hend]
        refine ⟨1, Nat.zero_lt_one, fun m => ?_⟩
        rw [hstep, hnext]
        rfl
      · rw [if_neg hend] at hreads hends ⊢
        have hrest : opt.Ends (opt.visitedFrom n (opt.next p)) := by
          obtain ⟨q, hq, h⟩ := hends
          cases List.mem_cons.mp hq with
          | inl hqp => exact absurd (hqp ▸ h) hend
          | inr hq => exact ⟨q, hq, h⟩
        obtain ⟨k, -, hk⟩ := ih (fun q hq => hreads q (List.mem_cons_of_mem p hq)) hrest
          (opt.apply c p)
        refine ⟨k + 1, Nat.succ_pos k, fun m => ?_⟩
        rw [← Nat.add_assoc, hstep, hk]
        rfl
    · rw [if_neg hp] at hends
      obtain ⟨q, hq, -⟩ := hends
      cases hq

/-- An end option among the tags from 256 on leads back to 256. -/
theorem parseLoop_diverges (hreads : ∀ q ∈ opt.visited 256, opt.Reads q)
    (hends : opt.Ends (opt.visited 256)) (n : Nat) (c : Config) :
    opt.parseLoop n 256 c = none := by
  induction n using Nat.strong_induction_on generalizing c with
  | _ n ih =>
    obtain ⟨k, hpos, hk⟩ := parseLoop_of_ends hreads hends c
    by_cases hn : k ≤ n
    · have hsplit := hk (n - k)
      rw [Nat.sub_add_cancel hn] at hsplit
      rw [hsplit]
      exact ih (n - k) (by omega) _
    · -- a value within fewer rounds would be one after `k` rounds too
      cases hval : opt.parseLoop n 256 c with
      | none => rfl
      | some r =>
        have hle := (parseLoop_independent 256 c).le (Nat.le_of_not_le hn) hval
        have hzero := hk 0
        rw [Nat.zero_add] at hzero
        rw [hzero] at hle
        cases hle

/-! ## When the loop returns -/

/-- All tags that the loop comes to. -/
def allVisited (opt : Options) : List Nat :=
  opt.visited 0 ++ if opt.Ends (opt.visited 0) then opt.visited 256 else []

/-- No tag makes the loop leave the area, and no end option is among those from 256 on. -/
def Returnable (opt : Options) : Prop :=
  (∀ q ∈ opt.visited 0, opt.Reads q) ∧
    (opt.Ends (opt.visited 0) →
      (∀ q ∈ opt.visited 256, opt.Reads q) ∧ ¬ opt.Ends (opt.visited 256))

instance (opt : Options) : Decidable opt.Returnable :=
  inferInstanceAs (Decidable (_ ∧ (_ → _)))

/-- A parser that ends does so whatever the fuel. -/
theorem parse_independent (c : Config) : Fuel.Independent fun n => opt.parse n c :=
  parseLoop_independent 0 c

/-- The parser folds the options that it visits. -/
theorem Returnable.parse (h : opt.Returnable) (c : Config) :
    Fuel.Returns (fun n => opt.parse n c) (some (opt.allVisited.foldl opt.apply c)) := by
  unfold allVisited
  by_cases hends : opt.Ends (opt.visited 0)
  · obtain ⟨hreads, hnot⟩ := h.2 hends
    obtain ⟨k, -, hk⟩ := parseLoop_of_ends h.1 hends c
    obtain ⟨n, hn⟩ := parseLoop_of_not_ends (by omega) hreads hnot
      ((opt.visited 0).foldl opt.apply c)
    rw [if_pos hends, List.foldl_append]
    exact ⟨n + k, (hk n).trans hn⟩
  · rw [if_neg hends, List.append_nil]
    exact parseLoop_of_not_ends (by omega) h.1 hends c

/-- Where the parser returns it reads inside of the options. -/
theorem returnable_of_returns {c' : Config}
    (h : Fuel.Returns (fun n => opt.parse n c) (some c')) : opt.Returnable := by
  -- a loop that leaves the area returns something else
  have hinside : ¬ Fuel.Returns (fun n => opt.parse n c) none := by
    intro hnone
    cases hnone.unique (parse_independent c) h
  have hreads : ∀ q ∈ opt.visited 0, opt.Reads q := by
    by_contra hnot
    rw [not_forall] at hnot
    obtain ⟨q, hq⟩ := hnot
    rw [Classical.not_imp] at hq
    exact hinside (parseLoop_of_outside ⟨q, hq⟩ c)
  refine ⟨hreads, fun hends => ?_⟩
  obtain ⟨k, -, hk⟩ := parseLoop_of_ends hreads hends c
  have hreads' : ∀ q ∈ opt.visited 256, opt.Reads q := by
    by_contra hnot
    rw [not_forall] at hnot
    obtain ⟨q, hq⟩ := hnot
    rw [Classical.not_imp] at hq
    obtain ⟨n, hn⟩ := parseLoop_of_outside ⟨q, hq⟩ ((opt.visited 0).foldl opt.apply c)
    exact hinside ⟨n + k, (hk n).trans hn⟩
  refine ⟨hreads', fun hends' => ?_⟩
  obtain ⟨n, hn⟩ := h
  have hle := (parse_independent c).le (Nat.le_add_right n k) hn
  have hnone := (hk n).trans (parseLoop_diverges hreads' hends' n _)
  exact nomatch hle.symm.trans hnone

/-! ## The values -/

/-- The value of the last option with the tag that the loop comes to. -/
def lastValue (opt : Options) (tag : UInt8) : Option IP.Address :=
  ((opt.allVisited.filter fun p => opt.byte p = tag ∧ Stores tag (opt.byte (p + 1))).getLast?).map
    fun p => opt.addressAt (p + 2)

/-- What the loop leaves in the field of a tag. -/
theorem foldl_apply {tag : UInt8} (field : Config → IP.Address)
    (hself : ∀ a c, field (Config.store tag a c) = a)
    (hother : ∀ t a c, t ≠ tag → field (Config.store t a c) = field c) (c : Config) :
    field (opt.allVisited.foldl opt.apply c) = (opt.lastValue tag).getD (field c) := by
  apply List.foldl_overwrite
  intro c p
  unfold apply
  by_cases htag : opt.byte p = tag
  · rw [htag]
    by_cases hs : Stores tag (opt.byte (p + 1))
    · rw [if_pos hs, if_pos (by simpa using hs), hself]
    · rw [if_neg hs, if_neg (by simpa using hs)]
  · rw [if_neg (c := decide _ = true) (by simp [htag])]
    by_cases hs : Stores (opt.byte p) (opt.byte (p + 1))
    · rw [if_pos hs, hother _ _ _ htag]
    · rw [if_neg hs]

end Options

/-! ## Areas that follow RFC 2132 -/

/-- A pad, or an option with its tag and its data. -/
inductive Item
  | pad
  | option (tag : UInt8) (data : List UInt8)
  deriving DecidableEq, Repr

namespace Item

def encode : Item → List UInt8
  | pad => [0]
  | option tag data => tag :: UInt8.ofNat data.length :: data

/-- The data have the length of their kind. -/
def Valid : Item → Prop
  | pad => True
  | option tag data =>
    tag ≠ 0 ∧ tag ≠ 255 ∧ data.length < 256 ∧
      (tag = 1 ∨ tag = 28 ∨ tag = 51 → data.length = 4) ∧
      (tag = 3 ∨ tag = 6 → 4 ≤ data.length ∧ data.length % 4 = 0)

/-- The first address in the data of an option with the tag. -/
def address (tag : UInt8) : Item → Option IP.Address
  | pad => none
  | option tag' data =>
    if tag' = tag then some ![data.getD 0 0, data.getD 1 0, data.getD 2 0, data.getD 3 0] else none

end Item

/-- The area has these pads and options, an end option, and pads behind it. -/
structure Options.Follows (opt : Options) (items : List Item) : Prop where
  valid : ∀ item ∈ items, item.Valid
  bytes : ∃ k, opt.bytes = items.flatMap Item.encode ++ 255 :: List.replicate k 0

/-- The value of the first option with the tag. -/
def firstValue (items : List Item) (tag : UInt8) : Option IP.Address :=
  items.findSome? (Item.address tag)

/-- The tags of the netmask, the broadcast address, the gateways and the name servers. -/
def addressTags : List UInt8 := [1, 28, 3, 6]

/-- Parsing returns without a read behind the area, and gives the first values if the area
    follows RFC 2132. -/
def ParsesOptions (opt : Options) : Prop :=
  ∀ c, ∃ c', Fuel.Returns (fun n => opt.parse n c) (some c') ∧
    ∀ items, opt.Follows items →
      c'.netmask = (firstValue items 1).getD c.netmask ∧
      c'.broadcast = (firstValue items 28).getD c.broadcast ∧
      c'.gateway = (firstValue items 3).getD c.gateway ∧
      c'.nameserver = (firstValue items 6).getD c.nameserver

/-- Every field holds the last value that was visited. -/
theorem Options.foldl_apply_all (opt : Options) (c : Config) :
    (opt.allVisited.foldl opt.apply c).netmask = (opt.lastValue 1).getD c.netmask ∧
    (opt.allVisited.foldl opt.apply c).broadcast = (opt.lastValue 28).getD c.broadcast ∧
    (opt.allVisited.foldl opt.apply c).gateway = (opt.lastValue 3).getD c.gateway ∧
    (opt.allVisited.foldl opt.apply c).nameserver = (opt.lastValue 6).getD c.nameserver := by
  have hstore : ∀ (t : UInt8) (a : IP.Address) (c : Config),
      (c.store t a).netmask = (if t = 1 then a else c.netmask) ∧
      (c.store t a).broadcast = (if t = 28 then a else c.broadcast) ∧
      (c.store t a).gateway = (if t = 3 then a else c.gateway) ∧
      (c.store t a).nameserver = (if t = 6 then a else c.nameserver) := by
    intro t a c
    unfold Config.store
    split_ifs <;> simp_all
  refine ⟨?_, ?_, ?_, ?_⟩
  · exact foldl_apply Config.netmask (fun a c => rfl)
      (fun t a c h => (hstore t a c).1.trans (if_neg h)) c
  · exact foldl_apply Config.broadcast (fun a c => rfl)
      (fun t a c h => (hstore t a c).2.1.trans (if_neg h)) c
  · exact foldl_apply Config.gateway (fun a c => rfl)
      (fun t a c h => (hstore t a c).2.2.1.trans (if_neg h)) c
  · exact foldl_apply Config.nameserver (fun a c => rfl)
      (fun t a c h => (hstore t a c).2.2.2.trans (if_neg h)) c

/-- There are two addresses. -/
theorem exists_ne_address (v : IP.Address) : ∃ w : IP.Address, w ≠ v := by
  by_cases h : v 0 = 0
  · refine ⟨fun _ => 1, fun heq => ?_⟩
    rw [← heq] at h
    cases h
  · exact ⟨fun _ => 0, fun heq => h (heq ▸ rfl)⟩

/-- Values are the same if no address that was there before tells them apart. -/
theorem eq_of_getD {x y : Option IP.Address} (h : ∀ a, x.getD a = y.getD a) : x = y := by
  cases x with
  | none =>
    cases y with
    | none => rfl
    | some v =>
      obtain ⟨w, hw⟩ := exists_ne_address v
      exact absurd (h w) hw
  | some v =>
    cases y with
    | none =>
      obtain ⟨w, hw⟩ := exists_ne_address v
      exact absurd (h w).symm hw
    | some w => exact congrArg some (h v)

/-- A parser that is right returns. -/
theorem ParsesOptions.returnable {opt : Options} (h : ParsesOptions opt) : opt.Returnable := by
  obtain ⟨c', hc', -⟩ := h ⟨fun _ => 0, fun _ => 0, fun _ => 0, fun _ => 0, 0⟩
  exact Options.returnable_of_returns hc'

/-- The last value of a parser that is right is the first one of the options. -/
theorem ParsesOptions.lastValue {opt : Options} (h : ParsesOptions opt) {items : List Item}
    (hitems : opt.Follows items) {tag : UInt8} (htag : tag ∈ addressTags) :
    opt.lastValue tag = firstValue items tag := by
  apply eq_of_getD
  intro a
  obtain ⟨c', hc', hfollows⟩ := h ⟨a, a, a, a, 0⟩
  cases hc'.unique (Options.parse_independent _) (h.returnable.parse _)
  obtain ⟨hnetmask, hbroadcast, hgateway, hnameserver⟩ := hfollows items hitems
  obtain ⟨hn, hb, hg, hs⟩ := opt.foldl_apply_all ⟨a, a, a, a, 0⟩
  simp only [addressTags, List.mem_cons, List.not_mem_nil, or_false] at htag
  rcases htag with rfl | rfl | rfl | rfl
  · exact hn.symm.trans hnetmask
  · exact hb.symm.trans hbroadcast
  · exact hg.symm.trans hgateway
  · exact hs.symm.trans hnameserver

/-- A parser that returns with these values is right. -/
theorem Options.Returnable.parsesOptions {opt : Options} (h : opt.Returnable)
    (hvalues : ∀ items, opt.Follows items →
      ∀ tag ∈ addressTags, opt.lastValue tag = firstValue items tag) : ParsesOptions opt := by
  intro c
  refine ⟨_, h.parse c, fun items hitems => ?_⟩
  obtain ⟨hn, hb, hg, hs⟩ := opt.foldl_apply_all c
  have hvalue := hvalues items hitems
  rw [hn, hb, hg, hs, hvalue 1 (by decide), hvalue 28 (by decide), hvalue 3 (by decide),
    hvalue 6 (by decide)]
  exact ⟨rfl, rfl, rfl, rfl⟩

/-- For every content of the area: parsing is right exactly if the loop returns, and, in an area
    that follows RFC 2132, the last value of each tag that it comes to is the first one. -/
theorem parse_options_iff (opt : Options) :
    ParsesOptions opt ↔ opt.Returnable ∧
      ∀ items, opt.Follows items →
        ∀ tag ∈ addressTags, opt.lastValue tag = firstValue items tag := by
  constructor
  · intro h
    exact ⟨h.returnable, fun _ hitems _ htag => h.lastValue hitems htag⟩
  · intro h
    exact h.1.parsesOptions h.2

/-- The message type of an acknowledgment, pads, and an end option at the index 256. -/
def endAt256 : Options where
  bytes := [53, 1, 5] ++ List.replicate 253 0 ++ 255 :: List.replicate 49 0
  length := by
    rw [List.length_append, List.length_append, List.length_cons (a := 255), List.length_replicate,
      List.length_replicate]
    rfl

/-- The loop comes to the end option again and again. -/
theorem not_parse_options : ¬ ∀ opt, ParsesOptions opt := by
  intro h
  have hreturnable : ¬ endAt256.Returnable := by decide +kernel
  exact hreturnable (h endAt256).returnable

/-! ## Short areas -/

namespace Options

variable {opt : Options} {n p : Nat} {items : List Item} {item : Item} {pre rest : List UInt8}
  {tag : UInt8}

/-- What the option at `p` has for the tag. -/
def valueAt (opt : Options) (tag : UInt8) (p : Nat) : Option IP.Address :=
  if opt.byte p = tag ∧ Stores tag (opt.byte (p + 1)) then some (opt.addressAt (p + 2)) else none

/-- The last value among the options that are visited. -/
theorem lastValue_eq (opt : Options) (tag : UInt8) :
    opt.lastValue tag = (opt.allVisited.filterMap (opt.valueAt tag)).getLast? := by
  have key (l : List Nat) : l.filterMap (opt.valueAt tag) =
      (l.filter fun p => opt.byte p = tag ∧ Stores tag (opt.byte (p + 1))).map
        fun p => opt.addressAt (p + 2) := by
    induction l with
    | nil => rfl
    | cons p l ih =>
      by_cases h : opt.byte p = tag ∧ Stores tag (opt.byte (p + 1))
      · have hvalue : opt.valueAt tag p = some (opt.addressAt (p + 2)) := if_pos h
        rw [List.filterMap_cons_some hvalue, List.filter_cons_of_pos (by simpa using h),
          List.map_cons, ih]
      · have hvalue : opt.valueAt tag p = none := if_neg h
        rw [List.filterMap_cons_none hvalue, List.filter_cons_of_neg (by simpa using h), ih]
  unfold lastValue
  rw [key, List.getLast?_map]

/-- A byte behind what has been read. -/
theorem byte_append (hb : opt.bytes = pre ++ rest) (i : Nat) :
    opt.byte (pre.length + i) = rest.getD i 0 := by
  unfold byte
  rw [hb, List.getD_append_right _ _ _ _ (Nat.le_add_right _ _), Nat.add_sub_cancel_left]

/-- What has been read and what is left fill the options. -/
theorem length_append (hb : opt.bytes = pre ++ rest) :
    pre.length + rest.length = maxOptionsLength := by
  rw [← List.length_append, ← hb, opt.length]

/-- An address needs four bytes. -/
theorem Stores.four_le {len : UInt8} (h : Stores tag len) : 4 ≤ len.toNat := by
  rcases h with ⟨-, h⟩ | ⟨-, h⟩
  · rw [h]
    decide
  · exact h

/-- The length of a valid option for an address is one with which it is stored. -/
theorem stores_of_valid {data : List UInt8} (hv : (Item.option tag data).Valid)
    (htag : tag ∈ addressTags) : Stores tag (UInt8.ofNat data.length) := by
  obtain ⟨-, -, hlt, hfour, hmore⟩ := hv
  have hle : (4 : UInt8) ≤ UInt8.ofNat data.length ↔ 4 ≤ data.length := by
    rw [UInt8.le_iff_toNat_le, UInt8.toNat_ofNat', Nat.mod_eq_of_lt hlt]
    rfl
  simp only [addressTags, List.mem_cons, List.not_mem_nil, or_false] at htag
  rcases htag with ht | ht | ht | ht
  · exact .inl ⟨.inl ht, by rw [hfour (.inl ht)]; rfl⟩
  · exact .inl ⟨.inr (.inl ht), by rw [hfour (.inr (.inl ht))]; rfl⟩
  · exact .inr ⟨.inl ht, hle.mpr (hmore (.inl ht)).1⟩
  · exact .inr ⟨.inr ht, hle.mpr (hmore (.inr ht)).1⟩

section

variable {t : UInt8} {data : List UInt8}

/-- The address of an option begins behind its tag and its length. -/
theorem addressAt_option (hb : opt.bytes = pre ++ ((Item.option t data).encode ++ rest))
    (hdata : 4 ≤ data.length) :
    opt.addressAt (pre.length + 2) =
      ![data.getD 0 0, data.getD 1 0, data.getD 2 0, data.getD 3 0] := by
  have hget (i : Nat) (hi : i < 4) : opt.byte (pre.length + 2 + i) = data.getD i 0 := by
    have h := byte_append hb (2 + i)
    rw [← Nat.add_assoc] at h
    rw [h, Item.encode, Nat.add_comm 2 i, List.getD_append _ _ _ _ (by simp; omega)]
    rfl
  have hfirst := hget 0 (by decide)
  rw [Nat.add_zero] at hfirst
  rw [addressAt, hfirst, hget 1 (by decide), hget 2 (by decide), hget 3 (by decide)]

/-- The value of an option at its place. -/
theorem valueAt_option (hb : opt.bytes = pre ++ ((Item.option t data).encode ++ rest))
    (hv : (Item.option t data).Valid) (htag : tag ∈ addressTags) :
    opt.valueAt tag pre.length = (Item.option t data).address tag := by
  have h0 : opt.byte pre.length = t := byte_append hb 0
  have h1 : opt.byte (pre.length + 1) = UInt8.ofNat data.length := byte_append hb 1
  have haddress : (Item.option t data).address tag = if t = tag then
      some ![data.getD 0 0, data.getD 1 0, data.getD 2 0, data.getD 3 0] else none := rfl
  rw [valueAt, haddress, h0, h1]
  by_cases ht : t = tag
  · subst ht
    have hstores := stores_of_valid hv htag
    have hdata := hstores.four_le
    rw [UInt8.toNat_ofNat', Nat.mod_eq_of_lt hv.2.2.1] at hdata
    rw [if_pos ⟨rfl, hstores⟩, if_pos rfl, addressAt_option hb hdata]
  · rw [if_neg fun h => ht h.1, if_neg ht]

/-- The loop reads an option inside the area and goes on behind it. -/
theorem option_spec (hb : opt.bytes = pre ++ ((Item.option t data).encode ++ rest))
    (hv : (Item.option t data).Valid) (hrest : rest ≠ []) :
    opt.byte pre.length ≠ 255 ∧ opt.Reads pre.length ∧
      opt.next pre.length = pre.length + (Item.option t data).encode.length := by
  have hlength := length_append hb
  have hpos := List.length_pos_iff.mpr hrest
  obtain ⟨hpad, hend, hlt, -, -⟩ := hv
  have h0 : opt.byte pre.length = t := byte_append hb 0
  have hlen : (opt.byte (pre.length + 1)).toNat = data.length := by
    rw [byte_append hb 1]
    exact Nat.mod_eq_of_lt hlt
  have htotal : pre.length + 2 + data.length < maxOptionsLength := by
    simp only [Item.encode, List.length_append, List.length_cons] at hlength
    omega
  refine ⟨h0 ▸ hend, .inr (.inr ⟨by omega, fun hs => ?_⟩), ?_⟩
  · -- what is stored has four bytes, which the option has
    have hdata := hs.four_le
    omega
  · rw [next, h0, if_neg hpad, if_neg hend, hlen]
    simp only [Item.encode, List.length_cons]
    omega

end

/-- What the loop does at a pad. -/
theorem pad_spec (hb : opt.bytes = pre ++ (Item.pad.encode ++ rest)) (htag : tag ∈ addressTags) :
    opt.byte pre.length ≠ 255 ∧ opt.Reads pre.length ∧
      opt.next pre.length = pre.length + Item.pad.encode.length ∧
      opt.valueAt tag pre.length = Item.pad.address tag := by
  have h0 : opt.byte pre.length = 0 := byte_append hb 0
  have hne : (0 : UInt8) ≠ tag := by
    rintro rfl
    revert htag
    decide
  refine ⟨?_, .inl h0, ?_, ?_⟩
  · rw [h0]
    decide
  · rw [next, if_pos h0]
    rfl
  · rw [valueAt, h0, if_neg fun h => hne h.1]
    rfl

/-- At the tag of an item the loop reads inside the area, finds its address and goes on behind
    it. -/
theorem item_spec (hb : opt.bytes = pre ++ (item.encode ++ rest)) (hv : item.Valid)
    (hrest : rest ≠ []) (htag : tag ∈ addressTags) :
    opt.byte pre.length ≠ 255 ∧ opt.Reads pre.length ∧
      opt.next pre.length = pre.length + item.encode.length ∧
      opt.valueAt tag pre.length = item.address tag := by
  cases item with
  | pad => exact pad_spec hb htag
  | option t data =>
    obtain ⟨hend, hreads, hnext⟩ := option_spec hb hv hrest
    exact ⟨hend, hreads, hnext, valueAt_option hb hv htag⟩

/-- No item is empty. -/
theorem encode_pos (item : Item) : 0 < item.encode.length := by
  cases item with
  | pad => exact Nat.zero_lt_one
  | option t data => exact Nat.succ_pos _

/-- The loop goes over the items to the end option. -/
theorem visitedFrom_items (hb : opt.bytes = pre ++ (items.flatMap Item.encode ++ 255 :: rest))
    (hv : ∀ item ∈ items, item.Valid) (hn : maxOptionsLength ≤ pre.length + n)
    (htag : tag ∈ addressTags) :
    (∀ q ∈ opt.visitedFrom n pre.length, opt.Reads q) ∧ opt.Ends (opt.visitedFrom n pre.length) ∧
      (opt.visitedFrom n pre.length).filterMap (opt.valueAt tag) =
        items.filterMap (Item.address tag) := by
  have hlength := length_append hb
  induction items generalizing pre n with
  | nil =>
    -- only the end option is left
    have hend : opt.byte pre.length = 255 := byte_append hb 0
    have hne : (255 : UInt8) ≠ tag := by
      rintro rfl
      revert htag
      decide
    have hvalue : opt.valueAt tag pre.length = none := by
      rw [valueAt, hend, if_neg fun h => hne h.1]
    have hlt : pre.length < maxOptionsLength := by
      rw [← hlength]
      exact Nat.lt_add_of_pos_right (Nat.succ_pos _)
    obtain ⟨n, rfl⟩ := Nat.exists_eq_succ_of_ne_zero (show n ≠ 0 by omega)
    rw [visitedFrom, if_pos hlt, if_pos hend]
    refine ⟨fun q hq => ?_, ⟨_, List.mem_singleton_self _, hend⟩, ?_⟩
    · rw [List.mem_singleton.mp hq]
      exact .inr (.inl hend)
    · rw [List.filterMap_cons_none hvalue]
      rfl
  | cons item items ih =>
    obtain ⟨hitem, hitems⟩ := List.forall_mem_cons.mp hv
    rw [List.flatMap_cons, List.append_assoc] at hb
    have hpos := encode_pos item
    obtain ⟨hne, hreads, hnext, hvalue⟩ := item_spec hb hitem (by simp) htag
    -- the rest begins behind the item
    have hb' : opt.bytes = (pre ++ item.encode) ++ (items.flatMap Item.encode ++ 255 :: rest) := by
      rw [hb, List.append_assoc]
    have hlength' := length_append hb'
    rw [List.length_append] at hlength'
    have hlt : pre.length < maxOptionsLength := by omega
    obtain ⟨n, rfl⟩ := Nat.exists_eq_succ_of_ne_zero (show n ≠ 0 by omega)
    obtain ⟨hreads', ⟨q, hq, hend⟩, hvalues⟩ := ih (n := n) hb' hitems
      (by rw [List.length_append]; omega) (length_append hb')
    rw [List.length_append, ← hnext] at hreads' hq hvalues
    rw [visitedFrom, if_pos hlt, if_neg hne]
    refine ⟨List.forall_mem_cons.mpr ⟨hreads, hreads'⟩, ⟨q, List.mem_cons_of_mem _ hq, hend⟩, ?_⟩
    rw [List.filterMap_cons, List.filterMap_cons, hvalue, hvalues]

/-- Behind the end option there are only pads. -/
theorem visitedFrom_pads (hpads : ∀ q, p ≤ q → opt.byte q = 0) (n : Nat) :
    ∀ q ∈ opt.visitedFrom n p, opt.byte q = 0 := by
  induction n generalizing p with
  | zero => exact fun q hq => nomatch hq
  | succ n ih =>
    have hp := hpads p (Nat.le_refl p)
    have hnext : opt.next p = p + 1 := if_pos hp
    unfold visitedFrom
    by_cases hlt : p < maxOptionsLength
    · rw [if_pos hlt, hp, if_neg (by decide), hnext]
      exact List.forall_mem_cons.mpr ⟨hp, ih fun q hq => hpads q (Nat.le_of_succ_le hq)⟩
    · rw [if_neg hlt]
      exact fun q hq => nomatch hq

/-- The tags that the loop comes to first are the ones of the items. -/
theorem Follows.visited (h : opt.Follows items) (htag : tag ∈ addressTags) :
    (∀ q ∈ opt.visited 0, opt.Reads q) ∧ opt.Ends (opt.visited 0) ∧
      (opt.visited 0).filterMap (opt.valueAt tag) = items.filterMap (Item.address tag) := by
  obtain ⟨k, hb⟩ := h.bytes
  have hb' : opt.bytes = [] ++ (items.flatMap Item.encode ++ 255 :: List.replicate k 0) := hb
  exact visitedFrom_items hb' h.valid (Nat.le_add_left _ _) htag

/-- If the end option of an area that follows RFC 2132 is in front of the index 256, the loop
    returns, and goes over the options in order. -/
theorem Follows.short (h : opt.Follows items) (hshort : (items.flatMap Item.encode).length < 256) :
    opt.Returnable ∧ ∀ tag ∈ addressTags,
      opt.lastValue tag = (items.filterMap (Item.address tag)).getLast? := by
  obtain ⟨k, hb⟩ := h.bytes
  -- behind the items there are zeros up to the end
  have hpads (q : Nat) (hq : 256 ≤ q) : opt.byte q = 0 := by
    obtain ⟨i, rfl⟩ := Nat.exists_eq_add_of_le (Nat.le_trans (Nat.succ_le_of_lt hshort) hq)
    rw [Nat.succ_add_eq_add_succ, byte_append hb, List.getD_cons_succ]
    by_cases hi : i < k
    · rw [List.getD_eq_getElem _ _ (by rwa [List.length_replicate]), List.getElem_replicate]
    · exact List.getD_eq_default _ _ (by rw [List.length_replicate]; omega)
  -- so the loop goes on over padding when it does not stop at the end option
  have hzero := visitedFrom_pads hpads maxOptionsLength
  have hreturnable : opt.Returnable := by
    have htag : (1 : UInt8) ∈ addressTags := by decide
    refine ⟨(h.visited htag).1, fun _ => ⟨fun q hq => .inl (hzero q hq), ?_⟩⟩
    rintro ⟨q, hq, hend⟩
    rw [hzero q hq] at hend
    cases hend
  refine ⟨hreturnable, fun tag htag => ?_⟩
  obtain ⟨-, hends, hvalues⟩ := h.visited htag
  have hnone : (opt.visited 256).filterMap (opt.valueAt tag) = [] := by
    apply List.filterMap_eq_nil_iff.mpr
    intro q hq
    have hne : (0 : UInt8) ≠ tag := by
      rintro rfl
      revert htag
      decide
    rw [valueAt, hzero q hq, if_neg fun h => hne h.1]
  rw [lastValue_eq, allVisited, if_pos hends, List.filterMap_append, hvalues, hnone,
    List.append_nil]

end Options

/-- Such an area is parsed right if no option with an address occurs twice. -/
theorem Options.Follows.parsesOptions {opt : Options} {items : List Item} (h : opt.Follows items)
    (hshort : (items.flatMap Item.encode).length < 256)
    (honce : ∀ tag ∈ addressTags, (items.filterMap (Item.address tag)).length ≤ 1) :
    ParsesOptions opt := by
  obtain ⟨hreturnable, hlast⟩ := h.short hshort
  refine hreturnable.parsesOptions fun items' hitems' tag htag => ?_
  have hsame : items'.filterMap (Item.address tag) = items.filterMap (Item.address tag) :=
    (hitems'.visited htag).2.2.symm.trans (h.visited htag).2.2
  have hone := honce tag htag
  rw [hlast tag htag, firstValue, ← List.head?_filterMap, hsame]
  cases hlist : items.filterMap (Item.address tag) with
  | nil => rfl
  | cons a l =>
    rw [hlist, List.length_cons] at hone
    have hnil : l = [] := List.eq_nil_of_length_eq_zero (by omega)
    rw [hnil]
    rfl

end DHCP

end Epos
