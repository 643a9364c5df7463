import Mathlib.Combinatorics.Pigeonhole

/-! # Loops that may not end

    A loop repeats a round `f` until `f` gives no further state. `after f s k` is the state
    after `k` rounds, and `loop f fuel s` the state the loop ends in, if it ends within `fuel`
    rounds.

    * `ends_iff`: the loop ends with enough fuel exactly when some number of rounds
      leaves no state.
    * `ends_of_no_repeat`: a loop whose states have a bounded key ends when no key is seen
      twice; `not_ends_of_repeat`, `not_ends_of_invariant`: loops that go on for ever.
    * `ends_of_simulation`: a loop that does nothing another one does not do ends with it. -/

universe u v

namespace Cervus.Iterate

open Option

variable {σ : Type u} {τ : Type v}

/-- The state after a number of rounds. -/
def after (f : σ → Option σ) (s : σ) : Nat → Option σ
  | 0 => some s
  | k + 1 => (after f s k).bind f

/-- The loop, with a bound on the rounds. -/
def loop (f : σ → Option σ) : Nat → σ → Option σ
  | 0, _ => none
  | fuel + 1, s =>
    match f s with
    | none => some s
    | some s => loop f fuel s

/-- The loop ends. -/
def Ends (f : σ → Option σ) (s : σ) : Prop := ∃ fuel r, loop f fuel s = some r

section

variable (f : σ → Option σ) (s : σ)

theorem after_succ (k : Nat) : after f s (k + 1) = (f s).bind fun s' => after f s' k := by
  induction k with
  | zero => cases h : f s <;> simp [after, h]
  | succ k ih =>
    rw [after, ih]
    cases f s <;> rfl

theorem after_add (i n : Nat) :
    after f s (i + n) = (after f s i).bind fun s' => after f s' n := by
  induction n with
  | zero => cases after f s i <;> rfl
  | succ n ih =>
    rw [← Nat.add_assoc, after, ih]
    cases after f s i <;> rfl

theorem loop_isSome_iff (fuel : Nat) :
    ∀ s, (loop f fuel s).isSome ↔ ∃ k ≤ fuel, after f s k = none := by
  induction fuel with
  | zero =>
    intro s
    constructor
    · intro h
      cases h
    · rintro ⟨k, hk, h⟩
      obtain rfl := Nat.le_zero.mp hk
      cases h
  | succ fuel ih =>
    intro s
    rw [loop]
    cases hf : f s with
    | none =>
      refine ⟨fun _ => ⟨1, by omega, ?_⟩, fun _ => rfl⟩
      simpa [after] using hf
    | some s' =>
      rw [ih s']
      constructor
      · rintro ⟨k, hk, h⟩
        refine ⟨k + 1, by omega, ?_⟩
        rw [after_succ, hf]
        exact h
      rintro ⟨k, hk, h⟩
      cases k with
      | zero => cases h
      | succ k =>
        refine ⟨k, by omega, ?_⟩
        rw [after_succ, hf] at h
        exact h

theorem ends_iff : Ends f s ↔ ∃ k, after f s k = none := by
  constructor
  · rintro ⟨fuel, r, h⟩
    obtain ⟨k, -, hk⟩ := (loop_isSome_iff f fuel s).mp (by rw [h]; rfl)
    exact ⟨k, hk⟩
  rintro ⟨k, hk⟩
  have hsome := (loop_isSome_iff f k s).mpr ⟨k, Nat.le_refl k, hk⟩
  obtain ⟨r, hr⟩ := isSome_iff_exists.mp hsome
  exact ⟨k, r, hr⟩

end

/-- No two rounds that go on start with the same key. -/
def NoRepeat (f : σ → Option σ) (key : σ → Nat) (s : σ) : Prop :=
  ∀ i j a b, i < j → after f s i = some a → after f s j = some b →
    (f a).isSome → (f b).isSome → key a ≠ key b

theorem ends_of_no_repeat {f : σ → Option σ} {key : σ → Nat} {s : σ} (bound : Nat)
    (hbound : ∀ k a, after f s k = some a → key a < bound) (h : NoRepeat f key s) : Ends f s := by
  rw [ends_iff]
  by_contra hnone
  have hall : ∀ k, ∃ a, after f s k = some a := fun k =>
    ne_none_iff_exists'.mp fun hk => hnone ⟨k, hk⟩
  choose state hstate using hall
  have hgoes : ∀ k, (f (state k)).isSome := by
    intro k
    have hnext := hstate (k + 1)
    rw [after, hstate k] at hnext
    exact isSome_iff_exists.mpr ⟨_, hnext⟩
  -- there are more rounds than keys
  obtain ⟨i, -, j, -, hij, hkey⟩ := Finset.exists_ne_map_eq_of_card_lt_of_maps_to
    (s := Finset.range (bound + 1)) (t := Finset.range bound)
    (by simp) (fun k _ => by simpa using hbound k _ (hstate k))
  rcases Nat.lt_or_gt_of_ne hij with hlt | hgt
  · exact h i j _ _ hlt (hstate i) (hstate j) (hgoes i) (hgoes j) hkey
  · exact h j i _ _ hgt (hstate j) (hstate i) (hgoes j) (hgoes i) hkey.symm

/-- A state that is seen again is seen for ever. -/
theorem not_ends_of_repeat {f : σ → Option σ} {s a : σ} {i j : Nat} (hij : i < j)
    (hi : after f s i = some a) (hj : after f s j = some a) : ¬ Ends f s := by
  rw [ends_iff]
  intro hends
  have hmin := Nat.find_spec hends
  have hfirst := fun m hm => Nat.find_min hends (m := m) hm
  generalize Nat.find hends = n at hmin hfirst
  have hlt : j < n := by
    by_contra hle
    obtain ⟨m, rfl⟩ := Nat.exists_eq_add_of_le (Nat.le_of_not_lt hle)
    rw [after_add, hmin] at hj
    cases hj
  -- the round the loop ended with was there before
  obtain ⟨m, rfl⟩ := Nat.exists_eq_add_of_lt hlt
  rw [Nat.add_assoc, after_add, hj, bind_some] at hmin
  apply hfirst (i + (m + 1)) (by omega)
  rw [after_add, hi]
  exact hmin

/-- Where every state of a kind is followed by one of the kind. -/
theorem not_ends_of_invariant {f : σ → Option σ} {s : σ} (inv : σ → Prop) (hs : inv s)
    (hstep : ∀ a, inv a → ∃ b, f a = some b ∧ inv b) : ¬ Ends f s := by
  rw [ends_iff]
  rintro ⟨k, hk⟩
  have hall : ∀ n, ∃ a, after f s n = some a ∧ inv a := by
    intro n
    induction n with
    | zero => exact ⟨s, rfl, hs⟩
    | succ n ih =>
      obtain ⟨a, ha, hinv⟩ := ih
      obtain ⟨b, hb, hinv'⟩ := hstep a hinv
      exact ⟨b, by rw [after, ha]; exact hb, hinv'⟩
  obtain ⟨a, ha, -⟩ := hall k
  cases hk.symm.trans ha

/-- Every round of `g` that goes on is a round of `f` that goes on. -/
theorem ends_of_simulation {f : σ → Option σ} {g : τ → Option τ} (rel : σ → τ → Prop)
    (hstep : ∀ a b b', rel a b → g b = some b' → ∃ a', f a = some a' ∧ rel a' b')
    {s : σ} {t : τ} (hrel : rel s t) (hends : Ends f s) : Ends g t := by
  rw [ends_iff] at hends ⊢
  obtain ⟨k, hk⟩ := hends
  refine ⟨k, ?_⟩
  by_contra hsome
  -- as long as `g` goes on, so does `f`, in a related state
  have hfollow : ∀ n b, after g t n = some b → ∃ a, after f s n = some a ∧ rel a b := by
    intro n
    induction n with
    | zero =>
      intro b hb
      obtain rfl := some.inj hb
      exact ⟨s, rfl, hrel⟩
    | succ n ih =>
      intro b hb
      obtain ⟨b', hb', hg⟩ := bind_eq_some_iff.mp hb
      obtain ⟨a, ha, hab⟩ := ih b' hb'
      obtain ⟨a', hf, hrel'⟩ := hstep a b' b hab hg
      exact ⟨a', by rw [after, ha]; exact hf, hrel'⟩
  obtain ⟨b, hb⟩ := ne_none_iff_exists'.mp hsome
  obtain ⟨a, ha, -⟩ := hfollow k b hb
  rw [hk] at ha
  cases ha

end Cervus.Iterate
