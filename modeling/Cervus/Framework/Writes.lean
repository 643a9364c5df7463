import Mathlib.Data.List.Induction

/-! # Sequences of writes

    A store is a function from addresses to contents; a sequence of writes is applied
    to it one after the other.

    * `apply_eq`: afterwards an address holds the last write to it, or what it held
      before;
    * `apply_restart`: applying a sequence once more to any store that differs only
      where the sequence writes ends in the same store. This is what makes redo logs
      restartable;
    * `Torn`: what may be there when the writes were cut short, if contents consist of
      parts (the bytes of a block) that are written in any order. -/

namespace Cervus.Writes

open List Function

variable {α β : Type*} [DecidableEq α] {ws : List (α × β)} {a : α}

/-- The store after the writes. -/
def apply (d : α → β) (ws : List (α × β)) : α → β :=
  ws.foldl (fun d w => Function.update d w.1 w.2) d

/-- The last write to an address. -/
def last (ws : List (α × β)) (a : α) : Option β :=
  ((ws.filter fun w => w.1 = a).getLast?).map Prod.snd

@[simp] theorem apply_nil (d : α → β) : apply d [] = d := rfl

theorem apply_cons (d : α → β) (w : α × β) (ws : List (α × β)) :
    apply d (w :: ws) = apply (Function.update d w.1 w.2) ws := rfl

theorem apply_append (d : α → β) (ws vs : List (α × β)) :
    apply d (ws ++ vs) = apply (apply d ws) vs := by
  unfold apply
  rw [foldl_append]

/-- **Last write wins.** -/
theorem apply_eq (d : α → β) (ws : List (α × β)) (a : α) :
    apply d ws a = (last ws a).getD (d a) := by
  induction ws using reverseRecOn with
  | nil => rfl
  | append_singleton ws w ih =>
    rw [apply_append, apply_cons, apply_nil]
    by_cases ha : w.1 = a
    · -- the last write is to this address
      have hlast : last (ws ++ [w]) a = some w.2 := by
        simp [last, filter_append, ha]
      rw [hlast, ha, update_self]
      rfl
    · have hlast : last (ws ++ [w]) a = last ws a := by
        simp [last, filter_append, ha]
      rw [hlast, update_of_ne (Ne.symm ha), ih]

theorem last_eq_none (h : ∀ w ∈ ws, w.1 ≠ a) : last ws a = none := by
  have hempty : (ws.filter fun w => w.1 = a) = [] := by
    rw [filter_eq_nil_iff]
    intro w hw
    simpa using h w hw
  unfold last
  rw [hempty]
  rfl

theorem apply_of_not_mem {d : α → β} (h : ∀ w ∈ ws, w.1 ≠ a) :
    apply d ws a = d a := by
  rw [apply_eq, last_eq_none h]
  rfl

/-- An address to which only `v` is written holds `v`. -/
theorem apply_of_const {d : α → β} {v : β}
    (hmem : ∃ w ∈ ws, w.1 = a) (hval : ∀ w ∈ ws, w.2 = v) : apply d ws a = v := by
  induction ws using reverseRecOn with
  | nil =>
    obtain ⟨w, hw, -⟩ := hmem
    cases hw
  | append_singleton ws w ih =>
    rw [apply_append, apply_cons, apply_nil]
    by_cases ha : a = w.1
    · rw [ha, update_self]
      exact hval w (mem_append_right _ (.head _))
    rw [update_of_ne ha]
    obtain ⟨w', hw', hwa⟩ := hmem
    rcases mem_append.mp hw' with hold | hnew
    · exact ih ⟨w', hold, hwa⟩ fun u hu => hval u (mem_append_left _ hu)
    · obtain rfl := mem_singleton.mp hnew
      exact absurd hwa.symm ha

/-- **Restart.** -/
theorem apply_restart {d d' : α → β}
    (h : ∀ a, (∀ w ∈ ws, w.1 ≠ a) → d' a = d a) : apply d' ws = apply d ws := by
  funext a
  rw [apply_eq, apply_eq]
  by_cases ha : ∀ w ∈ ws, w.1 ≠ a
  · rw [h a ha]
  -- some write is to this address, so what was there before does not matter
  obtain ⟨w, hw⟩ := not_forall.mp ha
  obtain ⟨hmem, hwa⟩ := not_forall.mp hw
  have hsome : (last ws a).isSome := by
    have hpair : (a, w.2) ∈ ws := by
      rw [← not_not.mp hwa]
      exact hmem
    simpa [last] using ⟨w.2, hpair⟩
  obtain ⟨v, hv⟩ := Option.isSome_iff_exists.mp hsome
  rw [hv]
  rfl

/-! ## Interrupted writes -/

section Torn

variable {ι γ : Type*} {d d' : α → ι → γ} {ws : List (α × (ι → γ))}

/-- Every part of every content is the old one or that of some write to the address. -/
def Torn (d : α → ι → γ) (ws : List (α × (ι → γ))) (d' : α → ι → γ) : Prop :=
  ∀ a i, d' a i = d a i ∨ ∃ w ∈ ws, w.1 = a ∧ d' a i = w.2 i

omit [DecidableEq α] in
theorem Torn.refl (d : α → ι → γ) (ws : List (α × (ι → γ))) : Torn d ws d := fun _ _ => .inl rfl

theorem Torn.update (h : Torn d ws d') {w : α × (ι → γ)} (hw : w ∈ ws) :
    Torn d ws (Function.update d' w.1 w.2) := by
  intro a i
  by_cases ha : a = w.1
  · subst ha
    right
    exact ⟨w, hw, rfl, by rw [update_self]⟩
  · rw [update_of_ne ha]
    exact h a i

omit [DecidableEq α] in
theorem Torn.trans (h : Torn d ws d') {d'' : α → ι → γ} (h' : Torn d' ws d'') : Torn d ws d'' := by
  intro a i
  rcases h' a i with heq | hw
  · rw [heq]
    exact h a i
  · exact .inr hw

omit [DecidableEq α] in
theorem Torn.of_not_mem (h : Torn d ws d') (ha : ∀ w ∈ ws, w.1 ≠ a) : d' a = d a := by
  funext i
  rcases h a i with heq | ⟨w, hw, hwa, _⟩
  · exact heq
  · exact absurd hwa (ha w hw)

/-- **A crash between two writes** is an interruption. -/
theorem torn_apply (d : α → ι → γ) {ws vs : List (α × (ι → γ))} (h : ∀ w ∈ vs, w ∈ ws) :
    Torn d ws (apply d vs) := by
  induction vs using reverseRecOn with
  | nil => exact Torn.refl d ws
  | append_singleton vs w ih =>
    rw [apply_append, apply_cons, apply_nil]
    exact (ih fun v hv => h v (mem_append_left _ hv)).update
      (h w (mem_append_right _ (.head _)))

end Torn

end Cervus.Writes
