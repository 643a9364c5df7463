import Mathlib.Data.List.Nodup

/-! # Linked lists in a word store

    A store of words, addressed by numbers, and lists whose nodes are addresses
    in it. The link to the next node is the word at the node itself; 0 ends a
    list.

    * `Chain`: a singly linked list, read off the store;
    * `Dlist`: a doubly linked list, with the back link `off` behind the node;
    * `Dlist.push`, `Dlist.unlink`: the two edits of a doubly linked list, and
      `unlink_frame`, `push_frame`: the words they leave alone. -/

namespace Cervus.Linked

open List

/-! ## Section 1: Stores -/

/-- The store with one word replaced. -/
def write (m : Nat → Nat) (a v : Nat) : Nat → Nat := fun b => if b = a then v else m b

@[simp] theorem write_self (m : Nat → Nat) (a v : Nat) : write m a v a = v := by
  simp [write]

variable {m : Nat → Nat}

theorem write_of_ne {a v b : Nat} (h : b ≠ a) : write m a v b = m b := by
  simp [write, h]

/-! ## Section 2: Chains -/

/-- The list that starts at `h`. -/
def Chain (m : Nat → Nat) : Nat → List Nat → Prop
  | h, [] => h = 0
  | h, a :: l => h = a ∧ a ≠ 0 ∧ Chain m (m a) l

/-- A chain depends only on the words at its nodes. -/
theorem Chain.congr {m' : Nat → Nat} {h : Nat} {l : List Nat} (hc : Chain m h l)
    (hsame : ∀ a ∈ l, m' a = m a) : Chain m' h l := by
  induction l generalizing h with
  | nil => exact hc
  | cons a l ih =>
    obtain ⟨rfl, hne, hrest⟩ := hc
    refine ⟨rfl, hne, ?_⟩
    rw [hsame h (.head _)]
    exact ih hrest fun b hb => hsame b (.tail _ hb)

/-! ## Section 3: Doubly linked lists -/

section Dlist

variable (off : Nat)

/-- The list that starts at `h`, whose first node has the back link `p`. -/
def Dlist (m : Nat → Nat) : Nat → Nat → List Nat → Prop
  | _, h, [] => h = 0
  | p, h, a :: l => h = a ∧ a ≠ 0 ∧ m (a + off) = p ∧ Dlist m a (m a) l

/-- `s` becomes the first node of the list at `h`. -/
def push (m : Nat → Nat) (h s : Nat) : (Nat → Nat) × Nat :=
  let m := write m s h
  let m := write m (s + off) 0
  let m := if h ≠ 0 then write m (h + off) s else m
  (m, s)

/-- `s` leaves the list at `h`. -/
def unlink (m : Nat → Nat) (h s : Nat) : (Nat → Nat) × Nat :=
  let r := if m (s + off) ≠ 0 then (write m (m (s + off)) (m s), h) else (m, m s)
  let m := r.1
  let m := if m s ≠ 0 then write m (m s + off) (m (s + off)) else m
  (write (write m s 0) (s + off) 0, r.2)

/-- The words of the nodes are different words. -/
def Apart (l : List Nat) : Prop := ∀ a ∈ l, ∀ b ∈ l, a + off ≠ b

variable {off} {m m' : Nat → Nat} {p h s : Nat} {l : List Nat}

/-- A doubly linked list depends only on the two words of its nodes. -/
theorem Dlist.congr (hd : Dlist off m p h l)
    (hsame : ∀ a ∈ l, m' a = m a ∧ m' (a + off) = m (a + off)) : Dlist off m' p h l := by
  induction l generalizing p h with
  | nil => exact hd
  | cons a l ih =>
    obtain ⟨rfl, hne, hp, hrest⟩ := hd
    obtain ⟨hnext, hprev⟩ := hsame h (.head _)
    refine ⟨rfl, hne, by rw [hprev, hp], ?_⟩
    rw [hnext]
    exact ih hrest fun b hb => hsame b (.tail _ hb)

variable {a : Nat} {l1 l2 : List Nat}

/-- The first node. -/
theorem Dlist.head_eq (hd : Dlist off m p h (a :: l)) : h = a := hd.1

theorem Dlist.head_mem (hd : Dlist off m p h l) (hne : h ≠ 0) : h ∈ l := by
  cases l with
  | nil => exact absurd hd hne
  | cons a l =>
    rw [hd.head_eq]
    exact .head _

/-- The words a push may change. -/
theorem push_frame (hs : a ≠ s) (hs' : a ≠ s + off) (hh : h ≠ 0 → a ≠ h + off) :
    (push off m h s).1 a = m a := by
  unfold push
  by_cases hz : h = 0
  · simp [hz, write_of_ne hs, write_of_ne hs']
  · simp [hz, write_of_ne hs, write_of_ne hs', write_of_ne (hh hz)]

/-- **Push.** -/
theorem Dlist.push (hd : Dlist off m 0 h l) (hs : s ≠ 0) (hnodup : (s :: l).Nodup)
    (hapart : Apart off (s :: l)) :
    Dlist off (Linked.push off m h s).1 0 (Linked.push off m h s).2 (s :: l) := by
  have hself : s + off ≠ s := hapart s (.head _) s (.head _)
  cases l with
  | nil =>
    obtain rfl : h = 0 := hd
    exact ⟨rfl, hs, by simp [Linked.push], by simp [Linked.push, Dlist, write_of_ne hself.symm]⟩
  | cons b l =>
    obtain ⟨rfl, hb, _, hrest⟩ := hd
    have hh : h ∈ s :: h :: l := by simp
    have hsh : s ≠ h := by
      rintro rfl
      simp at hnodup
    have hhself : h + off ≠ h := hapart h hh h hh
    have hhs : h + off ≠ s := hapart h hh s (.head _)
    have hsh' : s + off ≠ h := hapart s (.head _) h hh
    have hne : s + off ≠ h + off := fun heq => hsh (Nat.add_right_cancel heq)
    have hnext : (Linked.push off m h s).1 s = h := by
      simp [Linked.push, hb, write_of_ne hhs.symm, write_of_ne hself.symm]
    refine ⟨rfl, hs, ?_, ?_⟩
    · simp [Linked.push, hb, write_of_ne hne]
    rw [hnext]
    refine ⟨rfl, hb, by simp [Linked.push, hb], ?_⟩
    rw [push_frame hsh.symm hsh'.symm fun _ => hhself.symm]
    apply hrest.congr
    intro a ha
    -- the words of the other nodes are none of the three that were written
    have ha' : a ∈ s :: h :: l := by simp [ha]
    have has : a ≠ s := by
      rintro rfl
      simp [ha] at hnodup
    have hah : a ≠ h := by
      rintro rfl
      simp [ha] at hnodup
    constructor
    · exact push_frame has (hapart s (.head _) a ha').symm
        fun _ => (hapart h hh a ha').symm
    · exact push_frame (hapart a ha' s (.head _))
        (fun heq => has (Nat.add_right_cancel heq)) fun _ heq => hah (Nat.add_right_cancel heq)

/-- The neighbours of a node. -/
theorem Dlist.prev_eq (hd : Dlist off m p h (l1 ++ s :: l2)) :
    m (s + off) = (p :: l1).getLast (cons_ne_nil _ _) := by
  induction l1 generalizing p h with
  | nil => exact hd.2.2.1
  | cons a l1 ih => exact ih hd.2.2.2

theorem Dlist.next_mem (hd : Dlist off m p h (l1 ++ s :: l2)) : m s = 0 ∨ m s ∈ l2 := by
  induction l1 generalizing p h with
  | nil =>
    have hrest := hd.2.2.2
    by_cases hz : m s = 0
    · exact .inl hz
    · exact .inr (hrest.head_mem hz)
  | cons a l1 ih => exact ih hd.2.2.2

theorem Dlist.ne_zero (hd : Dlist off m p h l) (ha : a ∈ l) : a ≠ 0 := by
  induction l generalizing p h with
  | nil => cases ha
  | cons b l ih =>
    rcases mem_cons.mp ha with rfl | ha
    · exact hd.2.1
    · exact ih hd.2.2.2 ha

/-- A node is bridged: its neighbours point to each other. -/
theorem Dlist.splice (hd : Dlist off m p h (l1 ++ s :: l2)) (hnodup : (p :: (l1 ++ s :: l2)).Nodup)
    (hnext : ∀ a ∈ l1 ++ l2, m' a = if a = m (s + off) then m s else m a)
    (hprev : ∀ a ∈ l1 ++ l2, m' (a + off) = if a = m s then m (s + off) else m (a + off)) :
    Dlist off m' p (if l1 = [] then m s else h) (l1 ++ l2) := by
  induction l1 generalizing p h with
  | nil =>
    obtain ⟨rfl, _, hp, hrest⟩ := hd
    rw [hp] at hnext hprev
    cases l2 with
    | nil => exact hrest
    | cons b l =>
      obtain ⟨hb, hb0, _, hrest⟩ := hrest
      have hpb : b ≠ p := by
        rintro rfl
        simp at hnodup
      refine ⟨hb, hb0, by rw [hprev b (.head _), if_pos hb.symm], ?_⟩
      rw [hnext b (.head _), if_neg hpb]
      apply hrest.congr
      intro a ha
      have hap : a ≠ p := by
        rintro rfl
        simp [ha] at hnodup
      have hab : a ≠ m h := by
        rintro heq
        rw [heq, hb] at ha
        simp [ha] at hnodup
      rw [hnext a (.tail _ ha), hprev a (.tail _ ha), if_neg hap, if_neg hab]
      exact ⟨rfl, rfl⟩
  | cons a l1 ih =>
    have hlast := hd.prev_eq
    have hnextmem := hd.next_mem
    obtain ⟨rfl, ha0, hp, hrest⟩ := hd
    have hnodup' : (h :: (l1 ++ s :: l2)).Nodup := (nodup_cons.mp hnodup).2
    -- the first node is not the one behind `s`, and the one before it only if it is the last
    have hms : h ≠ m s := by
      intro heq
      rcases hnextmem with hz | hmem
      · exact ha0 (heq.trans hz)
      · rw [← heq] at hmem
        simp [hmem] at hnodup'
    refine ⟨rfl, ha0, by rw [hprev h (.head _), if_neg hms, hp], ?_⟩
    have hih := ih hrest hnodup' (fun b hb => hnext b (.tail _ hb))
      fun b hb => hprev b (.tail _ hb)
    have hhead : m' h = if l1 = [] then m s else m h := by
      rw [hnext h (.head _), hlast, getLast_cons (cons_ne_nil _ _)]
      by_cases hl : l1 = []
      · simp [hl]
      rw [if_neg hl, if_neg]
      rw [getLast_cons hl]
      intro heq
      have hmem := getLast_mem hl
      rw [← heq] at hmem
      simp [hmem] at hnodup'
    rw [hhead]
    exact hih

/-- The words an unlinking leaves behind, apart from those of the node itself. -/
theorem unlink_read (hq : m (s + off) ≠ s) (hq' : m (s + off) ≠ s + off) (has : a ≠ s)
    (has' : a ≠ s + off) : (unlink off m h s).1 a = if m s ≠ 0 ∧ a = m s + off then m (s + off)
      else if m (s + off) ≠ 0 ∧ a = m (s + off) then m s else m a := by
  unfold unlink
  simp only [write_of_ne has, write_of_ne has']
  by_cases hz : m (s + off) = 0
  · by_cases hn : m s = 0
    · simp [hz, hn]
    · by_cases ha : a = m s + off
      · simp [hz, hn, ha]
      · simp [hz, hn, ha, write_of_ne ha]
  simp only [ne_eq, hz, not_false_eq_true, if_true, write_of_ne hq.symm, write_of_ne hq'.symm,
    true_and]
  by_cases hn : m s = 0
  · by_cases ha : a = m (s + off)
    · simp [hn, ha]
    · simp [hn, ha, write_of_ne ha]
  by_cases ha : a = m s + off
  · simp [hn, ha]
  by_cases haq : a = m (s + off)
  · rw [haq] at ha
    simp [hn, haq, ha, write_of_ne ha]
  · simp [hn, ha, haq, write_of_ne ha, write_of_ne haq]

section

variable (hd : Dlist off m 0 h (l1 ++ s :: l2))
include hd

theorem Dlist.prev_mem : m (s + off) = 0 ∨ m (s + off) ∈ l1 := by
  rw [hd.prev_eq]
  by_cases hl : l1 = []
  · simp [hl]
  · rw [getLast_cons hl]
    exact .inr (getLast_mem hl)

/-- The back link of a node is not one of its own two words. -/
theorem Dlist.prev_ne (hnodup : (l1 ++ s :: l2).Nodup) (hapart : Apart off (l1 ++ s :: l2)) :
    m (s + off) ≠ s ∧ m (s + off) ≠ s + off := by
  have hs : s ∈ l1 ++ s :: l2 := by simp
  have hs0 := hd.ne_zero hs
  rcases hd.prev_mem with hz | hmem
  · rw [hz]
    exact ⟨hs0.symm, by omega⟩
  constructor
  · intro heq
    rw [heq] at hmem
    exact (nodup_append.mp hnodup).2.2 s hmem s (.head _) rfl
  · intro heq
    rw [heq] at hmem
    exact hapart s hs (s + off) (mem_append_left _ hmem) rfl

/-- **Unlink.** -/
theorem Dlist.unlink (hnodup : (l1 ++ s :: l2).Nodup) (hapart : Apart off (l1 ++ s :: l2)) :
    Dlist off (Linked.unlink off m h s).1 0 (Linked.unlink off m h s).2 (l1 ++ l2) := by
  have hs : s ∈ l1 ++ s :: l2 := by simp
  have hlast := hd.prev_eq
  have hnextmem := hd.next_mem
  have hqmem := hd.prev_mem
  obtain ⟨hq, hq'⟩ := hd.prev_ne hnodup hapart
  have hmem : ∀ a ∈ l1 ++ l2, a ∈ l1 ++ s :: l2 := by
    intro a ha
    rcases mem_append.mp ha with ha | ha
    · exact mem_append_left _ ha
    · exact mem_append_right _ (.tail _ ha)
  have hne : ∀ a ∈ l1 ++ l2, a ≠ s := by
    rintro a ha rfl
    rw [nodup_middle, nodup_cons] at hnodup
    exact hnodup.1 ha
  have hhead : (Linked.unlink off m h s).2 = if l1 = [] then m s else h := by
    unfold Linked.unlink
    by_cases hl : l1 = []
    · have hz : m (s + off) = 0 := by
        rw [hlast]
        simp [hl]
      simp [hl, hz]
    have hz : m (s + off) ≠ 0 := by
      rcases hqmem with hz | hmem1
      · rw [hlast, getLast_cons hl] at hz
        exact absurd hz (hd.ne_zero (mem_append_left _ (getLast_mem hl)))
      · exact hd.ne_zero (mem_append_left _ hmem1)
    simp [hl, hz]
  rw [hhead]
  apply hd.splice
  · rw [nodup_cons]
    exact ⟨fun h0 => hd.ne_zero h0 rfl, hnodup⟩
  · intro a ha
    have has' : a ≠ s + off := (hapart s hs a (hmem a ha)).symm
    rw [unlink_read hq hq' (hne a ha) has', if_neg]
    · by_cases haq : a = m (s + off)
      · rw [if_pos ⟨by rw [← haq]; exact hd.ne_zero (hmem a ha), haq⟩, if_pos haq]
      · rw [if_neg fun h => haq h.2, if_neg haq]
    rintro ⟨hn, rfl⟩
    rcases hnextmem with hz | hn'
    · exact hn hz
    · exact hapart (m s) (by simp [hn']) _ (hmem _ ha) rfl
  intro a ha
  have has : a + off ≠ s := hapart a (hmem a ha) s hs
  have has' : a + off ≠ s + off := fun heq => hne a ha (Nat.add_right_cancel heq)
  rw [unlink_read hq hq' has has']
  by_cases hn : a = m s
  · rw [if_pos ⟨by rw [← hn]; exact hd.ne_zero (hmem a ha), by rw [hn]⟩, if_pos hn]
  rw [if_neg fun h => hn (Nat.add_right_cancel h.2), if_neg hn, if_neg]
  rintro ⟨hz, heq⟩
  rcases hqmem with h0 | hqm
  · exact hz h0
  · exact hapart a (hmem a ha) _ (mem_append_left _ hqm) heq

/-- The words outside the list are left alone. -/
theorem Dlist.unlink_frame (hnodup : (l1 ++ s :: l2).Nodup) (hapart : Apart off (l1 ++ s :: l2))
    (ha : ∀ b ∈ l1 ++ s :: l2, a ≠ b ∧ a ≠ b + off) : (Linked.unlink off m h s).1 a = m a := by
  have hs : s ∈ l1 ++ s :: l2 := by simp
  obtain ⟨hq, hq'⟩ := hd.prev_ne hnodup hapart
  rw [unlink_read hq hq' (ha s hs).1 (ha s hs).2, if_neg, if_neg]
  · rintro ⟨hz, heq⟩
    rcases hd.prev_mem with h0 | hmem
    · exact hz h0
    · exact (ha _ (mem_append_left _ hmem)).1 heq
  rintro ⟨hz, heq⟩
  rcases hd.next_mem with h0 | hmem
  · exact hz h0
  · exact (ha (m s) (by simp [hmem])).2 heq

end

end Dlist

end Cervus.Linked
