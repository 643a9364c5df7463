import Mathlib.Data.List.Infix

/-! # Radix trees in a store

    A store gives every node an entry for each index; an entry either points to
    a child node or does not. Walking a list of indices from a root follows the
    pointers; a lookup also reads the entry it ends at, which is the last one of
    the path or an earlier one without a child (a large leaf).

    * `walk_congr`, `lookup_congr`: only the entries on the path matter;
    * `lookup_of_cleared`, `lookup_cleared`: clearing entries makes no new path, and
      clearing one on the way ends the lookup;
    * `Distinct`: up to a depth, different paths end in different nodes;
    * `Distinct.walk_set`, `Distinct.lookup_set`: writing one entry of such a
      tree concerns only the paths through that entry;
    * `Distinct.set_fresh`: linking a fresh empty node keeps the tree distinct
      and every lookup as it was. -/

universe u v w x

namespace Cervus.Radix

open List

variable {Node : Type u} {Idx : Type v} {Entry : Type w} {Value : Type x}

/-! ## Section 1: Walks and lookups -/

section Walk

variable (child : Entry → Option Node) (leaf : Nat → Entry → Option Value)

/-- The node at the end of a path. -/
def walk (m : Node → Idx → Entry) : Node → List Idx → Option Node
  | n, [] => some n
  | n, i :: rest => (child (m n i)).bind fun c => walk m c rest

/-- The value at a path: the entry where the path ends, or where it meets an
    entry without a child, `k` indices before its end, gives `leaf k`. -/
def lookup (m : Node → Idx → Entry) : Node → List Idx → Option Value
  | _, [] => none
  | n, [i] => leaf 0 (m n i)
  | n, i :: j :: rest =>
    match child (m n i) with
    | some c => lookup m c (j :: rest)
    | none => leaf (rest.length + 1) (m n i)

/-- The store with one entry replaced. -/
def set [DecidableEq Node] [DecidableEq Idx] (m : Node → Idx → Entry) (n : Node) (i : Idx)
    (e : Entry) : Node → Idx → Entry :=
  fun n' i' => if n' = n ∧ i' = i then e else m n' i'

/-- The store with all entries of one node replaced. -/
def fill [DecidableEq Node] (m : Node → Idx → Entry) (n : Node) (es : Idx → Entry) :
    Node → Idx → Entry :=
  fun n' => if n' = n then es else m n'

/-- Up to depth `d`, different paths from the root end in different nodes. -/
def Distinct (m : Node → Idx → Entry) (root : Node) (d : Nat) : Prop :=
  ∀ p q n, p.length ≤ d → q.length ≤ d → walk child m root p = some n →
    walk child m root q = some n → p = q

/-- The entries that a walk along `p` reads. -/
def OnWay (m : Node → Idx → Entry) (n : Node) (p : List Idx) (w : Node × Idx) : Prop :=
  ∃ q r, p = q ++ w.2 :: r ∧ walk child m n q = some w.1

variable {child leaf}

@[simp] theorem walk_nil (m : Node → Idx → Entry) (n : Node) : walk child m n [] = some n := rfl

theorem walk_append (m : Node → Idx → Entry) (n : Node) (p q : List Idx) :
    walk child m n (p ++ q) = (walk child m n p).bind fun c => walk child m c q := by
  induction p generalizing n with
  | nil => rfl
  | cons i rest ih =>
    simp only [cons_append, walk]
    cases child (m n i) with
    | none => rfl
    | some c => exact ih c

variable {n c : Node} {p : List Idx} {m m' : Node → Idx → Entry}

theorem walk_snoc (m : Node → Idx → Entry) (i : Idx) (h : walk child m n p = some c) :
    walk child m n (p ++ [i]) = child (m c i) := by
  rw [walk_append, h]
  simp [walk]

/-- A walk depends only on the entries on its path. -/
theorem walk_congr
    (h : ∀ q i r c, p = q ++ i :: r → walk child m n q = some c → child (m' c i) = child (m c i)) :
    walk child m' n p = walk child m n p := by
  induction p generalizing n with
  | nil => rfl
  | cons i rest ih =>
    have hhead : child (m' n i) = child (m n i) := h [] i rest n rfl rfl
    simp only [walk, hhead]
    cases hc : child (m n i) with
    | none => rfl
    | some c =>
      apply ih
      intro q j r c' hsplit hwalk
      refine h (i :: q) j r c' (by rw [hsplit]; rfl) ?_
      simp [walk, hc, hwalk]

/-- So does a lookup. -/
theorem lookup_congr
    (h : ∀ q i r c, p = q ++ i :: r → walk child m n q = some c → child (m' c i) = child (m c i) ∧
      leaf r.length (m' c i) = leaf r.length (m c i)) :
    lookup child leaf m' n p = lookup child leaf m n p := by
  induction p generalizing n with
  | nil => rfl
  | cons i rest ih =>
    obtain ⟨hchild, hleaf⟩ := h [] i rest n rfl rfl
    cases rest with
    | nil => exact hleaf
    | cons j rest =>
      simp only [lookup, hchild]
      cases hc : child (m n i) with
      | none => exact hleaf
      | some c =>
        apply ih
        intro q k r c' hsplit hwalk
        refine h (i :: q) k r c' (by rw [hsplit]; rfl) ?_
        simp [walk, hc, hwalk]

/-- Where entries have only been cleared, a walk was there before. -/
theorem walk_of_cleared (hm : ∀ n i, m' n i = m n i ∨ child (m' n i) = none)
    (h : walk child m' n p = some c) : walk child m n p = some c := by
  induction p generalizing n with
  | nil => exact h
  | cons i rest ih =>
    simp only [walk] at h ⊢
    rcases hm n i with heq | hnone
    · rw [heq] at h
      cases hc : child (m n i) with
      | none =>
        rw [hc] at h
        cases h
      | some c' =>
        rw [hc] at h
        exact ih h
    · rw [hnone] at h
      cases h

theorem lookup_cons_none {i : Idx} {rest : List Idx} (hchild : child (m n i) = none)
    (hleaf : ∀ k, leaf k (m n i) = none) : lookup child leaf m n (i :: rest) = none := by
  cases rest with
  | nil => exact hleaf 0
  | cons j rest =>
    simp only [lookup, hchild]
    exact hleaf _

section Clear

variable (hm : ∀ n i, m' n i = m n i ∨ child (m' n i) = none ∧ ∀ k, leaf k (m' n i) = none)
include hm

theorem lookup_of_cleared {v : Value} (h : lookup child leaf m' n p = some v) :
    lookup child leaf m n p = some v := by
  induction p generalizing n with
  | nil => cases h
  | cons i rest ih =>
    rcases hm n i with heq | ⟨hchild, hleaf⟩
    · cases rest with
      | nil =>
        simp only [lookup, heq] at h ⊢
        exact h
      | cons j rest =>
        simp only [lookup, heq] at h ⊢
        cases hc : child (m n i) with
        | none =>
          rw [hc] at h
          exact h
        | some c =>
          rw [hc] at h
          exact ih h
    · rw [lookup_cons_none hchild hleaf] at h
      cases h

/-- A lookup with a cleared entry on its way finds nothing. -/
theorem lookup_cleared {w : Node × Idx} (hw : OnWay child m n p w)
    (hchild : child (m' w.1 w.2) = none) (hleaf : ∀ k, leaf k (m' w.1 w.2) = none) :
    lookup child leaf m' n p = none := by
  obtain ⟨q, r, hsplit, hwalk⟩ := hw
  -- along the way to the entry
  induction q generalizing n p with
  | nil =>
    cases hwalk
    rw [hsplit, nil_append]
    exact lookup_cons_none hchild hleaf
  | cons i q ih =>
    rw [hsplit, cons_append]
    rcases hm n i with heq | ⟨hnone, hnoleaf⟩
    · simp only [walk] at hwalk
      cases hc : child (m n i) with
      | none =>
        rw [hc] at hwalk
        cases hwalk
      | some c' =>
        rw [hc] at hwalk
        obtain ⟨j, rest, hrest⟩ := exists_cons_of_ne_nil (append_ne_nil_of_right_ne_nil q
          (cons_ne_nil w.2 r))
        rw [hrest]
        simp only [lookup, heq, hc]
        rw [← hrest]
        exact ih rfl hwalk
    · exact lookup_cons_none hnone hnoleaf

end Clear

/-- A lookup through an inner node goes on from that node. -/
theorem lookup_append {q : List Idx} (hq : q ≠ []) (h : walk child m n p = some c) :
    lookup child leaf m n (p ++ q) = lookup child leaf m c q := by
  induction p generalizing n with
  | nil => cases h; rfl
  | cons i rest ih =>
    obtain ⟨j, rest', hrest⟩ : ∃ j r, rest ++ q = j :: r := by
      cases rest with
      | nil =>
        cases q with
        | nil => exact absurd rfl hq
        | cons j r => exact ⟨j, r, rfl⟩
      | cons j r => exact ⟨j, r ++ q, rfl⟩
    rw [cons_append, hrest]
    simp only [walk] at h
    simp only [lookup]
    cases hc : child (m n i) with
    | none => rw [hc] at h; cases h
    | some c' =>
      rw [hc] at h
      rw [← hrest]
      exact ih h

/-- A lookup in a node whose entries are all empty finds nothing. -/
theorem lookup_empty (hchild : ∀ i, child (m n i) = none) (hleaf : ∀ k i, leaf k (m n i) = none)
    (p : List Idx) : lookup child leaf m n p = none := by
  cases p with
  | nil => rfl
  | cons i rest =>
    cases rest with
    | nil => exact hleaf 0 i
    | cons j rest =>
      simp only [lookup, hchild i]
      exact hleaf _ i

end Walk

/-! ## Section 2: Writing an entry -/

section Write

variable [DecidableEq Node] [DecidableEq Idx]
variable {child : Entry → Option Node} {leaf : Nat → Entry → Option Value}
variable {m : Node → Idx → Entry} {root n : Node} {d : Nat} {p0 : List Idx} {i : Idx} {e : Entry}

@[simp] theorem set_self (m : Node → Idx → Entry) (n : Node) (i : Idx) (e : Entry) :
    set m n i e n i = e := by
  simp [set]

theorem set_of_ne {n' : Node} {i' : Idx} (h : n' = n → i' ≠ i) : set m n i e n' i' = m n' i' := by
  unfold set
  rw [if_neg]
  rintro ⟨hn, hi⟩
  exact h hn hi

variable {p : List Idx}

omit [DecidableEq Node] [DecidableEq Idx] in
/-- Where a path of a distinct tree meets node `n`. -/
theorem Distinct.split_eq (hd : Distinct child m root d) (h0 : walk child m root p0 = some n)
    (hlen0 : p0.length ≤ d) {q r : List Idx} {j : Idx} (hlen : p.length ≤ d + 1)
    (hsplit : p = q ++ j :: r) (hwalk : walk child m root q = some n) : q = p0 := by
  apply hd q p0 n _ hlen0 hwalk h0
  rw [hsplit, length_append, length_cons] at hlen
  omega

/-- Walks that do not pass the written entry. -/
theorem Distinct.walk_set (hd : Distinct child m root d) (h0 : walk child m root p0 = some n)
    (hlen0 : p0.length ≤ d) (hlen : p.length ≤ d + 1) (hne : ¬ p0 ++ [i] <+: p) :
    walk child (set m n i e) root p = walk child m root p := by
  apply walk_congr
  intro q j r c hsplit hwalk
  rw [set_of_ne]
  rintro rfl rfl
  apply hne
  rw [hsplit, hd.split_eq h0 hlen0 hlen hsplit hwalk]
  exact ⟨r, by simp⟩

/-- Lookups that do not pass the written entry. -/
theorem Distinct.lookup_set (hd : Distinct child m root d) (h0 : walk child m root p0 = some n)
    (hlen0 : p0.length ≤ d) (hlen : p.length ≤ d + 1) (hne : ¬ p0 ++ [i] <+: p) :
    lookup child leaf (set m n i e) root p = lookup child leaf m root p := by
  apply lookup_congr
  intro q j r c hsplit hwalk
  rw [set_of_ne]
  · exact ⟨rfl, rfl⟩
  rintro rfl rfl
  apply hne
  rw [hsplit, hd.split_eq h0 hlen0 hlen hsplit hwalk]
  exact ⟨r, by simp⟩

/-- An entry that keeps its child keeps every walk. -/
theorem walk_set_same (h : child e = child (m n i)) (p : List Idx) :
    walk child (set m n i e) root p = walk child m root p := by
  apply walk_congr
  intro q j r c _ _
  by_cases hcj : c = n ∧ j = i
  · obtain ⟨rfl, rfl⟩ := hcj
    rw [set_self, h]
  · rw [set_of_ne fun hc hj => hcj ⟨hc, hj⟩]

theorem Distinct.set_same (hd : Distinct child m root d) (h : child e = child (m n i)) :
    Distinct child (set m n i e) root d := by
  intro p q c hp hq hwp hwq
  rw [walk_set_same h] at hwp hwq
  exact hd p q c hp hq hwp hwq

/-- An entry that keeps its child, and has one, keeps every lookup. -/
theorem Distinct.lookup_set_same (hd : Distinct child m root d) (h0 : walk child m root p0 = some n)
    (hlen0 : p0.length < d) (h : child e = child (m n i)) (hsome : (child e).isSome)
    (hlen : p.length = d + 1) :
    lookup child leaf (set m n i e) root p = lookup child leaf m root p := by
  by_cases hpre : p0 ++ [i] <+: p
  · -- the path goes on to the child, from where nothing has changed
    obtain ⟨rest, rfl⟩ := hpre
    obtain ⟨c, hc⟩ := Option.isSome_iff_exists.mp hsome
    have hne : rest ≠ [] := by
      rintro rfl
      simp at hlen
      omega
    have hwalk : walk child m root (p0 ++ [i]) = some c := by rw [walk_snoc m i h0, ← h, hc]
    have hwalk' : walk child (set m n i e) root (p0 ++ [i]) = some c := by
      rw [walk_set_same h, hwalk]
    rw [lookup_append hne hwalk', lookup_append hne hwalk]
    apply lookup_congr
    intro q j r c' hsplit hwq
    rw [set_of_ne]
    · exact ⟨rfl, rfl⟩
    rintro rfl rfl
    -- the node is not met again below itself
    have hfull : walk child m root (p0 ++ [j] ++ q) = some c' := by
      rw [walk_append, hwalk]
      exact hwq
    have hq := hd.split_eq h0 (by omega) (by omega : (p0 ++ [j] ++ rest).length ≤ d + 1)
      (by rw [hsplit, ← append_assoc]) hfull
    have := congrArg List.length hq
    simp at this
  · exact hd.lookup_set h0 (by omega) (by omega) hpre

/-- Entries of the deepest nodes are not followed. -/
theorem Distinct.set_last (hd : Distinct child m root d) (h0 : walk child m root p0 = some n)
    (hlen0 : p0.length = d) (hlen : p.length ≤ d) :
    walk child (set m n i e) root p = walk child m root p := by
  apply hd.walk_set h0 (by omega) (by omega)
  intro hpre
  have := hpre.length_le
  simp at this
  omega

end Write

/-! ## Section 3: Linking a fresh node -/

section Fresh

variable [DecidableEq Node] [DecidableEq Idx]
variable {child : Entry → Option Node} {leaf : Nat → Entry → Option Value}
variable {m : Node → Idx → Entry} {root n f : Node} {d : Nat} {p0 : List Idx} {i : Idx} {e : Entry}
variable {es : Idx → Entry}

/-- The entry `i` of node `n`, which has no child, is made to point to node `f`,
    which is filled with the empty entries `es` and was not part of the tree. -/
structure Links (child : Entry → Option Node) (m : Node → Idx → Entry) (root : Node) (d : Nat)
    (p₀ : List Idx) (n : Node) (i : Idx) (e : Entry) (f : Node) (es : Idx → Entry) : Prop where
  distinct : Distinct child m root d
  at_path : walk child m root p₀ = some n
  depth : p₀.length < d
  absent : child (m n i) = none
  points : child e = some f
  fresh : ∀ p, p.length ≤ d → walk child m root p ≠ some f
  empty : ∀ j, child (es j) = none

omit [DecidableEq Node] [DecidableEq Idx] in
theorem Links.ne (h : Links child m root d p0 n i e f es) : f ≠ n := by
  rintro rfl
  exact h.fresh p0 (by have := h.depth; omega) h.at_path

variable {p : List Idx}

section

variable (h : Links child m root d p0 n i e f es)
include h

/-- What a walk reads in the old part of the tree. -/
theorem Links.read_old {q r : List Idx} {j : Idx}
    {c : Node} (hlen : p.length ≤ d + 1) (hne : ¬ p0 ++ [i] <+: p) (hsplit : p = q ++ j :: r)
    (hwalk : walk child m root q = some c) : set (fill m f es) n i e c j = m c j := by
  have hq : q.length ≤ d := by
    rw [hsplit, length_append, length_cons] at hlen
    omega
  rw [set_of_ne]
  · have hcf : c ≠ f := by
      rintro rfl
      exact h.fresh q hq hwalk
    simp [fill, hcf]
  rintro rfl rfl
  apply hne
  rw [hsplit, h.distinct.split_eq h.at_path (by have := h.depth; omega) hlen hsplit hwalk]
  exact ⟨r, by simp⟩

theorem Links.walk_old (hlen : p.length ≤ d + 1) (hne : ¬ p0 ++ [i] <+: p) :
    walk child (set (fill m f es) n i e) root p = walk child m root p := by
  apply walk_congr
  intro q j r c hsplit hwalk
  rw [h.read_old hlen hne hsplit hwalk]

/-- The new entry leads to the fresh node. -/
theorem Links.walk_new : walk child (set (fill m f es) n i e) root (p0 ++ [i]) = some f := by
  have hself : ¬ p0 ++ [i] <+: p0 := by
    intro hpre
    have := hpre.length_le
    rw [length_append, length_singleton] at this
    omega
  have hn : walk child (set (fill m f es) n i e) root p0 = some n := by
    rw [h.walk_old (by have := h.depth; omega) hself, h.at_path]
  rw [walk_snoc _ i hn, set_self, h.points]

theorem Links.entry_new (j : Idx) : set (fill m f es) n i e f j = es j := by
  rw [set_of_ne fun hf _ => h.ne hf]
  simp [fill]

/-- Below the fresh node there is nothing. -/
theorem Links.walk_below (r : List Idx) (c : Node)
    (hwalk : walk child (set (fill m f es) n i e) root (p0 ++ [i] ++ r) = some c) :
    r = [] ∧ c = f := by
  rw [walk_append, h.walk_new] at hwalk
  cases r with
  | nil => exact ⟨rfl, (Option.some.inj hwalk).symm⟩
  | cons j rest => simp [walk, h.entry_new, h.empty] at hwalk

/-- **Linking.** The tree with the fresh node is distinct. -/
theorem Links.distinct_new : Distinct child (set (fill m f es) n i e) root d := by
  -- the fresh node has one path, the others have those they had
  have hfresh : ∀ p c, p.length ≤ d → ¬ p0 ++ [i] <+: p →
      walk child (set (fill m f es) n i e) root p = some c → c ≠ f := by
    intro p c hp hne hwalk hcf
    rw [h.walk_old (by omega) hne, hcf] at hwalk
    exact h.fresh p hp hwalk
  intro p q c hp hq hwp hwq
  by_cases hpp : p0 ++ [i] <+: p
  · obtain ⟨r, rfl⟩ := hpp
    obtain ⟨rfl, rfl⟩ := h.walk_below r c hwp
    by_cases hqp : p0 ++ [i] <+: q
    · obtain ⟨r, rfl⟩ := hqp
      obtain ⟨rfl, _⟩ := h.walk_below r c hwq
      rfl
    · exact absurd rfl (hfresh q c hq hqp hwq)
  by_cases hqp : p0 ++ [i] <+: q
  · obtain ⟨r, rfl⟩ := hqp
    obtain ⟨_, rfl⟩ := h.walk_below r c hwq
    exact absurd rfl (hfresh p c hp hpp hwp)
  · rw [h.walk_old (by omega) hpp] at hwp
    rw [h.walk_old (by omega) hqp] at hwq
    exact h.distinct p q c hp hq hwp hwq

/-- **Linking.** No lookup changes. -/
theorem Links.lookup_eq
    (hleaf : ∀ k, leaf (k + 1) (m n i) = none) (hempty : ∀ k j, leaf k (es j) = none)
    (hlen : p.length = d + 1) :
    lookup child leaf (set (fill m f es) n i e) root p = lookup child leaf m root p := by
  by_cases hpre : p0 ++ [i] <+: p
  · obtain ⟨r, rfl⟩ := hpre
    have hdepth := h.depth
    obtain ⟨j, rest, rfl⟩ : ∃ j rest, r = j :: rest := by
      cases r with
      | nil => simp at hlen; omega
      | cons j rest => exact ⟨j, rest, rfl⟩
    rw [lookup_append (by simp) h.walk_new, lookup_empty, append_assoc,
      lookup_append (by simp) h.at_path]
    · simp only [cons_append, nil_append, lookup, h.absent]
      exact (hleaf _).symm
    · intro j
      rw [h.entry_new, h.empty]
    · intro k j
      rw [h.entry_new, hempty]
  apply lookup_congr
  intro q j r c hsplit hwalk
  rw [h.read_old (by omega) hpre hsplit hwalk]
  exact ⟨rfl, rfl⟩

end

end Fresh

end Cervus.Radix
