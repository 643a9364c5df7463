import Mathlib.Data.List.Chain
import Mathlib.Data.List.Flatten
import Mathlib.Data.List.TakeWhile

/-! # Paths

    `syscall_path_normalize` of `syscall/helpers.c`, which turns the argument of a system call
    into the path all the rest works with. A path is the characters of a string of C before its
    terminating zero. -/

namespace Cervus.Vfs

open List

/-- A string of C. -/
abbrev Path := List Char

/-- A name in a directory. -/
abbrev Name := List Char

/-- `VFS_MAX_PATH` -/
def maxPath : Nat := 512

/-! ## Section 1: The loop over the names -/

/-- The buffer of `syscall_path_normalize` is kept with its end first. This is the loop
    `while (bi > 1 && buf[bi - 1] != '/') bi--`. -/
def trimName : List Char → List Char
  | c :: d :: rest => if c ≠ '/' then trimName (d :: rest) else c :: d :: rest
  | buf => buf

/-- The name `..` -/
def popName (buf : List Char) : List Char :=
  if 1 < buf.length then
    let buf := trimName buf.tail
    if 1 < buf.length ∧ buf.head? = some '/' then buf.tail else buf
  else buf

/-- Any other name but `.`: it is cut where the buffer ends, and the loop is left when
    there is no room for the slash. -/
def pushName (buf : List Char) (seg : Name) : Option (List Char) :=
  let copy (buf : List Char) := (seg.take (maxPath - 1 - buf.length)).reverse ++ buf
  if buf ≠ [] ∧ buf.head? ≠ some '/' then
    if maxPath - 1 ≤ buf.length then none else some (copy ('/' :: buf))
  else some (copy buf)

/-- The loop of `syscall_path_normalize` over the names of the path. -/
def normalizeLoop : List Name → List Char → List Char
  | [], buf => buf
  | seg :: segs, buf =>
    if seg = ['.'] then normalizeLoop segs buf
    else if seg = ['.', '.'] then normalizeLoop segs (popName buf)
    else
      match pushName buf seg with
      | none => buf
      | some buf => normalizeLoop segs buf

/-- `syscall_path_normalize` -/
def pathNormalize (path : Path) : Path :=
  if path = [] then [] else
  let start := if path.head? = some '/' then ['/'] else []
  let buf := normalizeLoop ((path.splitOn '/').filter (· ≠ [])) start
  let buf := if buf = [] then ['/'] else buf
  let buf := if 1 < buf.length ∧ buf.head? = some '/' then buf.tail else buf
  buf.reverse

/-! ## Section 2: The lexical normal form -/

theorem not_mem_splitOn (p : Path) : ∀ seg ∈ p.splitOn '/', '/' ∉ seg := by
  induction p with
  | nil => simp
  | cons c cs ih =>
    intro seg hseg
    rw [splitOn_cons_eq_if_modifyHead] at hseg
    split at hseg
    · rcases mem_cons.mp hseg with rfl | hseg
      · simp
      · exact ih seg hseg
    next hc =>
    have hc : c ≠ '/' := by simpa using hc
    obtain ⟨x, xs, hxs⟩ := exists_cons_of_ne_nil (splitOn_ne_nil '/' cs)
    rw [hxs, modifyHead_cons] at hseg
    rcases mem_cons.mp hseg with rfl | hseg
    · have hx := ih x (hxs ▸ mem_cons_self)
      simp [hx, hc.symm]
    · exact ih seg (hxs ▸ mem_cons_of_mem _ hseg)

/-- What a component that is not empty does to the names kept so far, the last one first. -/
def lexStep (names : List Name) (seg : Name) : List Name :=
  if seg = ['.'] then names else if seg = ['.', '.'] then names.tail else seg :: names

/-- The components that remain of a path. -/
def lexNames (p : Path) : List Name :=
  (((p.splitOn '/').filter (· ≠ [])).foldl lexStep []).reverse

/-- The lexical normal form of a path. -/
def lexicalForm (p : Path) : Path := '/' :: ['/'].intercalate (lexNames p)

/-- A name that normalization keeps as it is. -/
def Plain (n : Name) : Prop := n ≠ [] ∧ '/' ∉ n ∧ n ≠ ['.'] ∧ n ≠ ['.', '.']

/-- Names in the buffer, each with the slash before it. -/
def held (names : List Name) : List Char := names.flatMap fun n => n.reverse ++ ['/']

@[inherit_doc held]
def bufferOf (names : List Name) : List Char := if names = [] then ['/'] else held names

section

variable {names segs : List Name}

theorem held_cons (n : Name) (names : List Name) :
    held (n :: names) = n.reverse ++ '/' :: held names := by
  simp [held]

theorem held_ne_nil (h : names ≠ []) : held names ≠ [] := by
  obtain ⟨n, ns, rfl⟩ := exists_cons_of_ne_nil h
  simp [held_cons]

theorem trimName_name {xs : List Char} (hxs : '/' ∉ xs) (b : List Char) :
    trimName (xs ++ '/' :: b) = '/' :: b := by
  induction xs with
  | nil => cases b <;> simp [trimName]
  | cons c xs ih =>
    have hc : c ≠ '/' := fun h => hxs (by simp [h])
    refine .trans ?_ (ih fun h => hxs (.tail _ h))
    cases xs <;> simp [trimName, hc]

variable (h : ∀ n ∈ names, Plain n)

include h

/-- The buffer does not end in a slash when it holds a name. -/
theorem held_head : (held names).head? ≠ some '/' := by
  cases names with
  | nil => simp [held]
  | cons n names =>
    obtain ⟨hne, hslash, -⟩ := h n (.head _)
    obtain ⟨m, c, rfl⟩ := (eq_nil_or_concat' n).resolve_left hne
    have hc : c ≠ '/' := fun hc => hslash (by simp [hc])
    simp [held_cons, hc]

theorem popName_bufferOf : popName (bufferOf names) = bufferOf names.tail := by
  cases names with
  | nil => rfl
  | cons n names =>
    obtain ⟨hne, hslash, -⟩ := h n (.head _)
    obtain ⟨m, c, rfl⟩ := (eq_nil_or_concat' n).resolve_left hne
    have hm : '/' ∉ m.reverse := by simp_all
    have htrim := trimName_name hm (held names)
    rcases eq_or_ne names [] with rfl | hns
    · simp only [held, flatMap_nil] at htrim
      simp [popName, bufferOf, held, htrim]
    · simp [popName, bufferOf, held_cons, htrim, hns, length_pos_iff.mpr (held_ne_nil hns)]

theorem pushName_bufferOf (hroom : (held (seg :: names)).length < maxPath) :
    pushName (bufferOf names) seg = some (bufferOf (seg :: names)) := by
  have hnew : bufferOf (seg :: names) = seg.reverse ++ '/' :: held names := held_cons seg names
  rw [held_cons, length_append, length_reverse, length_cons] at hroom
  rw [hnew, pushName, bufferOf]
  split
  · next hnil =>
    have hfits : seg.length ≤ maxPath - 1 - 1 := by omega
    simp [hnil, held, take_of_length_le hfits]
  · next hnil =>
    have hfits : seg.length ≤ maxPath - 1 - ((held names).length + 1) := by omega
    rw [if_pos ⟨held_ne_nil hnil, held_head h⟩, if_neg (by omega)]
    simp only [length_cons, take_of_length_le hfits]

theorem plain_lexStep (hne : seg ≠ []) (hseg : '/' ∉ seg) : ∀ n ∈ lexStep names seg, Plain n := by
  unfold lexStep
  split
  · exact h
  split
  · exact fun n hn => h n (mem_of_mem_tail hn)
  · next hdot hdots => exact forall_mem_cons.mpr ⟨⟨hne, hseg, hdot, hdots⟩, h⟩

omit h in
theorem held_lexStep (names : List Name) (seg : Name) :
    (held (lexStep names seg)).length ≤ (held (seg :: names)).length := by
  refine (Sublist.flatMap ?_ _).length_le
  unfold lexStep
  split
  · exact sublist_cons_self _ _
  split
  · exact (tail_sublist _).cons _
  · exact .refl _

/-- The loop keeps the buffer of the names that remain, and they take no more room than the
    components they come from. -/
theorem normalizeLoop_bufferOf {k : Nat} (hk : k < maxPath)
    (hsegs : ∀ seg ∈ segs, seg ≠ [] ∧ '/' ∉ seg)
    (hlen : (held names).length + (held segs).length ≤ k) :
    normalizeLoop segs (bufferOf names) = bufferOf (segs.foldl lexStep names) ∧
    (∀ n ∈ segs.foldl lexStep names, Plain n) ∧ (held (segs.foldl lexStep names)).length ≤ k := by
  induction segs generalizing names with
  | nil => exact ⟨rfl, h, by simpa [held] using hlen⟩
  | cons seg segs ih =>
    obtain ⟨⟨hne, hseg⟩, hsegs⟩ := forall_mem_cons.mp hsegs
    have hstep := held_lexStep names seg
    simp only [held_cons, length_append, length_cons] at hlen hstep
    have ih := ih (plain_lexStep h hne hseg) hsegs (by omega)
    suffices hloop : normalizeLoop (seg :: segs) (bufferOf names) =
        normalizeLoop segs (bufferOf (lexStep names seg)) from hloop ▸ ih
    rw [normalizeLoop, lexStep]
    split
    · rfl
    split
    · rw [popName_bufferOf h]
    · rw [pushName_bufferOf h (by simp only [held_cons, length_append, length_cons]; omega)]

end

theorem held_splitOn (p : Path) : (held (p.splitOn '/')).length = p.length + 1 := by
  induction p with
  | nil => rfl
  | cons c cs ih =>
    obtain ⟨x, xs, hxs⟩ := exists_cons_of_ne_nil (splitOn_ne_nil '/' cs)
    rw [hxs] at ih
    rw [splitOn_cons_eq_if_modifyHead, hxs]
    split
    · simp [held_cons] at ih ⊢
      omega
    · simp [held_cons] at ih ⊢
      omega

/-- The normal form is what the buffer holds, first character first. -/
theorem bufferOf_reverse (names : List Name) :
    (bufferOf names).reverse = '/' :: ['/'].intercalate names.reverse := by
  have hjoin : ∀ ns : List Name, ns ≠ [] → '/' :: ['/'].intercalate ns = ns.flatMap ('/' :: ·) := by
    intro ns hns
    induction ns with
    | nil => exact absurd rfl hns
    | cons n ns ih =>
      cases ns with
      | nil => simp
      | cons n' ns => simp [intercalate_cons_cons, ← ih (cons_ne_nil _ _)]
  rcases eq_or_ne names [] with rfl | hne
  · rfl
  · rw [hjoin _ (by simpa using hne), bufferOf, if_neg hne, held, reverse_flatMap]
    simp [Function.comp_def]

/-- The names of a normal form are those it was made of. -/
theorem lexNames_intercalate {ns : List Name} (h : ∀ n ∈ ns, Plain n) :
    lexNames ('/' :: ['/'].intercalate ns) = ns := by
  have hfold : ∀ kept, ns.foldl lexStep kept = ns.reverse ++ kept := by
    induction ns with
    | nil => exact fun _ => rfl
    | cons n ns ih =>
      obtain ⟨⟨-, -, hdot, hdots⟩, h⟩ := forall_mem_cons.mp h
      simp [lexStep, hdot, hdots, ih h]
  have hparts : (('/' :: ['/'].intercalate ns).splitOn '/').filter (· ≠ []) = ns := by
    rw [splitOn_cons_eq_if_modifyHead]
    rcases eq_or_ne ns [] with rfl | hne
    · rfl
    · rw [splitOn_intercalate '/' (fun n hn => (h n hn).2.1) hne]
      simpa using fun n hn => (h n hn).1
  rw [lexNames, hparts, hfold, append_nil, reverse_reverse]

theorem pathNormalize_lexical (habs : p.head? = some '/') (hp : p.length < maxPath) :
    pathNormalize p = lexicalForm p ∧ (∀ n ∈ lexNames p, Plain n) ∧
    (lexicalForm p).length ≤ p.length := by
  obtain ⟨t, rfl⟩ := head?_eq_some_iff.mp habs
  obtain ⟨segs, hsegs⟩ : ∃ segs, segs = (('/' :: t).splitOn '/').filter (· ≠ []) := ⟨_, rfl⟩
  have hslash : ∀ seg ∈ segs, seg ≠ [] ∧ '/' ∉ seg := by
    intro seg hseg
    obtain ⟨hin, hne⟩ := mem_filter.mp (hsegs ▸ hseg)
    exact ⟨by simpa using hne, not_mem_splitOn _ seg hin⟩
  have hsize : (held segs).length ≤ ('/' :: t).length := by
    -- what is before the first slash is empty
    have hcons : segs = (t.splitOn '/').filter (· ≠ []) := by
      rw [hsegs, splitOn_cons_eq_if_modifyHead]
      rfl
    rw [hcons, length_cons, ← held_splitOn t]
    exact (filter_sublist.flatMap _).length_le
  have hnone : ∀ n ∈ ([] : List Name), Plain n := nofun
  obtain ⟨hloop, hplain, hlen⟩ :=
    normalizeLoop_bufferOf hnone hp hslash (by simpa [held] using hsize)
  have hform : lexicalForm ('/' :: t) = (bufferOf (segs.foldl lexStep [])).reverse := by
    rw [bufferOf_reverse, hsegs]
    rfl
  refine ⟨?_, fun n hn => hplain n (hsegs ▸ mem_reverse.mp hn), ?_⟩
  · have hbuf : normalizeLoop segs ['/'] = bufferOf (segs.foldl lexStep []) := hloop
    simp only [hform, pathNormalize, ← hsegs, habs, if_true, hbuf, bufferOf]
    rw [if_neg (cons_ne_nil _ _)]
    by_cases hr : segs.foldl lexStep [] = []
    · simp [hr]
    · simp [hr, held_ne_nil hr, held_head hplain]
  · rw [hform, length_reverse, bufferOf]
    split
    · simp
    · exact hlen

/-- An absolute path is normalized to its lexical form, which is not longer and is left as it
    is by normalizing it again. -/
theorem pathNormalize_lexical_form (habs : p.head? = some '/') (hp : p.length < maxPath) :
    pathNormalize p = lexicalForm p ∧ pathNormalize (pathNormalize p) = pathNormalize p ∧
      (pathNormalize p).length ≤ p.length := by
  obtain ⟨heq, hplain, hlen⟩ := pathNormalize_lexical habs hp
  rw [heq, (pathNormalize_lexical rfl (hlen.trans_lt hp)).1]
  exact ⟨rfl, by rw [lexicalForm, lexicalForm, lexNames_intercalate hplain], hlen⟩

theorem pathNormalize_lexical_form_dots :
    ['/', 'a', '/', '.', '/', '/', 'b', '/', '.', '.'].length < maxPath ∧
      pathNormalize ['/', 'a', '/', '.', '/', '/', 'b', '/', '.', '.'] = ['/', 'a'] :=
  ⟨by decide, (pathNormalize_lexical_form rfl (by decide)).1.trans (by decide)⟩

end Cervus.Vfs
