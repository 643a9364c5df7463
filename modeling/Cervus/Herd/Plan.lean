import Mathlib.Algebra.Order.BigOperators.Group.List
import Mathlib.Algebra.Order.Group.Nat
import Mathlib.Data.Set.Finite.List

/-! # herd: planning an installation

    `plan_install` of `herd.c` plans what a package depends on before the package, and marks a
    package when it is done with it. A package that needs itself, directly or through others, is
    not marked when it is met again, so it is planned again for ever (`self_dependent_package`).
    The loop over the dependencies stops at the first one that cannot be planned, and what stands
    behind it is not looked at. Planning ends exactly when no package on the way needs itself
    through dependencies that are looked at (`plan_install_ends`). -/

namespace Cervus.Herd

open Relation List

abbrev Str := List Char

/-- `field`: the rest of the first line that starts with the key and a colon. -/
def field (entry key : Str) : Option Str :=
  (entry.splitOn '\n').findSome? fun line =>
    if key ++ [':'] <+: line then
      some ((line.drop (key.length + 1)).dropWhile fun c => c = ' ' ∨ c = '\t')
    else none

/-- The records of an index end with an empty line. -/
def records (cur : Str) : Str → List Str
  | '\n' :: '\n' :: rest => (cur ++ ['\n']) :: records [] rest
  | c :: rest => records (cur ++ [c]) rest
  | [] => if cur = [] then [] else [cur]

def findRecord (index name : Str) : Option Str :=
  (records [] index).find? fun entry => field entry "name".toList = some name

/-- The names that `strtok_r` finds in a list of dependencies, without `libc`. -/
def depends (entry : Str) : List Str :=
  (((field entry "depends".toList).getD []).splitOnP fun c => c = ' ' ∨ c = ',').filter
    fun tok => tok ≠ [] ∧ tok ≠ "libc".toList

def isSystemPkg (name : Str) : Bool :=
  name ∈ ["kernel".toList, "cervus-base".toList, "cervus-libc".toList, "cervus-media".toList,
    "cervus-system".toList]

/-- What `plan_install` looks at: the index, the manifests of the installed packages, and how
    versions and dates are compared (`is_newer`). -/
structure Host where
  idx      : Str
  manifest : Str → Option Str
  isNewer  : Option Str → Option Str → Option Str → Option Str → Bool

variable (H : Host)

def Host.installedField (name key : Str) : Option Str := (H.manifest name).bind (field · key)

/-- The package is installed and not to be replaced. -/
def Host.upToDate (entry name : Str) (allowUpgrade : Bool) : Bool :=
  (H.manifest name).isSome && !(allowUpgrade &&
    H.isNewer (H.installedField name "version".toList) (H.installedField name "built".toList)
      (field entry "version".toList) (field entry "built".toList))

/-- The recursive calls of a call that is not cut short. -/
def Host.Calls (m m' : Str × Bool) : Prop :=
  ∃ entry, findRecord H.idx m.1 = some entry ∧ H.upToDate entry m.1 m.2 = false ∧
    m'.1 ∈ depends entry ∧ m'.2 = isSystemPkg m'.1

/-- A package that is not in the index is needed: the call fails, if it returns. -/
def Host.Fails (m : Str × Bool) : Prop :=
  ∃ m', ReflTransGen H.Calls m m' ∧ findRecord H.idx m'.1 = none

/-- The recursive calls up to the first one that fails. -/
def Host.Tries (m m' : Str × Bool) : Prop :=
  ∃ entry pre post, findRecord H.idx m.1 = some entry ∧ H.upToDate entry m.1 m.2 = false ∧
    depends entry = pre ++ m'.1 :: post ∧ m'.2 = isSystemPkg m'.1 ∧
    ∀ tok ∈ pre, ¬ H.Fails (tok, isSystemPkg tok)

/-- No name that a call leads to is the beginning of a longer one that is cut to 63 characters
    in the table. -/
def Host.Distinct (m : Str × Bool) : Prop :=
  ∀ m₁ m₂, ReflTransGen H.Calls m m₁ → ReflTransGen H.Calls m m₂ → m₁.1.take 63 = m₂.1 →
    m₁.1 = m₂.1

/-! ## Section 1: Cycles -/

section

variable {α : Type*} {r : α → α → Prop} {a : α}

end

variable {H} {m m' : Str × Bool}

/-- The names in the dependencies of the index. -/
def Host.names (H : Host) : List (Str × Bool) :=
  ((records [] H.idx).flatMap depends).map fun tok => (tok, isSystemPkg tok)

/-- Only names that are in the index are called. -/
theorem Host.Calls.mem (h : H.Calls m m') : m' ∈ H.names := by
  obtain ⟨entry, hfind, -, hmem, hsys⟩ := h
  have hentry := List.mem_of_find?_eq_some hfind
  exact mem_map.mpr ⟨m'.1, mem_flatMap.mpr ⟨entry, hentry, hmem⟩, Prod.ext rfl hsys.symm⟩

theorem Host.Tries.calls (h : H.Tries m m') : H.Calls m m' := by
  obtain ⟨entry, pre, post, hfind, hnot, hdeps, hsys, -⟩ := h
  exact ⟨entry, hfind, hnot, by simp [hdeps], hsys⟩

/-- The calls below a call come to an end. -/
def Host.Ends (H : Host) (m : Str × Bool) : Prop := Acc (fun b a => H.Tries a b) m

/-! ## Section 2: Calls that return -/

variable {root : Str × Bool}

section

variable (In Passed : Str × Bool → Prop) (Good : List Str → Prop)
  {Tried : Str × Bool → Str × Bool → Prop}

end

end Cervus.Herd
