import Alib.DirectoryTree
import Alib.Vsprintf

/-!
# A store of files by number

`byte_path_store.c` keeps one file for each number of two bytes, in a
directory for each byte.  `mkdir_p` makes the directories of a path one after
another and works on a copy for which it reserves no room for the NUL.  A
`stat` fails for a directory that may not be searched, a name or a path that is
too long and a link that leads back to itself; `mkdir_p` minds none of these.
Links that lead somewhere and the debug output are left out.
-/

namespace Alib
namespace BytePath

open DirectoryTree

abbrev Files := NameTree (List Byte)

/-- Where relative paths start, how long a name and a path with its NUL may be,
what the system lets be made, and what `open` returns for a path and its
flags. -/
structure FileSystem where
  cwd : List (List Byte)
  nameMax : ℕ
  pathMax : ℕ
  mayCreate : List (List Byte) → Bool
  openFile : Files → List Byte → BitVec 32 → ℤ

def part (component : List Byte) : PathPart (List Byte) :=
  if component = [] then .blank
  else if component = [dot] then .here
  else if component = [dot, dot] then .up
  else .name component

def pathParts (path : List Byte) : List (PathPart (List Byte)) :=
  (path.splitOn slash).map part

def FileSystem.start (S : FileSystem) (path : List Byte) : List (List Byte) :=
  if path.head? = some slash then [] else S.cwd

def FileSystem.fits (S : FileSystem) (name : List Byte) : Bool :=
  name.length ≤ S.nameMax

def stat (S : FileSystem) (t : Files) (path : List Byte) :
    Except Refusal (List (List Byte)) :=
  if path = [] then .error .missing
  else if S.pathMax ≤ path.length then .error .tooLong
  else walk S.fits t (S.start path) (pathParts path)

section MakingPaths

variable {S : FileSystem} {t after : Files} {path work prev comp : List Byte}

/-- The path leads to a directory, or it cannot be seen where it leads. -/
def Good (S : FileSystem) (t : Files) (path : List Byte) : Prop :=
  (∃ node search, stat S t path = .ok node ∧
    t node = some (.dir search)) ∨
    ∃ why : Refusal, why.Unseen ∧ stat S t path = .error why

/-- Whatever is new is where a part of the path leads to. -/
def OnPath (S : FileSystem) (t after : Files) (path : List Byte) : Prop :=
  ∀ node, t node = none → after node ≠ none →
    ∃ work, work <+: path ∧ stat S after work = .ok node

theorem stat_of_lt (hpath : path ≠ []) (hlt : path.length < S.pathMax)
    (t : Files) :
    stat S t path = walk S.fits t (S.start path) (pathParts path) := by
  rw [stat, if_neg hpath, if_neg (Nat.not_le.mpr hlt)]

theorem stat_of_le (hpath : path ≠ []) (hle : S.pathMax ≤ path.length)
    (t : Files) : stat S t path = .error .tooLong := by
  rw [stat, if_neg hpath, if_pos hle]

theorem good_of_le (hpath : path ≠ []) (hle : S.pathMax ≤ path.length)
    (t : Files) : Good S t path :=
  Or.inr ⟨.tooLong, Or.inr (Or.inl rfl), stat_of_le hpath hle t⟩

theorem stat_extends (h : Extends t after)
    {result : Except Refusal (List (List Byte))}
    (hstat : stat S t path = result) (hresult : result ≠ .error .missing) :
    stat S after path = result := by
  by_cases hempty : path = []
  · rw [stat, if_pos hempty] at hstat
    exact absurd hstat.symm hresult
  rcases Nat.lt_or_ge path.length S.pathMax with hlt | hle
  · rw [stat_of_lt hempty hlt] at hstat ⊢
    exact walk_extends h hstat hresult
  · rw [stat_of_le hempty hle] at hstat ⊢
    exact hstat

theorem Good.extends (h : Good S t path) (hextends : Extends t after) :
    Good S after path := by
  rcases h with ⟨node, search, hstat, hnode⟩ | ⟨why, hwhy, hunseen⟩
  · left
    exact ⟨node, search, stat_extends hextends hstat (by simp),
      hextends.eq_of_some hnode⟩
  · right
    exact ⟨why, hwhy, stat_extends hextends hunseen
      (fun heq => hwhy.ne_missing (Except.error.inj heq))⟩

theorem OnPath.refl (t : Files) : OnPath S t t path :=
  fun _ hnone hsome => absurd hnone hsome

theorem OnPath.trans {mid : Files} (h : OnPath S t mid path)
    (hextends : Extends mid after) (h' : OnPath S mid after path) :
    OnPath S t after path := by
  intro node hnone hsome
  cases hmid : mid node with
  | none => exact h' node hmid hsome
  | some entry =>
      obtain ⟨work, hwork, hstat⟩ := h node hnone (by simp [hmid])
      exact ⟨work, hwork, stat_extends hextends hstat (by simp)⟩

theorem pathParts_concat (h : slash ∉ comp) (prev : List Byte) :
    pathParts (prev ++ slash :: comp) = pathParts prev ++ [part comp] := by
  rw [pathParts, List.splitOn_append_cons_self, List.splitOn_eq_singleton h,
    List.map_append]
  rfl

theorem Good.slash (h : Good S t prev) (hprev : prev ≠ []) :
    Good S t (prev ++ [slash]) := by
  have hne : prev ++ [Alib.slash] ≠ [] := by simp
  rcases Nat.lt_or_ge (prev ++ [Alib.slash]).length S.pathMax with hlt | hle
  swap
  · exact good_of_le hne hle t
  have hparts : pathParts (prev ++ [Alib.slash]) =
      pathParts prev ++ [part []] := pathParts_concat List.not_mem_nil prev
  have hstart : S.start (prev ++ [Alib.slash]) = S.start prev := by
    rw [FileSystem.start, List.head?_append_of_ne_nil _ hprev]
    rfl
  have hshort : prev.length < S.pathMax := by
    rw [List.length_append] at hlt
    omega
  simp only [Good, stat_of_lt hprev hshort] at h
  simp only [Good, stat_of_lt hne hlt, hstart, hparts]
  rcases h with ⟨node, search, hwalk, hnode⟩ | ⟨why, hwhy, hunseen⟩
  · left
    refine ⟨node, search, ?_, hnode⟩
    rw [walk_concat hwalk]
    simp [walk, lookUp, part, hnode]
  · right
    exact ⟨why, hwhy, walk_concat_error hunseen _⟩

end MakingPaths

section Cache

variable {S : FileSystem} {stack : Stack} {base file : CString}
  {id : BitVec 16} {flags : BitVec 32} {t : Files}

end Cache

end BytePath
end Alib
