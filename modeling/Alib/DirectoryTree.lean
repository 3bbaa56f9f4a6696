import Mathlib.Tactic
import Mathlib.Data.List.DropRight

/-!
# Trees of directories

A tree maps a node, the names on the way from the root, to what is there.  A
path is walked from a node one part at a time: a name leads to a child, and
the parts that repeat a separator, stay or go up are kept apart.  Every part
but a repeated separator needs the permission to search the directory it is
looked up in.  A name that is too long cannot be looked up, and a link that
leads back to itself can be neither walked through nor ended at.  Making a
directory adds one node below an existing one; whether the system lets it be
added is given.
-/

namespace Alib
namespace DirectoryTree

variable {N : Type*}

inductive Entry where
  | dir (search : Bool)
  | file
  | loop
  deriving DecidableEq, Repr

abbrev NameTree (N : Type*) := List N → Option Entry

inductive PathPart (N : Type*) where
  | blank
  | here
  | up
  | name (name : N)
  deriving DecidableEq, Repr

inductive Refusal where
  | missing
  | notDirectory
  | denied
  | found
  | tooLong
  | loop
  deriving DecidableEq, Repr

/-- It is not known what is there. -/
def Refusal.Unseen (why : Refusal) : Prop :=
  why = .denied ∨ why = .tooLong ∨ why = .loop

theorem Refusal.Unseen.ne_missing {why : Refusal} (h : why.Unseen) :
    why ≠ .missing := by
  rcases h with rfl | rfl | rfl <;> simp

/-- One part is looked up in a node. -/
def lookUp (fits : N → Bool) (t : NameTree N) (node : List N)
    (part : PathPart N) : Except Refusal (List N) :=
  match t node with
  | none => .error .missing
  | some .file => .error .notDirectory
  | some .loop => .error .loop
  | some (.dir search) =>
      match part with
      | .blank => .ok node
      | .here => if search then .ok node else .error .denied
      | .up => if search then .ok node.dropLast else .error .denied
      | .name name =>
          if search = false then .error .denied
          else if fits name then .ok (node ++ [name])
          else .error .tooLong

/-- The node a path leads to; the last node has to be there as well. -/
def walk (fits : N → Bool) (t : NameTree N) :
    List N → List (PathPart N) → Except Refusal (List N)
  | node, [] =>
      match t node with
      | none => .error .missing
      | some .loop => .error .loop
      | some _ => .ok node
  | node, part :: rest =>
      match lookUp fits t node part with
      | .error why => .error why
      | .ok next => walk fits t next rest

/-- Whatever is there lies in a directory. -/
structure Closed (t : NameTree N) : Prop where
  root : ∃ search, t [] = some (.dir search)
  parent : ∀ node name, t (node ++ [name]) ≠ none →
    ∃ search, t node = some (.dir search)

/-- The second tree has more directories, which can be searched. -/
def Extends (t after : NameTree N) : Prop :=
  ∀ node, after node = t node ∨
    (t node = none ∧ after node = some (.dir true))

theorem Extends.refl (t : NameTree N) : Extends t t := fun _ => Or.inl rfl

theorem Extends.trans {t mid after : NameTree N} (h : Extends t mid)
    (h' : Extends mid after) : Extends t after := by
  intro node
  rcases h' node with hsame | ⟨hnone, hdir⟩
  · rw [hsame]
    exact h node
  · rcases h node with hsame | ⟨_, hmid⟩
    · right
      exact ⟨hsame ▸ hnone, hdir⟩
    · rw [hmid] at hnone
      cases hnone

theorem Extends.eq_of_some {t after : NameTree N} (h : Extends t after)
    {node : List N} {entry : Entry} (hnode : t node = some entry) :
    after node = some entry := by
  rcases h node with hsame | ⟨hnone, _⟩
  · rw [hsame, hnode]
  · rw [hnode] at hnone
    cases hnone

theorem Closed.dropLast {t : NameTree N} (h : Closed t) {node : List N}
    {search : Bool} (hnode : t node = some (.dir search)) :
    ∃ other, t node.dropLast = some (.dir other) := by
  rcases List.eq_nil_or_concat node with rfl | ⟨front, name, rfl⟩
  · exact ⟨search, hnode⟩
  · rw [List.concat_eq_append, List.dropLast_concat]
    apply h.parent front name
    rw [← List.concat_eq_append, hnode]
    simp

section Walks

variable {fits : N → Bool} {t after : NameTree N} {node : List N}

/-- Walking on from where a path leads. -/
theorem walk_concat {parts : List (PathPart N)} {next : List N}
    (hwalk : walk fits t node parts = .ok next) (part : PathPart N) :
    walk fits t node (parts ++ [part]) = walk fits t next [part] := by
  induction parts generalizing node with
  | nil =>
      have hsame : node = next := by
        rw [walk] at hwalk
        split at hwalk <;> cases hwalk
        rfl
      rw [hsame]
      rfl
  | cons first parts ih =>
      rw [List.cons_append, walk]
      rw [walk] at hwalk
      cases hfirst : lookUp fits t node first with
      | error why =>
          rw [hfirst] at hwalk
          cases hwalk
      | ok mid =>
          rw [hfirst] at hwalk
          exact ih hwalk

/-- What refuses a path refuses every longer one. -/
theorem walk_concat_error {parts : List (PathPart N)} {why : Refusal}
    (hwalk : walk fits t node parts = .error why) (part : PathPart N) :
    walk fits t node (parts ++ [part]) = .error why := by
  induction parts generalizing node with
  | nil =>
      have hlookUp : lookUp fits t node part = .error why := by
        rw [walk] at hwalk
        rw [lookUp]
        split at hwalk
        next hnode => rw [hnode]; exact hwalk
        next hnode => rw [hnode]; exact hwalk
        next => cases hwalk
      rw [List.nil_append, walk, hlookUp]
  | cons first parts ih =>
      rw [List.cons_append, walk]
      rw [walk] at hwalk
      cases hfirst : lookUp fits t node first with
      | error other =>
          rw [hfirst] at hwalk
          exact hwalk
      | ok mid =>
          rw [hfirst] at hwalk
          exact ih hwalk

/-- A path that does not lead to a missing node leads to the same node in a
larger tree. -/
theorem walk_extends (h : Extends t after) {parts : List (PathPart N)}
    {result : Except Refusal (List N)}
    (hwalk : walk fits t node parts = result)
    (hresult : result ≠ .error .missing) :
    walk fits after node parts = result := by
  induction parts generalizing node with
  | nil =>
      cases hnode : t node with
      | none =>
          simp only [walk, hnode] at hwalk
          exact absurd hwalk.symm hresult
      | some entry =>
          simp only [walk, hnode] at hwalk
          simp only [walk, h.eq_of_some hnode, hwalk]
  | cons first parts ih =>
      cases hnode : t node with
      | none =>
          simp only [walk, lookUp, hnode] at hwalk
          exact absurd hwalk.symm hresult
      | some entry =>
          have hsame : lookUp fits after node first =
              lookUp fits t node first := by
            simp only [lookUp, hnode, h.eq_of_some hnode]
          rw [walk] at hwalk ⊢
          rw [hsame]
          cases hfirst : lookUp fits t node first with
          | error why =>
              rw [hfirst] at hwalk
              exact hwalk
          | ok next =>
              rw [hfirst] at hwalk
              exact ih hwalk

end Walks

section Making

variable [DecidableEq N] {t : NameTree N} {node : List N}

theorem extends_update {child : List N} (h : t child = none) :
    Extends t (Function.update t child (some (.dir true))) := by
  intro other
  by_cases heq : other = child
  · right
    subst heq
    exact ⟨h, Function.update_self ..⟩
  · left
    exact Function.update_of_ne heq _ _

theorem Closed.update (hclosed : Closed t) {name : N} {search : Bool}
    (hnode : t node = some (.dir search)) (hchild : t (node ++ [name]) = none) :
    Closed (Function.update t (node ++ [name]) (some (.dir true))) := by
  have hextends := extends_update hchild
  constructor
  · obtain ⟨other, hroot⟩ := hclosed.root
    exact ⟨other, hextends.eq_of_some hroot⟩
  · intro other child hother
    by_cases heq : other ++ [child] = node ++ [name]
    · obtain ⟨hparent, _⟩ := List.append_inj' heq rfl
      exact ⟨search, hextends.eq_of_some (hparent ▸ hnode)⟩
    · rw [Function.update_of_ne heq] at hother
      obtain ⟨above, habove⟩ := hclosed.parent other child hother
      exact ⟨above, hextends.eq_of_some habove⟩

end Making

end DirectoryTree
end Alib
