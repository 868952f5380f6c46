import Mathlib.Data.List.Basic

namespace Utsuite.PropertyTree

open List

inductive PTree (α : Type)
  | node (data : List α) (children : List (List α × PTree α))

namespace PTree

variable {α : Type}

def data : PTree α → List α
  | node data _ => data

def children : PTree α → List (List α × PTree α)
  | node _ children => children

def leaf (text : List α) : PTree α := node text []

def object (members : List (List α × List α)) : PTree α :=
  node [] (members.map fun m => (m.1, leaf m.2))

def array (elements : List (PTree α)) : PTree α := node [] (elements.map fun t => ([], t))

variable [DecidableEq α]

def find (name : List α) (t : PTree α) : Option (PTree α) :=
  (t.children.find? fun child => child.1 == name).map Prod.snd

def walkPath : List (List α) → PTree α → Option (PTree α)
  | [], t => some t
  | name :: path, t => (t.find name).bind (walkPath path)

end PTree

variable {α : Type} [DecidableEq α]

/-- The parts of a path. There is none behind a separator at the end, and none in the empty path. -/
def fragments (sep : α) (path : List α) : List (List α) :=
  let parts := path.splitOn sep
  if parts.getLast? = some [] then parts.dropLast else parts

namespace PTree

def getChild (sep : α) (path : List α) (t : PTree α) : Option (PTree α) :=
  walkPath (fragments sep path) t

def get (sep : α) (path : List α) (t : PTree α) : Option (List α) :=
  (t.getChild sep path).map data

end PTree

def Simple (sep : α) (name : List α) : Prop := name ≠ [] ∧ sep ∉ name

theorem fragments_nil (sep : α) : fragments sep [] = [] := by
  rw [fragments, splitOn_nil]
  rfl

theorem fragments_simple {sep : α} {name : List α} (h : Simple sep name) :
    fragments sep name = [name] := by
  rw [fragments, splitOn_eq_singleton h.2]
  exact if_neg fun hlast => h.1 (Option.some.inj hlast)

namespace PTree

theorem getChild_nil (sep : α) (t : PTree α) : t.getChild sep [] = some t := by
  rw [getChild, fragments_nil, walkPath]

theorem getChild_simple {sep : α} {name : List α} (h : Simple sep name) (t : PTree α) :
    t.getChild sep name = t.find name := by
  rw [getChild, fragments_simple h, walkPath]
  cases t.find name <;> rfl

theorem find_object {members : List (List α × List α)} (hnodup : (members.map Prod.fst).Nodup)
    {m : List α × List α} (hm : m ∈ members) : (object members).find m.1 = some (leaf m.2) := by
  induction members with
  | nil => exact absurd hm not_mem_nil
  | cons first members ih =>
    rw [map_cons, nodup_cons] at hnodup
    obtain rfl | hm := List.mem_cons.mp hm
    · simp [find, object, children]
    · have hne : first.1 ≠ m.1 := fun heq => hnodup.1 (heq ▸ mem_map_of_mem hm)
      have hrest := ih hnodup.2 hm
      simp only [find, object, children, map_cons] at hrest ⊢
      rw [find?_cons_of_neg (by simpa using hne)]
      exact hrest

theorem get_object {sep : α} {members : List (List α × List α)}
    (hnodup : (members.map Prod.fst).Nodup) {m : List α × List α} (hm : m ∈ members)
    (hsimple : Simple sep m.1) : (object members).get sep m.1 = some m.2 := by
  rw [get, getChild_simple hsimple, find_object hnodup hm]
  rfl

end PTree

end Utsuite.PropertyTree
