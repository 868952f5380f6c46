import Mathlib.Algebra.Group.Int.Defs
import Mathlib.Algebra.Group.Nat.Defs
import Utsuite.CellArray

namespace Utsuite.Prevector

open CellArray List

/-- The faults of an access: `inactive` is a read of the union member that was not written last. -/
inductive Fault
  | inactive
  | bounds
  | fuel

inductive DirectOrIndirect (T : Type)
  | direct (cells : Cells T)
  | indirect (capacity : Nat) (cells : Cells T)

structure prevector (T : Type) where
  _size : Nat
  _union : DirectOrIndirect T

def wadd (a b : Nat) : Nat := (a + b) % 2 ^ 32

def wsub (a b : Nat) : Nat := (((a : Int) - b) % 2 ^ 32).toNat

def inBounds {α : Type*} : Option α → Except Fault α
  | none => .error .bounds
  | some a => .ok a

section

variable {T : Type} (N : Nat)

def prevector.new : prevector T := ⟨0, .direct (blank N)⟩

def isDirect (v : prevector T) : Bool := v._size ≤ N

def size (v : prevector T) : Nat := if isDirect N v then v._size else wsub (wsub v._size N) 1

def items (v : prevector T) : Except Fault (Cells T) :=
  match isDirect N v, v._union with
  | true, .direct cells => .ok cells
  | false, .indirect _ cells => .ok cells
  | _, _ => .error .inactive

def setItems (v : prevector T) (cells : Cells T) : prevector T :=
  match v._union with
  | .direct _ => { v with _union := .direct cells }
  | .indirect capacity _ => { v with _union := .indirect capacity cells }

def capacity (v : prevector T) : Except Fault Nat :=
  match isDirect N v, v._union with
  | true, _ => .ok N
  | false, .indirect capacity _ => .ok capacity
  | false, .direct _ => .error .inactive

def changeCapacity (v : prevector T) (new_capacity : Nat) : Except Fault (prevector T) := do
  if new_capacity ≤ N then
    if isDirect N v then .ok v
    else
      let src ← items N v
      let dst ← inBounds (copy (blank N) src (size N v))
      .ok ⟨wsub v._size (wadd N 1), .direct dst⟩
  else if isDirect N v then
    let src ← items N v
    let dst ← inBounds (copy (blank new_capacity) src (size N v))
    .ok ⟨wadd v._size (wadd N 1), .indirect new_capacity dst⟩
  else
    let indirect ← items N v
    .ok ⟨v._size, .indirect new_capacity (resized indirect new_capacity)⟩

def construct (v : prevector T) (pos : Nat) (val : T) : Except Fault (prevector T) := do
  let cells ← items N v
  let cells ← inBounds (write cells pos val)
  .ok (setItems v cells)

def append (v : prevector T) (val : T) : Except Fault (prevector T) :=
  let v := { v with _size := wadd v._size 1 }
  construct N v (wsub (size N v) 1) val

def fill (val : T) (n : Nat) : Nat → prevector T → Except Fault (prevector T)
  | rounds, v =>
    if size N v < n then
      match rounds with
      | 0 => .error .fuel
      | rounds + 1 => append N v val >>= fill val n rounds
    else .ok v

def appendAll (v : prevector T) (vals : List T) : Except Fault (prevector T) :=
  vals.foldlM (append N) v

def ensureCapacity (v : prevector T) (n new_capacity : Nat) : Except Fault (prevector T) := do
  if (← capacity N v) < n then changeCapacity N v new_capacity else .ok v

def countDown : Nat → prevector T → prevector T
  | 0, v => v
  | rounds + 1, v => countDown rounds { v with _size := wsub v._size 1 }

def erase (v : prevector T) (first last : Nat) : Except Fault (prevector T) := do
  let endp := size N v
  let cells ← items N v
  let v := countDown (last - first) v
  let cells ← inBounds (move cells first last (endp - last))
  .ok (setItems v cells)

def truncate (v : prevector T) (new_size : Nat) : Except Fault (prevector T) :=
  if size N v > new_size then erase N v new_size (size N v) else .ok v

def resize [Inhabited T] (v : prevector T) (new_size : Nat) : Except Fault (prevector T) := do
  let v ← truncate N v new_size
  let v ← ensureCapacity N v new_size new_size
  fill N default new_size new_size v

def clear [Inhabited T] (v : prevector T) : Except Fault (prevector T) := resize N v 0

def assign [Inhabited T] (v : prevector T) (n : Nat) (val : T) : Except Fault (prevector T) := do
  let v ← clear N v
  let v ← ensureCapacity N v n n
  fill N val n n v

def assignRange [Inhabited T] (v : prevector T) (vals : List T) : Except Fault (prevector T) := do
  let v ← clear N v
  let v ← ensureCapacity N v vals.length vals.length
  appendAll N v vals

def reserve (v : prevector T) (new_capacity : Nat) : Except Fault (prevector T) :=
  ensureCapacity N v new_capacity new_capacity

def shrinkToFit (v : prevector T) : Except Fault (prevector T) := changeCapacity N v (size N v)

def makeRoom (v : prevector T) (p count : Nat) : Except Fault (prevector T) := do
  let new_size := wadd (size N v) count
  let v ← ensureCapacity N v new_size (wadd new_size (new_size >>> 1))
  let cells ← items N v
  let cells ← inBounds (move cells (p + count) p (size N v - p))
  let v := setItems v cells
  .ok { v with _size := wadd v._size count }

def constructAll (v : prevector T) (p : Nat) : List T → Except Fault (prevector T)
  | [] => .ok v
  | val :: vals => do
    let v ← construct N v p val
    constructAll v (p + 1) vals

def insertRange (v : prevector T) (p : Nat) (vals : List T) : Except Fault (prevector T) := do
  let v ← makeRoom N v p vals.length
  constructAll N v p vals

def insert (v : prevector T) (p : Nat) (val : T) : Except Fault (prevector T) := do
  let v ← makeRoom N v p 1
  construct N v p val

def insertCopies (v : prevector T) (p count : Nat) (val : T) : Except Fault (prevector T) := do
  let v ← makeRoom N v p count
  constructAll N v p (List.replicate count val)

def pushBack (v : prevector T) (val : T) : Except Fault (prevector T) := do
  let new_size := wadd (size N v) 1
  let v ← ensureCapacity N v new_size (wadd new_size (new_size >>> 1))
  let v ← construct N v (size N v) val
  .ok { v with _size := wadd v._size 1 }

def popBack (v : prevector T) : Except Fault (prevector T) :=
  erase N v (wsub (size N v) 1) (size N v)

def get (v : prevector T) (pos : Nat) : Except Fault T := do
  let cells ← items N v
  inBounds (read cells pos)

def contents (v : prevector T) : Except Fault (List T) := (List.range (size N v)).mapM (get N v)

def copyConstruct (other : prevector T) : Except Fault (prevector T) := do
  let v ← changeCapacity N (.new N) (size N other)
  let vals ← contents N other
  appendAll N v vals

def copyAssign [Inhabited T] (v other : prevector T) : Except Fault (prevector T) := do
  let v ← resize N v 0
  let v ← changeCapacity N v (size N other)
  let vals ← contents N other
  appendAll N v vals

end

end Utsuite.Prevector
