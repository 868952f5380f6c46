import Mathlib.Algebra.Order.Group.Int
import Mathlib.Data.List.Nodup
import Mathlib.Data.List.ReduceOption
import Utsuite.Transitions

namespace Utsuite.ConnectionPool

open Transitions List

variable {Conn Client : Type}

structure ConnPool (Conn : Type) where
  _curSize : Int
  _maxSize : Int
  _connList : List Conn

def initRound (pool : ConnPool Conn) (created : Option Conn) : ConnPool Conn :=
  match created with
  | some conn => { pool with _connList := pool._connList ++ [conn], _curSize := pool._curSize + 1 }
  | none => pool

def initConnection (pool : ConnPool Conn) (created : List (Option Conn)) : ConnPool Conn :=
  created.foldl initRound pool

/-- The arguments are the answers that `isClosed` and `CreateConnection` give if they are called. -/
def getConnection (closed : Bool) (created : Option Conn) (pool : ConnPool Conn) :
    Option Conn × ConnPool Conn :=
  match pool._connList with
  | con :: rest =>
    match if closed then created else some con with
    | none => (none, { pool with _connList := rest, _curSize := pool._curSize - 1 })
    | some con => (some con, { pool with _connList := rest })
  | [] =>
    if pool._curSize < pool._maxSize then
      match created with
      | some con => (some con, { pool with _curSize := pool._curSize + 1 })
      | none => (none, pool)
    else (none, pool)

def releaseConnection (conn : Option Conn) (pool : ConnPool Conn) : ConnPool Conn :=
  match conn with
  | some conn => { pool with _connList := pool._connList ++ [conn] }
  | none => pool

structure State (Conn Client : Type) where
  pool : ConnPool Conn
  held : List (Client × Conn)

inductive Call (Conn Client : Type)
  | getConnection (client : Client) (closed : Bool) (created : Option Conn)
  | releaseConnection (client : Client) (conn : Option Conn)

def handedOut (client : Client) (con : Option Conn) (held : List (Client × Conn)) :
    List (Client × Conn) :=
  match con with
  | some con => (client, con) :: held
  | none => held

/-- One call under `_lock`. The environment chooses whether a connection was closed or could be
made, and a new one differs from those that are alive. -/
def callStep [DecidableEq Conn] [DecidableEq Client] (s : State Conn Client)
    (call : Call Conn Client) (s' : State Conn Client) : Prop :=
  match call with
  | .getConnection client closed created =>
    (∀ con, created = some con → con ∉ s.pool._connList.tail ∧ con ∉ s.held.map Prod.snd) ∧
    s' = ⟨(getConnection closed created s.pool).2,
      handedOut client (getConnection closed created s.pool).1 s.held⟩
  | .releaseConnection client conn =>
    (∀ con, conn = some con → (client, con) ∈ s.held) ∧
    s' = ⟨releaseConnection conn s.pool,
      match conn with
      | some con => s.held.erase (client, con)
      | none => s.held⟩

def connPool (Conn Client : Type) [DecidableEq Conn] [DecidableEq Client] (maxSize : Int) :
    System (State Conn Client) (Call Conn Client) where
  start := {s | ∃ created : List (Option Conn), created.length = maxSize.toNat ∧
    created.reduceOption.Nodup ∧ s = ⟨initConnection ⟨0, maxSize, []⟩ created, []⟩}
  next := callStep

/-- The invariant of the pool. Every connection is either idle or held by one client, and `_curSize`
is the number of them all. -/
structure Accounted (maxSize : Int) (s : State Conn Client) : Prop where
  maxSize_eq : s.pool._maxSize = maxSize
  curSize_eq : s.pool._curSize = s.pool._connList.length + s.held.length
  curSize_le : s.pool._curSize ≤ max maxSize 0
  nodup : (s.pool._connList ++ s.held.map Prod.snd).Nodup

theorem initConnection_eq (pool : ConnPool Conn) (created : List (Option Conn)) :
    initConnection pool created =
      { pool with
        _connList := pool._connList ++ created.reduceOption
        _curSize := pool._curSize + created.reduceOption.length } := by
  induction created generalizing pool with
  | nil => simp [initConnection]
  | cons con created ih =>
    change initConnection (initRound pool con) created = _
    rw [ih]
    cases con with
    | none => simp [initRound]
    | some con =>
      simp only [initRound, reduceOption_cons_of_some, length_cons, append_assoc,
        singleton_append, ConnPool.mk.injEq, and_self, and_true]
      omega

theorem start_accounted (hlen : created.length = maxSize.toNat)
    (hnodup : created.reduceOption.Nodup) :
    Accounted maxSize (⟨initConnection ⟨0, maxSize, []⟩ created, []⟩ : State Conn Client) := by
  have hle := reduceOption_length_le created
  rw [initConnection_eq]
  refine ⟨rfl, by simp, ?_, by simpa using hnodup⟩
  rw [zero_add, ← Int.toNat_eq_max, ← hlen]
  exact Int.ofNat_le.mpr hle

section

variable {maxSize : Int} {s : State Conn Client}

theorem getConnection_accounted (h : Accounted maxSize s) (client : Client) (closed : Bool)
    (hfresh : ∀ con, created = some con →
      con ∉ s.pool._connList.tail ∧ con ∉ s.held.map Prod.snd) :
    Accounted maxSize ⟨(getConnection closed created s.pool).2,
      handedOut client (getConnection closed created s.pool).1 s.held⟩ := by
  obtain ⟨⟨curSize, limit, connList⟩, held⟩ := s
  obtain ⟨rfl, hcur, hle, hnodup⟩ := h
  dsimp only at hcur hle hnodup hfresh ⊢
  cases connList with
  | nil =>
    simp only [getConnection]
    split
    · next hlt =>
        cases created with
        | none => exact ⟨rfl, hcur, hle, hnodup⟩
        | some con =>
          refine ⟨rfl, ?_, ?_, List.nodup_cons.mpr ⟨(hfresh con rfl).2, hnodup⟩⟩
          · simp only [handedOut, length_nil, length_cons] at hcur ⊢
            omega
          · exact le_max_of_le_left hlt
    · exact ⟨rfl, hcur, hle, hnodup⟩
  | cons front rest =>
    rw [cons_append, nodup_cons] at hnodup
    rw [length_cons] at hcur
    have hkept : ∀ con, con ∉ rest → con ∉ held.map Prod.snd →
        Accounted limit ⟨⟨curSize, limit, rest⟩, (client, con) :: held⟩ := by
      intro con hrest hheld
      refine ⟨rfl, ?_, hle, ?_⟩
      · change curSize = rest.length + (held.length + 1 : Nat)
        omega
      · exact List.nodup_middle.mpr (List.nodup_cons.mpr
          ⟨fun hmem => (List.mem_append.mp hmem).elim hrest hheld, hnodup.2⟩)
    cases closed with
    | false =>
      exact hkept front (fun hmem => hnodup.1 (mem_append_left _ hmem))
        fun hmem => hnodup.1 (mem_append_right _ hmem)
    | true =>
      cases created with
      | some con => exact hkept con (hfresh con rfl).1 (hfresh con rfl).2
      | none =>
        refine ⟨rfl, ?_, ?_, hnodup.2⟩
        · change curSize - 1 = rest.length + held.length
          omega
        · change curSize - 1 ≤ max limit 0
          omega

theorem releaseConnection_accounted [DecidableEq Conn] [DecidableEq Client]
    (h : Accounted maxSize s) (hheld : (client, con) ∈ s.held) :
    Accounted maxSize ⟨releaseConnection (some con) s.pool, s.held.erase (client, con)⟩ := by
  obtain ⟨hmax, hcur, hle, hnodup⟩ := h
  have hperm := perm_cons_erase hheld
  refine ⟨hmax, ?_, hle, ?_⟩
  · have hlen := hperm.length_eq
    simp only [releaseConnection, length_append, length_cons, length_nil] at hlen ⊢
    omega
  · rw [releaseConnection, append_assoc]
    exact ((hperm.map Prod.snd).append_left _).nodup_iff.mp hnodup

end

theorem reach_accounted [DecidableEq Conn] [DecidableEq Client]
    (h : Reach (connPool Conn Client maxSize) s) : Accounted maxSize s := by
  refine h.invariant ?_ ?_
  · rintro s ⟨created, hlen, hnodup, rfl⟩
    exact start_accounted hlen hnodup
  · intro s call s' hs hnext
    cases call with
    | getConnection client closed created =>
      obtain ⟨hfresh, rfl⟩ := hnext
      exact getConnection_accounted hs client closed hfresh
    | releaseConnection client conn =>
      obtain ⟨hheld, rfl⟩ := hnext
      cases conn with
      | none => exact hs
      | some con => exact releaseConnection_accounted hs (hheld con rfl)

/-- In every state of the pool `_curSize` is the number of connections and stays within the limit,
and no connection is idle and held or held twice. -/
theorem connPool_accounting [DecidableEq Conn] [DecidableEq Client] (maxSize : Int)
    {s : State Conn Client} (h : Reach (connPool Conn Client maxSize) s) :
    s.pool._curSize = s.pool._connList.length + s.held.length ∧
    0 ≤ s.pool._curSize ∧ s.pool._curSize ≤ max s.pool._maxSize 0 ∧
    s.pool._connList.Nodup ∧ s.held.Nodup ∧
    (∀ client client' con, (client, con) ∈ s.held → (client', con) ∈ s.held →
      client = client') ∧
    ∀ client con, (client, con) ∈ s.held → con ∉ s.pool._connList := by
  obtain ⟨hmax, hcur, hle, hnodup⟩ := reach_accounted h
  obtain ⟨hidle, hheld, hdisjoint⟩ := List.nodup_append.mp hnodup
  refine ⟨hcur, by omega, by rwa [hmax], hidle, hheld.of_map, ?_, ?_⟩
  · intro client client' con hmem hmem'
    exact congrArg Prod.fst (inj_on_of_nodup_map hheld hmem hmem' rfl)
  · intro client con hmem hidle
    exact hdisjoint con hidle con (mem_map_of_mem hmem) rfl

theorem connPool_accounting_one :
    ∃ s : State Nat Nat, Reach (connPool Nat Nat 2) s ∧ s.held = [(5, 7)] ∧
      s.pool._curSize = s.pool._connList.length + s.held.length := by
  have hstart : Reach (connPool Nat Nat 2) ⟨⟨1, 2, [7]⟩, []⟩ :=
    .start ⟨[some 7, none], rfl, by decide, rfl⟩
  have hstep : Reach (connPool Nat Nat 2) ⟨⟨1, 2, []⟩, [(5, 7)]⟩ :=
    .step (i := .getConnection 5 false none) hstart ⟨by simp, rfl⟩
  exact ⟨_, hstep, rfl, (connPool_accounting 2 hstep).1⟩

/-- With a negative limit even the empty pool exceeds it. -/
theorem negative_limit_exceeded :
    ∃ s : State Nat Nat, Reach (connPool Nat Nat (-2)) s ∧ s.pool._maxSize < s.pool._curSize :=
  ⟨⟨⟨0, -2, []⟩, []⟩, .start ⟨[], rfl, by decide, rfl⟩, by decide⟩

end Utsuite.ConnectionPool
