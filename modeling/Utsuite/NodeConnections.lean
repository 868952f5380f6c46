import Utsuite.ConnectionPool
import Utsuite.FallibleCalls
import Utsuite.NodeServer

namespace Utsuite.NodeConnections

open ByteWords FallibleCalls Hoare NodeServer Makes
open ConnectionPool (ConnPool)

variable {Conn α β : Type}

/-- What a step finds outside: which database calls throw, the rows behind each query, whether a
pooled connection turns out closed, the new connection if one can be made, and what the memory held
where a record is not initialised. -/
structure Env (Conn : Type) where
  throws : Nat → Bool
  answer : Bytes → List Row
  closed : Bool
  created : Option Conn
  junk : Int32

/-- The pool, the connections it has handed out, those made outside it and not yet destroyed, the
memory, and the number of database calls so far. -/
structure State (Conn : Type) where
  pool : ConnPool Conn
  handedOut : List Conn
  created : List Conn
  cache : Cache
  calls : Nat

abbrev Request (Conn : Type) := EStateM Fault (State Conn)

def dbCall (env : Env Conn) (a : α) : Request Conn α := fun s =>
  let t := { s with calls := s.calls + 1 }
  if env.throws s.calls then .error .sqlException t else .ok a t

section

variable [DecidableEq Conn]

def createConnection (env : Env Conn) : Request Conn (Option Conn) := fun s =>
  .ok env.created { s with created := env.created.toList ++ s.created }

/-- Destroying a connection. `close` may throw, but that exception is caught. -/
def destroyConnection (conn : Conn) : Request Conn Unit := fun s =>
  .ok () { s with created := s.created.erase conn }

def getConnection (env : Env Conn) : Request Conn (Option Conn) := fun s =>
  let r := ConnectionPool.getConnection env.closed env.created s.pool
  .ok r.1 { s with pool := r.2, handedOut := r.1.toList ++ s.handedOut }

def releaseConnection (conn : Conn) : Request Conn Unit := fun s =>
  .ok () { s with
    pool := ConnectionPool.releaseConnection (some conn) s.pool
    handedOut := s.handedOut.erase conn }

/-- The connections are those of the pool and those made outside it, and any call may throw. -/
def pooled (env : Env Conn) : Backend (State Conn) Conn where
  cache := State.cache
  store f s := { s with cache := f s.cache }
  junk := env.junk
  createConnection := createConnection env
  destroyConnection := destroyConnection
  getConnection := getConnection env
  releaseConnection := releaseConnection
  executeQuery sql := dbCall env (env.answer sql)
  dbCall := dbCall env

end

section

variable (env : Env Conn)

def dbCalls : Calls (State Conn) (ConnPool Conn × List Conn × List Conn) where
  made := State.calls
  throws := env.throws
  kept s := (s.pool, s.handedOut, s.created)

theorem dbCall_makes (a : α) : Makes (dbCalls env) 1 (dbCall env a) a := by
  intro s
  have hquiet : Quiet (dbCalls env) s 1 ↔ env.throws s.calls = false :=
    ⟨fun h => h 0 Nat.one_pos, fun h n hn => by rwa [Nat.lt_one_iff.mp hn]⟩
  rw [hquiet]
  refine ⟨fun h => ⟨{ s with calls := s.calls + 1 }, ?_, rfl, rfl⟩,
    fun h => ⟨.sqlException, { s with calls := s.calls + 1 }, ?_, rfl⟩⟩
  · rw [dbCall, h]
    rfl
  · rw [dbCall, if_pos (eq_true_of_ne_false h)]

variable [DecidableEq Conn]

theorem openTable_makes (sql : Bytes) : Makes (dbCalls env) 4 (openTable (pooled env) sql) (env.answer sql) := by
  change Makes (dbCalls env) (1 + (1 + (1 + 1))) _ _
  exact bind (dbCall_makes env ()) (bind (dbCall_makes env ())
    (bind (dbCall_makes env ()) (dbCall_makes env _)))

theorem nextRow_makes (row : Row) :
    Makes (dbCalls env) 4 (nextRow (pooled env) row) ⟨0, row.addr, row.hostname, row.ip, env.junk⟩ := by
  change Makes (dbCalls env) (1 + (1 + (1 + (1 + 0)))) _ _
  exact bind (dbCall_makes env true) (bind (dbCall_makes env row.addr)
    (bind (dbCall_makes env row.hostname) (bind (dbCall_makes env row.ip) (pure _))))

theorem readAllLoop_makes (rows : List Row) :
    Makes (dbCalls env) (4 * rows.length + 1) (readAllLoop (pooled env) rows)
      (rows.map fun row => ⟨0, row.addr, row.hostname, row.ip, env.junk⟩) := by
  induction rows with
  | nil =>
    change Makes (dbCalls env) (1 + 0) _ _
    exact bind (dbCall_makes env false) (pure [])
  | cons row rows ih =>
    have hcount : 4 * (row :: rows).length + 1 = 4 + (0 + (4 * rows.length + 1 + 0)) := by
      rw [List.length_cons]
      omega
    rw [hcount]
    exact bind (nextRow_makes env row)
      (bind (of_modify (fun _ => rfl) fun _ => rfl) (bind ih (pure _)))

theorem readMasterLoop_makes (rows : List Row) :
    Makes (dbCalls env) (5 * rows.length + 1) (readMasterLoop (pooled env) rows)
      (rows.map Row.node) := by
  induction rows with
  | nil =>
    change Makes (dbCalls env) (1 + 0) _ _
    exact bind (dbCall_makes env false) (pure [])
  | cons row rows ih =>
    have hcount : 5 * (row :: rows).length + 1 = 4 + (1 + (5 * rows.length + 1 + 0)) := by
      rw [List.length_cons]
      omega
    rw [hcount]
    exact bind (nextRow_makes env row)
      (bind (dbCall_makes env row.validflag) (bind ih (pure _)))

theorem readAllNodeToNet_makes :
    Makes (dbCalls env) (5 + 4 * (env.answer selectAll).length) (readAllNodeToNet (pooled env))
      ((env.answer selectAll).map fun row => ⟨0, row.addr, row.hostname, row.ip, env.junk⟩) := by
  have hcount : 5 + 4 * (env.answer selectAll).length = 4 + (4 * (env.answer selectAll).length + 1) := by
    omega
  rw [hcount]
  exact bind (openTable_makes env selectAll) (readAllLoop_makes env _)

theorem readMasterNodeToNet_makes (hfits : (queryText nodeaddr).length < sqlBufSize) :
    Makes (dbCalls env) (5 + 5 * (env.answer (queryText nodeaddr)).length)
      (readMasterNodeToNet (pooled env) nodeaddr)
      ((env.answer (queryText nodeaddr)).map Row.node) := by
  have hcount : 5 + 5 * (env.answer (queryText nodeaddr)).length =
      4 + (5 * (env.answer (queryText nodeaddr)).length + 1) := by
    omega
  rw [hcount, readMasterNodeToNet, if_neg (by omega)]
  exact bind (openTable_makes env (queryText nodeaddr)) (readMasterLoop_makes env _)

end

def endState : EStateM.Result Fault (State Conn) α → State Conn
  | .ok _ t => t
  | .error _ t => t

/-- As many pooled connections are handed out as before, and every connection made outside the pool
is destroyed. -/
def Balanced (s t : State Conn) : Prop :=
  t.handedOut.length = s.handedOut.length ∧ t.created = s.created

def Yields (env : Env Conn) (pool : ConnPool Conn) : Prop :=
  match pool._connList with
  | [] => pool._curSize < pool._maxSize ∧ env.created.isSome
  | _ :: _ => env.closed = true → env.created.isSome

/-- No database call that the request makes on its connection throws, and the text of its query fits
into the buffer. -/
def Undisturbed (env : Env Conn) (mstquest : Mstnodequest) (s : State Conn) : Prop :=
  if mstquest._questtype = MST_QUEST_ONE then
    s.cache mstquest._masteraddr = none → env.created.isSome →
      (queryText mstquest._masteraddr).length < sqlBufSize ∧
      Quiet (dbCalls env) s (5 + 5 * (env.answer (queryText mstquest._masteraddr)).length)
  else if mstquest._questtype = MST_QUEST_ALL then
    Yields env s.pool → Quiet (dbCalls env) s (5 + 4 * (env.answer selectAll).length)
  else True

theorem getConnection_isSome_iff (env : Env Conn) (pool : ConnPool Conn) :
    (ConnectionPool.getConnection env.closed env.created pool).1.isSome ↔ Yields env pool := by
  obtain ⟨curSize, maxSize, connList⟩ := pool
  cases connList with
  | nil =>
    by_cases hroom : curSize < maxSize
    · cases hcreated : env.created <;> simp [ConnectionPool.getConnection, Yields, hroom, hcreated]
    · simp [ConnectionPool.getConnection, Yields, hroom]
  | cons con rest =>
    cases hclosed : env.closed <;> cases hcreated : env.created <;>
      simp [ConnectionPool.getConnection, Yields, hclosed, hcreated]

structure SameConnections (s t : State Conn) : Prop where
  pool : t.pool = s.pool
  handedOut : t.handedOut = s.handedOut
  created : t.created = s.created

theorem endState_bind (hm : Makes (dbCalls env) k m a) (f : α → Request Conn β) (s : State Conn) :
    (Quiet (dbCalls env) s k →
      ∃ t, SameConnections s t ∧ endState ((m >>= f) s) = endState (f a t)) ∧
    (¬ Quiet (dbCalls env) s k → SameConnections s (endState ((m >>= f) s))) := by
  have hsame {t : State Conn} (h : (dbCalls env).kept t = (dbCalls env).kept s) : SameConnections s t := by
    obtain ⟨hpool, hheld, hcreated⟩ : t.pool = s.pool ∧ t.handedOut = s.handedOut ∧ t.created = s.created := by
      simpa only [dbCalls, Prod.mk.injEq] using h
    exact ⟨hpool, hheld, hcreated⟩
  constructor
  · intro hquiet
    obtain ⟨t, hrun, -, hkept⟩ := (hm s).1 hquiet
    exact ⟨t, hsame hkept, by rw [bind_apply_ok hrun]⟩
  · intro hquiet
    obtain ⟨e, t, hrun, hkept⟩ := (hm s).2 hquiet
    rw [bind_apply_error hrun]
    exact hsame hkept

section

variable [DecidableEq Conn] {env : Env Conn} {s : State Conn}

theorem readPooled_balanced_iff (missing : α) (found : List CMstNodeData → α) :
    Balanced s (endState (readPooled (pooled env) missing found s)) ↔
      (Yields env s.pool → Quiet (dbCalls env) s (5 + 4 * (env.answer selectAll).length)) := by
  rw [← getConnection_isSome_iff]
  have hget : (pooled env).getConnection s = .ok (ConnectionPool.getConnection env.closed env.created s.pool).1
      { s with
        pool := (ConnectionPool.getConnection env.closed env.created s.pool).2
        handedOut := (ConnectionPool.getConnection env.closed env.created s.pool).1.toList ++ s.handedOut } := rfl
  rw [readPooled, bind_apply_ok hget]
  cases (ConnectionPool.getConnection env.closed env.created s.pool).1 with
  | none => exact ⟨fun _ h => absurd h Bool.false_ne_true, fun _ => ⟨rfl, rfl⟩⟩
  | some pConn =>
    obtain ⟨hok, hthrown⟩ := endState_bind (readAllNodeToNet_makes env)
      (fun vecnode => do (pooled env).releaseConnection pConn; return found vecnode)
      { s with
        pool := (ConnectionPool.getConnection env.closed env.created s.pool).2
        handedOut := pConn :: s.handedOut }
    by_cases hquiet : Quiet (dbCalls env) s (5 + 4 * (env.answer selectAll).length)
    · obtain ⟨t, hsame, hend⟩ := hok hquiet
      refine ⟨fun _ _ => hquiet, fun _ => ?_⟩
      refine hend ▸ ⟨?_, hsame.created⟩
      change (t.handedOut.erase pConn).length = _
      rw [hsame.handedOut, List.erase_cons_head]
    · refine ⟨fun hbalanced => ?_, fun h => absurd (h rfl) hquiet⟩
      have hlen := congrArg List.length (hthrown hquiet).handedOut
      exact absurd (hbalanced.1.symm.trans hlen) (Nat.ne_of_lt (Nat.lt_succ_self _))

theorem remember_makes (env : Env Conn) (addr : Bytes) (vecnode : List CMstNodeData) :
    ∃ found, Makes (dbCalls env) 0 (remember (pooled env) addr vecnode) found := by
  change ∃ found, Makes (dbCalls env) (0 + 0) _ found
  cases vecnode <;> exact ⟨_, bind (of_modify (fun _ => rfl) fun _ => rfl) (pure _)⟩

theorem collectFromDb_balanced_iff (addr : Bytes) :
    Balanced s (endState (collectFromDb (pooled env) addr s)) ↔
      (env.created.isSome → (queryText addr).length < sqlBufSize ∧
        Quiet (dbCalls env) s (5 + 5 * (env.answer (queryText addr)).length)) := by
  have hcreate : (pooled env).createConnection s =
      .ok env.created { s with created := env.created.toList ++ s.created } := rfl
  rw [collectFromDb, bind_apply_ok hcreate]
  cases env.created with
  | none => exact ⟨fun _ h => absurd h Bool.false_ne_true, fun _ => ⟨rfl, rfl⟩⟩
  | some pConn =>
    -- A connection that is not destroyed stays at the front of the new ones.
    have hleak {t : State Conn} (h : t.created = pConn :: s.created) : ¬ Balanced s t := by
      intro hbalanced
      have hlen := congrArg List.length (hbalanced.2.symm.trans h)
      rw [List.length_cons] at hlen
      omega
    by_cases hfits : (queryText addr).length < sqlBufSize
    · obtain ⟨found, hremember⟩ := remember_makes env addr ((env.answer (queryText addr)).map Row.node)
      obtain ⟨hok, hthrown⟩ := endState_bind (readMasterNodeToNet_makes env hfits)
        (fun vecnode => do
          let vecnode ← remember (pooled env) addr vecnode
          (pooled env).destroyConnection pConn
          return some vecnode)
        { s with created := pConn :: s.created }
      by_cases hquiet : Quiet (dbCalls env) s (5 + 5 * (env.answer (queryText addr)).length)
      · obtain ⟨t, hsame, hend⟩ := hok hquiet
        obtain ⟨u, hsame', hend'⟩ := (endState_bind hremember
          (fun vecnode => do (pooled env).destroyConnection pConn; return some vecnode) t).1 (quiet_zero t)
        refine ⟨fun _ _ => ⟨hfits, hquiet⟩, fun _ => ?_⟩
        refine (hend.trans hend') ▸ ⟨?_, ?_⟩
        · change u.handedOut.length = _
          rw [hsame'.handedOut, hsame.handedOut]
        · change u.created.erase pConn = _
          rw [hsame'.created, hsame.created, List.erase_cons_head]
      · exact ⟨fun hbalanced => absurd hbalanced (hleak (hthrown hquiet).created),
          fun h => absurd (h rfl).2 hquiet⟩
    · have hover : readMasterNodeToNet (pooled env) addr = throw .bufferOverflow := by
        rw [readMasterNodeToNet, if_pos (by omega)]
      refine ⟨fun hbalanced => ?_, fun h => absurd (h rfl).1 hfits⟩
      rw [hover] at hbalanced
      exact absurd hbalanced (hleak rfl)

theorem collect_balanced_iff (mstquest : Mstnodequest) :
    Balanced s (endState (collect (pooled env) mstquest s)) ↔ Undisturbed env mstquest s := by
  rw [collect, Undisturbed]
  split
  · cases hcache : s.cache mstquest._masteraddr with
    | some node =>
      rw [collectOne_cached (B := pooled env) hcache]
      exact ⟨fun _ h => absurd h (Option.some_ne_none node), fun _ => ⟨rfl, rfl⟩⟩
    | none =>
      rw [collectOne_uncached (B := pooled env) hcache]
      exact (collectFromDb_balanced_iff mstquest._masteraddr).trans ⟨fun h _ => h, fun h => h rfl⟩
  · split
    · exact readPooled_balanced_iff none some
    · exact ⟨fun _ => trivial, fun _ => ⟨rfl, rfl⟩⟩

omit [DecidableEq Conn] in
theorem endState_sendRes (sign : Bytes → Int64 → Bytes) (mstquest : Mstnodequest)
    (vecnode : Option (List CMstNodeData)) (s : State Conn) :
    endState (sendRes sign mstquest vecnode s) = s := by
  rcases vecnode with _ | _ | ⟨node, nodes⟩ <;> rfl

theorem parseQuest_endState (sign : Bytes → Int64 → Bytes) (mstquest : Mstnodequest) :
    endState (parseQuest (pooled env) sign (some mstquest) s) = endState (collect (pooled env) mstquest s) := by
  rw [parseQuest]
  cases hrun : collect (pooled env) mstquest s with
  | ok vecnode t =>
    rw [bind_apply_ok hrun]
    exact endState_sendRes sign mstquest vecnode t
  | error e t => rw [bind_apply_error hrun]; rfl

/-- A request gives back the connections it took exactly when nothing disturbs it while it has one,
and so does `initreaddb`; a request that cannot be read takes none. -/
theorem connections_balanced_iff (sign : Bytes → Int64 → Bytes) (env : Env Conn) (s : State Conn) :
    Balanced s (endState (parseQuest (pooled env) sign none s)) ∧
    (∀ mstquest, Balanced s (endState (parseQuest (pooled env) sign (some mstquest) s)) ↔
      Undisturbed env mstquest s) ∧
    (Balanced s (endState (initreaddb (pooled env) s)) ↔
      (Yields env s.pool → Quiet (dbCalls env) s (5 + 4 * (env.answer selectAll).length))) := by
  refine ⟨⟨rfl, rfl⟩, fun mstquest => ?_, readPooled_balanced_iff () fun _ => ()⟩
  rw [parseQuest_endState]
  exact collect_balanced_iff mstquest

end

def oneConnection : State Nat := ⟨⟨1, 1, [7]⟩, [], [], emptyCache, 0⟩

def brokenDb : Env Nat := ⟨fun n => n = 0, fun _ => [], false, some 8, 0⟩

/-- The first database call throws. The pool then never gets its only connection back, and the one
made for a single address is never destroyed. -/
theorem throwing_request_leaks :
    ¬ Balanced oneConnection (endState (parseQuest (pooled brokenDb) (fun _ _ => [])
      (some ⟨1, 0, MST_QUEST_ALL, []⟩) oneConnection)) ∧
    ¬ Balanced oneConnection (endState (parseQuest (pooled brokenDb) (fun _ _ => [])
      (some ⟨1, 0, MST_QUEST_ONE, [0x4e]⟩) oneConnection)) ∧
    ¬ Balanced oneConnection (endState (initreaddb (pooled brokenDb) oneConnection)) ∧
    (ConnectionPool.getConnection false (some 8) (endState (initreaddb (pooled brokenDb) oneConnection)).pool).1 =
      none := by
  have hthrows : ∀ k, ¬ Quiet (dbCalls brokenDb) oneConnection (5 + k) := by
    intro k hquiet
    have hfirst : brokenDb.throws 0 = false := hquiet 0 (by omega)
    exact absurd hfirst (by decide)
  have hall : ¬ Balanced oneConnection (endState (initreaddb (pooled brokenDb) oneConnection)) := by
    intro hbalanced
    exact hthrows _ ((readPooled_balanced_iff () fun _ => ()).mp hbalanced nofun)
  refine ⟨?_, ?_, hall, rfl⟩
  · intro hbalanced
    rw [parseQuest_endState] at hbalanced
    exact hthrows _ ((readPooled_balanced_iff none some).mp hbalanced nofun)
  · intro hbalanced
    rw [parseQuest_endState, collect_balanced_iff, Undisturbed, if_pos rfl] at hbalanced
    exact hthrows _ (hbalanced rfl rfl).2

end Utsuite.NodeConnections
