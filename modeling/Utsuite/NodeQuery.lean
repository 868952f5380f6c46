import Mathlib.Data.List.TakeWhile
import Utsuite.NodeServer
import Utsuite.SqlLiteral
import Utsuite.Transitions

namespace Utsuite.NodeQuery

open ByteWords SqlLiteral Transitions Hoare List
open NodeServer hiding parseQuest initreaddb

/-- The answer of the database server to the text of a query. It is `none` where the connector
throws an `SQLException`. -/
abbrev Mysql := Database → Bytes → Option (List Row)

/-- What is assumed of MySQL: it gives all rows to the query for them, and it reads the string
literal of the other query and compares it exactly. What it does with a text behind the literal is
left open. -/
structure ReadsLiterals (mysql : Mysql) : Prop where
  all : ∀ db, mysql db selectAll = some db.rows
  one : ∀ db text value, lexLiteral text = some (value, []) →
    mysql db (selectOne ++ text) = some (db.select value)

structure Env where
  connected : Bool
  junk : Int32
  deriving DecidableEq

/-- The calls of a request where only the query can throw. Nothing of a connection matters but
whether there is one, and the state is the memory alone. -/
def queried (mysql : Mysql) (db : Database) (env : Env) : Backend Cache Unit where
  cache := id
  store f := f
  junk := env.junk
  createConnection := pure (if env.connected then some () else none)
  destroyConnection _ := pure ()
  getConnection := pure (if env.connected then some () else none)
  releaseConnection _ := pure ()
  executeQuery sql := (mysql db sql).elim (throw .sqlException) pure
  dbCall := pure

def outcome : EStateM.Result Fault Cache α → Except Fault (Cache × α)
  | .ok a cache => .ok (cache, a)
  | .error fault _ => .error fault

def parseQuest (mysql : Mysql) (sign : Bytes → Int64 → Bytes) (db : Database) (env : Env)
    (mstquest : Mstnodequest) (cache : Cache) : Except Fault (Cache × Option Reply) :=
  outcome (NodeServer.parseQuest (queried mysql db env) sign (some mstquest) cache)

def initreaddb (mysql : Mysql) (db : Database) (env : Env) (cache : Cache) : Except Fault Cache :=
  (outcome (NodeServer.initreaddb (queried mysql db env) cache)).map Prod.fst

/-- The server as a system. Its state is `none` before `initreaddb` and then the memory; the table
may be another one at every step. -/
def server (mysql : Mysql) (sign : Bytes → Int64 → Bytes) :
    System (Option Cache) (Database × Env × Event) where
  start := {none}
  next s i s' := match s, i with
    | none, (db, env, .boot) =>
      ∃ cache, initreaddb mysql db env emptyCache = .ok cache ∧ s' = some cache
    | some cache, (db, env, .request quest) =>
      ∃ cache' reply, parseQuest mysql sign db env quest cache = .ok (cache', reply) ∧
        s' = some cache'
    | _, _ => False

section

variable {mysql : Mysql} {sign : Bytes → Int64 → Bytes} {env : Env} {cache : Cache}

theorem readMasterLoop_queried (rows : List Row) :
    readMasterLoop (queried mysql db env) rows cache = .ok (rows.map Row.node) cache := by
  induction rows with
  | nil => rfl
  | cons row rows ih =>
    have hrow : readMasterLoop (queried mysql db env) (row :: rows) cache =
        (readMasterLoop (queried mysql db env) rows >>= fun vecnode => pure (row.node :: vecnode)) cache :=
      rfl
    rw [hrow, bind_apply_ok ih]
    rfl

theorem readAllLoop_queried (rows : List Row) (cache : Cache) :
    readAllLoop (queried mysql db env) rows cache =
      .ok (readRows env.junk rows cache).2 (readRows env.junk rows cache).1 := by
  induction rows generalizing cache with
  | nil => rfl
  | cons row rows ih =>
    let node : CMstNodeData := ⟨0, row.addr, row.hostname, row.ip, env.junk⟩
    have hrow : readAllLoop (queried mysql db env) (row :: rows) cache =
        (readAllLoop (queried mysql db env) rows >>= fun vecnode => pure (node :: vecnode))
          (addMasterNodeMemory cache row.addr node) := rfl
    rw [hrow, bind_apply_ok (ih _)]
    rfl

theorem openTable_queried (sql : Bytes) :
    openTable (queried mysql db env) sql = (mysql db sql).elim (throw .sqlException) pure := rfl

theorem openTable_of_none (h : mysql db sql = none) :
    openTable (queried mysql db env) sql cache = .error .sqlException cache := by
  rw [openTable_queried, h]
  rfl

theorem openTable_of_some (h : mysql db sql = some rows) :
    openTable (queried mysql db env) sql cache = .ok rows cache := by
  rw [openTable_queried, h]
  rfl

theorem readPooled_queried (missing : α) (found : List CMstNodeData → α) :
    readPooled (queried mysql db env) missing found cache =
      if env.connected then match mysql db selectAll with
        | none => .error .sqlException cache
        | some rows => .ok (found (readRows env.junk rows cache).2) (readRows env.junk rows cache).1
      else .ok missing cache := by
  obtain ⟨connected, junk⟩ := env
  cases connected with
  | false => rfl
  | true =>
    have hread : readPooled (queried mysql db ⟨true, junk⟩) missing found cache =
        (readAllNodeToNet (queried mysql db ⟨true, junk⟩) >>= fun vecnode => pure (found vecnode)) cache :=
      rfl
    rw [hread, if_pos rfl, readAllNodeToNet]
    cases hquery : mysql db selectAll with
    | none => rw [bind_apply_error (bind_apply_error (openTable_of_none hquery))]
    | some rows =>
      rw [bind_apply_ok ((bind_apply_ok (openTable_of_some hquery)).trans (readAllLoop_queried rows cache))]
      rfl

theorem collect_cached (hone : quest._questtype = MST_QUEST_ONE)
    (hcache : cache quest._masteraddr = some node) :
    collect (queried mysql db env) quest cache = .ok (some [node]) cache := by
  rw [collect, if_pos hone]
  exact collectOne_cached hcache

theorem collect_uncached (hone : quest._questtype = MST_QUEST_ONE)
    (hcache : cache quest._masteraddr = none) (hconn : env.connected = true) :
    collect (queried mysql db env) quest cache =
      if sqlBufSize < (queryText quest._masteraddr).length + 1 then .error .bufferOverflow cache
      else match mysql db (queryText quest._masteraddr) with
        | none => .error .sqlException cache
        | some [] => .ok (some [absent quest._masteraddr])
            (addMasterNodeMemory cache quest._masteraddr (absent quest._masteraddr))
        | some (row :: rows) => .ok (some ((row :: rows).map Row.node))
            (addMasterNodeMemory cache quest._masteraddr row.node) := by
  obtain ⟨connected, junk⟩ := env
  cases hconn
  rw [collect, if_pos hone, collectOne_uncached hcache]
  have hrun : collectFromDb (queried mysql db ⟨true, junk⟩) quest._masteraddr cache =
      (readMasterNodeToNet (queried mysql db ⟨true, junk⟩) quest._masteraddr >>= fun vecnode =>
        some <$> remember (queried mysql db ⟨true, junk⟩) quest._masteraddr vecnode) cache := rfl
  rw [hrun, readMasterNodeToNet]
  split
  · rfl
  · cases hquery : mysql db (queryText quest._masteraddr) with
    | none => rw [bind_apply_error (bind_apply_error (openTable_of_none hquery))]
    | some rows =>
      rw [bind_apply_ok ((bind_apply_ok (openTable_of_some hquery)).trans (readMasterLoop_queried rows))]
      cases rows <;> rfl

theorem collect_unconnected (hone : quest._questtype = MST_QUEST_ONE)
    (hcache : cache quest._masteraddr = none) (hconn : env.connected = false) :
    collect (queried mysql db env) quest cache = .ok none cache := by
  obtain ⟨connected, junk⟩ := env
  cases hconn
  rw [collect, if_pos hone, collectOne_uncached hcache]
  rfl

theorem collect_all (hmysql : ReadsLiterals mysql) (hall : quest._questtype = MST_QUEST_ALL)
    (hconn : env.connected = true) : collect (queried mysql db env) quest cache =
      .ok (some (readRows env.junk db.rows cache).2) (readRows env.junk db.rows cache).1 := by
  have hone : quest._questtype ≠ MST_QUEST_ONE := by
    rw [hall]
    decide
  rw [collect, if_neg hone, if_pos hall, collectAll, readPooled_queried, if_pos hconn, hmysql.all]

theorem initreaddb_eq (hmysql : ReadsLiterals mysql) (hconn : env.connected = true) :
    initreaddb mysql db env cache = .ok (readRows env.junk db.rows cache).1 := by
  rw [initreaddb, NodeServer.initreaddb, readPooled_queried, if_pos hconn, hmysql.all]
  rfl

theorem collect_other (hone : quest._questtype ≠ MST_QUEST_ONE)
    (hall : quest._questtype ≠ MST_QUEST_ALL) :
    collect (queried mysql db env) quest cache = .ok (some []) cache := by
  rw [collect, if_neg hone, if_neg hall]
  rfl

theorem parseQuest_eq : parseQuest mysql sign db env quest cache =
    match collect (queried mysql db env) quest cache with
    | .error fault _ => .error fault
    | .ok none cache' => .ok (cache', none)
    | .ok (some []) _ => .error .vecnodeEmpty
    | .ok (some (node :: nodes)) cache' => .ok (cache', some (replyWith sign quest node nodes)) := by
  rw [parseQuest, NodeServer.parseQuest]
  cases hrun : collect (queried mysql db env) quest cache with
  | error fault cache' => rw [bind_apply_error hrun]; rfl
  | ok vecnode cache' =>
    rw [bind_apply_ok hrun]
    rcases vecnode with _ | _ | ⟨node, nodes⟩ <;> rfl

/-- What a step may do to the memory. It leaves it alone, stores the first record it found for a
requested address, or loads the whole table. -/
inductive Stores (mysql : Mysql) (db : Database) (env : Env) : Event → Cache → Cache → Prop
  | kept (event : Event) (cache : Cache) : Stores mysql db env event cache cache
  | fetched (quest : Mstnodequest) (cache : Cache) (rows : List Row)
      (hread : mysql db (queryText quest._masteraddr) = some rows)
      (hone : quest._questtype = MST_QUEST_ONE) :
      Stores mysql db env (.request quest) cache (addMasterNodeMemory cache quest._masteraddr
        ((rows.map Row.node).headD (absent quest._masteraddr)))
  | loaded (event : Event) (cache : Cache) (rows : List Row) (hread : mysql db selectAll = some rows)
      (hbulk : event.Bulk) (hconn : env.connected = true) :
      Stores mysql db env event cache (readRows env.junk rows cache).1

theorem readPooled_stores (h : readPooled (queried mysql db env) missing found cache = .ok a cache')
    (hbulk : event.Bulk) : Stores mysql db env event cache cache' := by
  rw [readPooled_queried] at h
  split at h
  · next hconn =>
      split at h <;> cases h
      next hread => exact .loaded event cache _ hread hbulk hconn
  · cases h
    exact .kept event cache

theorem collect_stores (h : collect (queried mysql db env) quest cache = .ok found cache') :
    Stores mysql db env (.request quest) cache cache' := by
  by_cases hone : quest._questtype = MST_QUEST_ONE
  · cases hcache : cache quest._masteraddr with
    | some node =>
      rw [collect_cached hone hcache] at h
      cases h
      exact .kept _ cache
    | none =>
      cases hconn : env.connected with
      | false =>
        rw [collect_unconnected hone hcache hconn] at h
        cases h
        exact .kept _ cache
      | true =>
        rw [collect_uncached hone hcache hconn] at h
        split at h
        · cases h
        · split at h <;> cases h
          · next hread => exact .fetched quest cache [] hread hone
          · next hread => exact .fetched quest cache _ hread hone
  · by_cases hall : quest._questtype = MST_QUEST_ALL
    · rw [collect, if_neg hone, if_pos hall] at h
      exact readPooled_stores h hall
    · rw [collect_other hone hall] at h
      cases h
      exact .kept _ cache

theorem parseQuest_stores (h : parseQuest mysql sign db env quest cache = .ok (cache', reply)) :
    Stores mysql db env (.request quest) cache cache' := by
  rw [parseQuest_eq] at h
  split at h <;> cases h
  · next hcollect => exact collect_stores hcollect
  · next hcollect => exact collect_stores hcollect

theorem initreaddb_stores (h : initreaddb mysql db env cache = .ok cache') :
    Stores mysql db env .boot cache cache' := by
  rw [initreaddb] at h
  cases hrun : NodeServer.initreaddb (queried mysql db env) cache with
  | error fault c =>
    rw [hrun] at h
    cases h
  | ok u c =>
    rw [hrun] at h
    cases h
    exact readPooled_stores hrun trivial

theorem next_stores (h : (server mysql sign).next s (db, env, event) s') :
    ∃ cache', s' = some cache' ∧ Stores mysql db env event (s.getD emptyCache) cache' := by
  cases s with
  | none =>
    cases event with
    | request quest => exact h.elim
    | boot =>
      obtain ⟨cache', hinit, rfl⟩ := h
      exact ⟨cache', rfl, initreaddb_stores hinit⟩
  | some cache =>
    cases event with
    | boot => exact h.elim
    | request quest =>
      obtain ⟨cache', reply, hparse, rfl⟩ := h
      exact ⟨cache', rfl, parseQuest_stores hparse⟩

theorem reach_invariant {ok : Option Cache → Database × Env × Event → Prop} {P : Cache → Prop}
    (hempty : P emptyCache) (hstep : ∀ s db env event cache cache', ok s (db, env, event) → P cache →
      Stores mysql db env event cache cache' → P cache')
    (h : Reach ((server mysql sign).under ok) (some cache)) : P cache := by
  refine h.invariant (P := fun s => P (s.getD emptyCache)) ?_ ?_
  · rintro s rfl
    exact hempty
  · rintro s ⟨db, env, event⟩ s' hP ⟨hok, hnext⟩
    obtain ⟨cache', rfl, hstores⟩ := next_stores hnext
    exact hstep s db env event _ cache' hok hP hstores

end

/-- The addresses that reach the database unchanged: the text of the query fits into `sqlBuf`, ends
where the address does, and has no quote or escape in it. -/
def Quotable (addr : Bytes) : Prop :=
  addr.length ≤ 459 ∧ 0 ∉ addr ∧ Plain addr

section

variable {mysql : Mysql} {addr : Bytes}

theorem cStr_of_not_mem (h : 0 ∉ addr) : cStr addr = addr := by
  rw [cStr, takeWhile_eq_self_iff]
  intro c hc
  rw [decide_eq_true_eq]
  rintro rfl
  exact h hc

theorem queryText_length (addr : Bytes) : (queryText addr).length = (cStr addr).length + 40 := by
  have hlen : selectOne.length = 39 := by decide +kernel
  rw [queryText, length_append, length_append, hlen, length_singleton]
  omega

theorem queryText_fits (h : Quotable addr) : (queryText addr).length + 1 ≤ sqlBufSize := by
  rw [queryText_length, cStr_of_not_mem h.2.1]
  exact Nat.add_le_add_right h.1 41

theorem queryText_selects (hmysql : ReadsLiterals mysql) (h : Quotable addr) (db : Database) :
    mysql db (queryText addr) = some (db.select addr) := by
  rw [queryText, cStr_of_not_mem h.2.1, append_assoc]
  exact hmysql.one db _ addr ((lexLiteral_self_iff addr).mpr h.2.2)

/-- An address reaches the database unchanged exactly if its query fits into the buffer and the
server reads the literal back as the address. -/
theorem quotable_iff (addr : Bytes) :
    Quotable addr ↔ (queryText addr).length + 1 ≤ sqlBufSize ∧
      lexLiteral (cStr addr ++ [quote]) = some (addr, []) := by
  constructor
  · intro h
    refine ⟨queryText_fits h, ?_⟩
    rw [cStr_of_not_mem h.2.1]
    exact (lexLiteral_self_iff addr).mpr h.2.2
  · rintro ⟨hfits, hlex⟩
    have hlen := lexLiteral_length hlex
    have hsub : (cStr addr).Sublist addr := takeWhile_sublist _
    have hself : cStr addr = addr := by
      apply hsub.eq_of_length_le
      simp only [length_append, length_cons, length_nil] at hlen
      omega
    rw [queryText_length, hself] at hfits
    rw [hself] at hlex
    refine ⟨Nat.le_of_add_le_add_right (b := 41) hfits, ?_, (lexLiteral_self_iff addr).mp hlex⟩
    intro hzero
    rw [← hself] at hzero
    simpa using mem_takeWhile_imp hzero

end

def Keyed (cache : Cache) : Prop := ∀ addr node, cache addr = some node → node._masteraddr = addr

section

variable {mysql : Mysql} {cache : Cache} {R : Bytes → CMstNodeData → Prop}

theorem addMasterNodeMemory_entries (h : ∀ a entry, cache a = some entry → R a entry)
    (hnew : R addr node) (hflag : ∀ entry, R addr entry → R addr { entry with _validflag := node._validflag }) :
    ∀ a entry, addMasterNodeMemory cache addr node a = some entry → R a entry := by
  intro a entry hentry
  by_cases ha : a = addr
  · subst ha
    rw [addMasterNodeMemory_self, Option.some.injEq] at hentry
    subst hentry
    cases hold : cache a with
    | none => exact hnew
    | some old => exact hflag old (h a old hold)
  · rw [addMasterNodeMemory_of_ne cache node ha] at hentry
    exact h a entry hentry

theorem readRows_entries (junk : Int32) (rows : List Row) (h : ∀ a entry, cache a = some entry → R a entry)
    (hnew : ∀ row ∈ rows, R row.addr ⟨0, row.addr, row.hostname, row.ip, junk⟩)
    (hflag : ∀ row ∈ rows, ∀ entry, R row.addr entry → R row.addr { entry with _validflag := junk }) :
    ∀ a entry, (readRows junk rows cache).1 a = some entry → R a entry := by
  induction rows generalizing cache with
  | nil => exact h
  | cons row rows ih =>
    obtain ⟨hrow, hnew⟩ := forall_mem_cons.mp hnew
    obtain ⟨hentry, hflag⟩ := forall_mem_cons.mp hflag
    exact ih (addMasterNodeMemory_entries h hrow hentry) hnew hflag

theorem head_of_quotable (hmysql : ReadsLiterals mysql) (hquot : Quotable addr)
    (hread : mysql db (queryText addr) = some rows) :
    (rows.map Row.node).headD (absent addr) = answer db addr := by
  rw [queryText_selects hmysql hquot, select_eq] at hread
  cases hread
  rw [answer]
  cases db.rows.find? fun row => row.addr = addr <;> rfl

theorem answer_masteraddr (db : Database) (addr : Bytes) : (answer db addr)._masteraddr = addr := by
  rw [answer]
  split
  · next row hrow =>
      have haddr := find?_some hrow
      exact of_decide_eq_true haddr
  · rfl

/-- A request about one address that the query carries is answered from the memory, or with what the
table says about it, or not at all. -/
theorem parseQuest_one (hmysql : ReadsLiterals mysql) (sign : Bytes → Int64 → Bytes) (db : Database)
    (env : Env) (cache : Cache) (hone : quest._questtype = MST_QUEST_ONE)
    (hquot : Quotable quest._masteraddr) :
    (parseQuest mysql sign db env quest cache = .ok (cache, none) ∧ env.connected = false) ∨
    ∃ cache', parseQuest mysql sign db env quest cache = .ok (cache', some (replyWith sign quest
      ((cache quest._masteraddr).getD (answer db quest._masteraddr)) [])) := by
  cases hcache : cache quest._masteraddr with
  | some node => exact .inr ⟨cache, by rw [parseQuest_eq, collect_cached hone hcache]; rfl⟩
  | none =>
    cases hconn : env.connected with
    | false => exact .inl ⟨by rw [parseQuest_eq, collect_unconnected hone hcache hconn], rfl⟩
    | true =>
      right
      rw [parseQuest_eq, collect_uncached hone hcache hconn, if_neg (not_lt.mpr (queryText_fits hquot)),
        queryText_selects hmysql hquot, select_eq, answer]
      cases db.rows.find? fun row => row.addr = quest._masteraddr <;> exact ⟨_, rfl⟩

end

def stepQuotable : Option Cache → Database × Env × Event → Prop
  | _, (_, _, .boot) => True
  | _, (_, _, .request quest) => quest._questtype = MST_QUEST_ONE → Quotable quest._masteraddr

theorem reach_keyed (hmysql : ReadsLiterals mysql)
    (h : Reach ((server mysql sign).under stepQuotable) (some cache)) : Keyed cache := by
  refine reach_invariant ?_ ?_ h
  · rintro addr node ⟨⟩
  · intro s db env event cache cache' hquot hkeyed hstores
    cases hstores with
    | kept => exact hkeyed
    | fetched quest _ rows hread hone =>
      rw [head_of_quotable hmysql (hquot hone) hread]
      exact addMasterNodeMemory_entries hkeyed (answer_masteraddr db _) fun _ h => h
    | loaded _ _ rows => exact readRows_entries env.junk rows hkeyed (fun _ _ => rfl) fun _ _ _ h => h

/-- A request whose address the query can carry ends without a fault. Its reply is about this
address and signed for it. -/
theorem reply_about_requested_address {mysql : Mysql} (hmysql : ReadsLiterals mysql)
    (sign : Bytes → Int64 → Bytes) {cache : Cache}
    (h : Reach ((server mysql sign).under stepQuotable) (some cache)) (db : Database) (env : Env)
    (quest : Mstnodequest) (hone : quest._questtype = MST_QUEST_ONE)
    (hquot : Quotable quest._masteraddr) :
    (queryText quest._masteraddr).length + 1 ≤ sqlBufSize ∧
    mysql db (queryText quest._masteraddr) = some (db.select quest._masteraddr) ∧
    (∃ s, parseQuest mysql sign db env quest cache = .ok s) ∧
    ∀ cache' reply, parseQuest mysql sign db env quest cache = .ok (cache', some reply) →
      ∃ node nodes, reply.vecnode = node :: nodes ∧ node._masteraddr = quest._masteraddr ∧
        reply.mstres._signstr = sign quest._masteraddr quest._timeStamps := by
  have haddr : ((cache quest._masteraddr).getD (answer db quest._masteraddr))._masteraddr =
      quest._masteraddr := by
    cases hcache : cache quest._masteraddr with
    | none => exact answer_masteraddr db _
    | some node => exact reach_keyed hmysql h _ node hcache
  refine ⟨queryText_fits hquot, queryText_selects hmysql hquot db, ?_⟩
  obtain ⟨hp, -⟩ | ⟨cache₁, hp⟩ := parseQuest_one hmysql sign db env cache hone hquot
  · refine ⟨⟨_, hp⟩, fun cache' reply hreply => ?_⟩
    rw [hp] at hreply
    cases hreply
  · refine ⟨⟨_, hp⟩, fun cache' reply hreply => ?_⟩
    rw [hp] at hreply
    cases hreply
    exact ⟨_, [], rfl, haddr, congrArg (sign · quest._timeStamps) haddr⟩

def literalMysql : Mysql := fun db text =>
  if text = selectAll then some db.rows
  else if text.take selectOne.length = selectOne then
    match lexLiteral (text.drop selectOne.length) with
    | some (value, []) => some (db.select value)
    | _ => none
  else none

theorem literalMysql_readsLiterals : ReadsLiterals literalMysql where
  all db := if_pos rfl
  one db text value h := by
    have hne : selectOne ++ text ≠ selectAll := by
      intro heq
      have hlen := congrArg length heq
      have hall : selectAll.length = 26 := by decide +kernel
      have hone : selectOne.length = 39 := by decide +kernel
      rw [length_append, hall, hone] at hlen
      omega
    rw [literalMysql, if_neg hne, take_left, if_pos rfl, drop_left, h]

def rowNab : Row := ⟨[0x4e, 0x61, 0x62], [0x68], [0x31], 1⟩

def addressRow : Database := ⟨[rowNab], nodup_singleton _⟩

def questPlain : Mstnodequest := ⟨1, 0, MST_QUEST_ONE, [0x4e, 0x61, 0x62]⟩

theorem questPlain_quotable : Quotable questPlain._masteraddr := by
  refine ⟨by decide, by decide, ?_⟩
  simp [questPlain, Plain, quote, backslash]

theorem reply_about_requested_plain :
    ∃ cache, Reach ((server literalMysql fun addr _ => addr).under stepQuotable) (some cache) ∧
      literalMysql addressRow (queryText questPlain._masteraddr) =
        some (addressRow.select questPlain._masteraddr) := by
  have hboot : Reach ((server literalMysql fun addr _ => addr).under stepQuotable)
      (some emptyCache) :=
    .step (i := (addressRow, ⟨false, 0⟩, .boot)) (.start rfl) ⟨trivial, emptyCache, rfl, rfl⟩
  exact ⟨emptyCache, hboot, (reply_about_requested_address literalMysql_readsLiterals _ hboot
    addressRow ⟨true, 0⟩ questPlain rfl questPlain_quotable).2.1⟩

def questEscaped : Mstnodequest := ⟨1, 0, MST_QUEST_ONE, [0x4e, 0x5c, 0x61, 0x62]⟩

/-- Asked about `N\ab`, the server signs the record of `Nab`, because the database drops the
backslash. -/
theorem escaped_address_signed :
    ∃ cache reply, Reach (server literalMysql fun addr _ => addr) (some emptyCache) ∧
      parseQuest literalMysql (fun addr _ => addr) addressRow ⟨true, 0⟩ questEscaped emptyCache =
        .ok (cache, some reply) ∧
      reply.vecnode.map CMstNodeData._masteraddr = [[0x4e, 0x61, 0x62]] ∧
      reply.mstres._signstr = [0x4e, 0x61, 0x62] ∧
      (cache questEscaped._masteraddr).map CMstNodeData._masteraddr = some [0x4e, 0x61, 0x62] := by
  have hboot : Reach (server literalMysql fun addr _ => addr) (some emptyCache) :=
    .step (i := (addressRow, ⟨false, 0⟩, .boot)) (.start rfl) ⟨emptyCache, rfl, rfl⟩
  have htext : queryText questEscaped._masteraddr =
      selectOne ++ [0x4e, 0x5c, 0x61, 0x62, quote] := by
    rw [queryText, append_assoc]
    rfl
  have hrows : literalMysql addressRow (queryText questEscaped._masteraddr) =
      some addressRow.rows := by
    rw [htext, literalMysql_readsLiterals.one addressRow _ [0x4e, 0x61, 0x62] (by decide)]
    rfl
  refine ⟨addMasterNodeMemory emptyCache questEscaped._masteraddr rowNab.node,
    replyWith (fun addr _ => addr) questEscaped rowNab.node [], hboot, ?_, rfl, rfl, rfl⟩
  rw [parseQuest_eq, collect_uncached rfl rfl rfl, queryText_length, if_neg (by decide), hrows]
  rfl

/-- Where the query carries an address, its record in memory is what the table says. -/
def Coherent (db : Database) (cache : Cache) : Prop :=
  ∀ addr node, cache addr = some node → Quotable addr → node = answer db addr

/-- A load that gets a connection finds, where `_validflag` is never set, the flag of each row whose
address the query carries. -/
def LoadsFlags (db : Database) (env : Env) : Prop :=
  env.connected = true → ∀ row ∈ db.rows, Quotable row.addr → row.validflag = env.junk

def stepLoadsFlags (db : Database) : Option Cache → Database × Env × Event → Prop
  | _, (db', env, event) => db' = db ∧ (event.Bulk → LoadsFlags db env)

theorem reach_coherent (hmysql : ReadsLiterals mysql)
    (h : Reach ((server mysql sign).under (stepLoadsFlags db)) (some cache)) : Coherent db cache := by
  refine reach_invariant ?_ ?_ h
  · rintro addr node ⟨⟩
  · rintro s _ env event cache cache' ⟨rfl, hflags⟩ hcoherent hstores
    cases hstores with
    | kept => exact hcoherent
    | fetched quest _ rows hread hone =>
      refine addMasterNodeMemory_entries hcoherent (head_of_quotable hmysql · hread) fun entry h hquot => ?_
      rw [h hquot, head_of_quotable hmysql hquot hread]
    | loaded _ _ rows hread hbulk hconn =>
      rw [hmysql.all] at hread
      cases hread
      have hflag := hflags hbulk hconn
      refine readRows_entries env.junk _ hcoherent (fun row hrow hquot => ?_) fun row hrow entry h hquot => ?_
      · rw [answer_of_mem _ hrow, Row.node, hflag row hrow hquot]
      · rw [h hquot, answer_of_mem _ hrow, Row.node, hflag row hrow hquot]

/-- Whatever was asked and loaded before, a request about an address that the query carries gets the
reply of a server with an empty memory, provided every reading of the whole table found the rows'
flags where it does not set them. -/
theorem one_reply_cache_transparent {mysql : Mysql} (hmysql : ReadsLiterals mysql) (db : Database)
    (sign : Bytes → Int64 → Bytes) {cache : Cache}
    (h : Reach ((server mysql sign).under (stepLoadsFlags db)) (some cache))
    (env : Env) (quest : Mstnodequest) (hone : quest._questtype = MST_QUEST_ONE)
    (hquot : Quotable quest._masteraddr) :
    (∃ r, parseQuest mysql sign db env quest cache = .ok r) ∧
    ∀ cache' reply, parseQuest mysql sign db env quest cache = .ok (cache', some reply) →
      reply.vecnode = [answer db quest._masteraddr] ∧
      ∀ env₀ : Env, env₀.connected = true →
        ∃ cache₀, parseQuest mysql sign db env₀ quest emptyCache = .ok (cache₀, some reply) := by
  have hanswer : (cache quest._masteraddr).getD (answer db quest._masteraddr) =
      answer db quest._masteraddr := by
    cases hcache : cache quest._masteraddr with
    | none => rfl
    | some node => exact reach_coherent hmysql h _ node hcache hquot
  obtain ⟨hp, -⟩ | ⟨cache₁, hp⟩ := parseQuest_one hmysql sign db env cache hone hquot
  · refine ⟨⟨_, hp⟩, fun cache' reply hreply => ?_⟩
    rw [hp] at hreply
    cases hreply
  · refine ⟨⟨_, hp⟩, fun cache' reply hreply => ?_⟩
    rw [hanswer] at hp
    rw [hp] at hreply
    cases hreply
    refine ⟨rfl, fun env₀ hconn => ?_⟩
    obtain ⟨-, hcontra⟩ | hfresh := parseQuest_one hmysql sign db env₀ emptyCache hone hquot
    · rw [hconn] at hcontra
      cases hcontra
    · exact hfresh

theorem one_reply_after_load :
    ∃ cache reply cache₀,
      Reach ((server literalMysql fun addr _ => addr).under (stepLoadsFlags addressRow)) (some cache) ∧
      parseQuest literalMysql (fun addr _ => addr) addressRow ⟨false, 0⟩ questPlain cache =
        .ok (cache, some reply) ∧
      reply.vecnode = [answer addressRow questPlain._masteraddr] ∧
      parseQuest literalMysql (fun addr _ => addr) addressRow ⟨true, 0⟩ questPlain emptyCache =
        .ok (cache₀, some reply) := by
  have hflags : LoadsFlags addressRow ⟨true, 1⟩ := fun _ row hrow _ => mem_singleton.mp hrow ▸ rfl
  have hboot : Reach ((server literalMysql fun addr _ => addr).under (stepLoadsFlags addressRow))
      (some (readRows 1 addressRow.rows emptyCache).1) :=
    .step (i := (addressRow, ⟨true, 1⟩, .boot)) (.start rfl)
      ⟨⟨rfl, fun _ => hflags⟩, _, initreaddb_eq literalMysql_readsLiterals rfl, rfl⟩
  have hreply := (one_reply_cache_transparent literalMysql_readsLiterals addressRow _ hboot ⟨false, 0⟩
    questPlain rfl questPlain_quotable).2
  have hcached : parseQuest literalMysql (fun addr _ => addr) addressRow ⟨false, 0⟩ questPlain
      (readRows 1 addressRow.rows emptyCache).1 = .ok (_, some _) := rfl
  obtain ⟨hnodes, hfresh⟩ := hreply _ _ hcached
  obtain ⟨cache₀, hp⟩ := hfresh ⟨true, 0⟩ rfl
  exact ⟨_, _, cache₀, hboot, hcached, hnodes, hp⟩

/-- The load finds a zero where the flag is not set. The server then takes the valid node `Nab` for
an invalid one, while a server with an empty memory reads its flag from the table. -/
theorem initreaddb_loses_validflag :
    ∃ cache reply fresh cache₀, Reach (server literalMysql fun addr _ => addr) (some cache) ∧
      parseQuest literalMysql (fun addr _ => addr) addressRow ⟨true, 0⟩ questPlain cache =
        .ok (cache, some reply) ∧
      parseQuest literalMysql (fun addr _ => addr) addressRow ⟨true, 0⟩ questPlain emptyCache =
        .ok (cache₀, some fresh) ∧
      reply.vecnode.map CMstNodeData._validflag = [0] ∧
      fresh.vecnode.map CMstNodeData._validflag = [1] := by
  have hboot : Reach (server literalMysql fun addr _ => addr)
      (some (readRows 0 addressRow.rows emptyCache).1) :=
    .step (i := (addressRow, ⟨true, 0⟩, .boot)) (.start rfl)
      ⟨_, initreaddb_eq literalMysql_readsLiterals rfl, rfl⟩
  obtain ⟨-, hconn⟩ | ⟨cache₀, hfresh⟩ := parseQuest_one literalMysql_readsLiterals (fun addr _ => addr)
    addressRow ⟨true, 0⟩ emptyCache rfl questPlain_quotable
  · cases hconn
  · exact ⟨_, _, _, cache₀, hboot, rfl, hfresh, rfl, rfl⟩

def unflagged (node : CMstNodeData) : CMstNodeData := { node with _validflag := 0 }

def Retained (cache cache' : Cache) : Prop :=
  ∀ addr node, (cache addr).map unflagged = some node → (cache' addr).map unflagged = some node

section

variable {mysql : Mysql} {sign : Bytes → Int64 → Bytes} {cache cache' : Cache}

theorem addMasterNodeMemory_retained (cache : Cache) (masteraddr : Bytes) (node : CMstNodeData) :
    Retained cache (addMasterNodeMemory cache masteraddr node) := by
  intro addr host hhost
  obtain ⟨entry, hentry, -⟩ := Option.map_eq_some_iff.mp hhost
  by_cases haddr : addr = masteraddr
  · subst haddr
    rw [hentry] at hhost
    rw [addMasterNodeMemory_self, hentry]
    exact hhost
  · rwa [addMasterNodeMemory_of_ne cache node haddr]

theorem readRows_retained (junk : Int32) (rows : List Row) (cache : Cache) :
    Retained cache (readRows junk rows cache).1 := by
  induction rows generalizing cache with
  | nil => exact fun _ _ => id
  | cons row rows ih =>
    exact fun addr node h => ih _ addr node (addMasterNodeMemory_retained cache row.addr _ addr node h)

theorem Stores.retained (h : Stores mysql db env event cache cache') : Retained cache cache' := by
  cases h with
  | kept => exact fun _ _ => id
  | fetched => exact addMasterNodeMemory_retained cache _ _
  | loaded => exact readRows_retained _ _ cache

theorem run_retained (h : Run (server mysql sign) (some cache) events s) :
    ∃ cache', s = some cache' ∧ Retained cache cache' := by
  induction h with
  | nil => exact ⟨cache, rfl, fun _ _ => id⟩
  | @snoc _ _ _ i _ hs ih =>
    obtain ⟨cache', rfl, hretained⟩ := ih
    obtain ⟨cache'', rfl, hstores⟩ := next_stores hs
    exact ⟨cache'', rfl, fun addr node h => hstores.retained addr node (hretained addr node h)⟩

end

/-- Once a record is in memory it is the answer, whatever becomes of the table. Only its flag can
change. -/
theorem cached_node_never_refreshed (mysql : Mysql) (sign : Bytes → Int64 → Bytes) {cache cache' : Cache}
    {events : List (Database × Env × Event)} (hrun : Run (server mysql sign) (some cache) events (some cache'))
    {quest : Mstnodequest} {node : CMstNodeData} (hone : quest._questtype = MST_QUEST_ONE)
    (hnode : cache quest._masteraddr = some node) (db : Database) (env : Env) :
    ∃ node', unflagged node' = unflagged node ∧
      parseQuest mysql sign db env quest cache' = .ok (cache', some (replyWith sign quest node' [])) := by
  obtain ⟨_, heq, hretained⟩ := run_retained hrun
  cases heq
  obtain ⟨node', hnode', hhost⟩ :=
    Option.map_eq_some_iff.mp (hretained _ (unflagged node) (congrArg (Option.map unflagged) hnode))
  refine ⟨node', hhost, ?_⟩
  rw [parseQuest_eq, collect_cached hone hnode']

def movedRow : Database := ⟨[{ rowNab with ip := [0x32] }], nodup_singleton _⟩

/-- The record in memory has the host `1` and goes on being the answer after the table has the host
`2`. -/
theorem moved_host_not_seen :
    ∃ cache events cache' reply, Run (server literalMysql fun addr _ => addr) (some cache) events (some cache') ∧
      events ≠ [] ∧ parseQuest literalMysql (fun addr _ => addr) movedRow ⟨true, 1⟩ questPlain cache' =
        .ok (cache', some reply) ∧ reply.vecnode.map CMstNodeData._hostip = [[0x31]] := by
  let cache := addMasterNodeMemory emptyCache rowNab.addr rowNab.node
  obtain ⟨⟨cache', reply⟩, hall⟩ : ∃ r, parseQuest literalMysql (fun addr _ => addr) movedRow ⟨true, 1⟩
      ⟨1, 0, MST_QUEST_ALL, []⟩ cache = .ok r := by
    rw [parseQuest_eq, collect_all literalMysql_readsLiterals rfl rfl]
    exact ⟨_, rfl⟩
  have hstep : (server literalMysql fun addr _ => addr).next (some cache)
    (movedRow, ⟨true, 1⟩, .request ⟨1, 0, MST_QUEST_ALL, []⟩) (some cache') := ⟨cache', reply, hall, rfl⟩
  obtain ⟨node, hnode, hparse⟩ := cached_node_never_refreshed literalMysql (fun addr _ => addr)
    (.snoc .nil hstep) (rfl : questPlain._questtype = MST_QUEST_ONE) rfl movedRow ⟨true, 1⟩
  exact ⟨cache, _, cache', _, .snoc .nil hstep, by simp, hparse, congrArg (fun n => [CMstNodeData._hostip n]) hnode⟩

end Utsuite.NodeQuery
