import Mathlib.Data.List.Nodup
import Utsuite.Hoare
import Utsuite.SqlLiteral

namespace Utsuite.NodeServer

open ByteWords SqlLiteral Hoare List Function

structure Row where
  addr : Bytes
  hostname : Bytes
  ip : Bytes
  validflag : Int32
  deriving DecidableEq

/-- The table `ulord_master`. The address is its primary key, so no two rows have the same one. -/
structure Database where
  rows : List Row
  nodup : (rows.map Row.addr).Nodup

def Database.select (db : Database) (addr : Bytes) : List Row :=
  db.rows.filter fun row => row.addr = addr

structure CMstNodeData where
  _version : Int32
  _masteraddr : Bytes
  _hostname : Bytes
  _hostip : Bytes
  _validflag : Int32
  deriving DecidableEq

/-- The constructor does not set `_validflag`. It keeps what the memory held before, here `junk`. -/
def CMstNodeData.new (version : Int32) (addr : Bytes) (junk : Int32) : CMstNodeData :=
  ⟨version, addr, [], [], junk⟩

abbrev Cache := Bytes → Option CMstNodeData

def findFromMasterNodeMemory (cache : Cache) (masteraddr : Bytes) : List CMstNodeData :=
  (cache masteraddr).toList

/-- An entry that is there already keeps its record and only takes over the flag of the new one. -/
def addMasterNodeMemory (cache : Cache) (masteraddr : Bytes) (node : CMstNodeData) : Cache :=
  match cache masteraddr with
  | some entry =>
    update cache masteraddr (some { entry with _validflag := node._validflag })
  | none => update cache masteraddr (some node)

def addMasterNodeFlag (cache : Cache) (masteraddr : Bytes) (invalidflag junk : Int32) : Cache :=
  addMasterNodeMemory cache masteraddr
    { CMstNodeData.new 0 masteraddr junk with _validflag := invalidflag }

def MST_QUEST_ONE : Int32 := 1
def MST_QUEST_ALL : Int32 := 2

structure Mstnodequest where
  _msgversion : Int32
  _timeStamps : Int64
  _questtype : Int32
  _masteraddr : Bytes
  deriving DecidableEq

structure Mstnoderes where
  _msgversion : Int32
  _num : Int32
  _verfyflag : Bytes
  _signstr : Bytes
  deriving DecidableEq

def Mstnoderes.new (version : Int32) : Mstnoderes := ⟨version, 1, "#$%@".toUTF8.toList, []⟩

structure Reply where
  mstres : Mstnoderes
  vecnode : List CMstNodeData
  deriving DecidableEq

def replyWith (sign : Bytes → Int64 → Bytes) (quest : Mstnodequest) (node : CMstNodeData)
    (nodes : List CMstNodeData) : Reply :=
  ⟨{ Mstnoderes.new quest._msgversion with
      _num := Int32.ofNat (node :: nodes).length
      _signstr := sign node._masteraddr quest._timeStamps }, node :: nodes⟩

/-- How a request can end without a result. `bufferOverflow` and `vecnodeEmpty` are undefined
behaviour of the source, the other two are exceptions. -/
inductive Fault
  | archiveException
  | bufferOverflow
  | sqlException
  | vecnodeEmpty
  deriving DecidableEq

def selectAll : Bytes := "select *from ulord_master ".toUTF8.toList

def selectOne : Bytes := "select *from ulord_master where addr ='".toUTF8.toList

def cStr (nodeaddr : Bytes) : Bytes := nodeaddr.takeWhile (· ≠ 0)

def queryText (nodeaddr : Bytes) : Bytes := selectOne ++ cStr nodeaddr ++ [quote]

def sqlBufSize : Nat := 500

/-- What the handling of a request calls, on a state that holds the memory of the server: the
connections, the query, and every other call to the connector, which returns the value it is given
here unless it throws. The flag of a record that is not initialised is `junk`. -/
structure Backend (σ Conn : Type) where
  cache : σ → Cache
  store : (Cache → Cache) → σ → σ
  junk : Int32
  createConnection : EStateM Fault σ (Option Conn)
  destroyConnection : Conn → EStateM Fault σ Unit
  getConnection : EStateM Fault σ (Option Conn)
  releaseConnection : Conn → EStateM Fault σ Unit
  executeQuery : Bytes → EStateM Fault σ (List Row)
  dbCall : {α : Type} → α → EStateM Fault σ α

section

variable {σ Conn α : Type} (B : Backend σ Conn)

def createStatement : EStateM Fault σ Unit := B.dbCall ()

def execute (_sql : Bytes) : EStateM Fault σ Unit := B.dbCall ()

def next (more : Bool) : EStateM Fault σ Bool := B.dbCall more

def getString (value : Bytes) : EStateM Fault σ Bytes := B.dbCall value

def getInt (value : Int32) : EStateM Fault σ Int32 := B.dbCall value

def openTable (sql : Bytes) : EStateM Fault σ (List Row) := do
  createStatement B
  execute B "SET CHARSET GB2312".toUTF8.toList
  execute B "USE mysql".toUTF8.toList
  B.executeQuery sql

def nextRow (row : Row) : EStateM Fault σ CMstNodeData := do
  let _ ← next B true
  let masteraddr ← getString B row.addr
  let hostname ← getString B row.hostname
  let hostip ← getString B row.ip
  return ⟨0, masteraddr, hostname, hostip, B.junk⟩

/-- The loop of `ReadAllNodeToNet`. It fills one local record again and again and never sets the
`_validflag` of it. -/
def readAllLoop : List Row → EStateM Fault σ (List CMstNodeData)
  | [] => do
    let _ ← next B false
    return []
  | row :: rows => do
    let mstnode ← nextRow B row
    modify (B.store (addMasterNodeMemory · mstnode._masteraddr mstnode))
    let vecnode ← readAllLoop rows
    return mstnode :: vecnode

def readAllNodeToNet : EStateM Fault σ (List CMstNodeData) := do
  let rows ← openTable B selectAll
  readAllLoop B rows

def readMasterLoop : List Row → EStateM Fault σ (List CMstNodeData)
  | [] => do
    let _ ← next B false
    return []
  | row :: rows => do
    let mstnode ← nextRow B row
    let validflag ← getInt B row.validflag
    let vecnode ← readMasterLoop rows
    return { mstnode with _validflag := validflag } :: vecnode

def readMasterNodeToNet (nodeaddr : Bytes) : EStateM Fault σ (List CMstNodeData) :=
  if sqlBufSize < (queryText nodeaddr).length + 1 then throw .bufferOverflow
  else do
    let rows ← openTable B (queryText nodeaddr)
    readMasterLoop B rows

def remember (addr : Bytes) : List CMstNodeData → EStateM Fault σ (List CMstNodeData)
  | [] => do
    modify (B.store (addMasterNodeFlag · addr 0 B.junk))
    return [{ CMstNodeData.new 0 addr B.junk with _validflag := 0 }]
  | node :: nodes => do
    modify (B.store (addMasterNodeMemory · addr node))
    return node :: nodes

def collectFromDb (addr : Bytes) : EStateM Fault σ (Option (List CMstNodeData)) := do
  match ← B.createConnection with
  | none => return none
  | some pConn =>
    let vecnode ← readMasterNodeToNet B addr
    let vecnode ← remember B addr vecnode
    B.destroyConnection pConn
    return some vecnode

def collectOne (addr : Bytes) : EStateM Fault σ (Option (List CMstNodeData)) := do
  match findFromMasterNodeMemory (B.cache (← get)) addr with
  | node :: nodes => return some (node :: nodes)
  | [] => collectFromDb B addr

def readPooled (missing : α) (found : List CMstNodeData → α) : EStateM Fault σ α := do
  match ← B.getConnection with
  | none => return missing
  | some pConn =>
    let vecnode ← readAllNodeToNet B
    B.releaseConnection pConn
    return found vecnode

def collectAll : EStateM Fault σ (Option (List CMstNodeData)) := readPooled B none some

def collect (mstquest : Mstnodequest) : EStateM Fault σ (Option (List CMstNodeData)) :=
  if mstquest._questtype = MST_QUEST_ONE then collectOne B mstquest._masteraddr
  else if mstquest._questtype = MST_QUEST_ALL then collectAll B
  else return some []

/-- Without a connection nothing is sent. Otherwise `vecnode[0]` is read whether or not there is
one. -/
def sendRes (sign : Bytes → Int64 → Bytes) (mstquest : Mstnodequest) :
    Option (List CMstNodeData) → EStateM Fault σ (Option Reply)
  | none => return none
  | some [] => throw .vecnodeEmpty
  | some (node :: nodes) => return some (replyWith sign mstquest node nodes)

/-- The request is `none` when its archive cannot be read, which throws before anything else. -/
def parseQuest (sign : Bytes → Int64 → Bytes) : Option Mstnodequest → EStateM Fault σ (Option Reply)
  | none => throw .archiveException
  | some mstquest => do
    let vecnode ← collect B mstquest
    sendRes sign mstquest vecnode

def initreaddb : EStateM Fault σ Unit := readPooled B () fun _ => ()

variable {B}

theorem collectOne_cached (h : B.cache s addr = some node) :
    collectOne B addr s = .ok (some [node]) s := by
  rw [collectOne, get_bind_apply, findFromMasterNodeMemory, h]
  rfl

theorem collectOne_uncached (h : B.cache s addr = none) :
    collectOne B addr s = collectFromDb B addr s := by
  rw [collectOne, get_bind_apply, findFromMasterNodeMemory, h]
  rfl

end

def emptyCache : Cache := fun _ => none

inductive Event
  | boot
  | request (mstquest : Mstnodequest)

def Event.Bulk : Event → Prop
  | .boot => True
  | .request quest => quest._questtype = MST_QUEST_ALL

/-- What a reading of the whole table without an exception does to the memory and returns. -/
def readRows (junk : Int32) : List Row → Cache → Cache × List CMstNodeData
  | [], cache => (cache, [])
  | row :: rows, cache =>
    let mstnode : CMstNodeData := ⟨0, row.addr, row.hostname, row.ip, junk⟩
    let rest := readRows junk rows (addMasterNodeMemory cache mstnode._masteraddr mstnode)
    (rest.1, mstnode :: rest.2)

theorem filter_key_eq_find? {α β : Type*} [DecidableEq β] (key : α → β) (b : β) {l : List α}
    (h : (l.map key).Nodup) :
    l.filter (fun x => key x = b) = (l.find? fun x => key x = b).toList := by
  induction l with
  | nil => rfl
  | cons x l ih =>
    rw [map_cons, nodup_cons] at h
    by_cases hx : key x = b
    · have hnone : l.filter (fun y => key y = b) = [] := by
        rw [filter_eq_nil_iff]
        intro y hy hkey
        apply h.1
        rw [hx, ← of_decide_eq_true hkey]
        exact mem_map_of_mem hy
      simp [hx, hnone]
    · simpa [hx] using ih h.2

def Row.node (row : Row) : CMstNodeData :=
  ⟨0, row.addr, row.hostname, row.ip, row.validflag⟩

def absent (addr : Bytes) : CMstNodeData := ⟨0, addr, [], [], 0⟩

/-- What the table says about an address. This is the answer a server without a memory gives. -/
def answer (db : Database) (addr : Bytes) : CMstNodeData :=
  match db.rows.find? fun row => row.addr = addr with
  | some row => row.node
  | none => absent addr

theorem select_eq (db : Database) (addr : Bytes) :
    db.select addr = (db.rows.find? fun row => row.addr = addr).toList :=
  filter_key_eq_find? Row.addr addr db.nodup

theorem answer_of_mem (db : Database) (h : row ∈ db.rows) : answer db row.addr = row.node := by
  have hmem : row ∈ (db.rows.find? fun r => r.addr = row.addr).toList := by
    rw [← select_eq, Database.select, mem_filter]
    exact ⟨h, decide_eq_true rfl⟩
  rw [Option.mem_toList] at hmem
  rw [answer, hmem]

theorem addMasterNodeMemory_of_ne (cache : Cache) (node : CMstNodeData) (h : a ≠ addr) :
    addMasterNodeMemory cache addr node a = cache a := by
  rw [addMasterNodeMemory]
  cases cache addr <;> exact update_of_ne h _ _

theorem addMasterNodeMemory_self (cache : Cache) (addr : Bytes) (node : CMstNodeData) :
    addMasterNodeMemory cache addr node addr = some (match cache addr with
      | some entry => { entry with _validflag := node._validflag }
      | none => node) := by
  rw [addMasterNodeMemory]
  cases cache addr <;> exact update_self _ _ _

end Utsuite.NodeServer
