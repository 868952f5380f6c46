import Utsuite.LengthHeaderCodec
import Utsuite.NodeQuery

namespace Utsuite.NodeReply

open ByteWords LengthHeaderCodec NodeQuery List
open NodeServer hiding parseQuest initreaddb

/-- What is used of a `binary_oarchive`: what it writes of its own, in front and with the first
object of each class, and how many bytes it writes for an int and for a string. -/
structure Archive where
  signature : Bytes
  mstnoderesInfo : Bytes
  nodeInfo : Bytes
  saveInt : Int32 → Bytes
  saveString : Bytes → Bytes
  saveInt_length : ∀ n, (saveInt n).length = 4
  saveString_length : ∀ s, (saveString s).length = 8 + s.length

def saveRes (ar : Archive) (mstres : Mstnoderes) : Bytes :=
  ar.saveString mstres._verfyflag ++ ar.saveInt mstres._msgversion ++ ar.saveInt mstres._num ++
    ar.saveString mstres._signstr

def saveNode (ar : Archive) (node : CMstNodeData) : Bytes :=
  ar.saveInt node._version ++ ar.saveString node._masteraddr ++ ar.saveString node._hostname ++
    ar.saveString node._hostip ++ ar.saveInt node._validflag

def saveNodes (ar : Archive) : List CMstNodeData → Bytes
  | [] => []
  | node :: nodes => ar.nodeInfo ++ (node :: nodes).flatMap (saveNode ar)

def content (ar : Archive) (reply : Reply) : Bytes :=
  ar.signature ++ ar.mstnoderesInfo ++ saveRes ar reply.mstres ++ saveNodes ar reply.vecnode

def parseQuest (ar : Archive) (mysql : Mysql) (sign : Bytes → Int64 → Bytes) (db : Database)
    (env : Env) (mstquest : Mstnodequest) (cache : Cache) : Except Fault (Cache × List Bytes) :=
  match NodeQuery.parseQuest mysql sign db env mstquest cache with
  | .error fault => .error fault
  | .ok (cache', reply) => .ok (cache', (reply.map fun reply => send (content ar reply)).toList)

/-- The peer gets one frame, reads it however it is cut into chunks, and finds as many records in it
as its header says. -/
def Answered (ar : Archive) (outcome : Except Fault (Cache × List Bytes)) : Prop :=
  ∃ cache' reply, outcome = .ok (cache', [send (content ar reply)]) ∧
    (∀ chunks : List Bytes, chunks.flatten = send (content ar reply) →
      (deliver [] chunks).messages = [content ar reply]) ∧
    reply.mstres._num.toInt = reply.vecnode.length

def nodeSize (node : CMstNodeData) : Nat :=
  32 + node._masteraddr.length + node._hostname.length + node._hostip.length

def replySize (ar : Archive) (nodes : List CMstNodeData) : Nat :=
  ar.signature.length + ar.mstnoderesInfo.length + 158 + ar.nodeInfo.length +
    (nodes.map nodeSize).sum

def Answerable (ar : Archive) (mysql : Mysql) (db : Database) (quest : Mstnodequest)
    (cache : Cache) : Prop :=
  if quest._questtype = MST_QUEST_ONE then
    match cache quest._masteraddr with
    | some node => replySize ar [node] ≤ 65536
    | none => (queryText quest._masteraddr).length < sqlBufSize ∧
        match mysql db (queryText quest._masteraddr) with
        | some (row :: rows) => replySize ar ((row :: rows).map Row.node) ≤ 65536
        | _ => replySize ar [CMstNodeData.new 0 quest._masteraddr 0] ≤ 65536
  else if quest._questtype = MST_QUEST_ALL then
    db.rows ≠ [] ∧ replySize ar (db.rows.map Row.node) ≤ 65536
  else False

theorem saveNode_length (ar : Archive) (node : CMstNodeData) :
    (saveNode ar node).length = nodeSize node := by
  simp only [saveNode, nodeSize, length_append, ar.saveInt_length, ar.saveString_length]
  omega

theorem saveNodes_length (ar : Archive) (h : nodes ≠ []) :
    (saveNodes ar nodes).length = ar.nodeInfo.length + (nodes.map nodeSize).sum := by
  cases nodes with
  | nil => exact absurd rfl h
  | cons node nodes =>
    rw [saveNodes, length_append, length_flatMap]
    simp only [saveNode_length]

theorem saveRes_length (ar : Archive) (hflag : mstres._verfyflag.length = 4) (hsign : mstres._signstr.length = 130) :
    (saveRes ar mstres).length = 158 := by
  simp [saveRes, ar.saveInt_length, ar.saveString_length, hflag, hsign]

theorem length_le_replySize (ar : Archive) (nodes : List CMstNodeData) :
    nodes.length ≤ replySize ar nodes := by
  have hsum : nodes.length ≤ (nodes.map nodeSize).sum := by
    induction nodes with
    | nil => exact Nat.zero_le _
    | cons node nodes ih =>
      simp only [map_cons, sum_cons, length_cons, nodeSize]
      omega
  unfold replySize
  omega

theorem replySize_congr (ar : Archive) (h : nodes.map nodeSize = nodes'.map nodeSize) :
    replySize ar nodes = replySize ar nodes' := by
  rw [replySize, replySize, h]

theorem readRows_nodeSize (junk : Int32) (rows : List Row) (cache : Cache) :
    (readRows junk rows cache).2.map nodeSize = (rows.map Row.node).map nodeSize := by
  induction rows generalizing cache with
  | nil => rfl
  | cons row rows ih =>
    simp only [readRows, map_cons, ih]
    rfl

theorem onMessage_messages_length (buf : Bytes) :
    ∀ message ∈ (onMessage buf).messages, message.length ≤ 65536 := by
  fun_induction onMessage buf with
  | case1 => nofun
  | case2 buf hlen len hgood hfull body rest ih =>
    intro message hmem
    obtain rfl | hmem := mem_cons.mp hmem
    · rw [length_take]
      omega
    · exact ih message hmem
  | case3 => nofun
  | case4 => nofun

section

variable {ar : Archive} {mysql : Mysql} {sign : Bytes → Int64 → Bytes} {db : Database} {env : Env}
  {quest : Mstnodequest} {cache cache' : Cache} {nodes : List CMstNodeData}

theorem not_answered_of_error (h : collect (queried mysql db env) quest cache = .error fault cache') :
    ¬Answered ar (parseQuest ar mysql sign db env quest cache) := by
  rintro ⟨cache', reply, hreply, _⟩
  rw [parseQuest, parseQuest_eq, h] at hreply
  cases hreply

theorem not_answered_of_empty (h : collect (queried mysql db env) quest cache = .ok (some []) cache') :
    ¬Answered ar (parseQuest ar mysql sign db env quest cache) := by
  rintro ⟨cache', reply, hreply, _⟩
  rw [parseQuest, parseQuest_eq, h] at hreply
  cases hreply

theorem content_length (hsign : ∀ addr time, (sign addr time).length = 130) (node : CMstNodeData) :
    (content ar (replyWith sign quest node nodes)).length = replySize ar (node :: nodes) := by
  have hflag : "#$%@".toUTF8.toList.length = 4 := by decide +kernel
  have hres : (saveRes ar (replyWith sign quest node nodes).mstres).length = 158 :=
    saveRes_length ar hflag (hsign node._masteraddr quest._timeStamps)
  have hnodes : (saveNodes ar (replyWith sign quest node nodes).vecnode).length =
      ar.nodeInfo.length + ((node :: nodes).map nodeSize).sum :=
    saveNodes_length ar (cons_ne_nil node nodes)
  rw [content, length_append, length_append, length_append, hres, hnodes, replySize]
  omega

theorem answered_iff_of_collect (hsign : ∀ addr time, (sign addr time).length = 130)
    (h : collect (queried mysql db env) quest cache = .ok (some nodes) cache') :
    Answered ar (parseQuest ar mysql sign db env quest cache) ↔
      nodes ≠ [] ∧ replySize ar nodes ≤ 65536 := by
  cases nodes with
  | nil =>
    refine ⟨fun hanswered => ?_, fun hnodes => absurd rfl hnodes.1⟩
    exact absurd hanswered (not_answered_of_empty h)
  | cons node nodes =>
    have hlen : (content ar (replyWith sign quest node nodes)).length = replySize ar (node :: nodes) :=
      content_length hsign node
    rw [parseQuest, parseQuest_eq, h]
    constructor
    · rintro ⟨cache₁, reply, hreply, hdeliver, _⟩
      have hsend : send (content ar (replyWith sign quest node nodes)) = send (content ar reply) :=
        head_eq_of_cons_eq (congrArg Prod.snd (Except.ok.inj hreply))
      refine ⟨cons_ne_nil node nodes, ?_⟩
      have hsame : content ar (replyWith sign quest node nodes) = content ar reply :=
        append_inj_right' hsend (by
          have hlens := congrArg length hsend
          simp only [send, length_append, beBytes_length] at hlens
          omega)
      -- One read of the whole frame.
      have hone : (onMessage (send (content ar reply))).messages = [content ar reply] := by
        have honce := hdeliver [send (content ar reply)] (append_nil _)
        simpa only [deliver, nil_append, append_nil] using honce
      rw [← hlen, hsame]
      exact onMessage_messages_length (send (content ar reply)) _ (hone ▸ mem_singleton_self _)
    · rintro ⟨_, hsize⟩
      refine ⟨cache', replyWith sign quest node nodes, rfl, fun chunks hchunks => ?_, ?_⟩
      · refine (deliver_sent [content ar (replyWith sign quest node nodes)] ?_ chunks ?_).1
        · intro m hm
          rw [mem_singleton.mp hm, hlen]
          exact hsize
        · rw [hchunks, map_singleton, flatten_singleton]
      · have hle := length_le_replySize ar (node :: nodes)
        exact Int32.toInt_ofNat_of_lt (by omega)

theorem answered_one_iff (hsign : ∀ addr time, (sign addr time).length = 130)
    (hone : quest._questtype = MST_QUEST_ONE) (hcache : cache quest._masteraddr = none)
    (hconn : env.connected = true)
    (hquery : (queryText quest._masteraddr).length < sqlBufSize →
      mysql db (queryText quest._masteraddr) ≠ none) :
    Answered ar (parseQuest ar mysql sign db env quest cache) ↔
      (queryText quest._masteraddr).length < sqlBufSize ∧
        match mysql db (queryText quest._masteraddr) with
        | some (row :: rows) => replySize ar ((row :: rows).map Row.node) ≤ 65536
        | _ => replySize ar [CMstNodeData.new 0 quest._masteraddr 0] ≤ 65536 := by
  have hcollect : collect (queried mysql db env) quest cache = _ := collect_uncached hone hcache hconn
  by_cases hfits : (queryText quest._masteraddr).length < sqlBufSize
  · obtain ⟨rows, hrows⟩ := Option.ne_none_iff_exists'.mp (hquery hfits)
    rw [if_neg (by omega), hrows] at hcollect
    rw [hrows, and_iff_right hfits]
    cases rows with
    | nil => exact (answered_iff_of_collect hsign hcollect).trans (and_iff_right (cons_ne_nil _ _))
    | cons row rows => exact (answered_iff_of_collect hsign hcollect).trans (and_iff_right (cons_ne_nil _ _))
  · rw [if_pos (by omega)] at hcollect
    exact iff_of_false (not_answered_of_error hcollect) fun h => hfits h.1

theorem answered_all_iff (hmysql : ReadsLiterals mysql)
    (hsign : ∀ addr time, (sign addr time).length = 130) (hall : quest._questtype = MST_QUEST_ALL)
    (hconn : env.connected = true) :
    Answered ar (parseQuest ar mysql sign db env quest cache) ↔
      db.rows ≠ [] ∧ replySize ar (db.rows.map Row.node) ≤ 65536 := by
  have hsizes := readRows_nodeSize env.junk db.rows cache
  have hempty : (readRows env.junk db.rows cache).2 = [] ↔ db.rows = [] := by
    rw [← map_eq_nil_iff (f := nodeSize), hsizes, map_eq_nil_iff, map_eq_nil_iff]
  rw [answered_iff_of_collect hsign (collect_all hmysql hall hconn), replySize_congr ar hsizes,
    Ne, hempty]

/-- With a database that is reached and answers, a request gets its one readable reply exactly when
there is a record to send, the query fits into its buffer, and the reply fits into a frame. -/
theorem answered_iff (hmysql : ReadsLiterals mysql)
    (hsign : ∀ addr time, (sign addr time).length = 130) (ar : Archive) (db : Database)
    (env : Env) (quest : Mstnodequest) (cache : Cache) (hconn : env.connected = true)
    (hquery : quest._questtype = MST_QUEST_ONE → cache quest._masteraddr = none →
      (queryText quest._masteraddr).length < sqlBufSize →
      mysql db (queryText quest._masteraddr) ≠ none) :
    Answered ar (parseQuest ar mysql sign db env quest cache) ↔
      Answerable ar mysql db quest cache := by
  rw [Answerable]
  by_cases hone : quest._questtype = MST_QUEST_ONE
  · rw [if_pos hone]
    cases hcache : cache quest._masteraddr with
    | some node =>
      rw [answered_iff_of_collect hsign (collect_cached hone hcache),
        and_iff_right (cons_ne_nil _ _)]
    | none => exact answered_one_iff hsign hone hcache hconn (hquery hone hcache)
  · rw [if_neg hone]
    by_cases hall : quest._questtype = MST_QUEST_ALL
    · rw [if_pos hall]
      exact answered_all_iff hmysql hsign hall hconn
    · rw [if_neg hall]
      exact iff_of_false (not_answered_of_empty (collect_other hone hall)) id

end

/-- An archive that writes nothing of its own, an int as its four bytes and a string behind its
length. -/
def noInfo : Archive where
  signature := []
  mstnoderesInfo := []
  nodeInfo := []
  saveInt n := leBytes 4 n.toBitVec.toNat
  saveString s := leBytes 8 s.length ++ s
  saveInt_length _ := leBytes_length ..
  saveString_length _ := by rw [length_append, leBytes_length]

def blankSign : Bytes → Int64 → Bytes := fun _ _ => replicate 130 0x30

theorem answered_whole_table :
    Answered noInfo (parseQuest noInfo literalMysql blankSign addressRow ⟨true, 0⟩
      ⟨1, 0, MST_QUEST_ALL, []⟩ emptyCache) := by
  refine (answered_iff literalMysql_readsLiterals (fun _ _ => length_replicate) noInfo addressRow
    ⟨true, 0⟩ ⟨1, 0, MST_QUEST_ALL, []⟩ emptyCache rfl (fun hone => absurd hone (by decide))).mpr ?_
  rw [Answerable, if_neg (by decide), if_pos rfl]
  exact ⟨by decide, by decide⟩

def emptyTable : Database := ⟨[], nodup_nil⟩

/-- An empty table, or a request type that is neither of the two, leaves no record, and the server
reads `vecnode[0]` all the same. -/
theorem empty_table_not_answered :
    parseQuest noInfo literalMysql blankSign emptyTable ⟨true, 0⟩ ⟨1, 0, MST_QUEST_ALL, []⟩
      emptyCache = .error .vecnodeEmpty ∧
    parseQuest noInfo literalMysql blankSign addressRow ⟨true, 0⟩ ⟨1, 0, 3, []⟩ emptyCache =
      .error .vecnodeEmpty := by
  constructor
  · rw [parseQuest, parseQuest_eq, collect_all literalMysql_readsLiterals rfl rfl]
    rfl
  · rw [parseQuest, parseQuest_eq, collect_other (by decide) (by decide)]

end Utsuite.NodeReply
