import Mathlib.Data.List.Pairwise
import Utsuite.Transitions

namespace Utsuite.IdleServer

open Transitions List Function

inductive StateE
  | connected
  | disconnecting
  | disconnected
  deriving DecidableEq

structure TcpConnection where
  state : StateE
  lastReceiveTime : Int
  connectedAt : Int
  lastMessage : Option Int
  deriving DecidableEq

variable {Conn : Type} [DecidableEq Conn]

/-- The server with its clock. A weak pointer has expired when its connection does not exist any
more. -/
structure UlordServer (Conn : Type) where
  now : Int
  connections : Conn → Option TcpConnection
  connectionList : List Conn

def UlordServer.set (s : UlordServer Conn) (c : Conn) (conn : Option TcpConnection) :
    UlordServer Conn :=
  { s with connections := update s.connections c conn }

def shutdown (conn : TcpConnection) : TcpConnection :=
  if conn.state = .connected then { conn with state := .disconnecting } else conn

def timerLoop (idleSeconds : Int) : UlordServer Conn → List Conn → UlordServer Conn × List Conn
  | s, [] => (s, [])
  | s, c :: rest =>
    match s.connections c with
    | some conn =>
      let age := s.now - conn.lastReceiveTime
      if age > idleSeconds * 1000000 then
        let r := timerLoop idleSeconds (s.set c (some (shutdown conn))) rest
        (r.1, c :: r.2)
      else if age < 0 then
        let r := timerLoop idleSeconds (s.set c (some { conn with lastReceiveTime := s.now })) rest
        (r.1, c :: r.2)
      else (s, c :: rest)
    | none => timerLoop idleSeconds s rest

def onTimer (idleSeconds : Int) (s : UlordServer Conn) : UlordServer Conn :=
  let r := timerLoop idleSeconds s s.connectionList
  { r.1 with connectionList := r.2 }

/-- The callbacks of the server, and the destruction of a connection after it was closed. -/
inductive Event (Conn : Type)
  | opened (c : Conn)
  | closed (c : Conn)
  | destroyed (c : Conn)
  | message (c : Conn)
  | timer
  | wait (now : Int)

def onOpened (s : UlordServer Conn) (c : Conn) : UlordServer Conn :=
  { s.set c (some ⟨.connected, s.now, s.now, none⟩) with
    connectionList := s.connectionList ++ [c] }

def onClosed (s : UlordServer Conn) (c : Conn) (conn : TcpConnection) : UlordServer Conn :=
  { s.set c (some { conn with state := .disconnected }) with
    connectionList := s.connectionList.erase c }

/-- A message leaves the `Node` of its connection as it is, because the code that would update it is
commented out. -/
def onStringMessage (s : UlordServer Conn) (c : Conn) (conn : TcpConnection) : UlordServer Conn :=
  s.set c (some { conn with lastMessage := some s.now })

def eventStep (idleSeconds : Int) (s : UlordServer Conn) (e : Event Conn) (s' : UlordServer Conn) :
    Prop :=
  match e with
  | .opened c => s.connections c = none ∧ s' = onOpened s c
  | .closed c => ∃ conn, s.connections c = some conn ∧ conn.state ≠ .disconnected ∧
      s' = onClosed s c conn
  | .destroyed c => ∃ conn, s.connections c = some conn ∧ conn.state = .disconnected ∧
      s' = s.set c none
  | .message c => ∃ conn, s.connections c = some conn ∧ conn.state ≠ .disconnected ∧
      s' = onStringMessage s c conn
  | .timer => s' = onTimer idleSeconds s
  | .wait now => s.now ≤ now ∧ s' = { s with now }

def ulordServer (Conn : Type) [DecidableEq Conn] (idleSeconds : Int) :
    System (UlordServer Conn) (Event Conn) where
  start := {s | s.connections = (fun _ => none) ∧ s.connectionList = []}
  next := eventStep idleSeconds

def TcpConnection.lastActivity (conn : TcpConnection) : Int := conn.lastMessage.getD conn.connectedAt

structure ExactTimeout (idleSeconds : Int) (s : UlordServer Conn) : Prop where
  idle_shut : ∀ c conn, (onTimer idleSeconds s).connections c = some conn →
    conn.state = .connected → s.now - conn.lastActivity ≤ idleSeconds * 1000000
  active_kept : ∀ c conn conn', s.connections c = some conn → conn.state = .connected →
    (∃ time ∈ conn.lastMessage, s.now - time ≤ idleSeconds * 1000000) →
    (onTimer idleSeconds s).connections c = some conn' → conn'.state = .connected

def since (s : UlordServer Conn) (c : Conn) : Int := ((s.connections c).map (·.lastReceiveTime)).getD 0

structure TcpConnection.Dated (now : Int) (conn : TcpConnection) : Prop where
  node_time : conn.lastReceiveTime = conn.connectedAt
  connected_le : conn.connectedAt ≤ now
  connected_le_message : ∀ time, conn.lastMessage = some time → conn.connectedAt ≤ time

structure Ordered (s : UlordServer Conn) : Prop where
  listed : ∀ c ∈ s.connectionList, ∃ conn, s.connections c = some conn ∧ conn.state ≠ .disconnected
  complete : ∀ c conn, s.connections c = some conn → conn.state ≠ .disconnected →
    c ∈ s.connectionList
  nodup : s.connectionList.Nodup
  sorted : s.connectionList.Pairwise fun a b => since s a ≤ since s b
  dated : ∀ c conn, s.connections c = some conn → conn.Dated s.now

variable {s : UlordServer Conn} {c : Conn} {conn : TcpConnection} {idleSeconds : Int}

omit [DecidableEq Conn] in
theorem since_eq (h : s.connections c = some conn) : since s c = conn.lastReceiveTime := by
  rw [since, h]
  rfl

theorem connections_set (s : UlordServer Conn) (c c' : Conn) (conn : Option TcpConnection) :
    (s.set c conn).connections c' = if c' = c then conn else s.connections c' :=
  update_apply ..

@[simp] theorem set_now (s : UlordServer Conn) (c : Conn) (conn : Option TcpConnection) :
    (s.set c conn).now = s.now := rfl

@[simp] theorem set_connectionList (s : UlordServer Conn) (c : Conn) (conn : Option TcpConnection) :
    (s.set c conn).connectionList = s.connectionList := rfl

theorem forall_set {P : Conn → TcpConnection → Prop} (hself : P c conn)
    (hother : ∀ c' conn', s.connections c' = some conn' → P c' conn') (c' : Conn)
    (conn' : TcpConnection) (h : (s.set c (some conn)).connections c' = some conn') :
    P c' conn' := by
  rw [connections_set] at h
  split at h
  · next hc =>
      obtain rfl := Option.some.inj h
      exact hc ▸ hself
  · exact hother c' conn' h

theorem since_set_of_eq (h : s.connections c = some conn)
    (htime : conn'.lastReceiveTime = conn.lastReceiveTime) (c' : Conn) :
    since (s.set c (some conn')) c' = since s c' := by
  rw [since, connections_set]
  by_cases hc : c' = c
  · subst hc
    rw [if_pos rfl, since_eq h, ← htime]
    rfl
  · rw [if_neg hc]
    rfl

@[simp] theorem shutdown_lastReceiveTime (conn : TcpConnection) :
    (shutdown conn).lastReceiveTime = conn.lastReceiveTime := by
  unfold shutdown
  split <;> rfl

def expire (idleSeconds : Int) (s : UlordServer Conn) (l : List Conn) (c : Conn) :
    Option TcpConnection :=
  (s.connections c).map fun conn =>
    if c ∈ l ∧ s.now - conn.lastReceiveTime > idleSeconds * 1000000 then shutdown conn else conn

theorem expire_set (h : s.connections c = some conn) (hc : c ∉ l)
    (hage : s.now - conn.lastReceiveTime > idleSeconds * 1000000) :
    expire idleSeconds (s.set c (some (shutdown conn))) l = expire idleSeconds s (c :: l) := by
  funext c'
  by_cases hc' : c' = c
  · subst hc'
    simp [expire, connections_set, h, hc, hage]
  · simp [expire, connections_set, hc']

theorem expire_of_young (h : ∀ c ∈ l, s.now - since s c ≤ idleSeconds * 1000000) :
    expire idleSeconds s l = s.connections := by
  funext c
  unfold expire
  cases hconn : s.connections c with
  | none => rfl
  | some conn =>
    have hnot : ¬(c ∈ l ∧ s.now - conn.lastReceiveTime > idleSeconds * 1000000) := by
      rintro ⟨hc, hage⟩
      have hyoung := h c hc
      rw [since_eq hconn] at hyoung
      omega
    rw [Option.map_some, if_neg hnot]

/-- The timer stops at the first connection that is young enough. It misses nobody, since the list
is ordered by time. -/
theorem timerLoop_eq (idleSeconds : Int)
    (hlive : ∀ c ∈ l, ∃ conn, s.connections c = some conn ∧ conn.lastReceiveTime ≤ s.now)
    (hnodup : l.Nodup) (hsorted : l.Pairwise fun a b => since s a ≤ since s b) :
    timerLoop idleSeconds s l = ({ s with connections := expire idleSeconds s l }, l) := by
  induction l generalizing s with
  | nil => rw [timerLoop, expire_of_young nofun]
  | cons c rest ih =>
    obtain ⟨hc, hnodup⟩ := nodup_cons.mp hnodup
    obtain ⟨hfirst, hsorted⟩ := pairwise_cons.mp hsorted
    obtain ⟨conn, hconn, hnow⟩ := hlive c mem_cons_self
    simp only [timerLoop, hconn]
    by_cases hage : s.now - conn.lastReceiveTime > idleSeconds * 1000000
    · have hlive' : ∀ c' ∈ rest, ∃ conn', (s.set c (some (shutdown conn))).connections c' =
          some conn' ∧ conn'.lastReceiveTime ≤ s.now := by
        intro c' hc'
        rw [connections_set, if_neg (ne_of_mem_of_not_mem hc' hc)]
        exact hlive c' (mem_cons_of_mem _ hc')
      have hsorted' : rest.Pairwise fun a b =>
          since (s.set c (some (shutdown conn))) a ≤ since (s.set c (some (shutdown conn))) b := by
        simpa only [since_set_of_eq hconn (shutdown_lastReceiveTime conn)] using hsorted
      rw [if_pos hage, ih hlive' hnodup hsorted', expire_set hconn hc hage]
      rfl
    · have hyoung : ∀ c' ∈ c :: rest, s.now - since s c' ≤ idleSeconds * 1000000 := by
        intro c' hc'
        obtain rfl | hc' := mem_cons.mp hc'
        · rw [since_eq hconn]
          omega
        · have hle := hfirst c' hc'
          rw [since_eq hconn] at hle
          omega
      rw [if_neg hage, if_neg (by omega), expire_of_young hyoung]

theorem Ordered.onTimer_eq (h : Ordered s) (idleSeconds : Int) :
    onTimer idleSeconds s =
      { s with connections := expire idleSeconds s s.connectionList } := by
  have hlive : ∀ c ∈ s.connectionList,
      ∃ conn, s.connections c = some conn ∧ conn.lastReceiveTime ≤ s.now := by
    intro c hc
    obtain ⟨conn, hconn, _⟩ := h.listed c hc
    have hdated := h.dated c conn hconn
    exact ⟨conn, hconn, hdated.node_time ▸ hdated.connected_le⟩
  rw [onTimer, timerLoop_eq idleSeconds hlive h.nodup h.sorted]

structure Keeps (conn conn' : TcpConnection) : Prop where
  down : conn'.state = .disconnected ↔ conn.state = .disconnected
  node : conn'.lastReceiveTime = conn.lastReceiveTime
  connectedAt : conn'.connectedAt = conn.connectedAt
  message : ∀ time, conn'.lastMessage = some time →
    conn.lastMessage = some time ∨ conn.connectedAt ≤ time

theorem Keeps.refl (conn : TcpConnection) : Keeps conn conn :=
  ⟨.rfl, rfl, rfl, fun _ => .inl⟩

theorem shutdown_keeps (conn : TcpConnection) : Keeps conn (shutdown conn) := by
  unfold shutdown
  split
  · next h => exact ⟨by simp [h], rfl, rfl, fun _ => .inl⟩
  · exact .refl conn

omit [DecidableEq Conn] in
theorem Ordered.keeps (h : Ordered s) {f : Conn → TcpConnection → TcpConnection}
    (hlist : s'.connectionList = s.connectionList) (hnow : s.now ≤ s'.now)
    (hf : ∀ c, s'.connections c = (s.connections c).map (f c))
    (hkeeps : ∀ c conn, s.connections c = some conn → Keeps conn (f c conn)) : Ordered s' := by
  have hback : ∀ c conn', s'.connections c = some conn' →
      ∃ conn, s.connections c = some conn ∧ Keeps conn conn' := by
    intro c conn' hconn'
    rw [hf] at hconn'
    obtain ⟨conn, hconn, rfl⟩ := Option.map_eq_some_iff.mp hconn'
    exact ⟨conn, hconn, hkeeps c conn hconn⟩
  have hsince : ∀ c, since s' c = since s c := by
    intro c
    rw [since, hf]
    cases hconn : s.connections c with
    | none => rw [since, hconn]; rfl
    | some conn => rw [since_eq hconn]; exact (hkeeps c conn hconn).node
  constructor
  case listed =>
    intro c hc
    rw [hlist] at hc
    obtain ⟨conn, hconn, hup⟩ := h.listed c hc
    exact ⟨f c conn, by rw [hf, hconn]; rfl, mt (hkeeps c conn hconn).down.mp hup⟩
  case complete =>
    intro c conn' hconn' hup
    obtain ⟨conn, hconn, hk⟩ := hback c conn' hconn'
    rw [hlist]
    exact h.complete c conn hconn (mt hk.down.mpr hup)
  case nodup =>
    rw [hlist]
    exact h.nodup
  case sorted =>
    simpa only [hlist, hsince] using h.sorted
  case dated =>
    intro c conn' hconn'
    obtain ⟨conn, hconn, hk⟩ := hback c conn' hconn'
    obtain ⟨hnode, hle, hmessage⟩ := h.dated c conn hconn
    refine ⟨by rw [hk.node, hk.connectedAt, hnode], ?_, fun time htime => ?_⟩ <;> rw [hk.connectedAt]
    · exact hle.trans hnow
    · exact (hk.message time htime).elim (hmessage time) id

theorem Ordered.timer (h : Ordered s) (idleSeconds : Int) :
    Ordered (onTimer idleSeconds s) := by
  rw [h.onTimer_eq]
  refine h.keeps rfl le_rfl (fun _ => rfl) fun c conn _ => ?_
  split
  · exact shutdown_keeps conn
  · exact .refl conn

theorem Ordered.message (h : Ordered s) (hconn : s.connections c = some conn) :
    Ordered (onStringMessage s c conn) := by
  refine h.keeps (f := fun c' conn' => if c' = c then { conn' with lastMessage := some s.now }
    else conn') rfl le_rfl (fun c' => ?_) fun c' conn' hconn' => ?_
  · rw [onStringMessage, connections_set]
    split
    · next hc => rw [hc, hconn]; rfl
    · exact (Option.map_id' ..).symm
  · split
    · refine ⟨.rfl, rfl, rfl, fun time htime => .inr ?_⟩
      obtain rfl : s.now = time := Option.some.inj htime
      exact (h.dated c' conn' hconn').connected_le
    · exact .refl conn'

theorem Ordered.opened (h : Ordered s) (hnone : s.connections c = none) :
    Ordered (onOpened s c) := by
  have hconn : (onOpened s c).connections c = some ⟨.connected, s.now, s.now, none⟩ :=
    update_self ..
  have hother : ∀ c' ≠ c, (onOpened s c).connections c' = s.connections c' :=
    fun c' hc' => update_of_ne hc' ..
  have hnew : c ∉ s.connectionList := by
    intro hc
    obtain ⟨conn, hconn, _⟩ := h.listed c hc
    rw [hnone] at hconn
    cases hconn
  have hsince : ∀ c' ∈ s.connectionList, since (onOpened s c) c' = since s c' := by
    intro c' hc'
    rw [since, hother c' (ne_of_mem_of_not_mem hc' hnew), since]
  constructor
  case listed =>
    intro c' hc'
    obtain hc' | hc' := mem_append.mp hc'
    · rw [hother c' (ne_of_mem_of_not_mem hc' hnew)]
      exact h.listed c' hc'
    · obtain rfl := mem_singleton.mp hc'
      exact ⟨_, hconn, by nofun⟩
  case complete =>
    refine forall_set (fun _ => ?_) fun c' conn hconn hup => ?_
    · exact mem_append_right _ mem_cons_self
    · exact mem_append_left _ (h.complete c' conn hconn hup)
  case nodup =>
    exact nodup_append.mpr ⟨h.nodup, pairwise_singleton .., fun a ha b hb =>
      mem_singleton.mp hb ▸ ne_of_mem_of_not_mem ha hnew⟩
  case sorted =>
    refine pairwise_append.mpr ⟨?_, pairwise_singleton .., ?_⟩
    · exact h.sorted.imp_of_mem fun ha hb hle => by rwa [hsince _ ha, hsince _ hb]
    · intro a ha b hb
      obtain rfl := mem_singleton.mp hb
      obtain ⟨conn, hconna, _⟩ := h.listed a ha
      have hdated := h.dated a conn hconna
      rw [hsince a ha, since_eq hconna, since_eq hconn, hdated.node_time]
      exact hdated.connected_le
  case dated => exact forall_set ⟨rfl, le_rfl, by nofun⟩ h.dated

theorem Ordered.closed (h : Ordered s) (hconn : s.connections c = some conn) :
    Ordered (onClosed s c conn) := by
  constructor
  case listed =>
    intro c' hc'
    obtain ⟨hne, hmem⟩ := h.nodup.mem_erase_iff.mp hc'
    obtain ⟨conn', hconn', hup⟩ := h.listed c' hmem
    exact ⟨conn', (Function.update_of_ne hne ..).trans hconn', hup⟩
  case complete =>
    intro c' conn' hconn' hup
    have hne : c' ≠ c := by
      rintro rfl
      rw [onClosed, connections_set, if_pos rfl] at hconn'
      obtain rfl := Option.some.inj hconn'
      exact hup rfl
    have hconn'' : s.connections c' = some conn' := (Function.update_of_ne hne ..).symm.trans hconn'
    exact h.nodup.mem_erase_iff.mpr ⟨hne, h.complete c' conn' hconn'' hup⟩
  case nodup => exact h.nodup.erase c
  case sorted =>
    have htime : { conn with state := StateE.disconnected }.lastReceiveTime = conn.lastReceiveTime := rfl
    have hsince : ∀ c', since (onClosed s c conn) c' = since s c' := since_set_of_eq hconn htime
    simp only [hsince]
    exact h.sorted.sublist erase_sublist
  case dated => exact forall_set { h.dated c conn hconn with } h.dated

theorem Ordered.destroyed (h : Ordered s) (hconn : s.connections c = some conn)
    (hdown : conn.state = .disconnected) :
    Ordered (s.set c none) := by
  have hnew : c ∉ s.connectionList := by
    intro hc
    obtain ⟨conn', hconn', hup⟩ := h.listed c hc
    obtain rfl := Option.some.inj (hconn.symm.trans hconn')
    exact hup hdown
  have hother : ∀ c' ∈ s.connectionList, (s.set c none).connections c' = s.connections c' :=
    fun c' hc' => Function.update_of_ne (ne_of_mem_of_not_mem hc' hnew) ..
  have hold : ∀ c' conn', (s.set c none).connections c' = some conn' →
      s.connections c' = some conn' := by
    intro c' conn' hconn'
    rw [connections_set] at hconn'
    split at hconn'
    · cases hconn'
    · exact hconn'
  constructor
  case listed =>
    intro c' hc'
    rw [hother c' hc']
    exact h.listed c' hc'
  case complete => exact fun c' conn' hconn' => h.complete c' conn' (hold c' conn' hconn')
  case nodup => exact h.nodup
  case sorted =>
    refine h.sorted.imp_of_mem fun ha hb hle => ?_
    rwa [since, since, hother _ ha, hother _ hb]
  case dated => exact fun c' conn' hconn' => h.dated c' conn' (hold c' conn' hconn')

theorem Ordered.step (h : Ordered s) (hstep : eventStep idleSeconds s e s') : Ordered s' := by
  cases e with
  | opened c =>
    obtain ⟨hnone, rfl⟩ := hstep
    exact h.opened hnone
  | closed c =>
    obtain ⟨conn, hconn, _, rfl⟩ := hstep
    exact h.closed hconn
  | destroyed c =>
    obtain ⟨conn, hconn, hdown, rfl⟩ := hstep
    exact h.destroyed hconn hdown
  | message c =>
    obtain ⟨conn, hconn, _, rfl⟩ := hstep
    exact h.message hconn
  | timer =>
    obtain rfl := hstep
    exact h.timer idleSeconds
  | wait now =>
    obtain ⟨hnow, rfl⟩ := hstep
    exact h.keeps rfl hnow (fun c => (Option.map_id' ..).symm) fun _ conn _ => .refl conn

theorem reach_ordered (h : Reach (ulordServer Conn idleSeconds) s) : Ordered s := by
  refine h.invariant (fun s hs => ?_) fun s e s' => Ordered.step
  obtain ⟨hconns, hlist⟩ := hs
  constructor <;> simp [hconns, hlist]

theorem shutdown_not_connected (conn : TcpConnection) : (shutdown conn).state ≠ .connected := by
  unfold shutdown
  split
  · nofun
  · assumption

theorem Ordered.timer_connections (h : Ordered s) (idleSeconds : Int)
    (hconn : s.connections c = some conn) (hup : conn.state = .connected) :
    (onTimer idleSeconds s).connections c =
      some (if s.now - conn.connectedAt > idleSeconds * 1000000 then shutdown conn else conn) := by
  have hmem : c ∈ s.connectionList := h.complete c conn hconn (by simp [hup])
  rw [h.onTimer_eq]
  simp [expire, hconn, hmem, (h.dated c conn hconn).node_time]

theorem Ordered.connected_before (h : Ordered s)
    (hconn : (onTimer idleSeconds s).connections c = some conn) (hup : conn.state = .connected) :
    s.connections c = some conn ∧ s.now - conn.connectedAt ≤ idleSeconds * 1000000 := by
  have hexpire := hconn
  rw [h.onTimer_eq] at hexpire
  obtain ⟨conn₀, hconn₀, heq⟩ := Option.map_eq_some_iff.mp hexpire
  obtain rfl : conn₀ = conn := by
    split at heq
    · exact absurd (heq ▸ hup) (shutdown_not_connected conn₀)
    · exact heq
  refine ⟨hconn₀, ?_⟩
  by_contra hage
  rw [h.timer_connections idleSeconds hconn₀ hup, if_pos (by omega)] at hconn
  exact shutdown_not_connected conn₀ ((congrArg TcpConnection.state (Option.some.inj hconn)).trans hup)

theorem TcpConnection.Dated.le_lastActivity (h : conn.Dated now) : conn.connectedAt ≤ conn.lastActivity := by
  unfold lastActivity
  cases hmessage : conn.lastMessage with
  | none => exact le_rfl
  | some time => exact h.connected_le_message time hmessage

/-- The time-out is exact if and only if no connected client that was active lately is connected for
longer than the idle time. -/
theorem exactTimeout_iff (idleSeconds : Int) {s : UlordServer Conn}
    (h : Reach (ulordServer Conn idleSeconds) s) :
    ExactTimeout idleSeconds s ↔
      ∀ c conn, s.connections c = some conn → conn.state = .connected →
        (∃ time ∈ conn.lastMessage, s.now - time ≤ idleSeconds * 1000000) →
        s.now - conn.connectedAt ≤ idleSeconds * 1000000 := by
  have hs := reach_ordered h
  constructor
  · intro hexact c conn hconn hup hactive
    by_contra hage
    have hafter := hs.timer_connections idleSeconds hconn hup
    rw [if_pos (by omega)] at hafter
    exact shutdown_not_connected conn (hexact.active_kept c conn _ hconn hup hactive hafter)
  · intro hrecent
    constructor
    case idle_shut =>
      intro c conn hconn hup
      obtain ⟨hbefore, hage⟩ := hs.connected_before hconn hup
      have hle := (hs.dated c conn hbefore).le_lastActivity
      omega
    case active_kept =>
      intro c conn conn' hconn hup hactive hafter
      have hage := hrecent c conn hconn hup hactive
      rw [hs.timer_connections idleSeconds hconn hup, if_neg (by omega)] at hafter
      exact Option.some.inj hafter ▸ hup

def oneClient (now : Int) (lastMessage : Option Int) : UlordServer Unit :=
  ⟨now, fun _ => some ⟨.connected, 0, 0, lastMessage⟩, [()]⟩

theorem reach_oneClient (idleSeconds : Int) (hnow : 0 ≤ now) :
    Reach (ulordServer Unit idleSeconds) (oneClient now none) ∧
    Reach (ulordServer Unit idleSeconds) (oneClient now (some now)) := by
  have hopen : Reach (ulordServer Unit idleSeconds) (oneClient 0 none) := by
    refine .step (s := ⟨0, fun _ => none, []⟩) (i := .opened ()) (.start ⟨rfl, rfl⟩) ⟨rfl, ?_⟩
    simp only [onOpened, oneClient, UlordServer.set, UlordServer.mk.injEq, true_and]
    exact ⟨funext fun _ => rfl, rfl⟩
  have hwait : Reach (ulordServer Unit idleSeconds) (oneClient now none) :=
    .step (i := .wait now) hopen ⟨hnow, rfl⟩
  refine ⟨hwait, .step (i := .message ()) hwait ⟨_, rfl, by nofun, ?_⟩⟩
  simp only [onStringMessage, oneClient, UlordServer.set, UlordServer.mk.injEq, true_and, and_true]
  exact funext fun _ => rfl

theorem exactTimeout_iff_oneClient :
    ExactTimeout 60 (oneClient 5000000 (some 5000000)) :=
  (exactTimeout_iff 60 (reach_oneClient 60 (by decide)).2).mpr fun _ _ hconn _ _ => by
    obtain rfl := Option.some.inj hconn
    decide

/-- A client that connected 61 seconds ago is shut down although it has just sent a message. -/
theorem active_client_shut_down : ∃ s : UlordServer Unit,
    Reach (ulordServer Unit 60) s ∧ ¬ExactTimeout 60 s := by
  refine ⟨oneClient 61000000 (some 61000000), (reach_oneClient 60 (by decide)).2, fun h => ?_⟩
  have hup := h.active_kept () _ ⟨.disconnecting, 0, 0, some 61000000⟩ rfl rfl
    ⟨61000000, rfl, by decide⟩ rfl
  cases hup

end Utsuite.IdleServer
