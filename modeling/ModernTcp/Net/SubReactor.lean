import Mathlib.Data.List.AList
import Mathlib.Tactic
import ModernTcp.Lib.Multimap
import ModernTcp.Lib.Threads

/-! # Connections and timeouts of the reactors

`connections_` and `timeout_map_` of every `SubReactor`, and the counter `active_connections`
of the installed `ServerMetrics` that all of them update. The functor of `add_connection`,
`close_connection`, `check_timeouts`, the cleanup at the end of `run` and `shutdown` are cut
where they update one of the three, so that the steps of other reactors may come in between.
Times are counts of clock ticks. An allocation does not fail.
-/
namespace ModernTcp.SubReactor
open Execution Threads Multimap

/-- What the reactor reads of an `EpollConnection`. -/
structure Connection where
  lastActive : ℤ
  idleTimeout : ℤ
  idleTimeoutEnabled : Bool := true
deriving DecidableEq

/-- Where `close_connection` returns to: the loop of `run`, the second loop of `check_timeouts`
or the cleanup of `run`, with the descriptors these have yet to close. -/
inductive Point
  | idle
  | expiring (rest : List ℤ)
  | exiting (rest : List ℤ)
deriving DecidableEq

/-- `inserted` and `counted` are in the functor of `add_connection`, `erased` and `purged` in
`close_connection`, `scanning` is the first loop of `check_timeouts`, with its iterator and
`timeouts_fds`; `shutting` is the loop of `shutdown`. -/
inductive Pc
  | at (p : Point)
  | inserted (fd : ℤ)
  | counted (fd : ℤ)
  | erased (fd : ℤ) (p : Point)
  | purged (p : Point)
  | scanning (now : ℤ) (pos : ℕ) (expired : List ℤ)
  | exited
  | shutting (left : ℕ)
  | done
deriving DecidableEq

structure Reactor where
  connections : AList (fun _ : ℤ => Connection) := ∅
  timeoutMap : List (ℤ × ℤ) := []
  pc : Pc := .at .idle

/-- What the rest of the program and the kernel decide: the functor to run, with whether its
connection is alive and whether `epoll_add` succeeds; the descriptor to close; the clock; the
settings of a connection; the order in which the map lists its keys. -/
inductive Act
  | addConnection (fd : ℤ) (conn : Connection) (alive epollAdds : Bool)
  | now (t : ℤ)
  | closeConnection (fd : ℤ)
  | checkTimeouts (now : ℤ)
  | updateActiveTime (fd t : ℤ)
  | configure (fd timeout : ℤ) (enable : Bool)
  | exit (order : List ℤ)
  | shutdown
  | go
deriving DecidableEq

/-- The functor up to the insertion. A rejected connection leaves the reactor as it is. -/
def addConnection (r : Reactor) (fd : ℤ) (conn : Connection) (alive epollAdds : Bool) : Reactor :=
  if fd < 0 ∨ alive = false then r
  -- epoll_add throws, the handler shuts the connection down
  else if epollAdds = false then r
  else if fd ∈ r.connections then r
  else { r with connections := r.connections.insert fd conn, pc := .inserted fd }

/-- The end of the functor, at the time it reads from the clock; `connections_[fd]` is the entry it has made. -/
def armTimeout (r : Reactor) (fd t : ℤ) : Option Reactor :=
  (r.connections.lookup fd).map (fun conn =>
    { r with timeoutMap := emplace r.timeoutMap (t + conn.idleTimeout) fd, pc := .at .idle })

/-- `close_connection` up to the removal from `connections_`. -/
def closeConnection (r : Reactor) (fd : ℤ) (p : Point) : Reactor :=
  if fd < 0 then { r with pc := .at p }
  else if fd ∈ r.connections then { r with connections := r.connections.erase fd, pc := .erased fd p }
  else { r with pc := .at p }

/-- One round of the loop of `check_timeouts` over `timeout_map_`, the iterator at `pos`. -/
def scanTimeouts (r : Reactor) (now : ℤ) (pos : ℕ) (expired : List ℤ) : Reactor :=
  match r.timeoutMap[pos]? with
  | none => { r with pc := .at (.expiring expired) }
  | some (key,fd) =>
    if key ≤ now then
      let rest := r.timeoutMap.eraseIdx pos
      match r.connections.lookup fd with
      | none => { r with timeoutMap := rest, pc := .scanning now pos expired }
      | some conn =>
        if conn.idleTimeoutEnabled = false then
          { r with timeoutMap := rest, pc := .scanning now pos expired }
        else if now - conn.lastActive > conn.idleTimeout then
          { r with timeoutMap := rest, pc := .scanning now pos (expired ++ [fd]) }
        else
          let next := conn.lastActive + conn.idleTimeout
          { r with
            timeoutMap := emplace rest next fd, pc := .scanning now (afterEmplace rest next pos) expired }
    else { r with pc := .at (.expiring expired) }

/-- The steps that take nothing from outside. -/
def advanceGo (active : ℤ) (r : Reactor) : Option (ℤ × Reactor) :=
  match r.pc with
  | .inserted fd => some (active + 1,{ r with pc := .counted fd })
  | .erased fd p =>
    some (active,{ r with timeoutMap := r.timeoutMap.filter (fun e => e.2 != fd), pc := .purged p })
  | .purged p => some (active - 1,{ r with pc := .at p })
  | .scanning now pos expired => some (active,scanTimeouts r now pos expired)
  | .at (.expiring (fd :: rest)) => some (active,closeConnection r fd (.expiring rest))
  | .at (.expiring []) => some (active,{ r with pc := .at .idle })
  | .at (.exiting (fd :: rest)) => some (active,closeConnection r fd (.exiting rest))
  | .at (.exiting []) => some (active,{ r with pc := .exited })
  | .shutting (left + 1) => some (active - 1,{ r with pc := .shutting left })
  | .shutting 0 => some (active,{ connections := ∅, timeoutMap := [], pc := .done })
  | .at .idle | .counted _ | .exited | .done => none

/-- A setter of a connection that the reactor holds. -/
def setConnection (r : Reactor) (fd : ℤ) (f : Connection → Connection) : Option Reactor :=
  (r.connections.lookup fd).map (fun conn => { r with connections := r.connections.insert fd (f conn) })

/-- The loop of `run` calls functors and handlers one after another, so an operation starts only
when the one before has returned. The setters of the timeout belong to the application, which may
call them from any thread. -/
def advance (active : ℤ) (r : Reactor) : Act → Option (ℤ × Reactor)
  | .addConnection fd conn alive epollAdds =>
    if r.pc = .at .idle then some (active,addConnection r fd conn alive epollAdds) else none
  | .now t =>
    match r.pc with
    | .counted fd => (armTimeout r fd t).map (active,·)
    | _ => none
  | .closeConnection fd => if r.pc = .at .idle then some (active,closeConnection r fd .idle) else none
  | .checkTimeouts now =>
    if r.pc = .at .idle then some (active,{ r with pc := .scanning now 0 [] }) else none
  | .updateActiveTime fd t =>
    if r.pc = .at .idle then
      (setConnection r fd (fun conn => { conn with lastActive := t })).map (active,·)
    else none
  | .configure fd timeout enable =>
    (setConnection r fd (fun conn =>
      { conn with idleTimeout := timeout, idleTimeoutEnabled := enable })).map (active,·)
  | .exit order =>
    if r.pc = .at .idle ∧ order.Perm r.connections.keys then
      some (active,{ r with pc := .at (.exiting order) })
    else none
  | .shutdown =>
    if r.pc = .exited then some (active,{ r with pc := .shutting r.connections.keys.length }) else none
  | .go => advanceGo active r

variable {ι : Type*}

/-- `shared` is `active_connections`. -/
abbrev State (ι : Type*) := System ι ℤ Reactor

def step [DecidableEq ι] : State ι → ι × Act → Option (State ι) := Threads.step (fun _ => advance)

def start : State ι := { shared := 0, pc := fun _ => {} }

def Reactor.size (r : Reactor) : ℕ := r.connections.keys.length

/-- Between an update of `connections_` and the update of the counter. -/
def Pc.updating : Pc → Bool
  | .inserted _ | .erased _ _ | .purged _ | .shutting _ => true
  | .at _ | .counted _ | .scanning _ _ _ | .exited | .done => false

/-- The share of the reactor in `active_connections`. -/
def Reactor.share (r : Reactor) : ℤ :=
  match r.pc with
  | .inserted _ => r.size - 1
  | .erased _ _ | .purged _ => r.size + 1
  | .shutting left => left
  | .at _ | .counted _ | .scanning _ _ _ | .exited | .done => r.size

/-- The counter is made of the shares, and a reactor takes back only what it has added. -/
structure Accounted [Fintype ι] (s : State ι) : Prop where
  total : s.shared = ∑ i, (s.pc i).share
  nonneg : ∀ i, 0 ≤ (s.pc i).share

section Accounting
variable {r q : Reactor} {active m : ℤ} {fd : ℤ}

theorem share_of_settled (h : r.pc.updating = false) : r.share = r.size := by
  unfold Reactor.share
  cases hpc : r.pc with
  | inserted | erased | purged | shutting =>
    rw [hpc] at h
    cases h
  | «at» | counted | scanning | exited | done => rfl

theorem keys_insert_perm {c : AList (fun _ : ℤ => Connection)} (conn : Connection) (h : fd ∈ c) :
    (c.insert fd conn).keys.Perm c.keys := by
  rw [AList.keys_insert]
  exact (List.perm_cons_erase (AList.mem_keys.mp h)).symm

theorem length_keys_insert {c : AList (fun _ : ℤ => Connection)} (conn : Connection) (h : fd ∉ c) :
    (c.insert fd conn).keys.length = c.keys.length + 1 := by
  rw [AList.keys_insert, List.erase_of_not_mem (mt AList.mem_keys.mpr h), List.length_cons]

theorem length_keys_erase {c : AList (fun _ : ℤ => Connection)} (h : fd ∈ c) :
    (c.erase fd).keys.length + 1 = c.keys.length := by
  rw [AList.keys_erase]
  exact List.length_erase_add_one (AList.mem_keys.mp h)

theorem addConnection_share {conn : Connection} {alive epollAdds : Bool} (h : r.pc.updating = false) :
    (addConnection r fd conn alive epollAdds).share = r.size := by
  unfold addConnection
  split_ifs with hdead hthrows hmem
  · exact share_of_settled h
  · exact share_of_settled h
  · exact share_of_settled h
  · have hlen := length_keys_insert conn hmem
    simp only [Reactor.share, Reactor.size]
    omega

theorem closeConnection_share {p : Point} : (closeConnection r fd p).share = r.size := by
  unfold closeConnection
  split_ifs with hneg hmem
  · rfl
  · have hlen := length_keys_erase hmem
    simp only [Reactor.share, Reactor.size]
    omega
  · rfl

theorem scanTimeouts_share {now : ℤ} {pos : ℕ} {expired : List ℤ} :
    (scanTimeouts r now pos expired).share = r.size := by
  unfold scanTimeouts
  split
  · rfl
  · split
    · dsimp only
      split
      · rfl
      · split_ifs <;> rfl
    · rfl

theorem setConnection_eq_some {f : Connection → Connection} :
    setConnection r fd f = some q ↔ ∃ conn, r.connections.lookup fd = some conn ∧
      q = { r with connections := r.connections.insert fd (f conn) } := by
  rw [setConnection, Option.map_eq_some_iff]
  simp only [eq_comm (a := q)]

theorem mem_of_lookup {c : AList (fun _ : ℤ => Connection)} {conn : Connection}
    (h : c.lookup fd = some conn) : fd ∈ c := by
  rw [← AList.lookup_isSome, h]
  rfl

theorem setConnection_share {f : Connection → Connection} (h : setConnection r fd f = some q) :
    q.share = r.share := by
  obtain ⟨conn,hconn,rfl⟩ := setConnection_eq_some.mp h
  have hlen := (keys_insert_perm (f conn) (mem_of_lookup hconn)).length_eq
  simp only [Reactor.share, Reactor.size, hlen]

theorem armTimeout_share {t : ℤ} (h : armTimeout r fd t = some q) : q.share = r.size := by
  obtain ⟨conn,_,rfl⟩ := Option.map_eq_some_iff.mp h
  rfl

theorem advanceGo_share (h : advanceGo active r = some (m,q)) :
    m + r.share = active + q.share ∧ 0 ≤ q.share := by
  have hsize : (0 : ℤ) ≤ r.size := Int.natCast_nonneg _
  unfold advanceGo at h
  cases hpc : r.pc with
  | «at» p =>
    rw [hpc] at h
    have hr : r.share = r.size := share_of_settled (by rw [hpc]; rfl)
    cases p with
    | idle => cases h
    | expiring rest | exiting rest =>
      cases rest with
      | nil =>
        cases h
        exact ⟨congrArg (active + ·) hr,hsize⟩
      | cons fd rest =>
        cases h
        rw [closeConnection_share, hr]
        exact ⟨rfl,hsize⟩
  | inserted fd =>
    rw [hpc] at h
    cases h
    have hr : r.share = r.size - 1 := by simp only [Reactor.share, hpc]
    refine ⟨?_,hsize⟩
    change active + 1 + r.share = active + r.size
    omega
  | erased fd p =>
    rw [hpc] at h
    cases h
    have hr : r.share = r.size + 1 := by simp only [Reactor.share, hpc]
    exact ⟨congrArg (active + ·) hr,Int.natCast_nonneg (r.size + 1)⟩
  | purged p =>
    rw [hpc] at h
    cases h
    have hr : r.share = r.size + 1 := by simp only [Reactor.share, hpc]
    refine ⟨?_,hsize⟩
    change active - 1 + r.share = active + r.size
    omega
  | scanning now pos expired =>
    rw [hpc] at h
    cases h
    have hr : r.share = r.size := share_of_settled (by rw [hpc]; rfl)
    rw [scanTimeouts_share, hr]
    exact ⟨rfl,hsize⟩
  | shutting left =>
    rw [hpc] at h
    have hr : r.share = left := by simp only [Reactor.share, hpc]
    cases left with
    | zero =>
      cases h
      exact ⟨congrArg (active + ·) hr,le_refl 0⟩
    | succ left =>
      cases h
      refine ⟨?_,Int.natCast_nonneg left⟩
      change active - 1 + r.share = active + left
      omega
  | counted | exited | done =>
    rw [hpc] at h
    cases h

theorem advance_share {a : Act} (h : advance active r a = some (m,q)) :
    m + r.share = active + q.share ∧ (0 ≤ r.share → 0 ≤ q.share) := by
  -- all but the loop's own steps leave the counter and the share of the reactor as they are
  suffices hsame : a = .go ∨ (m = active ∧ q.share = r.share) by
    rcases hsame with rfl | ⟨rfl,hq⟩
    · exact ⟨(advanceGo_share h).1,fun _ => (advanceGo_share h).2⟩
    · exact ⟨by rw [hq],fun hr => by rwa [hq]⟩
  have hsettled : ∀ {pc : Pc}, r.pc = pc → pc.updating = false → r.share = r.size := by
    rintro _ rfl hpc
    exact share_of_settled hpc
  cases a with
  | go => exact Or.inl rfl
  | addConnection fd conn alive epollAdds =>
    obtain ⟨hidle,hq⟩ := Option.ite_none_right_eq_some.mp h
    cases hq
    exact Or.inr ⟨rfl,(addConnection_share (by rw [hidle]; rfl)).trans (hsettled hidle rfl).symm⟩
  | now t =>
    simp only [advance] at h
    split at h
    · rename_i fd hpc
      obtain ⟨u,hu,hq⟩ := Option.map_eq_some_iff.mp h
      cases hq
      exact Or.inr ⟨rfl,(armTimeout_share hu).trans (hsettled hpc rfl).symm⟩
    · cases h
  | closeConnection fd =>
    obtain ⟨hidle,hq⟩ := Option.ite_none_right_eq_some.mp h
    cases hq
    exact Or.inr ⟨rfl,closeConnection_share.trans (hsettled hidle rfl).symm⟩
  | checkTimeouts now =>
    obtain ⟨hidle,hq⟩ := Option.ite_none_right_eq_some.mp h
    cases hq
    exact Or.inr ⟨rfl,(hsettled hidle rfl).symm⟩
  | updateActiveTime fd t =>
    obtain ⟨_,hq⟩ := Option.ite_none_right_eq_some.mp h
    obtain ⟨u,hu,hq⟩ := Option.map_eq_some_iff.mp hq
    cases hq
    exact Or.inr ⟨rfl,setConnection_share hu⟩
  | configure fd timeout enable =>
    obtain ⟨u,hu,hq⟩ := Option.map_eq_some_iff.mp h
    cases hq
    exact Or.inr ⟨rfl,setConnection_share hu⟩
  | exit order =>
    obtain ⟨⟨hidle,_⟩,hq⟩ := Option.ite_none_right_eq_some.mp h
    cases hq
    exact Or.inr ⟨rfl,(hsettled hidle rfl).symm⟩
  | shutdown =>
    obtain ⟨hexited,hq⟩ := Option.ite_none_right_eq_some.mp h
    cases hq
    exact Or.inr ⟨rfl,(hsettled hexited rfl).symm⟩

end Accounting

variable [Fintype ι]

theorem start_accounted : Accounted (start : State ι) :=
  ⟨by simp [start, Reactor.share, Reactor.size],fun _ => le_refl 0⟩

variable [DecidableEq ι]

theorem step_accounted {s u : State ι} {i : ι} {a : Act} (hs : Accounted s)
    (h : step s (i,a) = some u) : Accounted u := by
  obtain ⟨m,q,ha,rfl⟩ := step_eq_some.mp h
  obtain ⟨hshare,hpos⟩ := advance_share ha
  refine ⟨?_,?_⟩
  · have hsum := sum_exchange (f := fun j => (s.pc j).share)
      (g := fun j => (Function.update s.pc i q j).share) (i := i)
      (fun j hj => by rw [Function.update_of_ne hj])
    have htotal := hs.total
    simp only [Function.update_self] at hsum
    dsimp only
    omega
  · exact (Function.forall_update_iff s.pc (fun _ p => 0 ≤ p.share)).mpr
      ⟨hpos (hs.nonneg i),fun j _ => hs.nonneg j⟩

theorem exec_accounted {as : List (ι × Act)} {s : State ι} (h : exec step start as = some s) :
    Accounted s :=
  exec_of_steps (fun _ _ _ hs hu => step_accounted hs hu) start_accounted h

/-- `active_connections` is the number of connections of all reactors whenever none of them is
between its two updates, and it is not negative even then. -/
theorem active_connections_accounted {as : List (ι × Act)} {s : State ι}
    (h : exec step start as = some s) :
    0 ≤ s.shared ∧
      ((∀ i, (s.pc i).pc.updating = false) → s.shared = ∑ i, ((s.pc i).connections.keys.length : ℤ)) := by
  have hs := exec_accounted h
  constructor
  · rw [hs.total]
    exact Finset.sum_nonneg (fun i _ => hs.nonneg i)
  · intro hsettled
    rw [hs.total]
    exact Finset.sum_congr rfl (fun i _ => share_of_settled (hsettled i))

/-- The first reactor refuses a duplicate and a descriptor that epoll does not take, and the
connection it holds times out while the second reactor adds one. -/
def twoReactors : List (Fin 2 × Act) :=
  [(0,.addConnection 5 ⟨0,10,true⟩ true true),(1,.addConnection 7 ⟨0,10,true⟩ true true),(0,.go),(1,.go),
    (0,.now 0),(0,.addConnection 5 ⟨1,10,true⟩ true true),(0,.addConnection 6 ⟨1,10,true⟩ true false),
    (0,.checkTimeouts 11),(0,.go),(0,.go),(1,.now 1),(0,.go),(0,.go),(0,.go),(0,.go),
    (0,.closeConnection 5)]

theorem active_connections_accounted_two : ∃ s : State (Fin 2),
    exec step start twoReactors = some s ∧ (∀ i, (s.pc i).pc.updating = false) ∧
      s.shared = ∑ i, ((s.pc i).connections.keys.length : ℤ) := by
  have hrun : ((exec step start twoReactors).map
      (fun s : State (Fin 2) => decide (∀ i, (s.pc i).pc.updating = false))) = some true := by decide
  obtain ⟨s,hs,hpc⟩ := Option.map_eq_some_iff.mp hrun
  have hpc := of_decide_eq_true hpc
  exact ⟨s,hs,hpc,(active_connections_accounted hs).2 hpc⟩

end ModernTcp.SubReactor
