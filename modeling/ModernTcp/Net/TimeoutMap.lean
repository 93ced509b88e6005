import ModernTcp.Net.SubReactor

/-! # The entries of the timeout map

While idle timeouts stay enabled, `timeout_map_` holds one entry for every descriptor of
`connections_`, except for the descriptors an operation under way has taken out of it or has yet
to put in.
-/
namespace ModernTcp.SubReactor
open Execution Threads Multimap

/-- Connections that `check_timeouts` has found idle have no entry until they are closed. -/
def Point.owed : Point → List ℤ
  | .expiring rest => rest
  | .idle | .exiting _ => []

/-- Descriptors of `connections_` without an entry. -/
def Pc.owed : Pc → List ℤ
  | .at p | .erased _ p | .purged p => p.owed
  | .inserted fd | .counted fd => [fd]
  | .scanning _ _ expired => expired
  | .exited | .shutting _ | .done => []

/-- The entries, less those that `close_connection` is about to remove. -/
def Reactor.armed (r : Reactor) : List ℤ :=
  match r.pc with
  | .erased fd _ => (values r.timeoutMap).filter (· != fd)
  | _ => values r.timeoutMap

structure Covered (r : Reactor) : Prop where
  entries : (r.armed ++ r.pc.owed).Perm r.connections.keys
  nonneg : ∀ fd ∈ r.connections, 0 ≤ fd
  enabled : ∀ fd conn, r.connections.lookup fd = some conn → conn.idleTimeoutEnabled = true

/-- The action gives no connection a disabled idle timeout. -/
def Act.KeepsEnabled : Act → Prop
  | .addConnection _ conn _ _ => conn.idleTimeoutEnabled = true
  | .configure _ _ enable => enable = true
  | _ => True

section Steps
variable {r q : Reactor} {fd : ℤ}

theorem Covered.goto {pc : Pc} (hs : Covered r) (harmed : { r with pc := pc : Reactor }.armed = r.armed)
    (howed : pc.owed = r.pc.owed) : Covered { r with pc := pc } := by
  refine ⟨?_,hs.nonneg,hs.enabled⟩
  rw [harmed, howed]
  exact hs.entries

theorem covered_empty (hconnections : r.connections = ∅) (hmap : r.timeoutMap = []) (howed : r.pc.owed = []) :
    Covered r := by
  have harmed : r.armed = [] := by
    unfold Reactor.armed
    split <;> simp [hmap]
  refine ⟨?_,?_,?_⟩
  · rw [harmed, howed, hconnections]
    exact List.Perm.refl []
  · rw [hconnections]
    exact fun x hx => absurd hx (AList.notMem_empty x)
  · rw [hconnections]
    intro x c hx
    cases hx

theorem Covered.owed_nodup (hs : Covered r) : r.pc.owed.Nodup :=
  (hs.entries.nodup_iff.mpr r.connections.keys_nodup).of_append_right

theorem Covered.mem_of_owed (hs : Covered r) (h : fd ∈ r.pc.owed) : fd ∈ r.connections := by
  rw [AList.mem_keys, ← hs.entries.mem_iff]
  exact List.mem_append_right _ h

theorem Covered.insert_enabled {conn c : Connection} {x : ℤ} (hs : Covered r)
    (hconn : conn.idleTimeoutEnabled = true) (h : (r.connections.insert fd conn).lookup x = some c) :
    c.idleTimeoutEnabled = true := by
  by_cases hx : x = fd
  · subst hx
    rw [AList.lookup_insert] at h
    cases h
    exact hconn
  · rw [AList.lookup_insert_ne hx] at h
    exact hs.enabled x c h

theorem addConnection_covered {conn : Connection} {alive epollAdds : Bool} (hs : Covered r)
    (hidle : r.pc = .at .idle) (hconn : conn.idleTimeoutEnabled = true) :
    Covered (addConnection r fd conn alive epollAdds) := by
  unfold addConnection
  split_ifs with hdead hthrows hmem
  · exact hs
  · exact hs
  · exact hs
  · refine ⟨?_,?_,?_⟩
    · have hentries := hs.entries
      simp only [Reactor.armed, hidle, Pc.owed, Point.owed, List.append_nil] at hentries
      rw [AList.keys_insert, List.erase_of_not_mem (mt AList.mem_keys.mpr hmem)]
      exact (List.perm_append_singleton fd _).trans (hentries.cons fd)
    · intro x hx
      rcases (AList.mem_insert _).mp hx with rfl | hx
      · omega
      · exact hs.nonneg x hx
    · exact fun x c hx => hs.insert_enabled hconn hx

/-- `close_connection` of the descriptor that the loop of `check_timeouts` takes next, or of any
descriptor when none is owed. -/
theorem closeConnection_covered {p₀ p : Point} (hs : Covered r) (hpc : r.pc = .at p₀)
    (howed : p₀.owed = fd :: p.owed ∨ (p₀.owed = [] ∧ p.owed = [])) :
    Covered (closeConnection r fd p) := by
  have hr : r.pc.owed = p₀.owed := by rw [hpc]; rfl
  have harmed : r.armed = values r.timeoutMap := by simp only [Reactor.armed, hpc]
  -- a descriptor that is owed is in the map and not negative
  have hskip : ¬ (fd ∈ r.connections ∧ 0 ≤ fd) → Covered { r with pc := .at p } := by
    intro habsent
    rcases howed with h | ⟨h,h'⟩
    · have hmem : fd ∈ r.connections := hs.mem_of_owed (by rw [hr, h]; exact List.mem_cons_self)
      exact absurd ⟨hmem,hs.nonneg fd hmem⟩ habsent
    · exact hs.goto (by rw [harmed]; rfl) (by rw [hr, h]; exact h')
  unfold closeConnection
  split_ifs with hneg hmem
  · exact hskip (by omega)
  · refine ⟨?_,?_,?_⟩
    · have hrest : p₀.owed.filter (· != fd) = p.owed := by
        rcases howed with h | ⟨h,h'⟩
        · have hnodup := hs.owed_nodup
          rw [hr, h, List.nodup_cons] at hnodup
          rw [h, List.filter_cons_of_neg (by simp), List.filter_eq_self]
          intro x hx
          simpa using fun hxfd : x = fd => hnodup.1 (hxfd ▸ hx)
        · rw [h, h', List.filter_nil]
      have hentries := hs.entries.filter (· != fd)
      rw [List.filter_append, harmed, hr, hrest, ← r.connections.keys_nodup.erase_eq_filter] at hentries
      rw [AList.keys_erase]
      exact hentries
    · intro x hx
      exact hs.nonneg x (AList.mem_erase.mp hx).2
    · intro x c hx
      have hxfd : x ≠ fd := by
        rintro rfl
        rw [AList.lookup_erase] at hx
        cases hx
      rw [AList.lookup_erase_ne hxfd] at hx
      exact hs.enabled x c hx
  · exact hskip (fun h => hmem h.1)

theorem armTimeout_covered {t : ℤ} (hs : Covered r) (hpc : r.pc = .counted fd)
    (h : armTimeout r fd t = some q) : Covered q := by
  obtain ⟨conn,_,rfl⟩ := Option.map_eq_some_iff.mp h
  refine ⟨?_,hs.nonneg,hs.enabled⟩
  have hentries := hs.entries
  simp only [Reactor.armed, hpc, Pc.owed] at hentries
  simp only [Reactor.armed, Pc.owed, Point.owed, List.append_nil]
  exact ((values_emplace_perm _ _ fd).trans (List.perm_append_singleton fd _).symm).trans hentries

/-- An entry that is due moves to `timeouts_fds` or back into the map at a later time. -/
theorem scanTimeouts_covered {now : ℤ} {pos : ℕ} {expired : List ℤ} (hs : Covered r)
    (hpc : r.pc = .scanning now pos expired) : Covered (scanTimeouts r now pos expired) := by
  have hentries := hs.entries
  simp only [Reactor.armed, hpc, Pc.owed] at hentries
  have hleave : Covered { r with pc := .at (.expiring expired) } := ⟨hentries,hs.nonneg,hs.enabled⟩
  unfold scanTimeouts
  split
  · exact hleave
  · rename_i key fd hfirst
    split_ifs with hdue
    · have htaken := (values_eraseIdx_perm hfirst).append_right expired
      have hkeys := htaken.trans hentries
      have hmem : fd ∈ r.connections := by
        rw [AList.mem_keys, ← hkeys.mem_iff]
        exact List.mem_cons_self
      cases hconn : r.connections.lookup fd with
      | none => exact absurd hmem (AList.lookup_eq_none.mp hconn)
      | some conn =>
        dsimp only
        rw [if_neg (by rw [hs.enabled fd conn hconn]; decide)]
        split_ifs with hidle
        · refine ⟨?_,hs.nonneg,hs.enabled⟩
          simp only [Reactor.armed, Pc.owed]
          rw [← List.append_assoc]
          exact (List.perm_append_singleton fd _).trans hkeys
        · refine ⟨?_,hs.nonneg,hs.enabled⟩
          simp only [Reactor.armed, Pc.owed]
          exact ((values_emplace_perm _ _ fd).append_right expired).trans hkeys
    · exact hleave

theorem setConnection_covered {f : Connection → Connection} (hs : Covered r)
    (h : setConnection r fd f = some q)
    (hf : ∀ conn : Connection, conn.idleTimeoutEnabled = true → (f conn).idleTimeoutEnabled = true) :
    Covered q := by
  obtain ⟨conn,hconn,rfl⟩ := setConnection_eq_some.mp h
  have hkeys := keys_insert_perm (f conn) (mem_of_lookup hconn)
  refine ⟨?_,?_,?_⟩
  · exact hs.entries.trans hkeys.symm
  · intro x hx
    exact hs.nonneg x (AList.mem_keys.mpr (hkeys.mem_iff.mp (AList.mem_keys.mp hx)))
  · exact fun x c hx => hs.insert_enabled (hf conn (hs.enabled fd conn hconn)) hx

variable {active m : ℤ}

theorem advanceGo_covered (hs : Covered r) (h : advanceGo active r = some (m,q)) : Covered q := by
  unfold advanceGo at h
  cases hpc : r.pc with
  | «at» p =>
    rw [hpc] at h
    have harmed : r.armed = values r.timeoutMap := by simp only [Reactor.armed, hpc]
    cases p with
    | idle => cases h
    | expiring rest =>
      cases rest with
      | nil =>
        cases h
        exact hs.goto harmed.symm (by rw [hpc]; rfl)
      | cons fd rest =>
        cases h
        exact closeConnection_covered hs hpc (Or.inl rfl)
    | exiting rest =>
      cases rest with
      | nil =>
        cases h
        exact hs.goto harmed.symm (by rw [hpc]; rfl)
      | cons fd rest =>
        cases h
        exact closeConnection_covered hs hpc (Or.inr ⟨rfl,rfl⟩)
  | inserted fd | purged p =>
    rw [hpc] at h
    cases h
    exact hs.goto (by simp only [Reactor.armed, hpc]) (by rw [hpc]; rfl)
  | erased fd p =>
    rw [hpc] at h
    cases h
    refine ⟨?_,hs.nonneg,hs.enabled⟩
    have hentries := hs.entries
    simp only [Reactor.armed, hpc, Pc.owed] at hentries
    simp only [Reactor.armed, Pc.owed]
    rw [values_filter r.timeoutMap (· != fd)]
    exact hentries
  | scanning now pos expired =>
    rw [hpc] at h
    cases h
    exact scanTimeouts_covered hs hpc
  | shutting left =>
    rw [hpc] at h
    cases left with
    | zero =>
      cases h
      exact covered_empty rfl rfl rfl
    | succ left =>
      cases h
      exact hs.goto (by simp only [Reactor.armed, hpc]) (by rw [hpc]; rfl)
  | counted | exited | done =>
    rw [hpc] at h
    cases h

theorem advance_covered {a : Act} (hs : Covered r) (hkeeps : a.KeepsEnabled)
    (h : advance active r a = some (m,q)) : Covered q := by
  cases a with
  | go => exact advanceGo_covered hs h
  | addConnection fd conn alive epollAdds =>
    obtain ⟨hidle,hq⟩ := Option.ite_none_right_eq_some.mp h
    cases hq
    exact addConnection_covered hs hidle hkeeps
  | now t =>
    simp only [advance] at h
    split at h
    · rename_i fd hpc
      obtain ⟨u,hu,hq⟩ := Option.map_eq_some_iff.mp h
      cases hq
      exact armTimeout_covered hs hpc hu
    · cases h
  | closeConnection fd =>
    obtain ⟨hidle,hq⟩ := Option.ite_none_right_eq_some.mp h
    cases hq
    exact closeConnection_covered hs hidle (Or.inr ⟨rfl,rfl⟩)
  | checkTimeouts now =>
    obtain ⟨hidle,hq⟩ := Option.ite_none_right_eq_some.mp h
    cases hq
    exact hs.goto (by simp only [Reactor.armed, hidle]) (by rw [hidle]; rfl)
  | updateActiveTime fd t =>
    obtain ⟨_,hq⟩ := Option.ite_none_right_eq_some.mp h
    obtain ⟨u,hu,hq⟩ := Option.map_eq_some_iff.mp hq
    cases hq
    exact setConnection_covered hs hu (fun _ henabled => henabled)
  | configure fd timeout enable =>
    obtain ⟨u,hu,hq⟩ := Option.map_eq_some_iff.mp h
    cases hq
    exact setConnection_covered hs hu (fun _ _ => hkeeps)
  | exit order =>
    obtain ⟨⟨hidle,_⟩,hq⟩ := Option.ite_none_right_eq_some.mp h
    cases hq
    exact hs.goto (by simp only [Reactor.armed, hidle]) (by rw [hidle]; rfl)
  | shutdown =>
    obtain ⟨hexited,hq⟩ := Option.ite_none_right_eq_some.mp h
    cases hq
    exact hs.goto (by simp only [Reactor.armed, hexited]) (by rw [hexited]; rfl)

end Steps

/-- The reactor is between two operations of its loop, or the loop has ended. -/
def Pc.between : Pc → Bool
  | .at .idle | .exited | .done => true
  | _ => false

theorem Covered.count {r : Reactor} (hs : Covered r) (hbetween : r.pc.between = true) (fd : ℤ) :
    (values r.timeoutMap).count fd = if fd ∈ r.connections then 1 else 0 := by
  have hkeys : (values r.timeoutMap).Perm r.connections.keys := by
    have hentries := hs.entries
    unfold Reactor.armed at hentries
    match hpc : r.pc, hbetween with
    | .at .idle, _ | .exited, _ | .done, _ => simpa [hpc, Pc.owed, Point.owed] using hentries
  rw [hkeys.count_eq, r.connections.keys_nodup.count]
  simp only [AList.mem_keys]

variable {ι : Type*} [DecidableEq ι]

theorem exec_covered {as : List (ι × Act)} {s : State ι} (henabled : ∀ a ∈ as, a.2.KeepsEnabled)
    (h : exec step start as = some s) (i : ι) : Covered (s.pc i) := by
  refine exec_invariant (P := fun _ a => a.2.KeepsEnabled) (I := fun s : State ι => ∀ i, Covered (s.pc i))
    ?_ ?_ (along_of_forall (fun _ a ha => henabled a ha)) h i
  · rintro s ⟨i,a⟩ t hs hkeeps hstep
    exact step_forall (K := fun _ _ q => Covered q) hs hstep
      (fun m q hq => advance_covered (hs i) hkeeps hq) (fun _ _ _ _ _ hx => hx)
  · exact fun i => covered_empty rfl rfl rfl

/-- While idle timeouts stay enabled, between the steps of the loop every connection has one entry
in the timeout map and nothing else has one. -/
theorem timeout_map_bijection {as : List (ι × Act)} {s : State ι}
    (henabled : ∀ a ∈ as, a.2.KeepsEnabled) (h : exec step start as = some s) {i : ι}
    (hbetween : (s.pc i).pc.between = true) (fd : ℤ) :
    ((s.pc i).timeoutMap.map Prod.snd).count fd = if fd ∈ (s.pc i).connections then 1 else 0 :=
  (exec_covered henabled h i).count hbetween fd

/-- Descriptor 5 times out and its number is used again; an entry that is due too early moves. -/
def reusedDescriptor : List (Fin 1 × Act) :=
  [(0,.addConnection 5 ⟨0,10,true⟩ true true),(0,.go),(0,.now 0),(0,.checkTimeouts 11),(0,.go),(0,.go),
    (0,.go),(0,.go),(0,.go),(0,.go),(0,.addConnection 5 ⟨12,10,true⟩ true true),(0,.go),(0,.now 12),
    (0,.updateActiveTime 5 20),(0,.checkTimeouts 22),(0,.go),(0,.go),(0,.go)]

theorem timeout_map_bijection_reused : ∃ s : State (Fin 1),
    (∀ a ∈ reusedDescriptor, a.2.KeepsEnabled) ∧ exec step start reusedDescriptor = some s ∧
      (s.pc 0).pc.between = true ∧ ∀ fd : ℤ,
        ((s.pc 0).timeoutMap.map Prod.snd).count fd = if fd ∈ (s.pc 0).connections then 1 else 0 := by
  have henabled : ∀ a ∈ reusedDescriptor, a.2.KeepsEnabled := by
    simp [reusedDescriptor, Act.KeepsEnabled]
  have hrun : (exec step start reusedDescriptor).map
      (fun s : State (Fin 1) => (s.pc 0).pc.between) = some true := by decide
  obtain ⟨s,hs,hpc⟩ := Option.map_eq_some_iff.mp hrun
  exact ⟨s,henabled,hs,hpc,fun fd => timeout_map_bijection henabled hs hpc fd⟩

end ModernTcp.SubReactor
