import ModernTcp.Net.TimeoutMap
import ModernTcp.Net.TimeoutScan

/-! # Exactness of the idle timeout

The entry of a connection is keyed by the time of its registration or by an earlier activity, and
is not moved when the connection becomes active again. So its key may be early, and `check_timeouts`
then puts it back; it is never later than the registration and the last activity allow, and no
connection that is idle for too long is overlooked.
-/
namespace ModernTcp.SubReactor
open Execution Multimap

/-- A reactor with the latest reading of `steady_clock` and, for every descriptor, the reading of
the add functor that registered it. -/
structure Timed where
  reactor : Reactor := {}
  active : ℤ := 0
  clock : ℤ
  addedAt : ℤ → ℤ := fun _ => 0

/-- `steady_clock` does not go back. A connection reads it when it is constructed. -/
def Act.clock (clock : ℤ) : Act → Option ℤ
  | .now t | .checkTimeouts t | .updateActiveTime _ t => if clock ≤ t then some t else none
  | .addConnection _ conn _ _ => some (max clock conn.lastActive)
  | .closeConnection _ | .configure _ _ _ | .exit _ | .shutdown | .go => some clock

def Timed.register (s : Timed) : Act → ℤ → ℤ
  | .now t =>
    match s.reactor.pc with
    | .counted fd => Function.update s.addedAt fd t
    | _ => s.addedAt
  | _ => s.addedAt

def timedStep (s : Timed) (a : Act) : Option Timed :=
  (a.clock s.clock).bind (fun c => (advance s.active s.reactor a).map (fun p =>
    { reactor := p.2, active := p.1, clock := c, addedAt := s.register a }))

/-- Every connection starts with its idle timeout enabled, and no setter changes it. -/
def Act.FixesTimeout : Act → Prop
  | .addConnection _ conn _ _ => conn.idleTimeoutEnabled = true
  | .configure _ _ _ => False
  | _ => True

/-- No entry lies after the time its connection may stay idle for. -/
structure Punctual (clock : ℤ) (addedAt : ℤ → ℤ) (r : Reactor) : Prop where
  sorted : Sorted r.timeoutMap
  past : ∀ fd conn, r.connections.lookup fd = some conn → conn.lastActive ≤ clock
  keyed : ∀ e ∈ r.timeoutMap, ∀ conn, r.connections.lookup e.2 = some conn →
    e.1 ≤ max conn.lastActive (addedAt e.2) + conn.idleTimeout

section Steps
variable {r q : Reactor} {clock : ℤ} {addedAt : ℤ → ℤ} {fd : ℤ}

theorem timedStep_eq_some {s t : Timed} {a : Act} (h : timedStep s a = some t) : ∃ c,
    a.clock s.clock = some c ∧ advance s.active s.reactor a = some (t.active,t.reactor) ∧
      t.clock = c ∧ t.addedAt = s.register a := by
  obtain ⟨c,hc,h⟩ := Option.bind_eq_some_iff.mp h
  obtain ⟨p,hp,rfl⟩ := Option.map_eq_some_iff.mp h
  exact ⟨c,hc,hp,rfl,rfl⟩

theorem Act.clock_le {a : Act} {c : ℤ} (h : a.clock clock = some c) : clock ≤ c := by
  cases a with
  | now | checkTimeouts | updateActiveTime =>
    obtain ⟨hle,hc⟩ := Option.ite_none_right_eq_some.mp h
    cases hc
    exact hle
  | addConnection =>
    cases h
    exact le_max_left _ _
  | closeConnection | configure | exit | shutdown | go =>
    cases h
    exact le_refl _

theorem Punctual.later {c : ℤ} (h : Punctual clock addedAt r) (hc : clock ≤ c) : Punctual c addedAt r :=
  ⟨h.sorted,fun fd conn hconn => le_trans (h.past fd conn hconn) hc,h.keyed⟩

theorem Punctual.mono (h : Punctual clock addedAt r) (hmap : q.timeoutMap.Sublist r.timeoutMap)
    (hconns : ∀ fd conn, q.connections.lookup fd = some conn → r.connections.lookup fd = some conn) :
    Punctual clock addedAt q :=
  ⟨h.sorted.sublist hmap,fun fd conn hconn => h.past fd conn (hconns fd conn hconn),
    fun e he conn hconn => h.keyed e (hmap.subset he) conn (hconns e.2 conn hconn)⟩

theorem lookup_of_erase {c : AList (fun _ : ℤ => Connection)} {x : ℤ} {conn : Connection}
    (h : (c.erase fd).lookup x = some conn) : c.lookup x = some conn := by
  by_cases hx : x = fd
  · rw [hx, AList.lookup_erase] at h
    cases h
  · rwa [AList.lookup_erase_ne hx] at h

theorem closeConnection_punctual {p : Point} (h : Punctual clock addedAt r) :
    Punctual clock addedAt (closeConnection r fd p) := by
  unfold closeConnection
  split_ifs with hneg hmem
  · exact h.mono (List.Sublist.refl _) (fun _ _ hc => hc)
  · exact h.mono (List.Sublist.refl _) (fun _ _ hc => lookup_of_erase hc)
  · exact h.mono (List.Sublist.refl _) (fun _ _ hc => hc)

/-- An idle reactor has no entry of a descriptor that is not registered. -/
theorem Covered.not_entry (hs : Covered r) (howed : r.armed = values r.timeoutMap) (hfd : fd ∉ r.connections) :
    ∀ e ∈ r.timeoutMap, e.2 ≠ fd := by
  rintro e he rfl
  refine hfd (AList.mem_keys.mpr (hs.entries.mem_iff.mp (List.mem_append_left _ ?_)))
  rw [howed]
  exact List.mem_map_of_mem he

theorem addConnection_punctual {conn : Connection} {alive epollAdds : Bool} (hs : Covered r)
    (hidle : r.pc = .at .idle) (h : Punctual clock addedAt r) :
    Punctual (max clock conn.lastActive) addedAt (addConnection r fd conn alive epollAdds) := by
  have hlater := h.later (le_max_left clock conn.lastActive)
  unfold addConnection
  split_ifs with hdead hthrows hmem
  · exact hlater
  · exact hlater
  · exact hlater
  · refine ⟨h.sorted,?_,?_⟩
    · intro x c hx
      by_cases hxfd : x = fd
      · rw [hxfd, AList.lookup_insert] at hx
        cases hx
        exact le_max_right _ _
      · rw [AList.lookup_insert_ne hxfd] at hx
        exact hlater.past x c hx
    · intro e he c hc
      have hne := hs.not_entry (by simp only [Reactor.armed, hidle]) hmem e he
      rw [AList.lookup_insert_ne hne] at hc
      exact h.keyed e he c hc

theorem armTimeout_punctual {t : ℤ} (hs : Covered r) (hpc : r.pc = .counted fd) (h : Punctual clock addedAt r)
    (hq : armTimeout r fd t = some q) : Punctual clock (Function.update addedAt fd t) q := by
  obtain ⟨conn,hconn,rfl⟩ := Option.map_eq_some_iff.mp hq
  refine ⟨h.sorted.emplace _ _,h.past,?_⟩
  intro e he c hc
  rcases mem_emplace.mp he with rfl | hold
  · rw [hconn] at hc
    cases hc
    rw [Function.update_self]
    have hle := le_max_right conn.lastActive t
    dsimp only
    omega
  · have hne : e.2 ≠ fd := by
      have hentries := hs.entries
      simp only [Reactor.armed, hpc, Pc.owed] at hentries
      have hnodup := hentries.nodup_iff.mpr r.connections.keys_nodup
      intro heq
      exact (List.nodup_append.mp hnodup).2.2 e.2 (List.mem_map_of_mem hold) fd List.mem_cons_self heq
    rw [Function.update_of_ne hne]
    exact h.keyed e hold c hc

theorem scanTimeouts_punctual {now : ℤ} {pos : ℕ} {expired : List ℤ} (h : Punctual clock addedAt r) :
    Punctual clock addedAt (scanTimeouts r now pos expired) := by
  have herase : ∀ pc : Pc, Punctual clock addedAt { r with timeoutMap := r.timeoutMap.eraseIdx pos, pc := pc } :=
    fun pc => h.mono (List.eraseIdx_sublist _ _) (fun _ _ hc => hc)
  have hleave : Punctual clock addedAt { r with pc := .at (.expiring expired) } :=
    h.mono (List.Sublist.refl _) (fun _ _ hc => hc)
  unfold scanTimeouts
  split
  · exact hleave
  · rename_i key fd hfirst
    split_ifs with hdue
    · dsimp only
      cases hconn : r.connections.lookup fd with
      | none => exact herase _
      | some conn =>
        dsimp only
        split_ifs with hdisabled hidle
        · exact herase _
        · exact herase _
        · refine ⟨(herase (.at .idle)).sorted.emplace _ _,h.past,?_⟩
          intro e he c hc
          rcases mem_emplace.mp he with rfl | he
          · rw [hconn] at hc
            cases hc
            have hle := le_max_left conn.lastActive (addedAt fd)
            dsimp only
            omega
          · exact (herase (.at .idle)).keyed e he c hc
    · exact hleave

theorem updateActiveTime_punctual {t : ℤ} (h : Punctual clock addedAt r) (ht : clock ≤ t)
    (hq : setConnection r fd (fun conn => { conn with lastActive := t }) = some q) : Punctual t addedAt q := by
  obtain ⟨conn,hconn,rfl⟩ := setConnection_eq_some.mp hq
  refine ⟨h.sorted,?_,?_⟩
  · intro x c hx
    by_cases hxfd : x = fd
    · rw [hxfd, AList.lookup_insert] at hx
      cases hx
      exact le_refl t
    · rw [AList.lookup_insert_ne hxfd] at hx
      exact le_trans (h.past x c hx) ht
  · intro e he c hc
    by_cases hefd : e.2 = fd
    · have hkey := h.keyed e he conn (by rw [hefd]; exact hconn)
      have hmono := max_le_max_right (addedAt e.2) (le_trans (h.past fd conn hconn) ht)
      rw [hefd, AList.lookup_insert] at hc
      cases hc
      dsimp only
      omega
    · rw [AList.lookup_insert_ne hefd] at hc
      exact h.keyed e he c hc

variable {active m : ℤ}

theorem advanceGo_punctual (h : Punctual clock addedAt r) (hq : advanceGo active r = some (m,q)) :
    Punctual clock addedAt q := by
  have hgoto : ∀ pc : Pc, Punctual clock addedAt { r with pc := pc } :=
    fun pc => h.mono (List.Sublist.refl _) (fun _ _ hc => hc)
  unfold advanceGo at hq
  split at hq
  · cases hq
    exact hgoto _
  · cases hq
    exact h.mono List.filter_sublist (fun _ _ hc => hc)
  · cases hq
    exact hgoto _
  · cases hq
    exact scanTimeouts_punctual h
  · cases hq
    exact closeConnection_punctual h
  · cases hq
    exact hgoto _
  · cases hq
    exact closeConnection_punctual h
  · cases hq
    exact hgoto _
  · cases hq
    exact hgoto _
  · cases hq
    exact h.mono (List.nil_sublist _) (fun _ _ hc => by cases hc)
  all_goals cases hq

end Steps

/-- What holds whenever the reactor takes a step. -/
structure Timely (s : Timed) : Prop where
  covered : Covered s.reactor
  punctual : Punctual s.clock s.addedAt s.reactor

theorem Act.FixesTimeout.keepsEnabled {a : Act} (h : a.FixesTimeout) : a.KeepsEnabled := by
  cases a with
  | configure => exact h.elim
  | addConnection => exact h
  | _ => trivial

theorem timedStep_timely {s t : Timed} {a : Act} (hs : Timely s) (hfixed : a.FixesTimeout)
    (h : timedStep s a = some t) : Timely t := by
  obtain ⟨c,hc,hadvance,rfl,hadded⟩ := timedStep_eq_some h
  refine ⟨advance_covered hs.covered hfixed.keepsEnabled hadvance,?_⟩
  have hlater := hs.punctual.later (Act.clock_le hc)
  rw [hadded]
  cases a with
  | go => exact advanceGo_punctual hlater hadvance
  | addConnection fd conn alive epollAdds =>
    obtain ⟨hidle,hq⟩ := Option.ite_none_right_eq_some.mp hadvance
    have hclock : max s.clock conn.lastActive = t.clock := Option.some.inj hc
    obtain ⟨-,hq⟩ := Prod.mk.inj (Option.some.inj hq)
    rw [← hq, ← hclock]
    exact addConnection_punctual hs.covered hidle hs.punctual
  | now time =>
    simp only [advance] at hadvance
    split at hadvance
    · rename_i fd hpc
      obtain ⟨u,hu,hq⟩ := Option.map_eq_some_iff.mp hadvance
      obtain ⟨-,rfl⟩ := Prod.mk.inj hq
      have hregister : s.register (.now time) = Function.update s.addedAt fd time := by
        simp only [Timed.register, hpc]
      rw [hregister]
      exact armTimeout_punctual hs.covered hpc hlater hu
    · cases hadvance
  | closeConnection fd =>
    obtain ⟨-,hq⟩ := Option.ite_none_right_eq_some.mp hadvance
    obtain ⟨-,hq⟩ := Prod.mk.inj (Option.some.inj hq)
    rw [← hq]
    exact closeConnection_punctual hlater
  | updateActiveTime fd time =>
    obtain ⟨-,hq⟩ := Option.ite_none_right_eq_some.mp hadvance
    obtain ⟨u,hu,hq⟩ := Option.map_eq_some_iff.mp hq
    obtain ⟨-,rfl⟩ := Prod.mk.inj hq
    obtain ⟨hle,hclock⟩ := Option.ite_none_right_eq_some.mp hc
    rw [← Option.some.inj hclock]
    exact updateActiveTime_punctual hs.punctual hle hu
  | configure => exact hfixed.elim
  | checkTimeouts | exit | shutdown =>
    obtain ⟨-,hq⟩ := Option.ite_none_right_eq_some.mp hadvance
    obtain ⟨-,hq⟩ := Prod.mk.inj (Option.some.inj hq)
    rw [← hq]
    exact hlater.mono (List.Sublist.refl _) (fun _ _ hconn => hconn)

theorem start_timely (clock : ℤ) : Timely { clock := clock } := by
  refine ⟨covered_empty rfl rfl rfl,List.Pairwise.nil,?_,?_⟩
  · intro fd conn h
    cases h
  · intro e he
    cases he

/-- `now - last_active > idle_timeout`, the test of `check_timeouts`. -/
def Connection.idleAt (conn : Connection) (now : ℤ) : Prop := now - conn.lastActive > conn.idleTimeout

/-- In front of the map, or past everything that is due. -/
def Swept (now : ℤ) (m : List (ℤ × ℤ)) (pos : ℕ) : Prop :=
  pos = 0 ∨ ((∀ e ∈ m, now ≤ e.1) ∧ ∀ e, m[pos]? = some e → now < e.1)

/-- Inside a call of `check_timeouts` that began with the connections `before`. -/
structure Checking (before : AList (fun _ : ℤ => Connection)) (now : ℤ) (r : Reactor) : Prop where
  kept : ∀ fd conn, r.connections.lookup fd = some conn → before.lookup fd = some conn
  closed : ∀ fd conn, before.lookup fd = some conn → fd ∉ r.connections ∨ fd ∈ r.pc.owed → conn.idleAt now
  scanned : match r.pc with
    | .scanning now' pos _ => now' = now ∧ Swept now r.timeoutMap pos
    | .at .idle | .at (.expiring _) | .erased _ (.expiring _) | .purged (.expiring _) =>
      ∀ e ∈ r.timeoutMap, now ≤ e.1
    | _ => False

section Checking
variable {r q : Reactor} {before : AList (fun _ : ℤ => Connection)} {now : ℤ} {pos : ℕ} {expired : List ℤ}

theorem swept_emplace {rest : List (ℤ × ℤ)} {next : ℤ} (fd : ℤ) (hsorted : Sorted rest) (hnext : now ≤ next) :
    Swept now (emplace rest next fd) (afterEmplace rest next 0) := by
  rcases afterEmplace_front rest fd hnext with ⟨hzero,-⟩ | ⟨hmoved,hfront,hpast⟩
  · exact Or.inl hzero
  · refine Or.inr ⟨?_,by rwa [hmoved]⟩
    have hnew := hsorted.emplace next fd
    rw [hfront] at hnew ⊢
    intro e he
    exact le_trans hnext (hnew.head_le he)

theorem scanTimeouts_connections (r : Reactor) (now : ℤ) (pos : ℕ) (expired : List ℤ) :
    (scanTimeouts r now pos expired).connections = r.connections := by
  unfold scanTimeouts
  split
  · rfl
  · split_ifs
    · dsimp only
      split
      · rfl
      · split_ifs <;> rfl
    · rfl

/-- Only idle connections go to `timeouts_fds`. -/
theorem scanTimeouts_owed {fd : ℤ} (h : fd ∈ (scanTimeouts r now pos expired).pc.owed) :
    fd ∈ expired ∨ ∃ conn, r.connections.lookup fd = some conn ∧ conn.idleAt now := by
  unfold scanTimeouts at h
  split at h
  · exact Or.inl h
  · rename_i key fd' hfirst
    split_ifs at h with hdue
    · dsimp only at h
      cases hconn : r.connections.lookup fd' with
      | none =>
        rw [hconn] at h
        exact Or.inl h
      | some conn =>
        rw [hconn] at h
        dsimp only at h
        split_ifs at h with hdisabled hidle
        · exact Or.inl h
        · rcases List.mem_append.mp h with hold | hnew
          · exact Or.inl hold
          · rw [List.mem_singleton.mp hnew]
            exact Or.inr ⟨conn,hconn,hidle⟩
        · exact Or.inl h
    · exact Or.inl h

/-- The loop is left with nothing in the map that is due before `now`. -/
theorem scanTimeouts_swept (expired : List ℤ) (hsorted : Sorted r.timeoutMap) (hswept : Swept now r.timeoutMap pos) :
    (∃ pos' expired', (scanTimeouts r now pos expired).pc = .scanning now pos' expired' ∧
      Swept now (scanTimeouts r now pos expired).timeoutMap pos') ∨
    ∃ expired', (scanTimeouts r now pos expired).pc = .at (.expiring expired') ∧
      ∀ e ∈ (scanTimeouts r now pos expired).timeoutMap, now ≤ e.1 := by
  rcases hswept with rfl | ⟨hall,hpast⟩
  · cases hmap : r.timeoutMap with
    | nil =>
      rw [scanTimeouts_not_due (by simp [hmap])]
      refine Or.inr ⟨expired,rfl,?_⟩
      simp [hmap]
    | cons e rest =>
      have hrest : Sorted rest := (hmap ▸ hsorted).sublist (List.sublist_cons_self e rest)
      by_cases hdue : e.1 ≤ now
      · refine Or.inl ?_
        rcases scanTimeouts_due expired hmap hdue with ⟨-,heq⟩ | ⟨-,⟨expired',heq⟩ | ⟨next,hnext,heq⟩⟩
        · rw [heq]
          exact ⟨_,_,rfl,swept_emplace e.2 hrest (le_refl now)⟩
        · rw [heq]
          exact ⟨_,_,rfl,Or.inl rfl⟩
        · rw [heq]
          exact ⟨_,_,rfl,swept_emplace e.2 hrest (le_of_lt hnext)⟩
      · have hfirst : ∀ x, r.timeoutMap[0]? = some x → now < x.1 := by
          rw [hmap]
          rintro _ ⟨⟩
          exact not_le.mp hdue
        rw [scanTimeouts_not_due hfirst]
        refine Or.inr ⟨expired,rfl,?_⟩
        rw [hmap] at hsorted ⊢
        exact fun x hx => le_trans (le_of_lt (not_le.mp hdue)) (hsorted.head_le hx)
  · rw [scanTimeouts_not_due hpast]
    exact Or.inr ⟨expired,rfl,hall⟩

theorem scanTimeouts_checking (hsorted : Sorted r.timeoutMap) (h : Checking before now r)
    (hpc : r.pc = .scanning now pos expired) : Checking before now (scanTimeouts r now pos expired) := by
  obtain ⟨hkept,hclosed,hscanned⟩ := h
  rw [hpc] at hscanned hclosed
  have hconns := scanTimeouts_connections r now pos expired
  refine ⟨by rwa [hconns],?_,?_⟩
  · intro fd conn hconn hgone
    rcases hgone with hgone | howed
    · rw [hconns] at hgone
      exact hclosed fd conn hconn (Or.inl hgone)
    · rcases scanTimeouts_owed howed with hold | ⟨c,hc,hidle⟩
      · exact hclosed fd conn hconn (Or.inr hold)
      · have hsame := hkept fd c hc
        rw [hconn] at hsame
        cases hsame
        exact hidle
  · rcases scanTimeouts_swept expired hsorted hscanned.2 with ⟨pos',_,hpc',hswept⟩ | ⟨_,hpc',hall⟩
    · rw [hpc']
      exact ⟨rfl,hswept⟩
    · rw [hpc']
      exact hall

theorem closeConnection_checking {fd : ℤ} {rest : List ℤ} (h : Checking before now r)
    (hpc : r.pc = .at (.expiring (fd :: rest))) : Checking before now (closeConnection r fd (.expiring rest)) := by
  obtain ⟨hkept,hclosed,hscanned⟩ := h
  rw [hpc] at hscanned hclosed
  have hskip : Checking before now { r with pc := .at (.expiring rest) } := by
    refine ⟨hkept,?_,hscanned⟩
    intro x conn hconn hgone
    exact hclosed x conn hconn (hgone.imp_right (List.mem_cons_of_mem fd))
  unfold closeConnection
  split_ifs with hneg hmem
  · exact hskip
  · refine ⟨fun x conn hx => hkept x conn (lookup_of_erase hx),?_,hscanned⟩
    intro x conn hconn hgone
    by_cases hx : x = fd
    · exact hclosed x conn hconn (Or.inr (by rw [hx]; exact List.mem_cons_self))
    · refine hclosed x conn hconn (hgone.imp ?_ (List.mem_cons_of_mem fd))
      exact fun hgone hmem => hgone (AList.mem_erase.mpr ⟨hx,hmem⟩)
  · exact hskip

theorem advanceGo_checking {active m : ℤ} (hsorted : Sorted r.timeoutMap) (h : Checking before now r)
    (hq : advanceGo active r = some (m,q)) : Checking before now q := by
  have hscanned := h.scanned
  unfold advanceGo at hq
  cases hpc : r.pc with
  | scanning now' pos expired =>
    rw [hpc] at hq hscanned
    cases hq
    obtain ⟨rfl,-⟩ := hscanned
    exact scanTimeouts_checking hsorted h hpc
  | «at» p =>
    rw [hpc] at hq hscanned
    cases p with
    | idle => cases hq
    | exiting => exact hscanned.elim
    | expiring rest =>
      cases rest with
      | nil =>
        cases hq
        refine ⟨h.kept,?_,hscanned⟩
        intro fd conn hconn hgone
        refine h.closed fd conn hconn ?_
        rwa [hpc]
      | cons fd rest =>
        cases hq
        exact closeConnection_checking h hpc
  | erased fd p =>
    rw [hpc] at hq hscanned
    cases hq
    have hclosed := h.closed
    rw [hpc] at hclosed
    cases p with
    | expiring rest => exact ⟨h.kept,hclosed,fun e he => hscanned e (List.mem_filter.mp he).1⟩
    | idle | exiting => exact hscanned.elim
  | purged p =>
    rw [hpc] at hq hscanned
    cases hq
    have hclosed := h.closed
    rw [hpc] at hclosed
    cases p with
    | expiring rest => exact ⟨h.kept,hclosed,hscanned⟩
    | idle | exiting => exact hscanned.elim
  | inserted | counted | exited | shutting | done =>
    rw [hpc] at hscanned
    exact hscanned.elim

/-- The state in which `check_timeouts` returns. -/
theorem Checking.exact {addedAt : ℤ → ℤ} {clock : ℤ} (h : Checking before now r) (hcovered : Covered r)
    (hpunctual : Punctual clock addedAt r) (hidle : r.pc = .at .idle) {fd : ℤ} {conn : Connection}
    (hconn : r.connections.lookup fd = some conn) :
    ¬ (conn.idleAt now ∧ now - addedAt fd > conn.idleTimeout) := by
  have hentries := hcovered.entries
  simp only [Reactor.armed, hidle, Pc.owed, Point.owed, List.append_nil] at hentries
  obtain ⟨e,he,rfl⟩ := List.mem_map.mp (hentries.mem_iff.mpr (AList.mem_keys.mp (mem_of_lookup hconn)))
  have hscanned := h.scanned
  rw [hidle] at hscanned
  have hlate := hscanned e he
  have hkey := hpunctual.keyed e he conn hconn
  rintro ⟨hidleAt,helapsed⟩
  unfold Connection.idleAt at hidleAt
  omega

end Checking

/-- `check_timeouts` closes only connections that are idle for longer than their timeout, and leaves
none that has been so, and registered, for longer than that. -/
theorem check_timeouts_exact {as : List Act} {clock₀ now : ℤ} {n : ℕ} {s u : Timed}
    (hfixed : ∀ a ∈ as, a.FixesTimeout) (hrun : exec timedStep { clock := clock₀ } as = some s)
    (hcheck : exec timedStep s (.checkTimeouts now :: List.replicate n .go) = some u)
    (hreturns : u.reactor.pc = .at .idle) :
    (∀ fd conn, s.reactor.connections.lookup fd = some conn → fd ∉ u.reactor.connections →
      now - conn.lastActive > conn.idleTimeout) ∧
    ∀ fd conn, u.reactor.connections.lookup fd = some conn →
      ¬ (now - conn.lastActive > conn.idleTimeout ∧ now - u.addedAt fd > conn.idleTimeout) := by
  have hs : Timely s := exec_invariant (P := fun _ a => a.FixesTimeout)
    (fun _ _ _ ht ha hstep => timedStep_timely ht ha hstep) (start_timely clock₀)
    (along_of_forall (fun _ => hfixed)) hrun
  obtain ⟨t,ht,hgo⟩ := exec_cons_eq_some.mp hcheck
  have htimely : Timely t := timedStep_timely (a := .checkTimeouts now) hs trivial ht
  have hchecking : Checking s.reactor.connections now t.reactor := by
    obtain ⟨c,-,hadvance,-,-⟩ := timedStep_eq_some ht
    obtain ⟨-,hq⟩ := Option.ite_none_right_eq_some.mp hadvance
    obtain ⟨-,hq⟩ := Prod.mk.inj (Option.some.inj hq)
    rw [← hq]
    refine ⟨fun _ _ hconn => hconn,?_,rfl,Or.inl rfl⟩
    rintro fd conn hconn (hgone | howed)
    · exact absurd (mem_of_lookup hconn) hgone
    · cases howed
  have hu : Timely u ∧ Checking s.reactor.connections now u.reactor := by
    refine exec_invariant (P := fun _ a => a = Act.go)
      (I := fun v => Timely v ∧ Checking s.reactor.connections now v.reactor) ?_ ⟨htimely,hchecking⟩
      (along_of_forall (fun _ _ ha => List.eq_of_mem_replicate ha)) hgo
    rintro v _ w ⟨hv,hc⟩ rfl hstep
    obtain ⟨_,-,hadvance,-,-⟩ := timedStep_eq_some hstep
    exact ⟨timedStep_timely (a := .go) hv trivial hstep,advanceGo_checking hv.punctual.sorted hc hadvance⟩
  refine ⟨?_,?_⟩
  · intro fd conn hconn hgone
    exact hu.2.closed fd conn hconn (Or.inl hgone)
  · intro fd conn hconn
    exact hu.2.exact hu.1.covered hu.1.punctual hreturns hconn

/-- Descriptor 5 is idle, descriptor 6 was active at 8 and keeps its early entry. -/
def twoClients : List Act :=
  [.addConnection 5 ⟨0,10,true⟩ true true,.go,.now 1,.addConnection 6 ⟨1,10,true⟩ true true,.go,.now 2,
    .updateActiveTime 6 8]

theorem check_timeouts_exact_two : ∃ s u : Timed, exec timedStep { clock := 0 } twoClients = some s ∧
    exec timedStep s (.checkTimeouts 12 :: List.replicate 7 .go) = some u ∧
    s.reactor.connections.keys = [6,5] ∧ u.reactor.connections.keys = [6] ∧
    (∀ fd conn, s.reactor.connections.lookup fd = some conn → fd ∉ u.reactor.connections →
      12 - conn.lastActive > conn.idleTimeout) ∧
    ∀ fd conn, u.reactor.connections.lookup fd = some conn →
      ¬ (12 - conn.lastActive > conn.idleTimeout ∧ 12 - u.addedAt fd > conn.idleTimeout) := by
  have hfixed : ∀ a ∈ twoClients, a.FixesTimeout := by simp [twoClients, Act.FixesTimeout]
  have hrun : ((exec timedStep { clock := 0 } twoClients).bind (fun s =>
      (exec timedStep s (.checkTimeouts 12 :: List.replicate 7 .go)).map (fun u =>
        (s.reactor.connections.keys,u.reactor.connections.keys,u.reactor.pc)))) =
      some ([6,5],[6],.at .idle) := by
    decide
  obtain ⟨s,hs,hrun⟩ := Option.bind_eq_some_iff.mp hrun
  obtain ⟨u,hu,hshape⟩ := Option.map_eq_some_iff.mp hrun
  simp only [Prod.mk.injEq] at hshape
  obtain ⟨hbefore,hafter,hpc⟩ := hshape
  exact ⟨s,u,hs,hu,hbefore,hafter,check_timeouts_exact hfixed hs hu hpc⟩

end ModernTcp.SubReactor
