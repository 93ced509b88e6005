import ModernTcp.Net.ServerDescriptors
import ModernTcp.Net.ServerFrame

/-! # The map of a reactor

What a reactor may rely on: its entries and functors are connections in its hands, and an
entry is alive unless the reactor is going to look at its number before it waits again.
-/
namespace ModernTcp.Server
open Descriptors

section Invariant
variable {R : ℕ}

/-- The entry whose handler has just been called. -/
def Pc.busy : Pc → Option (ℕ × ℕ)
  | .handled fd id _ _ => some (fd,id)
  | _ => none

/-- The numbers the events of a batch are about. -/
def ready : List Event → List ℕ
  | [] => []
  | .ready fd :: batch => fd :: ready batch
  | .wake :: batch | .timer :: batch => ready batch

/-- The numbers the reactor is still going to look at before it waits again. -/
def Pc.visits : Pc → List ℕ
  | .loop expired batch _ | .erased _ _ expired batch _ | .closing expired batch _ => expired ++ ready batch
  | .handled fd _ batch _ => fd :: ready batch
  | .waiting | .functors _ | .inserted _ => []

/-- The connection that has just left the map. -/
def Pc.leaving : Pc → Option ℕ
  | .erased _ id _ _ _ => some id
  | _ => none

structure ReactorOk (m : Shared R) (r : Fin R) (l : Reactor) : Prop where
  entries : ∀ e ∈ l.connections, Known m e.1 e.2 (.registered r)
  keys : (l.connections.map Prod.fst).Nodup
  alive : ∀ e ∈ l.connections, m.running e.2 = true ∨ e.1 ∈ l.pc.visits
  busy : ∀ e ∈ l.pc.busy, e ∈ l.connections
  leaving : ∀ id ∈ l.pc.leaving, id < m.desc.count ∧ m.stage id = .released
  queued : ∀ fd id, .add fd id ∈ l.pc.functorList ++ m.queue r → Known m fd id (.queued r)
  distinct : (adds (l.pc.functorList ++ m.queue r)).Nodup
  interest : ∀ j ∈ l.interest, Settled m j

theorem ReactorOk.keeps {who : Thread R} {m m' : Shared R} (hk : Keeps who m m') {r : Fin R} {l : Reactor}
    (h : ReactorOk m r l) (hne : .reactor r ≠ who) : ReactorOk m' r l := by
  obtain ⟨fs,hqueue,hnew,hnodup,hfresh⟩ := hk.queue r hne
  refine ⟨?_,h.keys,?_,h.busy,?_,?_,?_,?_⟩
  · intro e he
    exact (h.entries e he).keeps hk hne
  · intro e he
    obtain ⟨hlt,-,hst⟩ := h.entries e he
    rw [hk.running e.2 hlt r hst hne]
    exact h.alive e he
  · intro id hid
    obtain ⟨hlt,hrel⟩ := h.leaving id hid
    exact ⟨lt_of_lt_of_le hlt hk.count,hk.released id hlt hrel⟩
  · intro fd id hmem
    rw [hqueue, ← List.append_assoc] at hmem
    rcases List.mem_append.mp hmem with hmem | hmem
    · exact (h.queued fd id hmem).keeps hk hne
    · exact hnew fd id hmem
  · rw [hqueue, ← List.append_assoc, adds_append]
    refine List.nodup_append.mpr ⟨h.distinct,hnodup,?_⟩
    rintro a ha b hb rfl
    obtain ⟨fd,hfd⟩ := mem_adds.mp ha
    exact hfresh a hb (h.queued fd a hfd).2.2
  · intro j hj
    have hset := h.interest j hj
    exact hk.settled j hset.1 hset

theorem find_some {l : Reactor} {fd id : ℕ} (h : l.find fd = some id) : (fd,id) ∈ l.connections := by
  obtain ⟨e,he,rfl⟩ := Option.map_eq_some_iff.mp h
  have hkey : e.1 = fd := by simpa using List.find?_some he
  rw [← hkey]
  exact List.mem_of_find?_eq_some he

theorem find_none {l : Reactor} {fd : ℕ} (h : l.find fd = none) : ∀ e ∈ l.connections, e.1 ≠ fd := by
  intro e he
  have hnone := List.find?_eq_none.mp (Option.map_eq_none_iff.mp h) e he
  simpa using hnone

namespace ReactorOk
variable {m : Shared R} {r : Fin R} {l : Reactor}

theorem all_alive (h : ReactorOk m r l) (hvisits : l.pc.visits = []) {e : ℕ × ℕ} (he : e ∈ l.connections) :
    m.running e.2 = true := by
  refine (h.alive e he).resolve_right (fun hv => ?_)
  rw [hvisits] at hv
  cases hv

theorem goto (h : ReactorOk m r l) {pc : Pc} (hpc : pc.busy = none) (hleaving : pc.leaving = none)
    (hsub : pc.functorList <:+ l.pc.functorList)
    (hvisits : ∀ e ∈ l.connections, e.1 ∈ l.pc.visits → m.running e.2 = true ∨ e.1 ∈ pc.visits) :
    ReactorOk m r (l.goto pc) := by
  obtain ⟨pre,hpre⟩ := hsub
  refine ⟨h.entries,h.keys,fun e he => (h.alive e he).elim Or.inl (hvisits e he),?_,?_,?_,?_,h.interest⟩
  · intro e he
    simp [Reactor.goto, hpc] at he
  · intro id hid
    simp [Reactor.goto, hleaving] at hid
  · intro fd id hmem
    refine h.queued fd id ?_
    rw [← hpre, List.append_assoc]
    exact List.mem_append_right _ hmem
  · have hd := h.distinct
    rw [← hpre, List.append_assoc, adds_append] at hd
    exact (List.nodup_append.mp hd).2.1

/-- A change of the memory that the reactor does not notice. -/
theorem of_eq (h : ReactorOk m r l) {m' : Shared R} (hdesc : m'.desc = m.desc) (hstage : m'.stage = m.stage)
    (hqueue : m'.queue r = m.queue r) : ReactorOk m' r l := by
  have hrun : m'.running = m.running := by
    funext i
    unfold Shared.running
    rw [hdesc]
  refine ⟨?_,h.keys,?_,h.busy,?_,?_,?_,?_⟩
  · simpa only [Known, hdesc, hstage] using h.entries
  · simpa only [hrun] using h.alive
  · simpa only [hdesc, hstage] using h.leaving
  · simpa only [Known, hdesc, hstage, hqueue] using h.queued
  · simpa only [hqueue] using h.distinct
  · simpa only [Settled, hdesc, hstage] using h.interest

theorem entry_eq (h : ReactorOk m r l) {e e' : ℕ × ℕ} (he : e ∈ l.connections) (he' : e' ∈ l.connections)
    (hid : e.2 = e'.2) : e = e' := by
  have hfd := (h.entries e he).2.1
  have hfd' := (h.entries e' he').2.1
  rw [hid] at hfd
  exact Prod.ext (hfd.symm.trans hfd') hid

theorem entry_key (h : ReactorOk m r l) {e e' : ℕ × ℕ} (he : e ∈ l.connections) (he' : e' ∈ l.connections)
    (hkey : e.1 = e'.1) : e = e' :=
  List.inj_on_of_nodup_map h.keys he he' hkey

/-- `close_connection` takes the entry out, and with it the only one that may be dead. -/
theorem closeConnection (h : ReactorOk m r l) {fd : ℕ} {expired : List ℕ} {batch : List Event}
    (hvisits : ∀ x ∈ l.pc.visits, x = fd ∨ x ∈ expired ++ ready batch)
    (hfs : l.pc.functorList = []) (needPending : Bool) :
    Keeps (.reactor r) m (l.closeConnection m fd expired batch needPending).1 ∧
      ReactorOk (l.closeConnection m fd expired batch needPending).1 r
        (l.closeConnection m fd expired batch needPending).2 := by
  unfold Reactor.closeConnection
  cases hfind : l.find fd with
  | none =>
    refine ⟨Keeps.of_eq rfl rfl (fun _ _ => rfl),h.goto rfl rfl List.nil_suffix ?_⟩
    intro e he hv
    exact Or.inr ((hvisits e.1 hv).resolve_left (find_none hfind e he))
  | some id =>
    have hmem := find_some hfind
    obtain ⟨hlt,hfd,hst⟩ := h.entries _ hmem
    have hother : ∀ e ∈ l.connections.filter (fun e => e.1 ≠ fd), e ∈ l.connections ∧ e.2 ≠ id := by
      intro e he
      obtain ⟨hin,hkey⟩ := List.mem_filter.mp he
      refine ⟨hin,fun heq => ?_⟩
      have hsame := h.entry_eq hin hmem heq
      simp [hsame] at hkey
    refine ⟨setStage_keeps (by rw [hst]; rfl) (by simp [hst]) (fun _ _ => rfl),?_,?_,?_,?_,?_,?_,?_,?_⟩
    · intro e he
      obtain ⟨hin,hne⟩ := hother e he
      exact (h.entries e hin).setStage hne
    · exact h.keys.sublist (List.filter_sublist.map _)
    · intro e he
      obtain ⟨hin,-⟩ := hother e he
      refine (h.alive e hin).imp_right (fun hv => (hvisits e.1 hv).resolve_left ?_)
      simpa using (List.mem_filter.mp he).2
    · intro e he
      simp [Pc.busy] at he
    · intro i hi
      obtain rfl : id = i := by simpa [Pc.leaving] using hi
      exact ⟨hlt,by simp [Shared.setStage]⟩
    · intro fd' i hmem'
      have hq := h.queued fd' i (by rw [hfs]; exact hmem')
      refine hq.setStage (fun he => ?_)
      have hst' := hq.2.2
      rw [he, hst] at hst'
      cases hst'
    · have hd := h.distinct
      rw [hfs] at hd
      exact hd
    · intro j hj
      exact (h.interest j hj).setStage (Or.inl rfl)

/-- The head functor is done, its connection is at a new stage, and nothing else has changed. -/
theorem pop (h : ReactorOk m r l) {fd id : ℕ} {fs : List Functor} (hpc : l.pc = .functors (.add fd id :: fs))
    {m' : Shared R} (hknown : ∀ fd' i stage, Known m fd' i stage → i ≠ id → Known m' fd' i stage)
    (hrun : ∀ i < m.desc.count, i ≠ id → m'.running i = m.running i)
    (hset : ∀ j, Settled m j → Settled m' j) (hqueue : m'.queue = m.queue) :
    ReactorOk m' r (l.goto (.functors fs)) := by
  have hlist : l.pc.functorList = .add fd id :: fs := by
    rw [hpc]
    rfl
  have hst := (h.queued fd id (by rw [hlist]; simp)).2.2
  have hd := h.distinct
  rw [hlist, List.cons_append, adds] at hd
  have hnew : ∀ e ∈ l.connections, e.2 ≠ id := by
    intro e he heq
    have hreg := (h.entries e he).2.2
    rw [heq, hst] at hreg
    cases hreg
  refine ⟨?_,h.keys,?_,?_,?_,?_,?_,fun j hj => hset j (h.interest j hj)⟩
  · intro e he
    exact hknown _ _ _ (h.entries e he) (hnew e he)
  · intro e he
    left
    rw [hrun e.2 (h.entries e he).1 (hnew e he)]
    exact h.all_alive (by rw [hpc]; rfl) he
  · intro e he
    simp [Reactor.goto, Pc.busy] at he
  · intro i hi
    simp [Reactor.goto, Pc.leaving] at hi
  · intro fd' i hmem
    have hmem' : .add fd' i ∈ fs ++ m.queue r := by simpa [Reactor.goto, Pc.functorList, hqueue] using hmem
    refine hknown _ _ _ (h.queued fd' i (by rw [hlist]; exact List.mem_cons_of_mem _ hmem')) (fun heq => ?_)
    subst heq
    exact (List.nodup_cons.mp hd).1 (mem_adds.mpr ⟨fd',hmem'⟩)
  · simpa [Reactor.goto, Pc.functorList, hqueue] using (List.nodup_cons.mp hd).2

theorem watch (h : ReactorOk m r l) {j : ℕ} (hj : Settled m j) :
    ReactorOk m r { l with interest := j :: l.interest } := by
  refine ⟨h.entries,h.keys,h.alive,h.busy,h.leaving,h.queued,h.distinct,?_⟩
  intro i hi
  rcases List.mem_cons.mp hi with rfl | hi
  · exact hj
  · exact h.interest i hi

theorem insert (h : ReactorOk m r l) {fd id : ℕ} {fs : List Functor} (hpc : l.pc = .functors fs)
    (hk : Known m fd id (.registered r)) (hrun : m.running id = true) (hfind : l.find fd = none) :
    ReactorOk m r { l with connections := l.connections ++ [(fd,id)], pc := .inserted fs } := by
  refine ⟨?_,?_,?_,?_,?_,?_,?_,h.interest⟩
  · intro e he
    rcases List.mem_append.mp he with he | he
    · exact h.entries e he
    · rw [List.mem_singleton.mp he]
      exact hk
  · rw [List.map_append, List.map_singleton]
    refine List.nodup_append.mpr ⟨h.keys,List.nodup_singleton _,?_⟩
    intro a ha b hb hab
    obtain ⟨e,he,rfl⟩ := List.mem_map.mp ha
    exact find_none hfind e he (hab.trans (List.mem_singleton.mp hb))
  · intro e he
    left
    rcases List.mem_append.mp he with he | he
    · exact h.all_alive (by rw [hpc]; rfl) he
    · rw [List.mem_singleton.mp he]
      exact hrun
  · intro e he
    simp [Pc.busy] at he
  · intro i hi
    simp [Pc.leaving] at hi
  · have hq := h.queued
    rw [hpc] at hq
    exact hq
  · have hd := h.distinct
    rw [hpc] at hd
    exact hd

end ReactorOk

/-- A live connection still has its number, so `epoll_add` finds its own socket. -/
theorem add_table {m : Shared R} (hm : SharedOk m) {fd id : ℕ} {stage : Stage R} (hk : Known m fd id stage)
    (hrun : m.running id = true) : m.desc.table fd = some id := by
  rw [← hk.2.1]
  exact hm.own.held id hk.1 (hm.running id hk.1 hrun)

theorem runAdd_step {m : Shared R} {r : Fin R} {l : Reactor} (hm : SharedOk m) (h : ReactorOk m r l)
    {fd id : ℕ} {fs : List Functor} (hpc : l.pc = .functors (.add fd id :: fs)) (linger : Bool) :
    Keeps (.reactor r) m (l.runAdd r m fd id linger fs).1 ∧
      ReactorOk (l.runAdd r m fd id linger fs).1 r (l.runAdd r m fd id linger fs).2 := by
  have hk : Known m fd id (.queued r) := h.queued fd id (by rw [hpc]; simp [Pc.functorList])
  have hmove : ∀ {n : Shared R} {stage : Stage R}, n.stage id = .queued r →
      Keeps (.reactor r) n (n.setStage id stage) := by
    intro n stage hst
    refine setStage_keeps (by rw [hst]; rfl) (by simp [hst]) (fun q hq => ?_)
    rw [hst] at hq
    cases hq
  have hdrop : ReactorOk (m.setStage id .released) r (l.goto (.functors fs)) :=
    h.pop hpc (fun _ _ _ hk' hne => hk'.setStage hne) (fun _ _ _ => rfl)
      (fun _ hj => hj.setStage (Or.inl rfl)) rfl
  have hfail : Keeps (.reactor r) m ((m.shutdown id linger).setStage id .released) ∧
      ReactorOk ((m.shutdown id linger).setStage id .released) r (l.goto (.functors fs)) := by
    refine ⟨(shutdown_keeps linger (fun q hq => ?_)).trans (hmove (by rw [shutdown_stage]; exact hk.2.2)) rfl,
      h.pop hpc (fun _ _ _ hk' hne => (hk'.shutdown id linger).setStage hne)
        (fun i hi hne => (shutdown_frame m id linger).2.2 i hi hne)
        (fun _ hj => (hj.shutdown id linger).setStage (Or.inl rfl)) (by simp [Shared.setStage])⟩
    rw [hk.2.2] at hq
    cases hq
  unfold Reactor.runAdd
  by_cases hrun : m.running id = true
  · rw [if_neg (by simp [hrun]), add_table hm hk hrun]
    dsimp only
    split
    · exact hfail
    · split
      · refine ⟨hmove hk.2.2,?_⟩
        exact ReactorOk.watch hdrop ⟨hk.1,Or.inl (by simp [Shared.setStage])⟩
      · rename_i hfind
        have hin : Known (m.setStage id (.registered r)) fd id (.registered r) :=
          ⟨hk.1,hk.2.1,by simp [Shared.setStage]⟩
        have hpop : ReactorOk (m.setStage id (.registered r)) r (l.goto (.functors fs)) :=
          h.pop hpc (fun _ _ _ hk' hne => hk'.setStage hne) (fun _ _ _ => rfl)
            (fun _ hj => hj.setStage (Or.inr ⟨r,rfl⟩)) rfl
        refine ⟨hmove hk.2.2,?_⟩
        have hfree : (l.goto (.functors fs)).find fd = none := by
          change l.find fd = none
          simpa using hfind
        exact ReactorOk.watch (hpop.insert rfl hin hrun hfree) ⟨hk.1,Or.inr ⟨r,by simp [Shared.setStage]⟩⟩
  · rw [if_pos (by simpa using hrun)]
    exact ⟨hmove hk.2.2,hdrop⟩

theorem handle_step {m : Shared R} {r : Fin R} {l : Reactor} (h : ReactorOk m r l) {fd : ℕ}
    {batch : List Event} {needPending : Bool} (hpc : l.pc = .loop [] (.ready fd :: batch) needPending)
    {id : ℕ} (hfind : l.find fd = some id) (dies linger : Bool) :
    Keeps (.reactor r) m (if dies then m.shutdown id linger else m) ∧
      ReactorOk (if dies then m.shutdown id linger else m) r (l.goto (.handled fd id batch needPending)) := by
  have hmem := find_some hfind
  have hk := h.entries _ hmem
  have hfs : l.pc.functorList = [] := by
    rw [hpc]
    rfl
  have hok : ∀ m' : Shared R, (∀ fd' i stage, Known m fd' i stage → Known m' fd' i stage) →
      (∀ i < m.desc.count, i ≠ id → m'.running i = m.running i) → (∀ j, Settled m j → Settled m' j) →
      m'.queue = m.queue → ReactorOk m' r (l.goto (.handled fd id batch needPending)) := by
    intro m' hknown hrun hset hqueue
    have hq := h.queued
    have hd := h.distinct
    rw [hfs] at hq hd
    refine ⟨fun e he => hknown _ _ _ (h.entries e he),h.keys,?_,?_,?_,?_,?_,fun j hj => hset j (h.interest j hj)⟩
    · intro e he
      by_cases hid : e.2 = id
      · right
        rw [h.entry_eq he hmem hid]
        exact List.mem_cons_self
      · rw [hrun e.2 (h.entries e he).1 hid]
        have hal := h.alive e he
        rw [hpc] at hal
        exact hal
    · intro e he
      obtain rfl : (fd,id) = e := by simpa [Reactor.goto, Pc.busy] using he
      exact hmem
    · intro i hi
      simp [Reactor.goto, Pc.leaving] at hi
    · intro fd' i hmem'
      exact hknown _ _ _ (hq fd' i (by simpa [Reactor.goto, Pc.functorList, hqueue] using hmem'))
    · simpa [Reactor.goto, Pc.functorList, hqueue] using hd
  cases dies with
  | false => exact ⟨Keeps.of_eq rfl rfl (fun _ _ => rfl),hok m (fun _ _ _ h => h) (fun _ _ _ => rfl) (fun _ h => h) rfl⟩
  | true =>
    refine ⟨shutdown_keeps linger (fun q hq => ?_),hok _ (fun _ _ _ hk' => hk'.shutdown id linger)
      (shutdown_frame m id linger).2.2 (fun _ hj => hj.shutdown id linger) (shutdown_queue m id linger)⟩
    rw [hk.2.2] at hq
    cases hq
    rfl

theorem erased_step {m : Shared R} {r : Fin R} {l : Reactor} (h : ReactorOk m r l) {fd id : ℕ}
    {expired : List ℕ} {batch : List Event} {needPending : Bool}
    (hpc : l.pc = .erased fd id expired batch needPending) (ok : Bool) :
    Keeps (.reactor r) m (m.shutdown id ok) ∧
      ReactorOk (m.shutdown id ok) r ((l.epollDel m fd).goto (.closing expired batch needPending)) := by
  obtain ⟨-,hrel⟩ := h.leaving id (by rw [hpc]; rfl)
  have hfs : l.pc.functorList = [] := by
    rw [hpc]
    rfl
  have hq := h.queued
  have hd := h.distinct
  rw [hfs] at hq hd
  refine ⟨shutdown_keeps ok (fun q hst => by rw [hrel] at hst; cases hst),?_,h.keys,?_,?_,?_,?_,?_,?_⟩
  · intro e he
    exact (h.entries e he).shutdown id ok
  · intro e he
    have hk := h.entries e he
    have hne : e.2 ≠ id := by
      intro heq
      have hst := hk.2.2
      rw [heq, hrel] at hst
      cases hst
    rw [(shutdown_frame m id ok).2.2 e.2 hk.1 hne]
    have hal := h.alive e he
    rw [hpc] at hal
    exact hal
  · intro e he
    simp [Reactor.goto, Pc.busy] at he
  · intro i hi
    simp [Reactor.goto, Pc.leaving] at hi
  · intro fd' i hmem
    exact (hq fd' i (by simpa [Reactor.goto, Pc.functorList] using hmem)).shutdown id ok
  · simpa [Reactor.goto, Pc.functorList] using hd
  · intro j hj
    exact (h.interest j (List.mem_of_mem_filter hj)).shutdown id ok

theorem swap_step {m : Shared R} {r : Fin R} {l : Reactor} (h : ReactorOk m r l) (hpc : l.pc = .loop [] [] true) :
    Keeps (.reactor r) m { m with queue := Function.update m.queue r [] } ∧
      ReactorOk { m with queue := Function.update m.queue r [] } r (l.goto (.functors (m.queue r))) := by
  have hfs : l.pc.functorList = [] := by
    rw [hpc]
    rfl
  have hq := h.queued
  have hd := h.distinct
  rw [hfs] at hq hd
  refine ⟨Keeps.of_eq rfl rfl (fun q hne => Function.update_of_ne (fun he => hne (by rw [he])) _ _),
    h.entries,h.keys,fun e he => Or.inl (h.all_alive (by rw [hpc]; rfl) he),?_,?_,?_,?_,h.interest⟩
  · intro e he
    simp [Reactor.goto, Pc.busy] at he
  · intro i hi
    simp [Reactor.goto, Pc.leaving] at hi
  · intro fd id hmem
    exact hq fd id (by simpa [Reactor.goto, Pc.functorList] using hmem)
  · simpa [Reactor.goto, Pc.functorList] using hd

theorem reactor_step {m m' : Shared R} {r : Fin R} {l l' : Reactor} (hm : SharedOk m) (h : ReactorOk m r l)
    (hstep : ReactorStep r m l m' l') : Keeps (.reactor r) m m' ∧ ReactorOk m' r l' := by
  have hsame : ∀ {m' : Shared R}, m'.desc = m.desc → m'.stage = m.stage → m'.queue = m.queue →
      Keeps (.reactor r) m m' := by
    intro m' hdesc hstage hqueue
    exact Keeps.of_eq hdesc hstage (fun q _ => by rw [hqueue])
  cases hstep with
  | harvest hpc => exact ⟨hsame rfl rfl rfl,h.goto rfl rfl List.nil_suffix (by simp [hpc, Pc.visits])⟩
  | expire fds hpc =>
    exact ⟨hsame rfl rfl rfl,h.goto rfl rfl List.nil_suffix (by simp +contextual [hpc, Pc.visits, ready])⟩
  | skip hpc hfind =>
    refine ⟨hsame rfl rfl rfl,h.goto rfl rfl List.nil_suffix ?_⟩
    intro e he hv
    right
    have hne := find_none hfind e he
    simpa [hpc, Pc.visits, ready, hne] using hv
  | handle dies linger hpc hfind => exact handle_step h hpc hfind dies linger
  | closeDead hpc => exact h.closeConnection (by simp [hpc, Pc.visits, ready]) (by rw [hpc]; rfl) _
  | closeExpired hpc => exact h.closeConnection (by simp [hpc, Pc.visits]) (by rw [hpc]; rfl) _
  | closeHandled hpc => exact h.closeConnection (by simp [hpc, Pc.visits]) (by rw [hpc]; rfl) _
  | @proceed fd id batch needPending hpc hrun =>
    refine ⟨hsame rfl rfl rfl,h.goto rfl rfl List.nil_suffix ?_⟩
    intro e he hv
    by_cases hkey : e.1 = fd
    · left
      rw [h.entry_key he (h.busy (fd,id) (by rw [hpc]; rfl)) hkey]
      exact hrun
    · right
      simpa [hpc, Pc.visits, hkey] using hv
  | leave ok hpc => exact erased_step h hpc ok
  | @uncount expired batch needPending hpc =>
    have hgo : ReactorOk m r (l.goto (.loop expired batch needPending)) :=
      h.goto rfl rfl List.nil_suffix (by simp +contextual [hpc, Pc.visits])
    exact ⟨hsame rfl rfl rfl,hgo.of_eq rfl rfl rfl⟩
  | @wake batch _ hpc =>
    have hgo : ReactorOk m r (l.goto (.loop [] batch true)) :=
      h.goto rfl rfl List.nil_suffix (by simp +contextual [hpc, Pc.visits, ready])
    exact ⟨hsame rfl rfl rfl,hgo.of_eq rfl rfl rfl⟩
  | swap hpc => exact swap_step h hpc
  | wait hpc =>
    refine ⟨hsame rfl rfl rfl,h.goto rfl rfl List.nil_suffix ?_⟩
    rcases hpc with hpc | hpc <;> simp [hpc, Pc.visits, ready]
  | add linger hpc => exact runAdd_step hm h hpc linger
  | enableWriting hpc =>
    exact ⟨hsame rfl rfl rfl,h.goto rfl rfl (by rw [hpc]; exact List.suffix_cons _ _) (by simp [hpc, Pc.visits])⟩
  | @count fs hpc =>
    have hgo : ReactorOk m r (l.goto (.functors fs)) :=
      h.goto rfl rfl (by rw [hpc]; exact List.suffix_refl _) (by simp [hpc, Pc.visits])
    exact ⟨hsame rfl rfl rfl,hgo.of_eq rfl rfl rfl⟩

end Invariant

end ModernTcp.Server
