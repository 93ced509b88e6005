import ModernTcp.Net.ServerClose

/-! # What a close of the server loses

As long as the connection is alive, the accepted bytes are the written ones and the buffered
ones. The reactor thread never closes after an answer with an empty buffer: the answer is
in it.
-/
namespace ModernTcp.ServerClose
open EpollConnection Execution

section Model
variable {W : Type*} [DecidableEq W]

/-- In front of a close after an answer something is sent, unless there is output already. -/
def Covered : Prop → List Op → Prop
  | _, [] => True
  | out, .send data :: rest => Covered (out ∨ data ≠ []) rest
  | out, .append data :: rest => Covered (out ∨ data ≠ []) rest
  | out, .shutdown why :: _ => afterAnswer why = true → out
  | out, _ :: rest => Covered out rest

theorem Covered.mono {out out' : Prop} {ops : List Op} (h : Covered out ops) (himp : out → out') :
    Covered out' ops := by
  induction ops generalizing out out' with
  | nil => trivial
  | cons op rest ih =>
    cases op with
    | send data | append data => exact ih h (Or.imp_left himp)
    | shutdown why => exact fun ha => himp (h ha)
    | check | submit _ _ | clear => exact ih h himp

theorem covered_sends {out : Prop} {sends : List (List UInt8)} {rest : List Op}
    (h : Covered (out ∨ ∃ data ∈ sends, data ≠ []) rest) : Covered out (sends.map .send ++ rest) := by
  induction sends generalizing out with
  | nil => exact h.mono (by simp)
  | cons data sends ih =>
    refine ih (h.mono ?_)
    rintro (ho | ⟨d,hd,hne⟩)
    · exact Or.inl (Or.inl ho)
    · rcases List.mem_cons.mp hd with rfl | hd
      · exact Or.inl (Or.inr hne)
      · exact Or.inr ⟨d,hd,hne⟩

theorem covered_of {out : Prop} (h : out) (ops : List Op) : Covered out ops := by
  have htrue : Covered True ops := by
    induction ops with
    | nil => trivial
    | cons op rest ih =>
      cases op with
      | send data | append data => exact ih.mono Or.inl
      | shutdown why => exact fun _ => trivial
      | check | submit _ _ | clear => exact ih
  exact htrue.mono (fun _ => h)

theorem perform_alive {m : Link} {op : Op} {rest : List Op} (hop : op ≠ .clear)
    (hrun : (m.perform rest op).1.running = true) :
    ∃ data, (m.perform rest op).1.output = m.output ++ data ∧
      (m.perform rest op).1.accepted = m.accepted ++ data ∧
      (m.perform rest op).1.written = m.written ∧ (m.perform rest op).1.closed = m.closed ∧
      (.clear ∉ rest → .clear ∉ (m.perform rest op).2) ∧
      (Covered (m.output ≠ []) (op :: rest) →
        Covered ((m.perform rest op).1.output ≠ []) (m.perform rest op).2) := by
  cases op with
  | clear => exact absurd rfl hop
  | check =>
    refine ⟨[],?_⟩
    unfold Link.perform
    by_cases hm : m.running <;> simp [hm, Covered]
  | send data =>
    refine ⟨[],?_⟩
    unfold Link.perform
    by_cases hm : m.running ∧ data ≠ []
    · simp [hm.1, hm.2, Covered]
    · simp only [hm, if_false, List.append_nil, true_and, Covered, imp_self]
      intro hc
      exact hc.mono (fun ho => ho.resolve_right (fun hne => hm ⟨hrun,hne⟩))
  | append data =>
    by_cases hmax : maxBufferSize < m.output.length + data.length
    · refine ⟨[],?_⟩
      simp [Link.perform, hmax, Covered, afterAnswer]
    · refine ⟨data,?_⟩
      simp only [Link.perform, if_neg hmax, true_and, imp_self, Covered]
      intro hc
      refine hc.mono ?_
      rintro (hne | hne) <;> simp [hne]
  | submit request closeAfter => exact ⟨[],by simp [Link.perform, Covered]⟩
  | shutdown why =>
    by_cases hm : m.running
    · simp [Link.perform, hm] at hrun
    · simp [Link.perform, hm] at hrun

/-- What holds as long as the connection is alive. -/
structure Alive (h : Handlers) (s : State W) : Prop where
  balanced : s.link.accepted = s.link.written ++ s.link.output
  unclosed : s.link.closed = none
  reactor_ops : .clear ∉ s.reactor.todo
  worker_ops : ∀ w, .clear ∉ s.worker w
  covered : Answers h → Covered (s.link.output ≠ []) s.reactor.todo

def Inv (h : Handlers) (s : State W) : Prop := s.link.running = true → Alive h s

theorem clear_not_mem_effectOps (h : Handlers) (es : List Effect) : .clear ∉ es.flatMap (effectOps h) := by
  intro hmem
  obtain ⟨e,-,he⟩ := List.mem_flatMap.mp hmem
  cases e <;> simp [effectOps] at he

theorem clear_not_mem_taskOps (run : HandlerRun) (closeAfter : Bool) : .clear ∉ taskOps run closeAfter := by
  unfold taskOps
  cases run.closes <;> cases run.throws <;> cases closeAfter <;> simp

theorem parseRound_covered {h : Handlers} {s t : Reading} (he : s.effects = [])
    (ht : s.parseRound = some t) : Covered False (t.effects.flatMap (effectOps h)) := by
  have hbad : badRequest ≠ [] := by decide
  unfold Reading.parseRound at ht
  split at ht
  · cases ht
  rename_i hgo
  simp only [not_or, not_not, Bool.not_eq_false] at hgo
  obtain ⟨-,-,hrun⟩ := hgo
  cases ht
  unfold Reading.parsed
  split
  · simp [Reading.leave, Reading.shutdown, Reading.send, Reading.emit, hrun, he, effectOps, Covered, hbad]
  split
  · unfold Reading.queueRequest
    dsimp only
    split
    · simp [Reading.leave, Reading.shutdown, Reading.emit, hrun, he, effectOps, Covered, afterAnswer]
    · simp [he, Covered]
  · simp [Reading.leave, he, Covered]

theorem callHandler_effects {h : Handlers} {s : Reading} (hrun : s.conn.running = true)
    (request : SimpleHttpRequest) : ∃ more, (s.callHandler h request).effects =
      s.effects ++ .handle request :: more ∧
      ((h.http request).throws = true → more = [.shutdown .handler] ∨ more = [.send serverError]) := by
  have hne : serverError ≠ [] := by decide
  cases hcl : (h.http request).closes <;> cases hth : (h.http request).throws <;>
    simp [Reading.callHandler, Reading.emit, Reading.shutdown, Reading.send, hcl, hth, hrun, hne]

theorem closeIfDone_effects (s : Reading) : ∃ last, s.closeIfDone.effects = s.effects ++ last := by
  unfold Reading.closeIfDone Reading.shutdown
  split
  · split
    · exact ⟨_,rfl⟩
    · exact ⟨[],by simp⟩
  · exact ⟨[],by simp⟩

theorem dispatchRound_covered {h : Handlers} (hans : Answers h) {s t : Reading} (he : s.effects = [])
    (ht : s.dispatchRound h = some t) : Covered False (t.effects.flatMap (effectOps h)) := by
  have hne : serverError ≠ [] := by decide
  unfold Reading.dispatchRound at ht
  split at ht
  · cases ht
  rename_i hgo
  simp only [not_or, Bool.not_eq_false] at hgo
  cases hp : s.conn.pendingRequests with
  | nil => simp [hp] at ht
  | cons p rest =>
    simp only [hp, Option.some.injEq] at ht
    subst ht
    unfold Reading.dispatch
    split
    · split
      · simp [Reading.emit, Reading.popRequest, he, effectOps, Covered]
      · obtain ⟨more,heff,hthrows⟩ := callHandler_effects (h := h) (s := s.popRequest) hgo.2 p.1
        obtain ⟨last,hlast⟩ := closeIfDone_effects (s.popRequest.callHandler h p.1)
        have hlog : ((s.popRequest.callHandler h p.1).closeIfDone).effects =
            .handle p.1 :: (more ++ last) := by
          rw [hlast, heff]
          simp [Reading.popRequest, he]
        rw [hlog, List.flatMap_cons]
        refine covered_sends ?_
        rcases hans p.1 with hsend | hth
        · exact covered_of (Or.inr hsend) _
        · rcases hthrows hth with rfl | rfl
          · simp [effectOps, Covered, afterAnswer]
          · exact covered_of (Or.inr hne) _
    · simp [Reading.popRequest, he, Covered]

theorem read_ops {r r' : Reactor} {running : Bool} {chunk : List UInt8} (hidle : r.Idle)
    (h : r.read running chunk = some r') : r'.todo = [] ∨ r'.todo = [.shutdown .endOfStream] := by
  unfold Reactor.read at h
  dsimp only at h
  split at h
  · cases h
    exact Or.inl hidle.2
  split at h
  · cases h
    exact Or.inr rfl
  split at h <;> cases h
  exact Or.inl hidle.2

theorem round_ops {h : Handlers} {r r' : Reactor} {running : Bool} (hnil : r.todo = [])
    (hr : r.round h running = some r') : .clear ∉ r'.todo ∧ (Answers h → Covered False r'.todo) := by
  have hstay : .clear ∉ r.todo ∧ (Answers h → Covered False r.todo) := by simp [hnil, Covered]
  unfold Reactor.round at hr
  dsimp only at hr
  split at hr
  · cases hr
  · split at hr <;> cases hr
    · rename_i ht
      exact ⟨clear_not_mem_effectOps h _,fun _ => parseRound_covered rfl ht⟩
    · exact hstay
  · split at hr <;> cases hr
    · rename_i ht
      exact ⟨clear_not_mem_effectOps h _,fun hans => dispatchRound_covered hans rfl ht⟩
    · exact hstay

theorem perform_running {m : Link} {op : Op} {rest : List Op} (h : (m.perform rest op).1.running = true) :
    m.running = true := by
  cases op with
  | append data =>
    simp only [Link.perform] at h
    split at h <;> exact h
  | shutdown why =>
    simp only [Link.perform] at h
    split at h
    · cases h
    · exact h
  | check | send _ | submit _ _ | clear => exact h

theorem perform_balanced {m : Link} {data : List UInt8} {op : Op} {rest : List Op}
    (h : m.accepted = m.written ++ m.output) (hout : (m.perform rest op).1.output = m.output ++ data)
    (hacc : (m.perform rest op).1.accepted = m.accepted ++ data)
    (hwr : (m.perform rest op).1.written = m.written) :
    (m.perform rest op).1.accepted = (m.perform rest op).1.written ++ (m.perform rest op).1.output := by
  rw [hacc, hwr, hout, h, List.append_assoc]

omit [DecidableEq W] in
theorem Inv.reactor {h : Handlers} {s : State W} (hs : Inv h s) {op : Op} {rest : List Op}
    (htodo : s.reactor.todo = op :: rest) : Inv h { s with
      link := (s.link.perform rest op).1
      reactor := { s.reactor with todo := (s.link.perform rest op).2 } } := by
  intro hrun
  obtain ⟨hb,hu,hc,hw,hcov⟩ := hs (perform_running hrun)
  rw [htodo] at hc hcov
  have hop : op ≠ .clear := by
    rintro rfl
    exact hc List.mem_cons_self
  obtain ⟨data,hout,hacc,hwr,hcl,hclear,hcover⟩ := perform_alive hop hrun
  exact ⟨perform_balanced hb hout hacc hwr,hcl.trans hu,
    hclear (fun hmem => hc (List.mem_cons_of_mem _ hmem)),hw,fun hans => hcover (hcov hans)⟩

theorem Inv.worker {h : Handlers} {s : State W} (hs : Inv h s) {w : W} {op : Op} {rest : List Op}
    (htodo : s.worker w = op :: rest) : Inv h { s with
      link := (s.link.perform rest op).1
      worker := Function.update s.worker w (s.link.perform rest op).2 } := by
  intro hrun
  obtain ⟨hb,hu,hc,hw,hcov⟩ := hs (perform_running hrun)
  have hcw := hw w
  rw [htodo] at hcw
  have hop : op ≠ .clear := by
    rintro rfl
    exact hcw List.mem_cons_self
  obtain ⟨data,hout,hacc,hwr,hcl,hclear,-⟩ := perform_alive hop hrun
  refine ⟨perform_balanced hb hout hacc hwr,hcl.trans hu,hc,?_,?_⟩
  · have hrest := hclear (fun hmem => hcw (List.mem_cons_of_mem _ hmem))
    exact (Function.forall_update_iff s.worker (fun _ ops => .clear ∉ ops)).mpr ⟨hrest,fun x _ => hw x⟩
  · -- a worker only ever adds to the output of a live connection
    refine fun hans => (hcov hans).mono (fun hne => ?_)
    dsimp only
    rw [hout]
    exact List.append_ne_nil_of_left_ne_nil hne data

theorem step_inv {h : Handlers} {s t : State W} {a : Act W} (hs : Inv h s) (hst : step h s a = some t) :
    Inv h t := by
  cases a with
  | read chunk =>
    simp only [step] at hst
    split at hst
    · rename_i hidle
      obtain ⟨r,hr,rfl⟩ := Option.map_eq_some_iff.mp hst
      intro hrun
      obtain ⟨hb,hu,-,hw,-⟩ := hs hrun
      rcases read_ops hidle hr with htodo | htodo
      · exact ⟨hb,hu,by simp [htodo],hw,by simp [htodo, Covered]⟩
      · exact ⟨hb,hu,by simp [htodo],hw,by simp [htodo, Covered, afterAnswer]⟩
    · cases hst
  | write n =>
    simp only [step] at hst
    split at hst
    · rename_i hgo
      cases hst
      intro hrun
      obtain ⟨hb,hu,hc,hw,-⟩ := hs hrun
      refine ⟨?_,hu,hc,hw,?_⟩
      · dsimp only
        rw [List.append_assoc, List.take_append_drop, hb]
      · intro _
        dsimp only
        rw [hgo.1.2]
        trivial
    · cases hst
  | drop =>
    simp only [step] at hst
    split at hst
    · cases hst
      intro hrun
      obtain ⟨hb,hu,-,hw,-⟩ := hs hrun
      exact ⟨hb,hu,by simp,hw,by simp [Covered, afterAnswer]⟩
    · cases hst
  | round =>
    simp only [step] at hst
    split at hst
    · rename_i hnil
      obtain ⟨r,hr,rfl⟩ := Option.map_eq_some_iff.mp hst
      intro hrun
      obtain ⟨hb,hu,-,hw,-⟩ := hs hrun
      obtain ⟨hc,hcov⟩ := round_ops hnil hr
      exact ⟨hb,hu,hc,hw,fun hans => (hcov hans).mono False.elim⟩
    · cases hst
  | reactor =>
    cases htodo : s.reactor.todo with
    | nil => simp [step, htodo] at hst
    | cons op rest =>
      simp only [step, htodo, Option.some.injEq] at hst
      subst hst
      exact hs.reactor htodo
  | take w =>
    simp only [step] at hst
    split at hst
    · cases hst
      intro hrun
      obtain ⟨hb,hu,hc,hw,hcov⟩ := hs hrun
      refine ⟨hb,hu,hc,?_,hcov⟩
      exact (Function.forall_update_iff s.worker (fun _ ops => .clear ∉ ops)).mpr
        ⟨clear_not_mem_taskOps _ _,fun x _ => hw x⟩
    · cases hst
  | worker w =>
    cases htodo : s.worker w with
    | nil => simp [step, htodo] at hst
    | cons op rest =>
      simp only [step, htodo, Option.some.injEq] at hst
      subst hst
      exact hs.worker htodo

omit [DecidableEq W] in
theorem initial_inv (h : Handlers) : Inv h ({} : State W) :=
  fun _ => ⟨rfl,rfl,by simp,by simp,fun _ => trivial⟩

theorem perform_closed {m : Link} (op : Op) (rest : List Op) :
    (m.perform rest op).1.closed = m.closed ∨
      ∃ why, op = .shutdown why ∧ m.running = true ∧
        (m.perform rest op).1.closed = some ⟨why,m.accepted,m.written⟩ := by
  cases op with
  | append data =>
    left
    simp only [Link.perform]
    split <;> rfl
  | shutdown why =>
    simp only [Link.perform]
    split
    · rename_i hrun
      exact Or.inr ⟨why,rfl,hrun,rfl⟩
    · exact Or.inl rfl
  | check | send _ | submit _ _ | clear => exact Or.inl rfl

/-- A step that performs no operation touches the output only. -/
theorem step_of_nextOp_none {h : Handlers} {s t : State W} {a : Act W} (hop : nextOp s a = none)
    (hst : step h s a = some t) : t.link.closed = s.link.closed := by
  cases a with
  | read chunk | round =>
    simp only [step] at hst
    split at hst
    · obtain ⟨r,-,rfl⟩ := Option.map_eq_some_iff.mp hst
      rfl
    · cases hst
  | write n | drop | take w =>
    simp only [step] at hst
    split at hst <;> cases hst
    rfl
  | reactor =>
    rw [nextOp, List.head?_eq_none_iff] at hop
    simp [step, hop] at hst
  | worker w =>
    rw [nextOp, List.head?_eq_none_iff] at hop
    simp [step, hop] at hst

theorem step_of_nextOp {h : Handlers} {s : State W} {a : Act W} {op : Op} (hop : nextOp s a = some op) :
    ∃ rest t, step h s a = some t ∧ t.link = (s.link.perform rest op).1 ∧
      (a.byWorker = true ∨ s.reactor.todo = op :: rest) := by
  cases a with
  | read _ | write _ | drop | round | take _ => cases hop
  | reactor =>
    obtain ⟨rest,htodo⟩ := List.head?_eq_some_iff.mp hop
    refine ⟨rest,{ s with
      link := (s.link.perform rest op).1
      reactor := { s.reactor with todo := (s.link.perform rest op).2 } },?_,rfl,Or.inr htodo⟩
    simp only [step, htodo]
  | worker w =>
    obtain ⟨rest,htodo⟩ := List.head?_eq_some_iff.mp hop
    refine ⟨rest,{ s with
      link := (s.link.perform rest op).1
      worker := Function.update s.worker w (s.link.perform rest op).2 },?_,rfl,Or.inl rfl⟩
    simp only [step, htodo]

omit [DecidableEq W] in
theorem ServerCloses.nextOp_eq {s : State W} {a : Act W} (h : ServerCloses s a) :
    ∃ why, nextOp s a = some (.shutdown why) ∧ afterAnswer why = true := by
  have hany := h.2
  cases hop : nextOp s a with
  | none => simp [hop] at hany
  | some op =>
    rw [hop] at hany
    cases op with
    | shutdown why => exact ⟨why,rfl,hany⟩
    | check | send _ | append _ | submit _ _ | clear => cases hany

/-- A close after an answer loses nothing exactly when the output is drained. -/
theorem close_noLoss_iff {h : Handlers} {s t : State W} {a : Act W} (hs : Inv h s) (hclose : ServerCloses s a)
    (hst : step h s a = some t) : NoLoss t ↔ s.link.output = [] := by
  obtain ⟨why,hop,hafter⟩ := hclose.nextOp_eq
  obtain ⟨rest,t',ht',hlink,-⟩ := step_of_nextOp (h := h) hop
  obtain rfl : t' = t := Option.some.inj (ht'.symm.trans hst)
  have hclosed : t'.link.closed = some ⟨why,s.link.accepted,s.link.written⟩ := by
    rw [hlink]
    simp [Link.perform, hclose.1]
  unfold NoLoss
  simp [hclosed, hafter, (hs hclose.1).balanced]

theorem close_byWorker {h : Handlers} (hans : Answers h) {s : State W} {a : Act W} (hs : Inv h s)
    (hclose : ServerCloses s a) (hnil : s.link.output = []) : a.byWorker = true := by
  obtain ⟨why,hop,hafter⟩ := hclose.nextOp_eq
  obtain ⟨rest,-,-,-,hwho⟩ := step_of_nextOp (h := h) hop
  refine hwho.resolve_right (fun htodo => ?_)
  have hcov := (hs hclose.1).covered hans
  rw [htodo] at hcov
  exact hcov hafter hnil

theorem step_noLoss_of_not_closes {h : Handlers} {s t : State W} {a : Act W} (hclose : ¬ ServerCloses s a)
    (hg : NoLoss s) (hst : step h s a = some t) : NoLoss t := by
  cases hop : nextOp s a with
  | none =>
    unfold NoLoss
    rw [step_of_nextOp_none hop hst]
    exact hg
  | some op =>
    obtain ⟨rest,t',ht',hlink,-⟩ := step_of_nextOp (h := h) hop
    obtain rfl : t' = t := Option.some.inj (ht'.symm.trans hst)
    unfold NoLoss
    rw [hlink]
    rcases perform_closed (m := s.link) op rest with hsame | ⟨why,rfl,hrun,hclosed⟩
    · rw [hsame]
      exact hg
    · intro c hc hafter
      rw [hclosed] at hc
      cases hc
      exact absurd ⟨hrun,by rw [hop]; exact hafter⟩ hclose

theorem step_noLoss {h : Handlers} {s t : State W} {a : Act W} (hs : Inv h s) (hg : NoLoss s)
    (hgood : ClosesDrained s a) (hst : step h s a = some t) : NoLoss t := by
  by_cases hclose : ServerCloses s a
  · exact (close_noLoss_iff hs hclose hst).mpr (hgood hclose).2
  · exact step_noLoss_of_not_closes hclose hg hst

/-- Nothing is lost by a close after an answer as long as each of these closes is made by a
worker after `handle_write` has drained the output. If the handler answers every request,
these are the only runs without a loss. -/
theorem server_close_loses_nothing_iff (h : Handlers) (as : List (Act W)) :
    (Along (step h) ClosesDrained {} as → ∀ s, Visits (step h) {} as s → NoLoss s) ∧
    (Answers h → ((∀ s, Visits (step h) {} as s → NoLoss s) ↔ Along (step h) ClosesDrained {} as)) := by
  have hempty : NoLoss ({} : State W) := by
    intro c hc
    cases hc
  refine ⟨?_,fun hans => visits_iff_along (I := Inv h) (fun s a t hs hst => step_inv hs hst) ?_ ?_ (initial_inv h)
    hempty⟩
  · intro hgood s hv
    have hboth : Inv h s ∧ NoLoss s := visits_invariant (I := fun s => Inv h s ∧ NoLoss s)
      (fun s a t hs hg hst => ⟨step_inv hs.1 hst,step_noLoss hs.1 hs.2 hg hst⟩) ⟨initial_inv h,hempty⟩ hgood hv
    exact hboth.2
  · intro s a t hs hg hst
    refine ⟨fun ht hclose => ?_,fun hgood => step_noLoss hs hg hgood hst⟩
    have hnil := (close_noLoss_iff hs hclose hst).mp ht
    exact ⟨close_byWorker hans hs hclose hnil,hnil⟩
  · intro s a _ hnone hclose
    obtain ⟨why,hop,-⟩ := hclose.nextOp_eq
    obtain ⟨rest,t,ht,-⟩ := step_of_nextOp (h := h) hop
    rw [hnone] at ht
    cases ht

end Model

/-- Every request is answered with one byte. -/
def oneByte (workerPool : Bool) : Handlers :=
  { workerPool, http := fun _ => { sends := [[79]] }, message := none }

theorem oneByte_answers (workerPool : Bool) : Answers (oneByte workerPool) :=
  fun _ => Or.inl ⟨[79],List.mem_singleton_self _,by decide⟩

def closeRequest : List UInt8 := bytes "GET / HTTP/1.1\r\nConnection: close\r\n\r\n"

/-- The worker is slow enough for the reactor to write the answer. -/
def drainedRun : List (Act Unit) :=
  [.read closeRequest,.round,.round,.round,.reactor,.round,.take (),.worker (),.worker (),.worker (),
    .write 1,.worker ()]

theorem server_close_drained :
    (∃ s, exec (step (oneByte true)) {} drainedRun = some s ∧ s.link.closed = some ⟨.answered,[79],[79]⟩) ∧
    ∀ s, Visits (step (oneByte true)) {} drainedRun s → NoLoss s :=
  ⟨⟨_,rfl,by decide⟩,
    ((server_close_loses_nothing_iff (oneByte true) drainedRun).2 (oneByte_answers true)).mpr (by decide)⟩

/-- On the IO thread the answer and the close are parts of one `handle_read`. -/
def ioRun : List (Act Unit) :=
  [.read closeRequest,.round,.round,.round,.reactor,.reactor,.reactor]

theorem server_close_loses_answer :
    ∃ s, exec (step (oneByte false)) ({} : State Unit) ioRun = some s ∧
      s.link.closed = some ⟨.answered,[79],[]⟩ ∧ ¬ NoLoss s := by
  refine ⟨_,rfl,by decide,?_⟩
  intro hno
  exact absurd (hno ⟨.answered,[79],[]⟩ (by decide) rfl) (by decide)

end ModernTcp.ServerClose
