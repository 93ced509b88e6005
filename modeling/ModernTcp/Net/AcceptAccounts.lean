import Mathlib.Data.Int.CardIntervalMod
import Mathlib.Data.Nat.Count
import ModernTcp.Net.ServerShutdown

/-! # What becomes of the accepted connections
-/
namespace ModernTcp.AcceptLoop
open Execution

section Accounts
variable {T : Type*} {cfg : Config} {s t u : State T}

/-- Which connection went where. -/
structure Accounts (cfg : Config) (s : State T) : Prop where
  accepted : s.accepted = s.handed.length + s.refused + s.failed + s.pc.inHand
  rejected : s.rejectedConnections = cfg.metrics.toNat * s.refused
  total : s.totalConnections + (if cfg.multi then cfg.metrics.toNat * s.pc.uncounted else 0) =
    cfg.metrics.toNat * (s.handed.length + if cfg.multi then 0 else s.failed + s.pc.early)
  next : cfg.multi = true → s.nextReactorIndex = s.handed.length % 2 ^ 64
  turns : s.handed = (List.range s.handed.length).map (fun i => i % 2 ^ 64 % cfg.reactors)

theorem turns_concat {handed : List ℕ} {n : ℕ} (h : handed = (List.range handed.length).map (fun i => i % 2 ^ 64 % n)) :
    handed ++ [handed.length % 2 ^ 64 % n] =
      (List.range (handed ++ [handed.length % 2 ^ 64 % n]).length).map (fun i => i % 2 ^ 64 % n) := by
  rw [List.length_append, List.length_singleton, List.range_succ, List.map_append, ← h, List.map_singleton]

theorem effect_accounts (hb : Built cfg s) (hover : s.pc.over = false) (hs : Accounts cfg s) (h : Effect cfg s t) :
    Accounts cfg t := by
  obtain ⟨haccepted,hrejected,htotal,hnext,hturns⟩ := hs
  cases h with
  | moved hm =>
    refine ⟨?_,hrejected,?_,hnext,hturns⟩
    · simpa only [State.goto, hm.inHand] using haccepted
    · simpa only [State.goto, hm.uncounted, hm.early] using htotal
  | built h =>
    rw [h] at haccepted htotal
    exact ⟨haccepted,hrejected,htotal,hnext,hturns⟩
  | drained h =>
    rw [h] at haccepted htotal
    exact ⟨haccepted,hrejected,htotal,hnext,hturns⟩
  | took h =>
    rw [h] at haccepted htotal
    exact ⟨congrArg (· + 1) haccepted,hrejected,htotal,hnext,hturns⟩
  | refused h =>
    rw [h] at haccepted htotal
    refine ⟨?_,?_,htotal,hnext,hturns⟩
    · simp only [State.goto, State.refuse, Pc.inHand] at haccepted ⊢
      omega
    · simp only [State.goto, State.refuse, hrejected]
      ring
  | counted h =>
    rw [h] at haccepted htotal
    by_cases hmulti : cfg.multi = true
    · simp only [hmulti, if_true] at htotal ⊢
      exact ⟨haccepted,hrejected,by simpa [State.goto, hmulti] using htotal,hnext,hturns⟩
    · simp only [hmulti, Bool.false_eq_true, if_false, Pc.early, add_zero] at htotal ⊢
      refine ⟨haccepted,hrejected,?_,hnext,hturns⟩
      simp only [State.goto, State.count, hmulti, Bool.false_eq_true, if_false, Pc.early, htotal]
      ring
  | handed h =>
    have hreactors : s.subReactors = cfg.reactors := hb.reactors (by simp [h]) hover
    rw [handOver_eq hreactors]
    rw [h] at haccepted htotal
    by_cases hmulti : cfg.multi = true
    · simp only [hmulti, if_true, Pc.uncounted, Pc.inHand] at htotal haccepted ⊢
      have hindex := hnext hmulti
      refine ⟨?_,hrejected,?_,?_,?_⟩
      · simp only [List.length_append, List.length_singleton, Pc.inHand]
        omega
      · simp only [hmulti, if_true, Pc.uncounted, List.length_append, List.length_singleton]
        rw [mul_zero, add_zero, add_zero] at htotal
        rw [htotal]
        ring
      · intro _
        simp only [List.length_append, List.length_singleton, hindex, Nat.mod_add_mod]
      · simp only [hindex]
        exact turns_concat hturns
    · have hone : cfg.reactors = 1 := by simp [Config.reactors, hmulti]
      simp only [hmulti, Bool.false_eq_true, if_false, Pc.early, Pc.inHand] at htotal haccepted ⊢
      refine ⟨?_,hrejected,?_,fun h => absurd h hmulti,?_⟩
      · simp only [List.length_append, List.length_singleton, Pc.inHand]
        omega
      · simp only [hmulti, Bool.false_eq_true, if_false, Pc.early, List.length_append, List.length_singleton]
        rw [htotal]
        ring
      · have hturn : (0 : ℕ) = s.handed.length % 2 ^ 64 % cfg.reactors := by rw [hone, Nat.mod_one]
        rw [hturn]
        exact turns_concat hturns
  | failed h =>
    rw [h] at haccepted htotal
    by_cases hmulti : cfg.multi = true
    · simp only [hmulti, if_true] at htotal ⊢
      refine ⟨?_,hrejected,?_,hnext,hturns⟩
      · simp only [State.goto, Pc.inHand] at haccepted ⊢
        omega
      · simpa [State.goto, hmulti] using htotal
    · simp only [hmulti, Bool.false_eq_true, if_false, Pc.early] at htotal ⊢
      refine ⟨?_,hrejected,?_,hnext,hturns⟩
      · simp only [State.goto, Pc.inHand] at haccepted ⊢
        omega
      · simp only [State.goto, hmulti, Bool.false_eq_true, if_false, Pc.early, htotal]
  | added h =>
    rw [h] at haccepted htotal
    by_cases hmulti : cfg.multi = true
    · simp only [hmulti, if_true, Pc.uncounted] at htotal ⊢
      refine ⟨haccepted,hrejected,?_,hnext,hturns⟩
      simp only [State.goto, State.count, hmulti, if_true, Pc.uncounted]
      rw [mul_zero, add_zero]
      rwa [mul_one] at htotal
    · simp only [hmulti, Bool.false_eq_true, if_false] at htotal ⊢
      exact ⟨haccepted,hrejected,by simpa [State.goto, hmulti] using htotal,hnext,hturns⟩

theorem Accounts.of_same (hs : Accounts cfg s) (hpc : t.pc = s.pc) (haccepted : t.accepted = s.accepted)
    (hhanded : t.handed = s.handed) (hrefused : t.refused = s.refused) (hfailed : t.failed = s.failed)
    (hrejected : t.rejectedConnections = s.rejectedConnections) (htotal : t.totalConnections = s.totalConnections)
    (hnext : t.nextReactorIndex = s.nextReactorIndex) : Accounts cfg t := by
  refine ⟨?_,?_,?_,?_,?_⟩
  · rw [haccepted, hhanded, hrefused, hfailed, hpc]
    exact hs.accepted
  · rw [hrejected, hrefused]
    exact hs.rejected
  · rw [htotal, hhanded, hfailed, hpc]
    exact hs.total
  · rw [hnext, hhanded]
    exact hs.next
  · rw [hhanded]
    exact hs.turns

theorem started_accounts (cfg : Config) : Accounts cfg (started cfg : State T) := by
  unfold started
  cases hmulti : cfg.multi with
  | true => exact ⟨rfl,rfl,by simp,fun _ => rfl,rfl⟩
  | false => exact ⟨rfl,rfl,by simp,fun _ => rfl,rfl⟩

variable [DecidableEq T]

theorem caller_accounts {w : T} (hs : Accounts cfg s) (h : s.advanceCaller w = some t) : Accounts cfg t := by
  unfold State.advanceCaller at h
  split at h <;> (try split_ifs at h) <;> cases h
  all_goals exact hs.of_same rfl rfl rfl rfl rfl rfl rfl rfl

theorem step_accounts {a : Act T} (hlife : Life cfg s) (hs : Accounts cfg s) (h : step cfg s a = some t) :
    Accounts cfg t := by
  cases a with
  | acceptor a => exact effect_accounts hlife.built (advance_over h) hs (advance_effect h)
  | caller w =>
    simp only [step] at h
    split_ifs at h
    exact caller_accounts hs h
  | connect =>
    simp only [step] at h
    split_ifs at h
    cases h
    exact hs.of_same rfl rfl rfl rfl rfl rfl rfl rfl
  | setActive n =>
    cases h
    exact hs.of_same rfl rfl rfl rfl rfl rfl rfl rfl

theorem run_accounts {as : List (Act T)} (h : exec (step cfg) (started cfg) as = some s) : Accounts cfg s :=
  (exec_of_steps (I := fun s => Life cfg s ∧ Accounts cfg s)
    (fun _ _ _ hs hstep => ⟨step_life hs.1 hstep,step_accounts hs.1 hs.2 hstep⟩)
    ⟨started_life cfg,started_accounts cfg⟩ h).2

end Accounts

theorem turns_count {handed : List ℕ} {n r : ℕ} (h : handed = (List.range handed.length).map (fun i => i % 2 ^ 64 % n))
    (hlen : handed.length ≤ 2 ^ 64) (hr : r < n) :
    handed.count r = handed.length / n + if r < handed.length % n then 1 else 0 := by
  have hcount : handed.count r = Nat.count (· ≡ r [MOD n]) handed.length := by
    conv_lhs => rw [h]
    rw [List.count, List.countP_map, Nat.count]
    refine List.countP_congr (fun i hi => ?_)
    have hsmall : i % 2 ^ 64 = i := Nat.mod_eq_of_lt (lt_of_lt_of_le (List.mem_range.mp hi) hlen)
    simp only [Function.comp_apply, hsmall, beq_iff_eq, decide_eq_true_eq, Nat.ModEq, Nat.mod_eq_of_lt hr]
  rw [hcount, Nat.count_modEq_card _ (Nat.zero_lt_of_lt hr), Nat.mod_eq_of_lt hr]

/-- In every run of the accept thread beside any calls of `shutdown`: every accepted connection is handed over to a
reactor, refused or lost to a failed allocation, or it is in the hands of the thread. The two counters say so, and the
reactors get their connections by turns. -/
theorem connections_accounted {T : Type*} [DecidableEq T] {cfg : Config} {as : List (Act T)} {s : State T}
    (h : exec (step cfg) (started cfg) as = some s) :
    s.accepted = s.handed.length + s.refused + s.failed + s.pc.inHand ∧
    s.rejectedConnections = cfg.metrics.toNat * s.refused ∧
    s.totalConnections + (if cfg.multi then cfg.metrics.toNat * s.pc.uncounted else 0) =
      cfg.metrics.toNat * (s.handed.length + if cfg.multi then 0 else s.failed + s.pc.early) ∧
    (s.handed.length ≤ 2 ^ 64 → ∀ r < cfg.reactors, s.handed.count r =
      s.handed.length / cfg.reactors + if r < s.handed.length % cfg.reactors then 1 else 0) := by
  obtain ⟨haccepted,hrejected,htotal,-,hturns⟩ := run_accounts h
  exact ⟨haccepted,hrejected,htotal,fun hlen r hr => turns_count hturns hlen hr⟩

/-- From the wait to the inner loop. -/
def woken (events : List Event) : List (Act (Fin 1)) := [.acceptor .go,.acceptor (.ready events),.acceptor .go]

/-- A turn of the inner loop that hands a connection over, or refuses it. -/
def taken : List (Act (Fin 1)) := List.replicate 7 (.acceptor .go)
def turnedAway : List (Act (Fin 1)) := List.replicate 4 (.acceptor .go)

/-- Three clients for two reactors, with room for two. -/
theorem connections_accounted_three : ∃ s : State (Fin 1),
    exec (step { numReactors := 2, maxConnections := 2, metrics := true })
      (started { numReactors := 2, maxConnections := 2, metrics := true })
      ([[.acceptor .go,.acceptor .go,.acceptor .go,.connect,.connect,.connect],woken [.server],taken,
        [.setActive 1],taken,[.setActive 2],turnedAway] : List (List (Act (Fin 1)))).flatten = some s ∧
    s.handed = [0,1] ∧ s.refused = 1 ∧ s.accepted = s.handed.length + s.refused + s.failed + s.pc.inHand := by
  have hrun : (exec (step { numReactors := 2, maxConnections := 2, metrics := true })
      (started { numReactors := 2, maxConnections := 2, metrics := true })
      ([[.acceptor .go,.acceptor .go,.acceptor .go,.connect,.connect,.connect],woken [.server],taken,
        [.setActive 1],taken,[.setActive 2],turnedAway] : List (List (Act (Fin 1)))).flatten).map
      (fun s => (s.handed,s.refused)) = some ([0,1],1) := by
    decide
  obtain ⟨s,hs,hresult⟩ := Option.map_eq_some_iff.mp hrun
  obtain ⟨hhanded,hrefused⟩ := Prod.mk.inj hresult
  exact ⟨s,hs,hhanded,hrefused,(connections_accounted hs).1⟩

end ModernTcp.AcceptLoop
