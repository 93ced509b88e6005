import ModernTcp.Lib.Loop
import ModernTcp.Net.SubReactor

/-! # The scan of the timeout map

The first loop of `check_timeouts` takes the entries that are due out of `timeout_map_` and puts
those of connections with later activity back. A connection whose idle time is over at this very
moment is not idle for longer than its timeout, and its new entry is due at once. It is behind the
iterator as long as another entry is due, so two such entries keep each other in the loop.
-/
namespace ModernTcp.SubReactor
open Multimap

def scanRound (r : Reactor) : Option Reactor :=
  match r.pc with
  | .scanning now pos expired => some (scanTimeouts r now pos expired)
  | _ => none

def startScan (r : Reactor) (now : ℤ) : Reactor := { r with pc := .scanning now 0 [] }

/-- The entry is due, and its connection reaches its timeout at `now`. -/
def atBoundary (connections : AList (fun _ : ℤ => Connection)) (now : ℤ) (e : ℤ × ℤ) : Bool :=
  decide (e.1 ≤ now) &&
    match connections.lookup e.2 with
    | none => false
    | some conn => conn.idleTimeoutEnabled && decide (conn.lastActive + conn.idleTimeout = now)

/-- Due entries that a round takes out for good or moves behind `now`. -/
def leavesScan (connections : AList (fun _ : ℤ => Connection)) (now : ℤ) (e : ℤ × ℤ) : Bool :=
  decide (e.1 ≤ now) && !atBoundary connections now e

section Scan
variable {r : Reactor} {now : ℤ} {pos : ℕ} {expired : List ℤ} {e : ℤ × ℤ} {rest : List (ℤ × ℤ)}

theorem scanTimeouts_not_due (h : ∀ e, r.timeoutMap[pos]? = some e → now < e.1) :
    scanTimeouts r now pos expired = { r with pc := .at (.expiring expired) } := by
  unfold scanTimeouts
  split
  · rfl
  · rename_i key fd hfirst
    rw [if_neg (not_le.mpr (h (key,fd) hfirst))]

theorem scanTimeouts_due (expired : List ℤ) (hmap : r.timeoutMap = e :: rest) (hdue : e.1 ≤ now) :
    (atBoundary r.connections now e = true ∧ scanTimeouts r now 0 expired = { r with
      timeoutMap := emplace rest now e.2, pc := .scanning now (afterEmplace rest now 0) expired }) ∨
    (atBoundary r.connections now e = false ∧ ((∃ expired', scanTimeouts r now 0 expired = { r with
      timeoutMap := rest, pc := .scanning now 0 expired' }) ∨
      ∃ next, now < next ∧ scanTimeouts r now 0 expired = { r with
        timeoutMap := emplace rest next e.2, pc := .scanning now (afterEmplace rest next 0) expired })) := by
  obtain ⟨key,fd⟩ := e
  have hfirst : r.timeoutMap[0]? = some (key,fd) := by rw [hmap]; rfl
  have hrest : r.timeoutMap.eraseIdx 0 = rest := by rw [hmap]; rfl
  have hkey : key ≤ now := hdue
  unfold scanTimeouts atBoundary
  simp only [hfirst, hkey, if_true, hrest, decide_true, Bool.true_and]
  cases hconn : r.connections.lookup fd with
  | none => exact Or.inr ⟨rfl,Or.inl ⟨expired,rfl⟩⟩
  | some conn =>
    dsimp only
    cases henabled : conn.idleTimeoutEnabled with
    | false => exact Or.inr ⟨rfl,Or.inl ⟨expired,by simp⟩⟩
    | true =>
      by_cases hidle : now - conn.lastActive > conn.idleTimeout
      · refine Or.inr ⟨?_,Or.inl ⟨expired ++ [fd],by simp [hidle]⟩⟩
        simp only [Bool.true_and, decide_eq_false_iff_not]
        omega
      · by_cases hnext : conn.lastActive + conn.idleTimeout = now
        · exact Or.inl ⟨by simp [hnext],by simp [hidle, hnext]⟩
        · refine Or.inr ⟨by simp [hnext],Or.inr ⟨conn.lastActive + conn.idleTimeout,by omega,?_⟩⟩
          simp [hidle]

theorem atBoundary_due (h : atBoundary r.connections now e = true) : e.1 ≤ now := by
  unfold atBoundary at h
  exact of_decide_eq_true (Bool.and_eq_true_iff.mp h).1

theorem atBoundary_again (h : atBoundary r.connections now e = true) : atBoundary r.connections now (now,e.2) = true := by
  unfold atBoundary at h ⊢
  rw [Bool.and_eq_true] at h ⊢
  exact ⟨decide_eq_true (le_refl now),h.2⟩

theorem not_atBoundary_later {next fd : ℤ} (h : now < next) : atBoundary r.connections now (next,fd) = false := by
  unfold atBoundary
  rw [decide_eq_false (not_le.mpr h), Bool.false_and]

/-- Two entries at the boundary, the iterator in front of both. -/
structure Trapped (now : ℤ) (r : Reactor) : Prop where
  scanning : ∃ expired, r.pc = .scanning now 0 expired
  sorted : Sorted r.timeoutMap
  two : 2 ≤ r.timeoutMap.countP (atBoundary r.connections now)

theorem afterEmplace_of_due {next : ℤ} (hsorted : Sorted rest) (hnext : now ≤ next)
    (hcount : 0 < rest.countP (atBoundary r.connections now)) : afterEmplace rest next 0 = 0 := by
  obtain ⟨x,hx,hbound⟩ := List.countP_pos_iff.mp hcount
  cases rest with
  | nil => cases hx
  | cons y rest =>
    have hy : y.1 ≤ now := le_trans (hsorted.head_le hx) (atBoundary_due hbound)
    rw [afterEmplace_cons_zero, if_neg (by omega)]

theorem scanRound_trapped (h : Trapped now r) : ∃ t, scanRound r = some t ∧ Trapped now t := by
  obtain ⟨⟨expired,hpc⟩,hsorted,htwo⟩ := h
  refine ⟨scanTimeouts r now 0 expired,by simp only [scanRound, hpc],?_⟩
  obtain ⟨x,hx,hbound⟩ := List.countP_pos_iff.mp (lt_of_lt_of_le Nat.zero_lt_two htwo)
  cases hmap : r.timeoutMap with
  | nil =>
    rw [hmap] at hx
    cases hx
  | cons e rest =>
    rw [hmap] at hx hsorted htwo
    have hdue : e.1 ≤ now := le_trans (hsorted.head_le hx) (atBoundary_due hbound)
    have hrest : Sorted rest := hsorted.sublist (List.sublist_cons_self e rest)
    rw [List.countP_cons] at htwo
    rcases scanTimeouts_due expired hmap hdue with ⟨hb,heq⟩ | ⟨hb,⟨expired',heq⟩ | ⟨next,hnext,heq⟩⟩
    · rw [hb, if_pos rfl] at htwo
      have hone : 0 < rest.countP (atBoundary r.connections now) := by omega
      rw [heq, afterEmplace_of_due hrest (le_refl now) hone]
      refine ⟨⟨expired,rfl⟩,hrest.emplace now e.2,?_⟩
      dsimp only
      rw [countP_emplace, atBoundary_again hb, if_pos rfl]
      omega
    · rw [hb, if_neg (by simp)] at htwo
      rw [heq]
      exact ⟨⟨expired',rfl⟩,hrest,htwo⟩
    · rw [hb, if_neg (by simp)] at htwo
      have hone : 0 < rest.countP (atBoundary r.connections now) := by omega
      rw [heq, afterEmplace_of_due hrest (le_of_lt hnext) hone]
      refine ⟨⟨expired,rfl⟩,hrest.emplace next e.2,?_⟩
      dsimp only
      rw [countP_emplace, not_atBoundary_later hnext, if_neg (by simp)]
      exact htwo

/-- One entry at the boundary at most; behind the front the iterator is past everything due. -/
structure Passing (now : ℤ) (r : Reactor) : Prop where
  front : ∀ now' pos expired, r.pc = .scanning now' pos expired →
    now' = now ∧ (pos = 0 ∨ ∀ e, r.timeoutMap[pos]? = some e → now < e.1)
  sorted : Sorted r.timeoutMap
  one : r.timeoutMap.countP (atBoundary r.connections now) ≤ 1

/-- A round lowers the number of entries that leave, or turns to one of them. -/
def scanMeasure (now : ℤ) (r : Reactor) : ℕ :=
  match r.pc with
  | .scanning _ 0 _ => 2 + 2 * r.timeoutMap.countP (leavesScan r.connections now) +
      (r.timeoutMap.head?.elim false (atBoundary r.connections now)).toNat
  | .scanning _ (_ + 1) _ => 1
  | _ => 0

theorem leave_passing (h : Passing now r) (hpc : r.pc = .scanning now pos expired)
    (hdue : ∀ e, r.timeoutMap[pos]? = some e → now < e.1) :
    Passing now (scanTimeouts r now pos expired) ∧
      scanMeasure now (scanTimeouts r now pos expired) < scanMeasure now r := by
  rw [scanTimeouts_not_due hdue]
  refine ⟨⟨?_,h.sorted,h.one⟩,?_⟩
  · intro _ _ _ hat
    cases hat
  unfold scanMeasure
  rw [hpc]
  cases pos with
  | zero =>
    dsimp only
    omega
  | succ pos => exact Nat.zero_lt_one

/-- A new entry that is not due stays behind the iterator, or is in front of it with nothing due
behind. -/
theorem afterEmplace_front (rest : List (ℤ × ℤ)) {next : ℤ} (fd : ℤ) (hnext : now ≤ next) :
    (afterEmplace rest next 0 = 0 ∧ ∃ y tail, rest = y :: tail ∧ y.1 ≤ next ∧
      emplace rest next fd = y :: emplace tail next fd) ∨
    (afterEmplace rest next 0 = 1 ∧ emplace rest next fd = (next,fd) :: rest ∧
      ∀ e, (emplace rest next fd)[1]? = some e → now < e.1) := by
  cases rest with
  | nil => exact Or.inr ⟨rfl,rfl,fun e he => by cases he⟩
  | cons y tail =>
    rw [afterEmplace_cons_zero, emplace_cons]
    by_cases hy : next < y.1
    · refine Or.inr ⟨if_pos hy,if_pos hy,?_⟩
      rw [if_pos hy]
      rintro _ ⟨⟩
      exact lt_of_le_of_lt hnext hy
    · refine Or.inl ⟨if_neg hy,y,tail,rfl,not_lt.mp hy,if_neg hy⟩

theorem leavesScan_of_atBoundary (h : atBoundary r.connections now e = true) : leavesScan r.connections now e = false := by
  unfold leavesScan
  rw [h, Bool.not_true, Bool.and_false]

theorem leavesScan_later {next : ℤ} (fd : ℤ) (h : now < next) : leavesScan r.connections now (next,fd) = false := by
  unfold leavesScan
  rw [decide_eq_false (not_le.mpr h), Bool.false_and]

theorem leavesScan_due (hdue : e.1 ≤ now) (h : atBoundary r.connections now e = false) :
    leavesScan r.connections now e = true := by
  unfold leavesScan
  rw [decide_eq_true hdue, h]
  rfl

theorem emplace_passing {next fd : ℤ} {expired' : List ℤ} (hsorted : Sorted rest) (hnext : now ≤ next)
    (hone : (emplace rest next fd).countP (atBoundary r.connections now) ≤ 1) :
    Passing now { r with timeoutMap := emplace rest next fd, pc := .scanning now (afterEmplace rest next 0) expired' } := by
  refine ⟨?_,hsorted.emplace next fd,hone⟩
  rintro _ _ _ ⟨⟩
  refine ⟨rfl,?_⟩
  rcases afterEmplace_front rest fd hnext with ⟨hzero,-⟩ | ⟨hmoved,-,hpast⟩
  · exact Or.inl hzero
  · rw [hmoved]
    exact Or.inr hpast

theorem emplace_measure (r : Reactor) (rest : List (ℤ × ℤ)) (expired : List ℤ) {next fd : ℤ} (hnext : now ≤ next)
    (hleaves : leavesScan r.connections now (next,fd) = false) :
    scanMeasure now { r with
      timeoutMap := emplace rest next fd, pc := .scanning now (afterEmplace rest next 0) expired } ≤
      2 + 2 * rest.countP (leavesScan r.connections now) +
        (rest.head?.elim false (atBoundary r.connections now)).toNat := by
  rcases afterEmplace_front rest fd hnext with ⟨hzero,y,tail,hrest,-,hfront⟩ | ⟨hmoved,-⟩
  · have hcount := countP_emplace (leavesScan r.connections now) rest next fd
    rw [hleaves, if_neg (by simp), add_zero] at hcount
    have hhead : (emplace rest next fd).head? = rest.head? := by
      rw [hfront, hrest]
      rfl
    simp only [scanMeasure, hzero, hcount, hhead, le_refl]
  · simp only [scanMeasure, hmoved]
    omega

theorem due_passing (h : Passing now r) (hpc : r.pc = .scanning now 0 expired) (hmap : r.timeoutMap = e :: rest)
    (hdue : e.1 ≤ now) : Passing now (scanTimeouts r now 0 expired) ∧
      scanMeasure now (scanTimeouts r now 0 expired) < scanMeasure now r := by
  obtain ⟨-,hsorted,hone⟩ := h
  rw [hmap] at hsorted hone
  rw [List.countP_cons] at hone
  have hrest : Sorted rest := hsorted.sublist (List.sublist_cons_self e rest)
  have hmeasure : scanMeasure now r = 2 + 2 * (rest.countP (leavesScan r.connections now) +
      if leavesScan r.connections now e then 1 else 0) + (atBoundary r.connections now e).toNat := by
    simp only [scanMeasure, hpc, hmap, List.countP_cons, List.head?_cons, Option.elim_some]
  rw [hmeasure]
  rcases scanTimeouts_due expired hmap hdue with ⟨hb,heq⟩ | ⟨hb,⟨expired',heq⟩ | ⟨next,hnext,heq⟩⟩
  · rw [hb, if_pos rfl] at hone
    rw [heq, hb, leavesScan_of_atBoundary hb]
    refine ⟨emplace_passing hrest (le_refl now) ?_,?_⟩
    · rw [countP_emplace, atBoundary_again hb, if_pos rfl]
      omega
    · have hle := emplace_measure r rest expired (le_refl now)
        (leavesScan_of_atBoundary (atBoundary_again hb))
      have hhead : rest.head?.elim false (atBoundary r.connections now) = false := by
        cases rest with
        | nil => rfl
        | cons y tail =>
          have hnone := List.countP_eq_zero.mp (show (y :: tail).countP (atBoundary r.connections now) = 0 by omega)
          simpa using hnone y List.mem_cons_self
      rw [hhead] at hle
      simp only [Bool.toNat_false, Bool.toNat_true] at hle ⊢
      omega
  · rw [hb, if_neg (by simp)] at hone
    rw [heq, hb, leavesScan_due hdue hb]
    refine ⟨⟨?_,hrest,hone⟩,?_⟩
    · rintro _ _ _ ⟨⟩
      exact ⟨rfl,Or.inl rfl⟩
    · have hle := Bool.toNat_le (rest.head?.elim false (atBoundary r.connections now))
      simp only [scanMeasure, if_pos, Bool.toNat_false]
      omega
  · rw [hb, if_neg (by simp)] at hone
    rw [heq, hb, leavesScan_due hdue hb]
    refine ⟨emplace_passing hrest (le_of_lt hnext) ?_,?_⟩
    · rw [countP_emplace, not_atBoundary_later hnext, if_neg (by simp)]
      exact hone
    · have hle := emplace_measure r rest expired (le_of_lt hnext) (leavesScan_later e.2 hnext)
      have hbit := Bool.toNat_le (rest.head?.elim false (atBoundary r.connections now))
      simp only [if_pos, Bool.toNat_false]
      omega

theorem scanRound_passing {t : Reactor} (h : Passing now r) (ht : scanRound r = some t) :
    Passing now t ∧ scanMeasure now t < scanMeasure now r := by
  unfold scanRound at ht
  split at ht
  · rename_i now' pos expired hpc
    cases ht
    obtain ⟨rfl,rfl | hpast⟩ := h.front _ _ _ hpc
    · cases hmap : r.timeoutMap with
      | nil => exact leave_passing h hpc (by simp [hmap])
      | cons e rest =>
        by_cases hdue : e.1 ≤ now'
        · exact due_passing h hpc hmap hdue
        · refine leave_passing h hpc ?_
          rw [hmap]
          rintro _ ⟨⟩
          exact not_le.mp hdue
    · exact leave_passing h hpc hpast
  · cases ht

end Scan

/-- The loop of `check_timeouts` ends unless two entries are at the boundary. -/
theorem check_timeouts_terminates_iff (r : Reactor) (now : ℤ) (hsorted : Sorted r.timeoutMap) :
    Loop.Halts scanRound (startScan r now) ↔ r.timeoutMap.countP (atBoundary r.connections now) ≤ 1 := by
  constructor
  · intro hhalts
    by_contra htwo
    have htrapped : Trapped now (startScan r now) := ⟨⟨[],rfl⟩,hsorted,not_le.mp htwo⟩
    exact Loop.not_halts_of_invariant (fun t ht => scanRound_trapped ht) htrapped hhalts
  · intro hone
    have hpassing : Passing now (startScan r now) := by
      refine ⟨?_,hsorted,hone⟩
      rintro _ _ _ ⟨⟩
      exact ⟨rfl,Or.inl rfl⟩
    exact Loop.halts_of_measure (fun t u ht hu => scanRound_passing ht hu) hpassing

/-- Connections that were last active at 0, with an idle timeout of 10 and an entry each. -/
def idleSince0 (fds : List ℤ) : Reactor :=
  { connections := fds.foldr (fun fd c => c.insert fd ⟨0,10,true⟩) ∅, timeoutMap := fds.map (fun fd => (10,fd)) }

theorem check_timeouts_terminates_one : Sorted (idleSince0 [5]).timeoutMap ∧
    (idleSince0 [5]).timeoutMap.countP (atBoundary (idleSince0 [5]).connections 10) ≤ 1 ∧
      Loop.Halts scanRound (startScan (idleSince0 [5]) 10) := by
  have hsorted : Sorted (idleSince0 [5]).timeoutMap := List.pairwise_singleton _ _
  have hone : (idleSince0 [5]).timeoutMap.countP (atBoundary (idleSince0 [5]).connections 10) ≤ 1 := by decide
  exact ⟨hsorted,hone,(check_timeouts_terminates_iff (idleSince0 [5]) 10 hsorted).mpr hone⟩

/-- Both connections reach their timeout at 10, and the loop moves their entries for ever. -/
theorem check_timeouts_loops : Sorted (idleSince0 [5,6]).timeoutMap ∧
    ¬ Loop.Halts scanRound (startScan (idleSince0 [5,6]) 10) := by
  have hsorted : Sorted (idleSince0 [5,6]).timeoutMap := by simp [idleSince0, Sorted]
  have htrapped : Trapped 10 (startScan (idleSince0 [5,6]) 10) := ⟨⟨[],rfl⟩,hsorted,by decide⟩
  exact ⟨hsorted,Loop.not_halts_of_invariant (fun t ht => scanRound_trapped ht) htrapped⟩

end ModernTcp.SubReactor
