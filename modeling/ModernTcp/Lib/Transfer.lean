import Mathlib.Data.List.Basic
import Mathlib.Tactic

/-! # A transfer in several calls

A transfer asks again and again for what is left, until everything is moved. One call moves some of what it was
asked for, or it is interrupted, would block or fails. How the calls end is a script, so that what holds for every
script holds for every behaviour of the other side.
-/
namespace ModernTcp.Transfer

inductive Reply
  | moved (n : ℕ)
  | interrupted
  | wouldBlock
  | failed
deriving DecidableEq

inductive Ending
  | full | wouldBlock | failed | closed
deriving DecidableEq

structure Outcome where
  ending : Ending
  done : ℕ
  rest : List Reply
deriving DecidableEq

/-- The transfer of `count` items of which `done` are moved. No call moves more than it is asked for, or more than
there is. If `closes` is set, a call that moves nothing is the end. `none` when the script ends first. -/
def run (closes : Bool) (available count done : ℕ) : List Reply → Option Outcome
  | [] => if count ≤ done then some ⟨.full,done,[]⟩ else none
  | r :: rest =>
    if count ≤ done then some ⟨.full,done,r :: rest⟩
    else match r with
      | .interrupted => run closes available count done rest
      | .wouldBlock => some ⟨.wouldBlock,done,rest⟩
      | .failed => some ⟨.failed,done,rest⟩
      | .moved n =>
        let step := min n (min (count - done) (available - done))
        if step = 0 ∧ closes then some ⟨.closed,done,rest⟩
        else run closes available count (done + step) rest

variable {closes : Bool} {available count start : ℕ} {script : List Reply} {o : Outcome}

theorem run_of_full (hfull : count ≤ start) : run closes available count start script = some ⟨.full,start,script⟩ := by
  cases script with
  | nil => exact if_pos hfull
  | cons r rest =>
    unfold run
    exact if_pos hfull

/-- How much a transfer moves, and which of the replies it has used made it end. -/
structure Ends (closes : Bool) (available count start : ℕ) (used : List Reply) (o : Outcome) : Prop where
  start_le : start ≤ o.done
  le_count : o.done ≤ count
  le_available : o.done ≤ available
  full_iff : o.ending = .full ↔ o.done = count
  wouldBlock_iff : o.ending = .wouldBlock ↔ .wouldBlock ∈ used
  failed_iff : o.ending = .failed ↔ .failed ∈ used
  closed_imp : o.ending = .closed → closes = true ∧ (.moved 0 ∈ used ∨ o.done = available)

/-- One more reply in front that did not end the transfer. -/
theorem Ends.cons {next : ℕ} {used : List Reply} (h : Ends closes available count next used o) (hle : start ≤ next)
    {r : Reply} (hblock : r ≠ .wouldBlock) (hfail : r ≠ .failed) : Ends closes available count start (r :: used) o where
  start_le := hle.trans h.start_le
  le_count := h.le_count
  le_available := h.le_available
  full_iff := h.full_iff
  wouldBlock_iff := by rw [h.wouldBlock_iff, List.mem_cons, or_iff_right (Ne.symm hblock)]
  failed_iff := by rw [h.failed_iff, List.mem_cons, or_iff_right (Ne.symm hfail)]
  closed_imp hclosed := (h.closed_imp hclosed).imp id (Or.imp_left (List.mem_cons_of_mem _))

theorem ends_full (hle : start ≤ count) (ha : start ≤ available) (hfull : count ≤ start) (rest : List Reply) :
    Ends closes available count start [] ⟨.full,start,rest⟩ where
  start_le := le_rfl
  le_count := hle
  le_available := ha
  full_iff := iff_of_true rfl (le_antisymm hle hfull)
  wouldBlock_iff := by simp
  failed_iff := by simp
  closed_imp hclosed := by cases hclosed

/-- A transfer that ends has used a front part of its script. -/
theorem run_ends (h : run closes available count start script = some o) (hle : start ≤ count)
    (ha : start ≤ available) : ∃ used, script = used ++ o.rest ∧ Ends closes available count start used o := by
  induction script generalizing start with
  | nil =>
    unfold run at h
    split_ifs at h with hfull
    cases h
    exact ⟨[],rfl,ends_full hle ha hfull []⟩
  | cons r rest ih =>
    unfold run at h
    split_ifs at h with hfull
    · cases h
      exact ⟨[],rfl,ends_full hle ha hfull _⟩
    have hlt : start ≠ count := fun heq => hfull heq.ge
    cases r with
    | interrupted =>
      obtain ⟨used,rfl,hends⟩ := ih h hle ha
      exact ⟨.interrupted :: used,rfl,hends.cons le_rfl (by decide) (by decide)⟩
    | wouldBlock =>
      cases h
      exact ⟨[.wouldBlock],rfl,le_rfl,hle,ha,by simp [hlt],by simp,by simp,fun hclosed => by cases hclosed⟩
    | failed =>
      cases h
      exact ⟨[.failed],rfl,le_rfl,hle,ha,by simp [hlt],by simp,by simp,fun hclosed => by cases hclosed⟩
    | moved n =>
      dsimp only at h
      split_ifs at h with hzero
      · cases h
        refine ⟨[.moved n],rfl,le_rfl,hle,ha,by simp [hlt],by simp,by simp,fun _ => ⟨hzero.2,?_⟩⟩
        by_cases hn : n = 0
        · exact Or.inl (by simp [hn])
        · exact Or.inr (by dsimp only; omega)
      · obtain ⟨used,rfl,hends⟩ := ih h (by omega) (by omega)
        exact ⟨.moved n :: used,rfl,hends.cons (Nat.le_add_right _ _) (by simp) (by simp)⟩

/-- With as many replies that are no interruptions as there is to move, the transfer comes to an end, unless calls
move nothing without closing. -/
theorem run_isSome (hmoves : closes = true ∨ count ≤ available ∧ .moved 0 ∉ script)
    (henough : count - start ≤ script.countP (· ≠ .interrupted)) :
    (run closes available count start script).isSome = true := by
  induction script generalizing start with
  | nil =>
    rw [List.countP_nil] at henough
    rw [run_of_full (by omega)]
    rfl
  | cons r rest ih =>
    unfold run
    split_ifs with hfull
    · rfl
    have hrest : closes = true ∨ count ≤ available ∧ .moved 0 ∉ rest :=
      hmoves.imp id (And.imp_right fun hno hmem => hno (List.mem_cons_of_mem _ hmem))
    cases r with
    | interrupted => exact ih hrest (by simpa using henough)
    | wouldBlock => rfl
    | failed => rfl
    | moved n =>
      have hcount : count - start ≤ rest.countP (· ≠ .interrupted) + 1 := by simpa using henough
      dsimp only
      split_ifs with hzero
      · rfl
      · have hpos : 0 < min n (min (count - start) (available - start)) := by
          rcases hmoves with hcloses | ⟨havail,hno⟩
          · exact Nat.pos_of_ne_zero fun hz => hzero ⟨hz,hcloses⟩
          · have hn : n ≠ 0 := fun hz => hno (by simp [hz])
            omega
        exact ih hrest (by omega)

def Moves (script : List Reply) : Prop := ∀ r ∈ script, r = .interrupted ∨ ∃ n, 0 < n ∧ r = .moved n

theorem done_of_moves (hmoves : Moves script) (havail : count ≤ available)
    (h : run closes available count 0 script = some o) : o.ending = .full ∧ o.done = count := by
  obtain ⟨used,rfl,hends⟩ := run_ends h (Nat.zero_le _) (Nat.zero_le _)
  have hused : ∀ r ∈ used, r = .interrupted ∨ ∃ n, 0 < n ∧ r = .moved n :=
    fun r hr => hmoves r (List.mem_append_left _ hr)
  have hfull : o.ending = .full := by
    cases hend : o.ending with
    | full => rfl
    | wouldBlock => simpa using hused _ (hends.wouldBlock_iff.mp hend)
    | failed => simpa using hused _ (hends.failed_iff.mp hend)
    | closed =>
      rcases (hends.closed_imp hend).2 with hzero | hall
      · have hpos := hused _ hzero
        simp at hpos
      · have hle := hends.le_count
        have hno : o.ending ≠ .full := by rw [hend]; decide
        exact absurd (hends.full_iff.mpr (by omega)) hno
  exact ⟨hfull,hends.full_iff.mp hfull⟩

end ModernTcp.Transfer
