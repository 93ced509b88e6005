import Mathlib.Data.List.Basic

/-! # Streams of frames

A stream holds encoded items behind one another, and a reader takes the first of them off it. When the reader waits
for the end of an item and then sees no more than that item, it can tell from any front part of a stream which items
have come.
-/
namespace ModernTcp.Frames
variable {α β γ : Type*}

/-- At most `n` items from the front of a stream. -/
def itemsIn (next : List α → Option (β × List α)) : ℕ → List α → List β
  | 0, _ => []
  | n + 1, s =>
    match next s with
    | none => []
    | some (b,rest) => b :: itemsIn next n rest

def items (next : List α → Option (β × List α)) (s : List α) : List β := itemsIn next s.length s

/-- The reader takes an item once it is there as a whole. -/
structure Reads (next : List α → Option (β × List α)) (encode : γ → List α) (view : γ → β) (P : γ → Prop) : Prop where
  ne_nil : ∀ g, P g → encode g ≠ []
  nil : next [] = none
  whole : ∀ g, P g → ∀ rest, next (encode g ++ rest) = some (view g,rest)
  part : ∀ g, P g → ∀ s, s <+: encode g → s ≠ encode g → next s = none

variable {next : List α → Option (β × List α)} {encode : γ → List α} {view : γ → β} {P : γ → Prop}

theorem itemsIn_of_none {s : List α} (h : next s = none) (n : ℕ) : itemsIn next n s = [] := by
  cases n with
  | zero => rfl
  | succ n => simp only [itemsIn, h]

/-- From a front part of a stream the reader gets the items that have come as a whole. -/
theorem itemsIn_of_prefix (h : Reads next encode view P) {gs : List γ} (hgs : ∀ g ∈ gs, P g)
    {n : ℕ} {s : List α} (hs : s <+: gs.flatMap encode) (hn : s.length ≤ n) :
    ∃ k ≤ gs.length, itemsIn next n s = (gs.take k).map view ∧ (gs.take k).flatMap encode <+: s ∧
      (k < gs.length → s.length < ((gs.take (k + 1)).flatMap encode).length) := by
  induction gs generalizing n s with
  | nil =>
    have hnil : s = [] := List.prefix_nil.mp hs
    refine ⟨0,Nat.le_refl 0,?_,List.nil_prefix,fun hlt => absurd hlt (Nat.lt_irrefl 0)⟩
    rw [hnil, itemsIn_of_none h.nil]
    rfl
  | cons g gs ih =>
    obtain ⟨hg,hrest⟩ := List.forall_mem_cons.mp hgs
    rw [List.flatMap_cons] at hs
    by_cases hwhole : encode g <+: s
    · obtain ⟨t,rfl⟩ := hwhole
      have hpos : 0 < (encode g).length := List.length_pos_iff.mpr (h.ne_nil g hg)
      have hnext : t <+: gs.flatMap encode := (List.prefix_append_right_inj _).mp hs
      rw [List.length_append] at hn
      obtain ⟨m,rfl⟩ : ∃ m, n = m + 1 := ⟨n - 1,by omega⟩
      obtain ⟨k,hk,hitems,hpre,hmore⟩ := ih hrest hnext (show t.length ≤ m by omega)
      refine ⟨k + 1,Nat.succ_le_succ hk,?_,?_,fun hlt => ?_⟩
      · rw [itemsIn, h.whole g hg t]
        exact congrArg (view g :: ·) hitems
      · rw [List.take_succ_cons, List.flatMap_cons]
        exact (List.prefix_append_right_inj _).mpr hpre
      · have hless := hmore (Nat.lt_of_succ_lt_succ hlt)
        rw [List.take_succ_cons, List.flatMap_cons, List.length_append, List.length_append]
        omega
    · have hpart : s <+: encode g := by
        rcases List.prefix_or_prefix_of_prefix hs (List.prefix_append _ _) with hs | hs
        · exact hs
        · exact absurd hs hwhole
      have hproper : s ≠ encode g := fun heq => hwhole (heq ▸ List.prefix_refl s)
      refine ⟨0,Nat.zero_le _,itemsIn_of_none (h.part g hg s hpart hproper) n,List.nil_prefix,fun _ => ?_⟩
      have hlen : s.length ≠ (encode g).length := fun hlen => hproper (hpart.eq_of_length hlen)
      have hle := hpart.length_le
      simp only [List.take_succ_cons, List.take_zero, List.flatMap_cons, List.flatMap_nil, List.append_nil]
      omega

theorem items_of_prefix (h : Reads next encode view P) {gs : List γ} (hgs : ∀ g ∈ gs, P g)
    {s : List α} (hs : s <+: gs.flatMap encode) :
    ∃ k ≤ gs.length, items next s = (gs.take k).map view ∧ (gs.take k).flatMap encode <+: s ∧
      (k < gs.length → s.length < ((gs.take (k + 1)).flatMap encode).length) :=
  itemsIn_of_prefix h hgs hs (Nat.le_refl _)

theorem items_encode (h : Reads next encode view P) {gs : List γ} (hgs : ∀ g ∈ gs, P g) :
    items next (gs.flatMap encode) = gs.map view := by
  obtain ⟨k,hk,hitems,hpre,hmore⟩ := items_of_prefix h hgs (List.prefix_refl _)
  rcases Nat.lt_or_eq_of_le hk with hlt | rfl
  · have hless := hmore hlt
    have hle : ((gs.take (k + 1)).flatMap encode).length ≤ (gs.flatMap encode).length := by
      have hsplit := congrArg List.length (congrArg (List.flatMap encode) (List.take_append_drop (k + 1) gs))
      rw [List.flatMap_append, List.length_append] at hsplit
      omega
    omega
  · rwa [List.take_length] at hitems

end ModernTcp.Frames
