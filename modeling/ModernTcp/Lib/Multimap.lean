import Mathlib.Data.List.Perm.Basic
import Mathlib.Order.Lattice

/-! # Ordered multimaps

A multimap is the list of its entries in the order of an iterator. A new entry goes behind the
entries of the same key; an iterator is the index of the entry it points to.
-/
namespace ModernTcp.Multimap
variable {K V : Type*}

def values (m : List (K × V)) : List V := m.map Prod.snd

@[simp] theorem values_nil : values ([] : List (K × V)) = [] := rfl

theorem values_eraseIdx_perm {m : List (K × V)} {e : K × V} {i : ℕ} (h : m[i]? = some e) :
    (e.2 :: values (m.eraseIdx i)).Perm (values m) := by
  obtain ⟨hi,rfl⟩ := List.getElem?_eq_some_iff.mp h
  exact (List.getElem_cons_eraseIdx_perm hi).map Prod.snd

theorem values_filter (m : List (K × V)) (p : V → Bool) :
    values (m.filter (fun e => p e.2)) = (values m).filter p := by
  rw [values, values, List.filter_map]
  rfl

variable [LinearOrder K]

/-- The first entry with a larger key. -/
def upperBound (m : List (K × V)) (k : K) : ℕ := m.findIdx (fun e => decide (k < e.1))

def emplace (m : List (K × V)) (k : K) (v : V) : List (K × V) := m.insertIdx (upperBound m k) (k,v)

/-- Where an iterator stands after an `emplace`: it keeps the entry it points to. -/
def afterEmplace (m : List (K × V)) (k : K) (pos : ℕ) : ℕ := if upperBound m k ≤ pos then pos + 1 else pos

/-- The order of the iterators. -/
def Sorted (m : List (K × V)) : Prop := m.Pairwise (fun a b => a.1 ≤ b.1)

theorem emplace_perm (m : List (K × V)) (k : K) (v : V) : (emplace m k v).Perm ((k,v) :: m) :=
  List.perm_insertIdx (k,v) m List.findIdx_le_length

theorem values_emplace_perm (m : List (K × V)) (k : K) (v : V) :
    (values (emplace m k v)).Perm (v :: values m) :=
  (emplace_perm m k v).map Prod.snd

theorem countP_emplace (p : K × V → Bool) (m : List (K × V)) (k : K) (v : V) :
    (emplace m k v).countP p = m.countP p + if p (k,v) then 1 else 0 := by
  rw [(emplace_perm m k v).countP_eq, List.countP_cons]

theorem mem_emplace {m : List (K × V)} {k : K} {v : V} {e : K × V} : e ∈ emplace m k v ↔ e = (k,v) ∨ e ∈ m := by
  rw [(emplace_perm m k v).mem_iff, List.mem_cons]

@[simp] theorem emplace_nil (k : K) (v : V) : emplace [] k v = [(k,v)] := rfl

theorem emplace_cons (e : K × V) (m : List (K × V)) (k : K) (v : V) :
    emplace (e :: m) k v = if k < e.1 then (k,v) :: e :: m else e :: emplace m k v := by
  unfold emplace upperBound
  rw [List.findIdx_cons]
  by_cases h : k < e.1
  · simp [h]
  · simp [h, List.insertIdx_succ_cons]

theorem Sorted.emplace {m : List (K × V)} (h : Sorted m) (k : K) (v : V) : Sorted (emplace m k v) := by
  induction m with
  | nil => exact List.pairwise_singleton _ _
  | cons e m ih =>
    obtain ⟨hhead,htail⟩ := List.pairwise_cons.mp h
    rw [emplace_cons]
    split
    · rename_i hk
      refine List.pairwise_cons.mpr ⟨?_,h⟩
      intro x hx
      rcases List.mem_cons.mp hx with rfl | hx
      · exact le_of_lt hk
      · exact le_trans (le_of_lt hk) (hhead x hx)
    · rename_i hk
      refine List.pairwise_cons.mpr ⟨?_,ih htail⟩
      intro x hx
      rcases mem_emplace.mp hx with rfl | hx
      · exact not_lt.mp hk
      · exact hhead x hx

theorem Sorted.sublist {m n : List (K × V)} (h : Sorted m) (hsub : n.Sublist m) : Sorted n := List.Pairwise.sublist hsub h

/-- The first entry has the smallest key. -/
theorem Sorted.head_le {e x : K × V} {m : List (K × V)} (h : Sorted (e :: m)) (hx : x ∈ e :: m) : e.1 ≤ x.1 := by
  rcases List.mem_cons.mp hx with rfl | hx
  · exact le_refl _
  · exact (List.pairwise_cons.mp h).1 x hx

/-- An entry that goes before the others moves the iterator, any other one leaves it at the front. -/
theorem afterEmplace_cons_zero (e : K × V) (m : List (K × V)) (k : K) :
    afterEmplace (e :: m) k 0 = if k < e.1 then 1 else 0 := by
  unfold afterEmplace upperBound
  rw [List.findIdx_cons]
  by_cases h : k < e.1
  · simp [h]
  · simp [h]

end ModernTcp.Multimap
