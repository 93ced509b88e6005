import ModernTcp.Lib.Decimal

/-! # JSON objects

The part of JSON with objects, plain strings, and numbers without an exponent: each text of it is a JSON text. The
grammar takes a phrase off the front of a byte string, and the decoder finds the one value that the grammar allows.
-/
namespace ModernTcp.Json

inductive Value
  | number (q : ℚ)
  | string (s : List UInt8)
  | object (members : List (List UInt8 × Value))

def isBlank (b : UInt8) : Bool := b == 32 || b == 9 || b == 10 || b == 13

/-- The printable characters that stand for themselves in a string. -/
def isPlain (b : UInt8) : Bool := 32 ≤ b && b < 127 && b != 34 && b != 92

def numberText (neg : Bool) (int frac : List UInt8) : List UInt8 :=
  (if neg then [45] else []) ++ int ++ if frac = [] then [] else 46 :: frac

def numberValue (neg : Bool) (int frac : List UInt8) : ℚ :=
  (if neg then -1 else 1) * (digitsValue int + digitsValue frac / 10 ^ frac.length)

/-- An integer part has a digit, and no zero in front of others. -/
def IsInt (int : List UInt8) : Prop := int ≠ [] ∧ (int.head? = some 48 → int.length = 1)

instance : DecidablePred IsInt := fun _ => inferInstanceAs (Decidable (_ ∧ _))

/-- A number ends where neither a digit nor a fraction follows. -/
def Ends (rest : List UInt8) : Prop := ∀ b ∈ rest.head?, isDigit b = false ∧ b ≠ 46

inductive Phrase
  | value (v : Value)
  /-- The members of an object, with the brace that ends it. -/
  | members (ms : List (List UInt8 × Value))

def AllBlank (w : List UInt8) : Prop := ∀ b ∈ w, isBlank b = true

/-- A key in its quotation marks, and the colon. -/
def keyText (key x y : List UInt8) : List UInt8 := 34 :: (key ++ 34 :: (x ++ 58 :: y))

/-- The first string begins with the phrase, and the second one is the rest of it. -/
inductive Reads : Phrase → List UInt8 → List UInt8 → Prop
  | number {neg : Bool} {int frac rest : List UInt8} (hint : IsInt int) (hdigits : ∀ b ∈ int ++ frac, isDigit b = true)
      (hend : Ends rest) : Reads (.value (.number (numberValue neg int frac))) (numberText neg int frac ++ rest) rest
  | string {s rest : List UInt8} (hs : ∀ b ∈ s, isPlain b = true) :
      Reads (.value (.string s)) (34 :: (s ++ 34 :: rest)) rest
  | object {ms : List (List UInt8 × Value)} {s rest : List UInt8} (h : Reads (.members ms) s rest) :
      Reads (.value (.object ms)) (123 :: s) rest
  | noMembers {w rest : List UInt8} (hw : AllBlank w) : Reads (.members []) (w ++ 125 :: rest) rest
  | lastMember {key w x y u s rest : List UInt8} {v : Value} (hkey : ∀ b ∈ key, isPlain b = true)
      (hblank : AllBlank (w ++ x ++ y ++ u)) (h : Reads (.value v) s (u ++ 125 :: rest)) :
      Reads (.members [(key,v)]) (w ++ keyText key x y ++ s) rest
  | member {key w x y u s t rest : List UInt8} {v : Value} {ms : List (List UInt8 × Value)}
      (hkey : ∀ b ∈ key, isPlain b = true) (hblank : AllBlank (w ++ x ++ y ++ u))
      (h : Reads (.value v) s (u ++ 44 :: t)) (hmore : Reads (.members ms) t rest) (hms : ms ≠ []) :
      Reads (.members ((key,v) :: ms)) (w ++ keyText key x y ++ s) rest

/-- A whole text, with white space around its value. -/
def Text (v : Value) (s : List UInt8) : Prop :=
  ∃ w t u, AllBlank w ∧ AllBlank u ∧ s = w ++ t ∧ Reads (.value v) t u

def splitSign (s : List UInt8) : Bool × List UInt8 := if s.head? = some 45 then (true,s.drop 1) else (false,s)

def number (s : List UInt8) : Option (ℚ × List UInt8) :=
  let signed := splitSign s
  let int := signed.2.takeWhile isDigit
  let rest := signed.2.dropWhile isDigit
  if IsInt int then
    if rest.head? = some 46 then
      let frac := (rest.drop 1).takeWhile isDigit
      if frac = [] then none
      else some (numberValue signed.1 int frac,(rest.drop 1).dropWhile isDigit)
    else some (numberValue signed.1 int [],rest)
  else none

/-- A string behind its first quotation mark. -/
def string (s : List UInt8) : Option (List UInt8 × List UInt8) :=
  match s.dropWhile isPlain with
  | 34 :: rest => some (s.takeWhile isPlain,rest)
  | _ => none

/-- A key behind its first quotation mark, the colon, and the white space up to the value. -/
def key (s : List UInt8) : Option (List UInt8 × List UInt8) :=
  match string s with
  | none => none
  | some (name,rest) =>
    match rest.dropWhile isBlank with
    | 58 :: rest => some (name,rest.dropWhile isBlank)
    | _ => none

mutual

def value : ℕ → List UInt8 → Option (Value × List UInt8)
  | 0, _ => none
  | fuel + 1, s =>
    match s with
    | 34 :: rest => (string rest).map (fun r => (.string r.1,r.2))
    | 123 :: rest => (members fuel rest).map (fun r => (.object r.1,r.2))
    | _ => (number s).map (fun r => (.number r.1,r.2))

def members : ℕ → List UInt8 → Option (List (List UInt8 × Value) × List UInt8)
  | 0, _ => none
  | fuel + 1, s =>
    match s.dropWhile isBlank with
    | 125 :: rest => some ([],rest)
    | 34 :: rest =>
      match key rest with
      | none => none
      | some (name,rest) =>
        match value fuel rest with
        | none => none
        | some (v,rest) =>
          match rest.dropWhile isBlank with
          | 125 :: rest => some ([(name,v)],rest)
          | 44 :: rest =>
            match members fuel rest with
            | none | some ([],_) => none
            | some (m :: ms,rest) => some ((name,v) :: m :: ms,rest)
          | _ => none
    | _ => none

end

def decode (s : List UInt8) : Option Value :=
  match value s.length (s.dropWhile isBlank) with
  | none => none
  | some (v,rest) => if rest.all isBlank then some v else none

theorem dropWhile_blank {w : List UInt8} (hw : AllBlank w) {b : UInt8} (hb : isBlank b = false) (rest : List UInt8) :
    (w ++ b :: rest).dropWhile isBlank = b :: rest := by
  rw [List.dropWhile_append_of_pos hw, List.dropWhile_cons_of_neg (by rw [hb]; decide)]

theorem string_plain {s : List UInt8} (hs : ∀ b ∈ s, isPlain b = true) (rest : List UInt8) :
    string (s ++ 34 :: rest) = some (s,rest) := by
  have hquote : ¬ isPlain 34 = true := by decide
  unfold string
  rw [List.dropWhile_append_of_pos hs, List.takeWhile_append_of_pos hs, List.dropWhile_cons_of_neg hquote,
    List.takeWhile_cons_of_neg hquote, List.append_nil]
  rfl

/-- What follows the first quotation mark of a key. -/
theorem key_plain {name x y : List UInt8} (hname : ∀ b ∈ name, isPlain b = true) (hx : AllBlank x) (hy : AllBlank y)
    {b : UInt8} (hb : isBlank b = false) (rest : List UInt8) :
    key (name ++ 34 :: (x ++ 58 :: y) ++ b :: rest) = some (name,b :: rest) := by
  have hshape : name ++ 34 :: (x ++ 58 :: y) ++ b :: rest = name ++ 34 :: (x ++ 58 :: (y ++ b :: rest)) := by simp
  have hcolon : (x ++ 58 :: (y ++ b :: rest)).dropWhile isBlank = 58 :: (y ++ b :: rest) := dropWhile_blank hx (by decide) _
  simp only [key, hshape, string_plain hname, hcolon, dropWhile_blank hy hb]

theorem Ends.dropWhile {rest : List UInt8} (h : Ends rest) {ds : List UInt8} (hds : ∀ b ∈ ds, isDigit b = true) :
    (ds ++ rest).takeWhile isDigit = ds ∧ (ds ++ rest).dropWhile isDigit = rest := by
  rw [List.takeWhile_append_of_pos hds, List.dropWhile_append_of_pos hds]
  cases rest with
  | nil => exact ⟨List.append_nil ds,rfl⟩
  | cons b rest =>
    have hb : ¬ isDigit b = true := by
      rw [(h b rfl).1]
      decide
    rw [List.takeWhile_cons_of_neg hb, List.dropWhile_cons_of_neg hb, List.append_nil]
    exact ⟨rfl,rfl⟩

theorem front_of_digit {b : UInt8} (h : isDigit b = true) : b ≠ 45 ∧ b ≠ 34 ∧ b ≠ 123 ∧ isBlank b = false := by
  simp only [isDigit, Bool.and_eq_true, decide_eq_true_eq, UInt8.le_iff_toNat_le] at h
  refine ⟨?_,?_,?_,?_⟩
  · rintro rfl
    exact absurd h.1 (by decide)
  · rintro rfl
    exact absurd h.1 (by decide)
  · rintro rfl
    exact absurd h.2 (by decide)
  · by_contra hblank
    simp only [isBlank, Bool.not_eq_false, Bool.or_eq_true, beq_iff_eq] at hblank
    rcases hblank with ((rfl | rfl) | rfl) | rfl <;> exact absurd h.1 (by decide)

/-- The sign is the first byte, as digits begin otherwise. -/
theorem sign_front {neg : Bool} {int : List UInt8} (hint : IsInt int) (hdigits : ∀ b ∈ int, isDigit b = true)
    (t : List UInt8) : splitSign ((if neg then [45] else []) ++ (int ++ t)) = (neg,int ++ t) := by
  cases neg with
  | true => rfl
  | false =>
    cases int with
    | nil => exact absurd rfl hint.1
    | cons d int =>
      have hd := (front_of_digit (hdigits d List.mem_cons_self)).1
      simp [splitSign, hd]

theorem number_text {neg : Bool} {int frac rest : List UInt8} (hint : IsInt int)
    (hdigits : ∀ b ∈ int ++ frac, isDigit b = true) (hend : Ends rest) :
    number (numberText neg int frac ++ rest) = some (numberValue neg int frac,rest) := by
  obtain ⟨hints,hfracs⟩ := List.forall_mem_append.mp hdigits
  have hdot : isDigit 46 = false := by decide
  unfold number
  by_cases hfrac : frac = []
  · subst hfrac
    have hshape : numberText neg int [] ++ rest = (if neg then [45] else []) ++ (int ++ rest) := by
      simp [numberText]
    have hrest : ¬ rest.head? = some 46 := fun h => (hend 46 h).2 rfl
    obtain ⟨htake,hdrop⟩ := hend.dropWhile hints
    simp only [hshape, sign_front hint hints, htake, hdrop, if_pos hint, if_neg hrest]
  · have hshape : numberText neg int frac ++ rest = (if neg then [45] else []) ++ (int ++ 46 :: (frac ++ rest)) := by
      simp [numberText, hfrac]
    have hmiddle : (int ++ 46 :: (frac ++ rest)).takeWhile isDigit = int ∧
        (int ++ 46 :: (frac ++ rest)).dropWhile isDigit = 46 :: (frac ++ rest) := by
      rw [List.takeWhile_append_of_pos hints, List.dropWhile_append_of_pos hints,
        List.takeWhile_cons_of_neg (by rw [hdot]; decide), List.dropWhile_cons_of_neg (by rw [hdot]; decide),
        List.append_nil]
      exact ⟨rfl,rfl⟩
    obtain ⟨htake,hdrop⟩ := hend.dropWhile hfracs
    simp only [hshape, sign_front hint hints, hmiddle.1, hmiddle.2, if_pos hint, List.head?_cons, if_true,
      List.drop_succ_cons, List.drop_zero, htake, hdrop, if_neg hfrac]

/-- The first byte of a value tells its kind. -/
theorem Reads.front {v : Value} {s rest : List UInt8} (h : Reads (.value v) s rest) :
    ∃ b t, s = b :: t ∧ isBlank b = false := by
  cases h with
  | @number neg int frac _ hint hdigits hend =>
    cases neg with
    | true => exact ⟨45,_,rfl,by decide⟩
    | false =>
      cases int with
      | nil => exact absurd rfl hint.1
      | cons d int => exact ⟨d,_,rfl,(front_of_digit (hdigits d (by simp))).2.2.2⟩
  | string hs => exact ⟨34,_,rfl,by decide⟩
  | object h => exact ⟨123,_,rfl,by decide⟩

theorem Reads.length_lt {p : Phrase} {s rest : List UInt8} (h : Reads p s rest) : rest.length < s.length := by
  induction h with
  | @number neg int frac rest hint hdigits hend =>
    have hpos := List.length_pos_iff.mpr hint.1
    simp only [numberText, List.length_append]
    omega
  | string hs | noMembers hw =>
    simp only [List.length_append, List.length_cons]
    omega
  | object h ih =>
    rw [List.length_cons]
    omega
  | lastMember hkey hblank h ih =>
    simp only [List.length_append, List.length_cons] at ih ⊢
    omega
  | member hkey hblank h hmore hms ih ihMore =>
    simp only [List.length_append, List.length_cons] at ih ⊢
    omega

/-- What the decoder does with a phrase. -/
def Decodes : Phrase → ℕ → List UInt8 → List UInt8 → Prop
  | .value v, fuel, s, rest => value fuel s = some (v,rest)
  | .members ms, fuel, s, rest => members fuel s = some (ms,rest)

/-- A member up to the end of its value. -/
theorem members_front {name w x y : List UInt8} (hname : ∀ b ∈ name, isPlain b = true) (hw : AllBlank w)
    (hx : AllBlank x) (hy : AllBlank y) {v : Value} {s rest : List UInt8} (hs : Reads (.value v) s rest) (fuel : ℕ)
    (h : value fuel s = some (v,rest)) : members (fuel + 1) (w ++ keyText name x y ++ s) =
      match rest.dropWhile isBlank with
      | 125 :: rest => some ([(name,v)],rest)
      | 44 :: rest =>
        match members fuel rest with
        | none | some ([],_) => none
        | some (m :: ms,rest) => some ((name,v) :: m :: ms,rest)
      | _ => none := by
  obtain ⟨b,t,rfl,hb⟩ := hs.front
  have hquote : (w ++ keyText name x y ++ b :: t).dropWhile isBlank = 34 :: (name ++ 34 :: (x ++ 58 :: y) ++ b :: t) := by
    rw [List.append_assoc]
    exact dropWhile_blank hw (by decide) _
  simp only [members, hquote, key_plain hname hx hy hb, h]

theorem value_number {b : UInt8} (hquote : b ≠ 34) (hbrace : b ≠ 123) (fuel : ℕ) (t : List UInt8) :
    value (fuel + 1) (b :: t) = (number (b :: t)).map (fun r => (.number r.1,r.2)) := by
  rw [value]
  · exact fun rest h => hquote (List.cons.inj h).1
  · exact fun rest h => hbrace (List.cons.inj h).1

/-- By induction on the grammar; the fuel is more than the bytes that are left. -/
theorem Reads.decodes {p : Phrase} {s rest : List UInt8} (h : Reads p s rest) :
    ∀ fuel, s.length ≤ fuel → Decodes p fuel s rest := by
  induction h with
  | @number neg int frac rest hint hdigits hend =>
    intro fuel hfuel
    have hreads : Reads (.value (.number (numberValue neg int frac))) (numberText neg int frac ++ rest) rest :=
      .number hint hdigits hend
    have hlength := hreads.length_lt
    obtain ⟨fuel,rfl⟩ : ∃ n, fuel = n + 1 := ⟨fuel - 1,by omega⟩
    have hnumber : Json.number (numberText neg int frac ++ rest) = some (numberValue neg int frac,rest) :=
      number_text hint hdigits hend
    obtain ⟨b,t,hfront,hquote,hbrace⟩ : ∃ b t, numberText neg int frac ++ rest = b :: t ∧ b ≠ 34 ∧ b ≠ 123 := by
      cases neg with
      | true => exact ⟨45,_,rfl,by decide,by decide⟩
      | false =>
        cases int with
        | nil => exact absurd rfl hint.1
        | cons d int =>
          obtain ⟨-,hquote,hbrace,-⟩ := front_of_digit (hdigits d (by simp))
          exact ⟨d,_,rfl,hquote,hbrace⟩
    rw [hfront] at hnumber ⊢
    rw [Decodes, value_number hquote hbrace, hnumber, Option.map_some]
  | @string s rest hs =>
    intro fuel hfuel
    obtain ⟨fuel,rfl⟩ : ∃ n, fuel = n + 1 := ⟨fuel - 1,by simp at hfuel; omega⟩
    simp only [Decodes, value, string_plain hs, Option.map_some]
  | @object ms s rest h ih =>
    intro fuel hfuel
    rw [List.length_cons] at hfuel
    obtain ⟨fuel,rfl⟩ : ∃ n, fuel = n + 1 := ⟨fuel - 1,by omega⟩
    have hmembers : members fuel s = some (ms,rest) := ih fuel (by omega)
    simp only [Decodes, value, hmembers, Option.map_some]
  | @noMembers w rest hw =>
    intro fuel hfuel
    obtain ⟨fuel,rfl⟩ : ∃ n, fuel = n + 1 := ⟨fuel - 1,by simp at hfuel; omega⟩
    have hbrace : (w ++ 125 :: rest).dropWhile isBlank = 125 :: rest := dropWhile_blank hw (by decide) rest
    simp only [Decodes, members, hbrace]
  | @lastMember key w x y u s rest v hkey hblank h ih =>
    intro fuel hfuel
    simp only [AllBlank, List.forall_mem_append] at hblank
    obtain ⟨⟨⟨hw,hx⟩,hy⟩,hu⟩ := hblank
    simp only [keyText, List.length_append, List.length_cons] at hfuel
    obtain ⟨fuel,rfl⟩ : ∃ n, fuel = n + 1 := ⟨fuel - 1,by omega⟩
    have hvalue : value fuel s = some (v,u ++ 125 :: rest) := ih fuel (by omega)
    have hbrace : (u ++ 125 :: rest).dropWhile isBlank = 125 :: rest := dropWhile_blank hu (by decide) rest
    simp only [Decodes, members_front hkey hw hx hy h fuel hvalue, hbrace]
  | @member key w x y u s t rest v ms hkey hblank h hmore hms ih ihMore =>
    intro fuel hfuel
    simp only [AllBlank, List.forall_mem_append] at hblank
    obtain ⟨⟨⟨hw,hx⟩,hy⟩,hu⟩ := hblank
    have hlength := h.length_lt
    simp only [keyText, List.length_append, List.length_cons] at hfuel hlength
    obtain ⟨fuel,rfl⟩ : ∃ n, fuel = n + 1 := ⟨fuel - 1,by omega⟩
    have hvalue : value fuel s = some (v,u ++ 44 :: t) := ih fuel (by omega)
    have hcomma : (u ++ 44 :: t).dropWhile isBlank = 44 :: t := dropWhile_blank hu (by decide) t
    have hrest : members fuel t = some (ms,rest) := ihMore fuel (by omega)
    cases ms with
    | nil => exact absurd rfl hms
    | cons m ms => simp only [Decodes, members_front hkey hw hx hy h fuel hvalue, hcomma, hrest]

/-- So no text has two values. -/
theorem decode_text {v : Value} {s : List UInt8} (h : Text v s) : decode s = some v := by
  obtain ⟨w,t,u,hw,hu,rfl,hreads⟩ := h
  obtain ⟨b,t',rfl,hb⟩ := hreads.front
  have hvalue : value (w ++ b :: t').length (b :: t') = some (v,u) := by
    refine hreads.decodes _ ?_
    rw [List.length_append]
    omega
  have hend : u.all isBlank = true := List.all_eq_true.mpr hu
  simp only [decode, dropWhile_blank hw hb, hvalue, hend, if_true]

/-- The string is a text of the value wherever it ends. -/
def Writes (v : Value) (s : List UInt8) : Prop := ∀ rest, Ends rest → Reads (.value v) (s ++ rest) rest

/-- Members with the same white space around each of them. -/
def membersText (w y u : List UInt8) : List (List UInt8 × List UInt8) → List UInt8
  | [] => u ++ [125]
  | [(key,s)] => w ++ keyText key [] y ++ s ++ u ++ [125]
  | (key,s) :: field :: fields => w ++ keyText key [] y ++ s ++ 44 :: membersText w y u (field :: fields)

def objectText (w y u : List UInt8) (fields : List (List UInt8 × List UInt8)) : List UInt8 :=
  123 :: membersText w y u fields

/-- A member and its text. -/
def Member (field : List UInt8 × List UInt8) (m : List UInt8 × Value) : Prop :=
  field.1 = m.1 ∧ (∀ b ∈ field.1, isPlain b = true) ∧ Writes m.2 field.2

variable {w y u : List UInt8} {fields : List (List UInt8 × List UInt8)} {ms : List (List UInt8 × Value)}

theorem ends_blank {b : UInt8} (h : isDigit b = false ∧ b ≠ 46) (rest : List UInt8) : Ends (b :: rest) := by
  intro c hc
  obtain rfl : b = c := Option.some.inj hc
  exact h

theorem not_digit_of_blank {b : UInt8} (h : isBlank b = true) : isDigit b = false ∧ b ≠ 46 := by
  simp only [isBlank, Bool.or_eq_true, beq_iff_eq] at h
  rcases h with ((rfl | rfl) | rfl) | rfl <;> decide

/-- A number ends at white space and at what stands between members. -/
theorem ends_behind (hu : AllBlank u) {b : UInt8} (hb : isDigit b = false ∧ b ≠ 46) (rest : List UInt8) :
    Ends (u ++ b :: rest) := by
  cases u with
  | nil => exact ends_blank hb rest
  | cons c u => exact ends_blank (not_digit_of_blank (hu c List.mem_cons_self)) _

theorem reads_members (hw : AllBlank w) (hy : AllBlank y) (hu : AllBlank u) (h : List.Forall₂ Member fields ms)
    (rest : List UInt8) : Reads (.members ms) (membersText w y u fields ++ rest) rest := by
  induction fields generalizing ms with
  | nil =>
    cases h
    rw [membersText, List.append_assoc]
    exact .noMembers hu
  | cons field fields ih =>
    cases h with
    | @cons _ m _ ms hm hrest =>
      obtain ⟨key,s⟩ := field
      obtain ⟨key',v⟩ := m
      obtain ⟨rfl,hkey,hwrites⟩ := hm
      cases fields with
      | nil =>
        cases hrest
        have hshape : membersText w y u [(key,s)] ++ rest = w ++ keyText key [] y ++ (s ++ (u ++ 125 :: rest)) := by
          simp [membersText]
        have hblank : AllBlank (w ++ [] ++ y ++ u) := by
          simp only [AllBlank, List.append_nil, List.forall_mem_append]
          exact ⟨⟨hw,hy⟩,hu⟩
        rw [hshape]
        exact .lastMember hkey hblank (hwrites _ (ends_behind hu (by decide) rest))
      | cons field fields =>
        have hshape : membersText w y u ((key,s) :: field :: fields) ++ rest =
            w ++ keyText key [] y ++ (s ++ 44 :: (membersText w y u (field :: fields) ++ rest)) := by
          simp [membersText]
        have hblank : AllBlank (w ++ [] ++ y ++ []) := by
          simp only [AllBlank, List.append_nil, List.forall_mem_append]
          exact ⟨hw,hy⟩
        have hne : ms ≠ [] := by
          rintro rfl
          cases hrest
        rw [hshape]
        exact .member hkey hblank (hwrites _ (ends_blank (by decide) _)) (ih hrest) hne

theorem Writes.member {v : Value} {s : List UInt8} (h : Writes v s) (name : List UInt8) (hname : name.all isPlain = true) :
    Member (name,s) (name,v) :=
  ⟨rfl,List.all_eq_true.mp hname,h⟩

theorem Writes.object (hw : w.all isBlank = true) (hy : y.all isBlank = true) (hu : u.all isBlank = true)
    (h : List.Forall₂ Member fields ms) : Writes (.object ms) (objectText w y u fields) :=
  fun rest _ => .object (reads_members (List.all_eq_true.mp hw) (List.all_eq_true.mp hy) (List.all_eq_true.mp hu) h rest)

theorem Writes.string (s : List UInt8) (hs : s.all isPlain = true) : Writes (.string s) (34 :: (s ++ [34])) := by
  intro rest _
  have hshape : 34 :: (s ++ [34]) ++ rest = 34 :: (s ++ 34 :: rest) := by simp
  rw [hshape]
  exact .string (List.all_eq_true.mp hs)

theorem Writes.number {neg : Bool} {int frac : List UInt8} (hint : IsInt int)
    (hdigits : ∀ b ∈ int ++ frac, isDigit b = true) :
    Writes (.number (numberValue neg int frac)) (numberText neg int frac) :=
  fun _ hend => .number hint hdigits hend

/-- What is written as a value is a text, also with white space behind it. -/
theorem Writes.text {v : Value} {s : List UInt8} (h : Writes v s) (hu : u.all isBlank = true) : Text v (s ++ u) := by
  have hblank : AllBlank u := List.all_eq_true.mp hu
  have hend : Ends u := fun b hb => not_digit_of_blank (hblank b (List.mem_of_mem_head? hb))
  exact ⟨[],s ++ u,u,List.forall_mem_nil _,hblank,rfl,h u hend⟩

end ModernTcp.Json
