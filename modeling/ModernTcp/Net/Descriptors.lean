import Mathlib.Tactic

/-! # Descriptors of accepted connections

The descriptor table of the process, the accept loop and the teardown of connections. A
number belongs to the connection whose `accept4` returned it until somebody closes it, and
may then be returned again. `BaseConnection::shutdown` closes the number and destroys its
`SocketPtr`; `SocketDeleter` shuts down and closes the number again and `~SocketFd` closes it
once more. Every system call of a teardown is a step of its own.
-/
namespace ModernTcp.Descriptors

inductive Syscall
  | shutdown | close
deriving DecidableEq

/-- `SocketDeleter` and the destructor of `SocketFd` that it runs. -/
def socketDeleter : List Syscall := [.shutdown,.close,.close]

/-- What becomes of a descriptor in the accept loop. It is refused, by the connection limit or
because the `SocketFd` cannot be allocated, or it is wrapped into a `SocketPtr`. A wrapped one
finds no reactor, is not taken over by `add_connection`, sees an exception, or becomes a
connection. -/
inductive Fate
  | refused | noReactor | notAdded | threw | connection
deriving DecidableEq

/-- The system calls the accept loop issues itself. -/
def Fate.calls : Fate → List Syscall
  | .refused => [.close]
  | .noReactor => .close :: socketDeleter
  | .notAdded => socketDeleter
  | .threw => socketDeleter ++ [.close]
  | .connection => []

/-- A descriptor that `accept4` has returned. `socket` says that a `SocketPtr` still holds it,
`todo` is the rest of its teardown and `closes` counts the calls of `close` so far. -/
structure Descriptor where
  fd : ℕ := 0
  wrapped : Bool := false
  socket : Bool := false
  running : Bool := false
  todo : List Syscall := []
  closes : ℕ := 0
deriving DecidableEq

def Fate.descriptor (fate : Fate) (fd : ℕ) : Descriptor :=
  { fd
    wrapped := fate ≠ .refused
    socket := fate = .connection
    running := fate = .connection
    todo := fate.calls }

/-- Connections are numbered in the order of their `accept4`. `foreign` lists the system calls
that hit the descriptor of another connection. -/
structure State where
  table : ℕ → Option ℕ := fun _ => none
  conn : ℕ → Descriptor := fun _ => {}
  count : ℕ := 0
  foreign : List (ℕ × ℕ) := []

/-- `linger` says whether `setsockopt` succeeds; if it throws, the `SocketPtr` stays. -/
inductive Act
  | accept (fd : ℕ) (fate : Fate)
  | shutdown (i : ℕ) (linger : Bool)
  | destroy (i : ℕ) (linger : Bool)
  | syscall (i : ℕ)
deriving DecidableEq

/-- `BaseConnection::shutdown`, which only the first call gets past the exchange of `running_`. -/
def Descriptor.shutdown (d : Descriptor) (linger : Bool) : Descriptor :=
  if d.running then
    if linger then { d with running := false, socket := false, todo := .close :: socketDeleter }
    else { d with running := false }
  else d

/-- `~BaseConnection`: the same once more, and then the member `socket_`. -/
def Descriptor.destroy (d : Descriptor) (linger : Bool) : Descriptor :=
  if (d.shutdown linger).socket then { d.shutdown linger with socket := false, todo := socketDeleter }
  else d.shutdown linger

/-- The system call `c` of connection `i` on its number. -/
def State.call (s : State) (i : ℕ) (c : Syscall) (rest : List Syscall) : State :=
  let d := s.conn i
  { s with
    table := if c = .close then Function.update s.table d.fd none else s.table
    conn := Function.update s.conn i
      { d with todo := rest, closes := if c = .close then d.closes + 1 else d.closes }
    foreign := match s.table d.fd with
      | some j => if j = i then s.foreign else s.foreign ++ [(i,j)]
      | none => s.foreign }

def step (s : State) : Act → Option State
  | .accept fd fate =>
    if s.table fd = none then
      some { s with
        table := Function.update s.table fd (some s.count)
        conn := Function.update s.conn s.count (fate.descriptor fd)
        count := s.count + 1 }
    else none
  | .shutdown i linger =>
    if i < s.count ∧ (s.conn i).socket = true then
      some { s with conn := Function.update s.conn i ((s.conn i).shutdown linger) }
    else none
  | .destroy i linger =>
    if i < s.count ∧ (s.conn i).socket = true then
      some { s with conn := Function.update s.conn i ((s.conn i).destroy linger) }
    else none
  | .syscall i =>
    match (s.conn i).todo with
    | [] => none
    | c :: rest => if i < s.count then some (s.call i c rest) else none

theorem step_cases {s t : State} {a : Act} (h : step s a = some t) :
    (∃ fd fate, a = .accept fd fate ∧ s.table fd = none ∧ t = { s with
      table := Function.update s.table fd (some s.count)
      conn := Function.update s.conn s.count (fate.descriptor fd)
      count := s.count + 1 }) ∨
    (∃ i linger d, i < s.count ∧ (s.conn i).socket = true ∧
      (d = (s.conn i).shutdown linger ∨ d = (s.conn i).destroy linger) ∧
      t = { s with conn := Function.update s.conn i d }) ∨
    ∃ i c rest, i < s.count ∧ (s.conn i).todo = c :: rest ∧ t = s.call i c rest := by
  cases a with
  | accept fd fate =>
    simp only [step] at h
    split at h <;> cases h
    rename_i hfree
    exact Or.inl ⟨fd,fate,rfl,hfree,rfl⟩
  | shutdown i linger =>
    simp only [step] at h
    split at h <;> cases h
    rename_i hgo
    exact Or.inr (Or.inl ⟨i,linger,_,hgo.1,hgo.2,Or.inl rfl,rfl⟩)
  | destroy i linger =>
    simp only [step] at h
    split at h <;> cases h
    rename_i hgo
    exact Or.inr (Or.inl ⟨i,linger,_,hgo.1,hgo.2,Or.inr rfl,rfl⟩)
  | syscall i =>
    cases htodo : (s.conn i).todo with
    | nil => simp [step, htodo] at h
    | cons c rest =>
      simp only [step, htodo] at h
      split at h <;> cases h
      rename_i hi
      exact Or.inr (Or.inr ⟨i,c,rest,hi,htodo,rfl⟩)

def Act.ends : Act → Option ℕ
  | .shutdown i _ | .destroy i _ => some i
  | .accept _ _ | .syscall _ => none

theorem shutdown_fd (d : Descriptor) (linger : Bool) : (d.shutdown linger).fd = d.fd := by
  unfold Descriptor.shutdown
  split
  · split <;> rfl
  · rfl

theorem destroy_fd (d : Descriptor) (linger : Bool) : (d.destroy linger).fd = d.fd := by
  unfold Descriptor.destroy
  split
  · exact shutdown_fd d linger
  · exact shutdown_fd d linger

theorem update_fd {s : State} {j : ℕ} {d : Descriptor} (hd : d.fd = (s.conn j).fd) (i : ℕ) :
    (Function.update s.conn j d i).fd = (s.conn i).fd := by
  by_cases hij : i = j
  · subst hij
    rw [Function.update_self, hd]
  · rw [Function.update_of_ne hij]

theorem update_running {s : State} {i j : ℕ} {d : Descriptor} (hd : i = j → d.running = (s.conn j).running) :
    (Function.update s.conn j d i).running = (s.conn i).running := by
  by_cases hij : i = j
  · rw [hij, Function.update_self, hd hij]
  · rw [Function.update_of_ne hij]

theorem step_frame {s t : State} {a : Act} (h : step s a = some t) :
    s.count ≤ t.count ∧ (∀ i < s.count, (t.conn i).fd = (s.conn i).fd) ∧
      ∀ i < s.count, a.ends ≠ some i → (t.conn i).running = (s.conn i).running := by
  cases a with
  | accept fd fate =>
    simp only [step] at h
    split at h <;> cases h
    refine ⟨Nat.le_succ _,?_,?_⟩
    · intro i hi
      exact congrArg Descriptor.fd (Function.update_of_ne (by omega) _ _)
    · intro i hi _
      exact congrArg Descriptor.running (Function.update_of_ne (by omega) _ _)
  | shutdown j linger =>
    simp only [step] at h
    split at h <;> cases h
    refine ⟨le_rfl,fun i _ => update_fd (shutdown_fd _ _) i,fun i _ hne => update_running (fun hij => ?_)⟩
    exact absurd (congrArg some hij.symm) hne
  | destroy j linger =>
    simp only [step] at h
    split at h <;> cases h
    refine ⟨le_rfl,fun i _ => update_fd (destroy_fd _ _) i,fun i _ hne => update_running (fun hij => ?_)⟩
    exact absurd (congrArg some hij.symm) hne
  | syscall j =>
    cases htodo : (s.conn j).todo with
    | nil => simp [step, htodo] at h
    | cons c rest =>
      simp only [step, htodo] at h
      split at h <;> cases h
      exact ⟨le_rfl,fun i _ => update_fd (by rfl) i,fun i _ _ => update_running (fun _ => by rfl)⟩

def RunningHeld (s : State) : Prop := ∀ i < s.count, (s.conn i).running = true → (s.conn i).socket = true

theorem shutdown_running (d : Descriptor) (linger : Bool) : (d.shutdown linger).running = false := by
  unfold Descriptor.shutdown
  split
  · split <;> rfl
  · rename_i h
    simpa using h

theorem step_runningHeld {s t : State} {a : Act} (hs : RunningHeld s) (h : step s a = some t) :
    RunningHeld t := by
  obtain ⟨fd,fate,-,-,rfl⟩ | ⟨i,linger,d,hi,-,hd,rfl⟩ | ⟨i,c,rest,hi,-,rfl⟩ := step_cases h
  · intro j hj
    dsimp only at hj ⊢
    by_cases hjc : j = s.count
    · subst hjc
      rw [Function.update_self]
      exact id
    · rw [Function.update_of_ne hjc]
      exact hs j (by omega)
  · intro j hj hrun
    dsimp only at hj hrun ⊢
    by_cases hji : j = i
    · subst hji
      rw [Function.update_self] at hrun
      have hend : d.running = false := by
        rcases hd with rfl | rfl
        · exact shutdown_running _ _
        · unfold Descriptor.destroy
          split <;> exact shutdown_running _ _
      rw [hend] at hrun
      cases hrun
    · rw [Function.update_of_ne hji] at hrun ⊢
      exact hs j hj hrun
  · intro j hj hrun
    by_cases hji : j = i
    · subst hji
      simp only [State.call, Function.update_self] at hrun ⊢
      exact hs j hj hrun
    · simp only [State.call, Function.update_of_ne hji] at hrun ⊢
      exact hs j hj hrun

end ModernTcp.Descriptors
