import ModernTcp.Lib.Transfer
import ModernTcp.Net.ProtobufFraming
import ModernTcp.Net.TcpClient

/-! # `writen` and `readn`

The two loops of `net_utils.h` go on behind short counts and interruptions, with a pointer and the number of bytes
that are left. What the system calls return is a script: a count, or -1 with `EINTR`, with `EAGAIN` or
`EWOULDBLOCK`, or with any other error.
-/
namespace ModernTcp.NetUtils
open Transfer

abbrev SysResult := Transfer.Reply

/-- What `writen` returns, the bytes that its calls of `write` have sent, and the results it has not used. -/
structure Written where
  result : ℤ
  wire : List UInt8
  rest : List SysResult
deriving DecidableEq

/-- The loop of `writen`. `write` sends no more than it is given. -/
def writenLoop (buf : List UInt8) (count nleft ptr : ℕ) (wire : List UInt8) : List SysResult → Option Written
  | [] => if nleft = 0 then some ⟨count,wire,[]⟩ else none
  | r :: rest =>
    if nleft = 0 then some ⟨count,wire,r :: rest⟩
    else match r with
      | .interrupted => writenLoop buf count nleft ptr wire rest
      | .wouldBlock => some ⟨(count - nleft : ℕ),wire,rest⟩
      | .failed => some ⟨-1,wire,rest⟩
      | .moved n =>
        let nwritten := min n nleft
        writenLoop buf count (nleft - nwritten) (ptr + nwritten) (wire ++ (buf.drop ptr).take nwritten) rest

def writen (buf : List UInt8) (count : ℕ) (script : List SysResult) : Option Written :=
  writenLoop buf count count 0 [] script

/-- What `readn` returns, the memory that it was given, and what is left of the stream and of the results. -/
structure Readn where
  result : ℤ
  mem : List UInt8
  stream : List UInt8
  rest : List SysResult
deriving DecidableEq

/-- `data` behind the first `ptr` bytes. -/
def store (mem : List UInt8) (ptr : ℕ) (data : List UInt8) : List UInt8 :=
  mem.take ptr ++ data ++ mem.drop (ptr + data.length)

/-- The loop of `readn`. `read` stores no more than it is asked for and the stream has; 0 is its end. -/
def readnLoop (count nleft ptr : ℕ) (mem stream : List UInt8) : List SysResult → Option Readn
  | [] => if nleft = 0 then some ⟨count,mem,stream,[]⟩ else none
  | r :: rest =>
    if nleft = 0 then some ⟨count,mem,stream,r :: rest⟩
    else match r with
      | .interrupted => readnLoop count nleft ptr mem stream rest
      | .wouldBlock => some ⟨(count - nleft : ℕ),mem,stream,rest⟩
      | .failed => some ⟨-1,mem,stream,rest⟩
      | .moved n =>
        let nread := min n (min nleft stream.length)
        if nread = 0 then some ⟨-1,mem,stream,rest⟩
        else readnLoop count (nleft - nread) (ptr + nread) (store mem ptr (stream.take nread)) (stream.drop nread) rest

def readn (mem stream : List UInt8) (count : ℕ) (script : List SysResult) : Option Readn :=
  readnLoop count count 0 mem stream script

/-- `writen` as a transfer from the front of the buffer. -/
def written (buf : List UInt8) (o : Outcome) : Written where
  result := if o.ending = .failed then -1 else o.done
  wire := buf.take o.done
  rest := o.rest

/-- `readn` as a transfer to the front of the memory. -/
def stored (mem stream : List UInt8) (o : Outcome) : Readn where
  result := if o.ending = .failed ∨ o.ending = .closed then -1 else o.done
  mem := stream.take o.done ++ mem.drop o.done
  stream := stream.drop o.done
  rest := o.rest

section Refinement
variable {buf mem stream : List UInt8} {count done : ℕ} {script : List SysResult}

theorem writenLoop_full {ptr : ℕ} {wire : List UInt8} :
    writenLoop buf count 0 ptr wire script = some ⟨count,wire,script⟩ := by
  cases script <;> exact if_pos rfl

theorem writenLoop_eq (hle : done ≤ count) :
    writenLoop buf count (count - done) done (buf.take done) script =
      (Transfer.run false count count done script).map (written buf) := by
  induction script generalizing done with
  | nil =>
    rcases hle.eq_or_lt with rfl | hlt
    · rw [Nat.sub_self, writenLoop_full, run_of_full le_rfl]
      rfl
    · unfold writenLoop Transfer.run
      rw [if_neg (not_le.mpr hlt), if_neg (Nat.sub_ne_zero_of_lt hlt)]
      rfl
  | cons r rest ih =>
    rcases hle.eq_or_lt with rfl | hlt
    · rw [Nat.sub_self, writenLoop_full, run_of_full le_rfl]
      rfl
    · unfold writenLoop Transfer.run
      rw [if_neg (not_le.mpr hlt), if_neg (Nat.sub_ne_zero_of_lt hlt)]
      cases r with
      | interrupted => exact ih hle
      | wouldBlock =>
        dsimp only
        rw [Nat.sub_sub_self hle]
        rfl
      | failed => rfl
      | moved n =>
        have hnext := ih (show done + min n (count - done) ≤ count by omega)
        dsimp only
        rw [Nat.min_self, if_neg (by simp), ← hnext, ← List.take_add, Nat.sub_sub]

theorem writen_eq (buf : List UInt8) (count : ℕ) (script : List SysResult) :
    writen buf count script = (Transfer.run false count count 0 script).map (written buf) := by
  rw [← writenLoop_eq (Nat.zero_le _)]
  rfl

theorem store_front (hle : done ≤ stream.length) {n : ℕ} (hn : n ≤ stream.length - done) :
    store (stream.take done ++ mem.drop done) done ((stream.drop done).take n) =
      stream.take (done + n) ++ mem.drop (done + n) := by
  have hfront : (stream.take done).length = done := List.length_take_of_le hle
  have hdata : ((stream.drop done).take n).length = n := List.length_take_of_le (by rwa [List.length_drop])
  have htake : (stream.take done ++ mem.drop done).take done = stream.take done := List.take_left' hfront
  have hdrop : (stream.take done ++ mem.drop done).drop (done + n) = mem.drop (done + n) := by
    rw [← List.drop_drop, List.drop_left' hfront, List.drop_drop]
  rw [store, hdata, htake, hdrop, List.take_add]

theorem readnLoop_full {ptr : ℕ} : readnLoop count 0 ptr mem stream script = some ⟨count,mem,stream,script⟩ := by
  cases script <;> exact if_pos rfl

theorem readnLoop_eq (hle : done ≤ count) (havail : done ≤ stream.length) :
    readnLoop count (count - done) done (stream.take done ++ mem.drop done) (stream.drop done) script =
      (Transfer.run true stream.length count done script).map (stored mem stream) := by
  induction script generalizing done with
  | nil =>
    rcases hle.eq_or_lt with rfl | hlt
    · rw [Nat.sub_self, readnLoop_full, run_of_full le_rfl]
      rfl
    · unfold readnLoop Transfer.run
      rw [if_neg (not_le.mpr hlt), if_neg (Nat.sub_ne_zero_of_lt hlt)]
      rfl
  | cons r rest ih =>
    rcases hle.eq_or_lt with rfl | hlt
    · rw [Nat.sub_self, readnLoop_full, run_of_full le_rfl]
      rfl
    · unfold readnLoop Transfer.run
      rw [if_neg (not_le.mpr hlt), if_neg (Nat.sub_ne_zero_of_lt hlt)]
      cases r with
      | interrupted => exact ih hle havail
      | wouldBlock =>
        dsimp only
        rw [Nat.sub_sub_self hle]
        rfl
      | failed => rfl
      | moved n =>
        dsimp only
        rw [List.length_drop]
        generalize hstep : min n (min (count - done) (stream.length - done)) = step
        by_cases hzero : step = 0
        · rw [if_pos hzero, if_pos ⟨hzero,rfl⟩]
          rfl
        · have hnext := ih (show done + step ≤ count by omega) (by omega)
          rw [if_neg hzero, if_neg (fun h => hzero h.1), ← hnext, store_front havail (by omega), List.drop_drop,
            Nat.sub_sub]

theorem readn_eq (mem stream : List UInt8) (count : ℕ) (script : List SysResult) :
    readn mem stream count script = (Transfer.run true stream.length count 0 script).map (stored mem stream) := by
  rw [← readnLoop_eq (Nat.zero_le _) (Nat.zero_le _)]
  rfl

end Refinement

section Results
variable {buf mem stream : List UInt8} {count : ℕ} {script used : List SysResult}

/-- What `writen` has sent and returns when it has used these results. -/
structure Wrote (buf : List UInt8) (count : ℕ) (used : List SysResult) (w : Written) : Prop where
  front : w.wire <+: buf.take count
  failed : .failed ∈ used → w.result = -1
  length : .failed ∉ used → w.result = w.wire.length
  all_iff : w.result = count ↔ w.wire = buf.take count
  short : w.wire.length < count → .failed ∈ used ∨ .wouldBlock ∈ used

/-- What `readn` has stored and returns: `k` bytes are read. -/
structure Read (mem stream : List UInt8) (count k : ℕ) (used : List SysResult) (r : Readn) : Prop where
  le_count : k ≤ count
  le_stream : k ≤ stream.length
  memory : r.mem = stream.take k ++ mem.drop k
  left : r.stream = stream.drop k
  success : k = count ∨ .wouldBlock ∈ used → r.result = k
  failure : k < count → .wouldBlock ∉ used → r.result = -1
  cause : k < count → .wouldBlock ∉ used → .failed ∈ used ∨ .moved 0 ∈ used ∨ k = stream.length
  failed : .failed ∈ used → r.result = -1

theorem wrote_of_ends {o : Outcome} (hcount : count ≤ buf.length) (h : Ends false count count 0 used o) :
    Wrote buf count used (written buf o) := by
  have hlength : (written buf o).wire.length = o.done := List.length_take_of_le (h.le_count.trans hcount)
  have hnotClosed : o.ending ≠ .closed := fun hclosed => Bool.false_ne_true (h.closed_imp hclosed).1
  have hresult : .failed ∉ used → (written buf o).result = o.done :=
    fun hno => if_neg (fun hfail => hno (h.failed_iff.mp hfail))
  refine ⟨List.take_prefix_take_left h.le_count,fun hfail => if_pos (h.failed_iff.mpr hfail),?_,?_,?_⟩
  · intro hno
    rw [hresult hno, hlength]
  · constructor
    · intro hall
      have hno : .failed ∉ used := by
        intro hfail
        rw [show (written buf o).result = -1 from if_pos (h.failed_iff.mpr hfail)] at hall
        omega
      rw [hresult hno] at hall
      rw [show (written buf o).wire = buf.take o.done from rfl, Int.ofNat_inj.mp hall]
    · intro hall
      have hdone : o.done = count := by rw [← hlength, hall, List.length_take_of_le hcount]
      have hfull := h.full_iff.mpr hdone
      rw [written, if_neg (by rw [hfull]; decide), hdone]
  · intro hshort
    rw [hlength] at hshort
    cases hend : o.ending with
    | full => exact absurd (h.full_iff.mp hend) hshort.ne
    | wouldBlock => exact Or.inr (h.wouldBlock_iff.mp hend)
    | failed => exact Or.inl (h.failed_iff.mp hend)
    | closed => exact absurd hend hnotClosed

theorem read_of_ends {o : Outcome} (h : Ends true stream.length count 0 used o) :
    Read mem stream count o.done used (stored mem stream o) := by
  have hblocked : .wouldBlock ∈ used → o.ending = .wouldBlock := h.wouldBlock_iff.mpr
  have hcause : o.done < count → .wouldBlock ∉ used → o.ending = .failed ∨ o.ending = .closed := by
    intro hshort hno
    cases hend : o.ending with
    | full => exact absurd (h.full_iff.mp hend) hshort.ne
    | wouldBlock => exact absurd (h.wouldBlock_iff.mp hend) hno
    | failed => exact Or.inl rfl
    | closed => exact Or.inr rfl
  refine ⟨h.le_count,h.le_available,rfl,rfl,?_,?_,?_,fun hfail => if_pos (Or.inl (h.failed_iff.mpr hfail))⟩
  · rintro (hall | hblock)
    · rw [stored, h.full_iff.mpr hall]
      rfl
    · rw [stored, hblocked hblock]
      rfl
  · exact fun hshort hno => if_pos (hcause hshort hno)
  · intro hshort hno
    rcases hcause hshort hno with hend | hend
    · exact Or.inl (h.failed_iff.mp hend)
    · exact Or.inr (h.closed_imp hend).2

theorem writen_spec {w : Written} (hcount : count ≤ buf.length) (h : writen buf count script = some w) :
    ∃ used, script = used ++ w.rest ∧ Wrote buf count used w := by
  rw [writen_eq] at h
  obtain ⟨o,ho,rfl⟩ := Option.map_eq_some_iff.mp h
  obtain ⟨used,hused,hends⟩ := run_ends ho (Nat.zero_le _) (Nat.zero_le _)
  exact ⟨used,hused,wrote_of_ends hcount hends⟩

theorem readn_spec {r : Readn} (h : readn mem stream count script = some r) :
    ∃ used k, script = used ++ r.rest ∧ Read mem stream count k used r := by
  rw [readn_eq] at h
  obtain ⟨o,ho,rfl⟩ := Option.map_eq_some_iff.mp h
  obtain ⟨used,hused,hends⟩ := run_ends ho (Nat.zero_le _) (Nat.zero_le _)
  exact ⟨used,o.done,hused,read_of_ends hends⟩

/-- As many results as there are bytes, interruptions not counted, and `writen` returns. -/
theorem writen_returns (buf : List UInt8) (hmoves : .moved 0 ∉ script)
    (henough : count ≤ script.countP (· ≠ .interrupted)) : (writen buf count script).isSome = true := by
  rw [writen_eq, Option.isSome_map]
  exact run_isSome (Or.inr ⟨le_rfl,hmoves⟩) henough

theorem readn_returns (mem stream : List UInt8) (henough : count ≤ script.countP (· ≠ .interrupted)) :
    (readn mem stream count script).isSome = true := by
  rw [readn_eq, Option.isSome_map]
  exact run_isSome (Or.inl rfl) henough

theorem writen_moves {w : Written} (hmoves : Moves script) (h : writen buf count script = some w) :
    w.result = count ∧ w.wire = buf.take count := by
  rw [writen_eq] at h
  obtain ⟨o,ho,rfl⟩ := Option.map_eq_some_iff.mp h
  obtain ⟨hfull,hdone⟩ := done_of_moves hmoves le_rfl ho
  rw [written, hfull, hdone]
  exact ⟨rfl,rfl⟩

theorem readn_moves {r : Readn} (hmoves : Moves script) (hlength : count ≤ stream.length)
    (h : readn mem stream count script = some r) :
    r.result = count ∧ r.mem = stream.take count ++ mem.drop count ∧ r.stream = stream.drop count := by
  rw [readn_eq] at h
  obtain ⟨o,ho,rfl⟩ := Option.map_eq_some_iff.mp h
  obtain ⟨hfull,hdone⟩ := done_of_moves hmoves hlength ho
  rw [stored, hfull, hdone]
  exact ⟨rfl,rfl,rfl⟩

theorem readn_writen {w : Written} {r : Readn} {script' : List SysResult} {more : List UInt8}
    (hcount : count ≤ buf.length) (hmoves : Moves script) (hmoves' : Moves script')
    (hw : writen buf count script = some w) (hr : readn mem (w.wire ++ more) count script' = some r) :
    w.result = count ∧ r.result = count ∧ r.mem = buf.take count ++ mem.drop count ∧ r.stream = more := by
  obtain ⟨hresult,hwire⟩ := writen_moves hmoves hw
  have hlength : w.wire.length = count := by rw [hwire, List.length_take_of_le hcount]
  obtain ⟨hread,hmem,hstream⟩ := readn_moves hmoves' (by rw [List.length_append]; omega) hr
  rw [List.take_left' hlength, hwire] at hmem
  rw [List.drop_left' hlength] at hstream
  exact ⟨hresult,hread,hmem,hstream⟩

/-- `writen` sends a front part of the buffer, and `readn` stores the front of the stream; both return as soon as
the system calls have moved enough or one of them stops them, and together they copy the bytes. -/
theorem writen_readn :
    (∀ buf count script w, count ≤ buf.length → writen buf count script = some w →
      ∃ used, script = used ++ w.rest ∧ Wrote buf count used w) ∧
    (∀ mem stream count script r, readn mem stream count script = some r →
      ∃ used k, script = used ++ r.rest ∧ Read mem stream count k used r) ∧
    (∀ buf count script, .moved 0 ∉ script → count ≤ script.countP (· ≠ .interrupted) →
      (writen buf count script).isSome = true) ∧
    (∀ mem stream count script, count ≤ script.countP (· ≠ .interrupted) →
      (readn mem stream count script).isSome = true) ∧
    ∀ buf mem more count script script' w r, count ≤ buf.length → Moves script → Moves script' →
      writen buf count script = some w → readn mem (w.wire ++ more) count script' = some r →
      w.result = count ∧ r.result = count ∧ r.mem = buf.take count ++ mem.drop count ∧ r.stream = more :=
  ⟨fun _ _ _ _ hcount h => writen_spec hcount h,fun _ _ _ _ _ h => readn_spec h,
    fun buf _ _ hmoves henough => writen_returns buf hmoves henough,
    fun mem stream _ _ henough => readn_returns mem stream henough,
    fun _ _ _ _ _ _ _ _ hcount hmoves hmoves' hw hr => readn_writen hcount hmoves hmoves' hw hr⟩

/-- Five bytes in two calls of `write` and two of `read`, each interrupted once; and a stream that ends. -/
theorem writen_readn_hello :
    (∃ w r, writen (bytes "hello!") 5 [.moved 2,.interrupted,.moved 3] = some w ∧
      readn (List.replicate 6 0) (w.wire ++ bytes "x") 5 [.interrupted,.moved 1,.moved 4] = some r ∧
      (∃ used, [.moved 2,.interrupted,.moved 3] = used ++ w.rest ∧ Wrote (bytes "hello!") 5 used w) ∧
      r.result = 5 ∧ r.mem = bytes "hello" ++ [0] ∧ r.stream = bytes "x") ∧
    (writen (bytes "hello!") 2 [.moved 1,.interrupted,.moved 1]).isSome = true ∧
    (readn [0,0] (bytes "x") 2 [.moved 1,.interrupted,.moved 0]).isSome = true ∧
    ∃ used k, [.moved 1,.moved 0] = used ++ [] ∧ Read [0,0] (bytes "x") 2 k used ⟨-1,[120,0],[],[]⟩ := by
  obtain ⟨hwrote,hread,hwrites,hreads,hcopy⟩ := writen_readn
  have hmoves : Moves [.moved 2,.interrupted,.moved 3] := by simp [Moves]
  have hmoves' : Moves [.interrupted,.moved 1,.moved 4] := by simp [Moves]
  obtain ⟨-,hresult,hmem,hstream⟩ := hcopy (bytes "hello!") (List.replicate 6 0) (bytes "x") 5 _ _ _ _ (by decide) hmoves
    hmoves' rfl rfl
  exact ⟨⟨_,_,rfl,rfl,hwrote _ _ _ _ (by decide) rfl,hresult,hmem,hstream⟩,hwrites _ _ _ (by decide) (by decide),
    hreads _ _ _ _ (by decide),
    hread [0,0] (bytes "x") 2 [.moved 1,.moved 0] ⟨-1,[120,0],[],[]⟩ (by decide)⟩

end Results
section Client
open TcpClient EpollConnection

/-- The same result of a system call. -/
def sysResult : Recv → SysResult
  | .bytes n => .moved n
  | .eintr => .interrupted
  | .eagain => .wouldBlock
  | .error => .failed
  | .closed => .moved 0

/-- The `readn` of the receiving client is a transfer from its socket. -/
theorem client_run {c d : Client} {got : List UInt8} {left done available : ℕ} {rs rest : List Recv}
    {payload : Option (List UInt8)} (h : c.readn got left rs = some (d,rest,payload))
    (havail : available = done + c.socket.length) :
    ∃ o, Transfer.run true available (done + left) done (rs.map sysResult) = some o ∧ o.rest = rest.map sysResult ∧
      (payload.isSome = true ↔ o.ending = .full) ∧ done ≤ o.done ∧ d.socket = c.socket.drop (o.done - done) := by
  induction rs generalizing c got left done with
  | nil =>
    cases left with
    | zero =>
      cases h
      exact ⟨⟨.full,done,[]⟩,by simp [Transfer.run],rfl,by simp,le_rfl,by simp⟩
    | succ left => cases h
  | cons r rs ih =>
    cases left with
    | zero =>
      cases h
      exact ⟨⟨.full,done,sysResult r :: rs.map sysResult⟩,by simp [Transfer.run],rfl,by simp,le_rfl,by simp⟩
    | succ left =>
      have hleft : ¬ done + (left + 1) ≤ done := by omega
      rw [List.map_cons]
      unfold Transfer.run
      rw [if_neg hleft]
      unfold Client.readn at h
      cases r with
      | bytes n =>
        dsimp only at h
        split_ifs at h with hoffers
        obtain ⟨hpos,hcount,hthere⟩ := hoffers
        have hstep : min n (min (done + (left + 1) - done) (available - done)) = n := by omega
        obtain ⟨o,ho,hrest,hfull,hle,hsocket⟩ := ih h
          (show available = done + n + (c.socket.drop n).length by rw [List.length_drop]; omega)
        refine ⟨o,?_,hrest,hfull,by omega,?_⟩
        · simp only [sysResult, hstep]
          rw [if_neg (by omega), ← ho]
          congr 1
          omega
        · rw [hsocket, List.drop_drop]
          congr 1
          omega
      | eintr => exact ih h havail
      | eagain =>
        cases h
        exact ⟨_,rfl,rfl,by simp,le_rfl,by simp⟩
      | error =>
        cases h
        exact ⟨_,rfl,rfl,by simp,le_rfl,by simp⟩
      | closed =>
        cases h
        exact ⟨⟨.closed,done,rest.map sysResult⟩,by simp [sysResult],rfl,by simp,le_rfl,by simp⟩

/-- Where the client reads a payload or fails, `readn` stores that payload, or returns another number than it was
asked for. -/
theorem client_readn {c d : Client} {count : ℕ} {rs rest : List Recv} {payload : Option (List UInt8)}
    (h : c.readn [] count rs = some (d,rest,payload)) (mem : List UInt8) :
    ∃ r, readn mem c.socket count (rs.map sysResult) = some r ∧ r.rest = rest.map sysResult ∧ r.stream = d.socket ∧
      (payload.isSome = true ↔ r.result = count) ∧ ∀ data ∈ payload, r.mem = data ++ mem.drop count := by
  obtain ⟨o,ho,hrest,hfull,-,hsocket⟩ := client_run h (Nat.zero_add _).symm
  rw [Nat.zero_add] at ho
  obtain ⟨used,-,hends⟩ := run_ends ho (Nat.zero_le _) (Nat.zero_le _)
  have hread : Read mem c.socket count o.done used (stored mem c.socket o) := read_of_ends hends
  have hresult : payload.isSome = true ↔ (stored mem c.socket o).result = count := by
    rw [hfull, hends.full_iff]
    constructor
    · intro hall
      rw [hread.success (Or.inl hall), hall]
    · intro hall
      by_contra hshort
      have hlt : o.done < count := lt_of_le_of_ne hends.le_count hshort
      by_cases hblock : .wouldBlock ∈ used
      · rw [hread.success (Or.inr hblock)] at hall
        omega
      · rw [hread.failure hlt hblock] at hall
        omega
  refine ⟨stored mem c.socket o,by rw [readn_eq, ho]; rfl,hrest,hsocket.symm,hresult,?_⟩
  intro data hdata
  rw [Option.mem_def] at hdata
  subst hdata
  have hdone : o.done = count := hends.full_iff.mp (hfull.mp rfl)
  obtain ⟨new,rfl,hlength,hstream,-⟩ := Client.readn_spec h
  rw [stored, hdone, ← hstream, List.take_left' hlength]

inductive SendFailure
  | notConnected | lengthPrefix | data
deriving DecidableEq

/-- `send_protobuf` behind the serialization, with the bytes that it puts on the wire. -/
def sendProtobuf (c : Client) (data : List UInt8) (script : List SysResult) :
    Option (Client × List UInt8 × Except SendFailure Unit) :=
  if c.connected = false then some (c,[],.error .notConnected)
  else match writen (htonl data.length) 4 script with
    | none => none
    | some length =>
      if length.result ≠ 4 then some ({ c with connected := false },length.wire,.error .lengthPrefix)
      else match writen data data.length length.rest with
        | none => none
        | some body =>
          if body.result ≠ data.length then
            some ({ c with connected := false },length.wire ++ body.wire,.error .data)
          else some (c,length.wire ++ body.wire,.ok ())

theorem sendProtobuf_spec {c d : Client} {data wire : List UInt8} {script : List SysResult}
    {outcome : Except SendFailure Unit} (hconnected : c.connected = true)
    (h : sendProtobuf c data script = some (d,wire,outcome)) :
    wire <+: frame data ∧ (outcome = .ok () ↔ wire = frame data) ∧ (d.connected = true ↔ outcome = .ok ()) := by
  unfold sendProtobuf at h
  rw [if_neg (by simp [hconnected])] at h
  split at h
  · cases h
  rename_i length hlength
  obtain ⟨_,-,hwrote⟩ := writen_spec (by simp) hlength
  have hwhole : (htonl data.length).take 4 = htonl data.length := rfl
  split_ifs at h with hfour
  · -- the length is not sent as a whole
    cases h
    have hfront := hwrote.front
    rw [hwhole] at hfront
    have hshort : length.wire ≠ htonl data.length := fun heq => hfour (hwrote.all_iff.mpr (heq.trans hwhole.symm))
    have hne : length.wire ≠ frame data := by
      intro heq
      rw [heq] at hfront
      have hle := hfront.length_le
      have hdata : data = [] := List.eq_nil_of_length_eq_zero (by
        simp only [frame, List.length_append, htonl_length] at hle
        omega)
      rw [frame, hdata, List.append_nil] at heq
      exact hshort (by rw [heq, hdata])
    exact ⟨hfront.trans (List.prefix_append _ _),by simp [hne],by simp⟩
  · have hwire : length.wire = htonl data.length := hwrote.all_iff.mp (not_not.mp hfour)
    split at h
    · cases h
    rename_i body hbody
    obtain ⟨_,-,hwrote'⟩ := writen_spec le_rfl hbody
    have hfront := hwrote'.front
    have hall := hwrote'.all_iff
    rw [List.take_length] at hfront hall
    split_ifs at h with hrest
    · cases h
      have hne : body.wire ≠ data := fun heq => hrest (hall.mpr heq)
      rw [hwire, frame, List.prefix_append_right_inj]
      exact ⟨hfront,by simp [hne],by simp⟩
    · cases h
      rw [hwire, hall.mp (not_not.mp hrest)]
      exact ⟨List.prefix_rfl,iff_of_true rfl rfl,iff_of_true hconnected rfl⟩

end Client
end ModernTcp.NetUtils
