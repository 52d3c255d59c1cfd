import Mathlib.Data.BitVec
import LspFramework.Lib.Chars
import LspFramework.Lib.Transfer

/-!
# The POSIX streams

`Process::Impl` and `Socket::Impl` read and write in loops over a system call.  `Process` counts in
`std::size_t` and takes a call that moves nothing for progress, so at the end of the file it calls for ever;
`Socket` takes that for an error, but counts in `socklen_t`, so of a size from `2 ^ 32` on it moves the low 32
bits and reports success.

    Process: Transfers … ↔ ∃ k, size ≤ delivered os.calls k ∨ os.Fails k
    Socket:  Transfers … ↔ size < 2 ^ 32 ∨ ¬ Succeeds true (size % 2 ^ 32) os.calls        (transfers_iff)
-/

namespace Lsp.Io

open Chars Transfer

/-! ## The operating system -/

/-- A call returns a count, or a negative number with `errno` set. -/
inductive OsResult where
  | count (n : Nat)
  | failed (errno : Int)
  deriving DecidableEq, Repr

def EINTR : Int := 4

structure Os where
  results : Nat → OsResult
  /-- `errno` before the first call -/
  errno : Int := 0

namespace Os

def errnoAfter (os : Os) : Nat → Int
  | 0 => os.errno
  | k + 1 =>
    match os.results k with
    | .count _ => os.errnoAfter k
    | .failed errno => errno

/-- The tests of the four loops: `EINTR` leads to another call. -/
def calls (os : Os) : Results Int := fun k =>
  match os.results k with
  | .count n => .count n
  | .failed errno => if errno = EINTR then .interrupted else .failed errno

/-- The call fails, and not because it was interrupted. -/
def Fails (os : Os) (k : Nat) : Prop := ∃ errno, os.results k = .failed errno ∧ errno ≠ EINTR

/-- What a loop reports, and the store; `message` gets `errno`. -/
def report {w : Nat} {σ : Type} (os : Os) (message : Int → Bytes) :
    Except (Option Int) Unit × State w σ → Except Bytes Unit × σ
  | (.ok (), s) => (.ok (), s.store)
  | (.error (some errno), s) => (.error (message errno), s.store)
  | (.error none, s) => (.error (message (os.errnoAfter s.calls)), s.store)

end Os

/-! ## Buffers -/

/-- The buffer, and how many bytes were taken from the peer. -/
@[ext]
structure Received where
  buffer : Bytes
  taken : Nat

/-- The bytes that come in, from one of them on. -/
def arriving (incoming : Nat → UInt8) (first count : Nat) : Bytes := (List.range count).map fun i => incoming (first + i)

/-- Reading into a buffer from what a peer sends. -/
def reading (incoming : Nat → UInt8) (buffer : Bytes) : Transport Received buffer.length where
  move n k s := ⟨s.buffer.take n ++ arriving incoming s.taken k ++ s.buffer.drop (n + k), s.taken + k⟩
  after n := ⟨arriving incoming 0 n ++ buffer.drop n, n⟩
  move_after n k _ := by
    have hlen : (arriving incoming 0 n).length = n := by simp [arriving]
    have hmore : arriving incoming 0 (n + k) = arriving incoming 0 n ++ arriving incoming n k := by
      simp [arriving, List.range_add]
    ext1
    · show (arriving incoming 0 n ++ buffer.drop n).take n ++ arriving incoming n k ++
        (arriving incoming 0 n ++ buffer.drop n).drop (n + k) = _
      rw [List.take_left' hlen, List.drop_append, hlen, hmore]
      simp [hlen]
    · rfl
  injective n k _ _ h := congrArg Received.taken h

/-- Writing a buffer; the store is what the peer got. -/
def writing (buffer : Bytes) : Transport Bytes buffer.length where
  move n k sent := sent ++ (buffer.drop n).take k
  after n := buffer.take n
  move_after n k _ := (List.take_add).symm
  injective n k hn hk h := by
    have := congrArg List.length h
    simp only [List.length_take] at this
    omega

/-! ## Algorithm -/

/-- `std::size_t` -/
abbrev Size := BitVec 64

/-- `socklen_t` -/
abbrev SizeType := BitVec 32

section Algorithm

variable {σ : Type} {limit : Nat} (T : Transport σ limit) (message : Int → Bytes) (os : Os)

/-- The loop of `Process::Impl`. -/
def processLoop (size : Size) (fuel : Nat) : Option (Except Bytes Unit × σ) :=
  (Loop.run (turn T false size os.calls) fuel (start T)).map (os.report message)

/-- The function around the loop of `Socket::Impl`, which casts the size. -/
def socketLoop (size : Size) (fuel : Nat) : Option (Except Bytes Unit × σ) :=
  if size = 0 then some (.ok (), T.after 0)
  else (Loop.run (turn T true (size.setWidth 32 : SizeType) os.calls) fuel (start T)).map (os.report message)

end Algorithm

def Process.read (strerror : Int → Bytes) (os : Os) (incoming : Nat → UInt8) (buffer : Bytes) :
    Size → Nat → Option (Except Bytes Unit × Received) :=
  processLoop (reading incoming buffer)
    (fun errno => bytes "Failed to read from process stdout: " ++ strerror errno) os

def Process.write (strerror : Int → Bytes) (os : Os) (buffer : Bytes) :
    Size → Nat → Option (Except Bytes Unit × Bytes) :=
  processLoop (writing buffer) (fun errno => bytes "Failed to write to process stdin: " ++ strerror errno) os

def Socket.read (os : Os) (incoming : Nat → UInt8) (buffer : Bytes) :
    Size → Nat → Option (Except Bytes Unit × Received) :=
  socketLoop (reading incoming buffer) (fun errno => bytes "Failed to read from socket: " ++ intText errno) os

def Socket.write (os : Os) (buffer : Bytes) : Size → Nat → Option (Except Bytes Unit × Bytes) :=
  socketLoop (writing buffer) (fun errno => bytes "Failed to write from socket: " ++ intText errno) os

/-! ## What the loops are to do -/

/-- The function returns, and where it reports success the whole is transferred. -/
structure Transfers {σ : Type} (f : Nat → Option (Except Bytes Unit × σ)) (whole : σ) : Prop where
  returns : ∃ r, Loop.Gives f r
  success : ∀ fuel s, f fuel = some (.ok (), s) → s = whole

section Transfers

variable {σ : Type} {limit w : Nat} {T : Transport σ limit} {zeroFails : Bool} {message : Int → Bytes} {os : Os}
  {size : Size}

theorem stops_false_iff (k : Nat) : Stops false (os.calls k) ↔ os.Fails k := by
  rw [Os.calls, Os.Fails]
  cases os.results k with
  | count n => simp [Stops]
  | failed errno =>
    dsimp only
    split
    · next heq => simp [Stops, heq]
    · next hne => simp [Stops, hne]

theorem report_ok {r : Except (Option Int) Unit × State w σ} {s : σ} (h : os.report message r = (.ok (), s)) :
    ∃ st, r = (.ok (), st) ∧ st.store = s := by
  obtain ⟨e, st⟩ := r
  match e, h with
  | .ok (), h => exact ⟨st, rfl, congrArg Prod.snd h⟩
  | .error (some _), h => cases congrArg Prod.fst h
  | .error none, h => cases congrArg Prod.fst h

/-- Of a run that reports success the loop has ended so. -/
theorem ends_of_report {size : BitVec w} {fuel : Nat} {s : σ}
    (h : (Loop.run (turn T zeroFails size os.calls) fuel (start T)).map (os.report message) = some (.ok (), s)) :
    ∃ st, Loop.Ends (turn T zeroFails size os.calls) (start T) (.ok (), st) ∧ st.store = s := by
  obtain ⟨r, hrun, hreport⟩ := Option.map_eq_some_iff.mp h
  obtain ⟨st, rfl, hst⟩ := report_ok hreport
  exact ⟨st, ⟨fuel, hrun⟩, hst⟩

theorem returns_iff {size : BitVec w} :
    (∃ r, Loop.Gives (fun fuel => (Loop.run (turn T zeroFails size os.calls) fuel (start T)).map
      (os.report message)) r) ↔ ∃ r, Loop.Ends (turn T zeroFails size os.calls) (start T) r := by
  constructor
  · rintro ⟨r, hgives⟩
    obtain ⟨fuel, hfuel⟩ := hgives.exists_fuel
    obtain ⟨r', hrun, -⟩ := Option.map_eq_some_iff.mp hfuel
    exact ⟨r', fuel, hrun⟩
  · rintro ⟨r, hends⟩
    exact ⟨_, hends.gives.map (os.report message)⟩

/-- **A `Process` moves everything unless its calls come to nothing for ever.** -/
theorem process_iff (hsize : size.toNat ≤ limit) :
    Transfers (processLoop T message os size) (T.after size.toNat) ↔
      ∃ k, size.toNat ≤ delivered os.calls k ∨ os.Fails k := by
  have hends : (∃ r, Loop.Gives (processLoop T message os size) r) ↔
      ∃ k, size.toNat ≤ delivered os.calls k ∨ os.Fails k := by
    simp only [← stops_false_iff]
    exact returns_iff.trans (ends_iff hsize)
  refine ⟨fun h => hends.mp h.returns, fun h => ⟨hends.mpr h, ?_⟩⟩
  intro fuel s hfuel
  obtain ⟨st, hok, rfl⟩ := ends_of_report hfuel
  exact store_of_succeeds hsize hok

theorem toNat_setWidth (size : Size) : (size.setWidth 32 : SizeType).toNat = size.toNat % 2 ^ 32 :=
  BitVec.toNat_setWidth 32 size

theorem socketLoop_of_ne_zero (h : size ≠ 0) : socketLoop T message os size = fun fuel =>
    (Loop.run (turn T true (size.setWidth 32 : SizeType) os.calls) fuel (start T)).map (os.report message) := by
  funext fuel
  rw [socketLoop, if_neg h]

/-- **A `Socket` moves everything unless the size has more than 32 bits**; then it fails or reports success
too early. -/
theorem socket_iff (hsize : size.toNat ≤ limit) (hfinite : ∃ n, ∀ k, n ≤ k → os.calls k ≠ .interrupted) :
    Transfers (socketLoop T message os size) (T.after size.toNat) ↔
      size.toNat < 2 ^ 32 ∨ ¬ Succeeds true (size.toNat % 2 ^ 32) os.calls := by
  by_cases hzero : size = 0
  · subst hzero
    refine iff_of_true ⟨⟨_, .const _⟩, ?_⟩ (.inl (by decide))
    intro fuel s hfuel
    exact (congrArg Prod.snd (Option.some.inj hfuel)).symm
  · have hcast := toNat_setWidth size
    have hcast' : (size.setWidth 32 : SizeType).toNat ≤ limit := by
      have := Nat.mod_le size.toNat (2 ^ 32)
      omega
    have hends := (ends_iff (T := T) hcast').mpr (exists_end_of_zeroFails hfinite _)
    rw [socketLoop_of_ne_zero hzero]
    constructor
    · intro h
      by_contra hnot
      obtain ⟨hlarge, hsucceeds⟩ := not_or.mp hnot
      rw [not_not, ← hcast] at hsucceeds
      obtain ⟨st, ⟨fuel, hrun⟩, hstore⟩ := ends_of_succeeds (T := T) hcast' hsucceeds
      have hwhole := h.success fuel st.store (by rw [hrun]; rfl)
      have heq := T.injective _ _ hcast' hsize (hstore.symm.trans hwhole)
      omega
    · intro h
      refine ⟨returns_iff.mpr hends, ?_⟩
      intro fuel s hfuel
      obtain ⟨st, hok, rfl⟩ := ends_of_report hfuel
      have hsucceeds := (succeeds_iff (T := T) hcast').mp ⟨st, hok⟩
      rw [store_of_succeeds hcast' hok, hcast]
      rcases h with hsmall | hno
      · rw [Nat.mod_eq_of_lt hsmall]
      · exact absurd (hcast ▸ hsucceeds) hno

end Transfers

theorem calls_ne_interrupted {os : Os} {k : Nat} (h : os.results k ≠ .failed EINTR) : os.calls k ≠ .interrupted := by
  rw [Os.calls]
  cases hres : os.results k with
  | count n => exact nofun
  | failed errno =>
    have hne : errno ≠ EINTR := by
      rintro rfl
      exact h hres
    simp [hne]

/-- **When the four loops return and transfer everything**, for a buffer that holds the size and calls that
are interrupted finitely often. -/
theorem transfers_iff (os : Os) (strerror : Int → Bytes) (incoming : Nat → UInt8) (buffer : Bytes) (size : Size)
    (hsize : size.toNat ≤ buffer.length) (hfinite : ∃ n, ∀ k, n ≤ k → os.results k ≠ .failed EINTR) :
    let read : Received := ⟨arriving incoming 0 size.toNat ++ buffer.drop size.toNat, size.toNat⟩
    let written : Bytes := buffer.take size.toNat
    let processMoves := ∃ k, size.toNat ≤ delivered os.calls k ∨ os.Fails k
    let socketMoves := size.toNat < 2 ^ 32 ∨ ¬ Succeeds true (size.toNat % 2 ^ 32) os.calls
    (Transfers (Process.read strerror os incoming buffer size) read ↔ processMoves) ∧
      (Transfers (Process.write strerror os buffer size) written ↔ processMoves) ∧
      (Transfers (Socket.read os incoming buffer size) read ↔ socketMoves) ∧
      (Transfers (Socket.write os buffer size) written ↔ socketMoves) := by
  have hcalls : ∃ n, ∀ k, n ≤ k → os.calls k ≠ .interrupted := by
    obtain ⟨n, hn⟩ := hfinite
    exact ⟨n, fun k hk => calls_ne_interrupted (hn k hk)⟩
  exact ⟨process_iff (T := reading incoming buffer) hsize, process_iff (T := writing buffer) hsize,
    socket_iff (T := reading incoming buffer) hsize hcalls, socket_iff (T := writing buffer) hsize hcalls⟩

/-- Two bytes, an interruption, a third byte, and then the end of the file. -/
def threeBytes : Os where
  results k := match k with
    | 0 => .count 2
    | 1 => .failed EINTR
    | 2 => .count 1
    | _ => .count 0

theorem transfers_threeBytes :
    Transfers (Process.read (fun _ => []) threeBytes (fun _ => 7) [0, 0, 0] 3) ⟨[7, 7, 7], 3⟩ ∧
      Transfers (Socket.write threeBytes [1, 2, 3] 3) [1, 2, 3] := by
  have hfinite : ∃ n, ∀ k, n ≤ k → threeBytes.results k ≠ .failed EINTR := by
    refine ⟨3, fun k hk => ?_⟩
    obtain ⟨j, rfl⟩ := Nat.exists_eq_add_of_le' hk
    exact nofun
  exact ⟨(transfers_iff threeBytes (fun _ => []) (fun _ => 7) [0, 0, 0] 3 (by decide) hfinite).1.mpr
      ⟨3, .inl (by decide)⟩,
    (transfers_iff threeBytes (fun _ => []) (fun _ => 7) [1, 2, 3] 3 (by decide) hfinite).2.2.2.mpr
      (.inl (by decide))⟩

theorem delivered_zeros (k : Nat) : delivered (Os.calls ⟨fun _ => .count 0, 0⟩) k = 0 := by
  induction k with
  | zero => rfl
  | succ k ih =>
    rw [delivered, ih]
    rfl

/-- At the end of the file a `Process` reads for ever; a `Socket` that is to write `2 ^ 32` bytes writes none of
them, without a call, and reports success. -/
theorem not_transfers :
    ¬ Transfers (Process.read (fun _ => []) ⟨fun _ => .count 0, 0⟩ (fun _ => 0) [0] 1) ⟨[0], 1⟩ ∧
      ∀ (os : Os) (buffer : Bytes), buffer.length = 2 ^ 32 →
        Socket.write os buffer (2 ^ 32) 1 = some (.ok (), []) ∧
          ¬ Transfers (Socket.write os buffer (2 ^ 32)) buffer := by
  constructor
  · intro h
    obtain ⟨k, henough | ⟨errno, hfails, -⟩⟩ := (process_iff (T := reading (fun _ => 0) [0]) (by decide)).mp h
    · rw [delivered_zeros] at henough
      exact absurd henough (by decide)
    · cases hfails
  · intro os buffer hlen
    have hwrite : Socket.write os buffer (2 ^ 32) 1 = some (.ok (), []) := rfl
    refine ⟨hwrite, fun h => ?_⟩
    have hwhole := h.success 1 [] hwrite
    rw [← hwhole] at hlen
    exact absurd hlen (by decide)

end Lsp.Io
