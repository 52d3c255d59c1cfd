import Mathlib.Data.Nat.Find
import LspFramework.Lib.Loop

/-!
# Transfers in pieces

A loop that moves a number of bytes by repeated calls, each of which moves some of them, is interrupted, or
fails.  It counts in `w` bits, and a call that moves nothing is a failure or is made again.

* `Results`: what the calls give, one after the other.
* `Transport`: what moving bytes does to a store; `after n` is the store when the first `n` are moved.
* `delivered results k`: the bytes the first `k` calls would move.

The loop ends exactly where the calls deliver enough or one of them stops it, and it reports success exactly
where they deliver enough first; then all bytes are moved, each once and in order:

    (∃ r, Ends … r) ↔ ∃ k, size ≤ delivered results k ∨ Stops … (results k)                (ends_iff)
    (∃ s, Ends … (.ok (), s)) ↔ Succeeds … size results                                 (succeeds_iff)
    Ends … (.ok (), s) → s.store = after size                                       (store_of_succeeds)
-/

namespace Transfer

open Loop

inductive CallResult (ε : Type) where
  /-- The call moves so many bytes, or all it was asked for if these are less. -/
  | count (n : Nat)
  | interrupted
  | failed (e : ε)

abbrev Results (ε : Type) := Nat → CallResult ε

/-- Bytes are moved into or out of a store that has room for `limit`. -/
structure Transport (σ : Type) (limit : Nat) where
  move : Nat → Nat → σ → σ
  after : Nat → σ
  move_after : ∀ n k, n + k ≤ limit → move n k (after n) = after (n + k)
  injective : ∀ n k, n ≤ limit → k ≤ limit → after n = after k → n = k

structure State (w : Nat) (σ : Type) where
  total : BitVec w
  calls : Nat
  store : σ

section Transfer

variable {ε σ : Type} {limit w : Nat}

def start (T : Transport σ limit) : State w σ := ⟨0, 0, T.after 0⟩

/-- One round: `none` as the error stands for a call that moved nothing. -/
def turn (T : Transport σ limit) (zeroFails : Bool) (size : BitVec w) (results : Results ε) (s : State w σ) :
    Turn (State w σ) (Except (Option ε) Unit × State w σ) :=
  if s.total < size then
    match results s.calls with
    | .interrupted => .next { s with calls := s.calls + 1 }
    | .failed e => .done (.error (some e), { s with calls := s.calls + 1 })
    | .count n =>
      let moved := min n (size - s.total).toNat
      if moved = 0 ∧ zeroFails = true then .done (.error none, { s with calls := s.calls + 1 })
      else .next ⟨s.total + BitVec.ofNat w moved, s.calls + 1, T.move s.total.toNat moved s.store⟩
  else .done (.ok (), s)

def CallResult.bytes : CallResult ε → Nat
  | .count n => n
  | _ => 0

def delivered (results : Results ε) : Nat → Nat
  | 0 => 0
  | k + 1 => delivered results k + (results k).bytes

/-- The result ends the loop with an error. -/
def Stops (zeroFails : Bool) : CallResult ε → Prop
  | .count n => n = 0 ∧ zeroFails = true
  | .interrupted => False
  | .failed _ => True

/-- Enough is delivered before anything stops the loop. -/
def Succeeds (zeroFails : Bool) (size : Nat) (results : Results ε) : Prop :=
  ∃ k, size ≤ delivered results k ∧ ∀ j < k, ¬ Stops zeroFails (results j)

/-! ## The invariant -/

/-- What is counted is what was delivered, up to the size, and it is in the store. -/
structure Inv (T : Transport σ limit) (size : BitVec w) (results : Results ε) (s : State w σ) : Prop where
  total : s.total.toNat = min size.toNat (delivered results s.calls)
  store : s.store = T.after s.total.toNat

variable {T : Transport σ limit} {zeroFails : Bool} {size : BitVec w} {results : Results ε} {s : State w σ}

theorem inv_start : Inv T size results (start T) where
  total := by simp [start, delivered]
  store := by simp [start]

theorem turn_done (h : Inv T size results s) (henough : size.toNat ≤ delivered results s.calls) :
    turn T zeroFails size results s = .done (.ok (), s) := by
  have htotal := h.total
  rw [turn, if_neg]
  rw [BitVec.lt_def]
  omega

theorem lt_of_inv (h : Inv T size results s) (hless : delivered results s.calls < size.toNat) :
    s.total < size ∧ s.total.toNat = delivered results s.calls := by
  have htotal := h.total
  rw [BitVec.lt_def]
  omega

theorem turn_stops (h : Inv T size results s) (hless : delivered results s.calls < size.toNat)
    (hstops : Stops zeroFails (results s.calls)) :
    ∃ e s', turn T zeroFails size results s = .done (.error e, s') := by
  rw [turn, if_pos (lt_of_inv h hless).1]
  cases hres : results s.calls with
  | count n =>
    rw [hres] at hstops
    obtain ⟨rfl, hzero⟩ := hstops
    exact ⟨none, _, if_pos ⟨Nat.zero_min _, hzero⟩⟩
  | interrupted =>
    rw [hres] at hstops
    exact absurd hstops id
  | failed e => exact ⟨some e, _, rfl⟩

theorem toNat_add_ofNat {x size : BitVec w} {n : Nat} (h : x.toNat + n ≤ size.toNat) :
    (x + BitVec.ofNat w n).toNat = x.toNat + n := by
  have hsize := size.isLt
  rw [BitVec.toNat_add, BitVec.toNat_ofNat, Nat.mod_eq_of_lt (by omega : n < 2 ^ w), Nat.mod_eq_of_lt (by omega)]

theorem turn_next (hsize : size.toNat ≤ limit) (h : Inv T size results s)
    (hless : delivered results s.calls < size.toNat) (hgo : ¬ Stops zeroFails (results s.calls)) :
    ∃ s', turn T zeroFails size results s = .next s' ∧ s'.calls = s.calls + 1 ∧ Inv T size results s' := by
  obtain ⟨hlt, htotal⟩ := lt_of_inv h hless
  rw [turn, if_pos hlt]
  cases hres : results s.calls with
  | count n =>
    have hasked : (size - s.total).toNat = size.toNat - s.total.toNat := BitVec.toNat_sub_of_le (Nat.le_of_lt hlt)
    have hadd : (s.total + BitVec.ofNat w (min n (size - s.total).toNat)).toNat =
        s.total.toNat + min n (size - s.total).toNat := toNat_add_ofNat (by omega : _ ≤ size.toNat)
    rw [hres] at hgo
    have hmoved : ¬ (min n (size - s.total).toNat = 0 ∧ zeroFails = true) := by
      rintro ⟨hzero, hfails⟩
      exact hgo ⟨by omega, hfails⟩
    refine ⟨_, if_neg hmoved, rfl, ?_, ?_⟩
    · show _ = min size.toNat (delivered results s.calls + (results s.calls).bytes)
      rw [hadd, hres, CallResult.bytes]
      omega
    · rw [hadd, h.store]
      exact T.move_after _ _ (by omega)
  | interrupted =>
    refine ⟨_, rfl, rfl, ?_, h.store⟩
    show s.total.toNat = min size.toNat (delivered results s.calls + (results s.calls).bytes)
    rw [hres]
    exact h.total
  | failed e => exact absurd (by rw [hres]; trivial) hgo

/-! ## Whole runs -/

/-- After as many calls as do not end the loop, it has got so far. -/
theorem reaches (hsize : size.toNat ≤ limit) {k : Nat}
    (hgo : ∀ j < k, delivered results j < size.toNat ∧ ¬ Stops zeroFails (results j)) :
    ∃ s, Reaches (turn T zeroFails size results) (start T) s ∧ s.calls = k ∧ Inv T size results s := by
  induction k with
  | zero => exact ⟨_, .refl _, rfl, inv_start⟩
  | succ k ih =>
    obtain ⟨s, hreach, rfl, hinv⟩ := ih fun j hj => hgo j (Nat.lt_succ_of_lt hj)
    obtain ⟨hless, hstops⟩ := hgo s.calls (Nat.lt_succ_self _)
    obtain ⟨s', hturn, hcalls, hinv'⟩ := turn_next (T := T) hsize hinv hless hstops
    exact ⟨s', hreach.trans (.head hturn (.refl _)), hcalls, hinv'⟩

/-- The loop ends at the first call where enough is delivered or that stops it. -/
theorem exists_first {p : Nat → Prop} (h : ∃ k, p k) : ∃ k, p k ∧ ∀ j < k, ¬ p j := by
  classical
  exact ⟨Nat.find h, Nat.find_spec h, fun j hj => Nat.find_min h hj⟩

theorem ends_ok (hsize : size.toNat ≤ limit) {k : Nat}
    (hgo : ∀ j < k, delivered results j < size.toNat ∧ ¬ Stops zeroFails (results j))
    (henough : size.toNat ≤ delivered results k) :
    ∃ s, Ends (turn T zeroFails size results) (start T) (.ok (), s) ∧ s.store = T.after size.toNat := by
  obtain ⟨s, hreach, rfl, hinv⟩ := reaches (T := T) hsize hgo
  refine ⟨s, (hreach.ends_iff _).mpr (ends_done (turn_done hinv henough)), ?_⟩
  rw [hinv.store, hinv.total, Nat.min_eq_left henough]

theorem ends_error (hsize : size.toNat ≤ limit) {k : Nat}
    (hgo : ∀ j < k, delivered results j < size.toNat ∧ ¬ Stops zeroFails (results j))
    (hless : delivered results k < size.toNat) (hstops : Stops zeroFails (results k)) :
    ∃ e s, Ends (turn T zeroFails size results) (start T) (.error e, s) := by
  obtain ⟨s, hreach, rfl, hinv⟩ := reaches (T := T) hsize hgo
  obtain ⟨e, s', hturn⟩ := turn_stops (T := T) hinv hless hstops
  exact ⟨e, s', (hreach.ends_iff _).mpr (ends_done hturn)⟩

/-- **The loop ends where enough is delivered or a call stops it, and nowhere else.** -/
theorem ends_iff (hsize : size.toNat ≤ limit) :
    (∃ r, Ends (turn T zeroFails size results) (start T) r) ↔
      ∃ k, size.toNat ≤ delivered results k ∨ Stops zeroFails (results k) := by
  constructor
  · rintro ⟨r, n, hrun⟩
    by_contra hnone
    have hnever : ∀ s, Inv T size results s → ∃ s', turn T zeroFails size results s = .next s' ∧
        Inv T size results s' := by
      intro s hinv
      obtain ⟨hless, hgo⟩ := not_or.mp fun h => hnone ⟨s.calls, h⟩
      obtain ⟨s', hturn, -, hinv'⟩ := turn_next (T := T) hsize hinv (Nat.lt_of_not_le hless) hgo
      exact ⟨s', hturn, hinv'⟩
    rw [run_eq_none_of_invariant hnever inv_start n] at hrun
    cases hrun
  · intro h
    obtain ⟨k, hk, hfirst⟩ := exists_first h
    have hgo : ∀ j < k, delivered results j < size.toNat ∧ ¬ Stops zeroFails (results j) := by
      intro j hj
      obtain ⟨hless, hgo⟩ := not_or.mp (hfirst j hj)
      exact ⟨Nat.lt_of_not_le hless, hgo⟩
    rcases Nat.lt_or_ge (delivered results k) size.toNat with hless | henough
    · obtain ⟨e, s, hends⟩ := ends_error (T := T) hsize hgo hless (hk.resolve_left (by omega))
      exact ⟨_, hends⟩
    · obtain ⟨s, hends, -⟩ := ends_ok (T := T) hsize hgo henough
      exact ⟨_, hends⟩

theorem ends_of_succeeds (hsize : size.toNat ≤ limit) (h : Succeeds zeroFails size.toNat results) :
    ∃ s, Ends (turn T zeroFails size results) (start T) (.ok (), s) ∧ s.store = T.after size.toNat := by
  obtain ⟨n, henough, hgo⟩ := h
  obtain ⟨k, hk, hfirst⟩ := exists_first (p := fun k => size.toNat ≤ delivered results k) ⟨n, henough⟩
  have hkn : k ≤ n := by
    by_contra hlt
    exact hfirst n (Nat.lt_of_not_le hlt) henough
  exact ends_ok hsize (fun j hj => ⟨Nat.lt_of_not_le (hfirst j hj), hgo j (by omega)⟩) hk

/-- **Success is reported exactly where enough is delivered before anything stops the loop.** -/
theorem succeeds_iff (hsize : size.toNat ≤ limit) :
    (∃ s, Ends (turn T zeroFails size results) (start T) (.ok (), s)) ↔ Succeeds zeroFails size.toNat results := by
  constructor
  · rintro ⟨s, hends⟩
    obtain ⟨k, hk, hfirst⟩ := exists_first ((ends_iff (T := T) hsize).mp ⟨_, hends⟩)
    have hgo : ∀ j < k, ¬ Stops zeroFails (results j) := fun j hj h => hfirst j hj (.inr h)
    refine ⟨k, ?_, hgo⟩
    by_contra hless
    obtain ⟨e, s', hends'⟩ := ends_error (T := T) hsize
      (fun j hj => ⟨Nat.lt_of_not_le fun h => hfirst j hj (.inl h), hgo j hj⟩) (Nat.lt_of_not_le hless)
      (hk.resolve_left hless)
    cases hends.unique hends'
  · intro h
    obtain ⟨s, hends, -⟩ := ends_of_succeeds (T := T) hsize h
    exact ⟨s, hends⟩

/-- **On success everything is moved**, each byte once and in order. -/
theorem store_of_succeeds (hsize : size.toNat ≤ limit)
    (hends : Ends (turn T zeroFails size results) (start T) (.ok (), s)) : s.store = T.after size.toNat := by
  obtain ⟨s', hends', hstore⟩ := ends_of_succeeds (T := T) hsize ((succeeds_iff (T := T) hsize).mp ⟨s, hends⟩)
  obtain ⟨-, rfl⟩ := Prod.mk.inj (hends.unique hends')
  exact hstore

/-- Where a call that moves nothing fails, only interruptions can keep the loop going. -/
theorem exists_end_of_zeroFails (hfinite : ∃ n, ∀ k, n ≤ k → results k ≠ .interrupted) (size : Nat) :
    ∃ k, size ≤ delivered results k ∨ Stops true (results k) := by
  obtain ⟨n, hn⟩ := hfinite
  by_contra hnone
  have hgrow : ∀ i, i ≤ delivered results (n + i) := by
    intro i
    induction i with
    | zero => exact Nat.zero_le _
    | succ i ih =>
      have hgo : ¬ Stops true (results (n + i)) := fun h => hnone ⟨_, .inr h⟩
      show i + 1 ≤ delivered results (n + i) + (results (n + i)).bytes
      cases hres : results (n + i) with
      | count m =>
        have hm : m ≠ 0 := fun hm => hgo (by rw [hres]; exact ⟨hm, rfl⟩)
        rw [CallResult.bytes]
        omega
      | interrupted => exact absurd hres (hn _ (by omega))
      | failed e => exact absurd (by rw [hres]; trivial) hgo
  exact hnone ⟨n + size, .inl (hgrow size)⟩

end Transfer

end Transfer
