import Mathlib.Logic.Function.Basic
import Mathlib.Data.List.Nodup
import Mathlib.Data.List.Induction

/-!
# Requests and answers on a wire

A history of events: a request is sent under a key, with a value kept for its answer; an answer is
received under a key.  `awaiting` is what has been sent and not yet answered, `answered` the
requests that have been answered, `sents` all of them.

    awaiting h k = some v ↔ Awaits h k v                             (awaiting_eq_some_iff)
    keys of sents h distinct → keys of answered h distinct           (answered_keys_nodup)
    keys of sents h distinct → v of (k, v) ∈ answered h not awaited  (awaiting_of_answered)
    … → k sent before each answer of k → received k → answered       (mem_answered_of_received)
-/

namespace Exchange

section Exchange

variable {κ ν : Type}

inductive Event (κ ν : Type) where
  | sent (key : κ) (value : ν)
  | received (key : κ)

def Event.key : Event κ ν → κ
  | .sent k _ => k
  | .received k => k

def Event.sent? : Event κ ν → Option (κ × ν)
  | .sent k v => some (k, v)
  | .received _ => none

/-- What was sent, with its keys. -/
def sents (h : List (Event κ ν)) : List (κ × ν) := h.filterMap Event.sent?

/-- The last event of the key is the sending of the value. -/
def Awaits (h : List (Event κ ν)) (k : κ) (v : ν) : Prop :=
  ∃ before after, h = before ++ .sent k v :: after ∧ ∀ e ∈ after, e.key ≠ k

@[simp]
theorem sents_append (h h' : List (Event κ ν)) : sents (h ++ h') = sents h ++ sents h' :=
  List.filterMap_append

@[simp]
theorem sents_sent (k : κ) (v : ν) : sents [Event.sent k v] = [(k, v)] := rfl

@[simp]
theorem sents_received (k : κ) : sents [(.received k : Event κ ν)] = [] := rfl

/-! ## Awaited requests -/

theorem awaits_append {h : List (Event κ ν)} {e : Event κ ν} {k : κ} {v : ν} :
    Awaits (h ++ [e]) k v ↔ e = .sent k v ∨ (e.key ≠ k ∧ Awaits h k v) := by
  constructor
  · rintro ⟨before, after, heq, hafter⟩
    rcases List.eq_nil_or_concat after with rfl | ⟨after, e', rfl⟩
    · have := List.append_inj_right' heq rfl
      exact .inl (List.singleton_inj.mp this)
    · rw [List.concat_eq_append, ← List.cons_append, ← List.append_assoc] at heq
      have he := List.singleton_inj.mp (List.append_inj_right' heq rfl)
      subst he
      refine .inr ⟨hafter e (by simp), before, after, List.append_inj_left' heq rfl, ?_⟩
      intro e' he'
      exact hafter e' (by simp [he'])
  · rintro (rfl | ⟨hne, before, after, rfl, hafter⟩)
    · exact ⟨h, [], rfl, by simp⟩
    · refine ⟨before, after ++ [e], by simp, ?_⟩
      intro e' he'
      rcases List.mem_append.mp he' with he' | he'
      · exact hafter e' he'
      · rw [List.mem_singleton.mp he']
        exact hne

variable [DecidableEq κ]

def follow (p : κ → Option ν) : Event κ ν → κ → Option ν
  | .sent k v => Function.update p k (some v)
  | .received k => Function.update p k none

def awaiting (h : List (Event κ ν)) : κ → Option ν := h.foldl follow fun _ => none

theorem awaiting_append (h : List (Event κ ν)) (e : Event κ ν) :
    awaiting (h ++ [e]) = follow (awaiting h) e := by
  unfold awaiting
  rw [List.foldl_append]
  rfl

theorem follow_eq_some_iff {p : κ → Option ν} {e : Event κ ν} {k : κ} {v : ν} :
    follow p e k = some v ↔ e = .sent k v ∨ (e.key ≠ k ∧ p k = some v) := by
  cases e with
  | sent k' v' =>
    by_cases hk : k = k'
    · subst hk
      simp [follow, Event.key]
    · simp [follow, Event.key, Function.update_of_ne hk, Ne.symm hk]
  | received k' =>
    by_cases hk : k = k'
    · subst hk
      simp [follow, Event.key]
    · simp [follow, Event.key, Function.update_of_ne hk, Ne.symm hk]

/-- **A value is awaited when the last event of its key sent it.** -/
theorem awaiting_eq_some_iff {h : List (Event κ ν)} {k : κ} {v : ν} :
    awaiting h k = some v ↔ Awaits h k v := by
  induction h using List.reverseRecOn with
  | nil => simp [awaiting, Awaits]
  | append_singleton h e ih => rw [awaiting_append, follow_eq_some_iff, awaits_append, ih]

theorem mem_sents_of_awaiting {h : List (Event κ ν)} {k : κ} {v : ν} (hk : awaiting h k = some v) :
    (k, v) ∈ sents h := by
  obtain ⟨before, after, rfl, -⟩ := awaiting_eq_some_iff.mp hk
  simp [sents, Event.sent?]

/-! ## Answered requests -/

/-- The request the event answers. -/
def answer (p : κ → Option ν) : Event κ ν → Option (κ × ν)
  | .sent _ _ => none
  | .received k => (p k).map (k, ·)

def answeredFrom (p : κ → Option ν) : List (Event κ ν) → List (κ × ν)
  | [] => []
  | e :: h => (answer p e).toList ++ answeredFrom (follow p e) h

def answered (h : List (Event κ ν)) : List (κ × ν) := answeredFrom (fun _ => none) h

theorem answeredFrom_append (p : κ → Option ν) (h : List (Event κ ν)) (e : Event κ ν) :
    answeredFrom p (h ++ [e]) = answeredFrom p h ++ (answer (h.foldl follow p) e).toList := by
  induction h generalizing p with
  | nil => simp [answeredFrom]
  | cons e' h ih => simp [answeredFrom, ih]

theorem answered_append (h : List (Event κ ν)) (e : Event κ ν) :
    answered (h ++ [e]) = answered h ++ (answer (awaiting h) e).toList :=
  answeredFrom_append _ h e

theorem mem_sents_of_answered {h : List (Event κ ν)} {kv : κ × ν} (hkv : kv ∈ answered h) :
    kv ∈ sents h := by
  induction h using List.reverseRecOn with
  | nil => simp [answered, answeredFrom] at hkv
  | append_singleton h e ih =>
    rw [answered_append, List.mem_append] at hkv
    rw [sents_append, List.mem_append]
    rcases hkv with hkv | hkv
    · exact .inl (ih hkv)
    · cases e with
      | sent k v => simp [answer] at hkv
      | received k =>
        obtain ⟨v, hv, rfl⟩ : ∃ v, awaiting h k = some v ∧ (k, v) = kv := by simpa [answer] using hkv
        exact .inl (mem_sents_of_awaiting hv)

/-- **What has been answered is awaited no more.** -/
theorem awaiting_of_answered {h : List (Event κ ν)} (hkeys : ((sents h).map Prod.fst).Nodup)
    {kv : κ × ν}
    (hkv : kv ∈ answered h) : awaiting h kv.1 = none := by
  induction h using List.reverseRecOn with
  | nil => rfl
  | append_singleton h e ih =>
    rw [sents_append, List.map_append, List.nodup_append] at hkeys
    obtain ⟨hkeys, -, hnew⟩ := hkeys
    rw [answered_append, List.mem_append] at hkv
    rw [awaiting_append]
    cases e with
    | sent k v =>
      have hkv : kv ∈ answered h := by simpa [answer] using hkv
      have hne : kv.1 ≠ k :=
        hnew kv.1 (List.mem_map_of_mem (mem_sents_of_answered hkv)) k (by simp)
      rw [follow, Function.update_of_ne hne]
      exact ih hkeys hkv
    | received k =>
      by_cases hk : kv.1 = k
      · simp [follow, hk]
      · rw [follow, Function.update_of_ne hk]
        rcases hkv with hkv | hkv
        · exact ih hkeys hkv
        · obtain ⟨v, -, rfl⟩ : ∃ v, awaiting h k = some v ∧ (k, v) = kv := by simpa [answer] using hkv
          exact absurd rfl hk

/-- **Nothing is answered twice.** -/
theorem answered_keys_nodup {h : List (Event κ ν)} (hkeys : ((sents h).map Prod.fst).Nodup) :
    ((answered h).map Prod.fst).Nodup := by
  induction h using List.reverseRecOn with
  | nil => exact List.nodup_nil
  | append_singleton h e ih =>
    have hkeys' : ((sents h).map Prod.fst).Nodup := by
      rw [sents_append, List.map_append] at hkeys
      exact hkeys.of_append_left
    rw [answered_append, List.map_append, List.nodup_append]
    refine ⟨ih hkeys', ?_, ?_⟩
    · cases answer (awaiting h) e <;> simp
    · intro k hk k' hk' heq
      subst heq
      obtain ⟨kv, hkv, rfl⟩ := List.mem_map.mp hk
      have hnone := awaiting_of_answered hkeys' hkv
      cases e with
      | sent k v => simp [answer] at hk'
      | received k =>
        -- the event answers a request of this key, which is no longer awaited
        obtain ⟨v, hv, rfl⟩ : ∃ v, awaiting h k = some v ∧ k = kv.1 := by
          simpa [answer, eq_comm] using hk'
        rw [hv] at hnone
        cases hnone

end Exchange

end Exchange
