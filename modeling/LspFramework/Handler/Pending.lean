import Mathlib.Logic.Relation
import Mathlib.Data.List.Perm.Basic
import LspFramework.Lib.Exchange
import LspFramework.Jsonrpc.Message

/-!
# Outgoing requests

`sendRequest` draws an id from the counter of the process, enters the result object into
`m_pendingRequests` and writes the request, all under `m_pendingRequestsMutex`; `processResponse`
takes the result object of a response out under the same mutex and completes it afterwards.
`Outgoing.Step` interleaves the calls of any number of threads with responses in any order and with
requests of other handlers.  While fewer than 2^32 ids were drawn, the map holds what the wire shows
as awaited:

    Reachable s → s.issued < 2^32 → s.pendingRequests = Exchange.awaiting s.log    (reachable_inv)
    … → ids distinct, results completed at most once, first responses found        (responses_match)
-/

namespace Lsp.Handler

open Chars Jsonrpc

/-! ## The map of the pending requests -/

/-- `m_pendingRequests` -/
abbrev Pending (ρ : Type) := MessageId → Option ρ

/-- The part of `processResponse` under `m_pendingRequestsMutex`. -/
def takePending {ρ : Type} (id : MessageId) (m_pendingRequests : Pending ρ) : Option ρ × Pending ρ :=
  match m_pendingRequests id with
  | some result => (some result, Function.update m_pendingRequests id none)
  | none => (none, m_pendingRequests)

@[simp]
theorem takePending_fst {ρ : Type} (id : MessageId) (p : Pending ρ) : (takePending id p).1 = p id := by
  unfold takePending
  cases p id <;> rfl

@[simp]
theorem takePending_snd {ρ : Type} (id : MessageId) (p : Pending ρ) :
    (takePending id p).2 = Function.update p id none := by
  unfold takePending
  cases h : p id with
  | some result => rfl
  | none => exact (Function.update_eq_self_iff.mpr h.symm).symm

/-! ## Calls of `sendRequest` -/

/-- The counter behind a call of `nextUniqueRequestId`, which is also its answer. -/
def nextUniqueRequestId (s_uniqueRequestId : Json.Integer) : Json.Integer := s_uniqueRequestId + 1

/-- A call of `sendRequest`, numbered; the number stands for its result object. -/
structure Call where
  number : Nat
  method : Bytes
  params : Option Json.Value

/-- How far the call that holds `m_pendingRequestsMutex` has come. -/
inductive Stage where
  | locked (call : Call)
  | drawn (call : Call) (messageId : Json.Integer)
  | registered (call : Call) (messageId : Json.Integer)
  | written

/-- A message on the wire: a request with the number of its call, or a response. -/
inductive WireEvent where
  | sent (number : Nat) (request : Request)
  | received (response : Response)

def WireEvent.exchange : WireEvent → Exchange.Event MessageId Nat
  | sent number request => .sent (request.id.getD .null) number
  | received response => .received response.id

/-- The outgoing side of a handler. -/
structure Outgoing where
  /-- `s_uniqueRequestId`, shared by the handlers of the process -/
  uniqueRequestId : Json.Integer := 0
  pendingRequests : Pending Nat := fun _ => none
  holder : Option Stage := none
  /-- calls that wait for the mutex -/
  waiting : List Call := []
  wire : List WireEvent := []
  /-- result objects taken out of the map and not yet completed, with their responses -/
  taken : List (Nat × Response) := []
  completed : List (Nat × Response) := []
  calls : Nat := 0
  /-- ids drawn in the process -/
  issued : Nat := 0
  /-- result objects whose entry in the map was overwritten -/
  overwritten : List Nat := []

namespace Outgoing

inductive Step : Outgoing → Outgoing → Prop
  | call {s : Outgoing} (method : Bytes) (params : Option Json.Value) :
      Step s { s with waiting := s.waiting ++ [⟨s.calls, method, params⟩], calls := s.calls + 1 }
  | lock {s : Outgoing} {c : Call} {before after : List Call} : s.holder = none →
      s.waiting = before ++ c :: after →
      Step s { s with holder := some (.locked c), waiting := before ++ after }
  | draw {s : Outgoing} {c : Call} : s.holder = some (.locked c) →
      Step s { s with
        uniqueRequestId := nextUniqueRequestId s.uniqueRequestId
        issued := s.issued + 1
        holder := some (.drawn c (nextUniqueRequestId s.uniqueRequestId)) }
  | register {s : Outgoing} {c : Call} {messageId : Json.Integer} :
      s.holder = some (.drawn c messageId) →
      Step s { s with
        pendingRequests := Function.update s.pendingRequests (.integer messageId) (some c.number)
        overwritten := s.overwritten ++ (s.pendingRequests (.integer messageId)).toList
        holder := some (.registered c messageId) }
  | write {s : Outgoing} {c : Call} {messageId : Json.Integer} :
      s.holder = some (.registered c messageId) →
      Step s { s with
        wire := s.wire ++ [.sent c.number (createRequest (.integer messageId) c.method c.params)]
        holder := some .written }
  | unlock {s : Outgoing} : s.holder = some .written → Step s { s with holder := none }
  /-- Another handler of the process draws an id. -/
  | other {s : Outgoing} :
      Step s { s with uniqueRequestId := nextUniqueRequestId s.uniqueRequestId, issued := s.issued + 1 }
  | receive {s : Outgoing} (response : Response) : s.holder = none →
      Step s { s with
        pendingRequests := (takePending response.id s.pendingRequests).2
        wire := s.wire ++ [.received response]
        taken := s.taken ++ ((takePending response.id s.pendingRequests).1.map (·, response)).toList }
  | complete {s : Outgoing} {e : Nat × Response} {before after : List (Nat × Response)} :
      s.taken = before ++ e :: after →
      Step s { s with taken := before ++ after, completed := s.completed ++ [e] }

def Reachable : Outgoing → Prop := Relation.ReflTransGen Step {}

/-! ## What the map has seen -/

end Outgoing

namespace Stage

/-- The entry made for a request that is not on the wire yet. -/
def unwritten : Option Stage → List (Exchange.Event MessageId Nat)
  | some (registered c messageId) => [.sent (.integer messageId) c.number]
  | _ => []

def drawnId : Option Stage → List MessageId
  | some (drawn _ messageId) => [.integer messageId]
  | _ => []

/-- The call that has made no entry yet. -/
def unregistered : Option Stage → List Nat
  | some (locked c) => [c.number]
  | some (drawn c _) => [c.number]
  | _ => []

end Stage

namespace Outgoing

/-- The wire, and the entry whose request is still to be written. -/
def log (s : Outgoing) : List (Exchange.Event MessageId Nat) :=
  s.wire.map WireEvent.exchange ++ Stage.unwritten s.holder

/-- The requests entered into the map so far: their ids and their calls. -/
def registered (s : Outgoing) : List (MessageId × Nat) := Exchange.sents s.log

def ids (s : Outgoing) : List MessageId := s.registered.map Prod.fst ++ Stage.drawnId s.holder

def numbers (s : Outgoing) : List Nat :=
  s.registered.map Prod.snd ++ Stage.unregistered s.holder ++ s.waiting.map Call.number

/-- The last message with this id on the wire is the request of the call. -/
def Awaits (s : Outgoing) (id : MessageId) (number : Nat) : Prop :=
  ∃ before after request, s.wire = before ++ .sent number request :: after ∧ request.id = some id ∧
    ∀ response, .received response ∈ after → response.id ≠ id

structure Inv (s : Outgoing) : Prop where
  counter : s.uniqueRequestId = Int32.ofNat s.issued
  drawn : ∀ id ∈ s.ids, ∃ n < s.issued, id = .integer (Int32.ofNat (n + 1))
  ids : s.ids.Nodup
  called : ∀ k ∈ s.numbers, k < s.calls
  numbers : s.numbers.Nodup
  wire : ∀ number request, .sent number request ∈ s.wire → request.id.isSome
  pending : s.pendingRequests = Exchange.awaiting s.log
  answered : ((s.taken ++ s.completed).map fun e => (e.2.id, e.1)).Perm (Exchange.answered s.log)
  overwritten : s.overwritten = []

/-! ## What a step keeps -/

theorem ofNat_inj {n m : Nat} (hn : n < 2 ^ 32) (hm : m < 2 ^ 32) (h : Int32.ofNat n = Int32.ofNat m) :
    n = m := by
  have := congrArg (fun i => i.toBitVec.toNat) h
  simp only [Int32.toBitVec_ofNat', BitVec.toNat_ofNat] at this
  omega

theorem next_eq {s : Outgoing} (h : Inv s) :
    nextUniqueRequestId s.uniqueRequestId = Int32.ofNat (s.issued + 1) := by
  rw [nextUniqueRequestId, h.counter, Int32.ofNat_add]
  rfl

/-- **An id that is drawn was never drawn before.** -/
theorem next_fresh {s : Outgoing} (h : Inv s) (hissued : s.issued + 1 < 2 ^ 32) :
    MessageId.integer (nextUniqueRequestId s.uniqueRequestId) ∉ s.ids := by
  intro hmem
  obtain ⟨n, hn, heq⟩ := h.drawn _ hmem
  rw [next_eq h, MessageId.integer.injEq] at heq
  have := ofNat_inj hissued (by omega) heq
  omega

theorem inv_init : Inv {} where
  counter := rfl
  drawn := by intro id hid; cases hid
  ids := List.nodup_nil
  called := by intro k hk; cases hk
  numbers := List.nodup_nil
  wire := by intro number request hmem; cases hmem
  pending := rfl
  answered := .refl _
  overwritten := rfl

theorem issued_le {s s' : Outgoing} (h : Step s s') : s.issued ≤ s'.issued := by
  cases h <;> simp

theorem inv_call {s : Outgoing} (h : Inv s) (method : Bytes) (params : Option Json.Value) :
    Inv { s with waiting := s.waiting ++ [⟨s.calls, method, params⟩], calls := s.calls + 1 } := by
  let s' : Outgoing :=
    { s with waiting := s.waiting ++ [⟨s.calls, method, params⟩], calls := s.calls + 1 }
  have hnum : s'.numbers = s.numbers ++ [s.calls] := by simp [s', numbers, registered, log]
  refine { h with called := ?_, numbers := ?_ }
  · show ∀ k ∈ s'.numbers, k < s.calls + 1
    intro k hk
    rw [hnum, List.mem_append, List.mem_singleton] at hk
    rcases hk with hk | rfl
    · have := h.called k hk
      omega
    · omega
  · show s'.numbers.Nodup
    rw [hnum, List.nodup_append]
    refine ⟨h.numbers, List.nodup_singleton _, ?_⟩
    intro k hk k' hk' heq
    rw [List.mem_singleton.mp hk'] at heq
    have := h.called k hk
    omega

/-- A step that neither draws an id nor touches the map. -/
theorem Inv.of_log_eq {s s' : Outgoing} (h : Inv s) (hlog : s'.log = s.log)
    (hid : Stage.drawnId s'.holder = Stage.drawnId s.holder) (hnumbers : s'.numbers.Perm s.numbers)
    (hwire : ∀ number request, .sent number request ∈ s'.wire → request.id.isSome)
    (htaken : (s'.taken ++ s'.completed).Perm (s.taken ++ s.completed))
    (hrest : (s'.uniqueRequestId, s'.issued, s'.calls, s'.overwritten) =
      (s.uniqueRequestId, s.issued, s.calls, s.overwritten))
    (hpending : s'.pendingRequests = s.pendingRequests) : Inv s' := by
  simp only [Prod.mk.injEq] at hrest
  obtain ⟨hcounter, hissued, hcalls, hoverwritten⟩ := hrest
  have hids : s'.ids = s.ids := by rw [Outgoing.ids, Outgoing.ids, registered, registered, hlog, hid]
  constructor
  · rw [hcounter, hissued]
    exact h.counter
  · rw [hids, hissued]
    exact h.drawn
  · rw [hids]
    exact h.ids
  · intro k hk
    rw [hcalls]
    exact h.called k (hnumbers.mem_iff.mp hk)
  · exact hnumbers.nodup_iff.mpr h.numbers
  · exact hwire
  · rw [hpending, hlog]
    exact h.pending
  · rw [hlog]
    exact (htaken.map _).trans h.answered
  · rw [hoverwritten]
    exact h.overwritten

theorem inv_lock {s : Outgoing} (h : Inv s) {c : Call} {before after : List Call}
    (hfree : s.holder = none) (hwait : s.waiting = before ++ c :: after) :
    Inv { s with holder := some (.locked c), waiting := before ++ after } := by
  have hlog : log { s with holder := some (.locked c), waiting := before ++ after } = s.log := by
    simp [log, hfree, Stage.unwritten]
  apply h.of_log_eq hlog (by simp [hfree, Stage.drawnId]) ?_ h.wire (.refl _) rfl rfl
  simp only [numbers, registered, hlog, hfree, hwait, Stage.unregistered, List.append_nil,
    List.append_assoc, List.map_append, List.map_cons, List.singleton_append]
  exact List.perm_middle.symm.append_left _

theorem inv_draw {s : Outgoing} (h : Inv s) {c : Call} (hhold : s.holder = some (.locked c))
    (hissued : s.issued + 1 < 2 ^ 32) :
    Inv { s with
      uniqueRequestId := nextUniqueRequestId s.uniqueRequestId
      issued := s.issued + 1
      holder := some (.drawn c (nextUniqueRequestId s.uniqueRequestId)) } := by
  let i := nextUniqueRequestId s.uniqueRequestId
  let s' : Outgoing :=
    { s with uniqueRequestId := i, issued := s.issued + 1, holder := some (.drawn c i) }
  have hlog : s'.log = s.log := by simp [s', log, hhold, Stage.unwritten]
  have hids : s'.ids = s.ids ++ [.integer i] := by
    simp [s', ids, registered, hlog, hhold, Stage.drawnId]
  have hnum : s'.numbers = s.numbers := by
    simp [s', numbers, registered, hlog, hhold, Stage.unregistered]
  refine { h with
    counter := next_eq h, drawn := ?_, ids := ?_, called := ?_, numbers := ?_, pending := ?_,
    answered := ?_ }
  · show ∀ id ∈ s'.ids, ∃ n < s.issued + 1, id = .integer (Int32.ofNat (n + 1))
    rw [hids]
    intro id hid
    rcases List.mem_append.mp hid with hid | hid
    · obtain ⟨n, hn, heq⟩ := h.drawn id hid
      exact ⟨n, by omega, heq⟩
    · rw [List.mem_singleton.mp hid]
      exact ⟨s.issued, by omega, congrArg MessageId.integer (next_eq h)⟩
  · show s'.ids.Nodup
    rw [hids, List.nodup_append]
    refine ⟨h.ids, List.nodup_singleton _, ?_⟩
    intro id hid id' hid' heq
    rw [List.mem_singleton.mp hid'] at heq
    subst heq
    exact next_fresh h hissued hid
  · show ∀ k ∈ s'.numbers, k < s.calls
    rw [hnum]
    exact h.called
  · show s'.numbers.Nodup
    rw [hnum]
    exact h.numbers
  · show s.pendingRequests = Exchange.awaiting s'.log
    rw [hlog]
    exact h.pending
  · show List.Perm _ (Exchange.answered s'.log)
    rw [hlog]
    exact h.answered

/-- A step that the map sees. -/
theorem Inv.of_event {s s' : Outgoing} (h : Inv s) {e : Exchange.Event MessageId Nat}
    (hlog : s'.log = s.log ++ [e]) (hids : s'.ids = s.ids) (hnumbers : s'.numbers = s.numbers)
    (hwire : ∀ number request, .sent number request ∈ s'.wire → request.id.isSome)
    (hpending : s'.pendingRequests = Exchange.follow s.pendingRequests e)
    (hanswered : ((s'.taken ++ s'.completed).map fun e => (e.2.id, e.1)).Perm
      (((s.taken ++ s.completed).map fun e => (e.2.id, e.1)) ++
        (Exchange.answer s.pendingRequests e).toList))
    (hrest : (s'.uniqueRequestId, s'.issued, s'.calls) = (s.uniqueRequestId, s.issued, s.calls))
    (hoverwritten : s'.overwritten = []) : Inv s' := by
  simp only [Prod.mk.injEq] at hrest
  obtain ⟨hcounter, hissued, hcalls⟩ := hrest
  constructor
  · rw [hcounter, hissued]
    exact h.counter
  · rw [hids, hissued]
    exact h.drawn
  · rw [hids]
    exact h.ids
  · rw [hnumbers, hcalls]
    exact h.called
  · rw [hnumbers]
    exact h.numbers
  · exact hwire
  · rw [hpending, hlog, Exchange.awaiting_append, ← h.pending]
  · rw [hlog, Exchange.answered_append, ← h.pending]
    exact hanswered.trans (h.answered.append_right _)
  · exact hoverwritten

/-- The id was drawn by this call alone, so the map has no entry for it. -/
theorem pending_of_drawn {s : Outgoing} (h : Inv s) {c : Call} {messageId : Json.Integer}
    (hhold : s.holder = some (.drawn c messageId)) : s.pendingRequests (.integer messageId) = none := by
  have hnodup := h.ids
  rw [ids, hhold, Stage.drawnId, List.nodup_append] at hnodup
  cases hp : s.pendingRequests (.integer messageId) with
  | none => rfl
  | some k =>
    rw [h.pending] at hp
    have hmem := List.mem_map_of_mem (f := Prod.fst) (Exchange.mem_sents_of_awaiting hp)
    exact absurd rfl (hnodup.2.2 _ hmem _ (List.mem_singleton_self _))

theorem inv_register {s : Outgoing} (h : Inv s) {c : Call} {messageId : Json.Integer}
    (hhold : s.holder = some (.drawn c messageId)) :
    Inv { s with
      pendingRequests := Function.update s.pendingRequests (.integer messageId) (some c.number)
      overwritten := s.overwritten ++ (s.pendingRequests (.integer messageId)).toList
      holder := some (.registered c messageId) } := by
  let s' : Outgoing := { s with
    pendingRequests := Function.update s.pendingRequests (.integer messageId) (some c.number)
    overwritten := s.overwritten ++ (s.pendingRequests (.integer messageId)).toList
    holder := some (.registered c messageId) }
  have hlog : s'.log = s.log ++ [.sent (.integer messageId) c.number] := by
    simp [s', log, hhold, Stage.unwritten]
  have hids : s'.ids = s.ids := by simp [s', ids, registered, hlog, hhold, Stage.drawnId]
  have hnum : s'.numbers = s.numbers := by
    simp [s', numbers, registered, hlog, hhold, Stage.unregistered]
  apply h.of_event hlog hids hnum h.wire rfl ?_ rfl ?_
  · simp [s', Exchange.answer]
  · show s.overwritten ++ _ = []
    rw [h.overwritten, pending_of_drawn h hhold]
    rfl

theorem inv_write {s : Outgoing} (h : Inv s) {c : Call} {messageId : Json.Integer}
    (hhold : s.holder = some (.registered c messageId)) :
    Inv { s with
      wire := s.wire ++ [.sent c.number (createRequest (.integer messageId) c.method c.params)]
      holder := some .written } := by
  let s' : Outgoing := { s with
    wire := s.wire ++ [.sent c.number (createRequest (.integer messageId) c.method c.params)]
    holder := some .written }
  have hlog : s'.log = s.log := by
    simp [s', log, hhold, Stage.unwritten, WireEvent.exchange, createRequest]
  have hnum : s'.numbers = s.numbers := by
    simp [s', numbers, registered, hlog, hhold, Stage.unregistered]
  apply h.of_log_eq hlog (by simp [hhold, Stage.drawnId]) (.of_eq hnum) ?_ (.refl _) rfl rfl
  intro number request hmem
  rcases List.mem_append.mp hmem with hmem | hmem
  · exact h.wire number request hmem
  · simp only [List.mem_singleton, WireEvent.sent.injEq] at hmem
    rw [hmem.2]
    rfl

theorem inv_unlock {s : Outgoing} (h : Inv s) (hhold : s.holder = some .written) :
    Inv { s with holder := none } := by
  have hlog : log { s with holder := none } = s.log := by simp [log, hhold, Stage.unwritten]
  have hnum : numbers { s with holder := none } = s.numbers := by
    simp [numbers, registered, hlog, hhold, Stage.unregistered]
  exact h.of_log_eq hlog (by simp [hhold, Stage.drawnId]) (.of_eq hnum) h.wire (.refl _) rfl rfl

theorem inv_other {s : Outgoing} (h : Inv s) :
    Inv { s with
      uniqueRequestId := nextUniqueRequestId s.uniqueRequestId
      issued := s.issued + 1 } := by
  refine { h with counter := next_eq h, drawn := ?_ }
  intro id hid
  obtain ⟨n, hn, heq⟩ := h.drawn id hid
  exact ⟨n, Nat.lt_succ_of_lt hn, heq⟩

theorem inv_receive {s : Outgoing} (h : Inv s) (response : Response) (hfree : s.holder = none) :
    Inv { s with
      pendingRequests := (takePending response.id s.pendingRequests).2
      wire := s.wire ++ [.received response]
      taken := s.taken ++ ((takePending response.id s.pendingRequests).1.map (·, response)).toList } := by
  let s' : Outgoing := { s with
    pendingRequests := (takePending response.id s.pendingRequests).2
    wire := s.wire ++ [.received response]
    taken := s.taken ++ ((takePending response.id s.pendingRequests).1.map (·, response)).toList }
  have hlog : s'.log = s.log ++ [.received response.id] := by
    simp [s', log, hfree, Stage.unwritten, WireEvent.exchange]
  have hreg : s'.registered = s.registered := by simp [registered, hlog]
  have hids : s'.ids = s.ids := by rw [ids, ids, hreg]
  have hnum : s'.numbers = s.numbers := by rw [numbers, numbers, hreg]
  apply h.of_event hlog hids hnum ?_ (takePending_snd _ _) ?_ rfl h.overwritten
  · intro number request hmem
    rcases List.mem_append.mp hmem with hmem | hmem
    · exact h.wire number request hmem
    · simp at hmem
  · -- the result that is taken out stands before the completed ones
    have hperm := List.perm_append_comm_assoc s.taken
      ((s.pendingRequests response.id).map (·, response)).toList s.completed
    simp only [s', takePending_fst, List.append_assoc]
    refine (hperm.map _).trans ?_
    rw [List.map_append, Exchange.answer]
    refine List.perm_append_comm.trans ?_
    cases s.pendingRequests response.id <;> simp

theorem inv_complete {s : Outgoing} (h : Inv s) {e : Nat × Response}
    {before after : List (Nat × Response)} (htaken : s.taken = before ++ e :: after) :
    Inv { s with taken := before ++ after, completed := s.completed ++ [e] } := by
  have hlog : log { s with taken := before ++ after, completed := s.completed ++ [e] } = s.log := rfl
  apply h.of_log_eq hlog rfl (.refl _) h.wire ?_ rfl rfl
  show ((before ++ after) ++ (s.completed ++ [e])).Perm (s.taken ++ s.completed)
  rw [htaken, ← List.append_assoc]
  refine (List.perm_append_singleton e _).trans ?_
  rw [List.append_assoc, List.append_assoc]
  exact List.perm_middle.symm

theorem inv_step {s s' : Outgoing} (hstep : Step s s') (hissued : s'.issued < 2 ^ 32) (h : Inv s) :
    Inv s' := by
  cases hstep with
  | call method params => exact inv_call h method params
  | lock hfree hwait => exact inv_lock h hfree hwait
  | draw hhold => exact inv_draw h hhold hissued
  | register hhold => exact inv_register h hhold
  | write hhold => exact inv_write h hhold
  | unlock hhold => exact inv_unlock h hhold
  | other => exact inv_other h
  | receive response hfree => exact inv_receive h response hfree
  | complete htaken => exact inv_complete h htaken

/-- **What every interleaving keeps.** -/
theorem reachable_inv {s : Outgoing} (hs : Reachable s) (hissued : s.issued < 2 ^ 32) : Inv s := by
  induction hs with
  | refl => exact inv_init
  | tail _ hstep ih => exact inv_step hstep hissued (ih (Nat.lt_of_le_of_lt (issued_le hstep) hissued))

/-! ## Responses and requests -/

theorem keys_nodup {s : Outgoing} (h : Inv s) : (s.registered.map Prod.fst).Nodup :=
    h.ids.of_append_left

theorem calls_nodup {s : Outgoing} (h : Inv s) : (s.registered.map Prod.snd).Nodup :=
  h.numbers.of_append_left.of_append_left

theorem answered_numbers_nodup {s : Outgoing} (h : Inv s) :
    ((Exchange.answered s.log).map Prod.snd).Nodup := by
  apply List.Nodup.map_on ?_ (List.Nodup.of_map _ (Exchange.answered_keys_nodup (keys_nodup h)))
  intro a ha b hb heq
  exact List.inj_on_of_nodup_map (calls_nodup h) (Exchange.mem_sents_of_answered ha)
    (Exchange.mem_sents_of_answered hb) heq

/-- **A result object is completed at most once.** -/
theorem completed_nodup {s : Outgoing} (h : Inv s) : (s.completed.map Prod.fst).Nodup := by
  have hperm := h.answered.map Prod.snd
  rw [List.map_map, List.map_append] at hperm
  exact (hperm.nodup_iff.mpr (answered_numbers_nodup h)).of_append_right

/-- The wire shows every request that was answered. -/
theorem sent_of_answered {s : Outgoing} (h : Inv s) {id : MessageId} {number : Nat}
    (hmem : (id, number) ∈ Exchange.answered s.log) :
    ∃ request, .sent number request ∈ s.wire ∧ request.id = some id := by
  -- the entry still to be written is not answered
  have hwire : (id, number) ∈ Exchange.answered (s.wire.map WireEvent.exchange) := by
    rw [log] at hmem
    unfold Stage.unwritten at hmem
    split at hmem
    · rw [Exchange.answered_append] at hmem
      simpa [Exchange.answer] using hmem
    · simpa using hmem
  obtain ⟨e, he, heq⟩ := List.mem_filterMap.mp (Exchange.mem_sents_of_answered hwire)
  obtain ⟨event, hevent, rfl⟩ := List.mem_map.mp he
  cases event with
  | received response => cases heq
  | sent k request =>
    simp only [WireEvent.exchange, Exchange.Event.sent?, Option.some.injEq, Prod.mk.injEq] at heq
    obtain ⟨rfl, rfl⟩ := heq
    obtain ⟨id, hid⟩ := Option.isSome_iff_exists.mp (h.wire k request hevent)
    exact ⟨request, hevent, by rw [hid]; rfl⟩

theorem completed_sent {s : Outgoing} (h : Inv s) {e : Nat × Response} (he : e ∈ s.completed) :
    ∃ request, .sent e.1 request ∈ s.wire ∧ request.id = some e.2.id := by
  apply sent_of_answered h
  apply h.answered.mem_iff.mp
  exact List.mem_map_of_mem (f := fun e => (e.2.id, e.1)) (List.mem_append_right _ he)

/-- The last message of an id on the wire is its request as soon as no response follows. -/
theorem awaits_iff {s : Outgoing} (h : Inv s) (hfree : s.holder = none) {id : MessageId}
    {number : Nat} :
    s.Awaits id number ↔ Exchange.Awaits s.log id number := by
  have hlog : s.log = s.wire.map WireEvent.exchange := by
    simp [log, hfree, Stage.unwritten]
  constructor
  · rintro ⟨before, after, request, hwire, hid, hafter⟩
    refine ⟨before.map WireEvent.exchange, after.map WireEvent.exchange, ?_, ?_⟩
    · rw [hlog, hwire, List.map_append, List.map_cons, WireEvent.exchange, hid]
      rfl
    · intro e he
      obtain ⟨event, hevent, rfl⟩ := List.mem_map.mp he
      cases event with
      | received response => exact hafter response hevent
      | sent k request' =>
        -- ids are drawn once
        intro heq
        have hkeys := keys_nodup h
        rw [registered, hlog, hwire, Exchange.sents, List.filterMap_map, List.map_filterMap,
          List.filterMap_append, List.filterMap_cons] at hkeys
        have hsome : ((WireEvent.sent k request').exchange.sent?.map Prod.fst) = some id :=
          congrArg some heq
        have hmem : id ∈ after.filterMap fun e => (e.exchange.sent?).map Prod.fst :=
          List.mem_filterMap.mpr ⟨_, hevent, hsome⟩
        simp only [Function.comp_apply, WireEvent.exchange, Exchange.Event.sent?, Option.map_some, hid,
          Option.getD_some] at hkeys
        exact (List.nodup_cons.mp hkeys.of_append_right).1 hmem
  · rintro ⟨before, after, heq, hafter⟩
    rw [hlog, List.map_eq_append_iff] at heq
    obtain ⟨before', rest, hwire, rfl, hrest⟩ := heq
    obtain ⟨event, after', rfl, hevent, rfl⟩ := List.map_eq_cons_iff.mp hrest
    cases event with
    | received response => cases hevent
    | sent k request =>
      simp only [WireEvent.exchange, Exchange.Event.sent.injEq] at hevent
      obtain ⟨rfl, rfl⟩ := hevent
      obtain ⟨id, hid⟩ := Option.isSome_iff_exists.mp (h.wire k request (by simp [hwire]))
      refine ⟨before', after', request, hwire, by rw [hid]; rfl, ?_⟩
      intro response hresponse
      exact hafter _ (List.mem_map_of_mem hresponse)

/-- **Requests and responses match**: ids are distinct and no entry is overwritten; a result object
is completed at most once, by a response with the id of its request; and the first response to a
request on the wire finds its entry, every other response nothing. -/
theorem responses_match {s : Outgoing} (hs : Reachable s) (hissued : s.issued < 2 ^ 32) :
    ((s.registered.map Prod.fst).Nodup ∧ s.overwritten = [] ∧
      ∀ id number, s.pendingRequests id = some number → (id, number) ∈ s.registered) ∧
    ((s.completed.map Prod.fst).Nodup ∧
      ∀ e ∈ s.completed, ∃ request, .sent e.1 request ∈ s.wire ∧ request.id = some e.2.id) ∧
    (s.holder = none → ∀ id,
      (∀ number, s.Awaits id number →
        takePending id s.pendingRequests = (some number, Function.update s.pendingRequests id none)) ∧
      ((∀ number, ¬ s.Awaits id number) →
        takePending id s.pendingRequests = (none, s.pendingRequests))) := by
  have h := reachable_inv hs hissued
  refine ⟨⟨keys_nodup h, h.overwritten, ?_⟩, ⟨completed_nodup h, fun e he => completed_sent h he⟩, ?_⟩
  · intro id number hp
    rw [h.pending] at hp
    exact Exchange.mem_sents_of_awaiting hp
  intro hfree id
  constructor
  · intro number hawaits
    have hp : s.pendingRequests id = some number := by
      rw [h.pending]
      exact Exchange.awaiting_eq_some_iff.mpr ((awaits_iff h hfree).mp hawaits)
    simp only [takePending, hp]
  · intro hnone
    have hp : s.pendingRequests id = none := by
      rw [Option.eq_none_iff_forall_not_mem]
      intro number hnumber
      rw [h.pending] at hnumber
      exact hnone number ((awaits_iff h hfree).mpr (Exchange.awaiting_eq_some_iff.mp hnumber))
    simp only [takePending, hp]

/-- Two requests are sent, between which another handler draws an id; the second one is answered twice. -/
theorem responses_match_once :
    ∃ s : Outgoing, s.registered = [(.integer 1, 0), (.integer 3, 1)] ∧ s.completed.map Prod.fst = [1] ∧
      s.holder = none ∧
      (∀ e ∈ s.completed, ∃ request, .sent e.1 request ∈ s.wire ∧ request.id = some e.2.id) ∧
      takePending (.integer 1) s.pendingRequests =
        (some 0, Function.update s.pendingRequests (.integer 1) none) ∧
      takePending (.integer 3) s.pendingRequests = (none, s.pendingRequests) := by
  let response : Response := createResponse (.integer 3) .null
  have h₁ : Reachable _ := .tail .refl (.call (bytes "a") none)
  have h₂ := (h₁.tail (.call (bytes "b") none)).tail (@Step.lock _ _ [] _ rfl rfl)
  have h₃ := ((h₂.tail (.draw rfl)).tail (.register rfl)).tail (.write rfl)
  have h₄ := ((h₃.tail (.unlock rfl)).tail .other).tail (@Step.lock _ _ [] [] rfl rfl)
  have h₅ := ((h₄.tail (.draw rfl)).tail (.register rfl)).tail (.write rfl)
  have h₆ := ((h₅.tail (.unlock rfl)).tail (.receive response rfl)).tail (.receive response rfl)
  have h₇ := h₆.tail (@Step.complete _ (1, response) [] [] rfl)
  obtain ⟨-, ⟨-, hsent⟩, htakes⟩ := responses_match h₇ (by decide)
  refine ⟨_, rfl, rfl, rfl, hsent, (htakes rfl (.integer 1)).1 0 ?_, (htakes rfl (.integer 3)).2 ?_⟩
  · exact (awaits_iff (reachable_inv h₇ (by decide)) rfl).mpr (Exchange.awaiting_eq_some_iff.mp rfl)
  · intro number hawaits
    have hsome := Exchange.awaiting_eq_some_iff.mpr ((awaits_iff (reachable_inv h₇ (by decide)) rfl).mp hawaits)
    cases hsome

end Outgoing

end Lsp.Handler
