import LspFramework.Handler.Incoming

/-!
# Two handlers that talk to each other

Each side is a `MessageHandler` on one end of a connection: its threads call `sendRequest` and
`sendNotification`, one thread calls `processIncomingMessages`, and the threads of its pool execute
tasks and write their responses.  What a side has written, the other one reads in this order.  A side
takes steps of its own accord (`Works`) and is called by its user (`Calls`); the steps of both sides
interleave in any order.  `Endpoint.Inv`, kept by every step, says what a side has made of the
messages it has read.

    Reachable setup s → (s i).Inv (setup i) (s i.peer).written                    (reachable_inv)
-/

namespace Lsp.Handler

open Chars Json Jsonrpc

/-! ## The system -/

inductive Side where
  | left
  | right
  deriving DecidableEq

def Side.peer : Side → Side
  | left => right
  | right => left

@[simp]
theorem Side.peer_peer (i : Side) : i.peer.peer = i := by cases i <;> rfl

@[simp]
theorem Side.peer_ne (i : Side) : i.peer ≠ i := by cases i <;> decide

/-- A message that a handler writes: a request with the number of its call of `sendRequest`, if it is
of one, or a response with the number of the request it answers. -/
inductive Packet where
  | request (call : Option Nat) (request : Request)
  | response (reply : Reply)

namespace Packet

def request? : Packet → Option Request
  | request _ r => some r
  | response _ => none

def sent? : Packet → Option (Nat × Request)
  | request call r => call.map (·, r)
  | response _ => none

def reply? : Packet → Option Reply
  | request _ _ => none
  | response reply => some reply

end Packet

/-- What the user gives a handler: callbacks, and the result object of each call of `sendRequest`. -/
structure Setup (σ : Type) where
  table : Table σ
  results : Nat → RequestResult σ

structure Endpoint (σ : Type) where
  /-- what the callbacks of the side share -/
  user : σ
  pool : ThreadPool (Nat × Task σ)
  outgoing : Outgoing := {}
  /-- method and params of each call of `sendRequest` -/
  calls : List (Bytes × Option Value) := []
  /-- how much of what the other side wrote has been read -/
  read : Nat := 0
  /-- the requests processed so far -/
  requests : List Request := []
  /-- `optionalResponse` of `processIncomingMessages`, still to be written -/
  optionalResponse : Option Reply := none
  /-- responses of the tasks that threads of the pool have still to write -/
  responses : List Reply := []
  written : List Packet := []
  terminated : Bool := false

section Endpoints

variable {σ : Type}

namespace Endpoint

def create (user : σ) (maxResponseThreads : Nat) : Endpoint σ where
  user
  pool := .create 0 maxResponseThreads

/-- What `processRequest` and `processResponse` see of the handler. -/
def state (results : Nat → RequestResult σ) (e : Endpoint σ) : State σ where
  user := e.user
  m_pendingRequests id := (e.outgoing.pendingRequests id).map results

/-- The thread that processes the messages is done with the last one. -/
def Idle (e : Endpoint σ) : Prop := e.optionalResponse = none ∧ e.outgoing.taken = []

/-- The user calls `sendRequest` or `sendNotification`, or another handler of the process draws an id. -/
inductive Calls : Endpoint σ → Endpoint σ → Prop
  | sendRequest {e : Endpoint σ} (method : Bytes) (params : Option Value) : e.terminated = false →
      Calls e { e with
        outgoing := { e.outgoing with
          waiting := e.outgoing.waiting ++ [⟨e.outgoing.calls, method, params⟩]
          calls := e.outgoing.calls + 1 }
        calls := e.calls ++ [(method, params)] }
  | sendNotification {e : Endpoint σ} (method : Bytes) (params : Option Value) : e.terminated = false →
      Calls e { e with written := e.written ++ [.request none (createNotification method params)] }
  | other {e : Endpoint σ} : e.terminated = false →
      Calls e { e with
        outgoing := { e.outgoing with
          uniqueRequestId := nextUniqueRequestId e.outgoing.uniqueRequestId
          issued := e.outgoing.issued + 1 } }

/-- What the threads of a side do when the other side has written `incoming`. -/
inductive Works (setup : Setup σ) (incoming : List Packet) : Endpoint σ → Endpoint σ → Prop
  | lock {e : Endpoint σ} {c : Call} {before after : List Call} : e.terminated = false →
      e.outgoing.holder = none → e.outgoing.waiting = before ++ c :: after →
      Works setup incoming e { e with
        outgoing := { e.outgoing with holder := some (.locked c), waiting := before ++ after } }
  | draw {e : Endpoint σ} {c : Call} : e.terminated = false → e.outgoing.holder = some (.locked c) →
      Works setup incoming e { e with
        outgoing := { e.outgoing with
          uniqueRequestId := nextUniqueRequestId e.outgoing.uniqueRequestId
          issued := e.outgoing.issued + 1
          holder := some (.drawn c (nextUniqueRequestId e.outgoing.uniqueRequestId)) } }
  | register {e : Endpoint σ} {c : Call} {messageId : Json.Integer} : e.terminated = false →
      e.outgoing.holder = some (.drawn c messageId) →
      Works setup incoming e { e with
        outgoing := { e.outgoing with
          pendingRequests :=
            Function.update e.outgoing.pendingRequests (.integer messageId) (some c.number)
          overwritten :=
            e.outgoing.overwritten ++ (e.outgoing.pendingRequests (.integer messageId)).toList
          holder := some (.registered c messageId) } }
  | write {e : Endpoint σ} {c : Call} {messageId : Json.Integer} : e.terminated = false →
      e.outgoing.holder = some (.registered c messageId) →
      Works setup incoming e { e with
        outgoing := { e.outgoing with
          wire := e.outgoing.wire ++
            [.sent c.number (createRequest (.integer messageId) c.method c.params)]
          holder := some .written }
        written := e.written ++
          [.request (some c.number) (createRequest (.integer messageId) c.method c.params)] }
  | unlock {e : Endpoint σ} : e.terminated = false → e.outgoing.holder = some .written →
      Works setup incoming e { e with outgoing := { e.outgoing with holder := none } }
  | request {e : Endpoint σ} {call : Option Nat} {request : Request} {r : Reaction σ} :
      e.terminated = false → e.Idle → incoming[e.read]? = some (.request call request) →
      processRequest setup.table request true (e.state setup.results) = some r →
      Works setup incoming e { e with
        user := r.state.user
        pool := submit e.requests.length r.task e.pool
        read := e.read + 1
        requests := e.requests ++ [request]
        optionalResponse := r.response.map (.mk e.requests.length) }
  | respond {e : Endpoint σ} {reply : Reply} : e.terminated = false →
      e.optionalResponse = some reply →
      Works setup incoming e { e with
        optionalResponse := none
        written := e.written ++ [.response reply] }
  /-- `processResponse` takes the result object out under the mutex. -/
  | receive {e : Endpoint σ} {reply : Reply} : e.terminated = false → e.Idle →
      incoming[e.read]? = some (.response reply) → e.outgoing.holder = none →
      Works setup incoming e { e with
        outgoing := { e.outgoing with
          pendingRequests := (takePending reply.response.id e.outgoing.pendingRequests).2
          wire := e.outgoing.wire ++ [.received reply.response]
          taken := e.outgoing.taken ++
            ((takePending reply.response.id e.outgoing.pendingRequests).1.map
              (·, reply.response)).toList }
        read := e.read + 1 }
  /-- … and completes it. -/
  | complete {e : Endpoint σ} {number : Nat} {response : Response} {rest : List (Nat × Response)}
      {f : Callback σ Unit} : e.terminated = false → e.outgoing.taken = (number, response) :: rest →
      (setup.results number).complete response = some f →
      Works setup incoming e { e with
        user := (f response.id e.user).2
        outgoing := { e.outgoing with
          taken := rest
          completed := e.outgoing.completed ++ [(number, response)] } }
  | terminateRequest {e : Endpoint σ} {call : Option Nat} {request : Request} : e.terminated = false →
      e.Idle → incoming[e.read]? = some (.request call request) →
      processRequest setup.table request true (e.state setup.results) = none →
      Works setup incoming e { e with terminated := true }
  | terminateResponse {e : Endpoint σ} {number : Nat} {response : Response}
      {rest : List (Nat × Response)} :
      e.terminated = false → e.outgoing.taken = (number, response) :: rest →
      (setup.results number).complete response = none →
      Works setup incoming e { e with terminated := true }
  | take {e : Endpoint σ} {pool : ThreadPool (Nat × Task σ)} : e.terminated = false →
      e.pool.take = some pool → Works setup incoming e { e with pool }
  | finish {e : Endpoint σ} {i number : Nat} {task : Task σ} {pool : ThreadPool (Nat × Task σ)} :
      e.terminated = false → e.pool.finish i = some ((number, task), pool) →
      Works setup incoming e { e with
        user := (task.execute (e.state setup.results)).2.user
        pool
        responses := e.responses ++ reply number (task.execute (e.state setup.results)).1 }
  | sendResponse {e : Endpoint σ} {reply : Reply} {before after : List Reply} : e.terminated = false →
      e.responses = before ++ reply :: after →
      Works setup incoming e { e with
        responses := before ++ after
        written := e.written ++ [.response reply] }

end Endpoint

/-- Both sides. -/
abbrev System (σ : Type) := Side → Endpoint σ

namespace System

/-- One side takes a step of its own accord. -/
inductive Works (setup : Side → Setup σ) : System σ → System σ → Prop
  | side {s : System σ} {i : Side} {e : Endpoint σ} :
      Endpoint.Works (setup i) (s i.peer).written (s i) e → Works setup s (Function.update s i e)

inductive Step (setup : Side → Setup σ) : System σ → System σ → Prop
  | works {s s' : System σ} : Works setup s s' → Step setup s s'
  | calls {s : System σ} {i : Side} {e : Endpoint σ} :
      Endpoint.Calls (s i) e → Step setup s (Function.update s i e)

def start (user : Side → σ) (maxResponseThreads : Side → Nat) : System σ :=
  fun i => .create (user i) (maxResponseThreads i)

/-- The state is one of a run from the start. -/
def Reachable (setup : Side → Setup σ) (s : System σ) : Prop :=
  ∃ user maxResponseThreads, Relation.ReflTransGen (Step setup) (start user maxResponseThreads) s

end System

/-! ## The outgoing side -/

namespace Outgoing

/-- Result objects are taken out for responses on the wire. -/
theorem received_of_taken {s : Outgoing} (hs : Reachable s) {e : Nat × Response}
    (he : e ∈ s.taken ++ s.completed) : .received e.2 ∈ s.wire := by
  induction hs with
  | refl => cases he
  | tail _ hstep ih =>
    cases hstep with
    | call | lock | draw | register | unlock | other => exact ih he
    | write => exact List.mem_append_left _ (ih he)
    | receive response hfree =>
      rcases List.mem_append.mp he with he | he
      · rcases List.mem_append.mp he with he | he
        · exact List.mem_append_left _ (ih (List.mem_append_left _ he))
        · obtain ⟨number, -, rfl⟩ := Option.map_eq_some_iff.mp (Option.mem_toList.mp he)
          exact List.mem_append_right _ (List.mem_singleton_self _)
      · exact List.mem_append_left _ (ih (List.mem_append_right _ he))
    | complete htaken =>
      apply ih
      rw [htaken]
      simp only [List.mem_append, List.mem_cons] at he ⊢
      tauto

end Outgoing

/-! ## What a side has made of what it read -/

namespace Stage

/-- The call whose request is still to be written. -/
def call : Option Stage → List Call
  | some (locked c) => [c]
  | some (drawn c _) => [c]
  | some (registered c _) => [c]
  | _ => []

end Stage

namespace WireEvent

def sent? : WireEvent → Option (Nat × Request)
  | sent number request => some (number, request)
  | received _ => none

def received? : WireEvent → Option Response
  | sent _ _ => none
  | received response => some response

end WireEvent

namespace Endpoint

/-- The responses written and those still to be written. -/
def replies (e : Endpoint σ) : List Reply :=
  e.written.filterMap Packet.reply? ++ (e.optionalResponse.toList ++ e.responses)

/-- The packet is a notification, or the request of a call under an id of its own. -/
def Sound (calls : List (Bytes × Option Value)) : Packet → Prop
  | .request none request => request.id = none
  | .request (some k) request => ∃ id method params,
      calls[k]? = some (method, params) ∧ request = createRequest (.integer id) method params
  | .response _ => True

structure Inv (setup : Setup σ) (incoming : List Packet) (e : Endpoint σ) : Prop where
  outgoing : Outgoing.Reachable e.outgoing
  count : e.outgoing.calls = e.calls.length
  called : ∀ c ∈ Stage.call e.outgoing.holder ++ e.outgoing.waiting,
    e.calls[c.number]? = some (c.method, c.params)
  written : ∀ packet ∈ e.written, Sound e.calls packet
  sents : e.outgoing.wire.filterMap WireEvent.sent? = e.written.filterMap Packet.sent?
  read : e.read ≤ incoming.length
  requests : e.requests = (incoming.take e.read).filterMap Packet.request?
  received : e.outgoing.wire.filterMap WireEvent.received? =
    ((incoming.take e.read).filterMap Packet.reply?).map Reply.response
  owed : Owed setup.table e.requests e.replies e.pool.tasks
  /-- a response with an id stands on the wire after the request of this id -/
  causal : ∀ before after response, e.outgoing.wire = before ++ .received response :: after →
    response.id ≠ .null → ∃ number request, .sent number request ∈ before ∧ request.id = some response.id

/-! ### Steps of the side -/

variable {setup : Setup σ} {incoming : List Packet} {e e' : Endpoint σ}

theorem works_written (h : Works setup incoming e e') : e.written <+: e'.written := by
  cases h with
  | write | respond | sendResponse => exact List.prefix_append _ _
  | _ => exact List.prefix_rfl

theorem Sound.append {calls : List (Bytes × Option Value)} {packet : Packet} (h : Sound calls packet)
    (calls' : List (Bytes × Option Value)) : Sound (calls ++ calls') packet := by
  cases packet with
  | response reply => trivial
  | request call request =>
    cases call with
    | none => exact h
    | some k =>
      obtain ⟨id, method, params, hk, hrequest⟩ := h
      obtain ⟨hlt, -⟩ := List.getElem?_eq_some_iff.mp hk
      exact ⟨id, method, params, by rw [List.getElem?_append_left hlt, hk], hrequest⟩

/-- The other side has written more. -/
theorem Inv.mono (h : e.Inv setup incoming) {incoming' : List Packet} (hmore : incoming <+: incoming') :
    e.Inv setup incoming' := by
  obtain ⟨more, rfl⟩ := hmore
  have htake : (incoming ++ more).take e.read = incoming.take e.read :=
    List.take_append_of_le_length h.read
  refine { h with read := ?_, requests := ?_, received := ?_ }
  · rw [List.length_append]
    exact Nat.le_trans h.read (Nat.le_add_right _ _)
  · rw [htake]
    exact h.requests
  · rw [htake]
    exact h.received

theorem inv_create (setup : Setup σ) (incoming : List Packet) (user : σ) (maxResponseThreads : Nat) :
    (create user maxResponseThreads).Inv setup incoming where
  outgoing := .refl
  count := rfl
  called := by intro c hc; cases hc
  written := by intro packet hpacket; cases hpacket
  sents := rfl
  read := Nat.zero_le _
  requests := rfl
  received := rfl
  owed := .init setup.table
  causal := by intro before after response heq; cases before <;> cases heq

theorem inv_calls (h : e.Inv setup incoming) (hcalls : Calls e e') : e'.Inv setup incoming := by
  cases hcalls with
  | sendRequest method params =>
    refine { h with outgoing := h.outgoing.tail (.call method params), count := ?_, called := ?_, written := ?_ }
    · show e.outgoing.calls + 1 = (e.calls ++ [(method, params)]).length
      rw [h.count, List.length_append]
      rfl
    · intro c hc
      rw [← List.append_assoc, List.mem_append, List.mem_singleton] at hc
      rcases hc with hc | rfl
      · have hold := h.called c hc
        obtain ⟨hlt, -⟩ := List.getElem?_eq_some_iff.mp hold
        rw [List.getElem?_append_left hlt, hold]
      · show (e.calls ++ [(method, params)])[e.outgoing.calls]? = some (method, params)
        rw [h.count, List.getElem?_concat_length]
    · intro packet hpacket
      exact (h.written packet hpacket).append _
  | sendNotification method params =>
    refine { h with written := ?_, sents := ?_, owed := ?_ }
    · intro packet hpacket
      rcases List.mem_append.mp hpacket with hpacket | hpacket
      · exact h.written packet hpacket
      · rw [List.mem_singleton.mp hpacket]
        rfl
    · rw [h.sents]
      simp [Packet.sent?]
    · have := h.owed
      simpa [replies, List.filterMap_cons, Packet.reply?] using this
  | other => exact { h with outgoing := h.outgoing.tail .other }

/-- What is read next belongs to what has been read. -/
theorem take_read {packet : Packet} (hpacket : incoming[e.read]? = some packet) :
    e.read + 1 ≤ incoming.length ∧ incoming.take (e.read + 1) = incoming.take e.read ++ [packet] := by
  obtain ⟨hlt, rfl⟩ := List.getElem?_eq_some_iff.mp hpacket
  exact ⟨hlt, (List.take_append_getElem hlt).symm⟩

theorem inv_write (h : e.Inv setup incoming) {c : Call} {messageId : Json.Integer}
    (hhold : e.outgoing.holder = some (.registered c messageId)) :
    Inv setup incoming { e with
      outgoing := { e.outgoing with
        wire := e.outgoing.wire ++
          [.sent c.number (createRequest (.integer messageId) c.method c.params)]
        holder := some .written }
      written := e.written ++
        [.request (some c.number) (createRequest (.integer messageId) c.method c.params)] } := by
  have hcalled := h.called
  rw [hhold] at hcalled
  refine { h with
    outgoing := h.outgoing.tail (.write hhold), called := ?_, written := ?_, sents := ?_, received := ?_,
    owed := ?_, causal := ?_ }
  · intro c' hc'
    exact hcalled c' (List.mem_cons_of_mem _ hc')
  · intro packet hpacket
    rcases List.mem_append.mp hpacket with hpacket | hpacket
    · exact h.written packet hpacket
    · rw [List.mem_singleton.mp hpacket]
      exact ⟨messageId, c.method, c.params, hcalled c List.mem_cons_self, rfl⟩
  · rw [List.filterMap_append, List.filterMap_append, h.sents]
    rfl
  · rw [List.filterMap_append, ← h.received]
    simp [WireEvent.received?]
  · have := h.owed
    simpa [replies, List.filterMap_cons, Packet.reply?] using this
  · intro before after response heq hnull
    obtain ⟨after, e', rfl⟩ : ∃ after' e', after = after' ++ [e'] := by
      rcases List.eq_nil_or_concat after with rfl | ⟨after', e', rfl⟩
      · have := List.append_inj_right' heq rfl
        cases this
      · exact ⟨after', e', List.concat_eq_append⟩
    rw [← List.cons_append, ← List.append_assoc] at heq
    exact h.causal before after response (List.append_inj_left' heq rfl) hnull

theorem inv_request (h : e.Inv setup incoming) {call : Option Nat} {request : Request} {r : Reaction σ}
    (hidle : e.Idle) (hread : incoming[e.read]? = some (.request call request))
    (hr : processRequest setup.table request true (e.state setup.results) = some r) :
    Inv setup incoming { e with
      user := r.state.user
      pool := submit e.requests.length r.task e.pool
      read := e.read + 1
      requests := e.requests ++ [request]
      optionalResponse := r.response.map (.mk e.requests.length) } := by
  obtain ⟨hlt, htake⟩ := take_read hread
  refine { h with read := hlt, requests := ?_, received := ?_, owed := ?_ }
  · show e.requests ++ [request] = (incoming.take (e.read + 1)).filterMap Packet.request?
    rw [htake, List.filterMap_append, ← h.requests]
    rfl
  · show _ = ((incoming.take (e.read + 1)).filterMap Packet.reply?).map Reply.response
    rw [htake, List.filterMap_append, h.received]
    simp [Packet.reply?]
  · have hprocess := @Owed.process _ _ _ _ _ h.owed true (.request request) _ _ hr
    refine hprocess.perm ?_ (submit_tasks _ _ _)
    simp only [replies, hidle.1, Option.toList_none, List.nil_append, List.append_assoc]
    exact List.perm_append_comm.append_left _

theorem inv_receive (h : e.Inv setup incoming) {reply : Reply}
    (hread : incoming[e.read]? = some (.response reply)) (hfree : e.outgoing.holder = none)
    (hknown : reply.response.id ≠ .null →
      ∃ k request, .request (some k) request ∈ e.written ∧ request.id = some reply.response.id) :
    Inv setup incoming { e with
      outgoing := { e.outgoing with
        pendingRequests := (takePending reply.response.id e.outgoing.pendingRequests).2
        wire := e.outgoing.wire ++ [.received reply.response]
        taken := e.outgoing.taken ++
          ((takePending reply.response.id e.outgoing.pendingRequests).1.map
            (·, reply.response)).toList }
      read := e.read + 1 } := by
  obtain ⟨hlt, htake⟩ := take_read hread
  refine { h with
    outgoing := h.outgoing.tail (.receive _ hfree), read := hlt, sents := ?_, requests := ?_,
    received := ?_, causal := ?_ }
  · rw [List.filterMap_append, h.sents]
    simp [WireEvent.sent?]
  · show e.requests = (incoming.take (e.read + 1)).filterMap Packet.request?
    rw [htake, List.filterMap_append, ← h.requests]
    simp [Packet.request?]
  · show _ = ((incoming.take (e.read + 1)).filterMap Packet.reply?).map Reply.response
    rw [htake, List.filterMap_append, List.filterMap_append, List.map_append, h.received]
    rfl
  · intro before after response heq hnull
    rcases List.eq_nil_or_concat after with rfl | ⟨after, e', rfl⟩
    · -- the response that is received now
      obtain ⟨rfl, hlast⟩ := List.append_inj' heq rfl
      obtain rfl : reply.response = response := by simpa using hlast
      obtain ⟨k, request, hmem, hid⟩ := hknown hnull
      have hsent : (k, request) ∈ e.outgoing.wire.filterMap WireEvent.sent? := by
        rw [h.sents]
        exact List.mem_filterMap.mpr ⟨_, hmem, rfl⟩
      obtain ⟨event, hevent, heq⟩ := List.mem_filterMap.mp hsent
      cases event with
      | received => cases heq
      | sent number request' =>
        obtain ⟨rfl, rfl⟩ := Prod.mk.inj (Option.some.inj heq)
        exact ⟨number, request', hevent, hid⟩
    · rw [List.concat_eq_append, ← List.cons_append, ← List.append_assoc] at heq
      exact h.causal before after response (List.append_inj_left' heq rfl) hnull

theorem inv_finish (h : e.Inv setup incoming) {i number : Nat} {task : Task σ}
    {pool : ThreadPool (Nat × Task σ)} (hfinish : e.pool.finish i = some ((number, task), pool)) :
    Inv setup incoming { e with
      user := (task.execute (e.state setup.results)).2.user
      pool
      responses := e.responses ++ reply number (task.execute (e.state setup.results)).1 } := by
  refine { h with owed := ?_ }
  have htasks := h.owed.perm (.refl _) (ThreadPool.finish_tasks hfinish).symm
  refine (htasks.execute (e.state setup.results)).perm ?_ (.refl _)
  simp only [replies, List.append_assoc]
  exact .refl _

/-- **What a step of a side keeps**, if the responses it reads go with requests it wrote. -/
theorem inv_works (h : e.Inv setup incoming)
    (hknown : ∀ reply, .response reply ∈ incoming → reply.response.id ≠ .null →
      ∃ k request, .request (some k) request ∈ e.written ∧ request.id = some reply.response.id)
    (hworks : Works setup incoming e e') : e'.Inv setup incoming := by
  cases hworks with
  | @lock c before after _ hfree hwait =>
    refine { h with outgoing := h.outgoing.tail (.lock hfree hwait), called := ?_ }
    have hcalled := h.called
    rw [hfree, hwait] at hcalled
    intro c' hc'
    apply hcalled c'
    simp only [Stage.call, List.mem_append, List.mem_cons, List.not_mem_nil] at hc' ⊢
    tauto
  | draw _ hhold =>
    refine { h with outgoing := h.outgoing.tail (.draw hhold), called := ?_ }
    have hcalled := h.called
    rw [hhold] at hcalled
    exact hcalled
  | register _ hhold =>
    refine { h with outgoing := h.outgoing.tail (.register hhold), called := ?_ }
    have hcalled := h.called
    rw [hhold] at hcalled
    exact hcalled
  | write _ hhold => exact inv_write h hhold
  | unlock _ hhold =>
    refine { h with outgoing := h.outgoing.tail (.unlock hhold), called := ?_ }
    have hcalled := h.called
    rw [hhold] at hcalled
    exact hcalled
  | request _ hidle hread hr => exact inv_request h hidle hread hr
  | respond _ hresponse =>
    refine { h with written := ?_, sents := ?_, owed := h.owed.perm ?_ (.refl _) }
    · intro packet hpacket
      rcases List.mem_append.mp hpacket with hpacket | hpacket
      · exact h.written packet hpacket
      · rw [List.mem_singleton.mp hpacket]
        trivial
    · rw [List.filterMap_append, h.sents]
      simp [Packet.sent?]
    · simp [replies, hresponse, Packet.reply?]
  | receive _ _ hread hfree =>
    exact inv_receive h hread hfree (hknown _ (List.mem_of_getElem? hread))
  | complete _ htaken _ => exact { h with outgoing := h.outgoing.tail (@Outgoing.Step.complete _ _ [] _ htaken) }
  | terminateRequest | terminateResponse => exact { h with }
  | take _ htake => exact { h with owed := h.owed.perm (.refl _) (ThreadPool.take_tasks htake) }
  | finish _ hfinish => exact inv_finish h hfinish
  | @sendResponse reply before after _ hresponses =>
    refine { h with written := ?_, sents := ?_, owed := h.owed.perm ?_ (.refl _) }
    · intro packet hpacket
      rcases List.mem_append.mp hpacket with hpacket | hpacket
      · exact h.written packet hpacket
      · rw [List.mem_singleton.mp hpacket]
        trivial
    · rw [List.filterMap_append, h.sents]
      simp [Packet.sent?]
    · rw [replies, replies, hresponses, List.filterMap_append, List.append_assoc]
      refine List.Perm.append_left _ ?_
      show (reply :: (e.optionalResponse.toList ++ (before ++ after))).Perm
        (e.optionalResponse.toList ++ (before ++ reply :: after))
      rw [← List.append_assoc, ← List.append_assoc]
      exact List.perm_middle.symm

theorem calls_written (h : Calls e e') : e.written <+: e'.written := by
  cases h with
  | sendNotification => exact List.prefix_append _ _
  | _ => exact List.prefix_rfl

end Endpoint

/-! ### Steps of the system -/

namespace System

variable {setup : Side → Setup σ} {s s' : System σ}

def Inv (setup : Side → Setup σ) (s : System σ) : Prop := ∀ i, (s i).Inv (setup i) (s i.peer).written

/-- A response on the wire answers a request of the side that reads it. -/
theorem Inv.answers (h : Inv setup s) {i : Side} {reply : Reply}
    (hreply : .response reply ∈ (s i.peer).written) :
    ∃ call request, .request call request ∈ (s i).written ∧
      (s i.peer).requests[reply.number]? = some request ∧
      IsAnswer (setup i.peer).table request reply.response := by
  have hpeer := h i.peer
  rw [Side.peer_peer] at hpeer
  have hmem : reply ∈ (s i.peer).replies :=
    List.mem_append_left _ (List.mem_filterMap.mpr ⟨_, hreply, rfl⟩)
  obtain ⟨request, hrequest, hanswer⟩ := hpeer.owed.answers reply hmem
  have hread := List.mem_of_getElem? hrequest
  rw [hpeer.requests] at hread
  obtain ⟨packet, hpacket, heq⟩ := List.mem_filterMap.mp hread
  cases packet with
  | response => cases heq
  | request call request' =>
    obtain rfl := Option.some.inj heq
    exact ⟨call, request', List.mem_of_mem_take hpacket, hrequest, hanswer⟩

theorem Inv.known (h : Inv setup s) {i : Side} {reply : Reply}
    (hreply : .response reply ∈ (s i.peer).written) (hnull : reply.response.id ≠ .null) :
    ∃ k request, .request (some k) request ∈ (s i).written ∧
      request.id = some reply.response.id := by
  obtain ⟨call, request, hrequest, -, hanswer⟩ := h.answers hreply
  have hid := isAnswer_id hanswer
  cases call with
  | none =>
    -- a notification has no id, so its answer has the id null
    have hnone : request.id = none := (h i).written _ hrequest
    rw [hnone] at hid
    exact absurd hid hnull
  | some k =>
    obtain ⟨id, method, params, -, rfl⟩ := (h i).written _ hrequest
    exact ⟨k, _, hrequest, by rw [hid]; rfl⟩

/-- A side has taken a step and perhaps written something. -/
theorem Inv.update (h : Inv setup s) {i : Side} {e : Endpoint σ}
    (he : e.Inv (setup i) (s i.peer).written) (hwritten : (s i).written <+: e.written) :
    Inv setup (Function.update s i e) := by
  intro j
  by_cases hj : j = i
  · subst hj
    rw [Function.update_self, Function.update_of_ne (Side.peer_ne j)]
    exact he
  · have hpeer : j.peer = i := by
      revert hj
      cases i <;> cases j <;> simp [Side.peer]
    rw [Function.update_of_ne hj, hpeer, Function.update_self]
    have hold := h j
    rw [hpeer] at hold
    exact hold.mono hwritten

theorem inv_works (h : Inv setup s) (hworks : Works setup s s') : Inv setup s' := by
  cases hworks with
  | side hstep =>
    exact h.update (Endpoint.inv_works (h _) (fun _ => h.known) hstep) (Endpoint.works_written hstep)

theorem inv_step (h : Inv setup s) (hstep : Step setup s s') : Inv setup s' := by
  cases hstep with
  | works hworks => exact inv_works h hworks
  | calls hcalls => exact h.update (Endpoint.inv_calls (h _) hcalls) (Endpoint.calls_written hcalls)

/-- **What both sides keep in every run.** -/
theorem reachable_inv (hs : Reachable setup s) : Inv setup s := by
  obtain ⟨user, maxResponseThreads, hrun⟩ := hs
  induction hrun with
  | refl => exact fun i => Endpoint.inv_create _ _ _ _
  | tail _ hstep ih => exact inv_step ih hstep

end System

end Endpoints

end Lsp.Handler
