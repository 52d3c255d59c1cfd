import LspFramework.Handler.Typed

/-!
# Requests that cannot be written

`sendRequest` enters the result object into `m_pendingRequests`, writes the request and casts the result of
`writeMessage` to `void`.  All of it is done under `m_pendingRequestsMutex`, so it is one function of the state
here.  The six public forms differ in the result object and in what they return.

* `Write`: what the stream does with the bytes it gets; it may fail after any number of them.
* `Outbound σ`: the outgoing side of a handler.

A call whose write fails leaves and returns what every other call does, and its entry stays until a response
with its id comes in or the id is drawn again:

    write … = (.error e, out) → … m_pendingRequests id = some s.result                   (unsent_stays_pending)
-/

namespace Lsp.Handler

open Chars Json Jsonrpc

/-! ## Writing -/

/-- `io::Stream::write`: an error with its text, or success, and the bytes that went out. -/
abbrev Write := Bytes → Except Bytes Unit × Bytes

/-- `json::stringify` of a message, with the members of its objects in some order. -/
structure Serializer where
  text : Connection.Message → Bytes
  contentOf : ∀ message, Connection.ContentOf message (text message)

def writeMessageData (write : Write) (content : Bytes) : Except Connection.ConnectionError Unit × Bytes :=
  match write (Connection.frame content) with
  | (.ok (), out) => (.ok (), out)
  | (.error message, out) => (.error (Connection.what message), out)

def writeMessage (S : Serializer) (write : Write) (message : Connection.Message) :
    Except Connection.ConnectionError Unit × Bytes :=
  writeMessageData write (S.text message)

/-! ## Sending -/

structure Outbound (σ : Type) where
  /-- `s_uniqueRequestId` -/
  uniqueRequestId : Integer := 0
  state : State σ
  output : Bytes := []

/-- What a call of the private `sendRequest` leaves. -/
structure Sent (σ : Type) where
  messageId : MessageId
  handler : Outbound σ
  /-- what is cast to `void` -/
  discarded : Except Connection.ConnectionError Unit

section Sending

variable {σ : Type}

/-- The request that the next call writes. -/
def nextRequest (method : Bytes) (params : Option Value) (h : Outbound σ) : Connection.Message :=
  .single (.request (createRequest (.integer (nextUniqueRequestId h.uniqueRequestId)) method params))

def sendRequest (S : Serializer) (write : Write) (method : Bytes) (result : RequestResult σ)
    (params : Option Value) (h : Outbound σ) : Sent σ :=
  let uniqueRequestId := nextUniqueRequestId h.uniqueRequestId
  let messageId := MessageId.integer uniqueRequestId
  let m_pendingRequests := Function.update h.state.m_pendingRequests messageId (some result)
  let request := nextRequest method params h
  let written := writeMessage S write request
  ⟨messageId, ⟨uniqueRequestId, { h.state with m_pendingRequests }, h.output ++ written.2⟩, written.1⟩

/-- What the public forms return; none of it stands for a failure. -/
inductive Returned where
  | messageId (id : MessageId)
  /-- with the future of the result object -/
  | futureResponse (messageId : MessageId)
  deriving DecidableEq, Repr

/-- The six public forms. -/
def Sending.sendRequest {T : Type} (s : Sending T) (S : Serializer) (write : Write) (method : Bytes)
    (params : Option Value) (h : Outbound (List (Observation T))) : Returned × Sent (List (Observation T)) :=
  let sent := Handler.sendRequest S write method s.result params h
  match s.form with
  | .callback => (.messageId sent.messageId, sent)
  | .future => (.futureResponse sent.messageId, sent)

/-- A step of the handler or its process that neither takes a response with the id nor draws the id. -/
inductive StepApart (id : MessageId) : Outbound σ → Outbound σ → Prop
  | send {h : Outbound σ} (S : Serializer) (write : Write) (method : Bytes) (result : RequestResult σ)
      (params : Option Value) : (sendRequest S write method result params h).messageId ≠ id →
      StepApart id h (sendRequest S write method result params h).handler
  | receive {h : Outbound σ} {state : State σ} (response : Response) : response.id ≠ id →
      processResponse response h.state = some state → StepApart id h { h with state }
  | other {h h' : Outbound σ} : h'.state.m_pendingRequests = h.state.m_pendingRequests → StepApart id h h'

/-- The pending requests are the same and the sender observes an error. -/
def GivenUp {T : Type} (before after : Outbound (List (Observation T))) : Prop :=
  (∀ id, (after.state.m_pendingRequests id).isSome = (before.state.m_pendingRequests id).isSome) ∧
    ∃ code message data, after.state.user = before.state.user ++ [.error code message data]

/-! ## Lemmas -/

theorem writeMessage_error {S : Serializer} {write : Write} {message : Connection.Message} {e out : Bytes}
    (h : write (Connection.frame (S.text message)) = (.error e, out)) :
    writeMessage S write message = (.error (Connection.what e), out) := by
  rw [writeMessage, writeMessageData, h]

/-- Processing a response changes the map at its id at most. -/
theorem processResponse_pending {response : Response} {st st' : State σ}
    (h : processResponse response st = some st') :
    st'.m_pendingRequests = (takePending response.id st.m_pendingRequests).2 := by
  unfold processResponse at h
  dsimp only at h
  split at h
  · exact congrArg State.m_pendingRequests (Option.some.inj h).symm
  · obtain ⟨f, -, rfl⟩ := Option.map_eq_some_iff.mp h
    rfl

theorem pending_step {id : MessageId} {h h' : Outbound σ} (hstep : StepApart id h h') :
    h'.state.m_pendingRequests id = h.state.m_pendingRequests id := by
  cases hstep with
  | send S write method result params hne => exact Function.update_of_ne (Ne.symm hne) _ _
  | receive response hne hprocess =>
    rw [processResponse_pending hprocess, takePending_snd]
    exact Function.update_of_ne (Ne.symm hne) _ _
  | other hsame => rw [hsame]

theorem pending_run {id : MessageId} {h h' : Outbound σ} (hrun : Relation.ReflTransGen (StepApart id) h h') :
    h'.state.m_pendingRequests id = h.state.m_pendingRequests id := by
  induction hrun with
  | refl => rfl
  | tail _ hstep ih => exact (pending_step hstep).trans ih

/-- What a call leaves and returns, whatever becomes of the write. -/
theorem sending_leaves {T : Type} (s : Sending T) (S : Serializer) (write : Write) (method : Bytes)
    (params : Option Value) (h : Outbound (List (Observation T))) :
    let id := MessageId.integer (nextUniqueRequestId h.uniqueRequestId)
    let r := s.sendRequest S write method params h
    r.1 = (match s.form with | .callback => .messageId id | .future => .futureResponse id) ∧
      r.2.handler.state = s.register id h.state ∧
      r.2.discarded = (writeMessage S write (nextRequest method params h)).1 ∧
      r.2.handler.output = h.output ++ (writeMessage S write (nextRequest method params h)).2 := by
  unfold Sending.sendRequest
  cases s.form <;> exact ⟨rfl, rfl, rfl, rfl⟩

end Sending

/-- **A request whose write fails is pending like one that was sent**: the error gets as far as `sendRequest`,
and neither the sender nor the other entries are affected by it. -/
theorem unsent_stays_pending {T : Type} (s : Sending T) (S : Serializer) (write : Write) (method : Bytes)
    (params : Option Value) (h : Outbound (List (Observation T))) {e out : Bytes}
    (hfails : write (Connection.frame (S.text (nextRequest method params h))) = (.error e, out)) :
    let id := MessageId.integer (nextUniqueRequestId h.uniqueRequestId)
    let r := s.sendRequest S write method params h
    (r.2.discarded = .error (Connection.what e) ∧ r.2.handler.output = h.output ++ out) ∧
      (r.2.handler.state.m_pendingRequests = Function.update h.state.m_pendingRequests id (some s.result) ∧
        r.2.handler.state.user = h.state.user ∧ ¬ GivenUp h r.2.handler) ∧
      (∀ write', let r' := s.sendRequest S write' method params h
        r'.1 = r.1 ∧ r'.2.handler.state = r.2.handler.state) ∧
      ∀ later, Relation.ReflTransGen (StepApart id) r.2.handler later →
        later.state.m_pendingRequests id = some s.result := by
  intro id r
  obtain ⟨hreturned, hstate, hdiscarded, houtput⟩ := sending_leaves s S write method params h
  rw [writeMessage_error hfails] at hdiscarded houtput
  have hpending : r.2.handler.state.m_pendingRequests =
      Function.update h.state.m_pendingRequests id (some s.result) := congrArg State.m_pendingRequests hstate
  have huser : r.2.handler.state.user = h.state.user := by
    rw [hstate]
    rfl
  refine ⟨⟨hdiscarded, houtput⟩, ⟨hpending, huser, ?_⟩, ?_, ?_⟩
  · rintro ⟨-, code, message, data, hobserved⟩
    have hlen := congrArg List.length (huser.symm.trans hobserved)
    rw [List.length_append, List.length_singleton] at hlen
    omega
  · intro write' r'
    obtain ⟨hreturned', hstate', -⟩ := sending_leaves s S write' method params h
    exact ⟨hreturned'.trans hreturned.symm, hstate'.trans hstate.symm⟩
  · intro later hrun
    rw [pending_run hrun, hpending]
    exact Function.update_self _ _ _

/-! ## A lost connection -/

def inOrder : Serializer where
  text message := stringify message.toJson false
  contentOf _ := ⟨_, .refl _, rfl⟩

/-- The connection is lost after three bytes. -/
def lostConnection : Write := fun data => (.error (bytes "Broken pipe"), data.take 3)

/-- One request has been sent when the connection is lost; its response comes, and the other one is pending
still. -/
theorem unsent_stays_pending_lost :
    let start : Outbound (List (Observation Value)) := { state := { user := [] } }
    let sent := ((Sending.generic .callback).sendRequest inOrder (fun data => (.ok (), data)) (bytes "a") none start).2
    let r := (Sending.generic .future).sendRequest inOrder lostConnection (bytes "m") none sent.handler
    sent.discarded = .ok () ∧ r.2.discarded = .error (bytes "Broken pipe") ∧
      r.2.handler.output = sent.handler.output ++ bytes "Con" ∧
      (r.2.handler.state.m_pendingRequests (.integer 1)).isSome = true ∧
      ∃ later, Relation.ReflTransGen (StepApart (.integer 2)) r.2.handler later ∧
        later.state.m_pendingRequests (.integer 1) = none ∧ later.state.user.length = 1 ∧
        later.state.m_pendingRequests (.integer 2) = some (Sending.generic .future).result := by
  intro start sent r
  have h := unsent_stays_pending (Sending.generic .future) inOrder lostConnection (bytes "m") none sent.handler
    (e := bytes "Broken pipe") rfl
  have hresponse : StepApart (.integer 2) r.2.handler _ :=
    .receive (Jsonrpc.createResponse (.integer 1) .null) (by decide) rfl
  have hrun := Relation.ReflTransGen.single hresponse
  exact ⟨rfl, h.1.1, h.1.2, rfl, _, hrun, rfl, rfl, h.2.2.2 _ hrun⟩

/-- **A request that was not sent is pending.** -/
theorem not_givenUp_lost :
    let before : Outbound (List (Observation Value)) := { state := { user := [] } }
    let r := (Sending.generic .future).sendRequest inOrder lostConnection (bytes "m") none before
    r.2.discarded ≠ .ok () ∧ r.1 = .futureResponse (.integer 1) ∧
      (before.state.m_pendingRequests (.integer 1)).isSome = false ∧
      (r.2.handler.state.m_pendingRequests (.integer 1)).isSome = true ∧ r.2.handler.state.user = [] ∧
      ¬ GivenUp before r.2.handler := by
  intro before r
  refine ⟨nofun, rfl, rfl, rfl, rfl, ?_⟩
  rintro ⟨hsame, -⟩
  exact absurd (hsame (.integer 1)) (by decide)

end Lsp.Handler
