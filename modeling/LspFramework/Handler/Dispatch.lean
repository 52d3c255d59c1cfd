import LspFramework.Connection.Message
import LspFramework.Handler.Pending

/-!
# Handling one request or response

`processRequest` looks up the handler of the method and calls its wrapper, which may answer at once,
hand a task to the thread pool, or stay silent; `processResponse` completes the result object of a
pending request.  The callbacks of the user are functions of the current request id and of a state
that all of them share.  `none` is a process that terminated: params or a result that `fromJson`
does not decode.

    processRequest table request … = some r → r.Meets (replies table request) …  (processRequest_meets)
-/

namespace Lsp.Handler

open Chars Json Jsonrpc

/-! ## Callbacks -/

/-- A callback may ask for `currentRequestId`. -/
abbrev Callback (σ α : Type) := MessageId → σ → α × σ

/-- What `get()` of a `std::future` does once it returns. -/
abbrev Future (σ α : Type) := σ → α × σ

def Future.map {σ α β : Type} (f : α → β) (future : Future σ α) : Future σ β := fun u =>
  (f (future u).1, (future u).2)

/-- `M::Result`, `RequestResult<M>` or `AsyncRequestResult<M>` -/
inductive RequestCallback (σ α β : Type) where
  | value (f : α → Callback σ β)
  | result (f : α → Callback σ (Except Error β))
  | async (f : α → Callback σ (Future σ β))

/-- `void`, `NotificationResult` or `AsyncNotificationResult` -/
inductive NotificationCallback (σ α : Type) where
  | void (f : α → Callback σ Unit)
  | result (f : α → Callback σ (Except Error Unit))
  | async (f : α → Callback σ (Future σ Unit))

/-- The lambdas that the overloads of `add` register; `fromJson` answers `none` where it terminates. -/
inductive HandlerWrapper (σ : Type) : Type 1 where
  | generic (f : Value → Callback σ Value)
  | genericAsync (f : Value → Callback σ (Future σ Value))
  | request {α β : Type} (fromJson : Value → Option α) (toJson : β → Value) (f : RequestCallback σ α β)
  | notification {α : Type} (fromJson : Value → Option α) (f : NotificationCallback σ α)

/-- `m_requestHandlersByMethod` -/
abbrev Table (σ : Type) := Bytes → Option (HandlerWrapper σ)

/-- `RequestResultBase` -/
structure RequestResult (σ : Type) where
  setValueFromJson : Value → Option (Callback σ Unit)
  setError : Error → Callback σ Unit

structure State (σ : Type) where
  user : σ
  /-- of the thread that processes the messages -/
  t_currentRequestId : Option MessageId := none
  m_pendingRequests : Pending (RequestResult σ) := fun _ => none

/-- What a thread of the pool has to do for a handler. -/
inductive Task (σ : Type) where
  | respond (requestId : MessageId) (isNotification : Bool) (future : Future σ Value)
  | wait (future : Future σ Unit)

/-- What a wrapper returns, what it hands to the thread pool and what it leaves. -/
structure Reaction (σ : Type) where
  response : Option Response
  task : Option (Task σ)
  state : State σ

section Dispatch

variable {σ : Type}

/-! ## Adding handlers -/

def addHandler (method : Bytes) (handlerFunc : HandlerWrapper σ) (table : Table σ) : Table σ :=
  Function.update table method (some handlerFunc)

/-- `add` of a request without params. -/
def HandlerWrapper.noParamsRequest {β : Type} (toJson : β → Value) (f : RequestCallback σ Unit β) :
    HandlerWrapper σ :=
  .request (fun _ => some ()) toJson f

/-- `add` of a notification without params. -/
def HandlerWrapper.noParamsNotification (f : NotificationCallback σ Unit) : HandlerWrapper σ :=
  .notification (fun _ => some ()) f

/-! ## Requests -/

namespace State

def currentRequestId (st : State σ) : MessageId := st.t_currentRequestId.getD .null

def call {α : Type} (f : Callback σ α) (st : State σ) : α × State σ :=
  let r := f st.currentRequestId st.user
  (r.1, { st with user := r.2 })

def get {α : Type} (future : Future σ α) (st : State σ) : α × State σ :=
  let r := future st.user
  (r.1, { st with user := r.2 })

end State

def createResponse {β : Type} (id : MessageId) (toJson : β → Value) (result : β) : Response :=
  Jsonrpc.createResponse id (toJson result)

def createResponseFromAsyncResult (id : MessageId) (result : Future σ Value) (st : State σ) :
    Response × State σ :=
  let r := st.get result
  (Jsonrpc.createResponse id r.1, r.2)

def createResponseFromRequestResult {β : Type} (id : MessageId) (toJson : β → Value) :
    Except Error β → Response
  | .ok value => createResponse id toJson value
  | .error error => createErrorResponse id error.code (Connection.what error.message) error.data

def Task.execute : Task σ → State σ → Option Response × State σ
  | respond requestId isNotification future, st =>
    let r := createResponseFromAsyncResult requestId future st
    (if isNotification then none else some r.1, r.2)
  | wait future, st => (none, (st.get future).2)

def RequestCallback.handle {α β : Type} (toJson : β → Value) (params : α) (allowAsync : Bool)
    (st : State σ) :
    RequestCallback σ α β → Reaction σ
  | value f =>
    let r := st.call (f params)
    ⟨some (createResponse st.currentRequestId toJson r.1), none, r.2⟩
  | result f =>
    let r := st.call (f params)
    ⟨some (createResponseFromRequestResult st.currentRequestId toJson r.1), none, r.2⟩
  | async f =>
    let r := st.call (f params)
    if allowAsync then ⟨none, some (.respond st.currentRequestId false (r.1.map toJson)), r.2⟩
    else
      let v := r.2.get r.1
      ⟨some (createResponse st.currentRequestId toJson v.1), none, v.2⟩

def NotificationCallback.handle {α : Type} (params : α) (allowAsync : Bool) (st : State σ) :
    NotificationCallback σ α → Reaction σ
  | void f => ⟨none, none, (st.call (f params)).2⟩
  | result f => ⟨none, none, (st.call (f params)).2⟩
  | async f =>
    let r := st.call (f params)
    if allowAsync then ⟨none, some (.wait r.1), r.2⟩ else ⟨none, none, (r.2.get r.1).2⟩

/-- The call of a registered lambda. -/
def HandlerWrapper.handle (json : Value) (allowAsync : Bool) (st : State σ) : HandlerWrapper σ →
    Option (Reaction σ)
  | generic f =>
    let isNotification := st.currentRequestId == .null
    let r := st.call (f json)
    let response := if isNotification then none else some (Jsonrpc.createResponse r.2.currentRequestId r.1)
    some ⟨response, none, r.2⟩
  | genericAsync f =>
    let isNotification := st.currentRequestId == .null
    let r := st.call (f json)
    if allowAsync then some ⟨none, some (.respond r.2.currentRequestId isNotification r.1), r.2⟩
    else
      let v := r.2.get r.1
      let response := if isNotification then none else some (Jsonrpc.createResponse v.2.currentRequestId v.1)
      some ⟨response, none, v.2⟩
  | request fromJson toJson f => (fromJson json).map fun params => f.handle toJson params allowAsync st
  | notification fromJson f => (fromJson json).map fun params => f.handle params allowAsync st

def methodNotFound (id : MessageId) : Response :=
  createErrorResponse id Error.MethodNotFound (bytes "Method not found") none

def processRequest (table : Table σ) (request : Request) (allowAsync : Bool) (st : State σ) :
    Option (Reaction σ) :=
  match table request.method with
  | some handler =>
    let st := { st with t_currentRequestId := some (request.id.getD .null) }
    (handler.handle (request.params.getD .null) allowAsync st).map fun r =>
      { r with state := { r.state with t_currentRequestId := none } }
  | none =>
    if request.isNotification then some ⟨none, none, st⟩
    else some ⟨some (methodNotFound (request.id.getD .null)), none, st⟩

/-! ## Responses -/

/-- `CallbackRequestResult` -/
def callbackRequestResult {α : Type} (fromJson : Value → Option α) (m_then : α → Callback σ Unit)
    (m_error : Error → Callback σ Unit) : RequestResult σ where
  setValueFromJson json := (fromJson json).map m_then
  setError := m_error

/-- `FutureRequestResult`, whose promise `set_value` fulfils; an error fulfils it with `T()`. -/
def futureRequestResult {α : Type} (fromJson : Value → Option α) (empty : α)
    (set_value : α → Callback σ Unit) :
    RequestResult σ where
  setValueFromJson json := (fromJson json).map set_value
  setError _ := set_value empty

/-- `processResponse` behind the lock. -/
def RequestResult.complete (response : Response) (result : RequestResult σ) :
    Option (Callback σ Unit) :=
  match response.result with
  | some json => result.setValueFromJson json
  | none => response.error.map result.setError

def processResponse (response : Response) (st : State σ) : Option (State σ) :=
  let t := takePending response.id st.m_pendingRequests
  let st := { st with m_pendingRequests := t.2 }
  match t.1 with
  | none => some st
  | some result =>
    let st := { st with t_currentRequestId := some response.id }
    (result.complete response).map fun f => { (st.call f).2 with t_currentRequestId := none }

/-! ## Which requests are answered, and how -/

/-- Whether a request is answered. -/
def replies (table : Table σ) (request : Request) : Bool :=
  match table request.method with
  | some (.generic _) => request.id.getD .null != .null
  | some (.genericAsync _) => request.id.getD .null != .null
  | some (.request _ _ _) => true
  | some (.notification _ _) => false
  | none => !request.isNotification

/-- Whether the handler decodes the params. -/
def decodes (table : Table σ) (request : Request) : Bool :=
  match table request.method with
  | some (.request fromJson _ _) => (fromJson (request.params.getD .null)).isSome
  | some (.notification fromJson _) => (fromJson (request.params.getD .null)).isSome
  | _ => true

/-- The results a handler may give to a request, whatever the state it meets. -/
inductive Results : HandlerWrapper σ → MessageId → Value → Except Error Value → Prop
  | generic {f : Value → Callback σ Value} {id : MessageId} {json : Value} (u : σ) :
      Results (.generic f) id json (.ok (f json id u).1)
  | genericAsync {f : Value → Callback σ (Future σ Value)} {id : MessageId} {json : Value} (u u' : σ) :
      Results (.genericAsync f) id json (.ok ((f json id u).1 u').1)
  | value {α β : Type} {fromJson : Value → Option α} {toJson : β → Value} {f : α → Callback σ β}
      {id : MessageId} {json : Value} {params : α} (u : σ) : fromJson json = some params →
      Results (.request fromJson toJson (.value f)) id json (.ok (toJson (f params id u).1))
  | result {α β : Type} {fromJson : Value → Option α} {toJson : β → Value}
      {f : α → Callback σ (Except Error β)}
      {id : MessageId} {json : Value} {params : α} (u : σ) : fromJson json = some params →
      Results (.request fromJson toJson (.result f)) id json ((f params id u).1.map toJson)
  | async {α β : Type} {fromJson : Value → Option α} {toJson : β → Value}
      {f : α → Callback σ (Future σ β)}
      {id : MessageId} {json : Value} {params : α} (u u' : σ) : fromJson json = some params →
      Results (.request fromJson toJson (.async f)) id json (.ok (toJson ((f params id u).1 u').1))

/-- The response carries the id and a result or an error of the handler. -/
def HandlerWrapper.IsAnswer (handler : HandlerWrapper σ) (id : MessageId) (json : Value)
    (response : Response) :
    Prop :=
  ∃ result, Results handler id json result ∧
    response = createResponseFromRequestResult id (fun v => v) result

/-- The response is one to the request: with its id, and the handler's result or error, or
MethodNotFound. -/
def IsAnswer (table : Table σ) (request : Request) (response : Response) : Prop :=
  match table request.method with
  | some handler => handler.IsAnswer (request.id.getD .null) (request.params.getD .null) response
  | none => response = methodNotFound (request.id.getD .null)

/-- Whether a task writes a response. -/
def Task.tells : Task σ → Bool
  | respond _ isNotification _ => !isNotification
  | wait _ => false

def Task.Answers (P : Response → Prop) (task : Task σ) : Prop :=
  task.tells = true ∧ ∀ st, ∀ response ∈ (task.execute st).1, P response

/-- The reaction answers, at once or by a task. -/
def Reaction.Answers (P : Response → Prop) (allowAsync : Bool) (r : Reaction σ) : Prop :=
  (∃ response, r.response = some response ∧ r.task = none ∧ P response) ∨
    (allowAsync = true ∧ r.response = none ∧ ∃ task, r.task = some task ∧ task.Answers P)

def Reaction.Silent (allowAsync : Bool) (r : Reaction σ) : Prop :=
  r.response = none ∧ ∀ task ∈ r.task, allowAsync = true ∧ task.tells = false

/-- The reaction answers or is silent, as the Boolean says. -/
def Reaction.Meets (replies : Bool) (P : Response → Prop) (allowAsync : Bool) (r : Reaction σ) : Prop :=
  match replies with
  | true => r.Answers P allowAsync
  | false => r.Silent allowAsync

/-! ## What handling a request does -/

theorem execute_m_pendingRequests (task : Task σ) (st : State σ) :
    (task.execute st).2.m_pendingRequests = st.m_pendingRequests := by
  cases task <;> rfl

theorem execute_isSome (task : Task σ) (st : State σ) : (task.execute st).1.isSome = task.tells := by
  cases task with
  | respond requestId isNotification future => cases isNotification <;> rfl
  | wait future => rfl

theorem RequestCallback.handle_answers {α β : Type} {fromJson : Value → Option α} (toJson : β → Value)
    (f : RequestCallback σ α β) {json : Value} {params : α} (hparams : fromJson json = some params)
    (allowAsync : Bool) (st : State σ) :
    (f.handle toJson params allowAsync st).Answers
      ((HandlerWrapper.request fromJson toJson f).IsAnswer st.currentRequestId json) allowAsync := by
  cases f with
  | value f => exact .inl ⟨_, rfl, rfl, _, .value st.user hparams, rfl⟩
  | result f =>
    refine .inl ⟨_, rfl, rfl, _, .result st.user hparams, ?_⟩
    show createResponseFromRequestResult _ toJson (f params st.currentRequestId st.user).1 = _
    cases (f params st.currentRequestId st.user).1 <;> rfl
  | async f =>
    cases allowAsync with
    | false => exact .inl ⟨_, rfl, rfl, _, .async st.user _ hparams, rfl⟩
    | true =>
      refine .inr ⟨rfl, rfl, _, rfl, rfl, ?_⟩
      intro st' response hresponse
      obtain rfl := Option.some.inj hresponse
      exact ⟨_, .async st.user st'.user hparams, rfl⟩

theorem NotificationCallback.handle_silent {α : Type} (f : NotificationCallback σ α) (params : α)
    (allowAsync : Bool) (st : State σ) : (f.handle params allowAsync st).Silent allowAsync := by
  cases f with
  | void f => exact ⟨rfl, by rintro task ⟨⟩⟩
  | result f => exact ⟨rfl, by rintro task ⟨⟩⟩
  | async f =>
    cases allowAsync with
    | false => exact ⟨rfl, by rintro task ⟨⟩⟩
    | true => exact ⟨rfl, by rintro task ⟨⟩; exact ⟨rfl, rfl⟩⟩

theorem handle_generic {f : Value → Callback σ Value} {json : Value} {allowAsync : Bool} {st : State σ}
    {r : Reaction σ} (h : (HandlerWrapper.generic f).handle json allowAsync st = some r) :
    r.Meets (st.currentRequestId != .null)
      ((HandlerWrapper.generic f).IsAnswer st.currentRequestId json) allowAsync := by
  obtain rfl := Option.some.inj h
  cases hid : st.currentRequestId == .null with
  | false =>
    simp only [bne, hid]
    exact .inl ⟨_, rfl, rfl, _, .generic st.user, rfl⟩
  | true =>
    simp only [bne, hid]
    exact ⟨rfl, by rintro task ⟨⟩⟩

theorem handle_genericAsync {f : Value → Callback σ (Future σ Value)} {json : Value} {allowAsync : Bool}
    {st : State σ} {r : Reaction σ}
    (h : (HandlerWrapper.genericAsync f).handle json allowAsync st = some r) :
    r.Meets (st.currentRequestId != .null)
      ((HandlerWrapper.genericAsync f).IsAnswer st.currentRequestId json) allowAsync := by
  cases allowAsync with
  | false =>
    obtain rfl := Option.some.inj h
    cases hid : st.currentRequestId == .null with
    | false =>
      simp only [bne, hid]
      exact .inl ⟨_, rfl, rfl, _, .genericAsync st.user _, rfl⟩
    | true =>
      simp only [bne, hid]
      exact ⟨rfl, by rintro task ⟨⟩⟩
  | true =>
    obtain rfl := Option.some.inj h
    cases hid : st.currentRequestId == .null with
    | false =>
      simp only [bne, hid]
      refine .inr ⟨rfl, rfl, _, rfl, rfl, ?_⟩
      intro st' response hresponse
      obtain rfl := Option.some.inj hresponse
      exact ⟨_, .genericAsync st.user st'.user, rfl⟩
    | true =>
      simp only [bne, hid]
      exact ⟨rfl, by rintro task ⟨⟩; exact ⟨rfl, rfl⟩⟩

theorem handle_state {handler : HandlerWrapper σ} {json : Value} {allowAsync : Bool} {st : State σ}
    {r : Reaction σ} (h : handler.handle json allowAsync st = some r) :
    r.state.m_pendingRequests = st.m_pendingRequests := by
  cases handler with
  | generic f =>
    obtain rfl := Option.some.inj h
    rfl
  | genericAsync f =>
    cases allowAsync <;> obtain rfl := Option.some.inj h <;> rfl
  | request fromJson toJson f =>
    obtain ⟨params, -, rfl⟩ := Option.map_eq_some_iff.mp h
    cases f with
    | value f => rfl
    | result f => rfl
    | async f => cases allowAsync <;> rfl
  | notification fromJson f =>
    obtain ⟨params, -, rfl⟩ := Option.map_eq_some_iff.mp h
    cases f with
    | void f => rfl
    | result f => rfl
    | async f => cases allowAsync <;> rfl

/-- Between two messages no request is current, and a request leaves the pending ones alone. -/
theorem processRequest_state {table : Table σ} {request : Request} {allowAsync : Bool} {st : State σ}
    {r : Reaction σ} (h : processRequest table request allowAsync st = some r) :
    r.state.m_pendingRequests = st.m_pendingRequests ∧
      (st.t_currentRequestId = none → r.state.t_currentRequestId = none) := by
  unfold processRequest at h
  split at h
  · obtain ⟨r', hr', rfl⟩ := Option.map_eq_some_iff.mp h
    have hstate := handle_state hr'
    exact ⟨hstate, fun _ => rfl⟩
  · split at h <;> obtain rfl := Option.some.inj h <;> exact ⟨rfl, id⟩

theorem processRequest_isSome (table : Table σ) (request : Request) (allowAsync : Bool) (st : State σ) :
    (processRequest table request allowAsync st).isSome = decodes table request := by
  unfold processRequest decodes
  cases table request.method with
  | none => cases request.isNotification <;> rfl
  | some handler =>
    rw [Option.isSome_map]
    cases handler with
    | generic f => rfl
    | genericAsync f => cases allowAsync <;> rfl
    | request fromJson toJson f => exact Option.isSome_map
    | notification fromJson f => exact Option.isSome_map

/-- **A request is answered, at once or by a task, or it is not, as `replies` says.** -/
theorem processRequest_meets {table : Table σ} {request : Request} {allowAsync : Bool} {st : State σ}
    {r : Reaction σ} (h : processRequest table request allowAsync st = some r) :
    r.Meets (replies table request) (IsAnswer table request) allowAsync := by
  unfold processRequest at h
  unfold replies IsAnswer
  cases htable : table request.method with
  | none =>
    simp only [htable] at h ⊢
    cases hid : request.isNotification with
    | true =>
      rw [if_pos hid] at h
      obtain rfl := Option.some.inj h
      exact ⟨rfl, by rintro task ⟨⟩⟩
    | false =>
      rw [if_neg (by simp [hid])] at h
      obtain rfl := Option.some.inj h
      exact .inl ⟨_, rfl, rfl, rfl⟩
  | some handler =>
    simp only [htable] at h ⊢
    -- what the wrapper leaves in the state does not matter for what it says
    obtain ⟨r', hr', rfl⟩ := Option.map_eq_some_iff.mp h
    cases handler with
    | generic f => exact handle_generic hr'
    | genericAsync f => exact handle_genericAsync hr'
    | request fromJson toJson f =>
      obtain ⟨params, hparams, rfl⟩ := Option.map_eq_some_iff.mp hr'
      exact f.handle_answers toJson hparams allowAsync _
    | notification fromJson f =>
      obtain ⟨params, hparams, rfl⟩ := Option.map_eq_some_iff.mp hr'
      exact f.handle_silent params allowAsync _

theorem isAnswer_id {table : Table σ} {request : Request} {response : Response}
    (h : IsAnswer table request response) : response.id = request.id.getD .null := by
  unfold IsAnswer at h
  split at h
  · obtain ⟨result, -, rfl⟩ := h
    cases result <;> rfl
  · rw [h]
    rfl

/-! ## What handling a response does -/

/-- Whether `fromJson` decodes the result of a response for the result object taken out for it. -/
def accepts (response : Response) : Option (RequestResult σ) → Bool
  | none => true
  | some result => (result.complete response).isSome

theorem processResponse_isSome (response : Response) (st : State σ) :
    (processResponse response st).isSome = accepts response (st.m_pendingRequests response.id) := by
  unfold processResponse accepts
  simp only [takePending_fst]
  cases st.m_pendingRequests response.id with
  | none => rfl
  | some result => exact Option.isSome_map

theorem processResponse_state {response : Response} {st st' : State σ}
    (h : processResponse response st = some st') :
    st'.m_pendingRequests = (takePending response.id st.m_pendingRequests).2 := by
  unfold processResponse at h
  dsimp only at h
  split at h
  · obtain rfl := Option.some.inj h
    rfl
  · obtain ⟨f, -, rfl⟩ := Option.map_eq_some_iff.mp h
    rfl

/-- **A response no request waits for changes nothing.** -/
theorem processResponse_unknown {response : Response} {st : State σ}
    (h : st.m_pendingRequests response.id = none) : processResponse response st = some st := by
  simp only [processResponse, takePending, h]

end Dispatch

end Lsp.Handler
