import LspFramework.Jsonrpc.Shape

/-!
# Messages are read back as they were written

`Sendable message`: the `params` of a request are an object or an array when they are there, and a
response has exactly one of `result` and `error`, which `messageToJson` asserts.  These are the
messages that are read (`messageFromJson_sendable`), and they survive the way through JSON:

    Sendable m → messageFromJson (messageToJson m) = .ok m            (messageFromJson_messageToJson)

The decoder only asks an object for its members, so the encoder is described by the members it
sets (`member_set_self`, `member_setIf_ne`, …), one fact for each key.
-/

namespace Lsp.Jsonrpc

open Chars Lsp.Json

/-! ## Messages that can be sent -/

def Request.ParamsOk (request : Request) : Prop :=
  ∀ v, request.params = some v → v.isObject = true ∨ v.isArray = true

/-- The assertion in `messageToJson`. -/
def Response.assertion (response : Response) : Bool :=
  response.result.isSome != response.error.isSome

def Sendable : Message → Prop
  | .request request => request.ParamsOk
  | .response response => response.assertion = true

/-! ## Members of what is written -/

section Members

variable {key k : String} {json : Object}

@[simp] theorem member_nil : member [] key = none := rfl

@[simp] theorem member_set_self (v : Value) : member (set key v json) key = some v :=
  Object.find_assign_self _ v json

@[simp] theorem member_set_ne (v : Value) (h : bytes key ≠ bytes k) :
    member (set key v json) k = member json k :=
  Object.find_assign_of_ne h v json

@[simp] theorem member_setIf_self (v : Option Value) : member (setIf key v json) key = v.or (member json key) := by
  cases v with
  | some v => exact member_set_self v
  | none => rfl

@[simp] theorem member_setIf_ne (v : Option Value) (h : bytes key ≠ bytes k) :
    member (setIf key v json) k = member json k := by
  cases v with
  | some v => exact member_set_ne v h
  | none => rfl

end Members

/-! ## Reading what was written -/

theorem verifyProtocolVersion_of_member {json : Object}
    (h : member json "jsonrpc" = some (.string ProtocolVersion)) : verifyProtocolVersion json = .ok () := by
  unfold verifyProtocolVersion
  rw [contains_eq, get_eq, h]
  rfl

theorem messageIdFromJson_toJson (id : MessageId) : messageIdFromJson id.toJson = .ok id := by
  cases id with
  | null => rfl
  | integer i =>
    show Except.ok (MessageId.integer (Binary64.ofInt i.toInt).toInt32) = _
    rw [Binary64.toInt32_ofInt_toInt]
  | string s => rfl

theorem idFromJson_of_member {json : Object} {id : Option MessageId}
    (h : member json "id" = id.map MessageId.toJson) : idFromJson json = .ok id := by
  unfold idFromJson
  rw [contains_eq, get_eq, h]
  cases id with
  | none => rfl
  | some id =>
    show (messageIdFromJson id.toJson >>= fun id => Except.ok (some id)) = _
    rw [messageIdFromJson_toJson]
    rfl

theorem paramsFromJson_of_member {json : Object} {params : Option Value}
    (h : member json "params" = params)
    (hp : ∀ v, params = some v → v.isObject = true ∨ v.isArray = true) :
    paramsFromJson json = .ok params := by
  unfold paramsFromJson
  rw [contains_eq, get_eq, h]
  cases params with
  | none => rfl
  | some v =>
    have hv := hp v rfl
    cases v with
    | array vs => rfl
    | object ms => rfl
    | _ => simp [Value.isObject, Value.isArray] at hv

theorem errorFromJson_errorToJson (error : Error) : errorFromJson (errorToJson error) = .ok error := by
  have hcode : member (errorToJson error) "code" = some (.integer error.code) := by
    simp (disch := decide) [errorToJson]
  have hmessage : member (errorToJson error) "message" = some (.string error.message) := by
    simp (disch := decide) [errorToJson]
  have hdata : member (errorToJson error) "data" = error.data := by
    simp (disch := decide) [errorToJson]
  unfold errorFromJson
  rw [contains_eq, get_eq, hcode, contains_eq, get_eq, hmessage, getIf_eq, hdata]
  show Except.ok (Error.mk (Binary64.ofInt error.code.toInt).toInt32 error.message error.data) = _
  rw [Binary64.toInt32_ofInt_toInt]

theorem responseErrorFromJson_of_member {json : Object} {error : Option Error}
    (h : member json "error" = error.map fun e => .object (errorToJson e)) :
    responseErrorFromJson json = .ok error := by
  unfold responseErrorFromJson
  rw [contains_eq, get_eq, h]
  cases error with
  | none => rfl
  | some e =>
    show (errorFromJson (errorToJson e) >>= fun e => Except.ok (some e)) = _
    rw [errorFromJson_errorToJson]
    rfl

theorem messageFromJson_request (request : Request) (h : request.ParamsOk) :
    messageFromJson (messageToJson (.request request)) = .ok (.request request) := by
  obtain ⟨id, method, params⟩ := request
  generalize hjson : messageToJson (.request ⟨id, method, params⟩) = json
  have hversion : member json "jsonrpc" = some (.string ProtocolVersion) := by
    simp (disch := decide) [← hjson, messageToJson]
  have hmethod : member json "method" = some (.string method) := by
    simp (disch := decide) [← hjson, messageToJson]
  have hid : member json "id" = id.map MessageId.toJson := by
    simp (disch := decide) [← hjson, messageToJson]
  have hparams : member json "params" = params := by
    simp (disch := decide) [← hjson, messageToJson]
  have hrequest : requestFromJson json = .ok ⟨id, method, params⟩ := by
    unfold requestFromJson
    rw [verifyProtocolVersion_of_member hversion, get_eq, hmethod, idFromJson_of_member hid,
      paramsFromJson_of_member hparams h]
    rfl
  unfold messageFromJson
  rw [contains_eq, hmethod, hrequest]
  rfl

theorem messageFromJson_response (response : Response) (h : response.assertion = true) :
    messageFromJson (messageToJson (.response response)) = .ok (.response response) := by
  obtain ⟨id, result, error⟩ := response
  generalize hjson : messageToJson (.response ⟨id, result, error⟩) = json
  have hversion : member json "jsonrpc" = some (.string ProtocolVersion) := by
    simp (disch := decide) [← hjson, messageToJson]
  have hmethod : member json "method" = none := by
    simp (disch := decide) [← hjson, messageToJson]
  have hid : member json "id" = (some id).map MessageId.toJson := by
    simp (disch := decide) [← hjson, messageToJson]
  have hresult : member json "result" = result := by
    simp (disch := decide) [← hjson, messageToJson]
  have herror : member json "error" = error.map fun e => .object (errorToJson e) := by
    simp (disch := decide) [← hjson, messageToJson]
  have hresponse : responseFromJson json = .ok ⟨id, result, error⟩ := by
    unfold responseFromJson
    rw [verifyProtocolVersion_of_member hversion, idFromJson_of_member hid, getIf_eq, hresult,
      responseErrorFromJson_of_member herror]
    cases result <;> cases error
    · cases h
    · rfl
    · rfl
    · cases h
  unfold messageFromJson
  rw [contains_eq, hmethod, hresponse]
  rfl

/-- **A message is read back as it was written.** -/
theorem messageFromJson_messageToJson {message : Message} (h : Sendable message) :
    messageFromJson (messageToJson message) = .ok message := by
  cases message with
  | request request => exact messageFromJson_request request h
  | response response => exact messageFromJson_response response h

theorem messagesFromJson_messageBatchToJson {batch : MessageBatch} (h : ∀ m ∈ batch, Sendable m) :
    messagesFromJson (messageBatchToJson batch) = .ok batch := by
  induction batch with
  | nil => rfl
  | cons message batch ih =>
    have hmessage := messageFromJson_messageToJson (h message List.mem_cons_self)
    have hrest := ih fun m hm => h m (List.mem_cons_of_mem _ hm)
    show (messageFromJson (messageToJson message) >>= fun message =>
      messagesFromJson (messageBatchToJson batch) >>= fun batch => Except.ok (message :: batch)) = _
    rw [hmessage, hrest]
    rfl

/-! ## What is read can be written -/

theorem except_bind_ok {α β : Type} {x : Except Failure α} {f : α → Except Failure β} {b : β} :
    (x >>= f) = .ok b ↔ ∃ a, x = .ok a ∧ f a = .ok b := by
  cases x <;> simp [bind, Except.bind]

theorem paramsFromJson_ok {json : Object} {params : Option Value} (h : paramsFromJson json = .ok params)
    (v : Value) (hv : params = some v) : v.isObject = true ∨ v.isArray = true := by
  subst hv
  unfold paramsFromJson at h
  split at h
  · obtain ⟨w, -, h⟩ := except_bind_ok.mp h
    split at h
    · next hobj =>
      cases h
      exact .inl hobj
    · split at h
      · next harr =>
        cases h
        exact .inr harr
      · split at h <;> cases h
  · cases h

/-- **Only messages that can be sent are read.** -/
theorem messageFromJson_sendable {json : Object} {message : Message}
    (h : messageFromJson json = .ok message) : Sendable message := by
  unfold messageFromJson at h
  split at h
  · obtain ⟨request, hr, h⟩ := except_bind_ok.mp h
    cases h
    simp only [requestFromJson, except_bind_ok] at hr
    obtain ⟨-, -, v, -, method, -, id, -, params, hparams, hr⟩ := hr
    cases hr
    exact paramsFromJson_ok hparams
  · obtain ⟨response, hr, h⟩ := except_bind_ok.mp h
    cases h
    simp only [responseFromJson, except_bind_ok] at hr
    obtain ⟨-, -, id, -, result, -, error, -, hr⟩ := hr
    split at hr
    · cases hr
    · next hone =>
      cases hr
      show (result.isSome != error.isSome) = true
      revert hone
      cases result.isSome <;> cases error.isSome <;> simp

/-- **Encoding and decoding are inverse on the messages that can be sent**, one by one and in a
batch, and every message that is read is one of them. -/
theorem message_roundTrip :
    (∀ message, Sendable message → messageFromJson (messageToJson message) = .ok message) ∧
    (∀ batch : MessageBatch, batch ≠ [] → (∀ m ∈ batch, Sendable m) →
      messageBatchFromJson (messageBatchToJson batch) = .ok batch) ∧
    ∀ json message, messageFromJson json = .ok message →
      Sendable message ∧ messageFromJson (messageToJson message) = .ok message := by
  refine ⟨fun _ => messageFromJson_messageToJson, ?_, ?_⟩
  · intro batch hne hall
    unfold messageBatchFromJson
    rw [if_neg (by simpa [messageBatchToJson] using hne)]
    exact messagesFromJson_messageBatchToJson hall
  · intro json message h
    have hs := messageFromJson_sendable h
    exact ⟨hs, messageFromJson_messageToJson hs⟩

/-- A request with a null id and a response with a null result, in one batch. -/
theorem message_roundTrip_null :
    messageBatchFromJson (messageBatchToJson [.request ⟨some .null, bytes "m", none⟩,
        .response ⟨.integer (-7), some .null, none⟩]) =
      .ok [.request ⟨some .null, bytes "m", none⟩, .response ⟨.integer (-7), some .null, none⟩] := by
  refine message_roundTrip.2.1 _ (by simp) ?_
  simp [Sendable, Request.ParamsOk, Response.assertion]

end Lsp.Jsonrpc
