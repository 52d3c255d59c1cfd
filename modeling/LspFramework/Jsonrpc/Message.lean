import LspFramework.Json.Value

/-!
# JSON-RPC messages

Requests and responses, how they are read from JSON and written as JSON.  Reading ends with a
message, with a `ProtocolError`, or with `value()` called on an `ExpectedRef` that holds an
error, which terminates the process (`Failure.badAccess`).
-/

namespace Lsp.Jsonrpc

open Chars Lsp.Json

/-! ## Messages -/

inductive MessageId where
  | null
  | integer (i : Integer)
  | string (s : Bytes)
  deriving DecidableEq, Repr

structure Request where
  id : Option MessageId := none
  method : Bytes
  params : Option Value := none

def Request.isNotification (request : Request) : Bool := request.id.isNone

structure Error where
  code : Integer
  message : Bytes
  data : Option Value := none

namespace Error

def ParseError : Integer := -32700
def InvalidRequest : Integer := -32600
def MethodNotFound : Integer := -32601
def InvalidParams : Integer := -32602

end Error

structure Response where
  id : MessageId := .null
  result : Option Value := none
  error : Option Error := none

inductive Message where
  | request (r : Request)
  | response (r : Response)

abbrev MessageBatch := List Message

/-! ## From JSON -/

inductive Failure where
  | protocolError (message : Bytes)
  | badAccess
  deriving DecidableEq, Repr

def protocolError {α : Type} (message : String) : Except Failure α :=
  .error (.protocolError (bytes message))

/-- `value()` of an `ExpectedRef` or a `std::expected`. -/
def value {α : Type} : Option α → Except Failure α
  | some a => .ok a
  | none => .error .badAccess

/-- `json.get(key).value()` -/
def get (key : String) (json : Object) : Except Failure Value := value (Object.find (bytes key) json)

def contains (key : String) (json : Object) : Bool := Object.contains (bytes key) json

/-- The member under the key, if there is one. -/
def getIf (key : String) (json : Object) : Except Failure (Option Value) :=
  if contains key json then do
    let v ← get key json
    .ok (some v)
  else .ok none

def ProtocolVersion : Bytes := bytes "2.0"

def verifyProtocolVersion (json : Object) : Except Failure Unit :=
  if contains "jsonrpc" json then do
    let jsonrpc ← get "jsonrpc" json
    if jsonrpc.isString then do
      let version ← value jsonrpc.string?
      if version ≠ ProtocolVersion then protocolError "Invalid or unsupported jsonrpc version"
      else .ok ()
    else protocolError "jsonrpc property expected to be a string"
  else protocolError "jsonrpc property is missing"

def messageIdFromJson (json : Value) : Except Failure MessageId :=
  if json.isString then do
    let s ← value json.string?
    .ok (.string s)
  else if json.isNumber then do
    let d ← value json.number?
    .ok (.integer d.toInt32)
  else if json.isNull then .ok .null
  else protocolError "Request id type must be string, number or null"

/-- The member `id` of a request or a response. -/
def idFromJson (json : Object) : Except Failure (Option MessageId) :=
  if contains "id" json then do
    let v ← get "id" json
    let id ← messageIdFromJson v
    .ok (some id)
  else .ok none

/-- The member `params`; null counts as absent. -/
def paramsFromJson (json : Object) : Except Failure (Option Value) :=
  if contains "params" json then do
    let params ← get "params" json
    if params.isObject then .ok (some params)
    else if params.isArray then .ok (some params)
    else if params.isNull then .ok none
    else protocolError "Params type must be object or array"
  else .ok none

def requestFromJson (json : Object) : Except Failure Request := do
  verifyProtocolVersion json
  let v ← get "method" json
  let method ← value v.string?
  let id ← idFromJson json
  let params ← paramsFromJson json
  .ok ⟨id, method, params⟩

/-- The members of the error object of a response. -/
def errorFromJson (errorObj : Object) : Except Failure Error :=
  if contains "code" errorObj then do
    let errorCode ← get "code" errorObj
    if errorCode.isNumber then do
      let code ← value errorCode.number?
      if contains "message" errorObj then do
        let errorMessage ← get "message" errorObj
        if errorMessage.isString then do
          let message ← value errorMessage.string?
          let data ← getIf "data" errorObj
          .ok ⟨code.toInt32, message, data⟩
        else protocolError "Response error message must be a string"
      else protocolError "Response error is missing the error message"
    else protocolError "Response error code must be a number"
  else protocolError "Response error is missing the error code"

/-- The member `error` of a response. -/
def responseErrorFromJson (json : Object) : Except Failure (Option Error) :=
  if contains "error" json then do
    let error ← get "error" json
    let errorObj ← value error.object?
    let e ← errorFromJson errorObj
    .ok (some e)
  else .ok none

def responseFromJson (json : Object) : Except Failure Response := do
  verifyProtocolVersion json
  let id ← idFromJson json
  let result ← getIf "result" json
  let error ← responseErrorFromJson json
  if (result.isSome && error.isSome) || (!result.isSome && !error.isSome) then
    protocolError "Response must have either 'result' or 'error"
  else .ok ⟨id.getD .null, result, error⟩

def messageFromJson (json : Object) : Except Failure Message :=
  if contains "method" json then do
    let request ← requestFromJson json
    .ok (.request request)
  else do
    let response ← responseFromJson json
    .ok (.response response)

/-- The loop of `messageBatchFromJson`. -/
def messagesFromJson : Array → Except Failure MessageBatch
  | [] => .ok []
  | jsonMessage :: json => do
    let ms ← value jsonMessage.object?
    let message ← messageFromJson ms
    let batch ← messagesFromJson json
    .ok (message :: batch)

def messageBatchFromJson (json : Array) : Except Failure MessageBatch :=
  if json.isEmpty then protocolError "Message batch must not be empty"
  else messagesFromJson json

/-! ## To JSON -/

def MessageId.toJson : MessageId → Value
  | .null => .null
  | .integer i => .integer i
  | .string s => .string s

/-- `json[key] = v` -/
def set (key : String) (v : Value) (json : Object) : Object := Object.assign (bytes key) v json

/-- `json[key] = *v` when there is one. -/
def setIf (key : String) (v : Option Value) (json : Object) : Object :=
  match v with
  | some v => set key v json
  | none => json

def errorToJson (error : Error) : Object :=
  setIf "data" error.data (set "message" (.string error.message) (set "code" (.integer error.code) []))

def messageToJson (message : Message) : Object :=
  let json := set "jsonrpc" (.string ProtocolVersion) []
  match message with
  | .request request =>
    setIf "params" request.params
      (set "method" (.string request.method) (setIf "id" (request.id.map MessageId.toJson) json))
  | .response response =>
    setIf "error" (response.error.map fun e => .object (errorToJson e))
      (setIf "result" response.result (set "id" response.id.toJson json))

def messageBatchToJson (batch : MessageBatch) : Array := batch.map fun message => .object (messageToJson message)

/-! ## Creation -/

def createRequest (id : MessageId) (method : Bytes) (params : Option Value) : Request :=
  ⟨some id, method, params⟩

def createNotification (method : Bytes) (params : Option Value) : Request := ⟨none, method, params⟩

def createResponse (id : MessageId) (result : Value) : Response := ⟨id, some result, none⟩

def createErrorResponse (id : MessageId) (errorCode : Integer) (message : Bytes) (data : Option Value) :
    Response :=
  ⟨id, none, some ⟨errorCode, message, data⟩⟩

end Lsp.Jsonrpc
