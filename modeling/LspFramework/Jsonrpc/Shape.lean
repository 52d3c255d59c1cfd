import LspFramework.Jsonrpc.Message

/-!
# Which JSON is a message

`Accepted json`: the members of `json` have the types a message needs, so it is read as one.
`Misread json`: `json` gets past the checks to a member on which `value()` is called with no
check of its type: a `method` that is not a string, or an `error` that is not an object.  In a
batch every element is such a place.

    Outcome (messageFromJson json) (Accepted json) (Misread json)          (messageFromJson_outcome)
    Returns (messageFromJson json) ↔ ¬Misread json                         (messageFromJson_returns_iff)

where `Outcome r ok bad` says that `r` is a message exactly on `ok` and `badAccess` exactly on
`bad`; it composes along the steps of a conversion (`Outcome.bind`).
-/

namespace Lsp.Jsonrpc

open Chars Lsp.Json

/-! ## Shapes -/

section Shape

variable (json : Object)

/-- The member under the key. -/
def member (key : String) : Option Value := Object.find (bytes key) json

def VersionShape : Prop := member json "jsonrpc" = some (.string ProtocolVersion)

/-- `id` is absent, a string, a number or null. -/
def IdShape : Prop := ∀ v, member json "id" = some v → v.isString = true ∨ v.isNumber = true ∨ v.isNull = true

/-- `params` is absent, an object, an array or null. -/
def ParamsShape : Prop :=
  ∀ v, member json "params" = some v → v.isObject = true ∨ v.isArray = true ∨ v.isNull = true

def RequestShape : Prop :=
  VersionShape json ∧ (∃ s, member json "method" = some (.string s)) ∧ IdShape json ∧ ParamsShape json

def ErrorShape : Prop :=
  (∃ v, member json "code" = some v ∧ v.isNumber = true) ∧ ∃ s, member json "message" = some (.string s)

/-- Exactly one of `result` and `error`, and the latter an error object. -/
def OutcomeShape : Prop :=
  ((∃ v, member json "result" = some v) ∧ member json "error" = none) ∨
  (member json "result" = none ∧ ∃ ms, member json "error" = some (.object ms) ∧ ErrorShape ms)

def ResponseShape : Prop :=
  VersionShape json ∧ member json "method" = none ∧ IdShape json ∧ OutcomeShape json

def Accepted : Prop := RequestShape json ∨ ResponseShape json

/-- A request whose `method` is not a string. -/
def MisreadMethod : Prop :=
  VersionShape json ∧ ∃ v, member json "method" = some v ∧ v.isString = false

/-- A response whose `error` is not an object. -/
def MisreadError : Prop :=
  VersionShape json ∧ member json "method" = none ∧ IdShape json ∧
    ∃ v, member json "error" = some v ∧ v.isObject = false

def Misread : Prop := MisreadMethod json ∨ MisreadError json

end Shape

/-- Behind elements that are read as messages comes one that is no object or is misread. -/
def BatchMisread : Array → Prop
  | [] => False
  | .object ms :: vs => Misread ms ∨ (Accepted ms ∧ BatchMisread vs)
  | _ :: _ => True

/-! ## Outcomes -/

/-- A conversion that succeeds exactly on `ok` and terminates the process exactly on `bad`. -/
def Outcome {α : Type} (r : Except Failure α) (ok bad : Prop) : Prop :=
  match r with
  | .ok _ => ok ∧ ¬bad
  | .error .badAccess => bad ∧ ¬ok
  | .error (.protocolError _) => ¬ok ∧ ¬bad

namespace Outcome

variable {α β : Type} {ok bad ok' bad' : Prop}

theorem congr {r : Except Failure α} (h : Outcome r ok bad) (hok : ok ↔ ok') (hbad : bad ↔ bad') :
    Outcome r ok' bad' := by
  rwa [← hok, ← hbad]

/-- A second conversion runs when the first succeeds. -/
theorem bind {x : Except Failure α} {f : α → Except Failure β} (h : Outcome x ok bad)
    (h' : ∀ a, x = .ok a → Outcome (f a) ok' bad') :
    Outcome (x >>= f) (ok ∧ ok') (bad ∨ (ok ∧ bad')) := by
  cases x with
  | ok a =>
    have ha := h' a rfl
    obtain ⟨hok, hbad⟩ : ok ∧ ¬bad := h
    exact ha.congr (by simp [hok]) (by simp [hok, hbad])
  | error e =>
    cases e with
    | badAccess =>
      obtain ⟨hbad, hok⟩ : bad ∧ ¬ok := h
      exact ⟨.inl hbad, fun h => hok h.1⟩
    | protocolError m =>
      obtain ⟨hok, hbad⟩ : ¬ok ∧ ¬bad := h
      exact ⟨fun h => hok h.1, by simp [hok, hbad]⟩

theorem badAccess_iff {r : Except Failure α} (h : Outcome r ok bad) :
    r = .error .badAccess ↔ bad := by
  cases r with
  | ok a => simpa using h.2
  | error e =>
    cases e with
    | badAccess => simpa using h.1
    | protocolError m => simpa using h.2

theorem ok_iff {r : Except Failure α} (h : Outcome r ok bad) : (∃ a, r = .ok a) ↔ ok := by
  cases r with
  | ok a => simpa using h.1
  | error e =>
    cases e with
    | badAccess => simpa using h.2
    | protocolError m => simpa using h.1

theorem of_ok (a : α) (hok : ok) (hbad : ¬bad) : Outcome (.ok a) ok bad := ⟨hok, hbad⟩

theorem of_protocolError (m : String) (hok : ¬ok) (hbad : ¬bad) :
    Outcome (protocolError m : Except Failure α) ok bad := ⟨hok, hbad⟩

end Outcome

/-! ## Members -/

section Members

variable (json : Object)

theorem contains_eq (key : String) : contains key json = (member json key).isSome := rfl

theorem get_eq (key : String) : get key json = value (member json key) := rfl

theorem getIf_eq (key : String) : getIf key json = .ok (member json key) := by
  unfold getIf
  rw [contains_eq, get_eq]
  cases member json key <;> rfl

theorem verifyProtocolVersion_outcome : Outcome (verifyProtocolVersion json) (VersionShape json) False := by
  unfold verifyProtocolVersion VersionShape
  rw [contains_eq, get_eq]
  cases member json "jsonrpc" with
  | none => exact .of_protocolError _ (by simp) id
  | some v =>
    cases v with
    | string s =>
      show Outcome (if s ≠ ProtocolVersion then _ else _) _ _
      by_cases hs : s = ProtocolVersion
      · rw [if_neg (not_not.mpr hs)]
        exact .of_ok () (by rw [hs]) id
      · rw [if_pos hs]
        exact .of_protocolError _ (by simpa using hs) id
    | _ => exact .of_protocolError _ (by simp) id

theorem messageIdFromJson_outcome (v : Value) :
    Outcome (messageIdFromJson v) (v.isString = true ∨ v.isNumber = true ∨ v.isNull = true) False := by
  cases v with
  | null => exact .of_ok _ (.inr (.inr rfl)) id
  | integer i => exact .of_ok _ (.inr (.inl rfl)) id
  | decimal d => exact .of_ok _ (.inr (.inl rfl)) id
  | string s => exact .of_ok _ (.inl rfl) id
  | _ =>
    exact .of_protocolError _ (by simp [Value.isString, Value.isNumber, Value.isInteger, Value.isDecimal,
      Value.isNull]) id

theorem idFromJson_outcome : Outcome (idFromJson json) (IdShape json) False := by
  unfold idFromJson IdShape
  rw [contains_eq, get_eq]
  cases member json "id" with
  | none => exact .of_ok _ (by simp) id
  | some v =>
    show Outcome (messageIdFromJson v >>= fun id => .ok (some id)) _ _
    have := (messageIdFromJson_outcome v).bind fun id _ => .of_ok (some id) trivial not_false
    exact this.congr (by simp) (by simp)

theorem paramsFromJson_outcome : Outcome (paramsFromJson json) (ParamsShape json) False := by
  unfold paramsFromJson ParamsShape
  rw [contains_eq, get_eq]
  cases member json "params" with
  | none => exact .of_ok _ (by simp) id
  | some v =>
    cases v with
    | null => exact .of_ok _ (by simp [Value.isNull]) id
    | array vs => exact .of_ok _ (by simp [Value.isArray]) id
    | object ms => exact .of_ok _ (by simp [Value.isObject]) id
    | _ => exact .of_protocolError _ (by simp [Value.isNull, Value.isArray, Value.isObject]) id

theorem requestFromJson_outcome {v : Value} (hm : member json "method" = some v) :
    Outcome (requestFromJson json) (RequestShape json) (MisreadMethod json) := by
  have hmethod : Outcome (value v.string?) (v.isString = true) (v.isString = false) := by
    cases v with
    | string s => exact .of_ok s rfl (by simp [Value.isString])
    | _ => exact ⟨rfl, by simp [Value.isString]⟩
  have hparams : ∀ method id, Outcome (paramsFromJson json >>= fun params => .ok (Request.mk id method params))
      (ParamsShape json) False := fun method id =>
    ((paramsFromJson_outcome json).bind fun params _ => .of_ok _ trivial not_false).congr
      (by simp) (by simp)
  have hid := fun method => (idFromJson_outcome json).bind fun id _ => hparams method id
  have hrest := hmethod.bind fun method _ => hid method
  have hall := (verifyProtocolVersion_outcome json).bind fun _ _ => hrest
  have hrun : requestFromJson json = (verifyProtocolVersion json >>= fun _ =>
      value v.string? >>= fun method => idFromJson json >>= fun id =>
      paramsFromJson json >>= fun params => .ok ⟨id, method, params⟩) := by
    unfold requestFromJson
    rw [get_eq, hm]
    rfl
  rw [hrun]
  have hstring : v.isString = true ↔ ∃ s, v = .string s := by
    cases v <;> simp [Value.isString]
  refine hall.congr ?_ ?_
  · simp only [RequestShape, hm, Option.some.injEq, hstring]
  · simp [MisreadMethod, hm]

theorem errorFromJson_outcome : Outcome (errorFromJson json) (ErrorShape json) False := by
  unfold errorFromJson ErrorShape
  rw [contains_eq, get_eq, contains_eq, get_eq, getIf_eq]
  cases member json "code" with
  | none => exact .of_protocolError _ (by simp) id
  | some code =>
    have hcode : code.isNumber = true ↔ ∃ d, code.number? = some d := by
      cases code <;> simp [Value.isNumber, Value.isInteger, Value.isDecimal, Value.number?]
    cases hn : code.isNumber with
    | false =>
      show Outcome (if code.isNumber then _ else _) _ _
      rw [hn]
      exact .of_protocolError _ (by simp [hn]) id
    | true =>
      obtain ⟨d, hd⟩ := hcode.mp hn
      show Outcome (if code.isNumber then value code.number? >>= _ else _) _ _
      rw [hn, hd]
      cases member json "message" with
      | none => exact .of_protocolError _ (by simp) id
      | some message =>
        cases message with
        | string s => exact .of_ok _ (by simp [hn]) id
        | _ => exact .of_protocolError _ (by simp) id

/-- `error` is absent, or an error object. -/
def ResponseErrorShape : Prop :=
  member json "error" = none ∨ ∃ ms, member json "error" = some (.object ms) ∧ ErrorShape ms

theorem responseErrorFromJson_outcome :
    Outcome (responseErrorFromJson json) (ResponseErrorShape json)
      (∃ v, member json "error" = some v ∧ v.isObject = false) := by
  unfold responseErrorFromJson ResponseErrorShape
  rw [contains_eq, get_eq]
  cases member json "error" with
  | none => exact .of_ok _ (by simp) (by simp)
  | some v =>
    cases v with
    | object ms =>
      show Outcome (errorFromJson ms >>= fun e => .ok (some e)) _ _
      have := (errorFromJson_outcome ms).bind fun e _ => .of_ok (some e) trivial not_false
      exact this.congr (by simp) (by simp [Value.isObject])
    | _ => exact ⟨⟨_, rfl, rfl⟩, by simp⟩

theorem responseErrorFromJson_isSome {error : Option Error} (h : responseErrorFromJson json = .ok error) :
    error.isSome = (member json "error").isSome := by
  unfold responseErrorFromJson at h
  rw [contains_eq, get_eq] at h
  cases hm : member json "error" with
  | none =>
    rw [hm] at h
    cases h
    rfl
  | some v =>
    rw [hm] at h
    cases v with
    | object ms =>
      cases he : errorFromJson ms with
      | ok e =>
        simp only [Option.isSome_some, if_true, value, Value.object?, bind, Except.bind, he] at h
        cases h
        rfl
      | error e => simp [value, Value.object?, bind, Except.bind, he] at h
    | _ => simp [value, Value.object?, bind, Except.bind] at h

theorem responseFromJson_outcome (hm : member json "method" = none) :
    Outcome (responseFromJson json) (ResponseShape json) (MisreadError json) := by
  have hlast : ∀ id error, responseErrorFromJson json = .ok error →
      Outcome (if ((member json "result").isSome && error.isSome) ||
          (!(member json "result").isSome && !error.isSome) then
          protocolError "Response must have either 'result' or 'error"
        else .ok (Response.mk id (member json "result") error))
        ((member json "result").isSome ≠ (member json "error").isSome) False := by
    intro id error herr
    rw [responseErrorFromJson_isSome json herr]
    cases (member json "result").isSome <;> cases (member json "error").isSome
    · exact .of_protocolError _ (by simp) not_false
    · exact .of_ok _ (by simp) not_false
    · exact .of_ok _ (by simp) not_false
    · exact .of_protocolError _ (by simp) not_false
  have hrest := fun id => (responseErrorFromJson_outcome json).bind (hlast id)
  have hid := (idFromJson_outcome json).bind fun id _ => hrest (id.getD .null)
  have hall := (verifyProtocolVersion_outcome json).bind fun _ _ => hid
  have hrun : responseFromJson json = (verifyProtocolVersion json >>= fun _ => idFromJson json >>= fun id =>
      responseErrorFromJson json >>= fun error =>
        if ((member json "result").isSome && error.isSome) ||
          (!(member json "result").isSome && !error.isSome) then
          protocolError "Response must have either 'result' or 'error"
        else .ok ⟨id.getD .null, member json "result", error⟩) := by
    unfold responseFromJson
    rw [getIf_eq]
    rfl
  rw [hrun]
  refine hall.congr ?_ ?_
  · unfold ResponseShape ResponseErrorShape OutcomeShape
    cases member json "result" <;> cases member json "error" <;> simp [hm]
  · simp [MisreadError, hm]

theorem messageFromJson_outcome : Outcome (messageFromJson json) (Accepted json) (Misread json) := by
  unfold messageFromJson
  rw [contains_eq]
  cases hm : member json "method" with
  | none =>
    show Outcome (responseFromJson json >>= fun r => .ok (Message.response r)) _ _
    have := (responseFromJson_outcome json hm).bind fun r _ => .of_ok (Message.response r) trivial not_false
    refine this.congr ?_ ?_
    · simp [Accepted, RequestShape, hm]
    · simp [Misread, MisreadMethod, hm]
  | some v =>
    show Outcome (requestFromJson json >>= fun r => .ok (Message.request r)) _ _
    have := (requestFromJson_outcome json hm).bind fun r _ => .of_ok (Message.request r) trivial not_false
    refine this.congr ?_ ?_
    · simp [Accepted, ResponseShape, hm]
    · simp [Misread, MisreadError, hm]

end Members

/-! ## Batches -/

def BatchAccepted (json : Array) : Prop := ∀ v ∈ json, ∃ ms, v = .object ms ∧ Accepted ms

/-- The first element that is not read as a message decides. -/
theorem messagesFromJson_outcome (json : Array) :
    Outcome (messagesFromJson json) (BatchAccepted json) (BatchMisread json) := by
  induction json with
  | nil => exact .of_ok _ (by simp [BatchAccepted]) id
  | cons v vs ih =>
    cases v with
    | object ms =>
      have hrest : ∀ message, Outcome (messagesFromJson vs >>= fun batch => .ok (message :: batch))
          (BatchAccepted vs) (BatchMisread vs) := fun message =>
        (ih.bind fun batch _ => .of_ok (message :: batch) trivial not_false).congr (by simp) (by simp)
      have := (messageFromJson_outcome ms).bind fun message _ => hrest message
      exact this.congr (by simp [BatchAccepted]) Iff.rfl
    | _ => exact ⟨trivial, by simp [BatchAccepted]⟩

theorem messageBatchFromJson_outcome (json : Array) :
    Outcome (messageBatchFromJson json) (json ≠ [] ∧ BatchAccepted json) (BatchMisread json) := by
  cases json with
  | nil => exact .of_protocolError _ (by simp) id
  | cons v vs => exact (messagesFromJson_outcome (v :: vs)).congr (by simp) Iff.rfl

/-! ## When a message or an error is returned -/

/-- A message or a batch, or a `ProtocolError`. -/
def Returns {α : Type} (r : Except Failure α) : Prop :=
  (∃ m, r = .ok m) ∨ ∃ e, r = .error (.protocolError e)

theorem Outcome.returns_iff {α : Type} {r : Except Failure α} {ok bad : Prop} (h : Outcome r ok bad) :
    Returns r ↔ ¬bad := by
  rw [← h.badAccess_iff]
  cases r with
  | ok a => simp [Returns]
  | error e => cases e <;> simp [Returns]

/-- **A message or an error is returned unless a member or an element is misread.** -/
theorem messageFromJson_returns_iff (json : Object) (batch : Array) :
    (Returns (messageFromJson json) ↔ ¬Misread json) ∧
    (Returns (messageBatchFromJson batch) ↔ ¬BatchMisread batch) :=
  ⟨(messageFromJson_outcome json).returns_iff, (messageBatchFromJson_outcome batch).returns_iff⟩

/-- A method that is a number, an error that is a string, a batch element that is a number. -/
theorem messageFromJson_not_returns :
    ¬Returns (messageFromJson [(bytes "jsonrpc", .string (bytes "2.0")), (bytes "method", .integer 1)]) ∧
    ¬Returns (messageFromJson [(bytes "jsonrpc", .string (bytes "2.0")), (bytes "id", .integer 1),
      (bytes "error", .string (bytes "x"))]) ∧
    ¬Returns (messageBatchFromJson [.integer 1]) := by
  refine ⟨?_, ?_, ?_⟩
  · exact fun h => ((messageFromJson_outcome _).returns_iff.mp h) (.inl ⟨rfl, _, rfl, rfl⟩)
  · refine fun h => ((messageFromJson_outcome _).returns_iff.mp h) (.inr ⟨rfl, rfl, ?_, _, rfl, rfl⟩)
    intro v hv
    cases hv
    exact .inr (.inl rfl)
  · exact fun h => ((messageBatchFromJson_outcome _).returns_iff.mp h) trivial

end Lsp.Jsonrpc
