import LspFramework.Handler.Dispatch
import LspFramework.Serialization.Probe

/-!
# Typed handlers and typed requests

The types of `Serialization` in the wrappers of `Dispatch`.

* `TypedHandler t`: a handler whose `Params` are a `t`.  The wrapper decodes into them before it tests
  anything, so a message with other params ends the process where it is to be answered InvalidParams:

      h.Handles request ↔ t.Accepts (params, or null)                  (typedHandler_handles_iff)

* `Sending T`: a request made by one of the forms of `sendRequest`, with callbacks or with a future.
  The future is fulfilled with `T()` by an error too:

      s.Faithful response ↔ it carries a result that is decoded, or an error and s takes callbacks
                                                                       (sending_faithful_iff)
-/

namespace Lsp.Handler

open Chars Json Jsonrpc

/-! ## Typed handlers -/

/-- The handlers that `add<M>` takes where `M::Params` is a `t`. -/
inductive TypedHandler (σ : Type) (t : Ty) : Type 1 where
  | request {β : Type} (toJson : β → Value) (f : RequestCallback σ t.Val β)
  | notification (f : NotificationCallback σ t.Val)

namespace TypedHandler

variable {σ : Type} {t : Ty}

/-- `typename M::Params params; fromJson(std::move(json), params);` -/
def decodeParams (t : Ty) (json : Value) : Option t.Val := t.fromJson json t.default

/-- The lambda that `add<M>` registers. -/
def wrapper : TypedHandler σ t → HandlerWrapper σ
  | request toJson f => .request (decodeParams t) toJson f
  | notification f => .notification (decodeParams t) f

/-- A request is answered InvalidParams, with its id; a notification is not answered. -/
def RefusesParams (request : Request) (r : Reaction σ) : Prop :=
  r.task = none ∧
    match request.id with
    | some id => ∃ message data, r.response = some ⟨id, none, some ⟨Error.InvalidParams, message, data⟩⟩
    | none => r.response = none

/-- What a handler owes the messages for its method: processing returns, and params that are not
decoded are refused. -/
def Handles (h : TypedHandler σ t) (table : Table σ) (request : Request) (allowAsync : Bool)
    (st : State σ) : Prop :=
  ∃ r, processRequest (addHandler request.method h.wrapper table) request allowAsync st = some r ∧
    (decodeParams t (request.params.getD .null) = none → RefusesParams request r)

theorem decodes_wrapper (h : TypedHandler σ t) (table : Table σ) (request : Request) :
    decodes (addHandler request.method h.wrapper table) request =
      (decodeParams t (request.params.getD .null)).isSome := by
  have htable : addHandler request.method h.wrapper table request.method = some h.wrapper :=
    Function.update_self _ _ _
  rw [decodes, htable]
  cases h <;> rfl

end TypedHandler

/-- **A typed handler handles a message exactly when the params are of the kind of its type.** -/
theorem typedHandler_handles_iff {σ : Type} {t : Ty} (h : TypedHandler σ t) (table : Table σ)
    (request : Request) (allowAsync : Bool) (st : State σ) :
    h.Handles table request allowAsync st ↔ t.Accepts (request.params.getD .null) := by
  have hsome := processRequest_isSome (addHandler request.method h.wrapper table) request allowAsync st
  rw [h.decodes_wrapper] at hsome
  rw [← t.fromJson_isSome (request.params.getD .null) t.default]
  constructor
  · rintro ⟨r, hr, -⟩
    rw [hr] at hsome
    exact hsome.symm
  · intro haccepts
    have hdecoded : (TypedHandler.decodeParams t (request.params.getD .null)).isSome = true := haccepts
    rw [hdecoded] at hsome
    obtain ⟨r, hr⟩ := Option.isSome_iff_exists.mp hsome
    refine ⟨r, hr, fun hnone => ?_⟩
    rw [hnone] at hdecoded
    cases hdecoded

/-- A structure with the required member `a`, and params without it. -/
theorem typedHandler_not_handles :
    ¬ TypedHandler.Handles (t := .structure (.required (bytes "a") .bool .none))
        (.request (fun _ : Unit => .null) (.value fun _ _ u => ((), u))) (fun _ => none)
        { id := some (.integer 1), method := bytes "m", params := some (.object []) } true { user := () } := by
  rintro ⟨r, hr, -⟩
  cases hr

/-! ## Typed requests -/

/-- What the sender of a request observes. -/
inductive Observation (T : Type) where
  | success (value : T)
  | error (code : Integer) (message : Bytes) (data : Option Value)

/-- Whether the result is observed by callbacks or by a future. -/
inductive Form where
  | callback
  | future
  deriving DecidableEq, Repr

/-- A request made by `sendRequest`, with the decoder of its result type `T` and what `T()` gives. -/
structure Sending (T : Type) where
  form : Form
  fromJson : Value → Option T
  empty : T

namespace Sending

variable {T : Type}

/-- `sendRequest<M>`, with or without params. -/
def typed (t : Ty) (form : Form) : Sending t.Val where
  form := form
  fromJson json := t.fromJson json t.default
  empty := t.default

/-- `sendRequest` of a method by its name. -/
def generic (form : Form) : Sending Value where
  form := form
  fromJson := some
  empty := .null

def observe (o : Observation T) : Callback (List (Observation T)) Unit := fun _ seen => ((), seen ++ [o])

/-- The result object that `sendRequest` registers; what the sender observes is noted in the state.
The message of a `ResponseError` is its `what()`. -/
def result (s : Sending T) : RequestResult (List (Observation T)) :=
  match s.form with
  | .callback =>
    callbackRequestResult s.fromJson (fun value => observe (.success value))
      (fun e => observe (.error e.code (Connection.what e.message) e.data))
  | .future => futureRequestResult s.fromJson s.empty (fun value => observe (.success value))

/-- `m_pendingRequests[messageId] = std::move(result)` -/
def register (s : Sending T) (messageId : MessageId) (st : State (List (Observation T))) :
    State (List (Observation T)) :=
  { st with m_pendingRequests := Function.update st.m_pendingRequests messageId (some s.result) }

/-- The response is observed as `o`, whatever was observed before. -/
def Observes (s : Sending T) (response : Response) (o : Observation T) : Prop :=
  ∀ st, ∃ st', processResponse response (s.register response.id st) = some st' ∧ st'.user = st.user ++ [o]

/-- The sender observes what the response carries. -/
def Faithful (s : Sending T) (response : Response) : Prop :=
  ∃ o, s.Observes response o ∧
    (∀ value, o = .success value ↔ ∃ json, response.result = some json ∧ s.fromJson json = some value) ∧
    (∀ code message data, o = .error code message data ↔ response.error = some ⟨code, message, data⟩)

/-- The response carries a result that is decoded, or an error, for callbacks, whose message is a C
string. -/
def Delivers (s : Sending T) (response : Response) : Prop :=
  (∃ json, response.result = some json ∧ response.error = none ∧ (s.fromJson json).isSome = true) ∨
    (s.form = .callback ∧ response.result = none ∧ ∃ e, response.error = some e ∧ (0 : UInt8) ∉ e.message)

/-! ### What is observed -/

theorem processResponse_register (s : Sending T) (response : Response) (st : State (List (Observation T))) :
    (processResponse response (s.register response.id st)).map State.user =
      (s.result.complete response).map fun f => (f response.id st.user).2 := by
  have hpending : (s.register response.id st).m_pendingRequests response.id = some s.result :=
    Function.update_self _ _ _
  unfold processResponse
  simp only [takePending_fst, hpending, Option.map_map]
  rfl

theorem observes_iff (s : Sending T) (response : Response) (o : Observation T) :
    s.Observes response o ↔
      ∃ f, s.result.complete response = some f ∧ ∀ seen, (f response.id seen).2 = seen ++ [o] := by
  have hrun := s.processResponse_register response
  constructor
  · intro h
    cases hf : s.result.complete response with
    | none =>
      obtain ⟨st', hst', -⟩ := h { user := [] }
      have hnone := hrun { user := [] }
      rw [hst', hf] at hnone
      cases hnone
    | some f =>
      refine ⟨f, rfl, fun seen => ?_⟩
      obtain ⟨st', hst', huser⟩ := h { user := seen }
      have heq := hrun { user := seen }
      rw [hst', hf] at heq
      rw [← huser]
      exact (Option.some.inj heq).symm
  · rintro ⟨f, hf, hseen⟩ st
    have heq := hrun st
    rw [hf, Option.map_some, hseen] at heq
    obtain ⟨st', hst', huser⟩ := Option.map_eq_some_iff.mp heq
    exact ⟨st', hst', huser⟩

theorem observes_result {s : Sending T} {response : Response} {json : Value} (h : response.result = some json)
    {o : Observation T} :
    s.Observes response o ↔ ∃ value, s.fromJson json = some value ∧ o = .success value := by
  have hcomplete : s.result.complete response =
      (s.fromJson json).map fun value => observe (.success value) := by
    unfold result RequestResult.complete
    rw [h]
    cases s.form <;> rfl
  rw [observes_iff, hcomplete]
  constructor
  · rintro ⟨f, hf, hseen⟩
    obtain ⟨value, hvalue, rfl⟩ := Option.map_eq_some_iff.mp hf
    have ho := hseen []
    exact ⟨value, hvalue, (List.cons.inj ho).1.symm⟩
  · rintro ⟨value, hvalue, rfl⟩
    rw [hvalue]
    exact ⟨_, rfl, fun _ => rfl⟩

theorem observes_error {s : Sending T} {response : Response} (h : response.result = none) {e : Error}
    (he : response.error = some e) {o : Observation T} :
    s.Observes response o ↔
      o = match s.form with
        | .callback => .error e.code (Connection.what e.message) e.data
        | .future => .success s.empty := by
  rw [observes_iff]
  unfold result RequestResult.complete
  rw [h, he]
  cases s.form with
  | callback | future =>
    constructor
    · rintro ⟨f, hf, hseen⟩
      obtain rfl := Option.some.inj hf
      have ho := hseen []
      exact (List.cons.inj ho).1.symm
    · rintro rfl
      exact ⟨_, rfl, fun _ => rfl⟩

theorem what_eq_iff (message : Bytes) : Connection.what message = message ↔ (0 : UInt8) ∉ message := by
  rw [Connection.what]
  constructor
  · intro h hmem
    rw [← h] at hmem
    have hne := List.all_eq_true.mp List.all_takeWhile _ hmem
    simp at hne
  · intro h
    rw [List.takeWhile_eq_self_iff]
    intro c hc
    rw [bne_iff_ne]
    rintro rfl
    exact h hc

theorem observes_nothing {s : Sending T} {response : Response} (h : response.result = none)
    (he : response.error = none) (o : Observation T) : ¬ s.Observes response o := by
  rw [observes_iff]
  rintro ⟨f, hf, -⟩
  unfold RequestResult.complete at hf
  rw [h, he] at hf
  cases hf

theorem delivers_of_faithful {s : Sending T} {response : Response} (h : s.Faithful response) :
    s.Delivers response := by
  obtain ⟨o, ho, hsuccess, herror⟩ := h
  cases hr : response.result with
  | some json =>
    obtain ⟨value, hvalue, rfl⟩ := (observes_result hr).mp ho
    refine .inl ⟨json, hr, ?_, by rw [hvalue]; rfl⟩
    cases he : response.error with
    | none => rfl
    | some e => exact nomatch (herror e.code e.message e.data).mpr he
  | none =>
    cases he : response.error with
    | none => exact absurd ho (observes_nothing hr he o)
    | some e =>
      have hseen := (observes_error hr he).mp ho
      cases hform : s.form with
      | callback =>
        rw [hform] at hseen
        refine .inr ⟨hform, hr, e, he, (what_eq_iff e.message).mp ?_⟩
        have hsame := (herror e.code e.message e.data).mpr he
        rw [hseen] at hsame
        exact (Observation.error.inj hsame).2.1
      | future =>
        rw [hform] at hseen
        obtain ⟨json, hjson, -⟩ := (hsuccess s.empty).mp hseen
        rw [hr] at hjson
        cases hjson

theorem faithful_of_delivers {s : Sending T} {response : Response} (h : s.Delivers response) :
    s.Faithful response := by
  rcases h with ⟨json, hr, he, hdecoded⟩ | ⟨hform, hr, e, he, hmessage⟩
  · obtain ⟨value, hvalue⟩ := Option.isSome_iff_exists.mp hdecoded
    refine ⟨.success value, (observes_result hr).mpr ⟨value, hvalue, rfl⟩, fun value' => ?_,
      fun code message data => ?_⟩
    · rw [Observation.success.injEq]
      constructor
      · rintro rfl
        exact ⟨json, hr, hvalue⟩
      · rintro ⟨json', hr', hvalue'⟩
        obtain rfl := Option.some.inj (hr.symm.trans hr')
        exact Option.some.inj (hvalue.symm.trans hvalue')
    · rw [he]
      exact ⟨nofun, nofun⟩
  · have hseen := (observes_error (s := s) hr he (o := .error e.code e.message e.data)).mpr (by
      rw [hform, (what_eq_iff e.message).mpr hmessage])
    refine ⟨_, hseen, fun value => ?_, fun code message data => ?_⟩
    · rw [hr]
      exact ⟨nofun, fun ⟨json, hjson, _⟩ => nomatch hjson⟩
    · rw [he, Observation.error.injEq, Option.some.injEq, Error.mk.injEq]

end Sending

/-- **The sender observes what a response carries** exactly when the response delivers it; then results
and errors are told apart. -/
theorem sending_faithful_iff {T : Type} (s : Sending T) (response : Response) :
    (s.Faithful response ↔ s.Delivers response) ∧
    ∀ (response' : Response) (o : Observation T), s.Delivers response → s.Delivers response' →
      s.Observes response o → s.Observes response' o → response.result.isSome = response'.result.isSome := by
  refine ⟨⟨Sending.delivers_of_faithful, Sending.faithful_of_delivers⟩, ?_⟩
  intro response' o h h' ho ho'
  rcases h with ⟨json, hr, -, -⟩ | ⟨hform, hr, e, he, -⟩ <;>
    rcases h' with ⟨json', hr', -, -⟩ | ⟨hform', hr', e', he', -⟩
  · rw [hr, hr']
    rfl
  · obtain ⟨value, -, rfl⟩ := (Sending.observes_result hr).mp ho
    have hseen := (Sending.observes_error hr' he').mp ho'
    rw [hform'] at hseen
    cases hseen
  · obtain ⟨value, -, rfl⟩ := (Sending.observes_result hr').mp ho'
    have hseen := (Sending.observes_error hr he).mp ho
    rw [hform] at hseen
    cases hseen
  · rw [hr, hr']

/-- A future is fulfilled by an error as it is by a result. -/
theorem sending_not_faithful :
    (Sending.generic .future).Observes
      { id := .integer 1, error := some ⟨-32603, bytes "no", none⟩ } (.success .null) ∧
    (Sending.generic .future).Observes { id := .integer 1, result := some .null } (.success .null) ∧
    (Sending.typed .bool .future).Observes { id := .integer 1, error := some ⟨-32603, bytes "no", none⟩ }
      (.success false) :=
  ⟨(Sending.observes_error rfl rfl).mpr rfl, (Sending.observes_result rfl).mpr ⟨.null, rfl, rfl⟩,
    (Sending.observes_error rfl rfl).mpr rfl⟩

end Lsp.Handler
