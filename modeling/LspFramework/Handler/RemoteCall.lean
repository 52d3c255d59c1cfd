import LspFramework.Connection.Wire
import LspFramework.Handler.Typed
import LspFramework.Serialization.RoundTrip

/-!
# A remote call

`sendRequest<M>(params)` writes its params into a request; the other side reads it, decodes the params,
calls the handler and writes its result into a response, which is read, decoded and handed to the
result object.  Through all of this a remote call is a local one: what is observed is a result that
the handler gives for these params, for all types whose values round-trip.

    RemoteCall … o → o is seen of a result that the handler gives for params like p   (remote_call)

A future does not see the error of a handler: it is fulfilled with a default value.
-/

namespace Lsp

open Chars Json
open Value (Reordered)

/-- Written the same way, up to the order of members, and holding the same alternatives. -/
def Ty.Like (t : Ty) (v v' : t.Val) : Prop := Reordered (t.toJson v) (t.toJson v') ∧ t.SameAlternatives v v'

namespace Handler

open Loop Connection Jsonrpc

/-! ## Local calls -/

/-- The results that the callback may give, whatever the state it meets. -/
def RequestCallback.Yields {σ α β : Type} (params : α) (id : MessageId) (outcome : Except Error β) :
    RequestCallback σ α β → Prop
  | .value f => ∃ u, outcome = .ok (f params id u).1
  | .result f => ∃ u, outcome = (f params id u).1
  | .async f => ∃ u u', outcome = .ok ((f params id u).1 u').1

/-- What is observed of a result of the handler. -/
def Seen (t : Ty) (form : Form) (o : Observation t.Val) : Except Error t.Val → Prop
  | .ok v => ∃ v', t.Like v v' ∧ o = .success v'
  | .error e =>
    match form with
    | .callback => ∃ data, Option.Rel Reordered e.data data ∧ o = .error e.code (Connection.what e.message) data
    | .future => o = .success t.default

/-- A result that is written and read back. -/
def Portable (t : Ty) : Except Error t.Val → Prop
  | .ok v => t.RoundTrips v ∧ Exact (t.toJson v)
  | .error e => ∀ v ∈ e.data, Exact v

theorem results_request {σ α β : Type} {fromJson : Value → Option α} {toJson : β → Value}
    {f : RequestCallback σ α β} {id : MessageId} {json : Value} {result : Except Error Value}
    (h : Results (.request fromJson toJson f) id json result) :
    ∃ params outcome, fromJson json = some params ∧ f.Yields params id outcome ∧ result = outcome.map toJson := by
  cases h with
  | value u hparams => exact ⟨_, _, hparams, ⟨u, rfl⟩, rfl⟩
  | result u hparams => exact ⟨_, _, hparams, ⟨u, rfl⟩, rfl⟩
  | async u u' hparams => exact ⟨_, _, hparams, ⟨u, u', rfl⟩, rfl⟩

/-! ## Calls over the wire -/

/-- A message is written, and read as `message'`. -/
def Transmits (platform : Platform) (message message' : Jsonrpc.Message) : Prop :=
  ∃ (content : Bytes) (stream : Stream) (further : Bytes) (result : ReadResult),
    Emits platform (.single message) content ∧
    Gives (fun n => readMessage platform n { stream with input := frame content ++ further }) result ∧
    result.ending = .message (.single message')

/-- The response is the one that is written, at once or when the task is executed. -/
def Reaction.Says {σ : Type} (r : Reaction σ) (response : Response) : Prop :=
  r.response = some response ∨ ∃ task st, r.task = some task ∧ (task.execute st).1 = some response

/-- The request is sent, handled and responded to, and `o` is what the sender observes. -/
def RemoteCall {σ T : Type} (platform : Platform) (table : Table σ) (request : Request) (s : Sending T)
    (o : Observation T) : Prop :=
  ∃ request' allowAsync st r response response',
    Transmits platform (.request request) (.request request') ∧
    processRequest table request' allowAsync st = some r ∧ r.Says response ∧
    Transmits platform (.response response) (.response response') ∧ s.Observes response' o

section Transmission

variable {platform : Platform} {message message' : Jsonrpc.Message}

theorem transmits_like (hwritable : (Connection.Message.single message).Writable)
    (h : Transmits platform message message') : message.Like message' := by
  obtain ⟨content, S, further, result, hemits, hgives, hending⟩ := h
  obtain ⟨result', hgives', ⟨m, hlike, hm, -, -⟩, -⟩ := readMessage_gets platform S hwritable hemits further
  obtain ⟨n, hn⟩ := hgives.exists_fuel
  obtain rfl := hgives'.only n result hn
  rw [hm] at hending
  cases hending
  exact hlike

theorem exists_transmits (hwritable : (Connection.Message.single message).Writable) {content : Bytes}
    (h : Emits platform (.single message) content) : ∃ message', Transmits platform message message' := by
  obtain ⟨result, hgives, ⟨m, hlike, hm, -, -⟩, -⟩ :=
    readMessage_gets platform ⟨[], fun _ => none, 0⟩ hwritable h []
  cases m with
  | single m => exact ⟨m, content, ⟨[], fun _ => none, 0⟩, [], result, h, hgives, hm⟩
  | batch ms => exact hlike.elim

end Transmission

section RemoteCall

variable {σ : Type} {P R : Ty} {f : RequestCallback σ P.Val R.Val} {table : Table σ} {method : Bytes}
  (htable : table method = some (TypedHandler.request R.toJson f).wrapper)
include htable

/-- The handler of the method answers every request whose params it decodes. -/
theorem says_of_decodes {request : Request} (hmethod : request.method = method) {params : P.Val}
    (hparams : TypedHandler.decodeParams P (request.params.getD .null) = some params) (allowAsync : Bool)
    (st : State σ) :
    ∃ r response, processRequest table request allowAsync st = some r ∧ r.Says response := by
  subst hmethod
  have hsome := processRequest_isSome table request allowAsync st
  rw [decodes, htable] at hsome
  obtain ⟨r, hr⟩ := Option.isSome_iff_exists.mp (hsome.trans (Option.isSome_iff_exists.mpr ⟨_, hparams⟩))
  have hmeets := processRequest_meets hr
  rw [replies, htable] at hmeets
  rcases hmeets with ⟨response, hresponse, -, -⟩ | ⟨-, -, task, htask, htells, -⟩
  · exact ⟨r, response, hr, .inl hresponse⟩
  · rw [← execute_isSome task st] at htells
    obtain ⟨response, hresponse⟩ := Option.isSome_iff_exists.mp htells
    exact ⟨r, response, hr, .inr ⟨task, st, htask, hresponse⟩⟩

/-- What is said to a request is a result of the handler for the decoded params. -/
theorem yields_of_says {request : Request} (hmethod : request.method = method) {allowAsync : Bool}
    {st : State σ} {r : Reaction σ} (hr : processRequest table request allowAsync st = some r)
    {response : Response} (hresponse : r.Says response) :
    ∃ params outcome, TypedHandler.decodeParams P (request.params.getD .null) = some params ∧
      f.Yields params (request.id.getD .null) outcome ∧
      response = createResponseFromRequestResult (request.id.getD .null) R.toJson outcome := by
  subst hmethod
  have hanswer : IsAnswer table request response := by
    have hmeets := processRequest_meets hr
    rw [replies, htable] at hmeets
    rcases hmeets with ⟨response', hresponse', htask, hP⟩ | ⟨-, hresponse', task, htask, -, hP⟩
    · rcases hresponse with h | ⟨task, st', h, -⟩
      · obtain rfl := Option.some.inj (h.symm.trans hresponse')
        exact hP
      · rw [htask] at h
        cases h
    · rcases hresponse with h | ⟨task', st', h, hexecute⟩
      · rw [hresponse'] at h
        cases h
      · obtain rfl := Option.some.inj (h.symm.trans htask)
        exact hP st' response hexecute
  rw [IsAnswer, htable] at hanswer
  obtain ⟨result, hresult, rfl⟩ := hanswer
  obtain ⟨params, outcome, hparams, hyields, rfl⟩ := results_request hresult
  refine ⟨params, outcome, hparams, hyields, ?_⟩
  cases outcome <;> rfl

end RemoteCall

/-! ### Both directions -/

/-- The request is read with params that are decoded like those that were sent. -/
theorem decoded_of_like {P : Ty} {p : P.Val} (hp : P.RoundTrips p) {id : MessageId} {method : Bytes}
    {message : Jsonrpc.Message}
    (h : Jsonrpc.Message.Like (.request (createRequest id method (some (P.toJson p)))) message) :
    ∃ request params, message = .request request ∧ request.id = some id ∧ request.method = method ∧
      TypedHandler.decodeParams P (request.params.getD .null) = some params ∧ P.Like p params := by
  cases message with
  | response r => exact h.elim
  | request request =>
    obtain ⟨hid, hmethod, hparams⟩ := h
    obtain ⟨w, hw, hr⟩ : ∃ w, request.params = some w ∧ Reordered (P.toJson p) w := by
      cases hw : request.params with
      | none =>
        rw [hw] at hparams
        cases hparams
      | some w =>
        rw [hw] at hparams
        cases hparams with
        | some hr => exact ⟨w, rfl, hr⟩
    obtain ⟨params, hdec, hlike⟩ := hp w hr
    refine ⟨request, params, rfl, hid, hmethod, ?_, hlike⟩
    rw [hw]
    exact hdec

theorem what_what (message : Bytes) : Connection.what (Connection.what message) = Connection.what message := by
  rw [Sending.what_eq_iff]
  intro hmem
  have hne := List.all_eq_true.mp List.all_takeWhile _ hmem
  simp at hne

/-- What is read of a response is observed as the result that was written. -/
theorem seen_of_like {R : Ty} {outcome : Except Error R.Val} (hportable : Portable R outcome) (form : Form)
    {id : MessageId} {message : Jsonrpc.Message}
    (h : Jsonrpc.Message.Like (.response (createResponseFromRequestResult id R.toJson outcome)) message) :
    ∃ response, message = .response response ∧ (∃ o, (Sending.typed R form).Observes response o) ∧
      ∀ o, (Sending.typed R form).Observes response o → Seen R form o outcome := by
  cases message with
  | request r => cases outcome <;> exact h.elim
  | response response =>
    refine ⟨response, rfl, ?_⟩
    cases outcome with
    | ok v =>
      obtain ⟨-, hresult, -⟩ := h
      obtain ⟨w, hw, hr⟩ : ∃ w, response.result = some w ∧ Reordered (R.toJson v) w := by
        cases hw : response.result with
        | none =>
          rw [hw] at hresult
          cases hresult
        | some w =>
          rw [hw] at hresult
          cases hresult with
          | some hr => exact ⟨w, rfl, hr⟩
      obtain ⟨v', hdec, hlike⟩ := hportable.1 w hr
      refine ⟨⟨.success v', (Sending.observes_result hw).mpr ⟨v', hdec, rfl⟩⟩, fun o ho => ?_⟩
      obtain ⟨value, hvalue, rfl⟩ := (Sending.observes_result hw).mp ho
      obtain rfl := Option.some.inj (hvalue.symm.trans hdec)
      exact ⟨value, hlike, rfl⟩
    | error e =>
      obtain ⟨-, hresult, herror⟩ := h
      have hnone : response.result = none := by
        cases hw : response.result with
        | none => rfl
        | some w =>
          rw [hw] at hresult
          cases hresult
      obtain ⟨e', he', hlike⟩ : ∃ e', response.error = some e' ∧
          Error.Like ⟨e.code, Connection.what e.message, e.data⟩ e' := by
        cases he' : response.error with
        | none =>
          rw [he'] at herror
          cases herror
        | some e' =>
          rw [he'] at herror
          cases herror with
          | some hr => exact ⟨e', rfl, hr⟩
      refine ⟨⟨_, (Sending.observes_error hnone he').mpr rfl⟩, fun o ho => ?_⟩
      rw [(Sending.observes_error hnone he').mp ho]
      obtain ⟨hcode, hmessage, hdata⟩ := hlike
      cases form with
      | callback => exact ⟨e'.data, hdata, by rw [hcode, hmessage]; exact congrArg (Observation.error _ · _) (what_what _)⟩
      | future => rfl

theorem writable_response {R : Ty} {outcome : Except Error R.Val} (hportable : Portable R outcome) (id : MessageId) :
    (Connection.Message.single (.response (createResponseFromRequestResult id R.toJson outcome))).Writable := by
  cases outcome with
  | ok v =>
    refine ⟨rfl, ?_, by rintro e ⟨⟩⟩
    rintro w ⟨⟩
    exact hportable.2
  | error e =>
    refine ⟨rfl, by rintro w ⟨⟩, ?_⟩
    rintro e' ⟨⟩
    exact hportable

/-- **A remote call is a local one.**  What is observed is seen of a result that the handler gives for
params like those of the call; and a call whose request and response fit into frames is observed. -/
theorem remote_call {σ : Type} {P R : Ty} (platform : Platform) {f : RequestCallback σ P.Val R.Val}
    {table : Table σ} {method : Bytes} (htable : table method = some (TypedHandler.request R.toJson f).wrapper)
    (form : Form) (id : MessageId) {p : P.Val} (hp : P.RoundTrips p) (hexact : Exact (P.toJson p))
    (hparams : (P.toJson p).isObject = true ∨ (P.toJson p).isArray = true)
    (hf : ∀ p', P.Like p p' → ∀ outcome, f.Yields p' id outcome → Portable R outcome) :
    (∀ o, RemoteCall platform table (createRequest id method (some (P.toJson p))) (.typed R form) o →
      ∃ p' outcome, P.Like p p' ∧ f.Yields p' id outcome ∧ Seen R form o outcome) ∧
    ∀ content, Emits platform (.single (.request (createRequest id method (some (P.toJson p))))) content →
      ∃ request', Transmits platform (.request (createRequest id method (some (P.toJson p)))) (.request request') ∧
        ∀ allowAsync st, ∃ r, processRequest table request' allowAsync st = some r ∧
          (∃ response, r.Says response) ∧ ∀ response, r.Says response →
            ∀ content', Emits platform (.single (.response response)) content' → ∃ response' o,
              Transmits platform (.response response) (.response response') ∧
              (Sending.typed R form).Observes response' o := by
  have hwritable : (Connection.Message.single
      (.request (createRequest id method (some (P.toJson p))))).Writable := by
    constructor
    · rintro v ⟨⟩
      exact hparams
    · rintro v ⟨⟩
      exact hexact
  constructor
  · rintro o ⟨request', allowAsync, st, r, response, response', hsent, hr, hresponse, hreceived, ho⟩
    obtain ⟨request, params, heq, hid, hmethod, hdec, hlike⟩ :=
      decoded_of_like hp (transmits_like hwritable hsent)
    cases heq
    obtain ⟨params', outcome, hdec', hyields, rfl⟩ := yields_of_says htable hmethod hr hresponse
    obtain rfl := Option.some.inj (hdec.symm.trans hdec')
    rw [hid] at hyields hreceived
    have hportable := hf params hlike outcome hyields
    obtain ⟨response, heq, -, hseen⟩ := seen_of_like hportable form
      (transmits_like (writable_response hportable _) hreceived)
    cases heq
    exact ⟨params, outcome, hlike, hyields, hseen o ho⟩
  · intro content hemits
    obtain ⟨message, htransmits⟩ := exists_transmits hwritable hemits
    obtain ⟨request, params, rfl, hid, hmethod, hdec, hlike⟩ :=
      decoded_of_like hp (transmits_like hwritable htransmits)
    refine ⟨request, htransmits, fun allowAsync st => ?_⟩
    obtain ⟨r, response, hr, hresponse⟩ := says_of_decodes htable hmethod hdec allowAsync st
    refine ⟨r, hr, ⟨response, hresponse⟩, fun response hresponse content' hemits' => ?_⟩
    obtain ⟨params', outcome, hdec', hyields, rfl⟩ := yields_of_says htable hmethod hr hresponse
    obtain rfl := Option.some.inj (hdec.symm.trans hdec')
    rw [hid] at hyields hemits' ⊢
    have hportable := hf params hlike outcome hyields
    obtain ⟨message', hreceived⟩ := exists_transmits (writable_response hportable _) hemits'
    obtain ⟨response', rfl, ⟨o, ho⟩, -⟩ := seen_of_like hportable form
      (transmits_like (writable_response hportable _) hreceived)
    exact ⟨response', o, hreceived, ho⟩

/-- Whether an array has no elements. -/
def isEmptyCallback : RequestCallback Unit (Ty.vector .bool).Val Ty.bool.Val := .value fun p _ u => (List.isEmpty p, u)

/-- It is asked for the array of `true`, by a future. -/
theorem remote_call_isEmpty :
    ∃ o, RemoteCall ⟨sizeMax, Nat.le_refl _⟩
        (addHandler (bytes "m") (TypedHandler.request Ty.bool.toJson isEmptyCallback).wrapper fun _ => none)
        (createRequest (.integer 1) (bytes "m") (some ((Ty.vector .bool).toJson [true]))) (.typed .bool .future) o ∧
      ∃ p' outcome, (Ty.vector .bool).Like [true] p' ∧ isEmptyCallback.Yields p' (.integer 1) outcome ∧
        Seen .bool .future o outcome := by
  have hf : ∀ p', (Ty.vector .bool).Like [true] p' → ∀ outcome, isEmptyCallback.Yields p' (.integer 1) outcome →
      Portable .bool outcome := by
    rintro p' - outcome ⟨u, rfl⟩
    exact ⟨Ty.roundTrips_of_recoverable .bool trivial _ trivial trivial, trivial, rfl⟩
  have hp : (Ty.vector .bool).RoundTrips [true] :=
    Ty.roundTrips_of_recoverable (.vector .bool) trivial [true] trivial trivial
  have hexact : Exact ((Ty.vector .bool).toJson [true]) := ⟨⟨trivial, trivial, trivial⟩, rfl, rfl, trivial⟩
  have htable := Function.update_self (bytes "m") (some (TypedHandler.request Ty.bool.toJson isEmptyCallback).wrapper)
    (fun _ => none)
  have h := remote_call ⟨sizeMax, Nat.le_refl _⟩ htable .future (.integer 1) hp hexact (.inr rfl) hf
  obtain ⟨request', hsent, hhandled⟩ := h.2 _ ⟨⟨_, .refl _, rfl⟩, by decide +kernel⟩
  obtain ⟨r, hr, ⟨response, hresponse⟩, hreceived⟩ := hhandled false { user := () }
  have hemits : Emits ⟨sizeMax, Nat.le_refl _⟩ (.single (.response response))
      (stringify (.object (messageToJson (.response response))) false) := by
    refine ⟨⟨_, .refl _, rfl⟩, ?_⟩
    have hwritable : (Connection.Message.single (.request (createRequest (.integer 1) (bytes "m")
        (some ((Ty.vector .bool).toJson [true]))))).Writable :=
      ⟨by rintro v ⟨⟩; exact .inr rfl, by rintro v ⟨⟩; exact hexact⟩
    obtain ⟨request, params, heq, hid, hmethod, -, -⟩ := decoded_of_like hp (transmits_like hwritable hsent)
    cases heq
    obtain ⟨params, outcome, -, ⟨u, rfl⟩, rfl⟩ := yields_of_says htable hmethod hr hresponse
    rw [hid]
    show (stringify (.object (messageToJson (.response
      (Jsonrpc.createResponse (.integer 1) (.boolean (List.isEmpty params)))))) false).length ≤ sizeMax
    cases List.isEmpty params <;> decide +kernel
  obtain ⟨response', o, hanswered, ho⟩ := hreceived response hresponse _ hemits
  have hcall : RemoteCall _ _ _ _ o := ⟨request', false, _, r, response, response', hsent, hr, hresponse, hanswered, ho⟩
  exact ⟨o, hcall, h.1 o hcall⟩

end Handler

end Lsp
