import LspFramework.Json.RoundTrip
import LspFramework.Jsonrpc.RoundTrip
import LspFramework.Connection.Writers
import LspFramework.Handler.Incoming

/-!
# Error responses nobody asked for

A `readMessage` that fails on a content writes an error response with a null id and a text that is
made of what came in.  The endpoint at the other end reads it as a response, whatever bytes are in
the text (`messageFromJson_errorReply`), and has no request with a null id, since the ids it draws are
integers (`pending_integer`).  So such a response ends the exchange:

    readMessage … = some result → m ∈ result.written → m is read, answers nothing, provokes nothing
                                                                       (errorReply_provokes_nothing)
-/

namespace Lsp.Handler

open Chars Loop Json Jsonrpc Connection
open Value (Reordered)

/-! ## What is written unasked -/

/-- An error response that `readMessage` writes. -/
def AutoReply (message : Jsonrpc.Message) : Prop := ∃ code text, message = errorReply code text

theorem endingOf_written {α : Type} {f : α → Connection.Message} {r : Except Failure α}
    {message : Jsonrpc.Message} (h : message ∈ (endingOf f r).2) : AutoReply message := by
  cases r with
  | ok a => cases h
  | error e =>
    cases e with
    | protocolError e => exact ⟨_, _, List.mem_singleton.mp h⟩
    | badAccess => cases h

theorem decodeContent_written {header : MessageHeader} {content : Bytes} {message : Jsonrpc.Message}
    (h : message ∈ (decodeContent header content).2) : AutoReply message := by
  unfold decodeContent at h
  split at h
  · cases h
  · split at h
    · exact ⟨_, _, List.mem_singleton.mp h⟩
    · cases h
    · cases h
    · exact endingOf_written h
    · exact endingOf_written h
    · exact ⟨_, _, List.mem_singleton.mp h⟩

/-- **All that `readMessage` writes are error responses with a null id.** -/
theorem readMessage_written_autoReply {platform : Platform} {fuel : Nat} {S : Stream} {result : ReadResult}
    (hread : readMessage platform fuel S = some result) {message : Jsonrpc.Message}
    (hm : message ∈ result.written) : AutoReply message := by
  obtain ⟨⟨r, stream⟩, -, rfl⟩ := Option.map_eq_some_iff.mp hread
  cases r with
  | error e => cases hm
  | ok hc => exact decodeContent_written hm

/-! ## How it is read -/

section Reading

variable {code : Json.Integer} {text : Bytes}

theorem errorToJson_eq : errorToJson ⟨code, text, none⟩ =
    [(bytes "code", .integer code), (bytes "message", .string text)] := rfl

theorem errorReply_eq : messageToJson (errorReply code text) =
    [(bytes "jsonrpc", .string ProtocolVersion), (bytes "id", .null),
      (bytes "error", .object (errorToJson ⟨code, text, none⟩))] := rfl

theorem errorReply_wellFormed : (Value.object (messageToJson (errorReply code text))).WellFormed := by
  rw [errorReply_eq, errorToJson_eq]
  refine ⟨?_, trivial, trivial, ⟨?_, trivial, trivial, trivial⟩, trivial⟩
  · show List.Nodup [bytes "jsonrpc", bytes "id", bytes "error"]
    decide
  · show List.Nodup [bytes "code", bytes "message"]
    decide

theorem errorReply_noDecimal : (Value.object (messageToJson (errorReply code text))).NoDecimal := by
  rw [errorReply_eq, errorToJson_eq]
  exact ⟨rfl, rfl, rfl, ⟨rfl, rfl, rfl, trivial⟩, trivial⟩

/-- The members of an error object in any order. -/
theorem errorFromJson_reordered {es : Object}
    (h : Reordered (.object (errorToJson ⟨code, text, none⟩)) (.object es)) :
    errorFromJson es = .ok ⟨code, text, none⟩ := by
  have hkeys : ((errorToJson ⟨code, text, none⟩).map Prod.fst).Nodup := by
    show List.Nodup [bytes "code", bytes "message"]
    decide
  have hcode : member es "code" = some (.integer code) := by
    obtain ⟨w, hw, hr⟩ := h.find_some hkeys (show Object.find (bytes "code") _ = some (.integer code) from rfl)
    cases hr
    exact hw
  have hmessage : member es "message" = some (.string text) := by
    obtain ⟨w, hw, hr⟩ := h.find_some hkeys (show Object.find (bytes "message") _ = some (.string text) from rfl)
    cases hr
    exact hw
  have hdata : member es "data" = none := h.find_none rfl
  unfold errorFromJson
  rw [contains_eq, get_eq, hcode, contains_eq, get_eq, hmessage, getIf_eq, hdata]
  show Except.ok (Error.mk (Binary64.ofInt code.toInt).toInt32 text none) = _
  rw [Binary64.toInt32_ofInt_toInt]

/-- **The members of an automatic error response are read in any order**, whatever its text. -/
theorem messageFromJson_errorReply {ms : Object}
    (h : Reordered (.object (messageToJson (errorReply code text))) (.object ms)) :
    messageFromJson ms = .ok (errorReply code text) := by
  have hkeys := ((Value.everywhere_object _ _).mp (@errorReply_wellFormed code text)).1
  have hversion : member ms "jsonrpc" = some (.string ProtocolVersion) := by
    obtain ⟨w, hw, hr⟩ := h.find_some hkeys
      (show Object.find (bytes "jsonrpc") _ = some (.string ProtocolVersion) from rfl)
    cases hr
    exact hw
  have hid : member ms "id" = (some MessageId.null).map MessageId.toJson := by
    obtain ⟨w, hw, hr⟩ := h.find_some hkeys (show Object.find (bytes "id") _ = some .null from rfl)
    cases hr
    exact hw
  have hmethod : member ms "method" = none := h.find_none rfl
  have hresult : member ms "result" = none := h.find_none rfl
  obtain ⟨w, hw, hr⟩ := h.find_some hkeys
    (show Object.find (bytes "error") _ = some (.object (errorToJson ⟨code, text, none⟩)) from rfl)
  have herror : responseErrorFromJson ms = .ok (some ⟨code, text, none⟩) := by
    have hobj : ∃ es, w = .object es := by
      cases hr <;> exact ⟨_, rfl⟩
    obtain ⟨es, rfl⟩ := hobj
    have hmember : member ms "error" = some (.object es) := hw
    unfold responseErrorFromJson
    rw [contains_eq, get_eq, hmember]
    show (errorFromJson es >>= fun e => Except.ok (some e)) = _
    rw [errorFromJson_reordered hr]
    rfl
  have hresponse : responseFromJson ms = .ok (createErrorResponse .null code text none) := by
    unfold responseFromJson
    rw [verifyProtocolVersion_of_member hversion, idFromJson_of_member hid, getIf_eq, hresult, herror]
    rfl
  unfold messageFromJson
  rw [contains_eq, hmethod, hresponse]
  rfl

/-- The content of an automatic error response is read as the response, and nothing is written. -/
theorem decodeContent_errorReply {content : Bytes}
    (h : ContentOf (.single (errorReply code text)) content) (n : Nat) :
    decodeContent { contentLength := n } content = (.message (.single (errorReply code text)), []) := by
  obtain ⟨json, hr, rfl⟩ := h
  have hobj : ∃ ms, json = .object ms := by
    cases hr <;> exact ⟨_, rfl⟩
  obtain ⟨ms, rfl⟩ := hobj
  have hparse := parse_text (text_stringify (hr.wellFormed errorReply_wellFormed)
    (hr.noDecimal errorReply_noDecimal) false)
  have htype : verifyContentType (MessageHeader.contentType { contentLength := n }) = .ok () := by rfl
  unfold decodeContent
  rw [htype, hparse]
  show endingOf Connection.Message.single (messageFromJson ms) = _
  rw [messageFromJson_errorReply hr]
  rfl

end Reading

/-! ## What it does to the other endpoint -/

namespace Outgoing

/-- The ids a handler waits for are integers. -/
theorem pending_integer {s : Outgoing} (hs : Reachable s) {id : MessageId}
    (h : s.pendingRequests id ≠ none) : ∃ i, id = .integer i := by
  induction hs with
  | refl => exact absurd rfl h
  | tail _ hstep ih =>
    cases hstep with
    | register hhold =>
      simp only [Function.update_apply] at h
      split at h
      · next heq => exact ⟨_, heq⟩
      · exact ih h
    | receive response hfree =>
      simp only [takePending_snd, Function.update_apply] at h
      split at h
      · exact absurd rfl h
      · exact ih h
    | _ => exact ih h

end Outgoing

variable {σ : Type}

/-- The map of a handler whose outgoing side is `o`, with the result object of each call. -/
def pendingOf (results : Nat → RequestResult σ) (o : Outgoing) : Pending (RequestResult σ) := fun id =>
  (o.pendingRequests id).map results

theorem processMessage_errorReply (table : Table σ) (allowAsync : Bool) {o : Outgoing}
    (ho : Outgoing.Reachable o) {results : Nat → RequestResult σ} {st : State σ}
    (hst : st.m_pendingRequests = pendingOf results o) (code : Json.Integer) (text : Bytes) :
    processMessage table allowAsync (errorReply code text) st = some ⟨none, none, st⟩ := by
  have hnone : st.m_pendingRequests .null = none := by
    rw [hst, pendingOf, Option.map_eq_none_iff]
    by_contra h
    obtain ⟨i, hi⟩ := Outgoing.pending_integer ho h
    cases hi
  show (processResponse (createErrorResponse .null code text none) st).map _ = _
  rw [processResponse_unknown hnone]
  rfl

/-- **An automatic error response ends the exchange.**  The other endpoint, in whatever state its
handler is, takes it off the stream as a response and writes nothing while it reads; the response
completes no pending request, and the handler goes on in the same state without writing anything. -/
theorem errorReply_provokes_nothing (platform : Platform) {fuel : Nat} {S : Stream} {result : ReadResult}
    (hread : readMessage platform fuel S = some result) {message : Jsonrpc.Message}
    (hm : message ∈ result.written) {content : Bytes}
    (hcontent : Emits platform (.single message) content) (S' : Stream) (further : Bytes)
    (table : Table σ) {o : Outgoing} (ho : Outgoing.Reachable o) (results : Nat → RequestResult σ)
    {s : Run σ} (hs : s.state.m_pendingRequests = pendingOf results o) :
    (∃ response, message = .response response ∧ response.id = .null ∧ response.error.isSome) ∧
    Gives (fun n => readMessage platform n { S' with input := frame content ++ further })
      ⟨.message (.single message), some content, { S' with input := further }, []⟩ ∧
    (∀ allowAsync, processMessage table allowAsync message s.state = some ⟨none, none, s.state⟩) ∧
    ∀ messages, s.terminated = false → s.batch = none → s.incoming = .single message :: messages →
      Run.Step table s { s with incoming := messages } := by
  obtain ⟨code, text, rfl⟩ := readMessage_written_autoReply hread hm
  have hprocess := fun allowAsync => processMessage_errorReply table allowAsync ho hs code text
  refine ⟨⟨_, rfl, rfl, rfl⟩, ?_, hprocess, ?_⟩
  · have hgives := readMessage_written platform S' hcontent.2 further
    simp only [endMessage, decodeContent_errorReply hcontent.1] at hgives
    exact hgives
  · intro messages halive hbetween hincoming
    have hstep := (show Run.Step table s _ from .single halive hbetween hincoming (hprocess true))
    simpa [Run.react, submit, requestsOf, errorReply, reply] using hstep

/-- The reply to a content that is a number, at an endpoint that waits for two responses; behind it the
stream has one more frame. -/
theorem errorReply_provokes_nothing_number :
    ∃ (content : Bytes) (o : Outgoing) (st : State Unit),
      o.pendingRequests (.integer 1) = some 0 ∧ o.pendingRequests (.integer 2) = some 1 ∧
      (st.m_pendingRequests (.integer 1)).isSome = true ∧
      (∃ fuel, readMessage ⟨sizeMax, Nat.le_refl _⟩ fuel ⟨frame content ++ frame (bytes "1"), fun _ => none, 0⟩ =
        some ⟨.message (.single (errorReply Error.InvalidRequest
          (bytes "Message must be a json object or array"))), some content,
          ⟨frame (bytes "1"), fun _ => none, 0⟩, []⟩) ∧
      ∀ allowAsync, processMessage (fun _ => none) allowAsync (errorReply Error.InvalidRequest
        (bytes "Message must be a json object or array")) st = some ⟨none, none, st⟩ := by
  let platform : Platform := ⟨sizeMax, Nat.le_refl _⟩
  let message := errorReply Error.InvalidRequest (bytes "Message must be a json object or array")
  let S : Stream := ⟨[], fun _ => none, 0⟩
  let results : Nat → RequestResult Unit := fun _ => ⟨fun _ => none, fun _ _ u => ((), u)⟩
  have hparse : parse (bytes "1") = .ok (.integer 1) := (parse_eq_iff _ _).mpr ⟨2, rfl⟩
  have hone : (bytes "1").length ≤ platform.maxSize := by decide
  obtain ⟨fuel, hfuel⟩ := (readMessage_written platform S hone []).exists_fuel
  have hwritten : message ∈ (endMessage (.ok ({ contentLength := (bytes "1").length }, bytes "1"), S)).written := by
    have htype : verifyContentType (MessageHeader.contentType { contentLength := (bytes "1").length }) =
        .ok () := by rfl
    simp only [endMessage, decodeContent, htype, hparse]
    exact List.mem_singleton_self _
  have hemits : Emits platform (.single message)
      (stringify (Connection.Message.toJson (.single message)) false) := ⟨⟨_, .refl _, rfl⟩, by decide +kernel⟩
  -- two requests are sent
  have h₁ : Outgoing.Reachable _ := .tail (.tail .refl (.call (bytes "a") none)) (.call (bytes "b") none)
  have h₂ := ((h₁.tail (@Outgoing.Step.lock _ _ [] _ rfl rfl)).tail (.draw rfl)).tail (.register rfl)
  have h₃ := ((h₂.tail (.write rfl)).tail (.unlock rfl)).tail (@Outgoing.Step.lock _ _ [] [] rfl rfl)
  have h₄ := (((h₃.tail (.draw rfl)).tail (.register rfl)).tail (.write rfl)).tail (.unlock rfl)
  obtain ⟨o, ho, hfirst, hsecond⟩ : ∃ o, Outgoing.Reachable o ∧ o.pendingRequests (.integer 1) = some 0 ∧
      o.pendingRequests (.integer 2) = some 1 := ⟨_, h₄, rfl, rfl⟩
  let st : State Unit := ⟨(), none, pendingOf results o⟩
  have h := errorReply_provokes_nothing platform hfuel hwritten hemits S (frame (bytes "1")) (fun _ => none) ho
    results (s := Run.start [] st 0) rfl
  exact ⟨_, o, st, hfirst, hsecond, by simp [st, pendingOf, hfirst], h.2.1.exists_fuel, h.2.2.1⟩

end Lsp.Handler
