import Mathlib.Data.List.Nodup
import LspFramework.Json.RoundTrip
import LspFramework.Jsonrpc.RoundTrip
import LspFramework.Connection.Writers

/-!
# Messages on the wire

`writeMessage` turns a message into JSON, prints it and puts it in a frame; `readMessage` takes the
frame, parses and converts back.  An object has its members in no order, so what comes back is `Like`
what was sent: the same message, with the members of its objects in some order.  This holds for all
messages whose values have no decimals, of any number of threads, and no reader complains:

    Like message message' → what is printed for the one is read as the other    (decodeContent_written)
    Reachable … s → s.holder = none → messages come out as they went in           (reader_gets_messages)
-/

namespace Lsp.Jsonrpc

open Chars Json
open Value (Reordered)

/-! ## The same message -/

/-- The same error, with the members of its data in some order. -/
def Error.Like (error error' : Error) : Prop :=
  error'.code = error.code ∧ error'.message = error.message ∧ Option.Rel Reordered error.data error'.data

/-- The same message, with the members of its objects in some order. -/
def Message.Like : Message → Message → Prop
  | .request r, .request r' =>
    r'.id = r.id ∧ r'.method = r.method ∧ Option.Rel Reordered r.params r'.params
  | .response r, .response r' =>
    r'.id = r.id ∧ Option.Rel Reordered r.result r'.result ∧ Option.Rel Error.Like r.error r'.error
  | .request _, .response _ => False
  | .response _, .request _ => False

/-- The values that are printed and parsed back as they are. -/
def Exact (v : Value) : Prop := v.WellFormed ∧ v.NoDecimal

/-- The values in the message are printed and parsed back as they are. -/
def Message.Exact : Message → Prop
  | .request r => ∀ v ∈ r.params, Jsonrpc.Exact v
  | .response r => (∀ v ∈ r.result, Jsonrpc.Exact v) ∧ ∀ e ∈ r.error, ∀ v ∈ e.data, Jsonrpc.Exact v

/-! ## What is written -/

/-- Members with keys of their own and values that are parsed back. -/
structure ExactMembers (json : Object) : Prop where
  keys : (json.map Prod.fst).Nodup
  values : ∀ m ∈ json, Exact m.2

theorem exactMembers_nil : ExactMembers [] := ⟨List.nodup_nil, by intro m hm; cases hm⟩

theorem ExactMembers.set {json : Object} (h : ExactMembers json) (key : String) {v : Value} (hv : Exact v) :
    ExactMembers (set key v json) where
  keys := Object.nodup_assign h.keys
  values m hm := by
    rcases Object.mem_assign hm with rfl | hm
    · exact hv
    · exact h.values m hm

theorem ExactMembers.setIf {json : Object} (h : ExactMembers json) (key : String) {v : Option Value}
    (hv : ∀ w ∈ v, Exact w) : ExactMembers (setIf key v json) := by
  cases v with
  | none => exact h
  | some v => exact h.set key (hv v rfl)

theorem ExactMembers.object {json : Object} (h : ExactMembers json) : Exact (.object json) :=
  ⟨(Value.everywhere_object _ _).mpr ⟨h.keys, fun m hm => (h.values m hm).1⟩,
    (Value.everywhere_object _ _).mpr ⟨rfl, fun m hm => (h.values m hm).2⟩⟩

theorem exact_string (s : Bytes) : Exact (.string s) := ⟨trivial, rfl⟩

theorem exact_integer (i : Integer) : Exact (.integer i) := ⟨trivial, rfl⟩

theorem exact_id (id : MessageId) : Exact id.toJson := by
  cases id with
  | null => exact ⟨trivial, rfl⟩
  | integer i => exact exact_integer i
  | string s => exact exact_string s

theorem exact_errorToJson {error : Error} (h : ∀ v ∈ error.data, Exact v) :
    ExactMembers (errorToJson error) :=
  ((exactMembers_nil.set _ (exact_integer _)).set _ (exact_string _)).setIf _ h

theorem exact_messageToJson {message : Message} (h : message.Exact) : ExactMembers (messageToJson message) := by
  have hversion : ExactMembers (set "jsonrpc" (.string ProtocolVersion) []) :=
    exactMembers_nil.set _ (exact_string _)
  cases message with
  | request request =>
    refine ((hversion.setIf _ ?_).set _ (exact_string _)).setIf _ h
    intro v hv
    obtain ⟨id, -, rfl⟩ := Option.map_eq_some_iff.mp hv
    exact exact_id id
  | response response =>
    refine ((hversion.set _ (exact_id _)).setIf _ h.1).setIf _ ?_
    intro v hv
    obtain ⟨e, he, rfl⟩ := Option.map_eq_some_iff.mp hv
    exact (exact_errorToJson (h.2 e he)).object

/-! ## What is read -/

/-- The members of a reordered object are found under the same keys. -/
theorem member_reordered {json ms : Object} (h : Reordered (.object json) (.object ms))
    (hkeys : (json.map Prod.fst).Nodup) (key : String) :
    Option.Rel Reordered (member json key) (member ms key) := by
  unfold member
  cases hmember : Object.find (bytes key) json with
  | none =>
    rw [h.find_none hmember]
    exact .none
  | some v =>
    obtain ⟨w, hw, hr⟩ := h.find_some hkeys hmember
    rw [hw]
    exact .some hr

theorem member_same {json ms : Object} (h : Reordered (.object json) (.object ms))
    (hkeys : (json.map Prod.fst).Nodup) {key : String} {v : Option Value} (hv : member json key = v)
    (hleaf : ∀ x ∈ v, ∀ w, Reordered x w → w = x) : member ms key = v := by
  have hrel := member_reordered h hkeys key
  rw [hv] at hrel
  cases v with
  | none =>
    cases hm : member ms key with
    | none => rfl
    | some w =>
      rw [hm] at hrel
      cases hrel
  | some x =>
    cases hm : member ms key with
    | none =>
      rw [hm] at hrel
      cases hrel
    | some w =>
      rw [hm] at hrel
      cases hrel with
      | some hr => rw [hleaf x rfl w hr]

theorem string_leaf {s : Bytes} {w : Value} (h : Reordered (.string s) w) : w = .string s := by
  cases h
  rfl

theorem integer_leaf {i : Integer} {w : Value} (h : Reordered (.integer i) w) : w = .integer i := by
  cases h
  rfl

theorem id_leaf {id : MessageId} {w : Value} (h : Reordered id.toJson w) : w = id.toJson := by
  cases id <;> cases h <;> rfl

theorem errorFromJson_like {error : Error} {es : Object}
    (h : Reordered (.object (errorToJson error)) (.object es))
    (hkeys : ((errorToJson error).map Prod.fst).Nodup) :
    ∃ error', errorFromJson es = .ok error' ∧ error.Like error' := by
  have hcode : member es "code" = some (.integer error.code) := by
    refine member_same h hkeys (by simp (disch := decide) [errorToJson]) ?_
    rintro x ⟨⟩ w hw
    exact integer_leaf hw
  have hmessage : member es "message" = some (.string error.message) := by
    refine member_same h hkeys (by simp (disch := decide) [errorToJson]) ?_
    rintro x ⟨⟩ w hw
    exact string_leaf hw
  have hdata : Option.Rel Reordered error.data (member es "data") := by
    have hrel := member_reordered h hkeys "data"
    rwa [show member (errorToJson error) "data" = error.data by simp (disch := decide) [errorToJson]] at hrel
  refine ⟨⟨error.code, error.message, member es "data"⟩, ?_, rfl, rfl, hdata⟩
  unfold errorFromJson
  rw [contains_eq, get_eq, hcode, contains_eq, get_eq, hmessage, getIf_eq]
  show Except.ok (Error.mk (Binary64.ofInt error.code.toInt).toInt32 error.message (member es "data")) = _
  rw [Binary64.toInt32_ofInt_toInt]

theorem messageFromJson_requestLike {request : Request} {ms : Object} (hsend : request.ParamsOk)
    (h : Reordered (.object (messageToJson (.request request))) (.object ms))
    (hkeys : ((messageToJson (.request request)).map Prod.fst).Nodup) :
    ∃ message', messageFromJson ms = .ok message' ∧ Message.Like (.request request) message' := by
  obtain ⟨id, method, params⟩ := request
  have hversion : member ms "jsonrpc" = some (.string ProtocolVersion) := by
    refine member_same h hkeys (by simp (disch := decide) [messageToJson]) ?_
    rintro x ⟨⟩ w hw
    exact string_leaf hw
  have hmethod : member ms "method" = some (.string method) := by
    refine member_same h hkeys (by simp (disch := decide) [messageToJson]) ?_
    rintro x ⟨⟩ w hw
    exact string_leaf hw
  have hid : member ms "id" = id.map MessageId.toJson := by
    refine member_same h hkeys (by simp (disch := decide) [messageToJson]) ?_
    intro x hx w hw
    obtain ⟨i, -, rfl⟩ := Option.map_eq_some_iff.mp hx
    exact id_leaf hw
  have hparams : Option.Rel Reordered params (member ms "params") := by
    have hrel := member_reordered h hkeys "params"
    rwa [show member (messageToJson (.request ⟨id, method, params⟩)) "params" = params by
      simp (disch := decide) [messageToJson]] at hrel
  have hok : ∀ v, member ms "params" = some v → v.isObject = true ∨ v.isArray = true := by
    intro w hw
    rw [hw] at hparams
    cases hparams with
    | some hr =>
      have hv := hsend _ rfl
      cases hr with
      | refl => exact hv
      | array => exact .inr rfl
      | object => exact .inl rfl
  have hrequest : requestFromJson ms = .ok ⟨id, method, member ms "params"⟩ := by
    unfold requestFromJson
    rw [verifyProtocolVersion_of_member hversion, get_eq, hmethod, idFromJson_of_member hid,
      paramsFromJson_of_member rfl hok]
    rfl
  refine ⟨.request ⟨id, method, member ms "params"⟩, ?_, rfl, rfl, hparams⟩
  unfold messageFromJson
  rw [contains_eq, hmethod, hrequest]
  rfl

theorem isSome_eq_of_rel {α : Type} {R : α → α → Prop} {x y : Option α} (h : Option.Rel R x y) :
    x.isSome = y.isSome := by
  cases h <;> rfl

theorem messageFromJson_responseLike {response : Response} {ms : Object}
    (hsend : response.assertion = true) (hexact : (Message.response response).Exact)
    (h : Reordered (.object (messageToJson (.response response))) (.object ms))
    (hkeys : ((messageToJson (.response response)).map Prod.fst).Nodup) :
    ∃ message', messageFromJson ms = .ok message' ∧ Message.Like (.response response) message' := by
  obtain ⟨id, result, error⟩ := response
  have hversion : member ms "jsonrpc" = some (.string ProtocolVersion) := by
    refine member_same h hkeys (by simp (disch := decide) [messageToJson]) ?_
    rintro x ⟨⟩ w hw
    exact string_leaf hw
  have hmethod : member ms "method" = none :=
    member_same h hkeys (by simp (disch := decide) [messageToJson]) (by simp)
  have hid : member ms "id" = (some id).map MessageId.toJson := by
    refine member_same h hkeys (by simp (disch := decide) [messageToJson]) ?_
    rintro x ⟨⟩ w hw
    exact id_leaf hw
  have hresult : Option.Rel Reordered result (member ms "result") := by
    have hrel := member_reordered h hkeys "result"
    rwa [show member (messageToJson (.response ⟨id, result, error⟩)) "result" = result by
      simp (disch := decide) [messageToJson]] at hrel
  have herror : ∃ error', responseErrorFromJson ms = .ok error' ∧ Option.Rel Error.Like error error' := by
    have hrel := member_reordered h hkeys "error"
    rw [show member (messageToJson (.response ⟨id, result, error⟩)) "error" =
      error.map fun e => .object (errorToJson e) by simp (disch := decide) [messageToJson]] at hrel
    unfold responseErrorFromJson
    rw [contains_eq, get_eq]
    cases error with
    | none =>
      cases hm : member ms "error" with
      | none => exact ⟨none, rfl, .none⟩
      | some w =>
        rw [hm] at hrel
        cases hrel
    | some e =>
      cases hm : member ms "error" with
      | none =>
        rw [hm] at hrel
        cases hrel
      | some w =>
        rw [hm] at hrel
        cases hrel with
        | some hr =>
          obtain ⟨es, rfl⟩ : ∃ es, w = .object es := by
            cases hr <;> exact ⟨_, rfl⟩
          obtain ⟨e', he', hlike⟩ := errorFromJson_like hr (exact_errorToJson (hexact.2 e rfl)).keys
          refine ⟨some e', ?_, .some hlike⟩
          show (errorFromJson es >>= fun e => Except.ok (some e)) = _
          rw [he']
          rfl
  obtain ⟨error', herror', hlike⟩ := herror
  have hresponse : responseFromJson ms = .ok ⟨id, member ms "result", error'⟩ := by
    unfold responseFromJson
    rw [verifyProtocolVersion_of_member hversion, idFromJson_of_member hid, getIf_eq, herror']
    have hone : (member ms "result").isSome != error'.isSome := by
      rw [← isSome_eq_of_rel hresult, ← isSome_eq_of_rel hlike]
      exact hsend
    cases hr : member ms "result" <;> cases error' <;> rw [hr] at hone <;> first | rfl | cases hone
  refine ⟨.response ⟨id, member ms "result", error'⟩, ?_, rfl, hresult, hlike⟩
  unfold messageFromJson
  rw [contains_eq, hmethod, hresponse]
  rfl

/-- **The members of a message are read in any order.** -/
theorem messageFromJson_like {message : Message} {ms : Object} (hsend : Sendable message)
    (hexact : message.Exact) (h : Reordered (.object (messageToJson message)) (.object ms)) :
    ∃ message', messageFromJson ms = .ok message' ∧ message.Like message' := by
  have hkeys := (exact_messageToJson hexact).keys
  cases message with
  | request request => exact messageFromJson_requestLike hsend h hkeys
  | response response => exact messageFromJson_responseLike hsend hexact h hkeys

theorem messagesFromJson_like {batch : MessageBatch} {vs : Json.Array}
    (hgood : ∀ message ∈ batch, Sendable message ∧ message.Exact)
    (h : List.Forall₂ Reordered (messageBatchToJson batch) vs) :
    ∃ batch', messagesFromJson vs = .ok batch' ∧ List.Forall₂ Message.Like batch batch' := by
  induction batch generalizing vs with
  | nil =>
    cases h
    exact ⟨[], rfl, .nil⟩
  | cons message batch ih =>
    obtain ⟨v, vs, hv, hvs, rfl⟩ := List.forall₂_cons_left_iff.mp h
    obtain ⟨hsend, hexact⟩ := hgood message List.mem_cons_self
    obtain ⟨ms, rfl⟩ : ∃ ms, v = .object ms := by
      cases hv <;> exact ⟨_, rfl⟩
    obtain ⟨message', hmessage, hlike⟩ := messageFromJson_like hsend hexact hv
    obtain ⟨batch', hbatch, hlikes⟩ := ih (fun m hm => hgood m (List.mem_cons_of_mem _ hm)) hvs
    refine ⟨message' :: batch', ?_, .cons hlike hlikes⟩
    show (messageFromJson ms >>= fun message => messagesFromJson vs >>= fun batch =>
      Except.ok (message :: batch)) = _
    rw [hmessage, hbatch]
    rfl

end Lsp.Jsonrpc

namespace Lsp.Connection

open Chars Loop Json Jsonrpc
open Value (Reordered)

/-! ## Messages in frames -/

def Message.Like : Message → Message → Prop
  | .single m, .single m' => m.Like m'
  | .batch ms, .batch ms' => List.Forall₂ Jsonrpc.Message.Like ms ms'
  | .single _, .batch _ => False
  | .batch _, .single _ => False

/-- The messages that `messageToJson` takes and whose values are parsed back as they are. -/
def Message.Writable : Message → Prop
  | .single m => Sendable m ∧ m.Exact
  | .batch ms => ms ≠ [] ∧ ∀ m ∈ ms, Sendable m ∧ m.Exact

/-- **What is written for a message is read as a message like it.** -/
theorem decodeContent_written {message : Message} (hwritable : message.Writable) {content : Bytes}
    (h : ContentOf message content) (n : Nat) :
    ∃ message', message.Like message' ∧
      decodeContent { contentLength := n } content = (.message message', []) := by
  obtain ⟨json, hr, rfl⟩ := h
  have htype : verifyContentType (MessageHeader.contentType { contentLength := n }) = .ok () := by rfl
  cases message with
  | single m =>
    obtain ⟨hsend, hexact⟩ := hwritable
    have hobject := (exact_messageToJson hexact).object
    obtain ⟨ms, rfl⟩ : ∃ ms, json = .object ms := by
      cases hr <;> exact ⟨_, rfl⟩
    obtain ⟨m', hm', hlike⟩ := messageFromJson_like hsend hexact hr
    refine ⟨.single m', hlike, ?_⟩
    unfold decodeContent
    rw [htype, parse_text (text_stringify (hr.wellFormed hobject.1) (hr.noDecimal hobject.2) false)]
    show endingOf Message.single (messageFromJson ms) = _
    rw [hm']
    rfl
  | batch ms =>
    obtain ⟨hne, hgood⟩ := hwritable
    have harray : Exact (.array (messageBatchToJson ms)) := by
      have hall : ∀ v ∈ messageBatchToJson ms, Exact v := by
        intro v hv
        obtain ⟨m, hm, rfl⟩ := List.mem_map.mp hv
        exact (exact_messageToJson (hgood m hm).2).object
      exact ⟨(Value.everywhere_array _ _).mpr ⟨trivial, fun v hv => (hall v hv).1⟩,
        (Value.everywhere_array _ _).mpr ⟨rfl, fun v hv => (hall v hv).2⟩⟩
    obtain ⟨vs, rfl, hvs⟩ := Value.reordered_array_iff.mp hr
    obtain ⟨ms', hms', hlike⟩ := messagesFromJson_like hgood hvs
    refine ⟨.batch ms', hlike, ?_⟩
    have hbatch : messageBatchFromJson vs = .ok ms' := by
      unfold messageBatchFromJson
      rw [if_neg, hms']
      have hlen := hvs.length_eq
      cases vs with
      | nil =>
        cases ms with
        | nil => exact absurd rfl hne
        | cons m ms => cases hlen
      | cons v vs => simp
    unfold decodeContent
    rw [htype, parse_text (text_stringify (hr.wellFormed harray.1) (hr.noDecimal harray.2) false)]
    show endingOf Message.batch (messageBatchFromJson vs) = _
    rw [hbatch]
    rfl

/-- The result of a `readMessage` that took the content and returned a message like this one. -/
def Gets (written : Message × Bytes) (result : ReadResult) : Prop :=
  ∃ message', written.1.Like message' ∧ result.ending = .message message' ∧
    result.content = some written.2 ∧ result.written = []

/-- **A frame is read as the message it was written for.** -/
theorem readMessage_gets (platform : Platform) (S : Stream) {message : Message} {content : Bytes}
    (hwritable : message.Writable) (h : Emits platform message content) (further : Bytes) :
    ∃ result, Gives (fun n => readMessage platform n { S with input := frame content ++ further }) result ∧
      Gets (message, content) result ∧ result.stream = { S with input := further } := by
  obtain ⟨message', hlike, hdecode⟩ := decodeContent_written hwritable h.1 content.length
  refine ⟨_, readMessage_written platform S h.2 further, ⟨message', hlike, ?_, rfl, ?_⟩, rfl⟩
  · show (decodeContent _ content).1 = _
    rw [hdecode]
  · show (decodeContent _ content).2 = _
    rw [hdecode]

theorem readMessages_get (platform : Platform) (S : Stream) {written : List (Message × Bytes)}
    (h : ∀ e ∈ written, e.1.Writable ∧ Emits platform e.1 e.2) :
    ∃ results, Gives (fun n => readMessages platform n written.length
      { S with input := written.flatMap fun e => frame e.2 }) results ∧ List.Forall₂ Gets written results := by
  induction written with
  | nil => exact ⟨[], .const _, .nil⟩
  | cons e written ih =>
    obtain ⟨hwritable, hemits⟩ := h e List.mem_cons_self
    obtain ⟨result, hgives, hgets, hstream⟩ :=
      readMessage_gets platform S hwritable hemits (written.flatMap fun e => frame e.2)
    obtain ⟨results, hgives', hall⟩ := ih fun e he => h e (List.mem_cons_of_mem _ he)
    refine ⟨result :: results, ?_, .cons hgets hall⟩
    rw [← hstream] at hgives'
    exact hgives.bind (g := fun result n => (readMessages platform n written.length result.stream).map
      (result :: ·)) (hgives'.map (result :: ·))

/-- **Messages come out as they went in**: whatever the interleaving of the writing threads, and
whatever the order in which the printer meets the members of objects, the reader gets a message like
each one that was written, in the order in which the write lock was taken, and writes nothing itself. -/
theorem reader_gets_messages (platform : Platform) {τ : Type} [DecidableEq τ] (messages : τ → List Message)
    (hwritable : ∀ t, ∀ message ∈ messages t, message.Writable) (s : WriterState τ)
    (hs : Writers.Reachable (Emits platform) frame messages s) (hidle : s.holder = none) (S : Stream) :
    (∀ t, Writers.itemsOf t s.log ++ s.waiting t = messages t) ∧
    ∃ fuel results, readMessages platform fuel s.log.length { S with input := s.output } = some results ∧
      List.Forall₂ Gets (s.log.map Prod.snd) results := by
  have hinv := Writers.reachable_inv hs
  refine ⟨hinv.order, ?_⟩
  have hall : ∀ e ∈ s.log.map Prod.snd, e.1.Writable ∧ Emits platform e.1 e.2 := by
    intro e he
    obtain ⟨⟨t, message, content⟩, hmem, rfl⟩ := List.mem_map.mp he
    refine ⟨hwritable t message ?_, hinv.emitted _ hmem⟩
    rw [← hinv.order t]
    apply List.mem_append_left
    exact List.mem_map.mpr ⟨_, List.mem_filter.mpr ⟨hmem, by simp⟩, rfl⟩
  have hout : s.output = (s.log.map Prod.snd).flatMap fun e => frame e.2 := by
    have houtput := hinv.output
    rw [Writers.State.pending, hidle, List.append_nil] at houtput
    rw [houtput, List.flatMap_map]
  obtain ⟨results, hgives, hgot⟩ := readMessages_get platform S hall
  obtain ⟨fuel, hfuel⟩ := hgives.exists_fuel
  refine ⟨fuel, results, ?_, hgot⟩
  rw [hout]
  simpa only [List.length_map] using hfuel

/-- Two threads write, one of them notifications whose members the printer meets in another order, the
other a batch in between. -/
theorem reader_gets_reordered :
    ∃ s : WriterState Bool, ∃ json : Value,
      s.log = [(true, notification "a", stringify json false),
        (false, .batch [.request ⟨none, bytes "b", none⟩, .request ⟨none, bytes "c", none⟩],
          stringify (Message.batch [.request ⟨none, bytes "b", none⟩, .request ⟨none, bytes "c", none⟩]).toJson false),
        (true, notification "a", stringify (notification "a").toJson false)] ∧
      ¬ stringify json false = stringify (notification "a").toJson false ∧
      ∃ fuel results, readMessages ⟨sizeMax, Nat.le_refl _⟩ fuel 3 ⟨s.output, fun _ => none, 0⟩ = some results ∧
        List.Forall₂ Gets (s.log.map Prod.snd) results := by
  let platform : Platform := ⟨sizeMax, Nat.le_refl _⟩
  let batch : Message := .batch [.request ⟨none, bytes "b", none⟩, .request ⟨none, bytes "c", none⟩]
  let json : Value := .object [(bytes "method", .string (bytes "a")), (bytes "jsonrpc", .string ProtocolVersion)]
  let messages : Bool → List Message := fun t =>
    if t then [notification "a", notification "a"] else [batch]
  have hrequest : ∀ method, Sendable (.request ⟨none, method, none⟩) ∧
      (Jsonrpc.Message.request ⟨none, method, none⟩).Exact := fun _ => ⟨by rintro v ⟨⟩, by rintro v ⟨⟩⟩
  have hwritable : ∀ t, ∀ message ∈ messages t, message.Writable := by
    intro t message hm
    cases t with
    | false =>
      rw [List.mem_singleton.mp hm]
      refine ⟨List.cons_ne_nil _ _, ?_⟩
      simp only [List.forall_mem_cons]
      exact ⟨hrequest _, hrequest _, List.forall_mem_nil _⟩
    | true =>
      simp only [messages, if_true, List.mem_cons, List.not_mem_nil, or_false, or_self] at hm
      rw [hm]
      exact hrequest _
  have hreordered : Emits platform (notification "a") (stringify json false) :=
    ⟨⟨json, .object (List.Perm.swap _ _ _) rfl (.cons (.refl _) (.cons (.refl _) .nil)), rfl⟩, by decide +kernel⟩
  have hbatch : Emits platform batch (stringify batch.toJson false) := ⟨⟨_, .refl _, rfl⟩, by decide +kernel⟩
  have hordered : Emits platform (notification "a") (stringify (notification "a").toJson false) :=
    ⟨⟨_, .refl _, rfl⟩, by decide +kernel⟩
  have hstart : Writers.Reachable (Emits platform) frame messages (Writers.init messages) := .refl
  have hreach := ((hstart.turn rfl (t := true) rfl hreordered).turn rfl (t := false) rfl hbatch).turn rfl
    (t := true) rfl hordered
  exact ⟨_, json, rfl, by decide +kernel,
    (reader_gets_messages platform messages hwritable _ hreach rfl ⟨[], fun _ => none, 0⟩).2⟩

end Lsp.Connection
