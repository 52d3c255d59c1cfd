import LspFramework.Jsonrpc.RoundTrip
import LspFramework.Handler.Dispatch

/-!
# Numbers that become integers

`messageFromJson` casts the id of a message and the code of an error to `json::Integer`, whatever
their values are.  `conversions json` lists the operands of these casts, `WholeNumbers json` says
that they are 32-bit integers.  Objects of which one breaks it are read, answered and matched by
another number than their own.

    d.eq (ofInt d.toInt32) ↔ d.IsIntegral ∧ d.InInt32             (Binary64.eq_ofInt_toInt32_iff)
    Preserved J ↔ ∀ json ∈ J, WholeNumbers json                   (preserved_iff)

Two ids are the same (`SameId`) when they are the same string, or numbers of the same value: `2` and
`2.0` are.
-/

namespace Lsp.Handler

open Chars Json Jsonrpc

/-! ## Casts -/

section Conversions

variable (json : Object)

/-- The number under the key, when the member is one. -/
def numberAt (key : String) : Option Decimal := (member json key).bind Value.number?

/-- The operand of the cast in `messageIdFromJson`. -/
def idConversions : List Decimal := (numberAt json "id").toList

/-- The operand of the cast behind the member `error` of a response. -/
def codeConversions : List Decimal :=
  match member json "error" with
  | some (.object errorObj) => (numberAt errorObj "code").toList
  | _ => []

/-- The operands of the casts to `json::Integer` that `messageFromJson` makes.  The `method` of a
request is read before its id, and the error of a response when its id was read. -/
def conversions : List Decimal :=
  match verifyProtocolVersion json with
  | .error _ => []
  | .ok () =>
    match member json "method" with
    | some method => if method.isString then idConversions json else []
    | none =>
      idConversions json ++
        match idFromJson json with
        | .error _ => []
        | .ok _ => codeConversions json

/-- Every number that is cast is a 32-bit integer: the id of a request or a response, and the code
of an error behind an id of a good type. -/
structure WholeNumbers : Prop where
  id : VersionShape json → (∀ v, member json "method" = some v → v.isString = true) →
    ∀ d, numberAt json "id" = some d → d.IsIntegral ∧ d.InInt32
  code : VersionShape json → member json "method" = none → IdShape json →
    ∀ errorObj, member json "error" = some (.object errorObj) →
      ∀ d, numberAt errorObj "code" = some d → d.IsIntegral ∧ d.InInt32

end Conversions

/-! ## Ids -/

/-- The same string, or numbers of the same value. -/
def SameId (v w : Value) : Prop :=
  (∃ s, v = .string s ∧ w = .string s) ∨
    ∃ d e, v.number? = some d ∧ w.number? = some e ∧ d.eq e = true

/-- What the casts promise for the objects that are read. -/
structure Preserved (J : Set Object) : Prop where
  exact : ∀ json ∈ J, ∀ d ∈ conversions json,
    d.eq (Binary64.ofInt d.toInt32.toInt) = true ∨ ∃ e, messageFromJson json = .error (.protocolError e)
  /-- No cast of a number with a fractional part or outside the range. -/
  defined : ∀ json ∈ J, ∀ d ∈ conversions json, d.IsIntegral ∧ d.InInt32
  /-- A response to a request has the id of the request. -/
  answered : ∀ json ∈ J, ∀ request, messageFromJson json = .ok (.request request) →
    ∀ v, member json "id" = some v → v.isString = true ∨ v.isNumber = true →
      ∀ (σ : Type) (table : Table σ) response, IsAnswer table request response →
        ∃ w, member (messageToJson (.response response)) "id" = some w ∧ SameId v w
  /-- Requests of one decoded id have one id. -/
  distinct : ∀ json ∈ J, ∀ json' ∈ J, ∀ request request',
    messageFromJson json = .ok (.request request) → messageFromJson json' = .ok (.request request') →
      request.id = request'.id → ∀ v v', member json "id" = some v → member json' "id" = some v' →
        v.isString = true ∨ v.isNumber = true → SameId v v'
  /-- A response takes out the request of its own id. -/
  matched : ∀ json ∈ J, ∀ response, messageFromJson json = .ok (.response response) →
    ∀ (ρ : Type) (pending : Pending ρ) (id : MessageId), id ≠ .null →
      (takePending response.id pending).2 id ≠ pending id →
        ∃ v, member json "id" = some v ∧ SameId v id.toJson

/-! ## What is cast -/

section WhatIsCast

variable {json : Object}

theorem verifyProtocolVersion_ok_iff : verifyProtocolVersion json = .ok () ↔ VersionShape json := by
  rw [← (verifyProtocolVersion_outcome json).ok_iff]
  exact ⟨fun h => ⟨(), h⟩, fun ⟨_, h⟩ => h⟩

theorem mem_idConversions {d : Decimal} : d ∈ idConversions json ↔ numberAt json "id" = some d := by
  simp [idConversions]

theorem mem_codeConversions {d : Decimal} :
    d ∈ codeConversions json ↔
      ∃ errorObj, member json "error" = some (.object errorObj) ∧ numberAt errorObj "code" = some d := by
  unfold codeConversions
  split
  · next errorObj h => simp [h]
  · next h => simpa using fun errorObj he => absurd he (h errorObj)

theorem mem_conversions {d : Decimal} :
    d ∈ conversions json ↔ VersionShape json ∧
      ((∀ v, member json "method" = some v → v.isString = true) ∧ numberAt json "id" = some d ∨
        member json "method" = none ∧ IdShape json ∧
          ∃ errorObj, member json "error" = some (.object errorObj) ∧ numberAt errorObj "code" = some d) := by
  rw [← verifyProtocolVersion_ok_iff, ← (idFromJson_outcome json).ok_iff]
  unfold conversions
  cases verifyProtocolVersion json with
  | error e => simp
  | ok u =>
    cases member json "method" with
    | some method => cases hm : method.isString <;> simp [hm, mem_idConversions]
    | none => cases idFromJson json <;> simp [mem_idConversions, mem_codeConversions]

theorem conversions_iff :
    (∀ d ∈ conversions json, d.IsIntegral ∧ d.InInt32) ↔ WholeNumbers json := by
  simp only [mem_conversions]
  constructor
  · intro h
    exact ⟨fun hv hm d hd => h d ⟨hv, .inl ⟨hm, hd⟩⟩,
      fun hv hm hid errorObj he d hd => h d ⟨hv, .inr ⟨hm, hid, errorObj, he, hd⟩⟩⟩
  · rintro h d ⟨hv, ⟨hm, hd⟩ | ⟨hm, hid, errorObj, he, hd⟩⟩
    · exact h.id hv hm d hd
    · exact h.code hv hm hid errorObj he d hd

end WhatIsCast

/-! ## Decoded ids -/

theorem sameId_toJson {v : Value} {id : MessageId} (h : messageIdFromJson v = .ok id) (hid : id ≠ .null)
    (hd : ∀ d, v.number? = some d → d.IsIntegral ∧ d.InInt32) : SameId v id.toJson := by
  have hnumber : ∀ d, v.number? = some d → SameId v (.integer d.toInt32) := fun d hv =>
    .inr ⟨d, _, hv, rfl, (Binary64.eq_ofInt_toInt32_iff d).mpr (hd d hv)⟩
  cases v with
  | string s =>
    cases h
    exact .inl ⟨s, rfl, rfl⟩
  | integer i =>
    cases h
    exact hnumber _ rfl
  | decimal d =>
    cases h
    exact hnumber d rfl
  | null =>
    cases h
    exact absurd rfl hid
  | _ => cases h

theorem SameId.of_toJson {v v' : Value} {id : MessageId} (h : SameId v id.toJson)
    (h' : SameId v' id.toJson) : SameId v v' := by
  cases id with
  | null => obtain ⟨s, -, hs⟩ | ⟨d, e, -, he, -⟩ := h <;> contradiction
  | string s =>
    obtain ⟨t, rfl, ht⟩ | ⟨d, e, -, he, -⟩ := h
    · obtain ⟨t', rfl, ht'⟩ | ⟨d, e, -, he, -⟩ := h'
      · cases ht
        cases ht'
        exact .inl ⟨s, rfl, rfl⟩
      · cases he
    · cases he
  | integer i =>
    obtain ⟨t, -, ht⟩ | ⟨d, e, hv, he, hde⟩ := h
    · cases ht
    · obtain ⟨t', -, ht'⟩ | ⟨d', e', hv', he', hde'⟩ := h'
      · cases ht'
      · cases he
        cases he'
        exact .inr ⟨d, d', hv, hv', Binary64.eq_of_eq_ofInt hde hde'⟩

theorem messageIdFromJson_ne_null {v : Value} {id : MessageId} (h : messageIdFromJson v = .ok id)
    (hv : v.isString = true ∨ v.isNumber = true) : id ≠ .null := by
  rintro rfl
  cases v with
  | null => simp [Value.isString, Value.isNumber, Value.isInteger, Value.isDecimal] at hv
  | _ => cases h

/-- The id of a message is the one in its member, if there is one. -/
theorem idFromJson_ok {json : Object} {id : Option MessageId} (h : idFromJson json = .ok id) :
    (member json "id" = none ∧ id = none) ∨
      ∃ v i, member json "id" = some v ∧ messageIdFromJson v = .ok i ∧ id = some i := by
  unfold idFromJson at h
  rw [contains_eq, get_eq] at h
  cases hm : member json "id" with
  | none =>
    rw [hm] at h
    cases h
    exact .inl ⟨rfl, rfl⟩
  | some v =>
    rw [hm] at h
    obtain ⟨w, hw, h⟩ := except_bind_ok.mp h
    obtain rfl := Except.ok.inj hw
    obtain ⟨i, hi, h⟩ := except_bind_ok.mp h
    cases h
    exact .inr ⟨v, i, rfl, hi, rfl⟩

section Read

variable {json : Object}

theorem request_read {request : Request} (h : messageFromJson json = .ok (.request request)) :
    VersionShape json ∧ (∀ v, member json "method" = some v → v.isString = true) ∧
      idFromJson json = .ok request.id := by
  unfold messageFromJson at h
  split at h
  · obtain ⟨r, hr, h⟩ := except_bind_ok.mp h
    cases h
    simp only [requestFromJson, get_eq, except_bind_ok] at hr
    obtain ⟨⟨⟩, hversion, v, hv, method, hmethod, id, hid, params, -, hr⟩ := hr
    cases hr
    refine ⟨verifyProtocolVersion_ok_iff.mp hversion, ?_, hid⟩
    intro w hw
    rw [hw] at hv
    obtain rfl := Except.ok.inj hv
    cases w with
    | string s => rfl
    | _ => cases hmethod
  · obtain ⟨r, -, h⟩ := except_bind_ok.mp h
    cases h

theorem response_read {response : Response} (h : messageFromJson json = .ok (.response response)) :
    VersionShape json ∧ member json "method" = none ∧
      ∃ id, idFromJson json = .ok id ∧ response.id = id.getD .null := by
  unfold messageFromJson at h
  split at h
  · obtain ⟨r, -, h⟩ := except_bind_ok.mp h
    cases h
  · next hm =>
    obtain ⟨r, hr, h⟩ := except_bind_ok.mp h
    cases h
    simp only [responseFromJson, except_bind_ok] at hr
    obtain ⟨⟨⟩, hversion, id, hid, result, -, error, -, hr⟩ := hr
    refine ⟨verifyProtocolVersion_ok_iff.mp hversion, by simpa [contains_eq] using hm, id, hid, ?_⟩
    split at hr
    · cases hr
    · cases hr
      rfl

theorem request_id {request : Request} (h : messageFromJson json = .ok (.request request)) {v : Value}
    (hv : member json "id" = some v) : ∃ id, request.id = some id ∧ messageIdFromJson v = .ok id := by
  obtain ⟨-, -, hread⟩ := request_read h
  obtain ⟨hnone, -⟩ | ⟨w, id, hm, hi, hr⟩ := idFromJson_ok hread
  · rw [hv] at hnone
    cases hnone
  · obtain rfl := Option.some.inj (hv.symm.trans hm)
    exact ⟨id, hr, hi⟩

/-- A request whose id is a string or a whole number has that id. -/
theorem request_sameId {request : Request} (h : messageFromJson json = .ok (.request request))
    (hw : WholeNumbers json) {id : MessageId} (hid : request.id = some id) (hne : id ≠ .null) {v : Value}
    (hv : member json "id" = some v) : SameId v id.toJson := by
  obtain ⟨hversion, hmethod, -⟩ := request_read h
  obtain ⟨i, hr, hi⟩ := request_id h hv
  obtain rfl := Option.some.inj (hid.symm.trans hr)
  exact sameId_toJson hi hne fun d hd => hw.id hversion hmethod d (by rw [numberAt, hv]; exact hd)

/-- A response with an id has the string or the whole number in its member. -/
theorem response_sameId {response : Response} (h : messageFromJson json = .ok (.response response))
    (hw : WholeNumbers json) (hne : response.id ≠ .null) :
    ∃ v, member json "id" = some v ∧ SameId v response.id.toJson := by
  obtain ⟨hversion, hmethod, id, hid, hr⟩ := response_read h
  obtain ⟨-, rfl⟩ | ⟨v, i, hm, hi, rfl⟩ := idFromJson_ok hid
  · exact absurd hr hne
  · obtain rfl : response.id = i := hr
    refine ⟨v, hm, sameId_toJson hi hne fun d hd => ?_⟩
    exact hw.id hversion (by simp [hmethod]) d (by rw [numberAt, hm]; exact hd)

end Read

theorem member_response_id (response : Response) :
    member (messageToJson (.response response)) "id" = some response.id.toJson := by
  simp (disch := decide) [messageToJson]

/-- A response leaves the pending requests of other ids. -/
theorem takePending_other {ρ : Type} {pending : Pending ρ} {id id' : MessageId}
    (h : (takePending id' pending).2 id ≠ pending id) : id' = id := by
  by_contra hne
  rw [takePending_snd, Function.update_of_ne (Ne.symm hne)] at h
  exact h rfl

/-! ## When numbers are preserved -/

/-- **Ids and codes are preserved exactly when all that are cast are 32-bit integers.** -/
theorem preserved_iff (J : Set Object) : Preserved J ↔ ∀ json ∈ J, WholeNumbers json := by
  constructor
  · exact fun h json hj => conversions_iff.mp (h.defined json hj)
  · intro h
    have hdefined : ∀ json ∈ J, ∀ d ∈ conversions json, d.IsIntegral ∧ d.InInt32 := fun json hj =>
      conversions_iff.mpr (h json hj)
    constructor
    case exact => exact fun json hj d hd => .inl ((Binary64.eq_ofInt_toInt32_iff d).mpr (hdefined json hj d hd))
    case defined => exact hdefined
    case answered =>
      intro json hj request hr v hv hkind σ table response ha
      obtain ⟨id, hid, hread⟩ := request_id hr hv
      have hne := messageIdFromJson_ne_null hread hkind
      refine ⟨_, member_response_id response, ?_⟩
      rw [isAnswer_id ha, hid]
      exact request_sameId hr (h json hj) hid hne hv
    case distinct =>
      intro json hj json' hj' request request' hr hr' heq v v' hv hv' hkind
      obtain ⟨id, hid, hread⟩ := request_id hr hv
      have hne := messageIdFromJson_ne_null hread hkind
      exact (request_sameId hr (h json hj) hid hne hv).of_toJson
        (request_sameId hr' (h json' hj') (heq ▸ hid) hne hv')
    case matched =>
      intro json hj response hr ρ pending id hne htaken
      have hid := takePending_other htaken
      subst hid
      exact response_sameId hr (h json hj) hne

/-- A request and a response with the id. -/
def requestWithId (id : Value) : Object :=
  [(bytes "jsonrpc", .string (bytes "2.0")), (bytes "id", id), (bytes "method", .string (bytes "m"))]

def responseWithId (id : Value) : Object :=
  [(bytes "jsonrpc", .string (bytes "2.0")), (bytes "id", id), (bytes "result", .null)]

/-- 1.5 -/
def oneAndAHalf : Decimal := .finite false 6755399441055744 (-52) (by decide)

/-- The id 1.5 is read as that of request 1 and a response to it completes request 1; the id 2147483648 is
cast outside the range. -/
theorem messageFromJson_not_preserved :
    messageFromJson (requestWithId (.decimal oneAndAHalf)) = messageFromJson (requestWithId (.integer 1)) ∧
    messageFromJson (requestWithId (.decimal oneAndAHalf)) =
      .ok (.request ⟨some (.integer 1), bytes "m", none⟩) ∧
    messageFromJson (responseWithId (.decimal oneAndAHalf)) = .ok (.response ⟨.integer 1, some .null, none⟩) ∧
    ¬SameId (.decimal oneAndAHalf) (.integer 1) ∧
    ¬Preserved {requestWithId (.decimal oneAndAHalf)} ∧
    ¬Preserved {responseWithId (.decimal oneAndAHalf)} ∧
    ¬Preserved {requestWithId (.decimal (Binary64.ofInt 2147483648))} := by
  have hfraction : ¬oneAndAHalf.IsIntegral := by decide
  refine ⟨by rfl, by rfl, by rfl, ?_, ?_, ?_, ?_⟩
  · rintro (⟨s, hs, -⟩ | ⟨d, e, hd, he, heq⟩)
    · cases hs
    · cases hd
      cases he
      revert heq
      decide +kernel
  · exact fun h => hfraction (h.defined _ rfl oneAndAHalf (.head _)).1
  · exact fun h => hfraction (h.defined _ rfl oneAndAHalf (.head _)).1
  · intro h
    obtain ⟨q, hq, -, hup⟩ := (h.defined _ rfl (Binary64.ofInt 2147483648) (.head _)).2
    rw [Binary64.truncate_ofInt (by omega)] at hq
    cases hq
    revert hup
    decide

end Lsp.Handler
