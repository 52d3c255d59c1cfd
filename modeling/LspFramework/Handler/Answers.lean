import LspFramework.Handler.Incoming

/-!
# Which requests are answered

What a run has written when nothing more can happen.  Without handlers of notifications every
request with an id other than null has exactly one answer, with its id, and the answers to a batch
are one array in the order of its requests:

    Reachable table (start messages …) s → Ended table s → …                   (requests_answered)

With all kinds of handlers a request is answered just when it has an id, except where the kind of
its handler does not fit its id:

    (answered ↔ request.id.isSome) ↔ Fits table request            (answered_iff_id, decoded message)
-/

namespace Lsp.Handler

open Chars Json Jsonrpc

section Answers

variable {σ : Type}

def requestsIn (messages : List Connection.Message) : List Request :=
    (messages.flatMap elementsOf).flatMap requestsOf

/-- The handlers decode all params, and the pending requests all results. -/
def Decoded (table : Table σ) (messages : List Connection.Message) (st : State σ) : Prop :=
  survives table (messages.flatMap elementsOf) st.m_pendingRequests = true

namespace Run

variable {table : Table σ} {messages : List Connection.Message}
    {pending : Pending (RequestResult σ)} {s : Run σ}

/-- What a run that was not cut short has done. -/
theorem Inv.complete (h : Inv table messages pending s) (hincoming : s.incoming = [])
    (hbatch : s.batch = none) (htasks : s.pool.tasks = []) :
    Owed table (requestsIn messages) s.answers [] ∧
      s.arrays = nonempty (Handler.arrays table 0 messages) := by
  have horder : s.requests = requestsIn messages := by
    have := h.order
    simpa [ahead, rest, hincoming, hbatch, requestsIn] using this
  constructor
  · have := h.owed
    rw [horder, htasks, responseBatch, hbatch, Option.map_none, Option.getD_none] at this
    rwa [List.append_nil] at this
  · have := h.arrays
    simpa [openArray, hbatch, hincoming, Handler.arrays, nonempty] using this

end Run

/-- **A request has an answer just when one is due.** -/
theorem Owed.answered_iff {table : Table σ} {requests : List Request} {answers : List Reply}
    (h : Owed table requests answers []) {k : Nat} {request : Request}
    (hk : requests[k]? = some request) :
    (∃ a ∈ answers, a.number = k) ↔ replies table request = true := by
  have hnumbers : (answers.map Reply.number).Perm (due table 0 requests) := by
    have := h.numbers
    rwa [telling, List.filter_nil, List.map_nil, List.append_nil] at this
  constructor
  · rintro ⟨a, ha, rfl⟩
    obtain ⟨request', hrequest, hreplies⟩ := mem_due.mp (hnumbers.mem_iff.mp (List.mem_map_of_mem ha))
    rw [hk] at hrequest
    rw [Option.some.inj hrequest]
    exact hreplies
  · intro hreplies
    have hdue := mem_due.mpr ⟨request, hk, hreplies⟩
    obtain ⟨a, ha, hnumber⟩ := List.mem_map.mp (hnumbers.mem_iff.mpr hdue)
    exact ⟨a, ha, hnumber⟩

/-- **No request has two answers.** -/
theorem Owed.filter_eq {table : Table σ} {requests : List Request} {answers : List Reply}
    (h : Owed table requests answers []) {a : Reply} (ha : a ∈ answers) :
    answers.filter (fun a' => a'.number = a.number) = [a] := by
  have hnodup : (answers.map Reply.number).Nodup := by
    have := h.numbers
    rw [telling, List.filter_nil, List.map_nil, List.append_nil] at this
    exact this.nodup_iff.mpr (due_nodup table 0 requests)
  clear h
  induction answers with
  | nil => cases ha
  | cons b answers ih =>
    obtain ⟨hb, hnodup⟩ := List.nodup_cons.mp hnodup
    rcases List.mem_cons.mp ha with rfl | ha
    · rw [List.filter_cons_of_pos (by simp), List.filter_eq_nil_iff.mpr]
      intro c hc heq
      exact hb (List.mem_map.mpr ⟨c, hc, by simpa using heq⟩)
    · have hne : b.number ≠ a.number := by
        intro heq
        exact hb (List.mem_map.mpr ⟨a, ha, heq.symm⟩)
      rw [List.filter_cons_of_neg (by simpa using hne)]
      exact ih ha hnodup

/-! ## Tables without handlers of notifications -/

/-- Every method is registered by a generic `add` or by the `add` of a request. -/
def RequestsOnly (table : Table σ) : Prop :=
  ∀ method, ∀ {α : Type} (fromJson : Value → Option α) (f : NotificationCallback σ α),
    table method ≠ some (.notification fromJson f)

theorem replies_of_id {table : Table σ} (htable : RequestsOnly table) {request : Request}
    {id : MessageId}
    (hid : request.id = some id) (hnull : id ≠ .null) : replies table request = true := by
  unfold replies
  cases hhandler : table request.method with
  | none => simp [Request.isNotification, hid]
  | some handler =>
    cases handler with
    | generic f => simp [hid, hnull]
    | genericAsync f => simp [hid, hnull]
    | request fromJson toJson f => rfl
    | notification fromJson f => exact absurd hhandler (htable request.method fromJson f)

/-- **Every request is answered once**: at the end of a run every request with an id that is an
integer or a string has exactly one response, with this id and the handler's result or error or
MethodNotFound; no other response has an id other than null; and each batch has one array with the
responses in the order of its requests, or nothing when it has none. -/
theorem requests_answered {table : Table σ} (htable : RequestsOnly table)
    {messages : List Connection.Message} {st : State σ} {maxResponseThreads : Nat} {s : Run σ}
    (hs : Run.Reachable table (Run.start messages st maxResponseThreads) s) (hend : Run.Ended table s) :
    (Decoded table messages st → s.terminated = false) ∧
    (s.terminated = false →
      (∀ k request id, (requestsIn messages)[k]? = some request → request.id = some id → id ≠ .null →
        ∃ response, s.answers.filter (fun a => a.number = k) = [⟨k, response⟩] ∧ response.id = id ∧
          IsAnswer table request response) ∧
      (∀ a ∈ s.answers, a.response.id ≠ .null →
        ∃ request, (requestsIn messages)[a.number]? = some request ∧ request.id = some a.response.id) ∧
      s.arrays = nonempty (arrays table 0 messages)) := by
  have hinv := Run.reachable_inv hs (Run.inv_start table messages st maxResponseThreads)
  constructor
  · intro hdecoded
    have hsurvives := hinv.survives.trans hdecoded
    rw [Bool.and_eq_true, Bool.not_eq_true'] at hsurvives
    exact hsurvives.1
  · intro halive
    rcases Run.ended_cases hend with hdead | ⟨-, hincoming, hbatch, htasks⟩
    · rw [halive] at hdead
      cases hdead
    obtain ⟨howed, harrays⟩ := hinv.complete hincoming hbatch htasks
    refine ⟨?_, ?_, harrays⟩
    · intro k request id hk hid hnull
      obtain ⟨a, ha, rfl⟩ := (howed.answered_iff hk).mpr (replies_of_id htable hid hnull)
      obtain ⟨request', hrequest, hanswer⟩ := howed.answers a ha
      obtain rfl := Option.some.inj (hk.symm.trans hrequest)
      refine ⟨a.response, howed.filter_eq ha, ?_, hanswer⟩
      rw [isAnswer_id hanswer, hid]
      rfl
    · intro a ha hnull
      obtain ⟨request, hrequest, hanswer⟩ := howed.answers a ha
      refine ⟨request, hrequest, ?_⟩
      have hid := isAnswer_id hanswer
      cases hrid : request.id with
      | none => exact absurd (by rw [hid, hrid]; rfl) hnull
      | some id =>
        rw [hid, hrid]
        rfl

/-- An asynchronous handler that gives its params back, for a request and for one of a batch behind it; the
batch, which has a request of an unknown method too, is answered first. -/
theorem requests_answered_async :
    ∃ s : Run Unit, s.answers.map Reply.number = [1, 2, 0] ∧ s.arrays = [[1, 2]] ∧
      (∃ response, s.answers.filter (fun a => a.number = 0) = [⟨0, response⟩] ∧ response.id = .integer 7) ∧
      (∃ response, s.answers.filter (fun a => a.number = 1) = [⟨1, response⟩] ∧ response.id = .string (bytes "x")) ∧
      ∃ response, s.answers.filter (fun a => a.number = 2) = [⟨2, response⟩] ∧ response.id = .integer 8 := by
  let handler : HandlerWrapper Unit := .genericAsync fun json _ u => (fun u => (json, u), u)
  let table : Table Unit := addHandler (bytes "a") handler fun _ => none
  let first : Request := ⟨some (.integer 7), bytes "a", none⟩
  let second : Request := ⟨some (.string (bytes "x")), bytes "a", none⟩
  let third : Request := ⟨some (.integer 8), bytes "b", none⟩
  let start : Run Unit := Run.start [.single (.request first), .batch [.request second, .request third]]
    ⟨(), none, fun _ => none⟩ 1
  have htable : RequestsOnly table := by
    intro method α fromJson f
    by_cases hm : method = bytes "a"
    · subst hm
      simp [table, handler, addHandler]
    · simp [table, addHandler, Function.update_of_ne hm]
  have h₁ : Run.Reachable table start _ := .tail .refl (.single rfl rfl rfl rfl)
  have h₂ := (h₁.tail (.openBatch rfl rfl rfl)).tail (.element rfl rfl rfl)
  have h₃ := (h₂.tail (.element rfl rfl rfl)).tail (.closeBatch rfl rfl)
  have h₄ := (h₃.tail (.take rfl rfl)).tail (@Run.Step.finish _ _ _ 0 _ _ _ rfl rfl)
  obtain ⟨hanswered, -, harrays⟩ := (requests_answered htable h₄ (Run.no_step rfl rfl rfl)).2 rfl
  obtain ⟨response₀, h₀, hid₀, -⟩ := hanswered 0 first (.integer 7) rfl rfl (by decide)
  obtain ⟨response₁, h₁, hid₁, -⟩ := hanswered 1 second (.string (bytes "x")) rfl rfl (by decide)
  obtain ⟨response₂, h₂, hid₂, -⟩ := hanswered 2 third (.integer 8) rfl rfl (by decide)
  exact ⟨_, rfl, harrays, ⟨response₀, h₀, hid₀⟩, ⟨response₁, h₁, hid₁⟩, response₂, h₂, hid₂⟩

/-! ## All kinds of handlers -/

/-- The id is one that the kind of the handler goes with. -/
def Fits (table : Table σ) (request : Request) : Bool :=
  match table request.method with
  | some (.generic _) => request.id != some .null
  | some (.genericAsync _) => request.id != some .null
  | some (.request _ _ _) => request.id.isSome
  | some (.notification _ _) => request.id.isNone
  | none => true

theorem replies_iff_id (table : Table σ) (request : Request) :
    (replies table request = true ↔ request.id.isSome = true) ↔ Fits table request = true := by
  unfold replies Fits
  have hgeneric : ((request.id.getD .null != .null) = true ↔ request.id.isSome = true) ↔
      (request.id != some .null) = true := by
    cases request.id with
    | none => simp
    | some id => simp
  cases table request.method with
  | none => simp [Request.isNotification]
  | some handler =>
    cases handler with
    | generic f => exact hgeneric
    | genericAsync f => exact hgeneric
    | request fromJson toJson f => simp
    | notification fromJson f => simp

namespace Run

variable {table : Table σ} {s s' : Run σ}

/-- At most one message is open, and until it is done nothing is written or queued. -/
structure Lone (s : Run σ) : Prop where
  one : s.incoming = [] ∨ (s.batch = none ∧ ∃ message, s.incoming = [message])
  fresh : s.incoming ≠ [] ∨ s.batch ≠ none → s.written = [] ∧ s.pool.tasks = []
  terminated : s.terminated = true → s.written = []

theorem lone_start (message : Connection.Message) (st : State σ) (maxResponseThreads : Nat) :
    Lone (start [message] st maxResponseThreads) where
  one := .inr ⟨rfl, message, rfl⟩
  fresh _ := ⟨rfl, rfl⟩
  terminated _ := rfl

/-- The message that is taken was the last. -/
theorem Lone.last (h : Lone s) {message : Connection.Message} {messages : List Connection.Message}
    (hincoming : s.incoming = message :: messages) : messages = [] := by
  rcases h.one with hnil | ⟨-, m, hone⟩
  · rw [hincoming] at hnil
    cases hnil
  · rw [hincoming] at hone
    exact (List.cons.inj hone).2

/-- The open batch belongs to the last message. -/
theorem Lone.incoming_nil (h : Lone s) {b : MessageBatch × List Reply} (hbatch : s.batch = some b) :
    s.incoming = [] := by
  rcases h.one with hnil | ⟨hnone, -⟩
  · exact hnil
  · rw [hbatch] at hnone
    cases hnone

theorem lone_step (hstep : Step table s s') (h : Lone s) : Lone s' := by
  cases hstep with
  | single halive hbatch hincoming hr =>
    refine ⟨.inl (h.last hincoming), ?_, ?_⟩
    · intro hopen
      rcases hopen with hopen | hopen
      · exact absurd (h.last hincoming) hopen
      · exact absurd hbatch hopen
    · intro hdead
      exact absurd (halive.symm.trans hdead) Bool.false_ne_true
  | openBatch halive hbatch hincoming =>
    have hfresh := h.fresh (.inl (by simp [hincoming]))
    exact ⟨.inl (h.last hincoming), fun _ => hfresh, fun _ => hfresh.1⟩
  | element halive hbatch hr =>
    obtain ⟨hwritten, htasks⟩ := h.fresh (.inr (by simp [hbatch]))
    refine ⟨.inl (h.incoming_nil hbatch), fun _ => ⟨hwritten, ?_⟩, fun _ => hwritten⟩
    rw [react, task_none hr]
    exact htasks
  | closeBatch halive hbatch =>
    refine ⟨.inl (h.incoming_nil hbatch), ?_, ?_⟩
    · intro hopen
      rcases hopen with hopen | hopen
      · exact absurd (h.incoming_nil hbatch) hopen
      · exact absurd rfl hopen
    · intro hdead
      exact absurd (halive.symm.trans hdead) Bool.false_ne_true
  | terminateSingle halive hbatch hincoming hr =>
    exact ⟨h.one, h.fresh, fun _ => (h.fresh (.inl (by simp [hincoming]))).1⟩
  | terminateBatch halive hbatch hr =>
    exact ⟨h.one, h.fresh, fun _ => (h.fresh (.inr (by simp [hbatch]))).1⟩
  | take halive htake =>
    refine ⟨h.one, ?_, h.terminated⟩
    intro hopen
    exact absurd (h.fresh hopen).2 (ThreadPool.tasks_ne_nil_of_take htake)
  | finish halive hfinish =>
    refine ⟨h.one, ?_, ?_⟩
    · intro hopen
      have hperm := ThreadPool.finish_tasks hfinish
      rw [(h.fresh hopen).2] at hperm
      cases hperm.symm.eq_nil
    · intro hdead
      exact absurd (halive.symm.trans hdead) Bool.false_ne_true

theorem reachable_lone {s₀ : Run σ} (hs : Reachable table s₀ s) (h : Lone s₀) : Lone s := by
  induction hs with
  | refl => exact h
  | tail _ hstep ih => exact lone_step hstep ih

end Run

/-- **When a request is answered just if it has an id**: a message that is decoded needs a handler
whose kind fits the id; one that is not decoded terminates the process before it is answered. -/
theorem answered_iff_id {table : Table σ} {message : Connection.Message} {st : State σ}
    {maxResponseThreads : Nat}
    {s : Run σ} (hs : Run.Reachable table (Run.start [message] st maxResponseThreads) s)
    (hend : Run.Ended table s) {k : Nat} {request : Request}
    (hk : (requestsIn [message])[k]? = some request) :
    ((∃ a ∈ s.answers, a.number = k) ↔ request.id.isSome = true) ↔
      (Decoded table [message] st ∧ Fits table request = true) ∨
        (¬ Decoded table [message] st ∧ request.id.isSome = false) := by
  have hinv := Run.reachable_inv hs (Run.inv_start table [message] st maxResponseThreads)
  have hsurvives := hinv.survives
  rcases Run.ended_cases hend with hdead | ⟨halive, hincoming, hbatch, htasks⟩
  · have hnot : ¬ Decoded table [message] st := by
      intro hdecoded
      rw [hdead, show survives table _ _ = true from hdecoded] at hsurvives
      cases hsurvives
    have hlone := Run.reachable_lone hs (Run.lone_start message st maxResponseThreads)
    have hwritten := hlone.terminated hdead
    simp [Run.answers, hwritten, hnot]
  · have hdecoded : Decoded table [message] st := by
      rw [halive, Run.ahead, Run.rest, hincoming, hbatch] at hsurvives
      exact hsurvives.symm
    rw [(hinv.complete hincoming hbatch htasks).1.answered_iff hk, replies_iff_id]
    simp [hdecoded]

/-- A request whose handler leaves no task ends its run. -/
theorem run_single {table : Table σ} {request : Request} {st : State σ} {r : Reaction σ}
    (hr : processRequest table request true st = some r) (htask : r.task = none)
    (maxResponseThreads : Nat) :
    ∃ s, Run.Reachable table (Run.start [.single (.request request)] st maxResponseThreads) s ∧
      Run.Ended table s ∧ s.answers = reply 0 r.response := by
  refine ⟨_, .tail .refl (.single rfl rfl rfl hr), Run.no_step rfl rfl ?_, ?_⟩
  · rw [Run.react, htask]
    rfl
  · show ([] ++ (reply 0 r.response).map Written.single).flatMap Written.replies = _
    rw [List.nil_append, singles_replies]

/-- A typed request handler answers the id 1. -/
theorem answered_iff_id_typed :
    ∃ s : Run Unit, ∃ a ∈ s.answers, a.number = 0 := by
  let handler : HandlerWrapper Unit :=
    .noParamsRequest (fun _ : Unit => .null) (.value fun _ _ u => ((), u))
  let table : Table Unit := addHandler (bytes "a") handler fun _ => none
  let request : Request := ⟨some (.integer 1), bytes "a", none⟩
  have hr : processRequest table request true ⟨(), none, fun _ => none⟩ = some _ := rfl
  obtain ⟨s, hs, hend, -⟩ := run_single hr rfl 1
  have hk : (requestsIn [.single (.request request)])[0]? = some request := rfl
  have hiff := (answered_iff_id hs hend hk).mpr (.inl ⟨rfl, rfl⟩)
  exact ⟨s, hiff.mpr rfl⟩

/-- A run for one request with this id, to a method with this handler, answers these requests. -/
def RunAnswers (handler : HandlerWrapper Unit) (id : Option MessageId) (numbers : List Nat) : Prop :=
  let table : Table Unit := addHandler (bytes "a") handler fun _ => none
  let message : Connection.Message := .single (.request ⟨id, bytes "a", none⟩)
  ∃ s, Run.Reachable table (Run.start [message] ⟨(), none, fun _ => none⟩ 1) s ∧
    Run.Ended table s ∧ s.answers.map Reply.number = numbers

/-- A message without id is answered by a typed request handler; a message with the id null is not
answered by a generic handler, and one with the id 1 not by a notification handler. -/
theorem answered_not_iff_id :
    RunAnswers (.noParamsRequest (fun _ : Unit => .null) (.value fun _ _ u => ((), u))) none [0] ∧
      RunAnswers (.generic fun json _ u => (json, u)) (some .null) [] ∧
      RunAnswers (.noParamsNotification (.void fun _ _ u => ((), u))) (some (.integer 1)) [] := by
  have hrun : ∀ {handler : HandlerWrapper Unit} {id : Option MessageId} {r : Reaction Unit}
      {numbers : List Nat},
      processRequest (addHandler (bytes "a") handler fun _ => none) ⟨id, bytes "a", none⟩ true
        ⟨(), none, fun _ => none⟩ = some r → r.task = none →
      (reply 0 r.response).map Reply.number = numbers → RunAnswers handler id numbers := by
    intro handler id r numbers hr htask hnumbers
    obtain ⟨s, hs, hend, hanswers⟩ := run_single hr htask 1
    exact ⟨s, hs, hend, (congrArg _ hanswers).trans hnumbers⟩
  exact ⟨hrun rfl rfl rfl, hrun rfl rfl rfl, hrun rfl rfl rfl⟩

end Answers

end Lsp.Handler
