import Mathlib.Logic.Relation
import Mathlib.Data.List.Nodup
import LspFramework.Handler.Dispatch
import LspFramework.Handler.ThreadPool

/-!
# Incoming messages

One thread calls `processIncomingMessages` for one message after the other, while the threads of the
pool run the queued tasks in any order, also between two messages of a batch.  Requests are numbered
as they are processed, and a reply carries the number of its request.  `Inv`, kept by every step:
the requests that are due a reply are those with a reply and those with a task that tells it, each
once, and a reply is an answer to its request.

    Reachable table messages start s → Inv table messages s                    (reachable_inv)
    … → Ended table s → elements decode → every request answered as due        (requests_answered)
-/

namespace Lsp.Handler

open Chars Json Jsonrpc

/-! ## The system -/

/-- A response with the number of the request that caused it. -/
structure Reply where
  number : Nat
  response : Response

/-- What `writeMessage` is called with: a response or a batch of responses. -/
inductive Written where
  | single (reply : Reply)
  | batch (replies : List Reply)

def Written.replies : Written → List Reply
  | single reply => [reply]
  | batch replies => replies

structure Run (σ : Type) where
  /-- what `readMessage` has still to return -/
  incoming : List Connection.Message
  /-- the rest of the batch that is processed, and `responseBatch` -/
  batch : Option (MessageBatch × List Reply) := none
  state : State σ
  pool : ThreadPool (Nat × Task σ)
  written : List Written := []
  /-- the requests processed so far -/
  requests : List Request := []
  terminated : Bool := false

section Incoming

variable {σ : Type}

def requestsOf : Jsonrpc.Message → List Request
  | .request request => [request]
  | .response _ => []

/-- The messages of a message, which may be a batch. -/
def elementsOf : Connection.Message → List Jsonrpc.Message
  | .single message => [message]
  | .batch messages => messages

/-- The two branches on the kind of a message in `processIncomingMessages`. -/
def processMessage (table : Table σ) (allowAsync : Bool) : Jsonrpc.Message → State σ →
    Option (Reaction σ)
  | .request request, st => processRequest table request allowAsync st
  | .response response, st => (processResponse response st).map fun st => ⟨none, none, st⟩

/-- `optionalResponse`, numbered. -/
def reply (number : Nat) (optionalResponse : Option Response) : List Reply :=
  (optionalResponse.map (Reply.mk number)).toList

def submit (number : Nat) (task : Option (Task σ)) (pool : ThreadPool (Nat × Task σ)) :
    ThreadPool (Nat × Task σ) :=
  match task with
  | some task => pool.addTask (number, task)
  | none => pool

namespace Run

/-- The run behind a call of `processMessage`. -/
def react (s : Run σ) (message : Jsonrpc.Message) (r : Reaction σ) : Run σ :=
  { s with
    state := r.state
    pool := submit s.requests.length r.task s.pool
    requests := s.requests ++ requestsOf message }

def start (messages : List Connection.Message) (st : State σ) (maxResponseThreads : Nat) : Run σ where
  incoming := messages
  state := st
  pool := .create 0 maxResponseThreads

inductive Step (table : Table σ) : Run σ → Run σ → Prop
  | single {s : Run σ} {message : Jsonrpc.Message} {messages : List Connection.Message}
      {r : Reaction σ} :
      s.terminated = false → s.batch = none → s.incoming = .single message :: messages →
      processMessage table true message s.state = some r →
      Step table s { s.react message r with
        incoming := messages
        written := s.written ++ (reply s.requests.length r.response).map .single }
  | openBatch {s : Run σ} {batch : MessageBatch} {messages : List Connection.Message} :
      s.terminated = false → s.batch = none → s.incoming = .batch batch :: messages →
      Step table s { s with incoming := messages, batch := some (batch, []) }
  | element {s : Run σ} {message : Jsonrpc.Message} {batch : MessageBatch} {responseBatch : List Reply}
      {r : Reaction σ} : s.terminated = false → s.batch = some (message :: batch, responseBatch) →
      processMessage table false message s.state = some r →
      Step table s { s.react message r with
        batch := some (batch, responseBatch ++ reply s.requests.length r.response) }
  | closeBatch {s : Run σ} {responseBatch : List Reply} : s.terminated = false →
      s.batch = some ([], responseBatch) →
      Step table s { s with
        batch := none
        written := s.written ++ if responseBatch.isEmpty then [] else [.batch responseBatch] }
  | terminateSingle {s : Run σ} {message : Jsonrpc.Message} {messages : List Connection.Message} :
      s.terminated = false → s.batch = none → s.incoming = .single message :: messages →
      processMessage table true message s.state = none → Step table s { s with terminated := true }
  | terminateBatch {s : Run σ} {message : Jsonrpc.Message} {batch : MessageBatch}
      {responseBatch : List Reply} :
      s.terminated = false → s.batch = some (message :: batch, responseBatch) →
      processMessage table false message s.state = none → Step table s { s with terminated := true }
  | take {s : Run σ} {pool : ThreadPool (Nat × Task σ)} : s.terminated = false →
      s.pool.take = some pool →
      Step table s { s with pool }
  | finish {s : Run σ} {i number : Nat} {task : Task σ} {pool : ThreadPool (Nat × Task σ)} :
      s.terminated = false → s.pool.finish i = some ((number, task), pool) →
      Step table s { s with
        pool
        state := (task.execute s.state).2
        written := s.written ++ (reply number (task.execute s.state).1).map .single }

def Reachable (table : Table σ) (s₀ s : Run σ) : Prop := Relation.ReflTransGen (Step table) s₀ s

/-- Nothing more can happen. -/
def Ended (table : Table σ) (s : Run σ) : Prop := ∀ s', ¬ Step table s s'

/-- The replies written. -/
def answers (s : Run σ) : List Reply := s.written.flatMap Written.replies

/-- `responseBatch` -/
def responseBatch (s : Run σ) : List Reply := (s.batch.map Prod.snd).getD []

/-- The messages of the batch that is processed which are still to come. -/
def rest (s : Run σ) : MessageBatch := (s.batch.map Prod.fst).getD []

/-- The messages still to be processed. -/
def ahead (s : Run σ) : List Jsonrpc.Message := s.rest ++ s.incoming.flatMap elementsOf

end Run

/-! ## What is due -/

/-- The numbers of the requests, counted from `n`, that are answered. -/
def due (table : Table σ) (n : Nat) (requests : List Request) : List Nat :=
  ((requests.zipIdx n).filter fun e => replies table e.1).map Prod.snd

@[simp]
theorem due_nil (table : Table σ) (n : Nat) : due table n [] = [] := rfl

theorem due_singleton (table : Table σ) (n : Nat) (request : Request) :
    due table n [request] = if replies table request then [n] else [] := by
  unfold due
  cases hreplies : replies table request <;> simp [hreplies]

theorem due_append (table : Table σ) (n : Nat) (requests requests' : List Request) :
    due table n (requests ++ requests') =
      due table n requests ++ due table (n + requests.length) requests' := by
  unfold due
  rw [List.zipIdx_append, List.filter_append, List.map_append]

theorem due_nodup (table : Table σ) (n : Nat) (requests : List Request) :
    (due table n requests).Nodup := by
  have hsub : (due table n requests).Sublist ((requests.zipIdx n).map Prod.snd) :=
    List.filter_sublist.map _
  apply hsub.nodup
  rw [List.zipIdx_map_snd]
  exact List.nodup_range'

theorem mem_due {table : Table σ} {requests : List Request} {k : Nat} :
    k ∈ due table 0 requests ↔
      ∃ request, requests[k]? = some request ∧ replies table request = true := by
  unfold due
  constructor
  · intro h
    obtain ⟨⟨request, k'⟩, he, rfl⟩ := List.mem_map.mp h
    obtain ⟨hmem, hreplies⟩ := List.mem_filter.mp he
    exact ⟨request, List.mem_zipIdx_iff_getElem?.mp hmem, hreplies⟩
  · rintro ⟨request, hrequest, hreplies⟩
    exact List.mem_map.mpr ⟨(request, k),
      List.mem_filter.mpr ⟨List.mem_zipIdx_iff_getElem?.mpr hrequest, hreplies⟩, rfl⟩

/-- The numbers of the requests that tasks tell the answer of. -/
def telling (tasks : List (Nat × Task σ)) : List Nat := (tasks.filter fun e => e.2.tells).map Prod.fst

theorem telling_append (tasks tasks' : List (Nat × Task σ)) :
    telling (tasks ++ tasks') = telling tasks ++ telling tasks' := by
  unfold telling
  rw [List.filter_append, List.map_append]

/-- The request of that number has the property. -/
def AtRequest (requests : List Request) (number : Nat) (Q : Request → Prop) : Prop :=
  ∃ request, requests[number]? = some request ∧ Q request

theorem AtRequest.append {requests : List Request} {number : Nat} {Q : Request → Prop}
    (h : AtRequest requests number Q) (requests' : List Request) :
    AtRequest (requests ++ requests') number Q := by
  obtain ⟨request, hrequest, hQ⟩ := h
  obtain ⟨hlt, -⟩ := List.getElem?_eq_some_iff.mp hrequest
  exact ⟨request, by rw [List.getElem?_append_left hlt, hrequest], hQ⟩

theorem AtRequest.last {requests : List Request} {request : Request} {Q : Request → Prop}
    (h : Q request) :
    AtRequest (requests ++ [request]) requests.length Q :=
  ⟨request, List.getElem?_concat_length, h⟩

/-- Each request that is due a reply has one or has a task that tells it; none has two. -/
structure Owed (table : Table σ) (requests : List Request) (answers : List Reply)
    (tasks : List (Nat × Task σ)) :
    Prop where
  numbers : (answers.map Reply.number ++ telling tasks).Perm (due table 0 requests)
  answers : ∀ a ∈ answers, AtRequest requests a.number fun request => IsAnswer table request a.response
  tasks : ∀ e ∈ tasks, e.2.tells = true →
    AtRequest requests e.1 fun request => e.2.Answers (IsAnswer table request)

namespace Owed

theorem init (table : Table σ) : Owed table [] [] [] :=
  ⟨.refl _, fun _ ha => absurd ha List.not_mem_nil, fun _ he => absurd he List.not_mem_nil⟩

variable {table : Table σ} {requests : List Request} {answers answers' : List Reply}
  {tasks tasks' : List (Nat × Task σ)}

theorem perm (h : Owed table requests answers tasks)
    (hanswers : answers'.Perm answers) (htasks : tasks'.Perm tasks) :
    Owed table requests answers' tasks' where
  numbers := ((hanswers.map _).append ((htasks.filter _).map _)).trans h.numbers
  answers a ha := h.answers a (hanswers.mem_iff.mp ha)
  tasks e he := h.tasks e (htasks.mem_iff.mp he)

/-- The next request is not answered; its task, if any, tells nothing. -/
theorem silent (h : Owed table requests answers tasks) {requests' : List Request}
    (hdue : due table requests.length requests' = []) {task : Option (Task σ)}
    (htask : ∀ t ∈ task, t.tells = false) :
    Owed table (requests ++ requests') answers
      ((task.map (Prod.mk requests.length)).toList ++ tasks) where
  numbers := by
    have htelling : telling (task.map (Prod.mk requests.length)).toList = [] := by
      cases task with
      | none => rfl
      | some t => simp [telling, htask t rfl]
    rw [telling_append, htelling, due_append, Nat.zero_add, hdue, List.append_nil, List.nil_append]
    exact h.numbers
  answers a ha := (h.answers a ha).append _
  tasks e he htells := by
    rcases List.mem_append.mp he with he | he
    · obtain ⟨t, ht, rfl⟩ := Option.map_eq_some_iff.mp (Option.mem_toList.mp he)
      exact absurd htells (by simp [htask t ht])
    · exact (h.tasks e he htells).append _

/-- The next request is answered at once. -/
theorem replied (h : Owed table requests answers tasks) {request : Request}
    (hreplies : replies table request = true) {response : Response}
    (hanswer : IsAnswer table request response) :
    Owed table (requests ++ [request]) (answers ++ [⟨requests.length, response⟩]) tasks where
  numbers := by
    rw [due_append, Nat.zero_add, due_singleton, if_pos hreplies, List.map_append, List.append_assoc]
    refine (List.perm_append_comm.append_left _).trans ?_
    rw [← List.append_assoc]
    exact h.numbers.append_right _
  answers a ha := by
    rcases List.mem_append.mp ha with ha | ha
    · exact (h.answers a ha).append _
    · rw [List.mem_singleton.mp ha]
      exact .last hanswer
  tasks e he htells := (h.tasks e he htells).append _

/-- The next request is answered by a task. -/
theorem queued (h : Owed table requests answers tasks) {request : Request}
    (hreplies : replies table request = true) {task : Task σ}
    (hanswer : task.Answers (IsAnswer table request)) :
    Owed table (requests ++ [request]) answers ((requests.length, task) :: tasks) where
  numbers := by
    have htelling : telling ((requests.length, task) :: tasks) = requests.length :: telling tasks := by
      simp [telling, hanswer.1]
    rw [htelling, due_append, Nat.zero_add, due_singleton, if_pos hreplies]
    exact List.perm_middle.trans ((h.numbers.cons _).trans (List.perm_append_singleton _ _).symm)
  answers a ha := (h.answers a ha).append _
  tasks e he htells := by
    rcases List.mem_cons.mp he with rfl | he
    · exact .last hanswer
    · exact (h.tasks e he htells).append _

/-- **A message that is processed.** -/
theorem process (h : Owed table requests answers tasks) {allowAsync : Bool}
    {message : Jsonrpc.Message} {st : State σ}
    {r : Reaction σ} (hr : processMessage table allowAsync message st = some r) :
    Owed table (requests ++ requestsOf message) (answers ++ reply requests.length r.response)
      ((r.task.map (Prod.mk requests.length)).toList ++ tasks) := by
  cases message with
  | response response =>
    obtain ⟨st', -, rfl⟩ := Option.map_eq_some_iff.mp hr
    rw [reply, Option.map_none, Option.toList_none, List.append_nil]
    exact h.silent rfl (by simp)
  | request request =>
    have hmeets := processRequest_meets hr
    cases hreplies : replies table request with
    | false =>
      rw [hreplies] at hmeets
      obtain ⟨hresponse, htask⟩ := hmeets
      rw [hresponse, reply, Option.map_none, Option.toList_none, List.append_nil]
      have hdue : due table requests.length [request] = [] := by
        rw [due_singleton, if_neg (by simp [hreplies])]
      exact h.silent hdue fun t ht => (htask t ht).2
    | true =>
      rw [hreplies] at hmeets
      rcases hmeets with ⟨response, hresponse, htask, hanswer⟩ | ⟨-, hresponse, task, htask, hanswer⟩
      · rw [hresponse, htask]
        exact h.replied hreplies hanswer
      · rw [hresponse, htask, reply, Option.map_none, Option.toList_none, List.append_nil]
        exact h.queued hreplies hanswer

/-- **A task that is executed.** -/
theorem execute {number : Nat} {task : Task σ}
    (h : Owed table requests answers ((number, task) :: tasks)) (st : State σ) :
    Owed table requests (answers ++ reply number (task.execute st).1) tasks := by
  have hsome := execute_isSome task st
  cases htells : task.tells with
  | false =>
    rw [htells, Option.isSome_eq_false_iff, Option.isNone_iff_eq_none] at hsome
    rw [hsome, reply, Option.map_none, Option.toList_none, List.append_nil]
    refine ⟨?_, h.answers, fun e he => h.tasks e (List.mem_cons_of_mem _ he)⟩
    have := h.numbers
    simpa [telling, htells] using this
  | true =>
    rw [htells] at hsome
    obtain ⟨response, hresponse⟩ := Option.isSome_iff_exists.mp hsome
    rw [hresponse]
    refine ⟨?_, ?_, fun e he => h.tasks e (List.mem_cons_of_mem _ he)⟩
    · have hnumbers := h.numbers
      have htelling : telling ((number, task) :: tasks) = number :: telling tasks := by
        simp [telling, htells]
      rw [htelling] at hnumbers
      simp only [reply, Option.map_some, Option.toList_some, List.map_append, List.map_cons,
        List.map_nil, List.append_assoc, List.singleton_append]
      exact hnumbers
    · intro a ha
      rcases List.mem_append.mp ha with ha | ha
      · exact h.answers a ha
      · obtain ⟨request, hrequest, hanswers⟩ := h.tasks (number, task) List.mem_cons_self htells
        rw [List.mem_singleton.mp ha]
        exact ⟨request, hrequest, hanswers.2 st response (by rw [hresponse]; rfl)⟩

end Owed

/-! ## Batches -/

/-- In a batch the numbered response is the one that is due. -/
theorem reply_numbers {table : Table σ} {message : Jsonrpc.Message} {st : State σ} {r : Reaction σ}
    (hr : processMessage table false message st = some r) (n : Nat) :
    (reply n r.response).map Reply.number = due table n (requestsOf message) := by
  cases message with
  | response response =>
    obtain ⟨st', -, rfl⟩ := Option.map_eq_some_iff.mp hr
    rfl
  | request request =>
    have hmeets := processRequest_meets hr
    cases hreplies : replies table request with
    | false =>
      rw [hreplies] at hmeets
      simp [hmeets.1, reply, due_singleton, requestsOf, hreplies]
    | true =>
      rw [hreplies] at hmeets
      rcases hmeets with ⟨response, hresponse, -⟩ | ⟨hfalse, -⟩
      · simp [hresponse, reply, due_singleton, requestsOf, hreplies]
      · cases hfalse

theorem task_none {table : Table σ} {message : Jsonrpc.Message} {st : State σ} {r : Reaction σ}
    (hr : processMessage table false message st = some r) : r.task = none := by
  cases message with
  | response response =>
    obtain ⟨st', -, rfl⟩ := Option.map_eq_some_iff.mp hr
    rfl
  | request request =>
    have hmeets := processRequest_meets hr
    cases hreplies : replies table request with
    | false =>
      rw [hreplies] at hmeets
      cases htask : r.task with
      | none => rfl
      | some task => cases (hmeets.2 task htask).1
    | true =>
      rw [hreplies] at hmeets
      rcases hmeets with ⟨response, -, htask, -⟩ | ⟨hfalse, -⟩
      · exact htask
      · cases hfalse

/-- The numbers of the requests of each batch that are answered; requests are counted from `n`. -/
def arrays (table : Table σ) : Nat → List Connection.Message → List (List Nat)
  | _, [] => []
  | n, .single message :: messages => arrays table (n + (requestsOf message).length) messages
  | n, .batch batch :: messages =>
    due table n (batch.flatMap requestsOf) ::
      arrays table (n + (batch.flatMap requestsOf).length) messages

/-- The arrays that are written: the empty ones are not. -/
def nonempty (arrays : List (List Nat)) : List (List Nat) :=
    arrays.filter fun numbers => !numbers.isEmpty

def Written.array? : Written → Option (List Nat)
  | single _ => none
  | batch replies => some (replies.map Reply.number)

namespace Run

/-- The arrays written. -/
def arrays (s : Run σ) : List (List Nat) := s.written.filterMap Written.array?

/-- The array the batch that is processed will have. -/
def openArray (table : Table σ) (s : Run σ) : List (List Nat) :=
  match s.batch with
  | some (batch, responseBatch) =>
    [responseBatch.map Reply.number ++ due table s.requests.length (batch.flatMap requestsOf)]
  | none => []

end Run

/-! ## Messages that are decoded -/

/-- Whether the handlers and the result objects decode all params and results. -/
def survives (table : Table σ) : List Jsonrpc.Message → Pending (RequestResult σ) → Bool
  | [], _ => true
  | .request request :: messages, p => decodes table request && survives table messages p
  | .response response :: messages, p =>
    accepts response (p response.id) && survives table messages (takePending response.id p).2

theorem survives_cons_some {table : Table σ} {allowAsync : Bool} {message : Jsonrpc.Message}
    {st : State σ} {r : Reaction σ} (hr : processMessage table allowAsync message st = some r)
    (messages : List Jsonrpc.Message) :
    survives table (message :: messages) st.m_pendingRequests =
      survives table messages r.state.m_pendingRequests := by
  cases message with
  | request request =>
    have hdecodes := processRequest_isSome table request allowAsync st
    rw [show processRequest table request allowAsync st = some r from hr] at hdecodes
    rw [survives, ← hdecodes, (processRequest_state hr).1]
    rfl
  | response response =>
    obtain ⟨st', hst', rfl⟩ := Option.map_eq_some_iff.mp hr
    have haccepts := processResponse_isSome response st
    rw [hst'] at haccepts
    rw [survives, ← haccepts, ← processResponse_state hst']
    rfl

theorem survives_cons_none {table : Table σ} {allowAsync : Bool} {message : Jsonrpc.Message}
    {st : State σ}
    (hr : processMessage table allowAsync message st = none) (messages : List Jsonrpc.Message) :
    survives table (message :: messages) st.m_pendingRequests = false := by
  cases message with
  | request request =>
    have hdecodes := processRequest_isSome table request allowAsync st
    rw [show processRequest table request allowAsync st = none from hr] at hdecodes
    rw [survives, ← hdecodes]
    rfl
  | response response =>
    have haccepts := processResponse_isSome response st
    rw [Option.map_eq_none_iff.mp hr] at haccepts
    rw [survives, ← haccepts]
    rfl

/-! ## What a step keeps -/

theorem submit_tasks (number : Nat) (task : Option (Task σ)) (pool : ThreadPool (Nat × Task σ)) :
    (submit number task pool).tasks.Perm ((task.map (Prod.mk number)).toList ++ pool.tasks) := by
  cases task with
  | none => exact .refl _
  | some task => exact ThreadPool.addTask_tasks _ pool

theorem singles_replies (replies : List Reply) :
    (replies.map Written.single).flatMap Written.replies = replies := by
  induction replies with
  | nil => rfl
  | cons a replies ih =>
    rw [List.map_cons, List.flatMap_cons, ih]
    rfl

theorem singles_arrays (replies : List Reply) :
    (replies.filterMap fun a => (Written.single a).array?) = [] := by
  induction replies with
  | nil => rfl
  | cons a replies ih => exact ih

namespace Run

structure Inv (table : Table σ) (messages : List Connection.Message)
    (pending : Pending (RequestResult σ)) (s : Run σ) : Prop where
  order : s.requests ++ s.ahead.flatMap requestsOf = (messages.flatMap elementsOf).flatMap requestsOf
  owed : Owed table s.requests (s.answers ++ s.responseBatch) s.pool.tasks
  arrays : s.arrays ++ nonempty (s.openArray table ++
      Handler.arrays table (s.requests.length + (s.rest.flatMap requestsOf).length) s.incoming) =
    nonempty (Handler.arrays table 0 messages)
  survives : (!s.terminated && Handler.survives table s.ahead s.state.m_pendingRequests) =
    Handler.survives table (messages.flatMap elementsOf) pending

theorem inv_start (table : Table σ) (messages : List Connection.Message) (st : State σ)
    (maxResponseThreads : Nat) :
    Inv table messages st.m_pendingRequests (start messages st maxResponseThreads) where
  order := rfl
  owed := .init table
  arrays := rfl
  survives := rfl

variable {table : Table σ} {messages : List Connection.Message}
    {pending : Pending (RequestResult σ)} {s s' : Run σ}

theorem ahead_single {message : Jsonrpc.Message} {incoming : List Connection.Message}
    (hbatch : s.batch = none) (hincoming : s.incoming = .single message :: incoming) :
    s.ahead = message :: incoming.flatMap elementsOf := by
  simp [ahead, rest, hbatch, hincoming, elementsOf]

theorem inv_single (h : Inv table messages pending s) {message : Jsonrpc.Message}
    {incoming : List Connection.Message} {r : Reaction σ} (hbatch : s.batch = none)
    (hincoming : s.incoming = .single message :: incoming)
    (hr : processMessage table true message s.state = some r) :
    Inv table messages pending { s.react message r with
      incoming := incoming
      written := s.written ++ (reply s.requests.length r.response).map .single } := by
  have hahead := ahead_single hbatch hincoming
  constructor
  · have := h.order
    rw [hahead, List.flatMap_cons, ← List.append_assoc] at this
    simpa [react, ahead, rest, hbatch] using this
  · apply (h.owed.process hr).perm
    · simp [answers, responseBatch, react, hbatch, singles_replies]
    · exact submit_tasks _ _ _
  · have := h.arrays
    simpa [Run.arrays, singles_arrays, openArray, react, rest, hbatch, hincoming,
      Handler.arrays] using this
  · have := h.survives
    rw [hahead, survives_cons_some hr] at this
    simpa [react, ahead, rest, hbatch] using this

theorem inv_openBatch (h : Inv table messages pending s) {batch : MessageBatch}
    {incoming : List Connection.Message} (hbatch : s.batch = none)
    (hincoming : s.incoming = .batch batch :: incoming) :
    Inv table messages pending { s with incoming := incoming, batch := some (batch, []) } := by
  have hahead : s.ahead = batch ++ incoming.flatMap elementsOf := by
    simp [ahead, rest, hbatch, hincoming, elementsOf]
  constructor
  · have := h.order
    rw [hahead] at this
    exact this
  · have := h.owed
    simpa [answers, responseBatch, hbatch] using this
  · have := h.arrays
    simpa [Run.arrays, openArray, rest, hbatch, hincoming, Handler.arrays] using this
  · have := h.survives
    rw [hahead] at this
    exact this

theorem inv_element (h : Inv table messages pending s) {message : Jsonrpc.Message}
    {batch : MessageBatch}
    {replies : List Reply} {r : Reaction σ} (hbatch : s.batch = some (message :: batch, replies))
    (hr : processMessage table false message s.state = some r) :
    Inv table messages pending { s.react message r with
      batch := some (batch, replies ++ reply s.requests.length r.response) } := by
  have hahead : s.ahead = message :: (batch ++ s.incoming.flatMap elementsOf) := by
    simp [ahead, rest, hbatch]
  constructor
  · have := h.order
    rw [hahead, List.flatMap_cons, ← List.append_assoc] at this
    simpa [react, ahead, rest] using this
  · apply (h.owed.process hr).perm
    · simp [answers, responseBatch, react, hbatch]
    · exact submit_tasks _ _ _
  · -- the due reply of the message moves from the rest of the batch to its responses
    have := h.arrays
    simpa [Run.arrays, openArray, react, rest, hbatch, reply_numbers hr, due_append,
      Nat.add_assoc] using this
  · have := h.survives
    rw [hahead, survives_cons_some hr] at this
    simpa [react, ahead, rest] using this

theorem inv_closeBatch (h : Inv table messages pending s) {replies : List Reply}
    (hbatch : s.batch = some ([], replies)) :
    Inv table messages pending { s with
      batch := none
      written := s.written ++ if replies.isEmpty then [] else [.batch replies] } := by
  have hahead : s.ahead = s.incoming.flatMap elementsOf := by simp [ahead, rest, hbatch]
  constructor
  · have := h.order
    rw [hahead] at this
    exact this
  · have := h.owed
    cases replies <;> simpa [answers, responseBatch, hbatch, Written.replies] using this
  · have := h.arrays
    cases replies <;>
      simpa [Run.arrays, openArray, rest, hbatch, nonempty, Written.array?] using this
  · have := h.survives
    rw [hahead] at this
    exact this

theorem inv_terminate (h : Inv table messages pending s)
    (hnot : Handler.survives table s.ahead s.state.m_pendingRequests = false) :
    Inv table messages pending { s with terminated := true } where
  order := h.order
  owed := h.owed
  arrays := h.arrays
  survives := by
    rw [← h.survives, hnot, Bool.and_false]
    rfl

theorem inv_take (h : Inv table messages pending s) {pool : ThreadPool (Nat × Task σ)}
    (htake : s.pool.take = some pool) : Inv table messages pending { s with pool } where
  order := h.order
  owed := h.owed.perm (.refl _) (ThreadPool.take_tasks htake)
  arrays := h.arrays
  survives := h.survives

theorem inv_finish (h : Inv table messages pending s) {i number : Nat} {task : Task σ}
    {pool : ThreadPool (Nat × Task σ)} (hfinish : s.pool.finish i = some ((number, task), pool)) :
    Inv table messages pending { s with
      pool
      state := (task.execute s.state).2
      written := s.written ++ (reply number (task.execute s.state).1).map .single } where
  order := h.order
  owed := by
    have howed := (h.owed.perm (.refl _) (ThreadPool.finish_tasks hfinish).symm).execute s.state
    refine howed.perm ?_ (.refl _)
    simp only [answers, responseBatch, List.flatMap_append, singles_replies, List.append_assoc]
    exact List.perm_append_comm.append_left _
  arrays := by
    have := h.arrays
    simpa [Run.arrays, singles_arrays, openArray, rest] using this
  survives := by
    have := h.survives
    rwa [← execute_m_pendingRequests task s.state] at this

theorem inv_step (hstep : Step table s s') (h : Inv table messages pending s) :
    Inv table messages pending s' := by
  cases hstep with
  | single halive hbatch hincoming hr => exact inv_single h hbatch hincoming hr
  | openBatch halive hbatch hincoming => exact inv_openBatch h hbatch hincoming
  | element halive hbatch hr => exact inv_element h hbatch hr
  | closeBatch halive hbatch => exact inv_closeBatch h hbatch
  | terminateSingle halive hbatch hincoming hr =>
    apply inv_terminate h
    rw [ahead_single hbatch hincoming]
    exact survives_cons_none hr _
  | terminateBatch halive hbatch hr =>
    apply inv_terminate h
    rw [ahead, rest, hbatch]
    exact survives_cons_none hr _
  | take halive htake => exact inv_take h htake
  | finish halive hfinish => exact inv_finish h hfinish

/-- **What every run keeps.** -/
theorem reachable_inv {s₀ : Run σ} (hs : Reachable table s₀ s) (h : Inv table messages pending s₀) :
    Inv table messages pending s := by
  induction hs with
  | refl => exact h
  | tail _ hstep ih => exact inv_step hstep ih

/-! ## The end of a run -/

/-- **A run ends when everything is done, or when the process terminated.** -/
theorem ended_cases (h : Ended table s) :
    s.terminated = true ∨
      (s.terminated = false ∧ s.incoming = [] ∧ s.batch = none ∧ s.pool.tasks = []) := by
  cases halive : s.terminated with
  | true => exact .inl rfl
  | false =>
    refine .inr ?_
    have hbatch : s.batch = none := by
      cases hbatch : s.batch with
      | none => rfl
      | some b =>
        obtain ⟨batch, replies⟩ := b
        cases batch with
        | nil => exact absurd (.closeBatch halive hbatch) (h _)
        | cons message batch =>
          cases hr : processMessage table false message s.state with
          | none => exact absurd (.terminateBatch halive hbatch hr) (h _)
          | some r => exact absurd (.element halive hbatch hr) (h _)
    refine ⟨rfl, ?_, hbatch, ?_⟩
    · cases hincoming : s.incoming with
      | nil => rfl
      | cons m messages =>
        cases m with
        | batch batch => exact absurd (.openBatch halive hbatch hincoming) (h _)
        | single message =>
          cases hr : processMessage table true message s.state with
          | none => exact absurd (.terminateSingle halive hbatch hincoming hr) (h _)
          | some r => exact absurd (.single halive hbatch hincoming hr) (h _)
    · by_contra htasks
      rcases ThreadPool.take_or_finish htasks with ⟨pool, htake⟩ | ⟨i, ⟨number, task⟩, pool, hfinish⟩
      · exact h _ (.take halive htake)
      · exact h _ (.finish halive hfinish)

theorem no_step (hincoming : s.incoming = []) (hbatch : s.batch = none) (htasks : s.pool.tasks = []) :
    Ended table s := by
  intro s' hstep
  cases hstep with
  | single _ _ h _ => rw [hincoming] at h; cases h
  | openBatch _ _ h => rw [hincoming] at h; cases h
  | element _ h _ => rw [hbatch] at h; cases h
  | closeBatch _ h => rw [hbatch] at h; cases h
  | terminateSingle _ _ h _ => rw [hincoming] at h; cases h
  | terminateBatch _ h _ => rw [hbatch] at h; cases h
  | take _ h => exact ThreadPool.tasks_ne_nil_of_take h htasks
  | finish _ h =>
    have hperm := ThreadPool.finish_tasks h
    rw [htasks] at hperm
    cases hperm.symm.eq_nil

end Run

end Incoming

end Lsp.Handler
