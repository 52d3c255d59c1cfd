import LspFramework.Connection.Wire
import LspFramework.Handler.Answers
import LspFramework.Handler.AutoReplies
import LspFramework.Handler.Calls

/-!
# A session, from bytes to bytes

One thread calls `processIncomingMessages` over and over on a stream in which the peer has put frames
with any contents: messages and batches, but also texts that are not JSON and JSON that is no message.
`readMessage` takes a frame, hands on its message or writes an error response; the message is processed
as in a `Run`, whose threads go on in between, and every message that is written ends up in a frame on
the output.  A frame that is no message costs its own bytes and nothing else:

    Reachable … s → the run of s is one on the messages of the frames                 (steps_inv)
    Reachable … s → no run from s is longer than the frames allow                     (steps_le_work)
    Ended … s → each request answered once, each bad frame complained of, and all of it readable
                                                                                      (session_answers)
-/

namespace Lsp.Connection

open Chars Loop Json Jsonrpc

/-! ## What a frame says -/

/-- The messages that `readMessage` returns. -/
def Ending.received : Ending → List Message
  | message m => [m]
  | _ => []

/-- `readMessage` is left by an exception, or never. -/
def Ending.aborts : Ending → Bool
  | message _ => false
  | error _ => false
  | _ => true

theorem Ending.aborts_eq_false {ending : Ending} (h : ending.Returns) : ending.aborts = false := by
  cases ending with
  | message m => rfl
  | error e => rfl
  | throws e => exact h.elim
  | terminates => exact h.elim
  | fault f => exact h.elim

namespace FrameText

/-- The header behind the lines. -/
def header (f : FrameText) : MessageHeader :=
  f.lines.foldl (fun header line => (parseHeaderValue header line).toOption.getD header) {}

def decoded (f : FrameText) : Ending × List Jsonrpc.Message := decodeContent f.header f.content

def received (f : FrameText) : List Message := f.decoded.1.received

/-- The error response that the content provokes, if it does. -/
def complaints (f : FrameText) : List Message := f.decoded.2.map .single

theorem headerText_foldl {lines : List Bytes} {lengths : List (Option Nat)}
    (h : List.Forall₂ HeaderLine lines lengths) (hl : ∀ l ∈ lines, Line l) (header : MessageHeader) :
    HeaderText header (lines.flatMap (· ++ CRLF))
        (lines.foldl (fun header line => (parseHeaderValue header line).toOption.getD header) header) ∧
      (lines.foldl (fun header line => (parseHeaderValue header line).toOption.getD header)
        header).contentLength = announced lengths header.contentLength := by
  induction h generalizing header with
  | nil => exact ⟨.nil header, rfl⟩
  | @cons l n lines lengths hline _ ih =>
    obtain ⟨header₁, hp, hn⟩ := parseHeaderValue_line hline header
    obtain ⟨htext, hn'⟩ := ih (fun l h => hl l (List.mem_cons_of_mem _ h)) header₁
    rw [List.foldl_cons, hp]
    refine ⟨.cons (hl l List.mem_cons_self) hp htext, ?_⟩
    rw [hn] at hn'
    exact hn'

/-- **What `readMessage` makes of a frame**, whatever comes behind it. -/
theorem readMessage_gives (platform : Platform) (f : FrameText) (S : Stream) (further : Bytes)
    (hmax : f.content.length ≤ platform.maxSize) :
    Gives (fun n => readMessage platform n { S with input := f.bytes ++ further })
      ⟨f.decoded.1, some f.content, { S with input := further }, f.decoded.2⟩ := by
  obtain ⟨h, hn⟩ := headerText_foldl f.announces f.isLine {}
  have hlength : f.header.contentLength = f.content.length := hn.trans f.length_eq.symm
  have hgives := readFrame_complete platform S h (f.content ++ further)
  rw [show f.lines.foldl _ _ = f.header from rfl,
    endFrame_of_le S (by omega) (by rw [List.length_append]; omega), hlength, List.take_left,
    List.drop_left] at hgives
  have hbytes : f.bytes ++ further = f.lines.flatMap (· ++ CRLF) ++ CRLF ++ (f.content ++ further) := by
    simp only [FrameText.bytes, List.append_assoc]
  rw [hbytes]
  exact hgives.map endMessage

theorem bytes_ne_nil (f : FrameText) : f.bytes ≠ [] := by
  simp [FrameText.bytes, CRLF]

end FrameText

end Lsp.Connection

namespace Lsp.Handler

open Chars Loop Json Jsonrpc Settling
open Connection (FrameText Platform Stream ReadResult ContentOf readMessage readMessages frame frameText
  sizeMax)

/-! ## The system -/

/-- The message of a call of `writeMessage`. -/
def Written.message : Written → Connection.Message
  | single reply => .single (.response reply.response)
  | batch replies => .batch (replies.map fun reply => .response reply.response)

structure Session (σ : Type) where
  stream : Stream
  run : Run σ
  /-- the messages written, each with the content of its frame -/
  log : List (Connection.Message × Bytes) := []
  /-- an exception has left `processIncomingMessages` -/
  aborted : Bool := false

/-- `writeMessage` of these messages. -/
structure Puts (messages : List Connection.Message) (log : List (Connection.Message × Bytes)) : Prop where
  messages : log.map Prod.fst = messages
  contents : ∀ e ∈ log, ContentOf e.1 e.2

theorem puts_map (messages : List Connection.Message) :
    Puts messages (messages.map fun m => (m, stringify m.toJson false)) where
  messages := by
    rw [List.map_map]
    exact List.map_id' _
  contents e he := by
    obtain ⟨m, -, rfl⟩ := List.mem_map.mp he
    exact ⟨m.toJson, .refl _, rfl⟩

section Session

variable {σ : Type}

namespace Session

def start (S : Stream) (frames : List FrameText) (st : State σ) (maxResponseThreads : Nat) : Session σ where
  stream := { S with input := frames.flatMap FrameText.bytes }
  run := .start [] st maxResponseThreads

/-- The bytes on the output. -/
def output (s : Session σ) : Bytes := s.log.flatMap fun e => frame e.2

/-- While the stream is empty the reader waits for the peer. -/
inductive Step (platform : Platform) (table : Table σ) : Session σ → Session σ → Prop
  | read {s : Session σ} {fuel : Nat} {result : ReadResult} {log : List (Connection.Message × Bytes)} :
      s.aborted = false → s.run.terminated = false → s.run.incoming = [] → s.run.batch = none →
      s.stream.input ≠ [] → readMessage platform fuel s.stream = some result →
      Puts (result.written.map .single) log →
      Step platform table s
        { stream := result.stream
          run := { s.run with incoming := result.ending.received }
          log := s.log ++ log
          aborted := result.ending.aborts }
  | work {s : Session σ} {run : Run σ} {log : List (Connection.Message × Bytes)} :
      s.aborted = false → Run.Step table s.run run →
      Puts ((run.written.drop s.run.written.length).map Written.message) log →
      Step platform table s { s with run, log := s.log ++ log }

def Reachable (platform : Platform) (table : Table σ) (s₀ s : Session σ) : Prop :=
  Relation.ReflTransGen (Step platform table) s₀ s

/-- Nothing more can happen. -/
def Ended (platform : Platform) (table : Table σ) (s : Session σ) : Prop := ∀ s', ¬ Step platform table s s'

end Session

/-! ## Runs -/

namespace Run

variable {table : Table σ} {s s' : Run σ}

/-- What is still to come does not matter to a step. -/
theorem step_more (hstep : Step table s s') (more : List Connection.Message) :
    Step table { s with incoming := s.incoming ++ more } { s' with incoming := s'.incoming ++ more } := by
  cases hstep with
  | single halive hbatch hincoming hr =>
    exact .single halive hbatch (by rw [hincoming]; rfl) hr
  | openBatch halive hbatch hincoming => exact .openBatch halive hbatch (by rw [hincoming]; rfl)
  | element halive hbatch hr => exact .element halive hbatch hr
  | closeBatch halive hbatch => exact .closeBatch halive hbatch
  | terminateSingle halive hbatch hincoming hr =>
    exact .terminateSingle halive hbatch (by rw [hincoming]; rfl) hr
  | terminateBatch halive hbatch hr => exact .terminateBatch halive hbatch hr
  | take halive htake => exact .take halive htake
  | finish halive hfinish => exact .finish halive hfinish

theorem step_written (hstep : Step table s s') : ∃ new, s'.written = s.written ++ new := by
  cases hstep with
  | single halive hbatch hincoming hr => exact ⟨_, rfl⟩
  | openBatch halive hbatch hincoming => exact ⟨[], (List.append_nil _).symm⟩
  | element halive hbatch hr => exact ⟨[], (List.append_nil _).symm⟩
  | closeBatch halive hbatch => exact ⟨_, rfl⟩
  | terminateSingle halive hbatch hincoming hr => exact ⟨[], (List.append_nil _).symm⟩
  | terminateBatch halive hbatch hr => exact ⟨[], (List.append_nil _).symm⟩
  | take halive htake => exact ⟨[], (List.append_nil _).symm⟩
  | finish halive hfinish => exact ⟨_, rfl⟩

theorem written_append_drop (hstep : Step table s s') :
    s.written ++ s'.written.drop s.written.length = s'.written := by
  obtain ⟨new, hnew⟩ := step_written hstep
  rw [hnew, List.drop_left]

/-- No batch is written empty. -/
theorem Inv.batch_ne_nil {messages : List Connection.Message} {pending : Pending (RequestResult σ)}
    (h : Inv table messages pending s) {replies : List Reply} (hmem : Written.batch replies ∈ s.written) :
    replies ≠ [] := by
  have harray : replies.map Reply.number ∈ nonempty (Handler.arrays table 0 messages) := by
    rw [← h.arrays]
    exact List.mem_append_left _ (List.mem_filterMap.mpr ⟨_, hmem, rfl⟩)
  have hne := (List.mem_filter.mp harray).2
  rintro rfl
  cases hne

end Run

/-! ## What is still to be done -/

namespace Run

def effort : Connection.Message → Nat
  | .single _ => 3
  | .batch messages => 3 * messages.length + 2

def weight (s : Run σ) : Nat :=
  (if s.terminated then 0 else 1) + (s.incoming.map effort).sum +
    (s.batch.map fun b => 3 * b.1.length + 1).getD 0 + 2 * s.pool.m_taskQueue.length + s.pool.running.length

variable {table : Table σ} {s s' : Run σ}

/-- **A step leaves less to do.** -/
theorem step_weight (hstep : Step table s s') : s'.weight < s.weight := by
  cases hstep with
  | @single message messages r _ hbatch hincoming _ =>
    obtain ⟨hqueue, hrunning⟩ := submit_length s.requests.length r.task s.pool
    simp only [weight, react, hincoming, List.map_cons, List.sum_cons, effort, hrunning]
    omega
  | openBatch _ hbatch hincoming =>
    simp [weight, hbatch, hincoming, effort]
    omega
  | @element message batch responseBatch r _ hbatch _ =>
    obtain ⟨hqueue, hrunning⟩ := submit_length s.requests.length r.task s.pool
    simp only [weight, react, hbatch, Option.map_some, Option.getD_some, List.length_cons, hrunning]
    omega
  | closeBatch _ hbatch => simp [weight, hbatch]
  | terminateSingle halive | terminateBatch halive => simp [weight, halive]
  | take _ htake =>
    obtain ⟨hqueue, hrunning⟩ := ThreadPool.take_length htake
    simp only [weight, hqueue, hrunning]
    omega
  | finish _ hfinish =>
    obtain ⟨hqueue, hrunning⟩ := ThreadPool.finish_length hfinish
    simp only [weight, hqueue, hrunning]
    omega

end Run

/-! ## What a session keeps -/

namespace Session

/-- The frames up to `rest` are taken; with the messages of the others still to come, the run is one
on the messages of all frames, and the log has what it wrote and the complaints. -/
structure Inv (table : Table σ) (S : Stream) (frames : List FrameText) (start : Run σ)
    (s : Session σ) (taken rest : List FrameText) : Prop where
  split : taken ++ rest = frames
  stream : s.stream = { S with input := rest.flatMap FrameText.bytes }
  runs : Run.Reachable table start
    { s.run with incoming := s.run.incoming ++ rest.flatMap FrameText.received }
  log : (s.log.map Prod.fst).Perm (s.run.written.map Written.message ++ taken.flatMap FrameText.complaints)
  contents : ∀ e ∈ s.log, ContentOf e.1 e.2
  aborted : s.aborted = true → ∃ f ∈ frames, f.decoded.1.aborts = true

/-- The most steps that a session on these frames can take. -/
def work (frames : List FrameText) : Nat :=
  ((frames.flatMap FrameText.received).map Run.effort).sum + frames.length + 1

/-- What there is to do when the frames of `rest` are still in the stream. -/
def weight (s : Session σ) (rest : List FrameText) : Nat :=
  Run.weight { s.run with incoming := s.run.incoming ++ rest.flatMap FrameText.received } + rest.length

variable {platform : Platform} {table : Table σ} {S : Stream} {frames taken rest : List FrameText}
  {start : Run σ} {s s' : Session σ}

theorem inv_read (hmax : ∀ f ∈ frames, f.content.length ≤ platform.maxSize)
    (h : Inv table S frames start s taken rest) (hincoming : s.run.incoming = [])
    (hinput : s.stream.input ≠ []) {fuel : Nat} {result : ReadResult}
    (hread : readMessage platform fuel s.stream = some result)
    {log : List (Connection.Message × Bytes)} (hputs : Puts (result.written.map .single) log) :
    ∃ f more, rest = f :: more ∧ Inv table S frames start
      { stream := result.stream
        run := { s.run with incoming := result.ending.received }
        log := s.log ++ log
        aborted := result.ending.aborts } (taken ++ [f]) more ∧ result.ending.received = f.received := by
  cases rest with
  | nil =>
    rw [h.stream] at hinput
    exact absurd rfl hinput
  | cons f more =>
    have hf : f ∈ frames := by
      rw [← h.split]
      simp
    have hgives := f.readMessage_gives platform S (more.flatMap FrameText.bytes) (hmax f hf)
    rw [h.stream] at hread
    obtain rfl := hgives.only fuel result hread
    refine ⟨f, more, rfl, ⟨?_, rfl, ?_, ?_, ?_, fun haborted => ⟨f, hf, haborted⟩⟩, rfl⟩
    · rw [List.append_assoc]
      exact h.split
    · have hrun := h.runs
      rw [hincoming] at hrun
      exact hrun
    · have hlog := h.log
      rw [List.map_append, hputs.messages, List.flatMap_append, List.flatMap_singleton, ← List.append_assoc]
      exact hlog.append_right _
    · intro e he
      rcases List.mem_append.mp he with he | he
      · exact h.contents e he
      · exact hputs.contents e he

theorem inv_work (h : Inv table S frames start s taken rest) {run : Run σ} (hstep : Run.Step table s.run run)
    {log : List (Connection.Message × Bytes)}
    (hputs : Puts ((run.written.drop s.run.written.length).map Written.message) log) :
    Inv table S frames start { s with run, log := s.log ++ log } taken rest where
  split := h.split
  stream := h.stream
  runs := h.runs.tail (Run.step_more hstep _)
  log := by
    show ((s.log ++ log).map Prod.fst).Perm (run.written.map Written.message ++ _)
    rw [List.map_append, hputs.messages, ← Run.written_append_drop hstep, List.map_append]
    refine (h.log.append_right _).trans ?_
    rw [List.append_assoc, List.append_assoc, List.drop_left]
    exact List.perm_append_comm.append_left _
  contents e he := by
    rcases List.mem_append.mp he with he | he
    · exact h.contents e he
    · exact hputs.contents e he
  aborted := h.aborted

/-- A frame that is read leaves the run on all messages as it is; any other step is one of this run. -/
theorem inv_step (hmax : ∀ f ∈ frames, f.content.length ≤ platform.maxSize)
    (hstep : Step platform table s s') (h : Inv table S frames start s taken rest) :
    ∃ taken' rest', Inv table S frames start s' taken' rest' ∧ s'.weight rest' < s.weight rest := by
  cases hstep with
  | read _ _ hincoming _ hinput hread hputs =>
    obtain ⟨f, more, rfl, hinv, hreceived⟩ := inv_read hmax h hincoming hinput hread hputs
    refine ⟨_, _, hinv, ?_⟩
    rw [weight, weight, hincoming, hreceived]
    exact Nat.lt_succ_self _
  | work _ hrun hputs =>
    exact ⟨_, _, inv_work h hrun hputs, Nat.add_lt_add_right (Run.step_weight (Run.step_more hrun _)) _⟩

theorem inv_start (table : Table σ) (S : Stream) (frames : List FrameText) (st : State σ)
    (maxResponseThreads : Nat) :
    Inv table S frames (.start (frames.flatMap FrameText.received) st maxResponseThreads)
      (Session.start S frames st maxResponseThreads) [] frames where
  split := rfl
  stream := rfl
  runs := .refl
  log := .refl _
  contents := List.forall_mem_nil _
  aborted h := absurd h Bool.false_ne_true

/-- **The run of a session is one on the messages of its frames**, and it does not go on for ever. -/
theorem steps_inv (hmax : ∀ f ∈ frames, f.content.length ≤ platform.maxSize) {n : Nat}
    (hs : Steps (Step platform table) n s s') (h : Inv table S frames start s taken rest) :
    ∃ taken' rest', Inv table S frames start s' taken' rest' ∧ n + s'.weight rest' ≤ s.weight rest := by
  induction hs with
  | refl => exact ⟨taken, rest, h, Nat.le_of_eq (Nat.zero_add _)⟩
  | tail _ hstep ih =>
    obtain ⟨taken', rest', h', hle⟩ := ih h
    obtain ⟨taken'', rest'', h'', hlt⟩ := inv_step hmax hstep h'
    exact ⟨taken'', rest'', h'', by omega⟩

theorem weight_start (S : Stream) (frames : List FrameText) (st : State σ) (maxResponseThreads : Nat) :
    (Session.start S frames st maxResponseThreads).weight frames = work frames := by
  simp [weight, Session.start, Run.weight, Run.start, ThreadPool.create, work]
  omega

/-- **Every session comes to an end**, however its threads go on. -/
theorem steps_le_work (hmax : ∀ f ∈ frames, f.content.length ≤ platform.maxSize) {st : State σ}
    {maxResponseThreads n m : Nat} (hs : Steps (Step platform table) n (.start S frames st maxResponseThreads) s)
    (hs' : Steps (Step platform table) m s s') : n + m ≤ work frames := by
  obtain ⟨taken, rest, -, hle⟩ :=
    steps_inv hmax (hs.trans hs') (inv_start table S frames st maxResponseThreads)
  rw [weight_start] at hle
  omega

/-! ## The end of a session -/

/-- **A session ends when all frames are read and everything is done**, when the process terminated, or
by an exception. -/
theorem ended_cases (hmax : ∀ f ∈ frames, f.content.length ≤ platform.maxSize)
    (h : Inv table S frames start s taken rest) (hend : Ended platform table s) :
    s.aborted = true ∨ s.run.terminated = true ∨
      (rest = [] ∧ s.run.incoming = [] ∧ s.run.batch = none ∧ s.run.pool.tasks = []) := by
  cases haborted : s.aborted with
  | true => exact .inl rfl
  | false =>
    refine .inr ?_
    have hrun : Run.Ended table s.run := by
      intro run hstep
      exact hend _ (.work haborted hstep (puts_map _))
    rcases Run.ended_cases hrun with hdead | ⟨halive, hincoming, hbatch, htasks⟩
    · exact .inl hdead
    · refine .inr ⟨?_, hincoming, hbatch, htasks⟩
      by_contra hrest
      obtain ⟨f, more, rfl⟩ := List.exists_cons_of_ne_nil hrest
      have hf : f ∈ frames := by
        rw [← h.split]
        simp
      have hgives := f.readMessage_gives platform S (more.flatMap FrameText.bytes) (hmax f hf)
      obtain ⟨fuel, hfuel⟩ := hgives.exists_fuel
      change readMessage platform fuel { S with input := (f :: more).flatMap FrameText.bytes } = _ at hfuel
      rw [← h.stream] at hfuel
      have hinput : s.stream.input ≠ [] := by
        rw [h.stream]
        exact fun hnil => f.bytes_ne_nil (List.append_eq_nil_iff.mp hnil).1
      exact hend _ (.read haborted halive hincoming hbatch hinput hfuel (puts_map _))

theorem no_step (hinput : s.stream.input = []) (hincoming : s.run.incoming = []) (hbatch : s.run.batch = none)
    (htasks : s.run.pool.tasks = []) : Ended platform table s := by
  intro s' hstep
  cases hstep with
  | read _ _ _ _ hne _ _ => exact hne hinput
  | work _ hrun _ => exact Run.no_step hincoming hbatch htasks _ hrun

end Session

/-! ## What the peer reads -/

theorem isAnswer_assertion {table : Table σ} {request : Request} {response : Response}
    (h : IsAnswer table request response) : response.assertion = true := by
  unfold IsAnswer at h
  split at h
  · obtain ⟨result, -, rfl⟩ := h
    cases result <;> rfl
  · rw [h]
    rfl

/-- The results and the data of the errors that handlers answer with are parsed back as they are. -/
def ExactAnswers (table : Table σ) : Prop :=
  ∀ request response, IsAnswer table request response → (Jsonrpc.Message.response response).Exact

theorem writable_complaint {f : FrameText} {message : Connection.Message} (h : message ∈ f.complaints) :
    message.Writable := by
  obtain ⟨m, hm, rfl⟩ := List.mem_map.mp h
  obtain ⟨code, text, rfl⟩ := decodeContent_written hm
  refine ⟨rfl, by rintro v ⟨⟩, ?_⟩
  rintro e ⟨⟩ v ⟨⟩

theorem Run.Inv.writable {table : Table σ} {messages : List Connection.Message}
    {pending : Pending (RequestResult σ)} {s : Run σ} (h : Run.Inv table messages pending s)
    (hexact : ExactAnswers table) {w : Written} (hw : w ∈ s.written) : w.message.Writable := by
  have hreply : ∀ a ∈ w.replies, Sendable (.response a.response) ∧
      (Jsonrpc.Message.response a.response).Exact := by
    intro a ha
    have hanswers : a ∈ s.answers ++ s.responseBatch :=
      List.mem_append_left _ (List.mem_flatMap.mpr ⟨w, hw, ha⟩)
    obtain ⟨request, -, hanswer⟩ := h.owed.answers a hanswers
    exact ⟨isAnswer_assertion hanswer, hexact request a.response hanswer⟩
  cases w with
  | single reply => exact hreply reply (List.mem_singleton.mpr rfl)
  | batch replies =>
    refine ⟨fun hnil => h.batch_ne_nil hw (List.map_eq_nil_iff.mp hnil), ?_⟩
    intro m hm
    obtain ⟨a, ha, rfl⟩ := List.mem_map.mp hm
    exact hreply a ha

theorem elements_message (written : List Written) :
    (written.map Written.message).flatMap elementsOf =
      (written.flatMap Written.replies).map fun a => .response a.response := by
  induction written with
  | nil => rfl
  | cons w written ih =>
    rw [List.map_cons, List.flatMap_cons, List.flatMap_cons, List.map_append, ih]
    cases w <;> rfl

/-- **A session on bytes.**  The peer has put frames with any contents in the stream.  No run is longer than
the frames allow, so the session comes to an end; and when the process is alive then, all frames are
taken; what is written are one answer for each request that is due one, wherever it stands among bad
frames, and the error responses that the bad frames provoke; and who reads the output gets a message like
each one written. -/
theorem session_answers (platform : Platform) {table : Table σ} {S : Stream} {frames : List FrameText}
    (hmax : ∀ f ∈ frames, f.content.length ≤ platform.maxSize) {st : State σ} {maxResponseThreads : Nat}
    {s : Session σ} (hs : Session.Reachable platform table (.start S frames st maxResponseThreads) s) :
    (∀ n s', Steps (Session.Step platform table) n s s' → n ≤ Session.work frames) ∧
    (∃ s', Session.Reachable platform table s s' ∧ Session.Ended platform table s') ∧
    (Session.Ended platform table s →
      ((∀ f ∈ frames, f.decoded.1.Returns) → Decoded table (frames.flatMap FrameText.received) st →
        s.aborted = false ∧ s.run.terminated = false) ∧
      (s.aborted = false → s.run.terminated = false →
        s.stream.input = [] ∧
        (∃ answers : List Reply,
          (answers.map Reply.number).Perm (due table 0 (requestsIn (frames.flatMap FrameText.received))) ∧
          (∀ a ∈ answers, AtRequest (requestsIn (frames.flatMap FrameText.received)) a.number
            fun request => IsAnswer table request a.response) ∧
          ((s.log.map Prod.fst).flatMap elementsOf).Perm
            (answers.map (fun a => .response a.response) ++
              (frames.flatMap FrameText.complaints).flatMap elementsOf)) ∧
        (ExactAnswers table → (∀ e ∈ s.log, e.2.length ≤ platform.maxSize) →
          ∀ S' : Stream, ∃ fuel results,
            readMessages platform fuel s.log.length { S' with input := s.output } = some results ∧
            List.Forall₂ Connection.Gets s.log results))) := by
  obtain ⟨n, hn⟩ := Steps.of_reflTransGen hs
  obtain ⟨taken, rest, h, -⟩ :=
    Session.steps_inv hmax hn (Session.inv_start table S frames st maxResponseThreads)
  have hrun := Run.reachable_inv h.runs (Run.inv_start table _ st maxResponseThreads)
  have hbound : ∀ n s', Steps (Session.Step platform table) n s s' → n ≤ Session.work frames := by
    intro m s' hs'
    have := Session.steps_le_work hmax hn hs'
    omega
  refine ⟨hbound, settles_of_bound hbound, fun hend => ⟨?_, ?_⟩⟩
  · intro hreturns hdecoded
    have hsurvives := hrun.survives.trans hdecoded
    rw [Bool.and_eq_true, Bool.not_eq_true'] at hsurvives
    refine ⟨?_, hsurvives.1⟩
    by_contra haborted
    obtain ⟨f, hf, haborts⟩ := h.aborted (by simpa using haborted)
    rw [Connection.Ending.aborts_eq_false (hreturns f hf)] at haborts
    cases haborts
  · intro haborted halive
    rcases Session.ended_cases hmax h hend with hdead | hdead | ⟨rfl, hincoming, hbatch, htasks⟩
    · exact absurd (haborted.symm.trans hdead) Bool.false_ne_true
    · exact absurd (halive.symm.trans hdead) Bool.false_ne_true
    have hlog := h.log
    rw [(List.append_nil taken).symm.trans h.split] at hlog
    obtain ⟨howed, -⟩ := hrun.complete (by rw [hincoming]; rfl) hbatch htasks
    refine ⟨by rw [h.stream]; rfl, ⟨s.run.answers, ?_, howed.answers, ?_⟩, ?_⟩
    · have hnumbers := howed.numbers
      rwa [telling, List.filter_nil, List.map_nil, List.append_nil] at hnumbers
    · have helements := hlog.flatMap_right elementsOf
      rwa [List.flatMap_append, elements_message] at helements
    · intro hexact hfits S'
      have hwritten : ∀ e ∈ s.log, e.1.Writable ∧ Connection.Emits platform e.1 e.2 := by
        intro e he
        refine ⟨?_, h.contents e he, hfits e he⟩
        rcases List.mem_append.mp (hlog.mem_iff.mp (List.mem_map_of_mem he)) with hmem | hmem
        · obtain ⟨w, hw, hmessage⟩ := List.mem_map.mp hmem
          rw [← hmessage]
          exact hrun.writable hexact hw
        · obtain ⟨f, -, hf⟩ := List.mem_flatMap.mp hmem
          exact writable_complaint hf
      obtain ⟨results, hgives, hgets⟩ := Connection.readMessages_get platform S' hwritten
      obtain ⟨fuel, hfuel⟩ := hgives.exists_fuel
      exact ⟨fuel, results, hfuel, hgets⟩

/-- A frame with a number, and one with a request of an unknown method. -/
theorem session_answers_methodNotFound :
    ∃ s : Session Unit, s.log.length = 2 ∧ (∃ answers : List Reply, answers.length = 1 ∧
      ((s.log.map Prod.fst).flatMap elementsOf).Perm
        (answers.map (fun a => .response a.response) ++ [Connection.errorReply Error.InvalidRequest
          (bytes "Message must be a json object or array")])) ∧
      ∃ fuel results, readMessages ⟨sizeMax, Nat.le_refl _⟩ fuel 2 ⟨s.output, fun _ => none, 0⟩ = some results ∧
        List.Forall₂ Connection.Gets s.log results := by
  let platform : Platform := ⟨sizeMax, Nat.le_refl _⟩
  let S : Stream := ⟨[], fun _ => none, 0⟩
  let table : Table Unit := fun _ => none
  let request : Request := ⟨some (.integer 7), bytes "a", none⟩
  let text : Bytes := bytes "Message must be a json object or array"
  let number : FrameText := frameText (stringify (.integer 1) false) (by decide +kernel)
  let message : FrameText :=
    frameText (stringify (.object (messageToJson (.request request))) false) (by decide +kernel)
  have hnumber : number.decoded = (.error text, [Connection.errorReply Error.InvalidRequest text]) := by
    have hparse := parse_text (text_stringify (exact_integer 1).1 (exact_integer 1).2 false)
    have htype : Connection.verifyContentType number.header.contentType = .ok () := by rfl
    unfold FrameText.decoded Connection.decodeContent
    rw [htype, show number.content = stringify (.integer 1) false from rfl, hparse]
  have hmessage : message.decoded = (.message (.single (.request request)), []) := by
    have hexact := (exact_messageToJson (show (Message.request request).Exact from by rintro v ⟨⟩)).object
    have hparse := parse_text (text_stringify hexact.1 hexact.2 false)
    have htype : Connection.verifyContentType message.header.contentType = .ok () := by rfl
    unfold FrameText.decoded Connection.decodeContent
    rw [htype, show message.content = stringify (.object (messageToJson (.request request))) false from rfl,
      hparse]
    rfl
  have hreceived : [number, message].flatMap FrameText.received = [.single (.request request)] := by
    rw [List.flatMap_cons, List.flatMap_singleton, FrameText.received, FrameText.received, hnumber, hmessage]
    rfl
  have hcomplaints : ([number, message].flatMap FrameText.complaints).flatMap elementsOf =
      [Connection.errorReply Error.InvalidRequest text] := by
    rw [List.flatMap_cons, List.flatMap_singleton, FrameText.complaints, FrameText.complaints, hnumber, hmessage]
    rfl
  have hmax : ∀ f ∈ [number, message], f.content.length ≤ platform.maxSize := by
    intro f hf
    simp only [List.mem_cons, List.not_mem_nil, or_false] at hf
    rcases hf with rfl | rfl <;> decide +kernel
  -- both frames are read, and the request is answered
  obtain ⟨fuel₁, hread₁⟩ := (number.readMessage_gives platform S ([message].flatMap FrameText.bytes)
    (hmax _ (by simp))).exists_fuel
  obtain ⟨fuel₂, hread₂⟩ := (message.readMessage_gives platform S [] (hmax _ (by simp))).exists_fuel
  rw [hnumber] at hread₁
  rw [hmessage] at hread₂
  have h₁ : Session.Reachable platform table (.start S [number, message] ⟨(), none, fun _ => none⟩ 1) _ :=
    .tail .refl (.read rfl rfl rfl rfl
      (fun hnil => number.bytes_ne_nil (List.append_eq_nil_iff.mp hnil).1) hread₁ (puts_map _))
  have h₂ := h₁.tail (.read rfl rfl rfl rfl
    (fun hnil => message.bytes_ne_nil (List.append_eq_nil_iff.mp hnil).1) hread₂ (puts_map _))
  have h₃ := h₂.tail (.work rfl (.single rfl rfl rfl rfl) (puts_map _))
  have hend := (session_answers platform hmax h₃).2.2 (Session.no_step rfl rfl rfl rfl)
  obtain ⟨-, ⟨answers, hnumbers, -, hperm⟩, hreads⟩ := hend.2 rfl rfl
  refine ⟨_, rfl, ⟨answers, ?_, ?_⟩, hreads ?_ ?_ S⟩
  · have hlength := hnumbers.length_eq
    rw [hreceived, List.length_map] at hlength
    exact hlength
  · rwa [hcomplaints] at hperm
  · intro r response hanswer
    rw [show response = methodNotFound (r.id.getD .null) from hanswer]
    exact ⟨by rintro v ⟨⟩, by rintro e ⟨⟩ v ⟨⟩⟩
  · intro e he
    rcases List.mem_cons.mp he with rfl | he
    · decide +kernel
    · rw [List.mem_singleton.mp he]
      decide +kernel

end Session

end Lsp.Handler
