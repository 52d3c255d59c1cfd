import LspFramework.Lib.Writers
import LspFramework.Connection.Framing

/-!
# Writers and a reader

Any number of threads call `writeMessage`; each call takes `m_writeMutex` and writes one frame.
`Taken S contents results`: successive calls of `readMessage` took these contents, each stopping at
the first byte of the next frame.  On what the threads have written, whenever none of them is in its
critical section, the reader takes exactly the contents of the messages, in the order in which the
mutex was taken:

    Reachable … s → s.holder = none → … Taken S contents results          (reader_takes_written)
-/

namespace Lsp.Connection

open Chars Loop

/-! ## The reader -/

inductive Taken (S : Stream) : List Bytes → List ReadResult → Prop
  | nil : Taken S [] []
  | cons {content : Bytes} {contents : List Bytes} {result : ReadResult} {results : List ReadResult} :
      result.content = some content → result.stream = { S with input := contents.flatMap frame } →
      Taken S contents results → Taken S (content :: contents) (result :: results)

theorem readMessage_frame (platform : Platform) (S : Stream) {content : Bytes}
    (h : content.length ≤ platform.maxSize) (further : Bytes) :
    ∃ result, Gives (fun n => readMessage platform n { S with input := frame content ++ further }) result ∧
      result.content = some content ∧ result.stream = { S with input := further } := by
  obtain ⟨header, hgives⟩ := readFrame_frame platform S h further
  exact ⟨_, hgives.map endMessage, rfl, rfl⟩

/-- **Every frame is taken whole and nothing more.** -/
theorem readMessages_frames (platform : Platform) (S : Stream) {contents : List Bytes}
    (h : ∀ content ∈ contents, content.length ≤ platform.maxSize) :
    ∃ results, Gives (fun n => readMessages platform n contents.length
      { S with input := contents.flatMap frame }) results ∧ Taken S contents results := by
  induction contents with
  | nil => exact ⟨[], .const _, .nil⟩
  | cons content contents ih =>
    obtain ⟨result, hgives, hcontent, hstream⟩ :=
      readMessage_frame platform S (h content List.mem_cons_self) (contents.flatMap frame)
    obtain ⟨results, hgives', htaken⟩ := ih fun c hc => h c (List.mem_cons_of_mem _ hc)
    refine ⟨result :: results, ?_, .cons hcontent hstream htaken⟩
    rw [← hstream] at hgives'
    exact hgives.bind (g := fun result n => (readMessages platform n contents.length result.stream).map
      (result :: ·)) (hgives'.map (result :: ·))

/-! ## The writers -/

/-- `writeMessage` writes a content of the message that a string can hold. -/
def Emits (platform : Platform) (message : Message) (content : Bytes) : Prop :=
  ContentOf message content ∧ content.length ≤ platform.maxSize

abbrev WriterState (τ : Type) := Writers.State τ Message Bytes UInt8

def contentsOf {τ : Type} (log : List (τ × Message × Bytes)) : List Bytes := log.map fun e => e.2.2

/-- **The reader takes what was written, message by message.** -/
theorem reader_takes_written (platform : Platform) {τ : Type} [DecidableEq τ] (messages : τ → List Message)
    (s : WriterState τ) (hs : Writers.Reachable (Emits platform) frame messages s)
    (hidle : s.holder = none) (S : Stream) :
    (∀ t, Writers.itemsOf t s.log ++ s.waiting t = messages t) ∧
    (∀ e ∈ s.log, ContentOf e.2.1 e.2.2) ∧
    ∃ fuel results, readMessages platform fuel s.log.length { S with input := s.output } = some results ∧
      Taken S (contentsOf s.log) results := by
  have hinv := Writers.reachable_inv hs
  refine ⟨hinv.order, fun e he => (hinv.emitted e he).1, ?_⟩
  have hmax : ∀ content ∈ contentsOf s.log, content.length ≤ platform.maxSize := by
    intro content hc
    obtain ⟨e, he, rfl⟩ := List.mem_map.mp hc
    exact (hinv.emitted e he).2
  have hout : s.output = (contentsOf s.log).flatMap frame := by
    have := hinv.output
    rw [Writers.State.pending, hidle, List.append_nil] at this
    rw [this, contentsOf, List.flatMap_map]
  obtain ⟨results, hgives, htaken⟩ := readMessages_frames platform S hmax
  obtain ⟨fuel, hfuel⟩ := hgives.exists_fuel
  refine ⟨fuel, results, ?_, htaken⟩
  rw [hout]
  simpa only [contentsOf, List.length_map] using hfuel

def notification (method : String) : Message := .single (.request ⟨none, bytes method, none⟩)

/-- Two threads write notifications, the one between the two of the other. -/
theorem reader_takes_notification :
    ∃ s : WriterState Bool, s.log.map Prod.fst = [true, false, true] ∧
      contentsOf s.log = [bytes "\x7b\"jsonrpc\":\"2.0\",\"method\":\"a\"\x7d",
        bytes "\x7b\"jsonrpc\":\"2.0\",\"method\":\"b\"\x7d",
        bytes "\x7b\"jsonrpc\":\"2.0\",\"method\":\"c\"\x7d"] ∧
      ∃ fuel results, readMessages ⟨sizeMax, Nat.le_refl _⟩ fuel 3 ⟨s.output, fun _ => none, 0⟩ = some results ∧
        Taken ⟨[], fun _ => none, 0⟩ (contentsOf s.log) results := by
  let platform : Platform := ⟨sizeMax, Nat.le_refl _⟩
  let messages : Bool → List Message := fun t =>
    if t then [notification "a", notification "c"] else [notification "b"]
  have ha : Emits platform (notification "a") (bytes "\x7b\"jsonrpc\":\"2.0\",\"method\":\"a\"\x7d") :=
    ⟨⟨_, .refl _, by decide +kernel⟩, by decide⟩
  have hb : Emits platform (notification "b") (bytes "\x7b\"jsonrpc\":\"2.0\",\"method\":\"b\"\x7d") :=
    ⟨⟨_, .refl _, by decide +kernel⟩, by decide⟩
  have hc : Emits platform (notification "c") (bytes "\x7b\"jsonrpc\":\"2.0\",\"method\":\"c\"\x7d") :=
    ⟨⟨_, .refl _, by decide +kernel⟩, by decide⟩
  have hstart : Writers.Reachable (Emits platform) frame messages (Writers.init messages) := .refl
  have hreach := ((hstart.turn rfl (t := true) rfl ha).turn rfl (t := false) rfl hb).turn rfl (t := true) rfl hc
  exact ⟨_, rfl, rfl, (reader_takes_written platform messages _ hreach rfl ⟨[], fun _ => none, 0⟩).2.2⟩

end Lsp.Connection
