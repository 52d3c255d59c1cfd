import LspFramework.Json.Soundness
import LspFramework.Jsonrpc.Shape
import LspFramework.Connection.Framing

/-!
# When `readMessage` returns

For every stream, `readMessage` returns a message or a `ConnectionError` unless

* the input ends inside a header line (`Endless`), where the loop over the line never ends;
* the header announces more content than a string can hold;
* the content leaves the parser by an exception or is misread as a message (`BadContent`).

    (∃ fuel result, readMessage platform fuel S = some result ∧ result.ending.Returns) ↔
      ¬(Endless S.input ∨ BadFrame platform S)                            (readMessage_returns_iff)
-/

namespace Lsp.Connection

open Chars Loop InputReader Lsp.Jsonrpc Lsp.Json

/-! ## What goes wrong -/

/-- Behind any number of whole header lines the input ends inside a line. -/
def Endless (s : Bytes) : Prop :=
  ∃ p header t, HeaderText {} p header ∧ s = p ++ t ∧ Unfinished t

/-- The content does not get through the parser, or through the conversion to a message. -/
def BadContent (content : Bytes) : Prop :=
  TextTraps content ∨ (∃ ms, Text content (.object ms) ∧ Misread ms) ∨
    ∃ vs, Text content (.array vs) ∧ BatchMisread vs

/-- The content in memory when `body` is what the stream has behind the header. -/
def stored (n : Nat) (body : Bytes) : Bytes := body.take n ++ List.replicate (n - body.length) 0

/-- The read of the body reports success. -/
def Arrives (S : Stream) (n : Nat) (body : Bytes) : Prop := n ≤ body.length ∨ S.onShort S.shorts = none

/-- A whole header with a content that cannot be stored, or that arrives and is bad. -/
def BadFrame (platform : Platform) (S : Stream) : Prop :=
  ∃ p header body, HeaderText {} p header ∧ S.input = p ++ CRLF ++ body ∧
    (platform.maxSize < header.contentLength ∨
      (Arrives S header.contentLength body ∧ verifyContentType header.contentType = .ok () ∧
        BadContent (stored header.contentLength body)))

/-! ## The content -/

theorem endingOf_returns_iff {α : Type} (f : α → Message) {r : Except Failure α} {ok bad : Prop}
    (h : Outcome r ok bad) : (endingOf f r).1.Returns ↔ ¬bad := by
  rw [← h.returns_iff]
  cases r with
  | ok a => simp [endingOf, Ending.Returns, Returns]
  | error e => cases e <;> simp [endingOf, Ending.Returns, Returns]

theorem decodeContent_returns_iff (header : MessageHeader) (content : Bytes) :
    (decodeContent header content).1.Returns ↔
      ¬(verifyContentType header.contentType = .ok () ∧ BadContent content) := by
  unfold decodeContent BadContent
  cases hv : verifyContentType header.contentType with
  | error e => simp [Ending.Returns]
  | ok u =>
    simp only [← parse_ok_iff, ← parse_throws_iff]
    cases hp : parse content with
    | error x =>
      cases x with
      | error e => simp [Ending.Returns]
      | throws e => simp [Ending.Returns]
      | fault f => exact absurd hp (parse_ne_fault content f)
    | ok v =>
      cases v with
      | object ms => simp [endingOf_returns_iff _ (messageFromJson_outcome ms)]
      | array vs => simp [endingOf_returns_iff _ (messageBatchFromJson_outcome vs)]
      | _ => simp [Ending.Returns]

/-! ## The frame -/

theorem readFrame_endless {platform : Platform} {S : Stream} (h : Endless S.input) :
    Diverges fun n => readFrame platform n S := by
  obtain ⟨p, header, t, hp, hs, ht⟩ := h
  have hdiv := (readMessageHeader_unfinished (S := S) hp ht).map (endFrame platform)
  have hhead : ∃ c u, p ++ t = c :: u ∧ c ≠ Eof := by
    cases hp with
    | nil =>
      obtain ⟨c, u, rfl, hc⟩ := ht.head
      exact ⟨c, u, rfl, hc⟩
    | cons hl _ _ =>
      obtain ⟨c, l, rfl, hc⟩ := hl.head
      exact ⟨c, _, rfl, hc⟩
  obtain ⟨c, u, heq, hc⟩ := hhead
  rw [heq] at hdiv hs
  have hS : S = { S with input := c :: u } := by rw [← hs]
  rw [hS]
  simpa only [readFrame_eq platform S hc] using hdiv

theorem readMessage_complete (platform : Platform) {S : Stream} {p b : Bytes} {header : MessageHeader}
    (hp : HeaderText {} p header) (hs : S.input = p ++ CRLF ++ b) :
    Gives (fun n => readMessage platform n S)
      (endMessage (endFrame platform (.ok header, before S b))) := by
  have hS : S = { S with input := p ++ CRLF ++ b } := by rw [← hs]
  have := (readFrame_complete platform S hp b).map endMessage
  rwa [← hS] at this

/-- What becomes of a frame with a whole header. -/
theorem endMessage_returns_iff (platform : Platform) (S : Stream) (header : MessageHeader) (body : Bytes) :
    (endMessage (endFrame platform (.ok header, before S body))).ending.Returns ↔
      ¬(platform.maxSize < header.contentLength ∨
        (Arrives S header.contentLength body ∧ verifyContentType header.contentType = .ok () ∧
          BadContent (stored header.contentLength body))) := by
  by_cases hmax : platform.maxSize < header.contentLength
  · rw [endFrame_of_max _ hmax]
    simp [endMessage, Ending.Returns, hmax]
  · by_cases hlen : header.contentLength ≤ body.length
    · have hstored : stored header.contentLength body = body.take header.contentLength := by
        simp [stored, hlen]
      rw [endFrame_of_le S (Nat.le_of_not_lt hmax) hlen, hstored]
      simp only [endMessage, decodeContent_returns_iff, hmax, Arrives, hlen, true_or, true_and, false_or]
    · have hstored : stored header.contentLength body =
          body ++ List.replicate (header.contentLength - body.length) 0 := by
        rw [stored, List.take_of_length_le (Nat.le_of_not_le hlen)]
      cases hshort : S.onShort S.shorts with
      | some e =>
        simp only [endFrame, readBody, hmax, if_false, read_before_of_lt S body (Nat.lt_of_not_le hlen),
          hshort, endMessage, Ending.Returns, Arrives, hlen, reduceCtorEq, or_self, false_and,
          not_false_eq_true]
      | none =>
        simp only [endFrame, readBody, hmax, if_false, read_before_of_lt S body (Nat.lt_of_not_le hlen),
          hshort, endMessage, decodeContent_returns_iff, hstored, Arrives, hlen, false_or, true_and]

/-! ## Every stream -/

theorem not_returns_of_diverges {platform : Platform} {S : Stream}
    (h : Diverges fun n => readFrame platform n S) :
    ¬∃ fuel result, readMessage platform fuel S = some result ∧ result.ending.Returns := by
  rintro ⟨fuel, result, hr, -⟩
  have hnone : readFrame platform fuel S = none := h fuel
  rw [readMessage, hnone] at hr
  cases hr

theorem returns_iff_of_gives {platform : Platform} {S : Stream} {result : ReadResult}
    (h : Gives (fun n => readMessage platform n S) result) :
    (∃ fuel result, readMessage platform fuel S = some result ∧ result.ending.Returns) ↔
      result.ending.Returns := by
  constructor
  · rintro ⟨fuel, result', hr, hret⟩
    rwa [h.only fuel result' hr] at hret
  · intro hret
    obtain ⟨fuel, hfuel⟩ := h.exists_fuel
    exact ⟨fuel, result, hfuel, hret⟩

theorem returns_of_error {platform : Platform} {S : Stream} {c : UInt8} {s : Bytes} (hs : S.input = c :: s)
    (hc : c ≠ Eof) {e : ConnectionError} {reader : InputReader}
    (h : Gives (fun n => readMessageHeader n {} (before S S.input)) (.error e, reader)) :
    ∃ fuel result, readMessage platform fuel S = some result ∧ result.ending.Returns := by
  have hS : S = { S with input := c :: s } := by rw [← hs]
  rw [hs] at h
  have hframe : Gives (fun n => readFrame platform n { S with input := c :: s })
      (endFrame platform (.error e, reader)) := by
    simpa only [readFrame_eq platform S hc] using h.map (endFrame platform)
  rw [← hS] at hframe
  exact (returns_iff_of_gives (hframe.map endMessage)).mpr trivial

/-- A stream that is at its end, or whose next byte is taken for the end. -/
theorem returns_of_eof {platform : Platform} {S : Stream}
    (h : (InputReader.mk S none).peek.1 = Eof) :
    ∃ fuel result, readMessage platform fuel S = some result ∧ result.ending.Returns := by
  have hframe : readFrame platform 0 S =
      some (.error (.error (bytes "Connection lost")), (InputReader.mk S none).peek.2.stream) := by
    simp only [readFrame, h, if_true]
  have hread : readMessage platform 0 S = some ⟨.error (bytes "Connection lost"), none,
      (InputReader.mk S none).peek.2.stream, []⟩ := by
    rw [readMessage, hframe]
    rfl
  exact ⟨0, _, hread, trivial⟩

/-- **`readMessage` returns on every stream but those that end inside a header line and those with a
frame whose content cannot be stored, parsed or converted.** -/
theorem readMessage_returns_iff (platform : Platform) (S : Stream) :
    (∃ fuel result, readMessage platform fuel S = some result ∧ result.ending.Returns) ↔
      ¬(Endless S.input ∨ BadFrame platform S) := by
  constructor
  · rintro hret (hendless | ⟨p, header, body, hp, hs, hbad⟩)
    · exact not_returns_of_diverges (readFrame_endless hendless) hret
    · have := (returns_iff_of_gives (readMessage_complete platform hp hs)).mp hret
      exact (endMessage_returns_iff platform S header body).mp this hbad
  · intro hgood
    by_cases heof : (InputReader.mk S none).peek.1 = Eof
    · exact returns_of_eof heof
    · obtain ⟨c, s, hs⟩ : ∃ c s, S.input = c :: s := by
        cases hs : S.input with
        | nil =>
          have : (InputReader.mk S none).peek.1 = Eof := by
            simp [InputReader.peek, InputReader.get, Stream.read, hs]
          exact absurd this heof
        | cons c s => exact ⟨c, s, rfl⟩
      have hc : c ≠ Eof := by
        rintro rfl
        exact heof (by simp [InputReader.peek, InputReader.get, Stream.read, hs])
      rcases readMessageHeader_outcome S {} S.input with
        ⟨p, header, body, hp, hbody⟩ | ⟨p, header, t, hp, ht, hun⟩ | ⟨e, reader, h⟩
      · refine (returns_iff_of_gives (readMessage_complete platform hp hbody)).mpr ?_
        exact (endMessage_returns_iff platform S header body).mpr fun hbad =>
          hgood (.inr ⟨p, header, body, hp, hbody, hbad⟩)
      · exact absurd (.inl ⟨p, header, t, hp, ht, hun⟩) hgood
      · exact returns_of_error hs hc h

/-- A stream that ends behind the first byte of a header line, and one whose content is the number
`1e999`, at which `std::stod` throws. -/
theorem readMessage_not_returns :
    (¬∃ fuel result, readMessage ⟨sizeMax, Nat.le_refl _⟩ fuel ⟨bytes "C", fun _ => none, 0⟩ = some result ∧
      result.ending.Returns) ∧
    (¬∃ fuel result, readMessage ⟨sizeMax, Nat.le_refl _⟩ fuel
      ⟨bytes "C", fun _ => some (bytes "Failed to read from socket"), 0⟩ = some result ∧
      result.ending.Returns) ∧
    ¬∃ fuel result, readMessage ⟨sizeMax, Nat.le_refl _⟩ fuel
      ⟨frame (bytes "1e999"), fun _ => none, 0⟩ = some result ∧ result.ending.Returns := by
  have hline : Endless (bytes "C") :=
    ⟨[], {}, bytes "C", .nil _, rfl, ⟨⟨_, _, rfl, by decide⟩, by decide, by decide⟩⟩
  refine ⟨not_returns_of_diverges (readFrame_endless hline),
    not_returns_of_diverges (readFrame_endless hline), ?_⟩
  have hframe : frame (bytes "1e999") = bytes "Content-Length: " ++ natText 5 ++ CRLF ++
      (bytes "Content-Type: application/vscode-jsonrpc; charset=utf-8" ++ CRLF ++ []) ++ CRLF ++
      bytes "1e999" := by
    rw [← messageHeaderString_text]
    rfl
  intro hret
  have := (returns_iff_of_gives (readMessage_complete _ (headerText_frame (n := 5) (by decide)) hframe)).mp hret
  refine (endMessage_returns_iff _ _ _ _).mp this (.inr ⟨.inr rfl, rfl, .inl ?_⟩)
  exact textTraps_outOfRange

end Lsp.Connection
