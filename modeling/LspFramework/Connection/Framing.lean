import LspFramework.Connection.HeaderLoop

/-!
# Frames

A `FrameText` is a frame with a valid header: any number of header lines, each non-empty and
without CR or LF, the content length last announced, and a content of that length.

    readMessage takes a `FrameText` off the stream and nothing behind it   (readMessage_consumes_frame)
    readFrame on `frame content ++ further` gives `content`                (readFrame_frame)
-/

namespace Lsp.Connection

open Chars Loop InputReader

/-! ## Frames with a valid header -/

/-- The length last announced, or zero. -/
def announced (lengths : List (Option Nat)) (n : Nat) : Nat := lengths.foldl (fun n o => o.getD n) n

structure FrameText where
  lines : List Bytes
  lengths : List (Option Nat)
  content : Bytes
  isLine : ∀ l ∈ lines, Line l
  announces : List.Forall₂ HeaderLine lines lengths
  length_eq : content.length = announced lengths 0

def FrameText.bytes (f : FrameText) : Bytes := f.lines.flatMap (· ++ CRLF) ++ CRLF ++ f.content

theorem headerText_of_lines {lines : List Bytes} {lengths : List (Option Nat)}
    (h : List.Forall₂ HeaderLine lines lengths) (hl : ∀ l ∈ lines, Line l) (header : MessageHeader) :
    ∃ header', HeaderText header (lines.flatMap (· ++ CRLF)) header' ∧
      header'.contentLength = announced lengths header.contentLength := by
  induction h generalizing header with
  | nil => exact ⟨header, .nil header, rfl⟩
  | @cons l n lines lengths hline _ ih =>
    obtain ⟨header₁, hp, hn⟩ := parseHeaderValue_line hline header
    obtain ⟨header', htext, hn'⟩ := ih (fun l h => hl l (List.mem_cons_of_mem _ h)) header₁
    refine ⟨header', .cons (hl l List.mem_cons_self) hp htext, ?_⟩
    rw [hn', hn]
    rfl

/-! ## Reading a frame -/

theorem HeaderText.head {header header' : MessageHeader} {p : Bytes} (h : HeaderText header p header')
    (s : Bytes) : ∃ c t, p ++ CRLF ++ s = c :: t ∧ c ≠ Eof := by
  cases h with
  | nil => exact ⟨_, _, rfl, by decide⟩
  | cons hl _ _ =>
    obtain ⟨c, l, rfl, hc⟩ := hl.head
    exact ⟨c, _, rfl, hc⟩

theorem readFrame_eq (platform : Platform) (S : Stream) {c : UInt8} {s : Bytes} (hc : c ≠ Eof) (n : Nat) :
    readFrame platform n { S with input := c :: s } =
      (readMessageHeader n {} (before S (c :: s))).map (endFrame platform) := by
  have hpeek : (InputReader.mk { S with input := c :: s } none).peek = (c, ahead S c s) := peek_before S c s
  simp only [readFrame, hpeek, hc, if_false, header_ahead]

theorem readFrame_complete (platform : Platform) (S : Stream) {header : MessageHeader} {p : Bytes}
    (h : HeaderText {} p header) (s : Bytes) :
    Gives (fun n => readFrame platform n { S with input := p ++ CRLF ++ s })
      (endFrame platform (.ok header, before S s)) := by
  have hgives := (readMessageHeader_complete (S := S) h s).map (endFrame platform)
  obtain ⟨c, t, heq, hc⟩ := h.head s
  rw [heq] at hgives ⊢
  simpa only [readFrame_eq platform S hc] using hgives

theorem endFrame_of_le {platform : Platform} {header : MessageHeader} (S : Stream) {s : Bytes}
    (hmax : header.contentLength ≤ platform.maxSize) (hlen : header.contentLength ≤ s.length) :
    endFrame platform (.ok header, before S s) =
      (.ok (header, s.take header.contentLength), { S with input := s.drop header.contentLength }) := by
  have hzero : header.contentLength - (s.take header.contentLength).length = 0 := by
    rw [List.length_take]
    omega
  simp only [endFrame, readBody, Nat.not_lt.mpr hmax, if_false, read_before_of_le S s hlen, hzero,
    List.replicate_zero, List.append_nil]
  rfl

theorem endFrame_of_max {platform : Platform} {header : MessageHeader} (reader : InputReader)
    (hmax : platform.maxSize < header.contentLength) :
    endFrame platform (.ok header, reader) = (.error (.throws .lengthError), reader.stream) := by
  simp only [endFrame, readBody, hmax, if_true]

theorem FrameText.complete (f : FrameText) :
    ∃ header, HeaderText {} (f.lines.flatMap (· ++ CRLF)) header ∧
      header.contentLength = f.content.length := by
  obtain ⟨header, h, hn⟩ := headerText_of_lines f.announces f.isLine {}
  exact ⟨header, h, hn.trans f.length_eq.symm⟩

/-- **The content of a frame is read and nothing behind it.** -/
theorem readFrame_frameText (platform : Platform) (f : FrameText) (S : Stream) (further : Bytes)
    (hmax : f.content.length ≤ platform.maxSize) :
    ∃ header, Gives (fun n => readFrame platform n { S with input := f.bytes ++ further })
      (.ok (header, f.content), { S with input := further }) := by
  obtain ⟨header, h, hn⟩ := f.complete
  have hgives := readFrame_complete platform S h (f.content ++ further)
  have hlen : header.contentLength ≤ (f.content ++ further).length := by
    rw [List.length_append]
    omega
  rw [endFrame_of_le S (by omega) hlen, hn, List.take_left, List.drop_left] at hgives
  refine ⟨header, ?_⟩
  simpa only [FrameText.bytes, List.append_assoc] using hgives

/-- A frame with more content than a string can hold. -/
theorem readFrame_oversized (platform : Platform) (f : FrameText) (S : Stream) (further : Bytes)
    (hmax : platform.maxSize < f.content.length) :
    ∃ stream, Gives (fun n => readFrame platform n { S with input := f.bytes ++ further })
      (.error (.throws .lengthError), stream) := by
  obtain ⟨header, h, hn⟩ := f.complete
  have hgives := readFrame_complete platform S h (f.content ++ further)
  rw [endFrame_of_max _ (by omega)] at hgives
  refine ⟨(before S (f.content ++ further)).stream, ?_⟩
  simpa only [FrameText.bytes, List.append_assoc] using hgives

theorem readMessage_frameText (platform : Platform) (f : FrameText) (S : Stream) (further : Bytes)
    (hmax : f.content.length ≤ platform.maxSize) :
    ∃ result, Gives (fun n => readMessage platform n { S with input := f.bytes ++ further }) result ∧
      result.stream = { S with input := further } := by
  obtain ⟨header, h⟩ := readFrame_frameText platform f S further hmax
  exact ⟨_, h.map endMessage, rfl⟩

/-- **Whenever `readMessage` returns it has taken the frame off the stream and nothing behind it**, and
it ends on every frame whose content a string can hold. -/
theorem readMessage_consumes_frame (platform : Platform) (f : FrameText) (S : Stream) (further : Bytes) :
    (∀ fuel result, readMessage platform fuel { S with input := f.bytes ++ further } = some result →
      result.ending.Returns → result.stream = { S with input := further }) ∧
    (f.content.length ≤ platform.maxSize →
      ∃ fuel result, readMessage platform fuel { S with input := f.bytes ++ further } = some result ∧
        result.stream = { S with input := further }) := by
  by_cases hmax : f.content.length ≤ platform.maxSize
  · obtain ⟨result, h, hstream⟩ := readMessage_frameText platform f S further hmax
    refine ⟨fun fuel result' hr _ => ?_, fun _ => ?_⟩
    · rw [h.only fuel result' hr, hstream]
    · obtain ⟨fuel, hfuel⟩ := h.exists_fuel
      exact ⟨fuel, result, hfuel, hstream⟩
  · obtain ⟨stream, h⟩ := readFrame_oversized platform f S further (Nat.lt_of_not_le hmax)
    refine ⟨fun fuel result hr hret => ?_, fun h => absurd h hmax⟩
    rw [(h.map endMessage).only fuel result hr] at hret
    exact hret.elim

/-- A header with an unknown field and a length in mixed case, in front of an empty batch. -/
theorem readMessage_consumes_mixed_case :
    ∃ fuel result, readMessage ⟨sizeMax, Nat.le_refl _⟩ fuel
      ⟨bytes "X\r\ncontent-LENGTH :2\r\n\r\n[]" ++ [1], fun _ => none, 0⟩ = some result ∧
      result.stream = ⟨[1], fun _ => none, 0⟩ := by
  have hunknown : HeaderLine (bytes "X") none := by
    refine .other ?_
    rintro ⟨key, value, heq, -, -⟩
    have hmem : chr ':' ∈ bytes "X" := by
      rw [heq]
      simp
    revert hmem
    decide
  have hlength : HeaderLine (bytes "content-LENGTH :2") (some 2) :=
    @HeaderLine.contentLength [] (bytes "content-LENGTH") (bytes " ") [] (bytes "2") [] (by simp) rfl
      (List.all_eq_true.mp rfl) (by simp) (by decide) (List.all_eq_true.mp rfl) (by simp) (by decide)
  let f : FrameText :=
    { lines := [bytes "X", bytes "content-LENGTH :2"]
      lengths := [none, some 2]
      content := bytes "[]"
      isLine := by
        intro l hl
        simp only [List.mem_cons, List.not_mem_nil, or_false] at hl
        rcases hl with rfl | rfl
        · exact line_of_all rfl
        · exact line_of_all rfl
      announces := .cons hunknown (.cons hlength .nil)
      length_eq := rfl }
  exact (readMessage_consumes_frame ⟨sizeMax, Nat.le_refl _⟩ f ⟨[], fun _ => none, 0⟩ [1]).2
    (show 2 ≤ sizeMax by decide)

/-- The frame a content is written in has a valid header. -/
def frameText (content : Bytes) (h : content.length ≤ sizeMax) : FrameText where
  lines := [bytes "Content-Length: " ++ natText content.length,
    bytes "Content-Type: application/vscode-jsonrpc; charset=utf-8"]
  lengths := [some content.length, none]
  content := content
  isLine := by
    intro l hl
    simp only [List.mem_cons, List.not_mem_nil, or_false] at hl
    rcases hl with rfl | rfl
    · exact (contentLength_line h).1
    · exact contentType_line.1
  announces := .cons (contentLength_line h).2 (.cons contentType_line.2 .nil)
  length_eq := rfl

theorem frameText_bytes (content : Bytes) (h : content.length ≤ sizeMax) :
    (frameText content h).bytes = frame content := by
  rw [frame, messageHeaderString_eq]
  simp [FrameText.bytes, frameText]

/-- **A written frame is read back as its content.** -/
theorem readFrame_frame (platform : Platform) (S : Stream) {content : Bytes}
    (h : content.length ≤ platform.maxSize) (further : Bytes) :
    ∃ header, Gives (fun n => readFrame platform n { S with input := frame content ++ further })
      (.ok (header, content), { S with input := further }) := by
  have hmax := h.trans platform.maxSize_le
  have := readFrame_frameText platform (frameText content hmax) S further h
  rwa [frameText_bytes] at this

theorem parseHeaderValue_contentLength {n : Nat} (hn : n ≤ sizeMax) :
    parseHeaderValue {} (bytes "Content-Length: " ++ natText n) = .ok { contentLength := n } := by
  have hds : ∀ c ∈ natText n, isdigit c = true := fun c hc => isdigit_of_mem_natText hc
  have hline : bytes "Content-Length: " ++ natText n =
      bytes "Content-Length" ++ chr ':' :: (bytes " " ++ natText n ++ []) := by simp [bytes]
  have htrim : trimWhitespace (bytes " " ++ natText n ++ []) = natText n :=
    trimWhitespace_pad (by decide +kernel) (by simp)
      (fun c hc => isspace_of_isdigit c (hds c (List.mem_of_mem_head? hc)))
      (fun c hc => isspace_of_isdigit c (hds c (List.mem_of_mem_getLast? hc)))
  have hfrom := fromChars_digits (r := []) hds (natText_ne_nil n) (valueOf_natText n) hn (by simp)
  rw [List.append_nil] at hfrom
  have hkey : equalCaseInsensitive (trimWhitespace (bytes "Content-Length")) (bytes "Content-Length") = true := by
    decide
  rw [hline, parseHeaderValue_field (by decide), if_pos hkey, htrim, hfrom]
  exact if_pos rfl

/-- The header of a written frame, with the content type a reader accepts. -/
theorem headerText_frame {n : Nat} (hn : n ≤ sizeMax) :
    HeaderText {} (bytes "Content-Length: " ++ natText n ++ CRLF ++
      (bytes "Content-Type: application/vscode-jsonrpc; charset=utf-8" ++ CRLF ++ []))
      { contentLength := n } :=
  .cons (contentLength_line hn).1 (parseHeaderValue_contentLength hn) (.cons contentType_line.1 rfl (.nil _))

/-- What is written before a content, as a header and the line break behind it. -/
theorem messageHeaderString_text (n : Nat) :
    messageHeaderString { contentLength := n } = bytes "Content-Length: " ++ natText n ++ CRLF ++
      (bytes "Content-Type: application/vscode-jsonrpc; charset=utf-8" ++ CRLF ++ []) ++ CRLF := by
  rw [messageHeaderString_eq]
  simp

/-- **A written frame is read as its content says.** -/
theorem readMessage_written (platform : Platform) (S : Stream) {content : Bytes}
    (h : content.length ≤ platform.maxSize) (further : Bytes) :
    Gives (fun n => readMessage platform n { S with input := frame content ++ further })
      (endMessage (.ok ({ contentLength := content.length }, content), { S with input := further })) := by
  have hgives := readFrame_complete platform S (headerText_frame (h.trans platform.maxSize_le))
    (content ++ further)
  rw [← messageHeaderString_text, endFrame_of_le S h (by simp), List.take_left, List.drop_left] at hgives
  rw [frame, List.append_assoc]
  exact hgives.map endMessage

end Lsp.Connection
