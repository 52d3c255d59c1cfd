import LspFramework.Json.Soundness
import LspFramework.Connection.Framing

/-!
# Frames that are cut off

A stream that ends inside a frame does not give a message (`readMessage_truncated`).  Where the cut is
decides how:

* inside a header line the loop over the line never ends;
* elsewhere in the header a `ConnectionError` is returned;
* in the content the read reports an error, or it reports success and leaves NUL behind what came in.
  No text of the grammar ends in NUL (`text_last`), so the parser rejects such a content.
-/

namespace Lsp.Connection

open Chars Loop InputReader Lsp.Json

/-! ## The last byte of a text -/

/-- The text has a last byte, which is not NUL. -/
def EndsProper (t : Bytes) : Prop := ∃ s c, t = s ++ [c] ∧ c ≠ 0

theorem EndsProper.prepend {t : Bytes} (h : EndsProper t) (s : Bytes) : EndsProper (s ++ t) := by
  obtain ⟨t, c, rfl, hc⟩ := h
  exact ⟨s ++ t, c, by rw [List.append_assoc], hc⟩

theorem endsProper_of_all {t : Bytes} (hne : t ≠ []) (h : ∀ c ∈ t, c ≠ 0) : EndsProper t :=
  ⟨t.dropLast, t.getLast hne, (List.dropLast_append_getLast hne).symm, h _ (List.getLast_mem hne)⟩

theorem isspace_ne_zero : ∀ c : UInt8, isspace c = true → c ≠ 0 :=
  forall_byte (by decide +kernel)

theorem isNumberChar_ne_zero : ∀ c : UInt8, isNumberChar c = true → c ≠ 0 :=
  forall_byte (by decide +kernel)

theorem scalar_last {t : Bytes} {v : Value} (h : Scalar t v) : EndsProper t := by
  cases h with
  | string hs =>
    obtain ⟨body, -, rfl, -⟩ := hs
    exact ⟨_, chr '"', rfl, by decide⟩
  | number hn =>
    obtain ⟨c, s, rfl, -⟩ := hn.head
    exact endsProper_of_all (by simp) fun c hc => isNumberChar_ne_zero c (hn.chars c hc)
  | true_ => exact endsProper_of_all (by decide) (by decide +kernel)
  | false_ => exact endsProper_of_all (by decide) (by decide +kernel)
  | null => exact endsProper_of_all (by decide) (by decide +kernel)

theorem elements_last {first : Bool} {t : Bytes} {vs : Array} (h : Elements first t vs) :
    EndsProper t := by
  induction vs generalizing first t with
  | nil =>
    cases h with
    | close _ => exact ⟨_, chr ']', rfl, by decide⟩
  | cons v vs ih =>
    cases h with
    | item _ _ h => exact (ih h).prepend _

theorem members_last {first : Bool} {t : Bytes} {ms : Object} (h : Members first t ms) :
    EndsProper t := by
  induction ms generalizing first t with
  | nil =>
    cases h with
    | close _ => exact ⟨_, chr '}', rfl, by decide⟩
  | cons m ms ih =>
    cases h with
    | item _ _ _ _ _ h => exact (ih h).prepend _

theorem derives_last {t : Bytes} {v : Value} (h : Derives t v) : EndsProper t := by
  cases h with
  | scalar hs => exact scalar_last hs
  | array he => exact (elements_last he).prepend [_]
  | object hm _ => exact (members_last hm).prepend [_]

/-- **A text does not end in NUL.** -/
theorem text_last {text : Bytes} {v : Value} (h : Text text v) : EndsProper text := by
  obtain ⟨w, t, w', -, ht, hw', rfl⟩ := h
  by_cases hne : w' = []
  · subst hne
    rw [List.append_nil]
    exact (derives_last ht).prepend w
  · exact (endsProper_of_all hne fun c hc => isspace_ne_zero c (hw' c hc)).prepend _

theorem not_endsProper_padded (s : Bytes) {k : Nat} (hk : k ≠ 0) :
    ¬EndsProper (s ++ List.replicate k 0) := by
  rintro ⟨t, c, heq, hc⟩
  obtain ⟨k, rfl⟩ := Nat.exists_eq_succ_of_ne_zero hk
  rw [List.replicate_succ', ← List.append_assoc] at heq
  have := List.append_inj_right' heq rfl
  exact hc (List.singleton_injective this).symm

/-- Padding with NUL makes a text of no value. -/
theorem parse_padded (s : Bytes) {k : Nat} (hk : k ≠ 0) (v : Value) :
    parse (s ++ List.replicate k 0) ≠ .ok v := by
  intro h
  exact not_endsProper_padded s hk (text_last ((parse_ok_iff _ _).mp h))

/-! ## The header of a part of a frame -/

/-- Two headers at the front of one text are the same. -/
theorem headerText_unique {header header' : MessageHeader} {p p' s s' : Bytes}
    (h : HeaderText {} p header) (h' : HeaderText {} p' header') (heq : p ++ CRLF ++ s = p' ++ CRLF ++ s') :
    header = header' ∧ s = s' := by
  let S : Stream := ⟨[], fun _ => none, 0⟩
  have hg := readMessageHeader_complete (S := S) h s
  have hg' := readMessageHeader_complete (S := S) h' s'
  rw [heq] at hg
  obtain ⟨n, hn⟩ := hg.exists_fuel
  have := hg'.only n _ hn
  simp only [Prod.mk.injEq, Except.ok.injEq, before, InputReader.mk.injEq, Stream.mk.injEq, and_true] at this
  exact this

/-- A whole header at the front of a part of a frame is the frame's, and content is missing behind it. -/
theorem FrameText.header_of_prefix (f : FrameText) {s t : Bytes} (hst : s ++ t = f.bytes) (ht : t ≠ [])
    {p rest : Bytes} {header : MessageHeader} (h : HeaderText {} p header) (hs : s = p ++ CRLF ++ rest) :
    rest.length < header.contentLength := by
  obtain ⟨header', h', hlen⟩ := f.complete
  have heq : p ++ CRLF ++ (rest ++ t) = f.lines.flatMap (· ++ CRLF) ++ CRLF ++ f.content := by
    rw [← List.append_assoc, ← hs, hst]
    rfl
  obtain ⟨rfl, hcontent⟩ := headerText_unique h h' heq
  have hpos := List.length_pos_iff.mpr ht
  rw [hlen, ← hcontent, List.length_append]
  omega

/-! ## Reading a part of a frame -/

/-- The ending is a `ConnectionError` whenever `readMessage` returns. -/
def Ending.Rejects (ending : Ending) : Prop := ending.Returns → ∃ e, ending = .error e

theorem decodeContent_padded (header : MessageHeader) (s : Bytes) {k : Nat} (hk : k ≠ 0) :
    (decodeContent header (s ++ List.replicate k 0)).1.Rejects := by
  have hparse := parse_padded s hk
  unfold decodeContent
  cases verifyContentType header.contentType with
  | error e => exact fun _ => ⟨e, rfl⟩
  | ok u =>
    cases hp : parse (s ++ List.replicate k 0) with
    | ok v => exact absurd hp (hparse v)
    | error x =>
      cases x with
      | error e => exact fun _ => ⟨_, rfl⟩
      | throws e => exact False.elim
      | fault f => exact False.elim

/-- A content that is cut off, for a read that reports an error and for one that reports success. -/
theorem endFrame_short (platform : Platform) (S : Stream) {header : MessageHeader} {rest : Bytes}
    (h : rest.length < header.contentLength) :
    (endMessage (endFrame platform (.ok header, before S rest))).ending.Rejects := by
  by_cases hmax : platform.maxSize < header.contentLength
  · rw [endFrame_of_max _ hmax]
    exact False.elim
  · cases hshort : S.onShort S.shorts with
    | some e =>
      simp only [endFrame, readBody, hmax, if_false, read_before_of_lt S rest h, hshort, endMessage]
      exact fun _ => ⟨e, rfl⟩
    | none =>
      simp only [endFrame, readBody, hmax, if_false, read_before_of_lt S rest h, hshort, endMessage]
      exact decodeContent_padded header rest (by omega)

theorem readMessage_diverges {platform : Platform} {S : Stream} {c : UInt8} {s : Bytes} (hc : c ≠ Eof)
    (h : Diverges fun n => readMessageHeader n {} (before S (c :: s))) :
    Diverges fun n => readMessage platform n { S with input := c :: s } := by
  have := (h.map (endFrame platform)).map endMessage
  simpa only [readMessage, readFrame_eq platform S hc] using this

theorem readMessage_gives {platform : Platform} {S : Stream} {c : UInt8} {s : Bytes} (hc : c ≠ Eof)
    {res : Except ConnectionError MessageHeader × InputReader}
    (h : Gives (fun n => readMessageHeader n {} (before S (c :: s))) res) :
    Gives (fun n => readMessage platform n { S with input := c :: s })
      (endMessage (endFrame platform res)) := by
  have := (h.map (endFrame platform)).map endMessage
  simpa only [readMessage, readFrame_eq platform S hc] using this

/-- A stream without a byte before its end. -/
theorem readMessage_empty (platform : Platform) (S : Stream) (fuel : Nat) {result : ReadResult}
    (h : readMessage platform fuel { S with input := [] } = some result) :
    ∃ e, result.ending = .error e := by
  have hpeek : (InputReader.mk { S with input := [] } none).peek =
      (Eof, ahead { S with shorts := S.shorts + 1 } Eof []) := peek_end S
  simp only [readMessage, readFrame, hpeek, if_true, Option.map_some, Option.some.injEq] at h
  exact ⟨_, by rw [← h]; rfl⟩

/-- **A frame with content that is cut off is not read as a message**: whenever `readMessage` returns on a
proper prefix of it, after which the stream ends, it returns a `ConnectionError`.  Whether a short read
reports success or an error is up to the stream. -/
theorem readMessage_truncated (platform : Platform) (f : FrameText) (S : Stream) {s t : Bytes}
    (hst : s ++ t = f.bytes) (ht : t ≠ []) (fuel : Nat) {result : ReadResult}
    (h : readMessage platform fuel { S with input := s } = some result) :
    (∀ message, result.ending ≠ .message message) ∧
      (result.ending.Returns → ∃ e, result.ending = .error e) := by
  have hrejects : result.ending.Rejects := by
    cases s with
    | nil => exact fun _ => readMessage_empty platform S fuel h
    | cons c s =>
      have hc : c ≠ Eof := by
        obtain ⟨header, hp, -⟩ := f.complete
        obtain ⟨d, u, heq, hd⟩ := hp.head f.content
        have hbytes : c :: (s ++ t) = d :: u := hst.trans heq
        rwa [(List.cons.inj hbytes).1]
      rcases readMessageHeader_outcome S {} (c :: s) with
        ⟨p, header, rest, hp, hs⟩ | ⟨p, header, u, hp, hs, hu⟩ | ⟨e, reader, he⟩
      · -- the content is cut off
        have hgives := readMessageHeader_complete (S := S) hp rest
        rw [← hs] at hgives
        rw [(readMessage_gives hc hgives).only fuel result h]
        exact endFrame_short platform S (f.header_of_prefix hst ht hp hs)
      · -- the cut is inside a header line
        have hdiv := readMessageHeader_unfinished (S := S) hp hu
        rw [← hs] at hdiv
        have hnone : readMessage platform fuel { S with input := c :: s } = none :=
          readMessage_diverges hc hdiv fuel
        rw [hnone] at h
        cases h
      · rw [(readMessage_gives hc he).only fuel result h]
        exact fun _ => ⟨e, rfl⟩
  refine ⟨?_, hrejects⟩
  intro message hm
  obtain ⟨e, he⟩ := hrejects (by rw [hm]; trivial)
  rw [hm] at he
  cases he

/-- The frame of `{}` without its last byte, from a stream that reports success for a short read. -/
theorem readMessage_truncated_object :
    ∃ fuel result, readMessage ⟨sizeMax, Nat.le_refl _⟩ fuel
        ⟨messageHeaderString { contentLength := 2 } ++ bytes "\x7b", fun _ => none, 0⟩ = some result ∧
      (∀ message, result.ending ≠ .message message) ∧
      (result.ending.Returns → ∃ e, result.ending = .error e) := by
  let S : Stream := ⟨[], fun _ => none, 0⟩
  have hlen : (bytes "\x7b\x7d").length ≤ sizeMax := by decide
  have hgives := (readFrame_complete ⟨sizeMax, Nat.le_refl _⟩ S (headerText_frame (n := 2) hlen)
    (bytes "\x7b")).map endMessage
  rw [← messageHeaderString_text] at hgives
  obtain ⟨fuel, hfuel⟩ := hgives.exists_fuel
  have hcut : messageHeaderString { contentLength := 2 } ++ bytes "\x7b" ++ bytes "\x7d" =
      (frameText (bytes "\x7b\x7d") hlen).bytes := by
    rw [frameText_bytes, List.append_assoc]
    rfl
  exact ⟨fuel, _, hfuel, readMessage_truncated _ (frameText (bytes "\x7b\x7d") hlen) S hcut (by decide) fuel
    hfuel⟩

end Lsp.Connection
