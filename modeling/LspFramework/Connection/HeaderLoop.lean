import LspFramework.Connection.Message

/-!
# What a header is to the reader

`HeaderText header p header'`: the text `p` is a sequence of lines, each ended by CRLF, that turns
`header` into `header'`.  A stream is such a sequence up to a place where

* the empty line stands: the reader stops behind it (`readMessageHeader_complete`);
* the input ends inside a line: the loop goes on for ever (`readMessageHeader_unfinished`);
* anything else stands: a `ConnectionError` is returned.

These are all cases (`readMessageHeader_outcome`, by induction on the length of the stream).
-/

namespace Lsp.Connection

open Chars Loop InputReader

/-! ## One line -/

inductive HeaderText : MessageHeader → Bytes → MessageHeader → Prop
  | nil (header : MessageHeader) : HeaderText header [] header
  | cons {header header' header'' : MessageHeader} {l p : Bytes} : Line l →
      parseHeaderValue header l = .ok header' → HeaderText header' p header'' →
      HeaderText header (l ++ CRLF ++ p) header''

/-- The input ends inside a line. -/
def Unfinished (t : Bytes) : Prop := Line t

section Turn

variable {S : Stream} {acc : Bytes} {c : UInt8} {s : Bytes}

theorem lineTurn_ahead : lineTurn (ahead S c s, acc) = lineTurn (before S (c :: s), acc) := by
  unfold lineTurn
  rw [peek_ahead, peek_before]

theorem lineTurn_char (hcr : c ≠ chr '\r') (hlf : c ≠ chr '\n') :
    lineTurn (before S (c :: s), acc) = .next (before S s, acc ++ [c]) := by
  simp only [lineTurn, peek_before, get_ahead, ne_eq, hcr, not_false_eq_true, if_true, hlf, if_false]

theorem lineTurn_cr : lineTurn (before S (chr '\r' :: s), acc) = .done (.ok acc, ahead S (chr '\r') s) := by
  simp only [lineTurn, peek_before, ne_eq, not_true_eq_false, if_false]

theorem lineTurn_lf :
    lineTurn (before S (chr '\n' :: s), acc) =
      .done (.error (bytes "Protocol: Unexpected '\\n' in header field, expected '\\r\\n'"),
        before S s) := by
  have hne : chr '\n' ≠ chr '\r' := by decide
  simp only [lineTurn, peek_before, get_ahead, ne_eq, hne, not_false_eq_true, if_true]

/-- At the end of the input a round takes `Eof` for a character of the line. -/
theorem lineTurn_end :
    lineTurn (before S [], acc) =
      .next (before { S with shorts := S.shorts + 1 } [], acc ++ [Eof]) := by
  have hcr : Eof ≠ chr '\r' := by decide
  have hlf : Eof ≠ chr '\n' := by decide
  simp only [lineTurn, peek_end, get_ahead, ne_eq, hcr, not_false_eq_true, if_true, hlf, if_false]

theorem reaches_line {l : Bytes} (hcr : 13 ∉ l) (hlf : 10 ∉ l) (acc r : Bytes) :
    Reaches lineTurn (before S (l ++ r), acc) (before S r, acc ++ l) := by
  induction l generalizing acc with
  | nil =>
    rw [List.nil_append, List.append_nil]
    exact .refl _
  | cons c l ih =>
    simp only [List.mem_cons, not_or] at hcr hlf
    have hrest := ih hcr.2 hlf.2 (acc ++ [c])
    rw [List.append_assoc, List.singleton_append] at hrest
    exact .head (lineTurn_char (Ne.symm hcr.1) (Ne.symm hlf.1)) hrest

/-- The loop over a line never ends when the input ends first. -/
theorem lineTurn_diverges (n : Nat) : run lineTurn n (before S [], acc) = none := by
  refine run_eq_none_of_invariant (I := fun st => ∃ S, st.1 = before S []) ?_ ⟨S, rfl⟩ n
  rintro ⟨reader, acc⟩ ⟨S, rfl⟩
  exact ⟨_, lineTurn_end, _, rfl⟩

end Turn

/-! ## One field -/

section Field

variable {S : Stream} {header : MessageHeader} {c : UInt8} {s : Bytes}

theorem run_lineTurn_ahead (n : Nat) :
    run lineTurn n (ahead S c s, []) = run lineTurn n (before S (c :: s), []) := by
  cases n with
  | zero => rfl
  | succ n => rw [run, run, lineTurn_ahead]

theorem field_eq (hc : c ≠ Eof) (n : Nat) :
    readNextMessageHeaderField n header (ahead S c s) =
      (run lineTurn n (before S (c :: s), [])).map (endHeaderField header) := by
  unfold readNextMessageHeaderField
  rw [peek_ahead]
  exact (if_neg hc).trans (by rw [run_lineTurn_ahead])

theorem field_eof (n : Nat) : readNextMessageHeaderField n header (ahead S Eof s) =
    some (.error (bytes "Connection lost"), ahead S Eof s) := by
  unfold readNextMessageHeaderField
  rw [peek_ahead]
  exact if_pos rfl

/-- The loop over a line stops at the first CR or LF. -/
theorem ends_line {l : Bytes} (hcr : 13 ∉ l) (hlf : 10 ∉ l) (r : Bytes) :
    Ends lineTurn (before S (l ++ chr '\r' :: r), []) (.ok l, ahead S (chr '\r') r) := by
  have h := reaches_line (S := S) hcr hlf [] (chr '\r' :: r)
  exact (h.ends_iff _).2 (ends_done lineTurn_cr)

theorem ends_lf {l : Bytes} (hcr : 13 ∉ l) (hlf : 10 ∉ l) (r : Bytes) :
    Ends lineTurn (before S (l ++ chr '\n' :: r), [])
      (.error (bytes "Protocol: Unexpected '\\n' in header field, expected '\\r\\n'"),
        before S r) := by
  have h := reaches_line (S := S) hcr hlf [] (chr '\n' :: r)
  exact (h.ends_iff _).2 (ends_done lineTurn_lf)

theorem diverges_line {l : Bytes} (hcr : 13 ∉ l) (hlf : 10 ∉ l) :
    Diverges fun n => run lineTurn n (before S l, []) := by
  intro n
  have h := reaches_line (S := S) hcr hlf [] []
  rw [List.append_nil] at h
  exact h.run_eq_none lineTurn_diverges n

end Field

/-! ## The header -/

section Header

variable {S : Stream} {header header' : MessageHeader} {c : UInt8} {s : Bytes}

theorem lacksCRLF_ahead (s : Bytes) : lacksCRLF (ahead S (chr '\r') (chr '\n' :: s)) = (false, before S s) := by
  simp [lacksCRLF]

theorem endHeaderField_crlf {l : Bytes} (h : parseHeaderValue header l = .ok header') (s : Bytes) :
    endHeaderField header (.ok l, ahead S (chr '\r') (chr '\n' :: s)) = (.ok header', before S s) := by
  simp only [endHeaderField, h, lacksCRLF_ahead, Bool.false_eq_true, if_false]

/-- A line that cannot be read, or with something else than LF behind its CR. -/
theorem endHeaderField_error {l : Bytes} {reader : InputReader}
    (h : ∀ header', parseHeaderValue header l = .ok header' → (lacksCRLF reader).1 = true) :
    ∃ e reader', endHeaderField header (.ok l, reader) = (.error e, reader') := by
  cases hp : parseHeaderValue header l with
  | error e =>
    simp only [endHeaderField, hp]
    exact ⟨_, _, rfl⟩
  | ok header' =>
    simp only [endHeaderField, hp, h header' hp, if_true]
    exact ⟨_, _, rfl⟩

theorem header_ahead (n : Nat) :
    readMessageHeader n header (ahead S c s) = readMessageHeader n header (before S (c :: s)) := by
  cases n with
  | zero => rfl
  | succ n => rw [readMessageHeader, readMessageHeader, peek_ahead, peek_before]

theorem header_crlf (s : Bytes) (n : Nat) :
    readMessageHeader (n + 1) header (before S (CRLF ++ s)) = some (.ok header, before S s) := by
  show readMessageHeader (n + 1) header (before S (chr '\r' :: chr '\n' :: s)) = _
  simp only [readMessageHeader, peek_before, ne_eq, not_true_eq_false, if_false, lacksCRLF_ahead,
    Bool.false_eq_true]

/-- `readMessageHeader` behind a field. -/
def afterField (res : Except ConnectionError MessageHeader × InputReader) (n : Nat) :
    Option (Except ConnectionError MessageHeader × InputReader) :=
  match res.1 with
  | .error e => some (.error e, res.2)
  | .ok header => readMessageHeader n header res.2

theorem header_field (hc : c ≠ chr '\r') (n : Nat) :
    readMessageHeader (n + 1) header (before S (c :: s)) =
      (readNextMessageHeaderField n header (ahead S c s)).bind fun res => afterField res n := by
  simp only [readMessageHeader, peek_before, ne_eq, hc, not_false_eq_true, if_true]
  congr 1
  funext res
  obtain ⟨_ | _, reader⟩ := res <;> rfl

theorem head_ne_cr {l : Bytes} (h : 13 ∉ l) (hl : l = c :: s) : c ≠ chr '\r' := by
  rintro rfl
  exact h (hl ▸ List.mem_cons_self)

theorem header_text_eq (header : MessageHeader) (hcr : c ≠ chr '\r') (heof : c ≠ Eof) (n : Nat) :
    readMessageHeader (n + 1) header (before S (c :: s)) =
      ((run lineTurn n (before S (c :: s), [])).map (endHeaderField header)).bind
        fun res => afterField res n := by
  rw [header_field hcr, field_eq heof]

theorem header_line_eq (header : MessageHeader) {l : Bytes} (hl : Line l) (s : Bytes) (n : Nat) :
    readMessageHeader (n + 1) header (before S (l ++ s)) =
      ((run lineTurn n (before S (l ++ s), [])).map (endHeaderField header)).bind
        fun res => afterField res n := by
  obtain ⟨c, l', rfl, hc⟩ := hl.head
  exact header_text_eq header (head_ne_cr hl.cr rfl) hc n

/-- **A line and its CRLF are read**, and the loop goes on behind them. -/
theorem header_line {l : Bytes} (hl : Line l) (hp : parseHeaderValue header l = .ok header') (s : Bytes) :
    Gives (fun n => (run lineTurn n (before S (l ++ CRLF ++ s), [])).map (endHeaderField header))
      (.ok header', before S s) := by
  have hends := ends_line (S := S) hl.cr hl.lf (chr '\n' :: s)
  have hmap := hends.gives.map (endHeaderField header)
  rw [endHeaderField_crlf hp] at hmap
  rw [List.append_assoc]
  exact hmap

theorem header_gives_of_line {l : Bytes} (hl : Line l) (hp : parseHeaderValue header l = .ok header')
    {s : Bytes} {r : Except ConnectionError MessageHeader × InputReader}
    (h : Gives (fun n => readMessageHeader n header' (before S s)) r) :
    Gives (fun n => readMessageHeader n header (before S (l ++ CRLF ++ s))) r := by
  refine Gives.of_succ rfl (fun n => ?_) ((header_line hl hp s).bind (g := afterField) h)
  rw [List.append_assoc]
  exact header_line_eq header hl _ n

theorem header_diverges_of_line {l : Bytes} (hl : Line l) (hp : parseHeaderValue header l = .ok header')
    {s : Bytes} (h : Diverges fun n => readMessageHeader n header' (before S s)) :
    Diverges fun n => readMessageHeader n header (before S (l ++ CRLF ++ s)) := by
  refine Diverges.of_succ rfl (fun n => ?_) ((header_line hl hp s).bind_diverges (g := afterField) h)
  rw [List.append_assoc]
  exact header_line_eq header hl _ n

/-- **A complete header is read, and the reader stops behind it.** -/
theorem readMessageHeader_complete {p : Bytes} (h : HeaderText header p header') (s : Bytes) :
    Gives (fun n => readMessageHeader n header (before S (p ++ CRLF ++ s))) (.ok header', before S s) := by
  induction h with
  | nil header => exact Gives.of_succ rfl (fun n => header_crlf s n) (.const _)
  | cons hl hp _ ih =>
    have := header_gives_of_line hl hp ih
    simpa only [List.append_assoc] using this

/-- **The header of an input that ends inside a line is never read to its end.** -/
theorem readMessageHeader_unfinished {p t : Bytes} (h : HeaderText header p header') (ht : Unfinished t) :
    Diverges fun n => readMessageHeader n header (before S (p ++ t)) := by
  induction h with
  | nil header =>
    have hline := (diverges_line (S := S) ht.cr ht.lf).map (endHeaderField header)
    refine Diverges.of_succ rfl (fun n => ?_) (hline.bind (g := afterField))
    have heq := header_line_eq (S := S) header ht [] n
    rwa [List.append_nil] at heq
  | cons hl hp _ ih =>
    have := header_diverges_of_line hl hp ih
    simpa only [List.append_assoc] using this

/-! ## All inputs -/

theorem lacksCRLF_error {s : Bytes} (h : s.head? ≠ some (chr '\n')) :
    (lacksCRLF (ahead S (chr '\r') s)).1 = true := by
  cases s with
  | nil =>
    simp only [lacksCRLF, get_ahead, get_end, ne_eq, not_true_eq_false, if_false]
    decide
  | cons d s =>
    have hd : d ≠ chr '\n' := by simpa using h
    simpa [lacksCRLF] using hd

theorem header_error_of_ends {res : Except ConnectionError Bytes × InputReader} {e : ConnectionError}
    {reader : InputReader} (hcr : c ≠ chr '\r') (heof : c ≠ Eof)
    (h : Ends lineTurn (before S (c :: s), []) res) (he : endHeaderField header res = (.error e, reader)) :
    Gives (fun n => readMessageHeader n header (before S (c :: s))) (.error e, reader) := by
  have hmap := h.gives.map (endHeaderField header)
  rw [he] at hmap
  exact Gives.of_succ rfl (header_text_eq header hcr heof) (hmap.bind (g := afterField) (.const _))

theorem header_error_of_cr {s : Bytes} (h : s.head? ≠ some (chr '\n')) :
    ∃ e reader, Gives (fun n => readMessageHeader n header (before S (chr '\r' :: s))) (.error e, reader) := by
  have hstep : ∀ n, readMessageHeader (n + 1) header (before S (chr '\r' :: s)) =
      some (.error (bytes "Protocol: Expected header to be terminated by '\\r\\n'"),
        (lacksCRLF (ahead S (chr '\r') s)).2) := by
    intro n
    simp only [readMessageHeader, peek_before, ne_eq, not_true_eq_false, if_false, lacksCRLF_error h,
      if_true]
  exact ⟨_, _, Gives.of_succ rfl hstep (.const _)⟩

theorem header_error_of_eof (s : Bytes) :
    ∃ e reader, Gives (fun n => readMessageHeader n header (before S (Eof :: s))) (.error e, reader) := by
  have hstep : ∀ n, readMessageHeader (n + 1) header (before S (Eof :: s)) =
      some (.error (bytes "Connection lost"), ahead S Eof s) := by
    intro n
    rw [header_field (by decide), field_eof]
    rfl
  exact ⟨_, _, Gives.of_succ rfl hstep (.const _)⟩

theorem header_error_of_end :
    ∃ e reader, Gives (fun n => readMessageHeader n header (before S [])) (.error e, reader) := by
  have hne : Eof ≠ chr '\r' := by decide
  have hstep : ∀ n, readMessageHeader (n + 1) header (before S []) =
      some (.error (bytes "Connection lost"), ahead { S with shorts := S.shorts + 1 } Eof []) := by
    intro n
    simp only [readMessageHeader, peek_end, ne_eq, hne, not_false_eq_true, if_true, field_eof]
    rfl
  exact ⟨_, _, Gives.of_succ rfl hstep (.const _)⟩

/-- A text up to its first CR or LF. -/
theorem split_line (s : Bytes) :
    ∃ l r, s = l ++ r ∧ 13 ∉ l ∧ 10 ∉ l ∧
      (r = [] ∨ (∃ r', r = chr '\r' :: r') ∨ ∃ r', r = chr '\n' :: r') := by
  induction s with
  | nil => exact ⟨[], [], rfl, by simp, by simp, .inl rfl⟩
  | cons c s ih =>
    by_cases hcr : c = 13
    · exact ⟨[], c :: s, rfl, by simp, by simp, .inr (.inl ⟨s, by rw [hcr]; rfl⟩)⟩
    · by_cases hlf : c = 10
      · exact ⟨[], c :: s, rfl, by simp, by simp, .inr (.inr ⟨s, by rw [hlf]; rfl⟩)⟩
      · obtain ⟨l, r, rfl, h₁, h₂, h⟩ := ih
        refine ⟨c :: l, r, rfl, ?_, ?_, h⟩
        · simp [Ne.symm hcr, h₁]
        · simp [Ne.symm hlf, h₂]

/-- The input is a complete header, ends inside a line, or gives a `ConnectionError`. -/
def HeaderOutcome (S : Stream) (header : MessageHeader) (s : Bytes) : Prop :=
  (∃ p header' rest, HeaderText header p header' ∧ s = p ++ CRLF ++ rest) ∨
  (∃ p header' t, HeaderText header p header' ∧ s = p ++ t ∧ Unfinished t) ∨
  ∃ e reader, Gives (fun n => readMessageHeader n header (before S s)) (.error e, reader)

/-- Behind a whole line the rest of the input decides. -/
theorem outcome_of_line {header' : MessageHeader} {l : Bytes} (hl : Line l)
    (hp : parseHeaderValue header l = .ok header') {rest : Bytes} (h : HeaderOutcome S header' rest) :
    HeaderOutcome S header (l ++ CRLF ++ rest) := by
  rcases h with ⟨p, header'', rest', hp', rfl⟩ | ⟨p, header'', t, hp', rfl, ht⟩ | ⟨e, reader, h⟩
  · exact .inl ⟨_, header'', rest', .cons hl hp hp', by simp⟩
  · exact .inr (.inl ⟨_, header'', t, .cons hl hp hp', by simp, ht⟩)
  · exact .inr (.inr ⟨e, reader, header_gives_of_line hl hp h⟩)

/-- A line that does not parse or whose CR is not followed by LF. -/
theorem outcome_of_bad_line {l : Bytes} (hcr : c ≠ chr '\r') (heof : c ≠ Eof) (h₁ : 13 ∉ l) (h₂ : 10 ∉ l)
    {s r : Bytes} (hs : c :: s = l ++ chr '\r' :: r)
    (hbad : ∀ header', parseHeaderValue header l = .ok header' →
      (lacksCRLF (ahead S (chr '\r') r)).1 = true) : HeaderOutcome S header (c :: s) := by
  have hends := ends_line (S := S) h₁ h₂ r
  rw [← hs] at hends
  obtain ⟨e, reader, he⟩ := endHeaderField_error hbad
  exact .inr (.inr ⟨e, reader, header_error_of_ends hcr heof hends he⟩)

/-- **Every input is a complete header, ends inside a line, or gives a `ConnectionError`.** -/
theorem readMessageHeader_outcome (S : Stream) (header : MessageHeader) (s : Bytes) :
    HeaderOutcome S header s := by
  induction hn : s.length using Nat.strongRecOn generalizing s header with
  | ind n ih =>
    subst hn
    cases s with
    | nil => exact .inr (.inr header_error_of_end)
    | cons c s =>
      by_cases hcr : c = chr '\r'
      · subst hcr
        by_cases hlf : s.head? = some (chr '\n')
        · obtain ⟨rest, rfl⟩ := List.head?_eq_some_iff.mp hlf
          exact .inl ⟨[], header, rest, .nil header, rfl⟩
        · exact .inr (.inr (header_error_of_cr hlf))
      by_cases heof : c = Eof
      · subst heof
        exact .inr (.inr (header_error_of_eof s))
      obtain ⟨l, r, hs, h₁, h₂, rfl | ⟨r', rfl⟩ | ⟨r', rfl⟩⟩ := split_line (c :: s)
      · -- the input ends inside the line
        rw [List.append_nil] at hs
        exact .inr (.inl ⟨[], header, c :: s, .nil header, rfl, ⟨c, s, rfl, heof⟩, hs ▸ h₁, hs ▸ h₂⟩)
      · by_cases hlf : r'.head? = some (chr '\n')
        · obtain ⟨rest, rfl⟩ := List.head?_eq_some_iff.mp hlf
          cases hp : parseHeaderValue header l with
          | error e =>
            apply outcome_of_bad_line hcr heof h₁ h₂ hs
            intro header' hok
            rw [hp] at hok
            cases hok
          | ok header' =>
            have hl : Line l := by
              refine ⟨?_, h₁, h₂⟩
              cases l with
              | nil => exact absurd (List.cons.inj hs).1 hcr
              | cons d l => exact ⟨d, l, rfl, (List.cons.inj hs).1 ▸ heof⟩
            have hs' : c :: s = l ++ CRLF ++ rest := by rw [hs, List.append_assoc]; rfl
            have hlen : rest.length < (c :: s).length := by
              rw [hs', List.length_append, List.length_append]
              show _ < l.length + 2 + _
              omega
            rw [hs']
            exact outcome_of_line hl hp (ih _ hlen header' rest rfl)
        · exact outcome_of_bad_line hcr heof h₁ h₂ hs fun _ _ => lacksCRLF_error hlf
      · have hends := ends_lf (S := S) h₁ h₂ r'
        rw [← hs] at hends
        exact .inr (.inr ⟨_, _, header_error_of_ends hcr heof hends rfl⟩)

end Header

end Lsp.Connection
