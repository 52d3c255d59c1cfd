import LspFramework.Uri.RoundTrip

/-!
# The segments of a path

The segments of a URI text are split at the slashes of its path and decoded one by one.  `parse`
decodes the path as a whole and `toString` leaves every slash of it as it is, so a segment that holds
an escaped slash is cut in two:

    segments of (parse s).toString = segments of s ↔ no slash of the path is escaped
                                                                       (segments_kept_iff)
-/

namespace Lsp.Uri

open Chars

/-- A valid text with well-formed escapes and short components. -/
structure Regular (s : Bytes) : Prop where
  valid : (parse s).isValid = true
  escapes : Percent.WellFormed s
  path : (pathPart s).length < 65536
  query : (queryPart s).length < 65536
  fragment : (fragmentPart s).length < 65536

/-! ## The path of a text -/

theorem isDigitOf_chars : ∀ c : UInt8, isDigitOf 16 c = true → isAuthorityChar c = true ∧ isPathChar c = true :=
  forall_byte (by decide +kernel)

theorem wellFormed_pathPart {s : Bytes} (h : Accepts s) (hs : Percent.WellFormed s) :
    Percent.WellFormed (pathPart s) := by
  have hscheme : Percent.WellFormed (afterScheme s) :=
    (hs.span (p := isSchemeChar) nofun).2.tail (dropWhile_scheme h).2 (by decide)
  have hafter : Percent.WellFormed (afterAuthority s) := by
    unfold afterAuthority
    split
    · next hauth =>
      rw [hasAuthorityPart, Bool.and_eq_true, hasCharAt_zero] at hauth
      obtain ⟨t, ht⟩ := List.head?_eq_some_iff.mp hauth.1
      have hslash := hauth.2
      have htail := hscheme.tail hauth.1 (by decide)
      rw [ht] at hslash htail ⊢
      have hdrop : (chr '/' :: t).drop 2 = t.tail := List.drop_one
      rw [hdrop]
      have hbehind := Percent.WellFormed.tail htail ((hasCharAt_zero t _).mp hslash) (by decide)
      exact (hbehind.span fun _ c hc => (isDigitOf_chars c hc).1).2
    · exact hscheme
  exact (hafter.span fun _ c hc => (isDigitOf_chars c hc).2).1

/-! ## The path of a printed text -/

/-- An encoded text is made of pieces without escaped slashes. -/
theorem encode_pieces (p : Bytes) :
    ∃ ps, Percent.text ps = encode p (bytes "/") ∧ Percent.values ps = p ∧
      ¬ Percent.EscapedSlash (Percent.text ps) := by
  suffices h : ∃ ps, Percent.text ps = encode p (bytes "/") ∧ Percent.values ps = p ∧
      ∀ q ∈ ps, ¬ q.IsEscapedSlash by
    obtain ⟨ps, htext, hvalues, hslash⟩ := h
    refine ⟨ps, htext, hvalues, ?_⟩
    rw [Percent.escapedSlash_text]
    exact fun ⟨q, hq, hqs⟩ => hslash q hq hqs
  induction p with
  | nil => exact ⟨[], rfl, rfl, nofun⟩
  | cons c p ih =>
    obtain ⟨ps, htext, hvalues, hslash⟩ := ih
    rcases encodeChar_cases c with ⟨heq, hc, -⟩ | ⟨a, b, heq, ha, hb, hval, hc⟩
    · refine ⟨.plain c hc :: ps, ?_, by rw [← hvalues]; rfl, ?_⟩
      · rw [Percent.text_cons, htext, encode, encode, List.flatMap_cons, heq]
        rfl
      · intro q hq
        rcases List.mem_cons.mp hq with rfl | hq
        · exact id
        · exact hslash q hq
    · refine ⟨.triplet a b ha hb :: ps, ?_, ?_, ?_⟩
      · rw [Percent.text_cons, htext, encode, encode, List.flatMap_cons, heq]
        rfl
      · show UInt8.ofNat (16 * digitVal a + digitVal b) :: Percent.values ps = c :: p
        rw [hvalues, hval]
      · intro q hq
        rcases List.mem_cons.mp hq with rfl | hq
        · show ¬ UInt8.ofNat (16 * digitVal a + digitVal b) = chr '/'
          rwa [hval]
        · exact hslash q hq

theorem segments_encode (p : Bytes) : Percent.segments (encode p (bytes "/")) = p.splitOn (chr '/') := by
  obtain ⟨ps, htext, hvalues, hslash⟩ := encode_pieces p
  rw [← htext, Percent.segments_eq_splitOn hslash, hvalues]

/-- An authority scan of an encoded text stops at a slash of the text. -/
theorem dropWhile_encode (p rest : Bytes) (hrest : ∀ c, rest.head? = some c → isAuthorityChar c = false) :
    ∃ q, (encode p (bytes "/") ++ rest).dropWhile isAuthorityChar = encode q (bytes "/") ++ rest := by
  induction p with
  | nil =>
    refine ⟨[], ?_⟩
    exact dropWhile_append_stop (s := []) nofun hrest
  | cons c p ih =>
    by_cases hc : c = chr '/'
    · subst hc
      exact ⟨chr '/' :: p, rfl⟩
    · obtain ⟨q, hq⟩ := ih
      refine ⟨q, ?_⟩
      have hchars : ∀ d ∈ encodeChar (bytes "/") c, isAuthorityChar d = true := by
        intro d hd
        rcases encodeChar_cases c with ⟨heq, -, hpath⟩ | ⟨a, b, heq, ha, hb, -, -⟩
        · rw [heq, List.mem_singleton] at hd
          subst hd
          rw [isPathChar, Bool.not_eq_true', Bool.or_eq_false_iff] at hpath
          rw [isAuthorityChar, hpath.1, hpath.2, beq_eq_false_iff_ne.mpr hc]
          rfl
        · rw [heq] at hd
          simp only [List.mem_cons, List.not_mem_nil, or_false] at hd
          rcases hd with rfl | rfl | rfl
          · decide
          · exact (isDigitOf_chars _ ha).1
          · exact (isDigitOf_chars _ hb).1
      rw [encode, List.flatMap_cons, List.append_assoc, List.dropWhile_append_of_pos hchars]
      exact hq

/-- The path of a printed text is an encoded one: that of the record, where the authority is found again. -/
theorem pathPart_print {r : Record} (hp : Printable r) :
    ∃ q, pathPart (print r) = encode q (bytes "/") ∧
      ((r.hasAuthority = false → ¬ ∃ t, r.path = chr '/' :: chr '/' :: t) → q = r.path) := by
  have hauth := hasAuthorityPart_compose (r := r.encoded) hp.scheme
  rw [show (∃ t, r.encoded.path = chr '/' :: chr '/' :: t) ↔ ∃ t, r.path = chr '/' :: chr '/' :: t from
    encode_slashes] at hauth
  by_cases hfound : hasAuthorityPart (print r) = r.hasAuthority
  · exact ⟨r.path, pathPart_compose hp.splits hfound, fun _ => rfl⟩
  · -- the path begins with two slashes, and its front is taken for the authority
    have hno : r.hasAuthority = false := by
      cases hr : r.hasAuthority with
      | true => exact absurd ((hauth.mpr (.inl hr)).trans hr.symm) hfound
      | false => rfl
    rw [hno, Bool.not_eq_false] at hfound
    have hencoded : r.encoded.hasAuthority = false := hno
    obtain ⟨t, ht⟩ := (hauth.mp hfound).resolve_left (by rw [hencoded]; nofun)
    obtain ⟨q, hq⟩ := dropWhile_encode t (queryText r ++ fragmentText r) fun c hc => by
      rcases queryText_head r c hc with rfl | rfl <;> rfl
    have hafter : afterAuthority (print r) = encode q (bytes "/") ++ (queryText r ++ fragmentText r) := by
      rw [afterAuthority, if_pos hfound, print_eq_compose, afterScheme_compose (r := r.encoded) hp.scheme, ← hq]
      rw [authorityText, if_neg (by rw [hencoded]; exact Bool.false_ne_true)]
      simp only [composeFromPath, Record.encoded, ht]
      rfl
    refine ⟨q, ?_, fun hslashes => absurd ⟨t, ht⟩ (hslashes hno)⟩
    rw [pathPart, hafter]
    exact takeWhile_append_stop (fun _ => isPathChar_of_mem_encode) (head_behindPath r)

/-! ## What printing keeps -/

namespace Regular

variable {s : Bytes} (h : Regular s)

include h

theorem toString_eq_print : (parse s).toString = print (recordOf s) := by
  have hacc := accepts_of_isValid h.valid
  have hlen : (rawFragment (pathOn s)).length < 65536 := by
    rw [fragment_eq hacc h.path h.query]
    exact h.fragment
  exact toString_eq (parse_accepts hacc hlen) h.valid

/-- The pieces of the path, which stand for the path of the record. -/
theorem path_pieces : ∃ ps, Percent.text ps = pathPart s ∧ (recordOf s).path = Percent.values ps := by
  have hacc := accepts_of_isValid h.valid
  obtain ⟨ps, hps⟩ := wellFormed_pathPart hacc h.escapes
  refine ⟨ps, hps, ?_⟩
  show decode (rawPath (pathOn s)) = _
  rw [(path_eq hacc h.path).1, ← hps, decode_text]

/-- Slashes that are not escaped are found again. -/
theorem path_slashes (hno : ¬ Percent.EscapedSlash (pathPart s)) (hauth : (recordOf s).hasAuthority = false) :
    ¬ ∃ t, (recordOf s).path = chr '/' :: chr '/' :: t := by
  have hacc := accepts_of_isValid h.valid
  obtain ⟨ps, hps, hpath⟩ := h.path_pieces
  have hstart : hasAuthorityPart s = false := (startsAuthority_eq hacc).symm.trans hauth
  rw [hpath]
  rw [← hps, Percent.escapedSlash_text] at hno
  rintro ⟨t, ht⟩
  match ps with
  | [] => cases ht
  | [p] => cases (List.cons.inj ht).2
  | p₁ :: p₂ :: ps =>
    obtain ⟨hfirst, hrest⟩ := List.cons.inj ht
    obtain ⟨hsecond, -⟩ := List.cons.inj hrest
    have htext₁ := Percent.Piece.text_of_slash hfirst fun hp => hno ⟨p₁, by simp, hp⟩
    have htext₂ := Percent.Piece.text_of_slash hsecond fun hp => hno ⟨p₂, by simp, hp⟩
    rw [Percent.text_cons, Percent.text_cons, htext₁, htext₂] at hps
    -- a path that begins with two slashes is an authority
    obtain ⟨rest, hbehind⟩ := List.takeWhile_prefix (l := afterAuthority s) isPathChar
    rw [show (afterAuthority s).takeWhile isPathChar = _ from hps.symm, afterAuthority, hstart] at hbehind
    rw [hasAuthorityPart, ← show _ = afterScheme s from hbehind] at hstart
    cases hstart

theorem segments_printed (hno : ¬ Percent.EscapedSlash (pathPart s)) :
    Percent.segments (pathPart (parse s).toString) = Percent.segments (pathPart s) := by
  have hacc := accepts_of_isValid h.valid
  obtain ⟨ps, hps, hpath⟩ := h.path_pieces
  obtain ⟨q, hq, hsame⟩ := pathPart_print (printable_recordOf hacc)
  rw [h.toString_eq_print, hq, segments_encode, hsame (h.path_slashes hno), hpath, ← hps,
    Percent.segments_eq_splitOn (by rwa [hps])]

end Regular

/-- **Printing keeps the segments of a path** exactly where none of its slashes is escaped; such texts
with other segments are printed differently. -/
theorem segments_kept_iff {s : Bytes} (h : Regular s) :
    (Percent.segments (pathPart (parse s).toString) = Percent.segments (pathPart s) ↔
      ¬ Percent.EscapedSlash (pathPart s)) ∧
    ∀ s', Regular s' → ¬ Percent.EscapedSlash (pathPart s) → ¬ Percent.EscapedSlash (pathPart s') →
      Percent.segments (pathPart s) ≠ Percent.segments (pathPart s') →
        (parse s).toString ≠ (parse s').toString := by
  refine ⟨⟨fun hkept hslash => ?_, h.segments_printed⟩, fun s' h' hno hno' hne htext => hne ?_⟩
  · obtain ⟨ps, hps, -⟩ := h.path_pieces
    obtain ⟨q, hq, -⟩ := pathPart_print (printable_recordOf (accepts_of_isValid h.valid))
    rw [← hps] at hkept hslash
    obtain ⟨t, ht, hmem⟩ := Percent.exists_slash_of_escapedSlash hslash
    rw [← hkept, h.toString_eq_print, hq, segments_encode] at ht
    exact Percent.not_mem_of_mem_splitOn ht hmem
  · rw [← h.segments_printed hno, ← h'.segments_printed hno', htext]

theorem regular_space : Regular (bytes "a:/b%20c") where
  valid := by decide +kernel
  escapes := ⟨[.plain (chr 'a') (by decide), .plain (chr ':') (by decide), .plain (chr '/') (by decide),
    .plain (chr 'b') (by decide), .triplet (chr '2') (chr '0') rfl rfl, .plain (chr 'c') (by decide)], rfl⟩
  path := by decide +kernel
  query := by decide +kernel
  fragment := by decide +kernel

theorem regular_escapedSlash : Regular (bytes "a:/b%2fc") where
  valid := by decide +kernel
  escapes := ⟨[.plain (chr 'a') (by decide), .plain (chr ':') (by decide), .plain (chr '/') (by decide),
    .plain (chr 'b') (by decide), .triplet (chr '2') (chr 'f') rfl rfl, .plain (chr 'c') (by decide)], rfl⟩
  path := by decide +kernel
  query := by decide +kernel
  fragment := by decide +kernel

theorem segments_kept_space :
    (Percent.segments (pathPart (parse (bytes "a:/b%20c")).toString) =
        Percent.segments (pathPart (bytes "a:/b%20c")) ↔
      ¬ Percent.EscapedSlash (pathPart (bytes "a:/b%20c"))) ∧
    ∀ s', Regular s' → ¬ Percent.EscapedSlash (pathPart (bytes "a:/b%20c")) →
      ¬ Percent.EscapedSlash (pathPart s') →
      Percent.segments (pathPart (bytes "a:/b%20c")) ≠ Percent.segments (pathPart s') →
      (parse (bytes "a:/b%20c")).toString ≠ (parse s').toString :=
  segments_kept_iff regular_space

theorem segments_not_kept :
    Regular (bytes "a:/b%2fc") ∧
    Percent.segments (pathPart (bytes "a:/b%2fc")) = [[], bytes "b/c"] ∧
    Percent.segments (pathPart (parse (bytes "a:/b%2fc")).toString) = [[], bytes "b", bytes "c"] ∧
    (parse (bytes "a:/b%2fc")).toString = (parse (bytes "a:/b/c")).toString :=
  ⟨regular_escapedSlash, by decide +kernel, by decide +kernel, by decide +kernel⟩

end Lsp.Uri
