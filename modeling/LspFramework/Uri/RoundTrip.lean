import LspFramework.Uri.Components

/-!
# Printing a parsed Uri and parsing it again

`recordOf s` is the record `parse` makes of a text it accepts (`parse_accepts`), `print r` the text
of a record.  The two undo each other but for two kinds of text: the path decodes to one that begins
with `//` while there is no authority, and the path has a broken escape, so it is dropped, between an
authority and a query or a fragment.

    parse (parse s).toString = parse s ↔ PrintsBack s                  (parse_toString_iff)
-/

namespace Lsp.Uri

open Chars

/-- The path has no broken escape before a query or a fragment of a text with an authority; without
an authority it does not decode to one that begins with two slashes. -/
def PrintsBack (s : Bytes) : Prop :=
  if startsAuthority s then
    decodable (rawPath (pathOn s)) = true ∨
      (hasCharAt (behindPath (pathOn s)) 0 (chr '?') = false ∧
        hasCharAt (behindPath (pathOn s)) 0 (chr '#') = false)
  else ¬ (decodable (rawPath (pathOn s)) = true ∧ beginsWithSlashes (rawPath (pathOn s)) = true)

/-! ## What is printed -/

def tailText (r : Record) : Bytes := encode r.path (bytes "/") ++ (queryText r ++ fragmentText r)

/-- `toString` of a record. -/
def print (r : Record) : Bytes := r.scheme ++ chr ':' :: (authorityText r ++ tailText r)

theorem toString_eq {u : Uri} {r : Record} (h : Represents u r) (hv : u.isValid = true) :
    u.toString = print r := by
  have hf := h.fields_eq
  subst hf
  rw [toString, if_pos hv]
  simp only [print, authorityText, tailText, queryText, fragmentText, fields, List.append_assoc,
    List.cons_append, List.nil_append]
  rfl

/-- What holds of the fields of a parsed text. -/
structure Printable (r : Record) : Prop where
  schemeNonempty : r.scheme ≠ []
  scheme : ∀ c ∈ r.scheme, isSchemeChar c = true
  schemeCase : r.scheme.map tolower = r.scheme
  authority : ∀ c ∈ r.authority, isAuthorityChar c = true
  authorityCase : normalizeLoop r.authority = r.authority
  path : r.hasAuthority = true → r.path = [] ∨ r.path.head? = some (chr '/')
  query : ∀ c ∈ r.query, isQueryChar c = true
  queryCase : normalizeLoop r.query = r.query
  fragmentCase : normalizeLoop r.fragment = r.fragment
  noAuthority : r.hasAuthority = false → r.authority = []
  noQuery : r.hasQuery = false → r.query = []
  noFragment : r.hasFragment = false → r.fragment = []

theorem rawAuthority_class (s : Bytes) : ∀ c ∈ rawAuthority s, isAuthorityChar c = true := by
  intro c hc
  unfold rawAuthority at hc
  split at hc
  · exact scan_take hc
  · cases hc

theorem rawQuery_class (rest : Bytes) : ∀ c ∈ rawQuery rest, isQueryChar c = true := by
  intro c hc
  unfold rawQuery at hc
  split at hc
  · exact scan_take hc
  · cases hc

/-- A path that begins with a slash is dropped or keeps it. -/
theorem decode_slash {s : Bytes} (h : s.head? = some (chr '/')) :
    (decodable s = false ∧ decode s = []) ∨ (decodable s = true ∧ (decode s).head? = some (chr '/')) := by
  cases hd : decodable s with
  | false => exact .inl ⟨rfl, decode_of_not_decodable hd⟩
  | true =>
    obtain ⟨t, rfl⟩ := List.head?_eq_some_iff.mp h
    have hs := decodeLoop_of_decodable hd
    rw [decodeLoop_plain (by decide)] at hs
    obtain ⟨r, -, hr⟩ := Option.map_eq_some_iff.mp hs
    exact .inr ⟨rfl, by rw [← hr]; rfl⟩

theorem rawPath_cases {rest : Bytes} (h : rest = [] ∨ hasCharAt rest 0 (chr '/') = true) :
    (rawPath rest = [] ∧ behindPath rest = rest) ∨ (rawPath rest).head? = some (chr '/') := by
  unfold rawPath behindPath
  cases hk : (parseUriPath rest).toNat with
  | zero => exact .inl ⟨rfl, rfl⟩
  | succ k =>
    rcases h with rfl | h
    · cases hk
    · obtain ⟨t, rfl⟩ := List.head?_eq_some_iff.mp ((hasCharAt_zero _ _).mp h)
      exact .inr rfl

theorem printable_recordOf {s : Bytes} (h : Accepts s) : Printable (recordOf s) where
  schemeNonempty := by
    have hlen := scan_le isSchemeChar s
    have hsub := (List.takeWhile_prefix (p := isSchemeChar) (l := s)).length_le
    have hne : (parseUriScheme s).toNat ≠ 0 := h.scheme
    intro hnil
    have := congrArg List.length hnil
    simp only [recordOf, List.length_map, List.length_take, List.length_nil] at this
    unfold parseUriScheme at hne this
    omega
  scheme := by
    intro c hc
    obtain ⟨d, hd, rfl⟩ := List.mem_map.mp hc
    exact (tolower_facts d).2 (scan_take hd)
  schemeCase := by
    rw [recordOf, List.map_map]
    exact List.map_congr_left fun c _ => (tolower_facts c).1
  authority := normalizeLoop_class (fun c => (toupper_facts c).1) (rawAuthority_class s)
  authorityCase := normalizeLoop_idem _
  path := by
    intro hauth
    rcases rawPath_cases (h.path hauth) with ⟨hraw, -⟩ | hraw
    · refine .inl ?_
      rw [recordOf, hraw]
      rfl
    · rcases decode_slash hraw with ⟨-, hd⟩ | ⟨-, hd⟩
      · exact .inl hd
      · exact .inr hd
  query := normalizeLoop_class (fun c => (toupper_facts c).2) (rawQuery_class _)
  queryCase := normalizeLoop_idem _
  fragmentCase := normalizeLoop_idem _
  noAuthority := by
    intro hno
    rw [recordOf, (pathOn_of_not_authority hno).1]
    rfl
  noQuery := by
    intro hno
    have hraw : rawQuery (pathOn s) = [] := by
      rw [rawQuery, if_neg]
      exact fun hc => nomatch hc.symm.trans hno
    rw [recordOf, hraw]
    rfl
  noFragment := by
    intro hno
    have hraw : rawFragment (pathOn s) = [] := by
      rw [rawFragment, if_neg]
      exact fun hc => nomatch hc.symm.trans hno
    rw [recordOf, hraw]
    rfl

/-! ## A printed text is composed -/

/-- The components of a printed text. -/
def Record.encoded (r : Record) : Record := { r with path := encode r.path (bytes "/") }

theorem print_eq_compose (r : Record) : print r = compose r.encoded := rfl

theorem encode_eq_nil {p : Bytes} : encode p (bytes "/") = [] ↔ p = [] := by
  constructor
  · intro h
    have hp := decode_encode p
    rw [h] at hp
    exact hp.symm
  · rintro rfl
    rfl

theorem encode_slashes {p : Bytes} :
    (∃ t, encode p (bytes "/") = chr '/' :: chr '/' :: t) ↔ ∃ t, p = chr '/' :: chr '/' :: t := by
  constructor
  · rintro ⟨t, ht⟩
    obtain ⟨p₁, rfl⟩ := List.head?_eq_some_iff.mp ((head_encode p).mp (by rw [ht]; rfl))
    have htail : encode p₁ (bytes "/") = chr '/' :: t := (List.cons.inj ht).2
    obtain ⟨p₂, rfl⟩ := List.head?_eq_some_iff.mp ((head_encode p₁).mp (by rw [htail]; rfl))
    exact ⟨p₂, rfl⟩
  · rintro ⟨t, rfl⟩
    exact ⟨encode t (bytes "/"), rfl⟩

namespace Printable

variable {r : Record} (hp : Printable r)

include hp

theorem splits : Splits r.encoded where
  scheme := hp.scheme
  authority := hp.authority
  path := fun _ => isPathChar_of_mem_encode
  pathFront := by
    intro hauth
    rcases hp.path hauth with hnil | hslash
    · exact .inl (encode_eq_nil.mpr hnil)
    · exact .inr ((head_encode r.path).mpr hslash)
  query := hp.query
  noAuthority := hp.noAuthority
  noQuery := hp.noQuery
  noFragment := hp.noFragment

/-- What is printed is parsed back. -/
theorem parsed_encoded : r.encoded.parsed = r := by
  simp only [Record.encoded, Record.parsed, hp.schemeCase, hp.authorityCase, hp.queryCase, hp.fragmentCase,
    decode_encode]

theorem short (hlen : (print r).length < 65536) : Short r.encoded := by
  have hauth : r.authority.length ≤ (authorityText r).length := by
    cases ha : r.hasAuthority with
    | true =>
      rw [authorityText, if_pos ha, List.length_append]
      omega
    | false =>
      rw [hp.noAuthority ha]
      exact Nat.zero_le _
  have hquery : r.query.length ≤ (queryText r).length := by
    cases hq : r.hasQuery with
    | true =>
      rw [queryText, if_pos hq, List.length_cons]
      omega
    | false =>
      rw [hp.noQuery hq]
      exact Nat.zero_le _
  have hfragment : r.fragment.length ≤ (fragmentText r).length := by
    cases hf : r.hasFragment with
    | true =>
      rw [fragmentText, if_pos hf, List.length_cons]
      omega
    | false =>
      rw [hp.noFragment hf]
      exact Nat.zero_le _
  simp only [print, tailText, List.length_append, List.length_cons] at hlen
  constructor <;> simp only [Record.encoded] <;> omega

end Printable

/-- **Without an authority, one appears in the text where the path begins with two slashes.** -/
theorem startsAuthority_print {r : Record} (hp : Printable r) (hlen : r.scheme.length < 65536) :
    startsAuthority (print r) = true ↔ r.hasAuthority = true ∨ ∃ t, r.path = chr '/' :: chr '/' :: t := by
  rw [print_eq_compose, startsAuthority_compose (r := r.encoded) hp.scheme hlen]
  exact or_congr_right encode_slashes

/-! ## Round trip -/

section RoundTrip

variable {u : Uri} {r : Record} (hp : Printable r) (hlen : Short r.encoded)
  (hstart : startsAuthority (print r) = r.hasAuthority)

include hp hlen hstart

theorem accepts_print_iff : Accepts (print r) ↔
    ¬ (r.hasAuthority = true ∧ r.path = [] ∧ (r.hasQuery = true ∨ r.hasFragment = true)) := by
  rw [print_eq_compose, accepts_compose_iff hp.splits hlen hstart hp.schemeNonempty]
  exact not_congr (and_congr_right fun _ => and_congr_left fun _ => encode_eq_nil)

theorem parse_print (hacc : Accepts (print r)) : Represents (parse (print r)) r := by
  have hrep := parse_compose hp.splits hlen hstart hacc
  rwa [hp.parsed_encoded] at hrep

end RoundTrip

section RoundTrip

variable {u : Uri} {r : Record} (h : Represents u r) (hp : Printable r) (hlen : (print r).length < 65536)

include h hp hlen

/-- **When a printed record is parsed back.** -/
theorem parse_print_iff (hv : u.isValid = true) :
    parse (print r) = u ↔ startsAuthority (print r) = r.hasAuthority ∧
      ¬ (r.hasAuthority = true ∧ r.path = [] ∧ (r.hasQuery = true ∨ r.hasFragment = true)) := by
  have hshort := hp.short hlen
  constructor
  · intro heq
    have hacc : Accepts (print r) := accepts_of_isValid (heq ▸ hv)
    have hrep := parse_accepts hacc (Nat.lt_of_le_of_lt (length_rawFragment_le _) hlen)
    have hstart : startsAuthority (print r) = r.hasAuthority := by
      rw [heq] at hrep
      exact hrep.hasAuthority.symm.trans h.hasAuthority
    exact ⟨hstart, (accepts_print_iff hp hshort hstart).mp hacc⟩
  · rintro ⟨hstart, hends⟩
    exact (parse_print hp hshort hstart ((accepts_print_iff hp hshort hstart).mpr hends)).unique h

end RoundTrip

theorem query_or_fragment (s : Bytes) :
    ¬ ((recordOf s).hasQuery = true ∨ (recordOf s).hasFragment = true) ↔
      hasCharAt (behindPath (pathOn s)) 0 (chr '?') = false ∧
        hasCharAt (behindPath (pathOn s)) 0 (chr '#') = false := by
  rw [not_or, Bool.not_eq_true, Bool.not_eq_true]
  refine and_congr_right fun hq => ?_
  have hbehind : behindQuery (pathOn s) = behindPath (pathOn s) := by
    rw [behindQuery, if_neg]
    exact fun hc => nomatch hc.symm.trans hq
  rw [← hbehind]
  rfl

theorem printsBack_of_authority {s : Bytes} (h : Accepts s) (hauth : startsAuthority s = true) :
    PrintsBack s ↔
      ¬ ((recordOf s).path = [] ∧ ((recordOf s).hasQuery = true ∨ (recordOf s).hasFragment = true)) := by
  have hpath : (recordOf s).path = decode (rawPath (pathOn s)) := rfl
  rw [not_and, query_or_fragment, hpath, PrintsBack, if_pos hauth]
  rcases rawPath_cases (h.path hauth) with ⟨-, hbehind⟩ | hraw
  · -- nothing that ends the authority begins a query or a fragment
    have hnone : hasCharAt (behindPath (pathOn s)) 0 (chr '?') = false ∧
        hasCharAt (behindPath (pathOn s)) 0 (chr '#') = false := by
      rw [hbehind]
      rcases h.path hauth with hnil | hslash
      · rw [hnil]
        exact ⟨rfl, rfl⟩
      · simp only [← Bool.not_eq_true, hasCharAt_zero] at hslash ⊢
        rw [hslash]
        decide
    exact ⟨fun _ _ => hnone, fun _ => .inr hnone⟩
  · rcases decode_slash hraw with ⟨hd, hnil⟩ | ⟨hd, hslash⟩
    · rw [hd, hnil]
      exact ⟨fun hor _ => hor.resolve_left nofun, fun himp => .inr (himp rfl)⟩
    · refine ⟨fun _ hnil => ?_, fun _ => .inl hd⟩
      rw [hnil] at hslash
      cases hslash

theorem printsBack_of_not_authority {s : Bytes} (hauth : startsAuthority s = false) :
    PrintsBack s ↔ ¬ ∃ t, (recordOf s).path = chr '/' :: chr '/' :: t := by
  have hpath : (recordOf s).path = decode (rawPath (pathOn s)) := rfl
  rw [hpath, PrintsBack, hauth, if_neg Bool.false_ne_true]
  cases hd : decodable (rawPath (pathOn s)) with
  | true =>
    rw [decode_slashes_iff hd]
    exact not_congr (and_iff_right rfl)
  | false =>
    rw [decode_of_not_decodable hd]
    exact ⟨fun _ => nofun, fun _ => nofun⟩

/-- What the condition on the record is on the text. -/
theorem printsBack_iff {s : Bytes} (h : Accepts s) (hlen : (recordOf s).scheme.length < 65536) :
    PrintsBack s ↔ startsAuthority (print (recordOf s)) = (recordOf s).hasAuthority ∧
      ¬ ((recordOf s).hasAuthority = true ∧ (recordOf s).path = [] ∧
        ((recordOf s).hasQuery = true ∨ (recordOf s).hasFragment = true)) := by
  have hstart := startsAuthority_print (printable_recordOf h) hlen
  cases hauth : startsAuthority s with
  | true =>
    have hrec : (recordOf s).hasAuthority = true := hauth
    rw [printsBack_of_authority h hauth, hstart.mpr (.inl hrec), hrec, and_iff_right rfl, and_iff_right rfl]
  | false =>
    have hrec : (recordOf s).hasAuthority = false := hauth
    rw [hrec, or_iff_right Bool.false_ne_true] at hstart
    rw [printsBack_of_not_authority hauth, ← hstart, hrec, Bool.not_eq_true]
    exact ⟨fun hno => ⟨hno, fun hand => nomatch hand.1⟩, And.left⟩

/-- **Printing a parsed Uri and parsing it again gives the same Uri** exactly for the texts of
`PrintsBack`. -/
theorem parse_toString_iff {s : Bytes} (hv : (parse s).isValid = true) (hd : (parse s).data.length < 65536)
    (ht : (parse s).toString.length < 65536) : parse (parse s).toString = parse s ↔ PrintsBack s := by
  have hacc := accepts_of_isValid hv
  have hrep := parse_accepts hacc (Nat.lt_of_le_of_lt (rawFragment_le_data hacc) hd)
  have hp := printable_recordOf hacc
  have heq := toString_eq hrep hv
  rw [heq] at ht ⊢
  rw [parse_print_iff hrep hp ht hv, printsBack_iff hacc (hp.short ht).scheme]

theorem parse_toString_file :
    parse (parse (bytes "FILE://host%2f/a%20b?q#f")).toString = parse (bytes "FILE://host%2f/a%20b?q#f") ↔
      PrintsBack (bytes "FILE://host%2f/a%20b?q#f") :=
  parse_toString_iff (by decide +kernel) (by decide +kernel) (by decide +kernel)

theorem parse_toString_slashes :
    (parse (bytes "a:/%2Fb")).isValid = true ∧ (parse (bytes "a:/%2Fb")).data.length < 65536 ∧
    (parse (bytes "a:/%2Fb")).toString.length < 65536 ∧
    parse (parse (bytes "a:/%2Fb")).toString ≠ parse (bytes "a:/%2Fb") := by
  decide +kernel

end Lsp.Uri
