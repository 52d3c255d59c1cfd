import LspFramework.Uri.Parts

/-!
# 16-bit lengths

The scanners count with 16 bits and the lengths are stored with 16 bits, while texts and arguments
have any length.  `setScheme`, `setAuthority` and `setQuery` compare the count with the size and
refuse what does not fit; `parse`, `setPath` and `setFragment` do not:

    parse reads the whole text and its lengths add up ↔ path, query and fragment are short
    setPath stores its argument ↔ it is short, and so does setFragment      (lengths_fit_iff)
-/

namespace Lsp.Uri

open Chars

def lengthSum (u : Uri) : Nat :=
  u.schemeLen.toNat + u.authorityLen.toNat + u.pathLen.toNat + u.queryLen.toNat + u.fragmentLen.toNat

/-! ## The index of `parse` -/

/-- What `parse` has not read at its end, of the text from the path on. -/
def unread (rest : Bytes) : Bytes := if hasCharAt (behindQuery rest) 0 (chr '#') then [] else behindQuery rest

/-- The index stands before `rest`. -/
structure At (s : Bytes) (idx : Nat) (rest : Bytes) : Prop where
  drop : s.drop idx = rest
  le : idx ≤ s.length

namespace At

variable {s rest : Bytes} {idx : Nat}

theorem length (h : At s idx rest) : idx + rest.length = s.length := by
  have hle := h.le
  rw [← h.drop, List.length_drop]
  omega

theorem advance (h : At s idx rest) {n : Nat} (hn : n ≤ rest.length) : At s (idx + n) (rest.drop n) := by
  have hlen := h.length
  exact ⟨by rw [← List.drop_drop, h.drop], by omega⟩

theorem hasCharAt_eq (h : At s idx rest) (c : UInt8) (n : Nat) :
    hasCharAt s (idx + n) c = hasCharAt rest n c := by
  rw [hasCharAt, hasCharAt, ← h.drop, List.getElem?_drop]

theorem length_pos {c : UInt8} (h : hasCharAt rest 0 c = true) : 1 ≤ rest.length := by
  rw [hasCharAt_zero] at h
  exact List.length_pos_of_mem (List.mem_of_mem_head? h)

theorem scan_le_length (p : UInt8 → Bool) (rest : Bytes) : (scan p rest).toNat ≤ rest.length :=
  Nat.le_trans (scan_le p rest) (List.takeWhile_prefix p).length_le

theorem path (h : At s idx rest) :
    At s (if idx < s.length then idx + (parseUriPath (s.drop idx)).toNat else idx) (behindPath rest) := by
  split
  · rw [h.drop]
    exact h.advance (scan_le_length isPathChar rest)
  · next hge =>
    have hlen := h.length
    have hnil : rest = [] := List.length_eq_zero_iff.mp (by omega)
    subst hnil
    exact h

theorem query (h : At s idx (behindPath rest)) :
    At s (if hasCharAt s idx (chr '?') then idx + 1 + (parseUriQuery (s.drop (idx + 1))).toNat else idx)
      (behindQuery rest) := by
  have hchar := h.hasCharAt_eq (chr '?') 0
  rw [Nat.add_zero] at hchar
  rw [hchar, behindQuery]
  split
  · next hc =>
    have htail := h.advance (length_pos hc)
    rw [List.drop_one] at htail
    rw [htail.drop]
    exact htail.advance (scan_le_length isQueryChar _)
  · exact h

theorem fragment (h : At s idx (behindQuery rest)) :
    At s (if hasCharAt s idx (chr '#') then idx + 1 + (s.drop (idx + 1)).length else idx) (unread rest) := by
  have hchar := h.hasCharAt_eq (chr '#') 0
  rw [Nat.add_zero] at hchar
  rw [hchar, unread]
  split
  · next hc =>
    have htail := h.advance (length_pos hc)
    rw [htail.drop]
    have hend := htail.advance (Nat.le_refl _)
    rwa [List.drop_length] at hend
  · exact h

end At

theorem at_behindScheme {s : Bytes} (h : Accepts s) : At s ((parseUriScheme s).toNat + 1) (behindScheme s) := by
  have hcolon := h.colon
  rw [hasCharAt, beq_iff_eq] at hcolon
  exact ⟨rfl, (List.getElem?_eq_some_iff.mp hcolon).1⟩

theorem at_pathOn {s : Bytes} (h : Accepts s) :
    At s
      (if startsAuthority s then
        (parseUriScheme s).toNat + 1 + 2 + (parseUriAuthority (s.drop ((parseUriScheme s).toNat + 1 + 2))).toNat
      else (parseUriScheme s).toNat + 1)
      (pathOn s) := by
  have hat := at_behindScheme h
  unfold pathOn
  split
  · next hauth =>
    have htwo : 2 ≤ (behindScheme s).length := by
      rw [startsAuthority, Bool.and_eq_true, hasCharAt, hasCharAt, beq_iff_eq, beq_iff_eq] at hauth
      exact (List.getElem?_eq_some_iff.mp hauth.2).1
    have hslashes := hat.advance htwo
    rw [hslashes.drop]
    exact hslashes.advance (At.scan_le_length isAuthorityChar _)
  · exact hat

/-- **The index at the end stands before what is unread.** -/
theorem parseIdx_eq {s : Bytes} (h : Accepts s) :
    ∃ idx, parseIdx s = some idx ∧ At s idx (unread (pathOn s)) := by
  have hat := at_pathOn h
  refine ⟨_, ?_, hat.path.query.fragment⟩
  have hscheme : ¬ ((parseUriScheme s).toNat = 0 ∨ hasCharAt s (parseUriScheme s).toNat (chr ':') = false) := by
    rw [h.colon]
    exact fun hor => hor.elim h.scheme nofun
  have hauth : (hasCharAt s ((parseUriScheme s).toNat + 1) (chr '/') &&
      hasCharAt s ((parseUriScheme s).toNat + 1 + 1) (chr '/')) = startsAuthority s := by
    rw [(at_behindScheme h).hasCharAt_eq (chr '/') 1]
    have hzero := (at_behindScheme h).hasCharAt_eq (chr '/') 0
    rw [Nat.add_zero] at hzero
    rw [hzero]
    rfl
  unfold parseIdx
  simp only [if_neg hscheme, hauth]
  rw [if_neg]
  rintro ⟨hlt, hstart, hno⟩
  have hchar := hat.hasCharAt_eq (chr '/') 0
  rw [Nat.add_zero] at hchar
  rw [hchar] at hno
  rcases h.path hstart with hnil | hslash
  · have hlen := hat.length
    rw [hnil, List.length_nil] at hlen
    omega
  · rw [hslash] at hno
    cases hno

/-! ## What `parse` reads -/

theorem head_afterPath {s : Bytes} {c : UInt8} (h : (afterPath s).head? = some c) :
    c = chr '?' ∨ c = chr '#' := by
  have hstop := head?_dropWhile h
  rwa [isPathChar, Bool.not_eq_false', Bool.or_eq_true, beq_iff_eq, beq_iff_eq] at hstop

theorem head_afterQuery {s : Bytes} {c : UInt8} (h : (afterQuery s).head? = some c) : c = chr '#' := by
  unfold afterQuery at h
  split at h
  · have hstop := head?_dropWhile h
    simpa [isQueryChar] using hstop
  · next hno =>
    rw [hasCharAt_zero] at hno
    rcases head_afterPath h with rfl | rfl
    · exact absurd h hno
    · rfl

theorem unread_of_short {s : Bytes} (h : Accepts s) (hlen : (pathPart s).length < 65536)
    (hquery : (queryPart s).length < 65536) : unread (pathOn s) = [] := by
  rw [unread, (query_eq h hlen hquery).2]
  split
  · rfl
  · next hno =>
    cases hrest : afterQuery s with
    | nil => rfl
    | cons c t =>
      rw [hasCharAt_zero, hrest] at hno
      have hc := head_afterQuery (s := s) (c := c) (by rw [hrest]; rfl)
      rw [hc] at hno
      exact absurd rfl hno

/-- A scan that stops inside a long run leaves the rest unread. -/
theorem unread_of_long {s : Bytes} (h : Accepts s)
    (hlong : ¬ ((pathPart s).length < 65536 ∧ (queryPart s).length < 65536)) : unread (pathOn s) ≠ [] := by
  have hstays : ∀ {rest : Bytes} {c : UInt8}, (behindQuery rest).head? = some c → c ≠ chr '#' →
      unread rest ≠ [] := by
    intro rest c hc hne hnil
    rw [unread, if_neg (by rw [hasCharAt_zero, hc]; exact fun heq => hne (Option.some.inj heq))] at hnil
    rw [hnil] at hc
    cases hc
  rcases scan_cases isPathChar (pathOn s) with ⟨hlt, -, hbehind⟩ | ⟨-, c, hc, hpath⟩
  · -- the path is short, so the query is long
    have hshort : (pathPart s).length < 65536 := by
      rw [pathPart, ← pathOn_eq h]
      exact hlt
    have hafter := (path_eq h hshort).2
    unfold queryPart at hlong
    split at hlong
    · next hq =>
      rcases scan_cases isQueryChar (afterPath s).tail with ⟨hlt', -, -⟩ | ⟨-, c, hc, hquery⟩
      · exact absurd ⟨hshort, hlt'⟩ hlong
      · refine hstays (c := c) ?_ ?_
        · rw [behindQuery, hafter, if_pos hq]
          exact hc
        · rintro rfl
          cases hquery
    · exact absurd ⟨hshort, by decide⟩ hlong
  · have hquery : hasCharAt (behindPath (pathOn s)) 0 (chr '?') = false := by
      rw [← Bool.not_eq_true, hasCharAt_zero]
      intro hq
      rw [show (behindPath (pathOn s)).head? = some c from hc] at hq
      cases hq
      cases hpath
    refine hstays (c := c) ?_ ?_
    · rw [behindQuery, hquery, if_neg Bool.false_ne_true]
      exact hc
    · rintro rfl
      cases hpath

theorem parseIdx_whole_iff {s : Bytes} (h : Accepts s) :
    parseIdx s = some s.length ↔ (pathPart s).length < 65536 ∧ (queryPart s).length < 65536 := by
  obtain ⟨idx, hidx, hat⟩ := parseIdx_eq h
  have hlen := hat.length
  rw [hidx, Option.some.injEq]
  constructor
  · intro heq
    by_contra hlong
    exact unread_of_long h hlong (List.length_eq_zero_iff.mp (by omega))
  · rintro ⟨hpath, hquery⟩
    rw [unread_of_short h hpath hquery, List.length_nil] at hlen
    omega

/-! ## What is stored -/

theorem Represents.lengthSum_eq {u : Uri} {r : Record} (h : Represents u r) : u.data.length = u.lengthSum := by
  rw [lengthSum, h.data, h.scheme, h.authority, h.path, h.query, h.fragment, Record.concat]
  simp only [List.length_append]

theorem data_length_iff {s : Bytes} (h : Accepts s) :
    (parse s).data.length = (parse s).lengthSum ↔ (rawFragment (pathOn s)).length < 65536 := by
  constructor
  · intro heq
    obtain ⟨u, r, hu, -, hf, hparse⟩ := parse_before_fragment h
    unfold rawFragment
    split
    · next hc =>
      rw [hparse, if_pos hc, length_insertFragment hu hf] at heq
      have hlt := (UInt16.ofNat (behindQuery (pathOn s)).tail.length).toNat_lt
      simp only [lengthSum, insertFragment, fragmentIdx] at heq
      omega
    · decide
  · intro hlen
    exact (parse_accepts h hlen).lengthSum_eq

/-! ## What a setter stores -/

section Setters

variable {u : Uri} (h : InBounds u) (s : Bytes)

include h

theorem setPath_stores_iff :
    (u.setPath s).2.path = s ∧ (u.setPath s).2.query = u.query ∧ (u.setPath s).2.fragment = u.fragment ↔
      s.length < 65536 := by
  unfold InBounds fragmentIdx at h
  have hx : (u.data.take u.pathIdx).length = u.pathIdx := by
    rw [List.length_take, pathIdx]
    omega
  constructor
  · rintro ⟨hpath, -⟩
    have hlt := (UInt16.ofNat s.length).toNat_lt
    have hle : (u.setPath s).2.path.length ≤ (UInt16.ofNat s.length).toNat := List.length_take_le _ _
    rw [hpath] at hle
    omega
  · intro hlen
    have hpathLen : (UInt16.ofNat s.length).toNat = s.length := toNat_ofNat_length hlen
    -- behind the argument stands what stood behind the path
    have hlater : ∀ n, (replace u.data u.pathIdx u.pathLen.toNat s).drop (u.pathIdx + s.length + n) =
        u.data.drop (u.pathIdx + u.pathLen.toNat + n) := by
      intro n
      have hfront : u.pathIdx + s.length = (u.data.take u.pathIdx ++ s).length := by
        rw [List.length_append, hx]
      rw [replace, hfront, ← List.drop_drop, List.drop_left, List.drop_drop]
    refine ⟨?_, ?_, ?_⟩
    · have hsub := substr_append (u.data.take u.pathIdx) s (u.data.drop (u.pathIdx + u.pathLen.toNat))
      rw [hx] at hsub
      show substr (replace u.data u.pathIdx u.pathLen.toNat s) u.pathIdx (UInt16.ofNat s.length).toNat = s
      rw [hpathLen]
      exact hsub
    · have hquery := hlater 0
      simp only [setPath, insertPath, query, queryIdx, substr, hpathLen, pathIdx, Nat.add_zero] at hquery ⊢
      rw [hquery]
    · have hfragment := hlater u.queryLen.toNat
      simp only [setPath, insertPath, fragment, fragmentIdx, substr, hpathLen, pathIdx] at hfragment ⊢
      rw [hfragment]

/-- The fragment up to the case of the hex digits, which `insertFragment` raises. -/
theorem setFragment_stores_iff : (u.setFragment s).2.fragment = normalizeLoop s ↔ s.length < 65536 := by
  unfold InBounds at h
  have hx : (u.data.take u.fragmentIdx).length = u.fragmentIdx := by
    rw [List.length_take]
    omega
  constructor
  · intro hfragment
    have hlt := (UInt16.ofNat s.length).toNat_lt
    have hle : (u.setFragment s).2.fragment.length ≤ (UInt16.ofNat s.length).toNat := List.length_take_le _ _
    rw [hfragment, length_normalizeLoop] at hle
    omega
  · intro hlen
    have hcase := normalizeEncodedCase_append (u.data.take u.fragmentIdx) s
      (u.data.drop (u.fragmentIdx + u.fragmentLen.toNat))
    have hsub := substr_append (u.data.take u.fragmentIdx) (normalizeLoop s)
      (u.data.drop (u.fragmentIdx + u.fragmentLen.toNat))
    rw [hx] at hcase hsub
    rw [length_normalizeLoop, ← hcase] at hsub
    show substr (normalizeEncodedCase (replace u.data u.fragmentIdx u.fragmentLen.toNat s) u.fragmentIdx
      (UInt16.ofNat s.length).toNat) u.fragmentIdx (UInt16.ofNat s.length).toNat = normalizeLoop s
    rw [toNat_ofNat_length hlen]
    exact hsub

end Setters

/-! ## Every Uri is in bounds -/

section Parse

variable {u : Uri} (h : InBounds u) (rest : Bytes)

include h

theorem inBounds_parsePathPart : InBounds (if rest ≠ [] then parsePathPart u rest else (u, rest)).1 := by
  split
  · exact inBounds_insertPath h _
  · exact h

theorem inBounds_parseQueryPart :
    InBounds (if hasCharAt rest 0 (chr '?') then parseQueryPart u rest.tail else (u, rest)).1 := by
  split
  · exact inBounds_insertQuery h _
  · exact h

theorem inBounds_fragmentPart :
    InBounds (if hasCharAt rest 0 (chr '#') then u.insertFragment rest.tail else u) := by
  split
  · exact inBounds_insertFragment h _
  · exact h

theorem inBounds_parsePathOn : InBounds (parsePathOn u rest) :=
  inBounds_fragmentPart (inBounds_parseQueryPart (inBounds_parsePathPart h rest) _) _

end Parse

theorem inBounds_empty : InBounds {} := Nat.le_refl _

theorem inBounds_parse (s : Bytes) : InBounds (parse s) := by
  by_cases h : Accepts s
  · have hscheme := inBounds_insertScheme inBounds_empty (s.take (parseUriScheme s).toNat)
    rw [parse_eq h.scheme h.colon]
    split
    · split
      · exact inBounds_empty
      · exact inBounds_parsePathOn (inBounds_insertAuthority hscheme _) _
    · exact inBounds_parsePathOn hscheme _
  · rw [parse_rejects h]
    exact inBounds_empty

theorem inBounds_runCalls {u : Uri} (h : InBounds u) (calls : List Call) : InBounds (u.runCalls calls) := by
  induction calls generalizing u with
  | nil => exact h
  | cons c calls ih => exact ih (inBounds_run h c)

/-- **The 16-bit lengths hold what they are to hold** exactly where the components are short. -/
theorem lengths_fit_iff (s : Bytes) (calls : List Call) (t : Bytes) :
    ((parse s).isValid = true →
      (parseIdx s = some s.length ∧ (parse s).data.length = (parse s).lengthSum ↔
        (pathPart s).length < 65536 ∧ (queryPart s).length < 65536 ∧ (fragmentPart s).length < 65536)) ∧
    ((((parse s).runCalls calls).setPath t).1 = true →
      ((((parse s).runCalls calls).setPath t).2.path = t ∧
        (((parse s).runCalls calls).setPath t).2.query = ((parse s).runCalls calls).query ∧
        (((parse s).runCalls calls).setPath t).2.fragment = ((parse s).runCalls calls).fragment ↔
          t.length < 65536)) ∧
    ((((parse s).runCalls calls).setFragment t).1 = true →
      ((((parse s).runCalls calls).setFragment t).2.fragment = normalizeLoop t ↔ t.length < 65536)) := by
  have hin := inBounds_runCalls (inBounds_parse s) calls
  refine ⟨fun hvalid => ?_, fun _ => setPath_stores_iff hin t, fun _ => setFragment_stores_iff hin t⟩
  have hacc := accepts_of_isValid hvalid
  rw [parseIdx_whole_iff hacc, data_length_iff hacc, and_assoc]
  refine and_congr_right fun hpath => and_congr_right fun hquery => ?_
  rw [fragment_eq hacc hpath hquery]

/-- `a:bb…b` with `n` times the letter b. -/
def longText (n : Nat) : Bytes := chr 'a' :: chr ':' :: List.replicate n (chr 'b')

theorem accepts_longText (n : Nat) : Accepts (longText (n + 1)) where
  scheme := by
    show 1 ≠ 0
    decide
  colon := rfl
  path := by
    show false = true → _
    nofun

theorem pathPart_longText (n : Nat) : pathPart (longText (n + 1)) = List.replicate (n + 1) (chr 'b') := by
  show (List.replicate (n + 1) (chr 'b')).takeWhile isPathChar = _
  rw [List.takeWhile_replicate]
  rfl

/-- A path of 65536 bytes is not read, and not stored. -/
theorem lengths_not_fit :
    (parse (longText 65536)).isValid = true ∧ parseIdx (longText 65536) ≠ some (longText 65536).length ∧
    (setPath {} (List.replicate 65536 (chr 'b'))).1 = true ∧
    (setPath {} (List.replicate 65536 (chr 'b'))).2.path ≠ List.replicate 65536 (chr 'b') := by
  have hacc := accepts_longText 65535
  have hlong : ¬ (pathPart (longText 65536)).length < 65536 := by
    rw [pathPart_longText, List.length_replicate]
    decide
  have hset := setPath_stores_iff inBounds_empty (List.replicate 65536 (chr 'b'))
  have hlater : ∀ t, (setPath {} t).2.query = query {} ∧ (setPath {} t).2.fragment = fragment {} :=
    fun _ => ⟨rfl, rfl⟩
  rw [List.length_replicate] at hset
  refine ⟨isValid_parse hacc, fun hidx => ?_, rfl, fun hpath => ?_⟩
  · exact hlong ((parseIdx_whole_iff hacc).mp hidx).1
  · exact absurd (hset.mp ⟨hpath, hlater _⟩) (by decide)

end Lsp.Uri
