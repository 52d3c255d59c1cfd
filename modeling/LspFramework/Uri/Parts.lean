import LspFramework.Uri.Encoding
import LspFramework.Uri.Record

/-!
# The parts of a text

`parse` splits a text by 16-bit scans: `rawAuthority`, `rawPath`, `rawQuery` and `rawFragment` are
what it inserts, `recordOf s` the record it makes of a text it accepts (`parse_accepts`).
`pathPart`, `queryPart` and `fragmentPart` split the same text with no bound on the lengths: where the
runs are short the two agree, and where one is not, the scan stops inside it (`scan_cases`).
-/

namespace Lsp.Uri

open Chars

/-! ## Scanners -/

theorem scan_le (p : UInt8 → Bool) (s : Bytes) : (scan p s).toNat ≤ (s.takeWhile p).length := by
  rw [scan, UInt16.toNat_ofNat']
  exact Nat.mod_le _ _

theorem scan_lt (p : UInt8 → Bool) (s : Bytes) : (scan p s).toNat < 65536 := (scan p s).toNat_lt

/-- What a scanner takes is of its class. -/
theorem scan_take {p : UInt8 → Bool} {s : Bytes} {c : UInt8} (h : c ∈ s.take (scan p s).toNat) :
    p c = true := by
  have hsplit : ∀ k, k ≤ (s.takeWhile p).length → s.take k = (s.takeWhile p).take k := by
    intro k hk
    conv => lhs; rw [← List.takeWhile_append_dropWhile (p := p) (l := s)]
    exact List.take_append_of_le_length hk
  rw [hsplit _ (scan_le p s)] at h
  exact List.all_eq_true.mp List.all_takeWhile c (List.mem_of_mem_take h)

/-- A short run of the class is taken whole. -/
theorem scan_append {p : UInt8 → Bool} {s r : Bytes} (hs : ∀ c ∈ s, p c = true)
    (hr : ∀ c, r.head? = some c → p c = false) (hlen : s.length < 65536) :
    (scan p (s ++ r)).toNat = s.length := by
  rw [scan, takeWhile_append_stop hs hr, toNat_ofNat_length hlen]

theorem hasCharAt_zero (s : Bytes) (c : UInt8) : hasCharAt s 0 c = true ↔ s.head? = some c := by
  cases s <;> simp [hasCharAt]

/-! ## Case -/

theorem toupper_idem : ∀ c : UInt8, toupper (toupper c) = toupper c :=
  forall_byte (by decide +kernel)

theorem tolower_facts : ∀ c : UInt8, tolower (tolower c) = tolower c ∧
    (isSchemeChar c = true → isSchemeChar (tolower c) = true) :=
  forall_byte (by decide +kernel)

theorem toupper_facts : ∀ c : UInt8, (isAuthorityChar c = true → isAuthorityChar (toupper c) = true) ∧
    (isQueryChar c = true → isQueryChar (toupper c) = true) :=
  forall_byte (by decide +kernel)

theorem mem_normalizeLoop {s : Bytes} {c : UInt8} (h : c ∈ normalizeLoop s) :
    ∃ d ∈ s, c = d ∨ c = toupper d := by
  induction s using normalizeLoop.induct with
  | case1 a b s ih =>
    simp only [normalizeLoop, if_true, List.mem_cons] at h
    rcases h with rfl | rfl | rfl | h
    · exact ⟨_, List.mem_cons_self, .inl rfl⟩
    · exact ⟨a, by simp, .inr rfl⟩
    · exact ⟨b, by simp, .inr rfl⟩
    · obtain ⟨d, hd, hcd⟩ := ih h
      exact ⟨d, by simp [hd], hcd⟩
  | case2 c' a b s hc ih =>
    simp only [normalizeLoop, hc, if_false, List.mem_cons] at h
    rcases h with rfl | h
    · exact ⟨_, List.mem_cons_self, .inl rfl⟩
    · obtain ⟨d, hd, hcd⟩ := ih h
      exact ⟨d, List.mem_cons_of_mem _ hd, hcd⟩
  | case3 s hs =>
    rw [normalizeLoop] at h
    · exact ⟨c, h, .inl rfl⟩
    · exact hs

/-- A class that upper case does not leave. -/
theorem normalizeLoop_class {p : UInt8 → Bool} (hp : ∀ c, p c = true → p (toupper c) = true) {s : Bytes}
    (hs : ∀ c ∈ s, p c = true) : ∀ c ∈ normalizeLoop s, p c = true := by
  intro c hc
  obtain ⟨d, hd, rfl | rfl⟩ := mem_normalizeLoop hc
  · exact hs _ hd
  · exact hp _ (hs _ hd)

theorem normalizeLoop_plain {c : UInt8} (hc : c ≠ chr '%') (s : Bytes) :
    normalizeLoop (c :: s) = c :: normalizeLoop s := by
  match s with
  | [] => rfl
  | [_] => rfl
  | _ :: _ :: _ => simp only [normalizeLoop, hc, if_false]

theorem normalizeLoop_idem (s : Bytes) : normalizeLoop (normalizeLoop s) = normalizeLoop s := by
  induction s using normalizeLoop.induct with
  | case1 a b s ih => simp only [normalizeLoop, if_true, ih, toupper_idem]
  | case2 c a b s hc ih => rw [normalizeLoop_plain hc, normalizeLoop_plain hc, ih]
  | case3 s hs =>
    rcases s with _ | ⟨c, _ | ⟨a, _ | ⟨b, s⟩⟩⟩
    · rfl
    · rfl
    · rfl
    · exact absurd rfl (hs c a b s)

/-! ## The parts of a text -/

def rawPath (rest : Bytes) : Bytes := rest.take (parseUriPath rest).toNat

def behindPath (rest : Bytes) : Bytes := rest.drop (parseUriPath rest).toNat

def rawQuery (rest : Bytes) : Bytes :=
  if hasCharAt (behindPath rest) 0 (chr '?') then
    (behindPath rest).tail.take (parseUriQuery (behindPath rest).tail).toNat
  else []

def behindQuery (rest : Bytes) : Bytes :=
  if hasCharAt (behindPath rest) 0 (chr '?') then
    (behindPath rest).tail.drop (parseUriQuery (behindPath rest).tail).toNat
  else behindPath rest

def rawFragment (rest : Bytes) : Bytes :=
  if hasCharAt (behindQuery rest) 0 (chr '#') then (behindQuery rest).tail else []

def behindScheme (s : Bytes) : Bytes := s.drop ((parseUriScheme s).toNat + 1)

def startsAuthority (s : Bytes) : Bool :=
  hasCharAt (behindScheme s) 0 (chr '/') && hasCharAt (behindScheme s) 1 (chr '/')

def rawAuthority (s : Bytes) : Bytes :=
  if startsAuthority s then
    ((behindScheme s).drop 2).take (parseUriAuthority ((behindScheme s).drop 2)).toNat
  else []

/-- The text from the path on. -/
def pathOn (s : Bytes) : Bytes :=
  if startsAuthority s then
    ((behindScheme s).drop 2).drop (parseUriAuthority ((behindScheme s).drop 2)).toNat
  else behindScheme s

/-- What `parse` asks of a text. -/
structure Accepts (s : Bytes) : Prop where
  scheme : (parseUriScheme s).toNat ≠ 0
  colon : hasCharAt s (parseUriScheme s).toNat (chr ':') = true
  path : startsAuthority s = true → pathOn s = [] ∨ hasCharAt (pathOn s) 0 (chr '/') = true

def recordOf (s : Bytes) : Record where
  scheme := (s.take (parseUriScheme s).toNat).map tolower
  authority := normalizeLoop (rawAuthority s)
  path := decode (rawPath (pathOn s))
  query := normalizeLoop (rawQuery (pathOn s))
  fragment := normalizeLoop (rawFragment (pathOn s))
  hasAuthority := startsAuthority s
  hasQuery := hasCharAt (behindPath (pathOn s)) 0 (chr '?')
  hasFragment := hasCharAt (behindQuery (pathOn s)) 0 (chr '#')

theorem length_behindQuery_le (rest : Bytes) : (behindQuery rest).length ≤ rest.length := by
  have hdrop : ∀ (n : Nat) (s : Bytes), (s.drop n).length ≤ s.length := fun n s => by simp
  unfold behindQuery behindPath
  rw [← List.drop_one]
  split
  · exact Nat.le_trans (hdrop _ _) (Nat.le_trans (hdrop _ _) (hdrop _ _))
  · exact hdrop _ _

theorem length_pathOn_le (s : Bytes) : (pathOn s).length ≤ s.length := by
  have hdrop : ∀ (n : Nat) (s : Bytes), (s.drop n).length ≤ s.length := fun n s => by simp
  unfold pathOn behindScheme
  split
  · exact Nat.le_trans (hdrop _ _) (Nat.le_trans (hdrop _ _) (hdrop _ _))
  · exact hdrop _ _

theorem length_rawFragment_le (s : Bytes) : (rawFragment (pathOn s)).length ≤ s.length := by
  have hquery := length_behindQuery_le (pathOn s)
  have hpath := length_pathOn_le s
  unfold rawFragment
  split
  · rw [List.length_tail]
    omega
  · exact Nat.zero_le _

/-! ## What is parsed -/

theorem length_scan_take (p : UInt8 → Bool) (s : Bytes) : (s.take (scan p s).toNat).length < 65536 := by
  rw [List.length_take]
  exact Nat.lt_of_le_of_lt (Nat.min_le_left _ _) (scan_lt p s)

section Parse

variable {u : Uri} {r : Record} {rest : Bytes}

theorem represents_path (h : Represents u r) (hp : r.path = []) :
    Represents (if rest ≠ [] then parsePathPart u rest else (u, rest)).1
        { r with path := decode (rawPath rest) } ∧
      (if rest ≠ [] then parsePathPart u rest else (u, rest)).2 = behindPath rest := by
  split
  · refine ⟨h.insertPath ?_, rfl⟩
    exact Nat.lt_of_le_of_lt (length_decode _) (length_scan_take _ _)
  · next hrest =>
    obtain rfl := not_not.mp hrest
    refine ⟨?_, rfl⟩
    rw [show decode (rawPath []) = [] from rfl, ← hp]
    exact h

theorem represents_query (h : Represents u r) (hq : r.hasQuery = false) {b : Bytes} (hb : b = behindPath rest) :
    Represents (if hasCharAt b 0 (chr '?') then parseQueryPart u b.tail else (u, b)).1
        { r with query := normalizeLoop (rawQuery rest), hasQuery := hasCharAt (behindPath rest) 0 (chr '?') } ∧
      (if hasCharAt b 0 (chr '?') then parseQueryPart u b.tail else (u, b)).2 = behindQuery rest := by
  subst hb
  unfold rawQuery behindQuery
  split
  · next hc =>
    rw [hc]
    exact ⟨h.insertQuery (length_scan_take _ _), rfl⟩
  · next hc =>
    refine ⟨?_, rfl⟩
    rw [Bool.not_eq_true] at hc
    rw [hc, show normalizeLoop [] = [] from rfl, ← h.noQuery hq, ← hq]
    exact h

theorem represents_fragment (h : Represents u r) (hf : r.hasFragment = false) {b : Bytes}
    (hb : b = behindQuery rest) (hlen : (rawFragment rest).length < 65536) :
    Represents (if hasCharAt b 0 (chr '#') then u.insertFragment b.tail else u)
      { r with
        fragment := normalizeLoop (rawFragment rest)
        hasFragment := hasCharAt (behindQuery rest) 0 (chr '#') } := by
  subst hb
  unfold rawFragment at hlen ⊢
  split
  · next hc =>
    rw [if_pos hc] at hlen
    rw [hc]
    exact h.insertFragment hlen
  · next hc =>
    rw [Bool.not_eq_true] at hc
    rw [hc, show normalizeLoop [] = [] from rfl, ← h.noFragment hf, ← hf]
    exact h

theorem represents_pathOn (h : Represents u r) (hp : r.path = []) (hq : r.hasQuery = false)
    (hf : r.hasFragment = false) (hlen : (rawFragment rest).length < 65536) :
    Represents (parsePathOn u rest)
      { r with
        path := decode (rawPath rest)
        query := normalizeLoop (rawQuery rest)
        fragment := normalizeLoop (rawFragment rest)
        hasQuery := hasCharAt (behindPath rest) 0 (chr '?')
        hasFragment := hasCharAt (behindQuery rest) 0 (chr '#') } := by
  obtain ⟨h₁, hb₁⟩ := @represents_path u r rest h hp
  obtain ⟨h₂, hb₂⟩ := represents_query h₁ hq hb₁
  exact represents_fragment h₂ hf hb₂ hlen

theorem pathOn_of_authority {s : Bytes} (h : startsAuthority s = true) :
    rawAuthority s = ((behindScheme s).drop 2).take (parseUriAuthority ((behindScheme s).drop 2)).toNat ∧
      pathOn s = ((behindScheme s).drop 2).drop (parseUriAuthority ((behindScheme s).drop 2)).toNat :=
  ⟨if_pos h, if_pos h⟩

theorem pathOn_of_not_authority {s : Bytes} (h : startsAuthority s = false) :
    rawAuthority s = [] ∧ pathOn s = behindScheme s := by
  constructor
  · rw [rawAuthority, h]
    rfl
  · rw [pathOn, h]
    rfl

/-- `parse` behind the scheme, by the parts of the text. -/
theorem parse_eq {s : Bytes} (hlen : (parseUriScheme s).toNat ≠ 0)
    (hcolon : hasCharAt s (parseUriScheme s).toNat (chr ':') = true) :
    parse s =
      if startsAuthority s then
        if pathOn s ≠ [] ∧ hasCharAt (pathOn s) 0 (chr '/') = false then {}
        else parsePathOn ((({} : Uri).insertScheme (s.take (parseUriScheme s).toNat)).insertAuthority
          (rawAuthority s)) (pathOn s)
      else parsePathOn (({} : Uri).insertScheme (s.take (parseUriScheme s).toNat)) (pathOn s) := by
  have hno : ¬ ((parseUriScheme s).toNat = 0 ∨ hasCharAt s (parseUriScheme s).toNat (chr ':') = false) := by
    rw [hcolon]
    exact fun hor => hor.elim hlen nofun
  unfold parse
  simp only [if_neg hno]
  cases hauth : startsAuthority s with
  | true =>
    obtain ⟨hraw, hon⟩ := pathOn_of_authority hauth
    have hstart := hauth
    unfold startsAuthority behindScheme at hstart
    rw [hraw, hon, if_pos hstart, if_pos rfl]
    rfl
  | false =>
    obtain ⟨-, hon⟩ := pathOn_of_not_authority hauth
    have hstart := hauth
    unfold startsAuthority behindScheme at hstart
    rw [hon, hstart]
    rfl

/-- What `parse` has before the path. -/
theorem parse_head {s : Bytes} (h : Accepts s) :
    ∃ u, Represents u
        { scheme := (s.take (parseUriScheme s).toNat).map tolower
          authority := normalizeLoop (rawAuthority s)
          hasAuthority := startsAuthority s } ∧
      parse s = parsePathOn u (pathOn s) := by
  have hscheme : Represents (({} : Uri).insertScheme (s.take (parseUriScheme s).toNat))
      { scheme := (s.take (parseUriScheme s).toNat).map tolower } :=
    Represents.empty.insertScheme (length_scan_take _ s)
  rw [parse_eq h.scheme h.colon]
  cases hauth : startsAuthority s with
  | true =>
    have hpath : ¬ (pathOn s ≠ [] ∧ hasCharAt (pathOn s) 0 (chr '/') = false) := by
      rcases h.path hauth with hnil | hslash
      · exact fun hp => hp.1 hnil
      · rw [hslash]
        exact fun hp => nomatch hp.2
    have hraw : (rawAuthority s).length < 65536 := by
      rw [(pathOn_of_authority hauth).1]
      exact length_scan_take _ _
    rw [if_pos rfl, if_neg hpath]
    exact ⟨_, hscheme.insertAuthority hraw, rfl⟩
  | false =>
    rw [if_neg Bool.false_ne_true, (pathOn_of_not_authority hauth).1]
    exact ⟨_, hscheme, rfl⟩

/-- **A text that is accepted becomes the record of its parts.** -/
theorem parse_accepts {s : Bytes} (h : Accepts s) (hlen : (rawFragment (pathOn s)).length < 65536) :
    Represents (parse s) (recordOf s) := by
  obtain ⟨u, hu, hparse⟩ := parse_head h
  rw [hparse]
  exact represents_pathOn hu rfl rfl rfl hlen

theorem parse_rejects {s : Bytes} (h : ¬ Accepts s) : parse s = {} := by
  by_cases hscheme : (parseUriScheme s).toNat = 0 ∨ hasCharAt s (parseUriScheme s).toNat (chr ':') = false
  · unfold parse
    simp only [if_pos hscheme]
  · obtain ⟨hlen, hcolon⟩ := not_or.mp hscheme
    rw [Bool.not_eq_false] at hcolon
    rw [parse_eq hlen hcolon]
    cases hauth : startsAuthority s with
    | true =>
      rw [if_pos rfl, if_pos]
      by_contra hp
      refine h ⟨hlen, hcolon, fun _ => ?_⟩
      rw [not_and_or, not_not, Bool.not_eq_false] at hp
      exact hp
    | false => exact absurd ⟨hlen, hcolon, fun hno => nomatch hauth.symm.trans hno⟩ h

theorem accepts_of_isValid {s : Bytes} (h : (parse s).isValid = true) : Accepts s := by
  by_contra hno
  rw [parse_rejects hno] at h
  exact absurd h (by decide)

/-- The fragment is inserted whole, however long it is. -/
theorem length_insertFragment (h : Represents u r) (hf : r.fragment = []) (t : Bytes) :
    (u.insertFragment t).data.length = u.fragmentIdx + t.length := by
  have hidx : u.fragmentIdx = u.data.length := by
    rw [fragmentIdx, h.data, h.scheme, h.authority, h.path, h.query, Record.concat, hf]
    simp only [List.length_append, List.length_nil]
    omega
  have hreplace : (replace u.data u.fragmentIdx u.fragmentLen.toNat t).length = u.fragmentIdx + t.length := by
    simp only [replace, List.length_append, List.length_take, List.length_drop]
    omega
  simp only [insertFragment]
  rw [length_normalizeEncodedCase (by omega), hreplace]

/-- What `parse` has before the fragment. -/
theorem parse_before_fragment {s : Bytes} (h : Accepts s) :
    ∃ u r, Represents u r ∧ r.scheme = (s.take (parseUriScheme s).toNat).map tolower ∧ r.fragment = [] ∧
      parse s =
        if hasCharAt (behindQuery (pathOn s)) 0 (chr '#') then u.insertFragment (behindQuery (pathOn s)).tail
        else u := by
  obtain ⟨u, hu, hparse⟩ := parse_head h
  obtain ⟨h₁, hb₁⟩ := @represents_path u _ (pathOn s) hu rfl
  obtain ⟨h₂, hb₂⟩ := represents_query h₁ rfl hb₁
  refine ⟨_, _, h₂, rfl, rfl, ?_⟩
  rw [hparse, ← hb₂]
  rfl

theorem isValid_parse {s : Bytes} (h : Accepts s) : (parse s).isValid = true := by
  obtain ⟨u, r, hu, hscheme, -, hparse⟩ := parse_before_fragment h
  have hlen : (parse s).schemeLen = u.schemeLen := by
    rw [hparse]
    split <;> rfl
  rw [isValid, hlen, decide_eq_true_eq, UInt16.lt_iff_toNat_lt, hu.scheme, hscheme, List.length_map,
    List.length_take]
  have hle := scan_le isSchemeChar s
  have hsub := (List.takeWhile_prefix (p := isSchemeChar) (l := s)).length_le
  have hne : (parseUriScheme s).toNat ≠ 0 := h.scheme
  unfold parseUriScheme at hne ⊢
  show 0 < _
  omega

theorem rawFragment_le_data {s : Bytes} (h : Accepts s) :
    (rawFragment (pathOn s)).length ≤ (parse s).data.length := by
  obtain ⟨u, r, hu, -, hf, hparse⟩ := parse_before_fragment h
  rw [hparse, rawFragment]
  split
  · rw [length_insertFragment hu hf]
    omega
  · exact Nat.zero_le _

end Parse

/-! ## The parts, however long -/

def afterScheme (s : Bytes) : Bytes := (s.dropWhile isSchemeChar).tail

def hasAuthorityPart (s : Bytes) : Bool :=
  hasCharAt (afterScheme s) 0 (chr '/') && hasCharAt (afterScheme s) 1 (chr '/')

def afterAuthority (s : Bytes) : Bytes :=
  if hasAuthorityPart s then ((afterScheme s).drop 2).dropWhile isAuthorityChar else afterScheme s

def pathPart (s : Bytes) : Bytes := (afterAuthority s).takeWhile isPathChar

def afterPath (s : Bytes) : Bytes := (afterAuthority s).dropWhile isPathChar

def queryPart (s : Bytes) : Bytes :=
  if hasCharAt (afterPath s) 0 (chr '?') then (afterPath s).tail.takeWhile isQueryChar else []

def afterQuery (s : Bytes) : Bytes :=
  if hasCharAt (afterPath s) 0 (chr '?') then (afterPath s).tail.dropWhile isQueryChar else afterPath s

def fragmentPart (s : Bytes) : Bytes := if hasCharAt (afterQuery s) 0 (chr '#') then (afterQuery s).tail else []

/-- A scan takes a short run whole, and stops inside a longer one. -/
theorem scan_cases (p : UInt8 → Bool) (s : Bytes) :
    ((s.takeWhile p).length < 65536 ∧ s.take (scan p s).toNat = s.takeWhile p ∧
      s.drop (scan p s).toNat = s.dropWhile p) ∨
    (65536 ≤ (s.takeWhile p).length ∧ ∃ c, (s.drop (scan p s).toNat).head? = some c ∧ p c = true) := by
  have hsplit : s.takeWhile p ++ s.dropWhile p = s := List.takeWhile_append_dropWhile
  rcases Nat.lt_or_ge (s.takeWhile p).length 65536 with hlt | hge
  · have hscan : (scan p s).toNat = (s.takeWhile p).length := toNat_ofNat_length hlt
    rw [hscan]
    exact .inl ⟨hlt, (congrArg (List.take _) hsplit.symm).trans List.take_left,
      (congrArg (List.drop _) hsplit.symm).trans List.drop_left⟩
  · have hin : (scan p s).toNat < (s.takeWhile p).length := Nat.lt_of_lt_of_le (scan_lt p s) hge
    have hget : s[(scan p s).toNat]? = (s.takeWhile p)[(scan p s).toNat]? :=
      (congrArg (fun t : Bytes => t[(scan p s).toNat]?) hsplit.symm).trans (List.getElem?_append_left hin)
    refine .inr ⟨hge, (s.takeWhile p)[(scan p s).toNat], ?_, ?_⟩
    · rw [List.head?_drop, hget, List.getElem?_eq_getElem hin]
    · exact List.all_eq_true.mp List.all_takeWhile _ (List.getElem_mem hin)

/-- A scan that stops before a byte outside its class has taken the run whole. -/
theorem scan_whole {p : UInt8 → Bool} {s : Bytes}
    (h : ∀ c, (s.drop (scan p s).toNat).head? = some c → p c = false) :
    s.take (scan p s).toNat = s.takeWhile p ∧ s.drop (scan p s).toNat = s.dropWhile p := by
  rcases scan_cases p s with ⟨-, hwhole⟩ | ⟨-, c, hc, hpc⟩
  · exact hwhole
  · rw [h c hc] at hpc
    cases hpc

section Accepted

variable {s : Bytes} (h : Accepts s)

include h

/-- The scheme of an accepted text is not too long. -/
theorem dropWhile_scheme :
    s.drop (parseUriScheme s).toNat = s.dropWhile isSchemeChar ∧
      (s.dropWhile isSchemeChar).head? = some (chr ':') := by
  have hcolon := h.colon
  rw [hasCharAt, ← List.head?_drop, beq_iff_eq] at hcolon
  have hwhole : s.drop (parseUriScheme s).toNat = s.dropWhile isSchemeChar := by
    refine (scan_whole fun c hc => ?_).2
    rw [show (s.drop (scan isSchemeChar s).toNat).head? = some (chr ':') from hcolon] at hc
    cases hc
    rfl
  exact ⟨hwhole, by rwa [← hwhole]⟩

theorem behindScheme_eq : behindScheme s = afterScheme s := by
  rw [behindScheme, ← List.drop_drop, List.drop_one, (dropWhile_scheme h).1, afterScheme]

theorem startsAuthority_eq : startsAuthority s = hasAuthorityPart s := by
  rw [startsAuthority, behindScheme_eq h, hasAuthorityPart]

/-- The authority of an accepted text is not too long. -/
theorem pathOn_eq : pathOn s = afterAuthority s := by
  have hpath := h.path
  unfold pathOn at hpath ⊢
  unfold afterAuthority
  rw [startsAuthority_eq h] at hpath ⊢
  rw [behindScheme_eq h] at hpath ⊢
  split
  · next hauth =>
    rw [if_pos hauth] at hpath
    refine (scan_whole fun c hc => ?_).2
    rcases hpath hauth with hnil | hslash
    · have hnil : ((afterScheme s).drop 2).drop (scan isAuthorityChar ((afterScheme s).drop 2)).toNat = [] := hnil
      rw [hnil] at hc
      cases hc
    · rw [hasCharAt_zero] at hslash
      rw [show (((afterScheme s).drop 2).drop (scan isAuthorityChar ((afterScheme s).drop 2)).toNat).head? =
        some (chr '/') from hslash] at hc
      cases hc
      rfl
  · rfl

theorem path_eq (hlen : (pathPart s).length < 65536) :
    rawPath (pathOn s) = pathPart s ∧ behindPath (pathOn s) = afterPath s := by
  rw [pathOn_eq h]
  rcases scan_cases isPathChar (afterAuthority s) with ⟨-, hwhole⟩ | ⟨hge, -⟩
  · exact hwhole
  · exact absurd hlen (Nat.not_lt.mpr hge)

theorem query_eq (hlen : (pathPart s).length < 65536) (hquery : (queryPart s).length < 65536) :
    rawQuery (pathOn s) = queryPart s ∧ behindQuery (pathOn s) = afterQuery s := by
  unfold rawQuery behindQuery
  rw [(path_eq h hlen).2]
  unfold queryPart afterQuery at *
  split
  · next hc =>
    rw [if_pos hc] at hquery
    rcases scan_cases isQueryChar (afterPath s).tail with ⟨-, hwhole⟩ | ⟨hge, -⟩
    · exact hwhole
    · exact absurd hquery (Nat.not_lt.mpr hge)
  · exact ⟨rfl, rfl⟩

theorem fragment_eq (hlen : (pathPart s).length < 65536) (hquery : (queryPart s).length < 65536) :
    rawFragment (pathOn s) = fragmentPart s := by
  rw [rawFragment, fragmentPart, (query_eq h hlen hquery).2]

end Accepted

end Lsp.Uri
