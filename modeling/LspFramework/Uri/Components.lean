import LspFramework.Uri.Parts

/-!
# Texts composed of components

`compose r` writes five components one behind the other with their delimiters.  Where each keeps to
its characters (`Splits`) and is short enough for a 16-bit length (`Short`), the parts of the text
are the components again (`recordOf_compose`).  `Components` is the same with every escape a
well-formed triplet:

    (parse k.text).isValid ∧ (parse k.text).fields = k.record
      ↔ ¬ (an authority, no path, and a query or a fragment)           (parse_text_iff)
-/

namespace Lsp.Uri

open Chars

/-! ## Composing -/

def authorityText (r : Record) : Bytes := if r.hasAuthority then bytes "//" ++ r.authority else []

def queryText (r : Record) : Bytes := if r.hasQuery then chr '?' :: r.query else []

def fragmentText (r : Record) : Bytes := if r.hasFragment then chr '#' :: r.fragment else []

/-- The text from the path on. -/
def composeFromPath (r : Record) : Bytes := r.path ++ (queryText r ++ fragmentText r)

/-- `scheme ':' [ '//' authority ] path [ '?' query ] [ '#' fragment ]`. -/
def compose (r : Record) : Bytes := r.scheme ++ chr ':' :: (authorityText r ++ composeFromPath r)

/-- Every component keeps to its characters. -/
structure Splits (r : Record) : Prop where
  scheme : ∀ c ∈ r.scheme, isSchemeChar c = true
  authority : ∀ c ∈ r.authority, isAuthorityChar c = true
  path : ∀ c ∈ r.path, isPathChar c = true
  pathFront : r.hasAuthority = true → r.path = [] ∨ r.path.head? = some (chr '/')
  query : ∀ c ∈ r.query, isQueryChar c = true
  noAuthority : r.hasAuthority = false → r.authority = []
  noQuery : r.hasQuery = false → r.query = []
  noFragment : r.hasFragment = false → r.fragment = []

structure Short (r : Record) : Prop where
  scheme : r.scheme.length < 65536
  authority : r.authority.length < 65536
  path : r.path.length < 65536
  query : r.query.length < 65536
  fragment : r.fragment.length < 65536

/-- What `parse` makes of the components of a text. -/
def Record.parsed (r : Record) : Record :=
  { r with
    scheme := r.scheme.map tolower
    authority := normalizeLoop r.authority
    path := decode r.path
    query := normalizeLoop r.query
    fragment := normalizeLoop r.fragment }

/-! ## Delimiters -/

theorem queryText_head (r : Record) :
    ∀ c, (queryText r ++ fragmentText r).head? = some c → c = chr '?' ∨ c = chr '#' := by
  intro c hc
  unfold queryText fragmentText at hc
  split at hc
  · cases hc
    exact .inl rfl
  · split at hc
    · cases hc
      exact .inr rfl
    · cases hc

theorem fragmentText_head (r : Record) : ∀ c, (fragmentText r).head? = some c → c = chr '#' := by
  intro c hc
  unfold fragmentText at hc
  split at hc
  · cases hc
    rfl
  · cases hc

theorem hasCharAt_query (r : Record) : hasCharAt (queryText r ++ fragmentText r) 0 (chr '?') = r.hasQuery := by
  cases hq : r.hasQuery with
  | true =>
    rw [queryText, if_pos hq]
    rfl
  | false =>
    rw [queryText, if_neg (by simp [hq]), List.nil_append, ← Bool.not_eq_true, hasCharAt_zero]
    exact fun hc => absurd (fragmentText_head r _ hc) (by decide)

theorem hasCharAt_fragment (r : Record) : hasCharAt (fragmentText r) 0 (chr '#') = r.hasFragment := by
  unfold fragmentText
  cases r.hasFragment <;> rfl

theorem head_behindPath (r : Record) :
    ∀ c, (queryText r ++ fragmentText r).head? = some c → isPathChar c = false := by
  intro c hc
  rcases queryText_head r c hc with rfl | rfl <;> rfl

/-- The text from the path on begins with a slash exactly when the path does. -/
theorem composeFromPath_head_slash (r : Record) :
    hasCharAt (composeFromPath r) 0 (chr '/') = true ↔ r.path.head? = some (chr '/') := by
  rw [hasCharAt_zero, composeFromPath, List.head?_append]
  cases r.path with
  | nil =>
    constructor
    · intro h
      rcases queryText_head r _ h with h | h <;> exact absurd h (by decide)
    · intro h
      cases h
  | cons c p => rfl

theorem composeFromPath_eq_nil (r : Record) :
    composeFromPath r = [] ↔ r.path = [] ∧ r.hasQuery = false ∧ r.hasFragment = false := by
  rw [composeFromPath, List.append_eq_nil_iff, List.append_eq_nil_iff]
  unfold queryText fragmentText
  cases r.hasQuery <;> cases r.hasFragment <;> simp

/-- Two slashes stand behind the scheme where there is an authority, and where the path begins with
them. -/
theorem slashes_compose (r : Record) :
    (hasCharAt (authorityText r ++ composeFromPath r) 0 (chr '/') &&
      hasCharAt (authorityText r ++ composeFromPath r) 1 (chr '/')) = true ↔
      r.hasAuthority = true ∨ ∃ t, r.path = chr '/' :: chr '/' :: t := by
  cases hauth : r.hasAuthority with
  | true =>
    rw [authorityText, if_pos hauth]
    exact ⟨fun _ => .inl rfl, fun _ => rfl⟩
  | false =>
    have hfirst := composeFromPath_head_slash r
    rw [authorityText, hauth, if_neg Bool.false_ne_true, List.nil_append, Bool.and_eq_true, hfirst]
    cases hpath : r.path with
    | nil => simp
    | cons c p =>
      have hsecond := composeFromPath_head_slash { r with path := p }
      have hshift : hasCharAt (composeFromPath r) 1 (chr '/') =
          hasCharAt (composeFromPath { r with path := p }) 0 (chr '/') := by
        rw [composeFromPath, hpath]
        rfl
      rw [hshift, hsecond]
      constructor
      · rintro ⟨hc, hp⟩
        obtain rfl := Option.some.inj hc
        obtain ⟨t, rfl⟩ := List.head?_eq_some_iff.mp hp
        exact .inr ⟨t, rfl⟩
      · rintro (hno | ⟨t, ht⟩)
        · cases hno
        · cases ht
          exact ⟨rfl, rfl⟩

/-! ## The parts of a composed text -/

section Compose

variable {r : Record}

theorem scheme_compose (h : ∀ c ∈ r.scheme, isSchemeChar c = true) (hlen : r.scheme.length < 65536) :
    (parseUriScheme (compose r)).toNat = r.scheme.length ∧
      behindScheme (compose r) = authorityText r ++ composeFromPath r ∧
      hasCharAt (compose r) (parseUriScheme (compose r)).toNat (chr ':') = true := by
  have hscan : (parseUriScheme (compose r)).toNat = r.scheme.length := by
    refine scan_append h (fun c hc => ?_) hlen
    cases hc
    rfl
  refine ⟨hscan, ?_, ?_⟩
  · rw [behindScheme, hscan, compose, ← List.drop_drop, List.drop_left]
    rfl
  · rw [hscan, compose, hasCharAt, List.getElem?_append_right (Nat.le_refl _), Nat.sub_self]
    rfl

theorem startsAuthority_compose (h : ∀ c ∈ r.scheme, isSchemeChar c = true) (hlen : r.scheme.length < 65536) :
    startsAuthority (compose r) = true ↔ r.hasAuthority = true ∨ ∃ t, r.path = chr '/' :: chr '/' :: t := by
  rw [startsAuthority, (scheme_compose h hlen).2.1]
  exact slashes_compose r

theorem afterScheme_compose (h : ∀ c ∈ r.scheme, isSchemeChar c = true) :
    afterScheme (compose r) = authorityText r ++ composeFromPath r := by
  rw [afterScheme, compose, dropWhile_append_stop h fun c hc => by cases hc; rfl]
  rfl

theorem hasAuthorityPart_compose (h : ∀ c ∈ r.scheme, isSchemeChar c = true) :
    hasAuthorityPart (compose r) = true ↔ r.hasAuthority = true ∨ ∃ t, r.path = chr '/' :: chr '/' :: t := by
  rw [hasAuthorityPart, afterScheme_compose h]
  exact slashes_compose r

variable (h : Splits r)

include h

theorem head_composeFromPath (hr : r.hasAuthority = true) :
    ∀ c, (composeFromPath r).head? = some c → isAuthorityChar c = false := by
  intro c hc
  rcases h.pathFront hr with hnil | hslash
  · rw [composeFromPath, hnil] at hc
    rcases queryText_head r c hc with rfl | rfl <;> rfl
  · rw [(hasCharAt_zero _ _).mp ((composeFromPath_head_slash r).mpr hslash)] at hc
    cases hc
    rfl

theorem authority_compose (hscheme : r.scheme.length < 65536) (hauth : r.authority.length < 65536)
    (hstart : startsAuthority (compose r) = r.hasAuthority) :
    rawAuthority (compose r) = r.authority ∧ pathOn (compose r) = composeFromPath r := by
  have hbehind := (scheme_compose h.scheme hscheme).2.1
  cases hr : r.hasAuthority with
  | true =>
    rw [hr] at hstart
    obtain ⟨hraw, hon⟩ := pathOn_of_authority hstart
    have hdrop : (behindScheme (compose r)).drop 2 = r.authority ++ composeFromPath r := by
      rw [hbehind, authorityText, if_pos hr]
      rfl
    have hscan : (parseUriAuthority (r.authority ++ composeFromPath r)).toNat = r.authority.length :=
      scan_append h.authority (head_composeFromPath h hr) hauth
    rw [hraw, hon, hdrop, hscan]
    exact ⟨List.take_left, List.drop_left⟩
  | false =>
    rw [hr] at hstart
    obtain ⟨hraw, hon⟩ := pathOn_of_not_authority hstart
    rw [hraw, hon, hbehind, authorityText, hr, h.noAuthority hr]
    exact ⟨rfl, rfl⟩

/-- The path is found again, however long it is. -/
theorem pathPart_compose (hstart : hasAuthorityPart (compose r) = r.hasAuthority) :
    pathPart (compose r) = r.path := by
  have hafter : afterAuthority (compose r) = composeFromPath r := by
    rw [afterAuthority, hstart, afterScheme_compose h.scheme, authorityText]
    cases hr : r.hasAuthority with
    | true => exact dropWhile_append_stop h.authority (head_composeFromPath h hr)
    | false => rfl
  rw [pathPart, hafter, composeFromPath]
  exact takeWhile_append_stop h.path (head_behindPath r)

theorem path_compose (hlen : r.path.length < 65536) :
    rawPath (composeFromPath r) = r.path ∧ behindPath (composeFromPath r) = queryText r ++ fragmentText r := by
  have hscan : (parseUriPath (composeFromPath r)).toNat = r.path.length :=
    scan_append h.path (head_behindPath r) hlen
  unfold rawPath behindPath
  rw [hscan]
  exact ⟨List.take_left, List.drop_left⟩

theorem query_compose (hlen : r.path.length < 65536) (hquery : r.query.length < 65536) :
    rawQuery (composeFromPath r) = r.query ∧ behindQuery (composeFromPath r) = fragmentText r := by
  unfold rawQuery behindQuery
  rw [(path_compose h hlen).2, hasCharAt_query]
  cases hq : r.hasQuery with
  | true =>
    have htail : (queryText r ++ fragmentText r).tail = r.query ++ fragmentText r := by
      rw [queryText, if_pos hq]
      rfl
    have hscan : (parseUriQuery (r.query ++ fragmentText r)).toNat = r.query.length := by
      refine scan_append h.query (fun c hc => ?_) hquery
      rw [fragmentText_head r c hc]
      rfl
    rw [if_pos rfl, if_pos rfl, htail, hscan]
    exact ⟨List.take_left, List.drop_left⟩
  | false =>
    rw [if_neg Bool.false_ne_true, if_neg Bool.false_ne_true, h.noQuery hq, queryText, if_neg (by simp [hq])]
    exact ⟨rfl, rfl⟩

theorem fragment_compose (hlen : r.path.length < 65536) (hquery : r.query.length < 65536) :
    rawFragment (composeFromPath r) = r.fragment := by
  unfold rawFragment
  rw [(query_compose h hlen hquery).2, hasCharAt_fragment]
  cases hf : r.hasFragment with
  | true =>
    rw [fragmentText, if_pos hf]
    rfl
  | false => exact (h.noFragment hf).symm

variable (hlen : Short r) (hstart : startsAuthority (compose r) = r.hasAuthority)

include hlen hstart

/-- **The parts of a composed text are its components**, when its authority is found again. -/
theorem recordOf_compose : recordOf (compose r) = r.parsed := by
  obtain ⟨h₁, hon⟩ := authority_compose h hlen.scheme hlen.authority hstart
  obtain ⟨h₂, hb₂⟩ := path_compose h hlen.path
  obtain ⟨h₃, hb₃⟩ := query_compose h hlen.path hlen.query
  have h₄ := fragment_compose h hlen.path hlen.query
  unfold recordOf
  rw [hon, hstart, h₁, h₂, hb₂, h₃, hb₃, h₄, hasCharAt_query, hasCharAt_fragment,
    (scheme_compose h.scheme hlen.scheme).1, compose, List.take_left]
  rfl

/-- Behind an authority and no path, an accepted text ends. -/
theorem accepts_compose_iff (hne : r.scheme ≠ []) :
    Accepts (compose r) ↔
      ¬ (r.hasAuthority = true ∧ r.path = [] ∧ (r.hasQuery = true ∨ r.hasFragment = true)) := by
  obtain ⟨hscan, -, hcolon⟩ := scheme_compose h.scheme hlen.scheme
  have hon := (authority_compose h hlen.scheme hlen.authority hstart).2
  constructor
  · rintro hacc ⟨hauth, hnil, hmore⟩
    rcases hacc.path (hstart.trans hauth) with hempty | hslash
    · rw [hon, composeFromPath_eq_nil] at hempty
      rw [hempty.2.1, hempty.2.2] at hmore
      rcases hmore with hmore | hmore <;> cases hmore
    · rw [hon, composeFromPath_head_slash, hnil] at hslash
      cases hslash
  · intro hno
    refine ⟨?_, hcolon, fun hauth => ?_⟩
    · rw [hscan]
      exact fun hz => hne (List.length_eq_zero_iff.mp hz)
    · rw [hstart] at hauth
      rw [hon]
      rcases h.pathFront hauth with hnil | hslash
      · refine .inl ((composeFromPath_eq_nil r).mpr ⟨hnil, ?_, ?_⟩)
        · exact Bool.eq_false_iff.mpr fun hq => hno ⟨hauth, hnil, .inl hq⟩
        · exact Bool.eq_false_iff.mpr fun hf => hno ⟨hauth, hnil, .inr hf⟩
      · exact .inr ((composeFromPath_head_slash r).mpr hslash)

theorem parse_compose (hacc : Accepts (compose r)) : Represents (parse (compose r)) r.parsed := by
  have hfragment : (rawFragment (pathOn (compose r))).length < 65536 := by
    rw [(authority_compose h hlen.scheme hlen.authority hstart).2, fragment_compose h hlen.path hlen.query]
    exact hlen.fragment
  rw [← recordOf_compose h hlen hstart]
  exact parse_accepts hacc hfragment

end Compose

/-! ## Components with well-formed escapes -/

theorem decodeLoop_text (ps : List Percent.Piece) :
    decodeLoop (Percent.text ps) = some (Percent.values ps) := by
  induction ps with
  | nil => rfl
  | cons p ps ih =>
    rw [Percent.text_cons]
    cases p with
    | plain c h =>
      rw [Percent.Piece.text, List.singleton_append, decodeLoop_plain h, ih]
      rfl
    | triplet a b ha hb =>
      rw [Percent.Piece.text, List.cons_append, List.cons_append, List.singleton_append, decodeLoop_escape,
        ha, hb, ih]
      rfl

theorem decode_text (ps : List Percent.Piece) : decode (Percent.text ps) = Percent.values ps := by
  rw [decode, decodeLoop_text]
  rfl

theorem normalizeLoop_text (ps : List Percent.Piece) :
    normalizeLoop (Percent.text ps) = Percent.text (Percent.upper ps) := by
  induction ps with
  | nil => rfl
  | cons p ps ih =>
    have hupper : Percent.text (Percent.upper (p :: ps)) =
        p.upper.text ++ Percent.text (Percent.upper ps) := rfl
    rw [Percent.text_cons, hupper, ← ih]
    cases p with
    | plain c h => exact normalizeLoop_plain h _
    | triplet a b ha hb => rfl

structure Components where
  scheme : Bytes
  authority : Option (List Percent.Piece) := none
  path : List Percent.Piece := []
  query : Option (List Percent.Piece) := none
  fragment : Option (List Percent.Piece) := none

namespace Components

/-- `scheme ':' [ '//' authority ] path [ '?' query ] [ '#' fragment ]`. -/
def text (k : Components) : Bytes :=
  k.scheme ++ [chr ':'] ++ k.authority.elim [] (fun a => bytes "//" ++ Percent.text a) ++ Percent.text k.path ++
    k.query.elim [] (fun q => chr '?' :: Percent.text q) ++
    k.fragment.elim [] (fun f => chr '#' :: Percent.text f)

/-- The components as they are written. -/
def written (k : Components) : Record where
  scheme := k.scheme
  authority := k.authority.elim [] Percent.text
  path := Percent.text k.path
  query := k.query.elim [] Percent.text
  fragment := k.fragment.elim [] Percent.text
  hasAuthority := k.authority.isSome
  hasQuery := k.query.isSome
  hasFragment := k.fragment.isSome

/-- The components as the getters are to give them: the scheme in lower case, the path decoded, the
hex digits of the others in upper case. -/
def record (k : Components) : Record where
  scheme := k.scheme.map tolower
  authority := k.authority.elim [] (Percent.text ∘ Percent.upper)
  path := Percent.values k.path
  query := k.query.elim [] (Percent.text ∘ Percent.upper)
  fragment := k.fragment.elim [] (Percent.text ∘ Percent.upper)
  hasAuthority := k.authority.isSome
  hasQuery := k.query.isSome
  hasFragment := k.fragment.isSome

structure WellFormed (k : Components) : Prop where
  schemeNonempty : k.scheme ≠ []
  scheme : ∀ c ∈ k.scheme, isSchemeChar c = true
  authority : ∀ a, k.authority = some a → ∀ c ∈ Percent.text a, isAuthorityChar c = true
  path : ∀ c ∈ Percent.text k.path, isPathChar c = true
  pathFront : k.authority.isSome = true → k.path = [] ∨ (Percent.text k.path).head? = some (chr '/')
  pathSlashes : k.authority = none → ¬ ∃ t, Percent.text k.path = chr '/' :: chr '/' :: t
  query : ∀ q, k.query = some q → ∀ c ∈ Percent.text q, isQueryChar c = true
  short : Short k.written

theorem text_eq (k : Components) : k.text = compose k.written := by
  obtain ⟨scheme, authority, path, query, fragment⟩ := k
  cases authority <;> cases query <;> cases fragment <;>
    simp [text, compose, composeFromPath, authorityText, queryText, fragmentText, written]

theorem parsed_written (k : Components) : k.written.parsed = k.record := by
  have hcase : ∀ o : Option (List Percent.Piece),
      normalizeLoop (o.elim [] Percent.text) = o.elim [] (Percent.text ∘ Percent.upper) := by
    intro o
    cases o with
    | none => rfl
    | some ps => exact normalizeLoop_text ps
  simp only [Record.parsed, written, record, decode_text, hcase]

namespace WellFormed

variable {k : Components} (h : k.WellFormed)

include h

theorem splits : Splits k.written where
  scheme := h.scheme
  authority := by
    intro c hc
    cases ha : k.authority with
    | none => simp [written, ha] at hc
    | some a => exact h.authority a ha c (by simpa [written, ha] using hc)
  path := h.path
  pathFront := by
    intro hauth
    rcases h.pathFront hauth with hnil | hslash
    · exact .inl (Percent.text_eq_nil.mpr hnil)
    · exact .inr hslash
  query := by
    intro c hc
    cases hq : k.query with
    | none => simp [written, hq] at hc
    | some q => exact h.query q hq c (by simpa [written, hq] using hc)
  noAuthority := fun hno => by
    rw [written, Option.isSome_eq_false_iff.mp hno |> Option.isNone_iff_eq_none.mp]
    rfl
  noQuery := fun hno => by rw [written, Option.isSome_eq_false_iff.mp hno |> Option.isNone_iff_eq_none.mp]; rfl
  noFragment := fun hno => by
    rw [written, Option.isSome_eq_false_iff.mp hno |> Option.isNone_iff_eq_none.mp]
    rfl

theorem startsAuthority_text : startsAuthority (compose k.written) = k.authority.isSome := by
  rw [Bool.eq_iff_iff, startsAuthority_compose h.scheme h.short.scheme]
  refine or_iff_left_of_imp fun hslashes => ?_
  by_contra hno
  exact h.pathSlashes (by simpa [written] using hno) hslashes

end WellFormed

end Components

/-- **A composed text is parsed into its components** unless a query or a fragment stands right behind
an authority. -/
theorem parse_text_iff {k : Components} (h : k.WellFormed) :
    (parse k.text).isValid = true ∧ (parse k.text).fields = k.record ↔
      ¬ (k.authority.isSome = true ∧ k.path = [] ∧ (k.query.isSome = true ∨ k.fragment.isSome = true)) := by
  have hstart := h.startsAuthority_text
  have hacc := accepts_compose_iff h.splits h.short hstart h.schemeNonempty
  have hpath : k.written.path = [] ↔ k.path = [] := Percent.text_eq_nil
  rw [hpath] at hacc
  rw [k.text_eq, ← k.parsed_written]
  constructor
  · rintro ⟨hvalid, -⟩
    exact hacc.mp (accepts_of_isValid hvalid)
  · intro hno
    have hrep := parse_compose h.splits h.short hstart (hacc.mpr hno)
    exact ⟨isValid_parse (hacc.mpr hno), hrep.fields_eq⟩

namespace Components

/-- `A://b/%2f?%2f#` -/
def full : Components where
  scheme := bytes "A"
  authority := some [.plain (chr 'b') (by decide)]
  path := [.plain (chr '/') (by decide), .triplet (chr '2') (chr 'f') rfl rfl]
  query := some [.triplet (chr '2') (chr 'f') rfl rfl]
  fragment := some []

theorem full_wellFormed : full.WellFormed where
  schemeNonempty := by decide +kernel
  scheme := by decide +kernel
  authority := by
    rintro a ⟨⟩
    decide +kernel
  path := by decide +kernel
  pathFront := fun _ => .inr rfl
  pathSlashes := nofun
  query := by
    rintro q ⟨⟩
    decide +kernel
  short := by constructor <;> decide +kernel

/-- `http://h?x` -/
def queryBehindAuthority : Components where
  scheme := bytes "http"
  authority := some [.plain (chr 'h') (by decide +kernel)]
  query := some [.plain (chr 'x') (by decide +kernel)]

theorem queryBehindAuthority_wellFormed : queryBehindAuthority.WellFormed where
  schemeNonempty := by decide +kernel
  scheme := by decide +kernel
  authority := by
    rintro a ⟨⟩
    decide +kernel
  path := by decide +kernel
  pathFront := fun _ => .inl rfl
  pathSlashes := nofun
  query := by
    rintro q ⟨⟩
    decide +kernel
  short := by constructor <;> decide +kernel

end Components

theorem parse_text_full :
    (parse Components.full.text).isValid = true ∧ (parse Components.full.text).fields = Components.full.record ↔
      ¬ (Components.full.authority.isSome = true ∧ Components.full.path = [] ∧
        (Components.full.query.isSome = true ∨ Components.full.fragment.isSome = true)) :=
  parse_text_iff Components.full_wellFormed

theorem parse_queryBehindAuthority :
    Components.queryBehindAuthority.WellFormed ∧
    Components.queryBehindAuthority.text = bytes "http://h?x" ∧
    (parse Components.queryBehindAuthority.text).isValid = false :=
  ⟨Components.queryBehindAuthority_wellFormed, by decide +kernel, by decide +kernel⟩

end Lsp.Uri
