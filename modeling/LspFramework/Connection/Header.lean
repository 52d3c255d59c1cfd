import Mathlib.Data.List.DropRight
import LspFramework.Lib.Chars

/-!
# Message headers

A header is a sequence of lines `name: value`.  `parseHeaderValue` reads one of them: names in
any letter case, white space around name and value, unknown fields ignored.  `HeaderLine line n`
says in terms of the text what a line announces, and

    HeaderLine line n → parseHeaderValue header line = .ok header'        (parseHeaderValue_line)

where `header'` has the announced length.  `messageHeaderString` prints the header of a frame,
whose two lines are header lines (`messageHeaderString_eq`).
-/

namespace Lsp.Connection

open Chars

/-- The text of a `ConnectionError`. -/
abbrev ConnectionError := Bytes

/-! ## Algorithm -/

def trimWhitespace (str : Bytes) : Bytes := (str.dropWhile isspace).rdropWhile isspace

def equalCaseInsensitive (lhs rhs : Bytes) : Bool := lhs.map tolower == rhs.map tolower

def startsWith (str word : Bytes) : Bool := str.take word.length == word

/-- What stands behind the first occurrence of `word`. -/
def behind? (word : Bytes) : Bytes → Option Bytes
  | [] => if word = [] then some [] else none
  | c :: s => if startsWith (c :: s) word then some ((c :: s).drop word.length) else behind? word s

def verifyContentType (contentType : Bytes) : Except ConnectionError Unit :=
  if startsWith contentType (bytes "application/vscode-jsonrpc") then
    match behind? (bytes "charset=") contentType with
    | none => .ok ()
    | some rest =>
      let charset := trimWhitespace (rest.takeWhile (· != chr ';'))
      if charset = bytes "utf-8" ∨ charset = bytes "utf8" then .ok ()
      else .error (bytes "Protocol: Unsupported or invalid character encoding: " ++ charset)
  else .error (bytes "Protocol: Unsupported or invalid content type: " ++ contentType)

structure MessageHeader where
  contentLength : Nat := 0
  contentType : Bytes := bytes "application/vscode-jsonrpc; charset=utf-8"

/-- The greatest `std::size_t`. -/
def sizeMax : Nat := 2 ^ 64 - 1

def parseHeaderValue (header : MessageHeader) (line : Bytes) : Except ConnectionError MessageHeader :=
  if chr ':' ∈ line then
    let key := trimWhitespace (line.takeWhile (· != chr ':'))
    let value := trimWhitespace ((line.dropWhile (· != chr ':')).drop 1)
    if equalCaseInsensitive key (bytes "Content-Length") then
      match fromChars 10 sizeMax value with
      | (.ok n, len) =>
        if len = value.length then .ok { header with contentLength := n }
        else .error (bytes "Protocol: Invalid value for Content-Length header field")
      | (.error _, _) => .error (bytes "Protocol: Invalid value for Content-Length header field")
    else if equalCaseInsensitive key (bytes "Content-Type") then .ok { header with contentType := value }
    else .ok header
  else .ok header

def messageHeaderString (header : MessageHeader) : Bytes :=
  bytes "Content-Length: " ++ natText header.contentLength ++ bytes "\r\n" ++
    bytes "Content-Type: " ++ header.contentType ++ bytes "\r\n\r\n"

/-! ## Header lines -/

def CRLF : Bytes := [13, 10]

/-- What the reader takes for a line: a text that is not empty, has no CR and no LF in it, and does
not begin with the byte that stands for the end of the input. -/
structure Line (line : Bytes) : Prop where
  head : ∃ c s, line = c :: s ∧ c ≠ 255
  cr : 13 ∉ line
  lf : 10 ∉ line

/-- The name of the field in front of a colon, without white space around it and in lower case. -/
def FieldName (line name : Bytes) : Prop :=
  ∃ key value, line = key ++ chr ':' :: value ∧ chr ':' ∉ key ∧ (trimWhitespace key).map tolower = name

/-- A line and the content length it announces. -/
inductive HeaderLine : Bytes → Option Nat → Prop
  | contentLength {w₁ key w₂ w₃ ds w₄ : Bytes} : (∀ c ∈ w₁, isspace c = true) →
      key.map tolower = bytes "content-length" → (∀ c ∈ w₂, isspace c = true) →
      (∀ c ∈ w₃, isspace c = true) → ds ≠ [] → (∀ c ∈ ds, isdigit c = true) →
      (∀ c ∈ w₄, isspace c = true) → valueOf 10 ds ≤ sizeMax →
      HeaderLine (w₁ ++ key ++ w₂ ++ chr ':' :: (w₃ ++ ds ++ w₄)) (some (valueOf 10 ds))
  | other {line : Bytes} : ¬FieldName line (bytes "content-length") → HeaderLine line none

/-! ## Lemmas -/

theorem trimWhitespace_pad {w s w' : Bytes} (hw : ∀ c ∈ w, isspace c = true)
    (hw' : ∀ c ∈ w', isspace c = true) (hhead : ∀ c, s.head? = some c → isspace c = false)
    (hlast : ∀ c, s.getLast? = some c → isspace c = false) : trimWhitespace (w ++ s ++ w') = s := by
  unfold trimWhitespace
  cases s with
  | nil =>
    have hall : ∀ c ∈ w ++ [] ++ w', isspace c = true := by
      intro c hc
      rw [List.append_nil] at hc
      exact (List.mem_append.mp hc).elim (hw c) (hw' c)
    rw [List.dropWhile_eq_nil_iff.mpr hall]
    rfl
  | cons c s =>
    rw [List.append_assoc, dropWhile_append_stop hw (r := c :: s ++ w')
      (by simpa using hhead c rfl)]
    rw [List.rdropWhile, List.reverse_append, dropWhile_append_stop, List.reverse_reverse]
    · intro d hd
      exact hw' d (List.mem_reverse.mp hd)
    · intro d hd
      rw [List.head?_reverse] at hd
      exact hlast d hd

theorem takeWhile_ne_append {c : UInt8} {s : Bytes} (h : c ∉ s) (t : Bytes) :
    (s ++ c :: t).takeWhile (· != c) = s ∧ (s ++ c :: t).dropWhile (· != c) = c :: t := by
  have hs : ∀ d ∈ s, (d != c) = true := by
    intro d hd
    rw [bne_iff_ne]
    rintro rfl
    exact h hd
  have ht : ∀ d, (c :: t).head? = some d → (d != c) = false := by simp
  exact ⟨takeWhile_append_stop hs ht, dropWhile_append_stop hs ht⟩

/-- A line with a colon, with the parts in front of the first one and behind it. -/
theorem parseHeaderValue_field {header : MessageHeader} {key value : Bytes} (h : chr ':' ∉ key) :
    parseHeaderValue header (key ++ chr ':' :: value) =
      if equalCaseInsensitive (trimWhitespace key) (bytes "Content-Length") then
        match fromChars 10 sizeMax (trimWhitespace value) with
        | (.ok n, len) =>
          if len = (trimWhitespace value).length then .ok { header with contentLength := n }
          else .error (bytes "Protocol: Invalid value for Content-Length header field")
        | (.error _, _) => .error (bytes "Protocol: Invalid value for Content-Length header field")
      else if equalCaseInsensitive (trimWhitespace key) (bytes "Content-Type") then
        .ok { header with contentType := trimWhitespace value }
      else .ok header := by
  obtain ⟨h₁, h₂⟩ := takeWhile_ne_append h value
  unfold parseHeaderValue
  rw [if_pos (by simp), h₁, h₂]
  rfl

theorem map_tolower_contentLength :
    (bytes "Content-Length").map tolower = bytes "content-length" := by
  decide

theorem equalCaseInsensitive_contentLength (key : Bytes) :
    equalCaseInsensitive key (bytes "Content-Length") = true ↔ key.map tolower = bytes "content-length" := by
  rw [equalCaseInsensitive, beq_iff_eq, map_tolower_contentLength]

theorem isspace_tolower : ∀ c : UInt8, isspace (tolower c) = isspace c :=
  forall_byte (by decide +kernel)

theorem colon_tolower : ∀ c : UInt8, c = chr ':' → tolower c = chr ':' :=
  forall_byte (by decide +kernel)

theorem isspace_of_isdigit : ∀ c : UInt8, isdigit c = true → isspace c = false :=
  forall_byte (by decide +kernel)

/-- A name that is `content-length` in some letter case has no white space and no colon in it. -/
theorem contentLength_key {key : Bytes} (h : key.map tolower = bytes "content-length") {c : UInt8}
    (hc : c ∈ key) : isspace c = false ∧ c ≠ chr ':' := by
  have hmem : tolower c ∈ bytes "content-length" := h ▸ List.mem_map_of_mem hc
  have hall : ∀ d ∈ bytes "content-length", isspace d = false ∧ d ≠ chr ':' := by decide +kernel
  obtain ⟨h₁, h₂⟩ := hall _ hmem
  exact ⟨(isspace_tolower c) ▸ h₁, fun heq => h₂ (colon_tolower c heq)⟩

/-- **A header line is parsed, and the content length is the one it announces.** -/
theorem parseHeaderValue_line {line : Bytes} {n : Option Nat} (h : HeaderLine line n)
    (header : MessageHeader) :
    ∃ header', parseHeaderValue header line = .ok header' ∧
      header'.contentLength = n.getD header.contentLength := by
  cases h with
  | @contentLength w₁ key w₂ w₃ ds w₄ h₁ hkey h₂ h₃ hne hds h₄ hmax =>
    have hcolon : chr ':' ∉ w₁ ++ key ++ w₂ := by
      have hsp : ∀ {w : Bytes}, (∀ c ∈ w, isspace c = true) → chr ':' ∉ w := by
        intro w hw hmem
        have := hw _ hmem
        revert this
        decide
      simp only [List.mem_append, not_or]
      exact ⟨⟨hsp h₁, fun hc => (contentLength_key hkey hc).2 rfl⟩, hsp h₂⟩
    have htrim : trimWhitespace (w₁ ++ key ++ w₂) = key :=
      trimWhitespace_pad h₁ h₂ (fun c hc => (contentLength_key hkey (List.mem_of_mem_head? hc)).1)
        (fun c hc => (contentLength_key hkey (List.mem_of_mem_getLast? hc)).1)
    have htrim' : trimWhitespace (w₃ ++ ds ++ w₄) = ds :=
      trimWhitespace_pad h₃ h₄ (fun c hc => isspace_of_isdigit c (hds c (List.mem_of_mem_head? hc)))
        (fun c hc => isspace_of_isdigit c (hds c (List.mem_of_mem_getLast? hc)))
    have hfrom : fromChars 10 sizeMax ds = (.ok (valueOf 10 ds), ds.length) := by
      have := fromChars_digits (r := []) hds hne rfl hmax (by simp)
      simpa using this
    refine ⟨{ header with contentLength := valueOf 10 ds }, ?_, rfl⟩
    rw [parseHeaderValue_field hcolon, htrim, htrim',
      if_pos ((equalCaseInsensitive_contentLength key).mpr hkey), hfrom]
    exact if_pos rfl
  | other hname =>
    by_cases hcolon : chr ':' ∈ line
    · obtain ⟨key, value, rfl, hkey⟩ := List.eq_append_cons_of_mem hcolon
      have hother : ¬equalCaseInsensitive (trimWhitespace key) (bytes "Content-Length") = true := fun heq =>
        hname ⟨key, value, rfl, hkey, (equalCaseInsensitive_contentLength _).mp heq⟩
      rw [parseHeaderValue_field hkey, if_neg hother]
      split
      · exact ⟨_, rfl, rfl⟩
      · exact ⟨_, rfl, rfl⟩
    · exact ⟨header, if_neg hcolon, rfl⟩

/-! ## The header of a frame -/

theorem line_of_all {c : UInt8} {s : Bytes} (h : (c :: s).all (fun d => d != 13 && d != 10 && d != 255) = true) :
    Line (c :: s) := by
  have hne : ∀ d ∈ c :: s, d ≠ 13 ∧ d ≠ 10 ∧ d ≠ 255 := by
    intro d hd
    have := List.all_eq_true.mp h d hd
    simpa [and_assoc] using this
  exact ⟨⟨c, s, rfl, (hne c List.mem_cons_self).2.2⟩, fun hmem => (hne _ hmem).1 rfl,
    fun hmem => (hne _ hmem).2.1 rfl⟩

theorem isdigit_plain : ∀ c : UInt8, isdigit c = true → (c != 13 && c != 10 && c != 255) = true :=
  forall_byte (by decide +kernel)

theorem contentLength_line {n : Nat} (hn : n ≤ sizeMax) :
    Line (bytes "Content-Length: " ++ natText n) ∧
      HeaderLine (bytes "Content-Length: " ++ natText n) (some n) := by
  have hds : ∀ c ∈ natText n, isdigit c = true := fun c hc => isdigit_of_mem_natText hc
  constructor
  · apply line_of_all
    show (bytes "Content-Length: " ++ natText n).all _ = true
    rw [List.all_append, Bool.and_eq_true]
    exact ⟨rfl, List.all_eq_true.mpr fun c hc => isdigit_plain c (hds c hc)⟩
  · have hline := @HeaderLine.contentLength [] (bytes "Content-Length") [] (bytes " ") (natText n) []
      (by simp) map_tolower_contentLength (by simp) (List.all_eq_true.mp rfl) (natText_ne_nil n) hds
      (by simp) (by rwa [valueOf_natText])
    rw [valueOf_natText] at hline
    simpa [bytes] using hline

theorem contentType_line :
    Line (bytes "Content-Type: application/vscode-jsonrpc; charset=utf-8") ∧
      HeaderLine (bytes "Content-Type: application/vscode-jsonrpc; charset=utf-8") none := by
  constructor
  · exact line_of_all rfl
  · refine .other ?_
    rintro ⟨key, value, heq, hkey, hname⟩
    obtain ⟨h, -⟩ := takeWhile_ne_append hkey value
    rw [← heq] at h
    rw [← h] at hname
    revert hname
    decide

/-- **The header of a frame is two header lines and an empty one.** -/
theorem messageHeaderString_eq (n : Nat) :
    messageHeaderString { contentLength := n } =
      (bytes "Content-Length: " ++ natText n ++ CRLF) ++
      (bytes "Content-Type: application/vscode-jsonrpc; charset=utf-8" ++ CRLF) ++ CRLF := by
  simp [messageHeaderString, CRLF, bytes]

end Lsp.Connection
