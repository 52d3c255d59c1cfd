import LspFramework.Lib.Chars

/-!
# Uri

A `Uri` keeps its five components in one string, one behind the other, with a 16-bit length for
each.  Component setters splice the string at the sum of the lengths before the component and then
edit its bytes in place.

* `Uri.parse`: the text behind an index into `uriStr` is the list of the bytes from it on;
  `Uri.parseIdx` is that index at the end.
* `Uri.toString`: the path is printed encoded, the other components as they are stored.
* `Uri.encode`, `Uri.decode`: percent-encoding.
-/

namespace Lsp

open Chars

structure Uri where
  data : Bytes := []
  schemeLen : UInt16 := 0
  authorityLen : UInt16 := 0
  pathLen : UInt16 := 0
  queryLen : UInt16 := 0
  fragmentLen : UInt16 := 0
  hasAuthority : Bool := false
  hasQuery : Bool := false
  hasFragment : Bool := false
  deriving DecidableEq, Repr

namespace Uri

/-! ## Scanners -/

def isSchemeChar (c : UInt8) : Bool := isalnum c || c == chr '-' || c == chr '.' || c == chr '+'

def isAuthorityChar (c : UInt8) : Bool := !(c == chr '/' || c == chr '?' || c == chr '#')

def isPathChar (c : UInt8) : Bool := !(c == chr '?' || c == chr '#')

def isQueryChar (c : UInt8) : Bool := !(c == chr '#')

/-- The loop of a scanner: it counts with 16 bits. -/
def scan (p : UInt8 → Bool) (str : Bytes) : UInt16 := UInt16.ofNat (str.takeWhile p).length

def parseUriScheme (uriStr : Bytes) : UInt16 := scan isSchemeChar uriStr

def parseUriAuthority (uriAuthorityStr : Bytes) : UInt16 := scan isAuthorityChar uriAuthorityStr

def parseUriPath (uriPathStr : Bytes) : UInt16 := scan isPathChar uriPathStr

def parseUriQuery (uriQueryStr : Bytes) : UInt16 := scan isQueryChar uriQueryStr

def hasCharAt (str : Bytes) (idx : Nat) (c : UInt8) : Bool := str[idx]? == some c

/-! ## The string -/

/-- `str.replace(pos, count, text)`. -/
def replace (str : Bytes) (pos count : Nat) (text : Bytes) : Bytes :=
  str.take pos ++ text ++ str.drop (pos + count)

/-- The loop of `normalizeEncodedCase` over the bytes from `first` to `end`. -/
def normalizeLoop : Bytes → Bytes
  | c :: a :: b :: s =>
    if c = chr '%' then c :: toupper a :: toupper b :: normalizeLoop s
    else c :: normalizeLoop (a :: b :: s)
  | s => s

def normalizeEncodedCase (str : Bytes) (first count : Nat) : Bytes :=
  let stop := min (first + count) str.length
  str.take first ++ normalizeLoop ((str.drop first).take (stop - first)) ++ str.drop stop

/-! ## Percent-encoding -/

def hexLookup (n : UInt8) : UInt8 := (bytes "0123456789ABCDEF").getD n.toNat 0

def encodeChar (exclude : Bytes) (c : UInt8) : Bytes :=
  if exclude.contains c || isalnum c || c == chr '_' || c == chr '.' || c == chr '-' then [c]
  else [chr '%', hexLookup (c >>> 4), hexLookup (c &&& 0xF)]

def encode (decoded exclude : Bytes) : Bytes := decoded.flatMap (encodeChar exclude)

/-- The loop of `decode`: `none` where it returns `{}`. -/
def decodeLoop : Bytes → Option Bytes
  | [] => some []
  | [c] => some [c]
  | [c, a] => some [c, a]
  | c :: a :: b :: s =>
    if c = chr '%' then
      match fromChars 16 255 [a, b] with
      | (.ok v, 2) => (decodeLoop s).map (UInt8.ofNat v :: ·)
      | _ => none
    else (decodeLoop (a :: b :: s)).map (c :: ·)

def decode (encoded : Bytes) : Bytes := (decodeLoop encoded).getD []

/-! ## Components -/

def isValid (u : Uri) : Bool := 0 < u.schemeLen

def authorityIdx (u : Uri) : Nat := u.schemeLen.toNat

def pathIdx (u : Uri) : Nat := u.schemeLen.toNat + u.authorityLen.toNat

def queryIdx (u : Uri) : Nat := u.schemeLen.toNat + u.authorityLen.toNat + u.pathLen.toNat

def fragmentIdx (u : Uri) : Nat :=
  u.schemeLen.toNat + u.authorityLen.toNat + u.pathLen.toNat + u.queryLen.toNat

/-- `str.substr(pos, count)`. -/
def substr (str : Bytes) (pos count : Nat) : Bytes := (str.drop pos).take count

def scheme (u : Uri) : Bytes := substr u.data 0 u.schemeLen.toNat

def authority (u : Uri) : Bytes :=
  if u.hasAuthority then substr u.data u.authorityIdx u.authorityLen.toNat else []

def path (u : Uri) : Bytes := substr u.data u.pathIdx u.pathLen.toNat

def query (u : Uri) : Bytes := if u.hasQuery then substr u.data u.queryIdx u.queryLen.toNat else []

def fragment (u : Uri) : Bytes :=
  if u.hasFragment then substr u.data u.fragmentIdx u.fragmentLen.toNat else []

def insertScheme (u : Uri) (scheme : Bytes) : Uri :=
  let data := replace u.data 0 u.schemeLen.toNat scheme
  let schemeLen := UInt16.ofNat scheme.length
  { u with
    data := (data.take schemeLen.toNat).map tolower ++ data.drop schemeLen.toNat
    schemeLen := schemeLen }

def insertAuthority (u : Uri) (authority : Bytes) : Uri :=
  let data := replace u.data u.authorityIdx u.authorityLen.toNat authority
  let authorityLen := UInt16.ofNat authority.length
  { u with
    data := normalizeEncodedCase data u.authorityIdx authorityLen.toNat
    authorityLen := authorityLen
    hasAuthority := true }

def insertPath (u : Uri) (path : Bytes) : Uri :=
  { u with
    data := replace u.data u.pathIdx u.pathLen.toNat path
    pathLen := UInt16.ofNat path.length }

def insertQuery (u : Uri) (query : Bytes) : Uri :=
  let data := replace u.data u.queryIdx u.queryLen.toNat query
  let queryLen := UInt16.ofNat query.length
  { u with
    data := normalizeEncodedCase data u.queryIdx queryLen.toNat
    queryLen := queryLen
    hasQuery := true }

def insertFragment (u : Uri) (fragment : Bytes) : Uri :=
  let data := replace u.data u.fragmentIdx u.fragmentLen.toNat fragment
  let fragmentLen := UInt16.ofNat fragment.length
  { u with
    data := normalizeEncodedCase data u.fragmentIdx fragmentLen.toNat
    fragmentLen := fragmentLen
    hasFragment := true }

/-! ## Setters

The answer, and the object afterwards. -/

def setScheme (u : Uri) (scheme : Bytes) : Bool × Uri :=
  if (parseUriScheme scheme).toNat = scheme.length then (true, u.insertScheme scheme) else (false, u)

def setAuthority (u : Uri) (authority : Bytes) : Bool × Uri :=
  if (parseUriAuthority authority).toNat = authority.length then (true, u.insertAuthority authority)
  else (false, u)

def setPath (u : Uri) (path : Bytes) : Bool × Uri := (true, u.insertPath path)

def setQuery (u : Uri) (query : Bytes) : Bool × Uri :=
  if (parseUriQuery query).toNat = query.length then (true, u.insertQuery query) else (false, u)

def setFragment (u : Uri) (fragment : Bytes) : Bool × Uri := (true, u.insertFragment fragment)

def removeAuthority (u : Uri) : Uri := { u.insertAuthority [] with hasAuthority := false }

def removeQuery (u : Uri) : Uri := { u.insertQuery [] with hasQuery := false }

def removeFragment (u : Uri) : Uri := { u.insertFragment [] with hasFragment := false }

/-! ## Texts -/

def toString (u : Uri) : Bytes :=
  if u.isValid then
    u.scheme ++ [chr ':'] ++ (if u.hasAuthority then bytes "//" ++ u.authority else []) ++
      encode u.path (bytes "/") ++ (if u.hasQuery then chr '?' :: u.query else []) ++
      (if u.hasFragment then chr '#' :: u.fragment else [])
  else []

/-- The authority at the front of `rest`, and what stands behind it. -/
def parseAuthorityPart (uri : Uri) (rest : Bytes) : Uri × Bytes :=
  let authorityLen := (parseUriAuthority rest).toNat
  (uri.insertAuthority (rest.take authorityLen), rest.drop authorityLen)

def parsePathPart (uri : Uri) (rest : Bytes) : Uri × Bytes :=
  let pathLen := (parseUriPath rest).toNat
  (uri.insertPath (decode (rest.take pathLen)), rest.drop pathLen)

def parseQueryPart (uri : Uri) (rest : Bytes) : Uri × Bytes :=
  let queryLen := (parseUriQuery rest).toNat
  (uri.insertQuery (rest.take queryLen), rest.drop queryLen)

/-- `parse` from the path on. -/
def parsePathOn (uri : Uri) (rest : Bytes) : Uri :=
  let (uri, rest) := if rest ≠ [] then parsePathPart uri rest else (uri, rest)
  let (uri, rest) := if hasCharAt rest 0 (chr '?') then parseQueryPart uri rest.tail else (uri, rest)
  if hasCharAt rest 0 (chr '#') then uri.insertFragment rest.tail else uri

/-- `Uri::parse`; the assertion at its end is not compiled into a release build. -/
def parse (uriStr : Bytes) : Uri :=
  let schemeLen := (parseUriScheme uriStr).toNat
  if schemeLen = 0 ∨ hasCharAt uriStr schemeLen (chr ':') = false then {}
  else
    let uri := ({} : Uri).insertScheme (uriStr.take schemeLen)
    let rest := uriStr.drop (schemeLen + 1)
    let hasAuthority := hasCharAt rest 0 (chr '/') && hasCharAt rest 1 (chr '/')
    if hasAuthority then
      let (uri, rest) := parseAuthorityPart uri (rest.drop 2)
      if rest ≠ [] ∧ hasCharAt rest 0 (chr '/') = false then {} else parsePathOn uri rest
    else parsePathOn uri rest

/-- `idx` where `parse` asserts that it is the size of the text; `none` where it returns before. -/
def parseIdx (uriStr : Bytes) : Option Nat :=
  let schemeLen := (parseUriScheme uriStr).toNat
  if schemeLen = 0 ∨ hasCharAt uriStr schemeLen (chr ':') = false then none
  else
    let idx := schemeLen + 1
    let hasAuthority := hasCharAt uriStr idx (chr '/') && hasCharAt uriStr (idx + 1) (chr '/')
    let idx := if hasAuthority then idx + 2 + (parseUriAuthority (uriStr.drop (idx + 2))).toNat else idx
    if idx < uriStr.length ∧ hasAuthority ∧ hasCharAt uriStr idx (chr '/') = false then none
    else
      let idx := if idx < uriStr.length then idx + (parseUriPath (uriStr.drop idx)).toNat else idx
      let idx :=
        if hasCharAt uriStr idx (chr '?') then idx + 1 + (parseUriQuery (uriStr.drop (idx + 1))).toNat else idx
      some (if hasCharAt uriStr idx (chr '#') then idx + 1 + (uriStr.drop (idx + 1)).length else idx)

end Uri

end Lsp
