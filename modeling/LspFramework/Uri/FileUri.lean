import LspFramework.Uri.RoundTrip

/-!
# File URIs

A `FileUri` is a `Uri` with the scheme `file` and an authority, whose path is a path of the file
system.  Its text names that path and no other:

    parse u.toString = u, FileUri.ofUri keeps it, and its path is p    (fileUri_identity)

The file system is a parameter: what `setPath` stores is the answer it gets from there.
-/

namespace Lsp

open Chars Uri

structure FileUri extends Uri
  deriving DecidableEq, Repr

/-- What `setPath` asks of `std::filesystem`. -/
structure Filesystem where
  absolute : Bytes → Bytes
  existsAt : Bytes → Bool
  canonical : Bytes → Bytes

namespace FileUri

def Scheme : Bytes := bytes "file"

/-- `FileUri::FileUri()` -/
def new : FileUri where
  toUri := ((({} : Uri).setScheme Scheme).2.setAuthority []).2

def path (u : FileUri) : Bytes := u.toUri.path

/-- The path that `setPath` stores. -/
def fsPath (fs : Filesystem) (path : Bytes) : Bytes :=
  let fsPath := fs.absolute path
  if fs.existsAt fsPath then fs.canonical fsPath else fsPath

def setPath (fs : Filesystem) (u : FileUri) (path : Bytes) : Bool × FileUri :=
  let (ok, uri) := u.toUri.setPath (fsPath fs path)
  (ok, { toUri := uri })

def fromPath (fs : Filesystem) (path : Bytes) : FileUri := (new.setPath fs path).2

/-- The conversion from a `Uri`, by copy or by move. -/
def ofUri (other : Uri) : FileUri where
  toUri := if other.isValid && other.scheme == Scheme then other else {}

/-! ## What a file URI stands for -/

/-- The record of a file URI that holds `p`. -/
def recordOfPath (p : Bytes) : Record where
  scheme := Scheme
  path := p
  hasAuthority := true

theorem printable_recordOfPath {p : Bytes} (hp : p.head? = some (chr '/')) : Printable (recordOfPath p) where
  schemeNonempty := by
    show Scheme ≠ []
    decide +kernel
  scheme := by
    show ∀ c ∈ Scheme, isSchemeChar c = true
    decide +kernel
  schemeCase := by
    show Scheme.map tolower = Scheme
    decide +kernel
  authority := nofun
  authorityCase := rfl
  path := fun _ => .inr hp
  query := nofun
  queryCase := rfl
  fragmentCase := rfl
  noAuthority := nofun
  noQuery := fun _ => rfl
  noFragment := fun _ => rfl

theorem short_recordOfPath {p : Bytes} (hlen : (encode p (bytes "/")).length < 65536) :
    Short (recordOfPath p).encoded where
  scheme := by
    show Scheme.length < 65536
    decide
  authority := Nat.zero_lt_succ _
  path := hlen
  query := Nat.zero_lt_succ _
  fragment := Nat.zero_lt_succ _

theorem represents_fromPath (fs : Filesystem) {q p : Bytes} (hfs : fsPath fs q = p) (hlen : p.length < 65536) :
    Represents (fromPath fs q).toUri (recordOfPath p) := by
  have hscheme : Represents ({} : Uri) {} := Represents.empty
  have hnew : Represents new.toUri { scheme := Scheme, hasAuthority := true } :=
    (hscheme.insertScheme (s := Scheme) (by decide)).insertAuthority (s := []) (by decide)
  rw [← hfs] at hlen ⊢
  exact hnew.insertPath hlen

/-- A file URI is read back from its text, with its path. -/
theorem parse_fromPath (fs : Filesystem) {q p : Bytes} (hfs : fsPath fs q = p) (hp : p.head? = some (chr '/'))
    (hlen : (encode p (bytes "/")).length < 65536) :
    parse (fromPath fs q).toString = (fromPath fs q).toUri ∧
      ofUri (parse (fromPath fs q).toString) = fromPath fs q ∧ (fromPath fs q).path = p := by
  have hrep := represents_fromPath fs hfs (Nat.lt_of_le_of_lt (length_le_encode p) hlen)
  have hfields := hrep.fields_eq
  have hprintable := printable_recordOfPath hp
  have hshort := short_recordOfPath hlen
  have hvalid : (fromPath fs q).toUri.isValid = true := by
    rw [isValid, decide_eq_true_eq, UInt16.lt_iff_toNat_lt, hrep.scheme]
    show 0 < Scheme.length
    decide
  have hstart : startsAuthority (print (recordOfPath p)) = true :=
    (startsAuthority_print hprintable hshort.scheme).mpr (.inl rfl)
  have hacc : Accepts (print (recordOfPath p)) := by
    rw [accepts_print_iff hprintable hshort hstart]
    rintro ⟨-, -, hq | hf⟩
    · cases hq
    · cases hf
  have hparse : parse (fromPath fs q).toString = (fromPath fs q).toUri := by
    rw [toString_eq hrep hvalid]
    exact (parse_print hprintable hshort hstart hacc).unique hrep
  have hscheme : (fromPath fs q).toUri.scheme = Scheme := congrArg Record.scheme hfields
  have hkeep : ofUri (fromPath fs q).toUri = fromPath fs q := by
    rw [ofUri, hvalid, hscheme]
    rfl
  have hpath : (fromPath fs q).path = p := congrArg Record.path hfields
  exact ⟨hparse, by rw [hparse, hkeep], hpath⟩

/-- **The text of a file URI identifies its path.** -/
theorem fileUri_identity (fs : Filesystem) {q p : Bytes} (hfs : fsPath fs q = p) (hp : p.head? = some (chr '/'))
    (hlen : (encode p (bytes "/")).length < 65536) :
    (new.setPath fs q).1 = true ∧
    parse (new.setPath fs q).2.toString = (new.setPath fs q).2.toUri ∧
    ofUri (parse (new.setPath fs q).2.toString) = (new.setPath fs q).2 ∧
    (new.setPath fs q).2.path = p ∧
    ∀ (fs' : Filesystem) (q' p' : Bytes), fsPath fs' q' = p' → p'.head? = some (chr '/') →
      (encode p' (bytes "/")).length < 65536 → p ≠ p' →
      (new.setPath fs q).2.toString ≠ (new.setPath fs' q').2.toString := by
  obtain ⟨hparse, hkeep, hpath⟩ := parse_fromPath fs hfs hp hlen
  refine ⟨rfl, hparse, hkeep, hpath, ?_⟩
  intro fs' q' p' hfs' hp' hlen' hne htext
  obtain ⟨-, hkeep', hpath'⟩ := parse_fromPath fs' hfs' hp' hlen'
  -- the same text is converted to the same object, which holds one path
  have htext : (fromPath fs q).toString = (fromPath fs' q').toString := htext
  have hsame : fromPath fs q = fromPath fs' q' := by rw [← hkeep, ← hkeep', htext]
  exact hne (by rw [← hpath, ← hpath', hsame])

/-- A file system without files, in which the working directory is the root. -/
def emptyFilesystem : Filesystem where
  absolute := fun path => if path.head? = some (chr '/') then path else chr '/' :: path
  existsAt := fun _ => false
  canonical := id

theorem fileUri_identity_escapes :
    (new.setPath emptyFilesystem (bytes "/a b%2?#%")).1 = true ∧
    parse (new.setPath emptyFilesystem (bytes "/a b%2?#%")).2.toString =
      (new.setPath emptyFilesystem (bytes "/a b%2?#%")).2.toUri ∧
    ofUri (parse (new.setPath emptyFilesystem (bytes "/a b%2?#%")).2.toString) =
      (new.setPath emptyFilesystem (bytes "/a b%2?#%")).2 ∧
    (new.setPath emptyFilesystem (bytes "/a b%2?#%")).2.path = bytes "/a b%2?#%" ∧
    ∀ (fs' : Filesystem) (q' p' : Bytes), fsPath fs' q' = p' → p'.head? = some (chr '/') →
      (encode p' (bytes "/")).length < 65536 → bytes "/a b%2?#%" ≠ p' →
      (new.setPath emptyFilesystem (bytes "/a b%2?#%")).2.toString ≠ (new.setPath fs' q').2.toString :=
  fileUri_identity emptyFilesystem (by decide) (by decide) (by decide +kernel)

end FileUri

end Lsp
