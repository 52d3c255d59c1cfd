import LspFramework.Uri.Uri

/-!
# A Uri is a record of five fields

`Record` is what a `Uri` stands for: five byte strings, and for three of them whether they are
there.  `Represents u r` connects the two: the string of `u` is the fields of `r` one behind the
other, with their lengths.  Every mutator keeps `Represents` (`Represents.insertScheme`, …), so
through the getters each call is an update of one field:

    u reached by short calls → c short → Behaves u c                    (calls_behave)
-/

namespace Lsp.Uri

open Chars

/-! ## Records -/

structure Record where
  scheme : Bytes := []
  authority : Bytes := []
  path : Bytes := []
  query : Bytes := []
  fragment : Bytes := []
  hasAuthority : Bool := false
  hasQuery : Bool := false
  hasFragment : Bool := false
  deriving DecidableEq, Repr

namespace Record

def concat (r : Record) : Bytes := r.scheme ++ r.authority ++ r.path ++ r.query ++ r.fragment

end Record

/-- A `Uri` through its getters. -/
def fields (u : Uri) : Record where
  scheme := u.scheme
  authority := u.authority
  path := u.path
  query := u.query
  fragment := u.fragment
  hasAuthority := u.hasAuthority
  hasQuery := u.hasQuery
  hasFragment := u.hasFragment

/-- The mutators. -/
inductive Call where
  | setScheme (scheme : Bytes)
  | setAuthority (authority : Bytes)
  | setPath (path : Bytes)
  | setQuery (query : Bytes)
  | setFragment (fragment : Bytes)
  | removeAuthority
  | removeQuery
  | removeFragment

namespace Call

def argument : Call → Bytes
  | .setScheme s => s
  | .setAuthority s => s
  | .setPath s => s
  | .setQuery s => s
  | .setFragment s => s
  | _ => []

/-- The call on an object; the `remove` members answer nothing, here `true`. -/
def run : Call → Uri → Bool × Uri
  | .setScheme s, u => u.setScheme s
  | .setAuthority s, u => u.setAuthority s
  | .setPath s, u => u.setPath s
  | .setQuery s, u => u.setQuery s
  | .setFragment s, u => u.setFragment s
  | .removeAuthority, u => (true, u.removeAuthority)
  | .removeQuery, u => (true, u.removeQuery)
  | .removeFragment, u => (true, u.removeFragment)

/-- What the call means for a record. -/
def update : Call → Record → Record
  | .setScheme s, r => { r with scheme := s.map tolower }
  | .setAuthority s, r => { r with authority := normalizeLoop s, hasAuthority := true }
  | .setPath s, r => { r with path := s }
  | .setQuery s, r => { r with query := normalizeLoop s, hasQuery := true }
  | .setFragment s, r => { r with fragment := normalizeLoop s, hasFragment := true }
  | .removeAuthority, r => { r with authority := [], hasAuthority := false }
  | .removeQuery, r => { r with query := [], hasQuery := false }
  | .removeFragment, r => { r with fragment := [], hasFragment := false }

end Call

/-- The object after a sequence of calls. -/
def runCalls (u : Uri) (calls : List Call) : Uri := calls.foldl (fun u c => (c.run u).2) u

/-- The call updates one field when it succeeds, and nothing when it does not. -/
structure Behaves (u : Uri) (c : Call) : Prop where
  success : (c.run u).1 = true → (c.run u).2.fields = c.update u.fields
  failure : (c.run u).1 = false → (c.run u).2 = u
  data : (c.run u).2.data = (c.run u).2.fields.concat

/-! ## Splices -/

theorem replace_append (x y z w : Bytes) : replace (x ++ y ++ z) x.length y.length w = x ++ w ++ z := by
  have htake : (x ++ y ++ z).take x.length = x := by rw [List.append_assoc, List.take_left]
  have hdrop : (x ++ y ++ z).drop (x.length + y.length) = z := by rw [← List.length_append, List.drop_left]
  rw [replace, htake, hdrop]

theorem length_normalizeLoop (s : Bytes) : (normalizeLoop s).length = s.length := by
  induction s using normalizeLoop.induct with
  | case1 a b s ih => simp [normalizeLoop, ih]
  | case2 c a b s hc ih => simp only [normalizeLoop, hc, if_false, List.length_cons, ih]
  | case3 s hs => rw [normalizeLoop]; exact hs

theorem length_normalizeEncodedCase {str : Bytes} {first : Nat} (h : first ≤ str.length) (count : Nat) :
    (normalizeEncodedCase str first count).length = str.length := by
  simp only [normalizeEncodedCase, List.length_append, length_normalizeLoop, List.length_take, List.length_drop]
  omega

theorem normalizeEncodedCase_append (x y z : Bytes) :
    normalizeEncodedCase (x ++ y ++ z) x.length y.length = x ++ normalizeLoop y ++ z := by
  have hstop : min (x.length + y.length) (x ++ y ++ z).length = (x ++ y).length := by
    simp only [List.length_append]
    omega
  have hlen : (x ++ y).length - x.length = y.length := by simp
  have hdrop : (x ++ (y ++ z)).drop (x ++ y).length = z := by
    rw [← List.append_assoc, List.drop_left]
  simp only [normalizeEncodedCase, hstop, hlen]
  rw [List.append_assoc x y z, List.take_left, List.drop_left, List.take_left, hdrop]

theorem substr_append (x y z : Bytes) : substr (x ++ y ++ z) x.length y.length = y := by
  rw [substr, List.append_assoc, List.drop_left, List.take_left]

theorem toNat_ofNat_length {s : Bytes} (h : s.length < 65536) : (UInt16.ofNat s.length).toNat = s.length := by
  rw [UInt16.toNat_ofNat', Nat.mod_eq_of_lt h]

/-! ## Positions -/

/-- The lengths do not go beyond the string, so no splice has a position behind its end. -/
def InBounds (u : Uri) : Prop := u.fragmentIdx + u.fragmentLen.toNat ≤ u.data.length

theorem length_replace (str : Bytes) (pos count : Nat) (h : pos + count ≤ str.length) (text : Bytes) :
    (replace str pos count text).length + count = str.length + text.length := by
  simp only [replace, List.length_append, List.length_take, List.length_drop]
  omega

theorem toNat_ofNat_le (n : Nat) : (UInt16.ofNat n).toNat ≤ n := by
  rw [UInt16.toNat_ofNat']
  exact Nat.mod_le _ _

section InBounds

variable {u : Uri} (h : InBounds u) (s : Bytes)

include h

theorem inBounds_insertScheme : InBounds (u.insertScheme s) := by
  unfold InBounds fragmentIdx at *
  have hlen := length_replace u.data 0 u.schemeLen.toNat (by omega) s
  have hle := toNat_ofNat_le s.length
  simp only [insertScheme, List.length_append, List.length_map, List.length_take, List.length_drop]
  omega

theorem inBounds_insertAuthority : InBounds (u.insertAuthority s) := by
  unfold InBounds fragmentIdx at *
  have hlen := length_replace u.data u.authorityIdx u.authorityLen.toNat
    (by unfold authorityIdx; omega) s
  have hle := toNat_ofNat_le s.length
  have hidx : u.authorityIdx = u.schemeLen.toNat := rfl
  simp only [insertAuthority]
  rw [length_normalizeEncodedCase (by omega)]
  omega

theorem inBounds_insertPath : InBounds (u.insertPath s) := by
  unfold InBounds fragmentIdx at *
  have hlen := length_replace u.data u.pathIdx u.pathLen.toNat
    (by unfold pathIdx; omega) s
  have hle := toNat_ofNat_le s.length
  simp only [insertPath]
  omega

theorem inBounds_insertQuery : InBounds (u.insertQuery s) := by
  unfold InBounds fragmentIdx at *
  have hlen := length_replace u.data u.queryIdx u.queryLen.toNat
    (by unfold queryIdx; omega) s
  have hle := toNat_ofNat_le s.length
  have hidx : u.queryIdx = u.schemeLen.toNat + u.authorityLen.toNat + u.pathLen.toNat := rfl
  simp only [insertQuery]
  rw [length_normalizeEncodedCase (by omega)]
  omega

theorem inBounds_insertFragment : InBounds (u.insertFragment s) := by
  unfold InBounds at *
  have hlen := length_replace u.data u.fragmentIdx u.fragmentLen.toNat h s
  have hle := toNat_ofNat_le s.length
  have hidx : (u.insertFragment s).fragmentIdx = u.fragmentIdx := rfl
  rw [hidx]
  simp only [insertFragment]
  rw [length_normalizeEncodedCase (by omega)]
  omega

/-- **No call leaves the bounds**, whatever the length of its argument. -/
theorem inBounds_run (c : Call) : InBounds (c.run u).2 := by
  cases c with
  | setScheme s =>
    simp only [Call.run, setScheme]
    split
    · exact inBounds_insertScheme h s
    · exact h
  | setAuthority s =>
    simp only [Call.run, setAuthority]
    split
    · exact inBounds_insertAuthority h s
    · exact h
  | setPath s => exact inBounds_insertPath h s
  | setQuery s =>
    simp only [Call.run, setQuery]
    split
    · exact inBounds_insertQuery h s
    · exact h
  | setFragment s => exact inBounds_insertFragment h s
  | removeAuthority => exact inBounds_insertAuthority h []
  | removeQuery => exact inBounds_insertQuery h []
  | removeFragment => exact inBounds_insertFragment h []

end InBounds

/-! ## What a Uri stands for -/

structure Represents (u : Uri) (r : Record) : Prop where
  data : u.data = r.concat
  scheme : u.schemeLen.toNat = r.scheme.length
  authority : u.authorityLen.toNat = r.authority.length
  path : u.pathLen.toNat = r.path.length
  query : u.queryLen.toNat = r.query.length
  fragment : u.fragmentLen.toNat = r.fragment.length
  hasAuthority : u.hasAuthority = r.hasAuthority
  hasQuery : u.hasQuery = r.hasQuery
  hasFragment : u.hasFragment = r.hasFragment
  noAuthority : r.hasAuthority = false → r.authority = []
  noQuery : r.hasQuery = false → r.query = []
  noFragment : r.hasFragment = false → r.fragment = []

namespace Represents

variable {u : Uri} {r : Record}

theorem empty : Represents {} {} := by
  constructor <;> simp [Record.concat]

/-- A record has one `Uri`. -/
theorem unique {u u' : Uri} {r : Record} (h : Represents u r) (h' : Represents u' r) : u = u' := by
  have hlen : ∀ {a b : UInt16} {n : Nat}, a.toNat = n → b.toNat = n → a = b := fun ha hb =>
    UInt16.toNat_inj.mp (ha.trans hb.symm)
  obtain ⟨h₁, h₂, h₃, h₄, h₅, h₆, h₇, h₈, h₉, -, -, -⟩ := h
  obtain ⟨h₁', h₂', h₃', h₄', h₅', h₆', h₇', h₈', h₉', -, -, -⟩ := h'
  cases u
  cases u'
  simp only [Uri.mk.injEq]
  exact ⟨h₁.trans h₁'.symm, hlen h₂ h₂', hlen h₃ h₃', hlen h₄ h₄', hlen h₅ h₅', hlen h₆ h₆', h₇.trans h₇'.symm,
    h₈.trans h₈'.symm, h₉.trans h₉'.symm⟩

/-- **The getters read the fields.** -/
theorem fields_eq (h : Represents u r) : u.fields = r := by
  have hscheme : u.scheme = r.scheme := by
    have := substr_append [] r.scheme (r.authority ++ r.path ++ r.query ++ r.fragment)
    rw [Uri.scheme, h.data, h.scheme, Record.concat]
    simpa using this
  have hauthority : u.authority = r.authority := by
    rw [Uri.authority, h.hasAuthority]
    split
    · have := substr_append r.scheme r.authority (r.path ++ r.query ++ r.fragment)
      rw [h.data, authorityIdx, h.scheme, h.authority, Record.concat]
      simpa using this
    · next hno => exact (h.noAuthority (by simpa using hno)).symm
  have hpath : u.path = r.path := by
    have := substr_append (r.scheme ++ r.authority) r.path (r.query ++ r.fragment)
    rw [Uri.path, h.data, pathIdx, h.scheme, h.authority, h.path, Record.concat]
    simpa using this
  have hquery : u.query = r.query := by
    rw [Uri.query, h.hasQuery]
    split
    · have := substr_append (r.scheme ++ r.authority ++ r.path) r.query r.fragment
      rw [h.data, queryIdx, h.scheme, h.authority, h.path, h.query, Record.concat]
      simpa [Nat.add_assoc] using this
    · next hno => exact (h.noQuery (by simpa using hno)).symm
  have hfragment : u.fragment = r.fragment := by
    rw [Uri.fragment, h.hasFragment]
    split
    · have := substr_append (r.scheme ++ r.authority ++ r.path ++ r.query) r.fragment []
      rw [h.data, fragmentIdx, h.scheme, h.authority, h.path, h.query, h.fragment, Record.concat]
      simpa [Nat.add_assoc] using this
    · next hno => exact (h.noFragment (by simpa using hno)).symm
  unfold fields
  rw [hscheme, hauthority, hpath, hquery, hfragment, h.hasAuthority, h.hasQuery, h.hasFragment]

theorem insertScheme (h : Represents u r) {s : Bytes} (hs : s.length < 65536) :
    Represents (u.insertScheme s) { r with scheme := s.map tolower } := by
  have hdata := replace_append [] r.scheme (r.authority ++ r.path ++ r.query ++ r.fragment) s
  have hlen := toNat_ofNat_length hs
  refine { h with
    scheme := by rw [Uri.insertScheme, hlen, List.length_map]
    data := ?_ }
  simp only [List.nil_append, List.length_nil] at hdata
  simp only [Uri.insertScheme, h.data, h.scheme, hlen, Record.concat, ← List.append_assoc] at hdata ⊢
  rw [hdata]
  simp only [List.append_assoc, List.take_left, List.drop_left]

theorem insertAuthority (h : Represents u r) {s : Bytes} (hs : s.length < 65536) :
    Represents (u.insertAuthority s) { r with authority := normalizeLoop s, hasAuthority := true } := by
  have hdata := replace_append r.scheme r.authority (r.path ++ r.query ++ r.fragment) s
  have hcase := normalizeEncodedCase_append r.scheme s (r.path ++ r.query ++ r.fragment)
  have hlen := toNat_ofNat_length hs
  refine { h with
    authority := by rw [Uri.insertAuthority, hlen, length_normalizeLoop]
    hasAuthority := rfl
    noAuthority := nofun
    data := ?_ }
  simp only [← List.append_assoc] at hdata hcase
  simp only [Uri.insertAuthority, authorityIdx, h.data, h.scheme, h.authority, hlen, Record.concat, hdata, hcase]

theorem insertPath (h : Represents u r) {s : Bytes} (hs : s.length < 65536) :
    Represents (u.insertPath s) { r with path := s } := by
  have hdata := replace_append (r.scheme ++ r.authority) r.path (r.query ++ r.fragment) s
  refine { h with
    path := toNat_ofNat_length hs
    data := ?_ }
  simp only [← List.append_assoc, List.length_append] at hdata
  simp only [Uri.insertPath, pathIdx, h.data, h.scheme, h.authority, h.path, Record.concat, hdata]

theorem insertQuery (h : Represents u r) {s : Bytes} (hs : s.length < 65536) :
    Represents (u.insertQuery s) { r with query := normalizeLoop s, hasQuery := true } := by
  have hdata := replace_append (r.scheme ++ r.authority ++ r.path) r.query r.fragment s
  have hcase := normalizeEncodedCase_append (r.scheme ++ r.authority ++ r.path) s r.fragment
  have hlen := toNat_ofNat_length hs
  refine { h with
    query := by rw [Uri.insertQuery, hlen, length_normalizeLoop]
    hasQuery := rfl
    noQuery := nofun
    data := ?_ }
  simp only [List.length_append] at hdata hcase
  simp only [Uri.insertQuery, queryIdx, h.data, h.scheme, h.authority, h.path, h.query, hlen, Record.concat,
    hdata, hcase]

theorem insertFragment (h : Represents u r) {s : Bytes} (hs : s.length < 65536) :
    Represents (u.insertFragment s) { r with fragment := normalizeLoop s, hasFragment := true } := by
  have hdata := replace_append (r.scheme ++ r.authority ++ r.path ++ r.query) r.fragment [] s
  have hcase := normalizeEncodedCase_append (r.scheme ++ r.authority ++ r.path ++ r.query) s []
  have hlen := toNat_ofNat_length hs
  refine { h with
    fragment := by rw [Uri.insertFragment, hlen, length_normalizeLoop]
    hasFragment := rfl
    noFragment := nofun
    data := ?_ }
  simp only [List.length_append, List.append_nil] at hdata hcase
  simp only [Uri.insertFragment, fragmentIdx, h.data, h.scheme, h.authority, h.path, h.query, h.fragment, hlen,
    Record.concat, hdata, hcase]

theorem removeAuthority (h : Represents u r) :
    Represents u.removeAuthority { r with authority := [], hasAuthority := false } :=
  { h.insertAuthority (s := []) (by decide) with hasAuthority := rfl, noAuthority := fun _ => rfl }

theorem removeQuery (h : Represents u r) : Represents u.removeQuery { r with query := [], hasQuery := false } :=
  { h.insertQuery (s := []) (by decide) with hasQuery := rfl, noQuery := fun _ => rfl }

theorem removeFragment (h : Represents u r) :
    Represents u.removeFragment { r with fragment := [], hasFragment := false } :=
  { h.insertFragment (s := []) (by decide) with hasFragment := rfl, noFragment := fun _ => rfl }

/-- **A call that succeeds updates the record; one that fails leaves the object as it is.** -/
theorem run (h : Represents u r) {c : Call} (hc : c.argument.length < 65536) :
    (((c.run u).1 = true ∧ Represents (c.run u).2 (c.update r)) ∨ ((c.run u).1 = false ∧ (c.run u).2 = u)) := by
  cases c with
  | setScheme s =>
    simp only [Call.run, Uri.setScheme]
    split
    · exact .inl ⟨rfl, h.insertScheme hc⟩
    · exact .inr ⟨rfl, rfl⟩
  | setAuthority s =>
    simp only [Call.run, Uri.setAuthority]
    split
    · exact .inl ⟨rfl, h.insertAuthority hc⟩
    · exact .inr ⟨rfl, rfl⟩
  | setPath s => exact .inl ⟨rfl, h.insertPath hc⟩
  | setQuery s =>
    simp only [Call.run, Uri.setQuery]
    split
    · exact .inl ⟨rfl, h.insertQuery hc⟩
    · exact .inr ⟨rfl, rfl⟩
  | setFragment s => exact .inl ⟨rfl, h.insertFragment hc⟩
  | removeAuthority => exact .inl ⟨rfl, h.removeAuthority⟩
  | removeQuery => exact .inl ⟨rfl, h.removeQuery⟩
  | removeFragment => exact .inl ⟨rfl, h.removeFragment⟩

theorem run_exists (h : Represents u r) {c : Call} (hc : c.argument.length < 65536) :
    ∃ r', Represents (c.run u).2 r' := by
  rcases h.run hc with ⟨-, h'⟩ | ⟨-, h'⟩
  · exact ⟨_, h'⟩
  · exact ⟨r, by rwa [h']⟩

theorem runCalls (h : Represents u r) {calls : List Call} (hc : ∀ c ∈ calls, c.argument.length < 65536) :
    ∃ r', Represents (u.runCalls calls) r' := by
  induction calls generalizing u r with
  | nil => exact ⟨r, h⟩
  | cons c calls ih =>
    obtain ⟨r₁, h₁⟩ := h.run_exists (hc c List.mem_cons_self)
    exact ih h₁ fun c' hc' => hc c' (List.mem_cons_of_mem _ hc')

end Represents

/-- **After any calls with short arguments, the next one updates one field of the record.** -/
theorem calls_behave {calls : List Call} (hcalls : ∀ c ∈ calls, c.argument.length < 65536) {c : Call}
    (hc : c.argument.length < 65536) : Behaves (runCalls {} calls) c := by
  obtain ⟨r, hr⟩ := Represents.empty.runCalls hcalls
  rcases hr.run hc with ⟨hok, h'⟩ | ⟨hok, h'⟩
  · refine ⟨fun _ => ?_, fun hno => ?_, ?_⟩
    · rw [h'.fields_eq, hr.fields_eq]
    · rw [hok] at hno
      cases hno
    · rw [h'.fields_eq, h'.data]
  · refine ⟨fun hyes => ?_, fun _ => h', ?_⟩
    · rw [hok] at hyes
      cases hyes
    · rw [h', hr.fields_eq, hr.data]

theorem calls_behave_remove :
    Behaves (runCalls {} [.setScheme (bytes "A"), .setAuthority (bytes "b"), .setQuery (bytes "%2f")])
      .removeAuthority :=
  calls_behave (by decide) (by decide)

end Lsp.Uri
