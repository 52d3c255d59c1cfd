import LspFramework.Lib.CppLiteral
import LspFramework.Json.Stringify
import LspFramework.Serialization.Integers
import LspFramework.Lspgen.Comments

/-!
# lspgen: the tables of enumerations

`generate` of an enumeration writes the values of the meta model into types.cpp, as the initializers of the
array `s_values`: the JSON text of each value is put where C++ expects a literal.  What the compiler makes
of that text is the table that `Enumeration` looks values up in at run time.

* `Enumeration.sourceContent`: the text in types.cpp.
* `compiledTable u text`: the elements of the array after compilation, over the value type `u`.

A string constant is a `std::string_view` made of a `const char*`, so it ends at a NUL.  Apart from that the
JSON text of a value is a C++ literal for the same value:

    compiledTable u text = some (cs.map (cut u))                                        (compiledTable_eq)
    every constant is written as its value and decoded from it ↔ no NUL, no repetition  (constants_survive_iff)
-/

namespace Lsp.Metamodel

open Chars Lsp.Json
open CppLiteral (Reads)

/-! ## The text -/

/-- The initializers, as the loop over the values appends them. -/
def initializerText : List Value → Bytes
  | [] => []
  | v :: vs => chr '\t' :: stringify v false ++ vs.flatMap fun v => bytes ",\n\t" ++ stringify v false

def Enumeration.enumerationCppName (e : Enumeration) : Bytes := upperCaseIdentifier e.name ++ bytes "Enum"

/-- What `generate` appends to the source file; nothing when the enumeration is over no base type. -/
def Enumeration.sourceContent (e : Enumeration) : Bytes :=
  match e.type with
  | .base _ =>
    bytes "template<>\nconst " ++ e.enumerationCppName ++ bytes "::ConstInitType " ++ e.enumerationCppName ++
      bytes "::s_values[] = \x7b\n" ++ initializerText (e.values.map EnumerationValue.value) ++ bytes "\n\x7d;\n\n"
  | _ => []

/-! ## What is compiled -/

/-- The value type of `Enumeration` for a base type; `none` for the types it is not modelled over. -/
def Kind.underlying : Kind → Option Underlying
  | .boolean => some .boolean
  | .string | .regExp => some .string
  | .integer => some (.integral .int)
  | .uinteger => some (.integral .unsignedInt)
  | .decimal | .uri | .documentUri | .null => none

def Enumeration.underlying (e : Enumeration) : Option Underlying :=
  match e.type with
  | .base kind => kind.underlying
  | _ => none

/-- An element of `ConstInitType` that a literal initializes: an integer must not be narrowed, and a
`std::string_view` ends at the first NUL. -/
def constInit : (u : Underlying) → CppLiteral.Literal → Option u.Carrier
  | .boolean, .boolean b => some b
  | .integral a, .integer i => if h : a.min ≤ i ∧ i ≤ a.max then some ⟨i, h⟩ else none
  | .string, .string s => some (s.takeWhile (· != 0))
  | _, _ => none

/-- `s_values`; `none` where the text does not compile. -/
def compiledTable (u : Underlying) (text : Bytes) : Option (List u.Carrier) :=
  (CppLiteral.initializerList (CppLiteral.braces text)).bind (List.mapM (constInit u))

/-! ## The values of the meta model -/

/-- The value of this type that the JSON is for. -/
def ofJson : (u : Underlying) → Value → Option u.Carrier
  | .boolean, .boolean b => some b
  | .integral a, .integer i => if h : a.min ≤ i.toInt ∧ i.toInt ≤ a.max then some ⟨i.toInt, h⟩ else none
  | .string, .string s => some s
  | _, _ => none

/-- What a constant is cut down to. -/
def cut : (u : Underlying) → u.Carrier → u.Carrier
  | .string, s => s.takeWhile (· != 0)
  | .boolean, b => b
  | .integral _, i => i

section Constants

variable {u : Underlying} (table : List u.Carrier)

/-- The constant at a place of the table. -/
def constant (i : Fin table.length) : (Ty.enumeration u table).Val := Lsp.Enumeration.mk i.castSucc u.default

/-- The constant at a place is written as the value there, and decoded from it. -/
def ConstantSurvives (values : List Value) (i : Fin table.length) : Prop :=
  ∃ v, values[i.val]? = some v ∧ (Ty.enumeration u table).toJson (constant table i) = v ∧
    (Ty.enumeration u table).fromJson v (Ty.enumeration u table).default = some (constant table i)

end Constants

/-! ## String literals -/

theorem universal_control : ∀ n, n < 32 →
    CppLiteral.universal 4 (bytes "00" ++ [hexLookup (UInt8.ofNat n >>> 4).toNat,
      hexLookup (UInt8.ofNat n &&& 0xF).toNat]) = some ([UInt8.ofNat n], 5) := by
  decide +kernel

/-- A byte is written as itself or as an escape sequence for it. -/
theorem escape_cases (c : UInt8) :
    (∃ t, escape c = chr '\\' :: t ∧ ∀ s, CppLiteral.escapeSequence (t ++ s) = some ([c], t.length)) ∨
      (escape c = [c] ∧ c ≠ chr '"' ∧ c ≠ chr '\n' ∧ c ≠ chr '\\') := by
  unfold escape
  split
  · exact .inl ⟨_, rfl, fun s => CppLiteral.escapeSequence_simple (by decide)⟩
  · exact .inl ⟨_, rfl, fun s => CppLiteral.escapeSequence_simple (by decide)⟩
  · exact .inl ⟨_, rfl, fun s => CppLiteral.escapeSequence_simple (by decide)⟩
  · exact .inl ⟨_, rfl, fun s => CppLiteral.escapeSequence_simple (by decide)⟩
  · exact .inl ⟨_, rfl, fun s => CppLiteral.escapeSequence_simple (by decide)⟩
  · exact .inl ⟨_, rfl, fun s => CppLiteral.escapeSequence_simple (by decide)⟩
  · exact .inl ⟨_, rfl, fun s => CppLiteral.escapeSequence_simple (by decide)⟩
  · next hnewline _ _ hquote hbackslash =>
    split
    · next hlt =>
      refine .inl ⟨_, rfl, fun s => ?_⟩
      have hdigits := universal_control c.toNat (UInt8.lt_iff_toNat_lt.mp hlt)
      rw [UInt8.ofNat_toNat] at hdigits
      exact (CppLiteral.escapeSequence_universal rfl).trans hdigits
    · exact .inr ⟨rfl, hquote, hnewline, hbackslash⟩

/-- What the generator writes for a byte of a string stands for this byte in C++. -/
theorem stringLoop_escape_append (c : UInt8) (s : Bytes) :
    CppLiteral.stringLoop 0 (escape c ++ s) = (CppLiteral.stringLoop 0 s).map fun r => (c :: r.1, r.2) := by
  rcases escape_cases c with ⟨t, htext, hsequence⟩ | ⟨htext, hquote, hnewline, hbackslash⟩
  · rw [htext, List.cons_append]
    exact CppLiteral.stringLoop_escape (hsequence s)
  · rw [htext, List.singleton_append]
    exact CppLiteral.stringLoop_plain hquote hnewline hbackslash

theorem stringLoop_flatMap_escape (s rest : Bytes) :
    CppLiteral.stringLoop 0 (s.flatMap escape ++ chr '"' :: rest) = some (s, rest) := by
  induction s with
  | nil => exact CppLiteral.stringLoop_quote
  | cons c s ih =>
    rw [List.flatMap_cons, List.append_assoc, stringLoop_escape_append, ih]
    rfl

/-- **The text of a string in JSON is a C++ literal for it**, whatever its bytes are. -/
theorem reads_toStringLiteral (s : Bytes) : Reads (toStringLiteral s) (.string s) :=
  CppLiteral.reads_string (stringLoop_flatMap_escape s)

/-! ## Compilation -/

/-- **The JSON text of a value is a literal that initializes a constant with it**, cut at a NUL. -/
theorem reads_stringify {u : Underlying} {v : Value} {c : u.Carrier} (h : ofJson u v = some c) :
    ∃ l, Reads (stringify v false) l ∧ constInit u l = some (cut u c) := by
  cases u with
  | boolean =>
    cases v with
    | boolean b =>
      obtain rfl := Option.some.inj h
      exact ⟨_, CppLiteral.reads_boolean b, rfl⟩
    | _ => cases h
  | integral a =>
    cases v with
    | integer i =>
      have hlo := Int32.le_toInt i
      have hhi := Int32.toInt_lt i
      obtain ⟨hrange, hc⟩ := Option.dite_none_right_eq_some.mp h
      obtain rfl := Option.some.inj hc
      exact ⟨_, CppLiteral.reads_intText (by omega), dif_pos hrange⟩
    | _ => cases h
  | string =>
    cases v with
    | string s =>
      obtain rfl := Option.some.inj h
      exact ⟨_, reads_toStringLiteral s, rfl⟩
    | _ => cases h

/-- The initializers stand between the only opening brace and the only closing one behind them. -/
theorem braces_sourceContent {e : Enumeration} {u : Underlying} (hu : e.underlying = some u) :
    CppLiteral.braces e.sourceContent =
      bytes "\n" ++ initializerText (e.values.map EnumerationValue.value) ++ bytes "\n" := by
  obtain ⟨kind, hkind⟩ : ∃ kind, e.type = .base kind := by
    unfold Enumeration.underlying at hu
    split at hu
    · next kind hkind => exact ⟨kind, hkind⟩
    · cases hu
  have hname : chr '{' ∉ e.enumerationCppName := by
    intro hmem
    rcases List.mem_append.mp hmem with hmem | hmem
    · exact absurd (isIdentifierChar_of_mem hmem) (by decide)
    · exact absurd hmem (by decide +kernel)
  have hbefore : chr '{' ∉ bytes "template<>\nconst " ++ e.enumerationCppName ++ bytes "::ConstInitType " ++
      e.enumerationCppName ++ bytes "::s_values[] = " := by
    simp only [List.mem_append, hname, or_false, not_or]
    decide +kernel
  have hafter : chr '}' ∉ bytes ";\n\n" := by decide +kernel
  refine Eq.trans (congrArg CppLiteral.braces ?_) (CppLiteral.braces_eq hbefore hafter)
  rw [Enumeration.sourceContent, hkind]
  simp [bytes]

/-- **What is compiled of the text are the values of the meta model, cut at a NUL.** -/
theorem compiledTable_eq {e : Enumeration} (hvalues : e.values ≠ []) {u : Underlying} (hu : e.underlying = some u)
    {cs : List u.Carrier}
    (hall : List.Forall₂ (fun v c => ofJson u v = some c) (e.values.map EnumerationValue.value) cs) :
    compiledTable u e.sourceContent = some (cs.map (cut u)) := by
  obtain ⟨ls, hinit, hreads⟩ := Fallible.forall₂_choose hall fun v _ c hc => (reads_stringify hc).imp fun l h => h.symm
  have htable : ls.mapM (constInit u) = some (cs.map (cut u)) :=
    Fallible.mapM_eq_some_iff.mpr (List.forall₂_map_right_iff.mpr hinit.flip)
  have hnil : e.values.map EnumerationValue.value ≠ [] := fun h => hvalues (List.map_eq_nil_iff.mp h)
  have hspace : ∀ c ∈ bytes "\n\t", isspace c = true := by decide +kernel
  have hend : ∀ c ∈ bytes "\n", isspace c = true := by decide +kernel
  rw [compiledTable, braces_sourceContent hu]
  generalize e.values.map EnumerationValue.value = values at hreads hnil
  cases hreads with
  | nil => exact absurd rfl hnil
  | @cons v l vs ls hv hvs =>
    have hlist := CppLiteral.initializerList_separated hv (List.forall₂_map_left_iff.mpr hvs) hspace hspace hend
    rw [List.flatMap_map] at hlist
    have htext : bytes "\n" ++ initializerText (v :: vs) ++ bytes "\n" = bytes "\n\t" ++ (stringify v false ++
        (vs.flatMap (fun v => chr ',' :: (bytes "\n\t" ++ stringify v false)) ++ bytes "\n")) := by
      simp [initializerText, bytes]
    rw [htext, hlist]
    exact htable

/-! ## Constants at run time -/

theorem toJson_of_ofJson {u : Underlying} {v : Value} {c : u.Carrier} (h : ofJson u v = some c) :
    u.toJson c = v ∧ u.fromJson v = some c := by
  cases u with
  | boolean =>
    cases v with
    | boolean b =>
      obtain rfl := Option.some.inj h
      exact ⟨rfl, rfl⟩
    | _ => cases h
  | integral a =>
    cases v with
    | integer i =>
      obtain ⟨hrange, hc⟩ := Option.dite_none_right_eq_some.mp h
      obtain rfl := Option.some.inj hc
      have hinteger : InInteger i.toInt := ⟨Int32.minValue_le_toInt i, Int32.toInt_le i⟩
      have hwritten : a.toJson ⟨i.toInt, hrange⟩ = .integer i := by
        rw [Integral.toJson_of_le hinteger.2]
        exact congrArg Value.integer (Int32.ofInt_toInt i)
      have hdecoded : (Ty.integral a).fromJson (a.toJson ⟨i.toInt, hrange⟩) a.zero = some ⟨i.toInt, hrange⟩ :=
        (Integral.preserved_of_inInteger hinteger).decoded a.zero
      rw [hwritten] at hdecoded
      exact ⟨hwritten, hdecoded⟩
    | _ => cases h
  | string =>
    cases v with
    | string s =>
      obtain rfl := Option.some.inj h
      exact ⟨rfl, rfl⟩
    | _ => cases h

theorem toJson_cut_iff {u : Underlying} {c : u.Carrier} : u.toJson (cut u c) = u.toJson c ↔ cut u c = c := by
  cases u with
  | boolean => exact ⟨fun _ => rfl, fun _ => rfl⟩
  | integral a => exact ⟨fun _ => rfl, fun _ => rfl⟩
  | string => exact ⟨Value.string.inj, congrArg Value.string⟩

section Assign

variable {u : Underlying} {table : List u.Carrier} {c : u.Carrier}

/-- The first constant that is equal, or else a custom value. -/
theorem assign_eq : (Ty.enumeration u table).default.assign c =
    (table.findFinIdx? (· == c)).elim ⟨Fin.last _, c⟩ (constant table) := by
  unfold Lsp.Enumeration.assign
  cases table.findFinIdx? (· == c) <;> rfl

theorem assign_eq_constant_iff {i : Fin table.length} :
    (Ty.enumeration u table).default.assign c = constant table i ↔ table.findFinIdx? (· == c) = some i := by
  rw [assign_eq]
  cases table.findFinIdx? (· == c) with
  | none =>
    refine ⟨fun h => ?_, fun h => nomatch h⟩
    have hindex : Fin.last _ = i.castSucc := congrArg Lsp.Enumeration.index h
    exact absurd hindex.symm (Fin.castSucc_ne_last i)
  | some j =>
    refine ⟨fun h => ?_, fun h => congrArg (constant table) (Option.some.inj h)⟩
    have hindex : j.castSucc = i.castSucc := congrArg Lsp.Enumeration.index h
    rw [Fin.castSucc_injective _ hindex]

theorem assign_custom (h : c ∉ table) :
    ((Ty.enumeration u table).default.assign c).hasCustomValue = true := by
  have hnone : table.findFinIdx? (· == c) = none := by
    rw [List.findFinIdx?_eq_none_iff]
    intro d hd heq
    exact h (eq_of_beq heq ▸ hd)
  rw [assign_eq, hnone]
  exact decide_eq_true rfl

theorem value_constant (i : Fin table.length) : (constant table i).value = table.get i := by
  have hconstant : ¬ (constant table i).hasCustomValue = true := by
    intro h
    exact Fin.castSucc_ne_last i (of_decide_eq_true h)
  exact dif_neg hconstant

/-- All constants are found first just when none is repeated. -/
theorem findFinIdx_get_iff {α : Type} [DecidableEq α] {l : List α} :
    (∀ i : Fin l.length, l.findFinIdx? (· == l.get i) = some i) ↔ l.Nodup := by
  rw [List.nodup_iff_injective_get]
  constructor
  · intro h i j hij
    have hj := h j
    rw [← hij, h i] at hj
    exact Option.some.inj hj
  · intro h i
    rw [List.findFinIdx?_eq_some_iff]
    refine ⟨beq_self_eq_true _, fun j hj heq => ?_⟩
    exact absurd (h (eq_of_beq heq)) (Fin.ne_of_lt hj)

theorem constantSurvives_iff {table cs : List u.Carrier} {values : List Value} (htable : table = cs.map (cut u))
    (hall : List.Forall₂ (fun v c => ofJson u v = some c) values cs) (i : Fin table.length) :
    ConstantSurvives table values i ↔
      ∃ c, cs[i.val]? = some c ∧ cut u c = c ∧ table.findFinIdx? (· == c) = some i := by
  obtain ⟨v, c, hv, hc, hjson, hcut⟩ : ∃ v c, values[i.val]? = some v ∧ cs[i.val]? = some c ∧
      ofJson u v = some c ∧ table.get i = cut u c := by
    subst htable
    obtain ⟨hlength, hget⟩ := List.forall₂_iff_get.mp hall
    have hi : i.val < cs.length := Nat.lt_of_lt_of_eq i.isLt (List.length_map _)
    exact ⟨_, _, List.getElem?_eq_getElem (hlength ▸ hi), List.getElem?_eq_getElem hi, hget i.val _ hi,
      List.getElem_map _⟩
  obtain ⟨hwritten, hread⟩ := toJson_of_ofJson hjson
  have htoJson : (Ty.enumeration u table).toJson (constant table i) = u.toJson (cut u c) := by
    rw [← hcut, ← value_constant]
    rfl
  have hfromJson : (Ty.enumeration u table).fromJson v (Ty.enumeration u table).default =
      some ((Ty.enumeration u table).default.assign c) := congrArg (Option.map _) hread
  constructor
  · rintro ⟨v', hv', hsame, hdecoded⟩
    obtain rfl := Option.some.inj (hv.symm.trans hv')
    rw [htoJson, ← hwritten, toJson_cut_iff] at hsame
    rw [hfromJson] at hdecoded
    exact ⟨c, hc, hsame, assign_eq_constant_iff.mp (Option.some.inj hdecoded)⟩
  · rintro ⟨c', hc', hsame, hfound⟩
    obtain rfl := Option.some.inj (hc.symm.trans hc')
    refine ⟨v, hv, ?_, hfromJson.trans (congrArg some (assign_eq_constant_iff.mpr hfound))⟩
    rw [htoJson, hsame, hwritten]

theorem forall_constantSurvives_iff {table cs : List u.Carrier} {values : List Value}
    (htable : table = cs.map (cut u)) (hall : List.Forall₂ (fun v c => ofJson u v = some c) values cs) :
    (∀ i, ConstantSurvives table values i) ↔ cs.Nodup ∧ ∀ c ∈ cs, cut u c = c := by
  have huncut : (∀ c ∈ cs, cut u c = c) → table = cs := fun h =>
    htable.trans ((List.map_congr_left h).trans (List.map_id _))
  have hlength : table.length = cs.length := by rw [htable, List.length_map]
  constructor
  · intro h
    have hcut : ∀ c ∈ cs, cut u c = c := by
      intro c hc
      obtain ⟨k, hk, rfl⟩ := List.mem_iff_getElem.mp hc
      obtain ⟨c', hc', hsame, -⟩ := (constantSurvives_iff htable hall ⟨k, hlength ▸ hk⟩).mp (h _)
      rw [List.getElem?_eq_getElem hk] at hc'
      rw [Option.some.inj hc', hsame]
    refine ⟨?_, hcut⟩
    obtain rfl := huncut hcut
    refine findFinIdx_get_iff.mp fun i => ?_
    obtain ⟨c, hc, -, hfound⟩ := (constantSurvives_iff htable hall i).mp (h i)
    rw [List.getElem?_eq_getElem i.isLt] at hc
    rwa [List.get_eq_getElem, Option.some.inj hc]
  · rintro ⟨hnodup, hcut⟩ i
    obtain rfl := huncut hcut
    exact (constantSurvives_iff htable hall i).mpr ⟨_, List.getElem?_eq_getElem i.isLt,
      hcut _ (List.getElem_mem _), findFinIdx_get_iff.mpr hnodup i⟩

end Assign

/-- **An enumeration in C++ is that of the meta model.**  What is compiled of the text in types.cpp is a
table with the values of the meta model, cut at a NUL; so all constants are written as these values and
decoded from them just when no value has a NUL and none is repeated.  A value that is no constant is kept. -/
theorem constants_survive_iff {e : Enumeration} (hvalues : e.values ≠ []) {u : Underlying}
    (hu : e.underlying = some u) {cs : List u.Carrier}
    (hcs : e.values.mapM (fun v => ofJson u v.value) = some cs) :
    ∃ table, compiledTable u e.sourceContent = some table ∧ table.length = e.values.length ∧
      ((∀ i, ConstantSurvives table (e.values.map EnumerationValue.value) i) ↔
        cs.Nodup ∧ ∀ c ∈ cs, cut u c = c) ∧
      ∀ c, c ∉ table → u.fromJson (u.toJson c) = some c →
        ∃ e' : Lsp.Enumeration u table,
          (Ty.enumeration u table).fromJson (u.toJson c) (Ty.enumeration u table).default = some e' ∧
          e'.hasCustomValue = true ∧ (Ty.enumeration u table).toJson e' = u.toJson c := by
  have hall := Fallible.mapM_eq_some_iff.mp hcs
  have hall' : List.Forall₂ (fun v c => ofJson u v = some c) (e.values.map EnumerationValue.value) cs :=
    List.forall₂_map_left_iff.mpr hall
  refine ⟨_, compiledTable_eq hvalues hu hall', ?_, forall_constantSurvives_iff rfl hall', ?_⟩
  · rw [List.length_map, hall.length_eq]
  · intro c hc hkept
    refine ⟨(Ty.enumeration u _).default.assign c, ?_, assign_custom hc, ?_⟩
    · exact congrArg (Option.map _) hkept
    · exact congrArg u.toJson (Lsp.Enumeration.value_assign _ c)

/-- Two constants, one with a quote and one with a line feed and a control byte. -/
theorem constants_survive_escaped :
    ∃ e : Enumeration, e.values.map EnumerationValue.value = [.string (bytes "a\"b"), .string [10, 1]] ∧
      ∃ table, compiledTable .string e.sourceContent = some table ∧
        ∀ i, ConstantSurvives (u := .string) table (e.values.map EnumerationValue.value) i := by
  let e : Enumeration :=
    { name := bytes "$/kind"
      type := .base .string
      values := [⟨bytes "quote", .string (bytes "a\"b"), []⟩, ⟨bytes "line", .string [10, 1], []⟩] }
  obtain ⟨table, htable, -, hiff, -⟩ :=
    @constants_survive_iff e (List.cons_ne_nil _ _) .string rfl [bytes "a\"b", [10, 1]] rfl
  exact ⟨e, rfl, table, htable, hiff.mpr ⟨by decide +kernel, by decide +kernel⟩⟩

end Lsp.Metamodel
