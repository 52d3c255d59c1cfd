import LspFramework.Lib.Fallible
import LspFramework.Lspgen.Header

/-!
# The order of the declarations

A C++ compiler reads the header from the start: a name must be declared before it is used, and the type
of a member must be complete, unless it is behind a pointer or in a vector.  `generateNamedType` marks a
type before it generates the types behind it, so that a type that refers to itself is met half done.

* `MetaModel.Layered`: references go to lower types, but for a property that refers to the structure it
  is in, which is optional or an array.
* `generateType_ready`: behind `generateType` the C++ type for a type of the meta model can be written.

Main result: `declared_in_order` (the header is a list of definitions in order, and it declares every
type).
-/

namespace Lsp.Metamodel

open Chars Definitions

/-! ## Identifiers -/

/-- A name that `upperCaseIdentifier` leaves as it is. -/
structure Stable (name : Bytes) : Prop where
  chars : ∀ c ∈ name, isIdentifierChar c = true
  head : ∀ c, name.head? = some c → toupper c = c

theorem toupper_identifier : ∀ c : UInt8, toupper (toupper c) = toupper c ∧
    (isIdentifierChar c = true → isIdentifierChar (toupper c) = true) ∧
    toupper (if isIdentifierChar (toupper c) then toupper c else chr '_') =
      (if isIdentifierChar (toupper c) then toupper c else chr '_') :=
  forall_byte (by decide +kernel)

theorem identifier_separators : ∀ c : UInt8, isIdentifierChar c = true → c ≠ chr '$' ∧ (c == chr '/') = false :=
  forall_byte (by decide +kernel)

theorem stable_capitalize {name : Bytes} (h : ∀ c ∈ name, isIdentifierChar c = true) :
    Stable (capitalizeString name) := by
  cases name with
  | nil => exact ⟨nofun, nofun⟩
  | cons c name =>
    refine ⟨List.forall_mem_cons.mpr ⟨(toupper_identifier c).2.1 (h c List.mem_cons_self), ?_⟩, ?_⟩
    · exact fun d hd => h d (List.mem_cons_of_mem _ hd)
    · rintro d ⟨⟩
      exact (toupper_identifier c).1

theorem Stable.append {name other : Bytes} (h : Stable name) (ho : ∀ c ∈ other, isIdentifierChar c = true)
    (hhead : ∀ c, other.head? = some c → toupper c = c) : Stable (name ++ other) := by
  refine ⟨?_, ?_⟩
  · intro c hc
    rcases List.mem_append.mp hc with hc | hc
    · exact h.chars c hc
    · exact ho c hc
  · intro c hc
    cases name with
    | nil => exact hhead c hc
    | cons d name => exact h.head c hc

theorem upperCaseIdentifier_of_stable {name : Bytes} (h : Stable name) : upperCaseIdentifier name = name := by
  have hdollar : ¬ name.head? = some (chr '$') := by
    intro hc
    exact (identifier_separators _ (h.chars _ (List.mem_of_mem_head? hc))).1 rfl
  have hsplit : name.splitOn (chr '/') = [name] :=
    List.splitOnP_eq_singleton fun c hc => (identifier_separators c (h.chars c hc)).2
  unfold upperCaseIdentifier
  simp only [if_neg hdollar, hsplit]
  cases name with
  | nil => rfl
  | cons c name =>
    have hcap : capitalizeString (c :: name) = c :: name := by rw [capitalizeString, h.head c rfl]
    simp only [List.filter_cons, ne_eq, reduceCtorEq, not_false_eq_true, decide_true, if_true, List.filter_nil,
      List.map_singleton, List.intercalate_singleton, hcap]
    exact (List.map_congr_left fun d hd => if_pos (h.chars d hd)).trans (List.map_id _)

theorem stable_upperCaseIdentifier (str : Bytes) : Stable (upperCaseIdentifier str) := by
  constructor
  · intro c hc
    unfold upperCaseIdentifier at hc
    obtain ⟨d, -, rfl⟩ := List.mem_map.mp hc
    split
    · next h => exact h
    · decide
  · intro c hc
    unfold upperCaseIdentifier at hc
    dsimp only at hc
    generalize (if str.head? = some (chr '$') then str.tail else str).splitOn (chr '/') = parts at hc
    rw [List.head?_map] at hc
    obtain ⟨d, hd, rfl⟩ := Option.map_eq_some_iff.mp hc
    -- the first letter of the first part
    obtain ⟨e, rfl⟩ : ∃ e, d = toupper e := by
      cases hparts : parts.filter (· ≠ []) with
      | nil =>
        rw [hparts] at hd
        cases hd
      | cons part rest =>
        have hne : part ≠ [] := by
          have := (List.mem_filter.mp (hparts ▸ List.mem_cons_self : part ∈ parts.filter (· ≠ []))).2
          simpa using this
        obtain ⟨e, part, rfl⟩ := List.exists_cons_of_ne_nil hne
        rw [hparts] at hd
        refine ⟨e, ?_⟩
        cases rest <;> simpa [capitalizeString, List.intercalate_cons_cons, eq_comm] using hd
    exact (toupper_identifier e).2.2

/-! ## Layers -/

/-- The names that the header declares itself or includes. -/
def predefined : List Bytes :=
  [bytes "bool", bytes "String", bytes "int", bytes "uint", bytes "double", bytes "Uri", bytes "DocumentUri",
    bytes "Null", bytes "LSPArray", bytes "LSPObject", bytes "LSPAny"]

/-- The types of the meta model that are not generated. -/
def builtIn : List Bytes := [bytes "LSPArray", bytes "LSPObject", bytes "LSPAny"]

section Layers

variable (M : MetaModel) (below : Bytes → Prop)

mutual

/-- The type refers to registered types below only; an `or` type is not empty, and the properties of
structure literals have identifiers for names. -/
def MetaType.Layered : MetaType → Prop
  | .reference name => below name ∧ ∃ t, M.typeForName name = some t
  | .array elementType => elementType.Layered
  | .map keyType valueType => keyType.Layered ∧ valueType.Layered
  | .and typeList => LayeredTypes typeList
  | .or typeList => typeList ≠ [] ∧ LayeredTypes typeList
  | .tuple typeList => LayeredTypes typeList
  | .structureLiteral properties => LayeredProperties properties
  | .base _ => True
  | .stringLiteral _ => True
  | .integerLiteral _ => True
  | .booleanLiteral _ => True

def LayeredTypes : List MetaType → Prop
  | [] => True
  | t :: ts => t.Layered ∧ LayeredTypes ts

def LayeredProperties : List StructureProperty → Prop
  | [] => True
  | p :: ps => LayeredProperty p ∧ LayeredProperties ps

def LayeredProperty : StructureProperty → Prop
  | ⟨name, type, _, _⟩ => (∀ c ∈ name, isIdentifierChar c = true) ∧ type.Layered

end

/-- An optional reference to the structure `name`, or an array of it. -/
def SelfProperty (name : Bytes) (p : StructureProperty) : Prop :=
  (p.isOptional = true ∧ p.type = .reference name) ∨ p.type = .array (.reference name)

/-- A property of the structure `name` itself. -/
def PropertyOf (name : Bytes) (p : StructureProperty) : Prop :=
  (∀ c ∈ p.name, isIdentifierChar c = true) ∧ (p.type.Layered M below ∨ SelfProperty name p)

/-- The entry is a structure below, of a name that is an identifier. -/
def StructureBelow (ref : MetaType) : Prop :=
  ∃ s, structureForRef M ref = some s ∧ below s.name ∧ s.name ∉ builtIn ∧ Stable s.name

end Layers

/-- The names of a lower rank.  The types that are not generated are below every type. -/
def Below (rank : Bytes → Nat) (k : Nat) (name : Bytes) : Prop := name ∈ builtIn ∨ rank name < k

/-- A rank that falls along references. -/
structure MetaModel.Layered (M : MetaModel) (rank : Bytes → Nat) : Prop where
  enumerations : ∀ e, M.typeForName e.name = some (.enumeration e) → e.name ∉ builtIn ∧ ∃ kind, e.type = .base kind
  structures : ∀ s, M.typeForName s.name = some (.structure s) → s.name ∉ builtIn ∧
    (∀ ref ∈ s.bases ++ s.mixins, StructureBelow M (Below rank (rank s.name)) ref) ∧
    ∀ p ∈ s.properties, PropertyOf M (Below rank (rank s.name)) s.name p
  aliases : ∀ a, M.typeForName a.name = some (.typeAlias a) →
    if a.name ∈ builtIn then ∀ name, a.type ≠ .reference name
    else a.type.Layered M (Below rank (rank a.name))

/-! ## What has been generated -/

section Generator

variable {M : MetaModel}

/-- The names in the C++ type for `t` are known. -/
def Ready (M : MetaModel) (known : Bytes → Prop) (baseName : Bytes) (isAlias : Bool) (t : MetaType) : Prop :=
  ∀ fuel c, cppTypeName M fuel baseName isAlias t = some c → ∀ x ∈ c.names, known x

def ReadyTypes (M : MetaModel) (known : Bytes → Prop) (baseName : Bytes) (ts : List MetaType) : Prop :=
  ∀ fuel cs, cppTypeNames M fuel baseName ts = some cs → ∀ x ∈ namesOfTypes cs, known x

def ReadyProperty (M : MetaModel) (known : Bytes → Prop) (cppName : Bytes) (p : StructureProperty) : Prop :=
  Ready M known (cppName ++ capitalizeString p.name) false p.type

/-- The names for the type are known, and those in the members of a structure too. -/
structure Declared (M : MetaModel) (known : Bytes → Prop) (name : Bytes) : Prop where
  identifier : known (upperCaseIdentifier name)
  reference : ∀ x, referenceName M name = some x → known x
  properties : ∀ s, M.typeForName name = some (.structure s) →
    ∀ p ∈ s.properties, ReadyProperty M known (upperCaseIdentifier name) p

namespace CppGenerator

/-- What is known behind the declarations. -/
def known (g : CppGenerator) : Bytes → Prop := Known cpp (· ∈ predefined) g.m_typesHeaderFileContent

end CppGenerator

structure Inv (M : MetaModel) (g : CppGenerator) : Prop where
  ordered : Ordered cpp (· ∈ predefined) g.m_typesHeaderFileContent
  builtIn : ∀ n ∈ builtIn, n ∈ g.m_processedTypes
  declared : ∀ n ∈ g.m_processedTypes, n ∈ g.m_typesBeingProcessed ∨ Declared M g.known n

structure Grows (g g' : CppGenerator) : Prop where
  known : ∀ x, g.known x → g'.known x
  processed : ∀ n ∈ g.m_processedTypes, n ∈ g'.m_processedTypes
  being : g'.m_typesBeingProcessed = g.m_typesBeingProcessed

theorem Grows.refl (g : CppGenerator) : Grows g g := ⟨fun _ hx => hx, fun _ hn => hn, rfl⟩

theorem Grows.trans {g₁ g₂ g₃ : CppGenerator} (h : Grows g₁ g₂) (h' : Grows g₂ g₃) : Grows g₁ g₃ :=
  ⟨fun x hx => h'.known x (h.known x hx), fun n hn => h'.processed n (h.processed n hn), h'.being.trans h.being⟩

theorem Ready.mono {known known' : Bytes → Prop} (hknown : ∀ x, known x → known' x) {baseName : Bytes}
    {isAlias : Bool} {t : MetaType} (h : Ready M known baseName isAlias t) : Ready M known' baseName isAlias t :=
  fun fuel c hc x hx => hknown x (h fuel c hc x hx)

theorem Declared.mono {known known' : Bytes → Prop} (hknown : ∀ x, known x → known' x) {name : Bytes}
    (h : Declared M known name) : Declared M known' name where
  identifier := hknown _ h.identifier
  reference x hx := hknown x (h.reference x hx)
  properties s hs p hp := (h.properties s hs p hp).mono hknown

/-- The generator is in order, and no type in process is below. -/
structure Sound (M : MetaModel) (below : Bytes → Prop) (g : CppGenerator) : Prop where
  inv : Inv M g
  fresh : ∀ n ∈ g.m_typesBeingProcessed, ¬ below n

/-- The generator goes on to a state that is in order again, and of which `P` holds. -/
def Leads (M : MetaModel) (g : CppGenerator) (r : Option CppGenerator) (P : CppGenerator → Prop) : Prop :=
  ∃ g', r = some g' ∧ Inv M g' ∧ Grows g g' ∧ P g'

theorem Sound.grows {below : Bytes → Prop} {g g' : CppGenerator} (h : Sound M below g) (hinv : Inv M g')
    (hgrows : Grows g g') : Sound M below g' := by
  refine ⟨hinv, ?_⟩
  rw [hgrows.being]
  exact h.fresh

theorem Leads.bind {below : Bytes → Prop} {g : CppGenerator} (hg : Sound M below g) {r : Option CppGenerator}
    {k : CppGenerator → Option CppGenerator} {P Q : CppGenerator → Prop} (hr : Leads M g r P)
    (hk : ∀ g', Sound M below g' → Grows g g' → P g' → Leads M g' (k g') Q) : Leads M g (r.bind k) Q := by
  obtain ⟨g', rfl, hinv, hgrows, hp⟩ := hr
  obtain ⟨g'', hg'', hinv', hgrows', hq⟩ := hk g' (hg.grows hinv hgrows) hgrows hp
  exact ⟨g'', hg'', hinv', hgrows.trans hgrows', hq⟩

theorem Leads.imp {g : CppGenerator} {r : Option CppGenerator} {P Q : CppGenerator → Prop} (h : Leads M g r P)
    (hpq : ∀ g', Grows g g' → P g' → Q g') : Leads M g r Q := by
  obtain ⟨g', hg', hinv, hgrows, hp⟩ := h
  exact ⟨g', hg', hinv, hgrows, hpq g' hgrows hp⟩

theorem Leads.stay {g : CppGenerator} (h : Inv M g) {P : CppGenerator → Prop} (hp : P g) :
    Leads M g (some g) P := ⟨g, rfl, h, .refl g, hp⟩

/-! ### One more declaration -/

mutual

theorem completeNames_subset : (c : CppType) → ∀ x ∈ c.completeNames, x ∈ c.names
  | .name _, _, hx => hx
  | .template n args, x, hx => by
    rw [CppType.completeNames] at hx
    split at hx
    · cases hx
    · exact completeNamesOfTypes_subset args x hx

theorem completeNamesOfTypes_subset : (cs : List CppType) → ∀ x ∈ completeNamesOfTypes cs, x ∈ namesOfTypes cs
  | [], _, hx => hx
  | c :: cs, x, hx => by
    rw [completeNamesOfTypes, List.mem_append] at hx
    rw [namesOfTypes, List.mem_append]
    exact hx.imp (completeNames_subset c x) (completeNamesOfTypes_subset cs x)

end

theorem mem_namesOfTypes {cs : List CppType} {x : Bytes} : x ∈ namesOfTypes cs ↔ ∃ c ∈ cs, x ∈ c.names := by
  induction cs with
  | nil => simp [namesOfTypes]
  | cons c cs ih => simp [namesOfTypes, ih]

theorem names_template (n : Bytes) (c : CppType) : (CppType.template n [c]).names = c.names := by
  rw [CppType.names, namesOfTypes, namesOfTypes, List.append_nil]

theorem known_declare {g : CppGenerator} {d : Declaration} {x : Bytes} (hx : x ∈ d.declares) : (g.declare d).known x :=
  .inr ⟨d, List.mem_append_right _ List.mem_cons_self, hx⟩

theorem grows_declare (g : CppGenerator) (d : Declaration) : Grows g (g.declare d) :=
  ⟨fun _ hx => hx.mono, fun _ hn => hn, rfl⟩

/-- A declaration that can stand behind the others. -/
theorem Leads.declare {g : CppGenerator} (h : Inv M g) {d : Declaration} (hd : Admissible cpp g.known d)
    {P : CppGenerator → Prop} (hp : P (g.declare d)) : Leads M g (some (g.declare d)) P := by
  refine ⟨_, rfl, ⟨h.ordered.concat hd, h.builtIn, fun n hn => ?_⟩, grows_declare g d, hp⟩
  exact (h.declared n hn).imp_right (Declared.mono (grows_declare g d).known)

/-- A member that can stand in the structure of the name. -/
structure MemberOk (g : CppGenerator) (cppName : Bytes) (m : CppType × Bytes) : Prop where
  complete : ∀ x ∈ m.1.completeNames, g.known x
  names : ∀ x ∈ m.1.names, g.known x ∨ x = cppName

theorem admissible_structure {g : CppGenerator} {cppName : Bytes} {bases : List Bytes}
    {members : List (CppType × Bytes)} (hbases : ∀ b ∈ bases, g.known b)
    (hmembers : ∀ m ∈ members, MemberOk g cppName m) :
    Admissible cpp g.known (.structure cppName bases members) where
  needs n hn := by
    rcases List.mem_append.mp hn with hn | hn
    · exact hbases n hn
    · obtain ⟨m, hm, hn⟩ := List.mem_flatMap.mp hn
      exact (hmembers m hm).complete n hn
  mentions n hn := by
    rcases List.mem_append.mp hn with hn | hn
    · exact .inl (hbases n hn)
    · obtain ⟨m, hm, hn⟩ := List.mem_flatMap.mp hn
      exact ((hmembers m hm).names n hn).imp_right fun heq => List.mem_singleton.mpr heq

theorem memberFor_ok {fuel : Nat} {g : CppGenerator} {cppName : Bytes} (owner : Bytes) {p : StructureProperty}
    (hready : ReadyProperty M g.known cppName p)
    (hsome : ∃ c, cppTypeName M fuel (cppName ++ capitalizeString p.name) false p.type = some c) :
    ∃ m, memberFor M fuel g.m_typesBeingProcessed cppName p = some m ∧ MemberOk g owner m := by
  obtain ⟨c, hc⟩ := hsome
  have hnames := hready fuel c hc
  let type := if p.isOptional then .template (optionalTemplate g.m_typesBeingProcessed p.type) [c] else c
  have hsame : type.names = c.names := by
    show (if p.isOptional then CppType.template (optionalTemplate g.m_typesBeingProcessed p.type) [c]
      else c).names = _
    split
    · exact names_template _ c
    · rfl
  refine ⟨(type, p.name), by rw [memberFor, hc]; rfl, ?_, ?_⟩
  · intro x hx
    exact hnames x (hsame ▸ completeNames_subset _ x hx)
  · intro x hx
    exact .inl (hnames x (hsame ▸ hx))

/-- A member of a structure that refers to the structure is behind a pointer or in a vector. -/
theorem memberFor_self {fuel : Nat} {g : CppGenerator} {s : Structure} (hs : M.typeForName s.name = some (.structure s))
    (hbuiltIn : s.name ∉ builtIn) (hbeing : s.name ∈ g.m_typesBeingProcessed) (cppName : Bytes)
    {p : StructureProperty} (hp : SelfProperty s.name p) :
    ∃ m, memberFor M fuel g.m_typesBeingProcessed cppName p = some m ∧ MemberOk g (upperCaseIdentifier s.name) m := by
  have href : ∀ baseName, cppTypeName M fuel baseName false (.reference s.name) =
      some (.name (upperCaseIdentifier s.name)) := by
    intro baseName
    rw [cppTypeName, referenceName, hs]
    rfl
  have hvector : ∀ baseName, cppTypeName M fuel baseName false (.array (.reference s.name)) =
      some (.template (bytes "Array") [.name (upperCaseIdentifier s.name)]) := by
    intro baseName
    have hany : ¬ (MetaType.reference s.name).isLSPAny = true := by
      intro h
      refine hbuiltIn ?_
      rw [of_decide_eq_true h]
      decide
    rw [cppTypeName, if_neg hany, href]
    rfl
  have hincomplete : CppType.completeNames (.template (bytes "Array") [.name (upperCaseIdentifier s.name)]) = [] := by
    rw [CppType.completeNames, if_pos (by decide +kernel)]
  obtain ⟨name, type, isOptional, documentation⟩ := p
  obtain ⟨rfl, rfl⟩ | rfl := hp
  · refine ⟨(.template (bytes "std::unique_ptr") [.name (upperCaseIdentifier s.name)], name), ?_, ?_, ?_⟩
    · rw [memberFor, href, optionalTemplate, if_pos (List.contains_iff_mem.mpr hbeing)]
      rfl
    · intro x hx
      rw [CppType.completeNames, if_pos (by decide +kernel)] at hx
      cases hx
    · intro x hx
      rw [names_template] at hx
      exact .inr (List.mem_singleton.mp hx)
  · refine ⟨(if isOptional then .template (optionalTemplate g.m_typesBeingProcessed (.array (.reference s.name)))
      [.template (bytes "Array") [.name (upperCaseIdentifier s.name)]]
      else .template (bytes "Array") [.name (upperCaseIdentifier s.name)], name), ?_, ?_, ?_⟩
    · rw [memberFor, hvector]
      rfl
    · intro x hx
      cases isOptional with
      | false => exact absurd hx (by rw [if_neg (by decide), hincomplete]; exact List.not_mem_nil)
      | true =>
        rw [if_pos rfl, CppType.completeNames, completeNamesOfTypes, hincomplete] at hx
        split at hx <;> cases hx
    · intro x hx
      refine .inr (List.mem_singleton.mp ?_)
      cases isOptional with
      | false => rwa [if_neg (by decide), names_template] at hx
      | true => rwa [if_pos rfl, names_template, names_template] at hx

theorem membersFor_ok {fuel : Nat} {g : CppGenerator} {cppName owner : Bytes} (inherited : List Bytes)
    {ps : List StructureProperty}
    (h : ∀ p ∈ ps, ∃ m, memberFor M fuel g.m_typesBeingProcessed cppName p = some m ∧ MemberOk g owner m) :
    ∃ ms, membersFor M fuel g.m_typesBeingProcessed inherited cppName ps = some ms ∧ ∀ m ∈ ms, MemberOk g owner m :=
  Fallible.mapM_choose fun p hp => h p (List.mem_filter.mp hp).1

/-! ### C++ types that can be written -/

theorem layeredProperty_iff {below : Bytes → Prop} (p : StructureProperty) :
    LayeredProperty M below p ↔ (∀ c ∈ p.name, isIdentifierChar c = true) ∧ p.type.Layered M below := by
  rw [LayeredProperty.eq_def]

theorem layered_of_mem {below : Bytes → Prop} {ps : List StructureProperty} (h : LayeredProperties M below ps)
    {p : StructureProperty} (hp : p ∈ ps) : LayeredProperty M below p := by
  induction ps with
  | nil => cases hp
  | cons q ps ih =>
    rcases List.mem_cons.mp hp with rfl | hp
    · exact h.1
    · exact ih h.2 hp

theorem exists_referenceName {name : Bytes} {t : NamedType} (h : M.typeForName name = some t) :
    ∃ x, referenceName M name = some x := by
  rw [referenceName, h]
  cases t <;> exact ⟨_, rfl⟩

theorem length_cppTypeNames {fuel : Nat} {baseName : Bytes} {ts : List MetaType} {cs : List CppType}
    (h : cppTypeNames M fuel baseName ts = some cs) : cs.length = ts.length := by
  induction ts generalizing cs with
  | nil =>
    cases h
    rfl
  | cons t ts ih =>
    obtain ⟨c, -, h⟩ := Option.bind_eq_some_iff.mp h
    obtain ⟨cs', hcs', h⟩ := Option.bind_eq_some_iff.mp h
    cases h
    exact congrArg (· + 1) (ih hcs')

section Written

variable {below : Bytes → Prop} {fuel : Nat}

mutual

theorem exists_cppTypeName (hstring : ∀ t, t.Layered M below → ∃ b, isStringType M fuel t = some b) :
    (t : MetaType) → t.Layered M below → (baseName : Bytes) → (isAlias : Bool) →
    ∃ c, cppTypeName M fuel baseName isAlias t = some c
  | .reference name, ⟨_, t, ht⟩, _, _ => by
    obtain ⟨x, hx⟩ := exists_referenceName ht
    exact ⟨.name x, by rw [cppTypeName, hx]; rfl⟩
  | .array t, ht, baseName, _ => by
    obtain ⟨c, hc⟩ := exists_cppTypeName hstring t ht baseName false
    rw [cppTypeName, hc]
    split <;> exact ⟨_, rfl⟩
  | .map k v, ⟨hk, hv⟩, baseName, _ => by
    obtain ⟨b, hb⟩ := hstring k hk
    obtain ⟨c, hc⟩ := exists_cppTypeName hstring k hk baseName false
    obtain ⟨d, hd⟩ := exists_cppTypeName hstring v hv baseName false
    rw [cppTypeName, hb, hc, hd]
    exact ⟨_, rfl⟩
  | .and _, _, _, _ => ⟨_, by rw [cppTypeName]⟩
  | .or ts, ⟨hne, hts⟩, baseName, _ => by
    obtain ⟨cs, hcs⟩ := exists_cppTypeNames hstring ts hts baseName
    have hlen := length_cppTypeNames hcs
    rw [cppTypeName, hcs]
    rcases ts with _ | ⟨t, _ | ⟨t', ts⟩⟩
    · exact absurd rfl hne
    · obtain ⟨c, rfl⟩ := List.length_eq_one_iff.mp hlen
      exact ⟨c, rfl⟩
    · exact ⟨_, rfl⟩
  | .tuple ts, hts, baseName, isAlias => by
    obtain ⟨cs, hcs⟩ := exists_cppTypeNames hstring ts hts (if isAlias then baseName ++ bytes "_Element" else baseName)
    exact ⟨.template (bytes "Tuple") cs, by rw [cppTypeName, hcs]; rfl⟩
  | .structureLiteral _, _, _, _ => ⟨_, by rw [cppTypeName]⟩
  | .base _, _, _, _ => ⟨_, by rw [cppTypeName]⟩
  | .stringLiteral _, _, _, _ => ⟨_, by rw [cppTypeName]⟩
  | .integerLiteral _, _, _, _ => ⟨_, by rw [cppTypeName]⟩
  | .booleanLiteral _, _, _, _ => ⟨_, by rw [cppTypeName]⟩

theorem exists_cppTypeNames (hstring : ∀ t, t.Layered M below → ∃ b, isStringType M fuel t = some b) :
    (ts : List MetaType) → LayeredTypes M below ts → (baseName : Bytes) →
    ∃ cs, cppTypeNames M fuel baseName ts = some cs
  | [], _, _ => ⟨[], rfl⟩
  | t :: ts, ⟨ht, hts⟩, baseName => by
    obtain ⟨c, hc⟩ := exists_cppTypeName hstring t ht (baseName ++ t.nameSuffix) false
    obtain ⟨cs, hcs⟩ := exists_cppTypeNames hstring ts hts baseName
    exact ⟨c :: cs, by rw [cppTypeNames, hc, hcs]; rfl⟩

end

end Written

/-! ### Types whose names are known -/

theorem ready_name {g : CppGenerator} {baseName : Bytes} {isAlias : Bool} {t : MetaType} {n : Bytes}
    (h : ∀ fuel, cppTypeName M fuel baseName isAlias t = some (.name n)) (hn : g.known n) :
    Ready M g.known baseName isAlias t := by
  intro fuel c hc x hx
  obtain rfl := Option.some.inj ((h fuel).symm.trans hc)
  rw [List.mem_singleton.mp hx]
  exact hn

theorem ready_reference {known : Bytes → Prop} {name : Bytes} (h : ∀ x, referenceName M name = some x → known x)
    (baseName : Bytes) (isAlias : Bool) : Ready M known baseName isAlias (.reference name) := by
  intro fuel c hc x hx
  rw [cppTypeName] at hc
  obtain ⟨n, hn, rfl⟩ := Option.map_eq_some_iff.mp hc
  rw [List.mem_singleton.mp hx]
  exact h n hn

theorem ready_array {g : CppGenerator} {baseName : Bytes} {isAlias : Bool} {t : MetaType}
    (h : Ready M g.known baseName false t) : Ready M g.known baseName isAlias (.array t) := by
  intro fuel c hc x hx
  rw [cppTypeName] at hc
  split at hc
  · cases hc
    rw [List.mem_singleton.mp hx]
    exact .inl (by decide)
  · obtain ⟨d, hd, rfl⟩ := Option.map_eq_some_iff.mp hc
    rw [names_template] at hx
    exact h fuel d hd x hx

theorem ready_map {known : Bytes → Prop} {baseName : Bytes} {isAlias : Bool} {k v : MetaType}
    (hk : Ready M known baseName false k) (hv : Ready M known baseName false v) :
    Ready M known baseName isAlias (.map k v) := by
  intro fuel c hc x hx
  rw [cppTypeName] at hc
  obtain ⟨b, -, hc⟩ := Option.bind_eq_some_iff.mp hc
  obtain ⟨d, hd, hc⟩ := Option.bind_eq_some_iff.mp hc
  obtain ⟨e, he, hc⟩ := Option.bind_eq_some_iff.mp hc
  cases hc
  rcases List.mem_append.mp hx with hx | hx
  · exact hk fuel d hd x hx
  · rw [namesOfTypes, namesOfTypes, List.append_nil] at hx
    exact hv fuel e he x hx

theorem ready_or {known : Bytes → Prop} {baseName : Bytes} {isAlias : Bool} {ts : List MetaType}
    (h : ReadyTypes M known baseName ts) : Ready M known baseName isAlias (.or ts) := by
  intro fuel c hc x hx
  rw [cppTypeName] at hc
  obtain ⟨cs, hcs, hc⟩ := Option.bind_eq_some_iff.mp hc
  refine h fuel cs hcs x ?_
  rcases ts with _ | ⟨t, _ | ⟨t', ts⟩⟩
  · cases hc
  · exact mem_namesOfTypes.mpr ⟨c, List.mem_of_mem_head? hc, hx⟩
  · obtain rfl : orTemplate (t :: t' :: ts) cs = c := Option.some.inj hc
    unfold orTemplate at hx
    split at hx
    · exact hx
    · obtain ⟨d, hd, hx⟩ := mem_namesOfTypes.mp hx
      exact mem_namesOfTypes.mpr ⟨d, List.mem_of_mem_eraseIdx hd, hx⟩

theorem ready_tuple {known : Bytes → Prop} {baseName : Bytes} {isAlias : Bool} {ts : List MetaType}
    (h : ReadyTypes M known (if isAlias then baseName ++ bytes "_Element" else baseName) ts) :
    Ready M known baseName isAlias (.tuple ts) := by
  intro fuel c hc x hx
  rw [cppTypeName] at hc
  obtain ⟨cs, hcs, rfl⟩ := Option.map_eq_some_iff.mp hc
  exact h fuel cs hcs x hx

theorem readyTypes_cons {known : Bytes → Prop} {baseName : Bytes} {t : MetaType} {ts : List MetaType}
    (ht : Ready M known (baseName ++ t.nameSuffix) false t) (hts : ReadyTypes M known baseName ts) :
    ReadyTypes M known baseName (t :: ts) := by
  intro fuel cs hcs x hx
  obtain ⟨c, hc, hcs⟩ := Option.bind_eq_some_iff.mp hcs
  obtain ⟨cs', hcs', hcs⟩ := Option.bind_eq_some_iff.mp hcs
  cases hcs
  rcases List.mem_append.mp hx with hx | hx
  · exact ht fuel c hc x hx
  · exact hts fuel cs' hcs' x hx

/-! ### The types behind a type -/

theorem stable_suffix {below : Bytes → Prop} {t : MetaType} (ht : t.Layered M below) {baseName : Bytes}
    (h : Stable baseName) : Stable (baseName ++ t.nameSuffix) := by
  cases t with
  | structureLiteral ps =>
    refine h.append ?_ ?_
    · intro c hc
      obtain ⟨p, hp, hc⟩ := List.mem_flatMap.mp hc
      obtain ⟨hname, -⟩ := (layeredProperty_iff p).mp (layered_of_mem ht (List.mem_filter.mp hp).1)
      rcases List.mem_cons.mp hc with rfl | hc
      · decide
      · exact (stable_capitalize hname).chars c hc
    · intro c hc
      change ((ps.filter fun p => !p.isOptional).flatMap fun p => chr '_' :: capitalizeString p.name).head? = _ at hc
      cases hps : ps.filter fun p => !p.isOptional with
      | nil =>
        rw [hps] at hc
        cases hc
      | cons p ps =>
        rw [hps] at hc
        cases hc
        decide
  | _ =>
    rw [MetaType.nameSuffix, List.append_nil]
    · exact h
    all_goals nofun

theorem stable_aliasSuffix {baseName suffix : Bytes} (h : Stable baseName) (isAlias : Bool)
    (hsuffix : ∀ c ∈ suffix, isIdentifierChar c = true) (hhead : ∀ c, suffix.head? = some c → toupper c = c) :
    Stable (if isAlias then baseName ++ suffix else baseName) := by
  split
  · exact h.append hsuffix hhead
  · exact h

/-- What is generated for the names that are below, and that no chain of aliases is too long. -/
structure Generates (M : MetaModel) (below : Bytes → Prop) (fuel : Nat)
    (named : Bytes → CppGenerator → Option CppGenerator) : Prop where
  declared : ∀ name, below name → (∃ t, M.typeForName name = some t) → ∀ g, Sound M below g →
    Leads M g (named name g) fun g' => Declared M g'.known name
  isString : ∀ t, t.Layered M below → ∃ b, isStringType M fuel t = some b

section Types

variable {below : Bytes → Prop} {fuel : Nat} {named : Bytes → CppGenerator → Option CppGenerator}

mutual

theorem generateType_ready (h : Generates M below fuel named) : (t : MetaType) → t.Layered M below →
    (baseName : Bytes) → Stable baseName → (isAlias : Bool) → (g : CppGenerator) → Sound M below g →
    Leads M g (generateType M fuel named baseName isAlias t g) fun g' => Ready M g'.known baseName isAlias t
  | .reference name, ⟨hbelow, ht⟩, baseName, _, isAlias, g, hg =>
    (h.declared name hbelow ht g hg).imp fun _ _ hdeclared => ready_reference hdeclared.reference baseName isAlias
  | .array t, ht, baseName, hbase, _, g, hg =>
    (generateType_ready h t ht baseName hbase false g hg).imp fun _ _ hready => ready_array hready
  | .map k v, ⟨hk, hv⟩, baseName, hbase, _, g, hg => by
    refine (generateType_ready h k hk baseName hbase false g hg).bind hg fun g' hg' _ hkey => ?_
    refine (generateType_ready h v hv baseName hbase false g' hg').imp fun g'' hgrows hvalue => ?_
    exact ready_map (hkey.mono hgrows.known) hvalue
  | .and ts, hts, baseName, hbase, isAlias, g, hg =>
    (generateAggregateTypeList_ready h ts hts _
      (stable_aliasSuffix hbase isAlias (by decide +kernel) (by decide +kernel)) g hg).imp
      fun _ _ _ => ready_name (n := bytes "LSPObject") (fun _ => by rw [cppTypeName]) (.inl (by decide))
  | .or ts, ⟨_, hts⟩, baseName, hbase, _, g, hg =>
    (generateAggregateTypeList_ready h ts hts baseName hbase g hg).imp fun _ _ hready => ready_or hready
  | .tuple ts, hts, baseName, hbase, isAlias, g, hg =>
    (generateAggregateTypeList_ready h ts hts _
      (stable_aliasSuffix hbase isAlias (by decide +kernel) (by decide +kernel)) g hg).imp
      fun _ _ hready => ready_tuple hready
  | .structureLiteral ps, hps, baseName, hbase, _, g, hg => by
    let cppName := upperCaseIdentifier baseName
    have hcpp : cppName = baseName := upperCaseIdentifier_of_stable hbase
    refine (generateTypesOf_ready h ps hps cppName (stable_upperCaseIdentifier _) g hg).bind hg
      fun g' hg' _ hready => ?_
    obtain ⟨ms, hms, hok⟩ : ∃ ms, membersFor M fuel g'.m_typesBeingProcessed [] cppName ps = some ms ∧
        ∀ m ∈ ms, MemberOk g' cppName m := by
      refine membersFor_ok [] fun p hp => memberFor_ok cppName (hready p hp) ?_
      exact exists_cppTypeName h.isString p.type ((layeredProperty_iff p).mp (layered_of_mem hps hp)).2 _ false
    have hdeclare : declareStructure M fuel { name := baseName, properties := ps } g' =
        some (g'.declare (.structure cppName [] ms)) := by
      rw [declareStructure, structureDeclaration]
      show ((membersFor M fuel g'.m_typesBeingProcessed [] cppName ps).bind _).map _ = _
      rw [hms]
      rfl
    rw [hdeclare]
    refine .declare hg'.inv (admissible_structure (List.forall_mem_nil _) hok) ?_
    refine ready_name (n := baseName) (fun _ => by rw [cppTypeName]) (known_declare ?_)
    exact List.mem_singleton.mpr hcpp.symm
  | .base kind, _, _, _, _, g, hg =>
    .stay hg.inv (ready_name (n := kind.cppName) (fun _ => by rw [cppTypeName]) (.inl (by cases kind <;> decide)))
  | .stringLiteral _, _, _, _, _, g, hg =>
    .stay hg.inv (ready_name (n := bytes "String") (fun _ => by rw [cppTypeName]) (.inl (by decide)))
  | .integerLiteral _, _, _, _, _, g, hg =>
    .stay hg.inv (ready_name (n := bytes "int") (fun _ => by rw [cppTypeName]) (.inl (by decide)))
  | .booleanLiteral _, _, _, _, _, g, hg =>
    .stay hg.inv (ready_name (n := bytes "bool") (fun _ => by rw [cppTypeName]) (.inl (by decide)))

theorem generateAggregateTypeList_ready (h : Generates M below fuel named) : (ts : List MetaType) →
    LayeredTypes M below ts → (baseName : Bytes) → Stable baseName → (g : CppGenerator) → Sound M below g →
    Leads M g (generateAggregateTypeList M fuel named baseName ts g) fun g' => ReadyTypes M g'.known baseName ts
  | [], _, _, _, g, hg => .stay hg.inv fun _ _ hcs _ hx => by
    cases hcs
    cases hx
  | t :: ts, ⟨ht, hts⟩, baseName, hbase, g, hg => by
    refine (generateType_ready h t ht _ (stable_suffix ht hbase) false g hg).bind hg fun g' hg' _ hready => ?_
    refine (generateAggregateTypeList_ready h ts hts baseName hbase g' hg').imp fun g'' hgrows hreadys => ?_
    exact readyTypes_cons (hready.mono hgrows.known) hreadys

theorem generateTypesOf_ready (h : Generates M below fuel named) : (ps : List StructureProperty) →
    LayeredProperties M below ps → (cppName : Bytes) → Stable cppName → (g : CppGenerator) → Sound M below g →
    Leads M g (generateTypesOf M fuel named cppName ps g) fun g' => ∀ p ∈ ps, ReadyProperty M g'.known cppName p
  | [], _, _, _, g, hg => .stay hg.inv (List.forall_mem_nil _)
  | p :: ps, ⟨hp, hps⟩, cppName, hbase, g, hg => by
    refine (generateTypeOf_ready h p hp cppName hbase g hg).bind hg fun g' hg' _ hready => ?_
    refine (generateTypesOf_ready h ps hps cppName hbase g' hg').imp fun g'' hgrows hall => ?_
    exact List.forall_mem_cons.mpr ⟨hready.mono hgrows.known, hall⟩

theorem generateTypeOf_ready (h : Generates M below fuel named) : (p : StructureProperty) →
    LayeredProperty M below p → (cppName : Bytes) → Stable cppName → (g : CppGenerator) → Sound M below g →
    Leads M g (generateTypeOf M fuel named cppName p g) fun g' => ReadyProperty M g'.known cppName p
  | ⟨_, type, _, _⟩, ⟨hname, htype⟩, _, hbase, g, hg =>
    generateType_ready h type htype _ (hbase.append (stable_capitalize hname).chars (stable_capitalize hname).head)
      false g hg

end

/-! ### A structure -/

theorem structureForRef_eq_some {ref : MetaType} {s : Structure} (h : structureForRef M ref = some s) :
    ref = .reference s.name ∧ M.typeForName s.name = some (.structure s) := by
  unfold structureForRef at h
  split at h
  · next name =>
    split at h
    · next s' hs' =>
      obtain rfl := Option.some.inj h
      have hname : s'.name = name := (MetaModel.typeForName_eq_some_iff.mp hs').2
      exact ⟨by rw [hname], by rw [hname, hs']⟩
    · cases h
  · cases h

theorem generateRefs_declared (h : Generates M below fuel named) {refs : List MetaType}
    (hrefs : ∀ ref ∈ refs, StructureBelow M below ref) {g : CppGenerator} (hg : Sound M below g) :
    Leads M g (refs.foldlM (fun g t => generateType M fuel named [] false t g) g) fun g' =>
      ∀ ref ∈ refs, ∀ s, structureForRef M ref = some s → Declared M g'.known s.name := by
  induction refs generalizing g with
  | nil => exact .stay hg.inv (List.forall_mem_nil _)
  | cons ref refs ih =>
    obtain ⟨⟨s, hs, hbelow, -, -⟩, htail⟩ := List.forall_mem_cons.mp hrefs
    obtain ⟨rfl, htype⟩ := structureForRef_eq_some hs
    rw [List.foldlM_cons]
    refine (h.declared s.name hbelow ⟨_, htype⟩ g hg).bind hg fun g' hg' _ hdeclared => ?_
    refine (ih htail hg').imp fun g'' hgrows hall => List.forall_mem_cons.mpr ⟨?_, hall⟩
    rintro s' hs'
    obtain rfl := Option.some.inj (hs.symm.trans hs')
    exact hdeclared.mono hgrows.known

theorem generateOwnTypes_ready (h : Generates M below fuel named) {name : Bytes}
    (hself : ∀ g : CppGenerator, name ∈ g.m_processedTypes → named name g = some g) {cppName : Bytes}
    (hcpp : Stable cppName) {ps : List StructureProperty} (hps : ∀ p ∈ ps, PropertyOf M below name p)
    {g : CppGenerator} (hg : Sound M below g) (hprocessed : name ∈ g.m_processedTypes) :
    Leads M g (generateTypesOf M fuel named cppName ps g) fun g' =>
      ∀ p ∈ ps, ReadyProperty M g'.known cppName p ∨ SelfProperty name p := by
  induction ps generalizing g with
  | nil => exact .stay hg.inv (List.forall_mem_nil _)
  | cons p ps ih =>
    obtain ⟨⟨hname, hp⟩, hps⟩ := List.forall_mem_cons.mp hps
    have hone : Leads M g (generateTypeOf M fuel named cppName p g) fun g' =>
        ReadyProperty M g'.known cppName p ∨ SelfProperty name p := by
      rcases hp with hp | hp
      · have hlayered : LayeredProperty M below p := (layeredProperty_iff p).mpr ⟨hname, hp⟩
        exact (generateTypeOf_ready h p hlayered cppName hcpp g hg).imp fun _ _ hready => .inl hready
      · -- the structure is marked already
        have hstay : generateTypeOf M fuel named cppName p g = some g := by
          obtain ⟨_, type, _, _⟩ := p
          obtain ⟨-, rfl⟩ | rfl := hp
          · exact hself g hprocessed
          · exact hself g hprocessed
        rw [hstay]
        exact .stay hg.inv (.inr hp)
    refine hone.bind hg fun g' hg' hgrows hready => ?_
    refine (ih hps hg' (hgrows.processed _ hprocessed)).imp fun g'' hgrows' hall => ?_
    exact List.forall_mem_cons.mpr ⟨hready.imp_left (Ready.mono hgrows'.known), hall⟩

/-- Once a structure is known, so are the names in its properties. -/
theorem readyProperty_of_self {g : CppGenerator} {name cppName : Bytes}
    (hname : ∀ x, referenceName M name = some x → g.known x) {p : StructureProperty} (hp : SelfProperty name p) :
    ReadyProperty M g.known cppName p := by
  unfold ReadyProperty
  obtain ⟨-, htype⟩ | htype := hp
  · rw [htype]
    exact ready_reference hname _ _
  · rw [htype]
    exact ready_array (ready_reference hname _ _)

end Types

section Ranked

variable {rank : Bytes → Nat} {fuel : Nat}

theorem isStringType_of_not_reference {t : MetaType} (h : ∀ name, t ≠ .reference name) (fuel : Nat) :
    ∃ b, isStringType M fuel t = some b := by
  cases t with
  | reference name => exact absurd rfl (h name)
  | _ => cases fuel <;> exact ⟨_, rfl⟩

theorem exists_isStringType (hM : M.Layered rank) {k : Nat} (hk : k < fuel) {t : MetaType}
    (ht : t.Layered M (Below rank k)) : ∃ b, isStringType M fuel t = some b := by
  induction fuel generalizing k t with
  | zero => omega
  | succ fuel ih =>
    by_cases href : ∃ name, t = .reference name
    · obtain ⟨name, rfl⟩ := href
      obtain ⟨hbelow, type, htype⟩ := ht
      rw [isStringType, htype]
      cases type with
      | «structure» s => exact ⟨_, rfl⟩
      | enumeration e => exact ⟨_, rfl⟩
      | typeAlias a =>
        obtain rfl : a.name = name := (MetaModel.typeForName_eq_some_iff.mp htype).2
        have halias := hM.aliases a htype
        split at halias
        · exact isStringType_of_not_reference halias fuel
        · next hbuiltIn =>
          have hrank : rank a.name < k := hbelow.resolve_left hbuiltIn
          exact ih (by omega) halias
    · exact isStringType_of_not_reference (fun name h => href ⟨name, h⟩) _

theorem exists_propertyType (hM : M.Layered rank) {k : Nat} (hk : k < fuel) {name : Bytes} {t : NamedType}
    (hname : M.typeForName name = some t) {p : StructureProperty} (hp : PropertyOf M (Below rank k) name p)
    (baseName : Bytes) : ∃ c, cppTypeName M fuel baseName false p.type = some c := by
  rcases hp.2 with hp | hp
  · exact exists_cppTypeName (fun t => exists_isStringType hM hk) p.type hp baseName false
  · obtain ⟨x, hx⟩ := exists_referenceName hname
    obtain ⟨-, htype⟩ | htype := hp
    · rw [htype, cppTypeName, hx]
      exact ⟨_, rfl⟩
    · rw [htype, cppTypeName, cppTypeName, hx]
      split <;> exact ⟨_, rfl⟩

/-- What has been generated for a base or a mixin of the structure. -/
structure RefDeclared (rank : Bytes → Nat) (g : CppGenerator) (owner : Structure) (s : Structure) : Prop where
  type : M.typeForName s.name = some (.structure s)
  lower : rank s.name < rank owner.name
  stable : Stable s.name
  declared : Declared M g.known s.name

theorem structureDeclaration_admissible (hM : M.Layered rank) {s : Structure}
    (hs : M.typeForName s.name = some (.structure s)) (hfuel : rank s.name < fuel) {g : CppGenerator}
    (hrefs : ∀ ref ∈ s.bases ++ s.mixins, ∃ b, structureForRef M ref = some b ∧ RefDeclared (M := M) rank g s b)
    (hready : ∀ p ∈ s.properties, ReadyProperty M g.known (upperCaseIdentifier s.name) p ∨ SelfProperty s.name p)
    (hbeing : s.name ∈ g.m_typesBeingProcessed) :
    ∃ d, structureDeclaration M fuel g.m_typesBeingProcessed s = some d ∧ Admissible cpp g.known d ∧
      upperCaseIdentifier s.name ∈ d.declares := by
  obtain ⟨hbuiltIn, -, hprops⟩ := hM.structures s hs
  obtain ⟨bases, hbases, hbase⟩ : ∃ bases, s.bases.mapM (structureForRef M) = some bases ∧
      ∀ b ∈ bases, RefDeclared (M := M) rank g s b :=
    Fallible.mapM_choose fun ref href => hrefs ref (List.mem_append_left _ href)
  obtain ⟨mixins, hmixins, hmixin⟩ : ∃ mixins, s.mixins.mapM (structureForRef M) = some mixins ∧
      ∀ m ∈ mixins, RefDeclared (M := M) rank g s m :=
    Fallible.mapM_choose fun ref href => hrefs ref (List.mem_append_right _ href)
  let cppName := upperCaseIdentifier s.name
  let inherited := (bases.head?.map fun b => b.properties.map (·.name)).getD []
  obtain ⟨mixedIn, hmixedIn, hmixedOk⟩ : ∃ mixedIn, (mixins.mapM fun m =>
      membersFor M fuel g.m_typesBeingProcessed inherited (upperCaseIdentifier m.name) m.properties) = some mixedIn ∧
      ∀ ms ∈ mixedIn, ∀ m ∈ ms, MemberOk g cppName m := by
    refine Fallible.mapM_choose fun m hm => membersFor_ok inherited fun p hp => ?_
    have hm := hmixin m hm
    have hlower := hm.lower
    refine memberFor_ok cppName (hm.declared.properties m hm.type p hp) ?_
    exact exists_propertyType hM (by omega) hm.type ((hM.structures m hm.type).2.2 p hp) _
  obtain ⟨own, hown, hownOk⟩ : ∃ own,
      membersFor M fuel g.m_typesBeingProcessed inherited cppName s.properties = some own ∧
        ∀ m ∈ own, MemberOk g cppName m := by
    refine membersFor_ok inherited fun p hp => ?_
    rcases hready p hp with hready | hself
    · exact memberFor_ok cppName hready (exists_propertyType hM hfuel hs (hprops p hp) _)
    · exact memberFor_self hs hbuiltIn hbeing cppName hself
  refine ⟨.structure cppName (bases.map (·.name)) (mixedIn.flatten ++ own), ?_, admissible_structure ?_ ?_,
    List.mem_singleton.mpr rfl⟩
  · rw [structureDeclaration, hbases, hmixins]
    show ((mixins.mapM fun m => membersFor M fuel g.m_typesBeingProcessed inherited (upperCaseIdentifier m.name)
      m.properties).bind _) = _
    rw [hmixedIn]
    show ((membersFor M fuel g.m_typesBeingProcessed inherited cppName s.properties).bind _) = _
    rw [hown]
    rfl
  · intro n hn
    obtain ⟨b, hb, rfl⟩ := List.mem_map.mp hn
    -- a base is written as it is, without `upperCaseIdentifier`
    rw [← upperCaseIdentifier_of_stable (hbase b hb).stable]
    exact (hbase b hb).declared.identifier
  · intro m hm
    rcases List.mem_append.mp hm with hm | hm
    · obtain ⟨ms, hms, hm⟩ := List.mem_flatten.mp hm
      exact hmixedOk ms hms m hm
    · exact hownOk m hm

variable {named : Bytes → CppGenerator → Option CppGenerator}

theorem generate_structure (hM : M.Layered rank) {s : Structure} (hs : M.typeForName s.name = some (.structure s))
    (hfuel : rank s.name < fuel) (h : Generates M (Below rank (rank s.name)) fuel named)
    (hself : ∀ g : CppGenerator, s.name ∈ g.m_processedTypes → named s.name g = some g) {g : CppGenerator}
    (hg : Sound M (Below rank (rank s.name)) g) (hprocessed : s.name ∈ g.m_processedTypes)
    (hbeing : s.name ∈ g.m_typesBeingProcessed) :
    Leads M g (generate M fuel named (.structure s) g) fun g' => Declared M g'.known s.name := by
  obtain ⟨-, hrefs, hprops⟩ := hM.structures s hs
  refine (generateRefs_declared h hrefs hg).bind hg fun g₁ hg₁ hgrows₁ hdeclared => ?_
  refine (generateOwnTypes_ready h hself (stable_upperCaseIdentifier s.name) hprops hg₁
    (hgrows₁.processed _ hprocessed)).bind hg₁ fun g₂ hg₂ hgrows₂ hready => ?_
  have hbeing₂ : s.name ∈ g₂.m_typesBeingProcessed := by
    rw [hgrows₂.being, hgrows₁.being]
    exact hbeing
  obtain ⟨d, hd, hadmissible, hname⟩ := structureDeclaration_admissible hM hs hfuel (fun ref href => by
    obtain ⟨b, hb, hbelow, hbuiltIn, hstable⟩ := hrefs ref href
    exact ⟨b, hb, (structureForRef_eq_some hb).2, hbelow.resolve_left hbuiltIn, hstable,
      (hdeclared ref href b hb).mono hgrows₂.known⟩) hready hbeing₂
  have hknown : (g₂.declare d).known (upperCaseIdentifier s.name) := known_declare hname
  have href : ∀ x, referenceName M s.name = some x → (g₂.declare d).known x := by
    intro x hx
    rw [referenceName, hs] at hx
    obtain rfl := Option.some.inj hx
    exact hknown
  rw [declareStructure, hd]
  refine .declare hg₂.inv hadmissible ⟨hknown, href, ?_⟩
  intro s' hs' p hp
  obtain ⟨⟩ := hs.symm.trans hs'
  rcases hready p hp with hready | hself
  · exact hready.mono (grows_declare g₂ d).known
  · exact readyProperty_of_self href hself

/-! ### A named type -/

theorem generate_enumeration (hM : M.Layered rank) {e : Enumeration}
    (he : M.typeForName e.name = some (.enumeration e)) {g : CppGenerator} (hg : Inv M g) :
    Leads M g (generate M fuel named (.enumeration e) g) fun g' => Declared M g'.known e.name := by
  obtain ⟨-, kind, hkind⟩ := hM.enumerations e he
  rw [generate, hkind]
  refine .declare hg ⟨?_, ?_⟩ ⟨known_declare List.mem_cons_self, ?_, ?_⟩
  · rintro n hn
    rw [List.mem_singleton.mp hn]
    exact .inl (by cases kind <;> decide)
  · rintro n hn
    rw [List.mem_singleton.mp hn]
    exact .inl (.inl (by cases kind <;> decide))
  · intro x hx
    rw [referenceName, he] at hx
    obtain rfl := Option.some.inj hx
    exact known_declare (List.mem_cons_of_mem _ List.mem_cons_self)
  · intro s hs
    exact nomatch he.symm.trans hs

theorem generate_typeAlias (hM : M.Layered rank) {a : TypeAlias} (ha : M.typeForName a.name = some (.typeAlias a))
    (hbuiltIn : a.name ∉ builtIn) (h : Generates M (Below rank (rank a.name)) fuel named) {g : CppGenerator}
    (hg : Sound M (Below rank (rank a.name)) g) :
    Leads M g (generate M fuel named (.typeAlias a) g) fun g' => Declared M g'.known a.name := by
  let cppName := upperCaseIdentifier a.name
  have htype := hM.aliases a ha
  rw [if_neg hbuiltIn] at htype
  refine (generateType_ready h a.type htype cppName (stable_upperCaseIdentifier _) true g hg).bind hg
    fun g' hg' _ hready => ?_
  obtain ⟨c, hc⟩ := exists_cppTypeName h.isString a.type htype cppName true
  show Leads M g' ((cppTypeName M fuel cppName true a.type).bind _) _
  rw [hc]
  have hnames : ∀ x ∈ c.names, g'.known x := hready fuel c hc
  let d : Declaration := .typeAlias cppName c
  have hadmissible : Admissible cpp g'.known d := ⟨hnames, fun n hn => .inl (hnames n hn)⟩
  have hknown : (g'.declare d).known cppName := known_declare List.mem_cons_self
  refine .declare hg'.inv hadmissible ⟨hknown, ?_, ?_⟩
  · intro x hx
    rw [referenceName, ha] at hx
    obtain rfl := Option.some.inj hx
    exact hknown
  · intro s hs
    exact nomatch ha.symm.trans hs

theorem generate_leads (hM : M.Layered rank) {t : NamedType} (ht : M.typeForName t.name = some t)
    (hbuiltIn : t.name ∉ builtIn) (hfuel : rank t.name < fuel) (h : Generates M (Below rank (rank t.name)) fuel named)
    (hself : ∀ g : CppGenerator, t.name ∈ g.m_processedTypes → named t.name g = some g) {g : CppGenerator}
    (hg : Sound M (Below rank (rank t.name)) g) (hprocessed : t.name ∈ g.m_processedTypes)
    (hbeing : t.name ∈ g.m_typesBeingProcessed) :
    Leads M g (generate M fuel named t g) fun g' => Declared M g'.known t.name := by
  cases t with
  | enumeration e => exact generate_enumeration hM ht hg.inv
  | «structure» s => exact generate_structure hM ht hfuel h hself hg hprocessed hbeing
  | typeAlias a => exact generate_typeAlias hM ht hbuiltIn h hg

/-! ### All types -/

theorem generateNamedType_of_processed {name : Bytes} {g : CppGenerator} (hname : name ∈ g.m_processedTypes) :
    generateNamedType M (fuel + 1) name g = some g := by
  rw [generateNamedType, if_pos (List.contains_iff_mem.mpr hname)]

theorem processed_leads {below : Bytes → Prop} {name : Bytes} {g : CppGenerator} (hg : Sound M below g)
    (hbelow : below name) (hname : name ∈ g.m_processedTypes) :
    Leads M g (generateNamedType M (fuel + 1) name g) fun g' => Declared M g'.known name := by
  rw [generateNamedType_of_processed hname]
  exact .stay hg.inv ((hg.inv.declared name hname).resolve_left fun hbeing => hg.fresh name hbeing hbelow)

/-- The state that `generate` meets for a type. -/
def CppGenerator.enter (g : CppGenerator) (name : Bytes) : CppGenerator :=
  { g with
    m_processedTypes := name :: g.m_processedTypes
    m_typesBeingProcessed := name :: g.m_typesBeingProcessed }

theorem sound_enter {k : Nat} {name : Bytes} {g : CppGenerator} (hbuiltIn : name ∉ builtIn) (hk : k ≤ rank name)
    (hg : Sound M (Below rank k) g) : Sound M (Below rank k) (g.enter name) where
  inv := {
    ordered := hg.inv.ordered
    builtIn n hn := List.mem_cons_of_mem _ (hg.inv.builtIn n hn)
    declared n hn := by
      rcases List.mem_cons.mp hn with rfl | hn
      · exact .inl List.mem_cons_self
      · exact (hg.inv.declared n hn).imp_left (List.mem_cons_of_mem _) }
  fresh n hn := by
    rcases List.mem_cons.mp hn with rfl | hn
    · rintro (hn | hn)
      · exact hbuiltIn hn
      · omega
    · exact hg.fresh n hn

theorem Leads.leave {g : CppGenerator} {name : Bytes} {r : Option CppGenerator}
    (h : Leads M (g.enter name) r fun g' => Declared M g'.known name) :
    Leads M g (r.map fun g' => { g' with m_typesBeingProcessed := g'.m_typesBeingProcessed.erase name })
      fun g' => Declared M g'.known name := by
  obtain ⟨g', rfl, hinv, hgrows, hdeclared⟩ := h
  have hbeing : g'.m_typesBeingProcessed = name :: g.m_typesBeingProcessed := hgrows.being
  have herase : g'.m_typesBeingProcessed.erase name = g.m_typesBeingProcessed := by
    rw [hbeing, List.erase_cons_head]
  refine ⟨_, rfl, ⟨hinv.ordered, hinv.builtIn, fun n hn => ?_⟩, ⟨hgrows.known, ?_, herase⟩, hdeclared⟩
  · show n ∈ g'.m_typesBeingProcessed.erase name ∨ _
    rw [herase]
    rcases hinv.declared n hn with hn | hn
    · rw [hbeing] at hn
      rcases List.mem_cons.mp hn with rfl | hn
      · exact .inr hdeclared
      · exact .inl hn
    · exact .inr hn
  · exact fun n hn => hgrows.processed n (List.mem_cons_of_mem _ hn)

theorem Sound.mono {below below' : Bytes → Prop} {g : CppGenerator} (h : Sound M below g)
    (hbelow : ∀ n, below' n → below n) : Sound M below' g :=
  ⟨h.inv, fun n hn hn' => h.fresh n hn (hbelow n hn')⟩

/-- The types being processed are above the one that is generated. -/
theorem generateNamedType_leads (hM : M.Layered rank) {name : Bytes} (hname : ∃ t, M.typeForName name = some t)
    (hfuel : rank name < fuel) {g : CppGenerator} (hg : Sound M (Below rank (rank name + 1)) g) :
    Leads M g (generateNamedType M (fuel + 1) name g) fun g' => Declared M g'.known name := by
  induction fuel generalizing name g with
  | zero => omega
  | succ fuel ih =>
    by_cases hprocessed : name ∈ g.m_processedTypes
    · exact processed_leads hg (.inr (Nat.lt_succ_self _)) hprocessed
    obtain ⟨t, ht⟩ := hname
    obtain rfl : t.name = name := (MetaModel.typeForName_eq_some_iff.mp ht).2
    have hbuiltIn : t.name ∉ builtIn := fun h => hprocessed (hg.inv.builtIn _ h)
    have hgenerates : Generates M (Below rank (rank t.name)) (fuel + 1) (generateNamedType M (fuel + 1)) := by
      refine ⟨fun n hn hregistered g' hg' => ?_, fun t' ht' => exists_isStringType hM hfuel ht'⟩
      by_cases hn' : n ∈ builtIn
      · exact processed_leads hg' hn (hg'.inv.builtIn n hn')
      · have hrank : rank n < rank t.name := hn.resolve_left hn'
        refine ih hregistered (by omega) (hg'.mono fun m hm => hm.imp_right fun hm => ?_)
        omega
    have hsound : Sound M (Below rank (rank t.name)) (g.enter t.name) :=
      sound_enter hbuiltIn le_rfl (hg.mono fun m hm => hm.imp_right fun hm => by omega)
    rw [generateNamedType, if_neg (mt List.contains_iff_mem.mp hprocessed), ht]
    refine Leads.leave (generate_leads hM ht hbuiltIn hfuel hgenerates ?_ hsound List.mem_cons_self List.mem_cons_self)
    exact fun g' hg' => generateNamedType_of_processed hg'

theorem inv_start (hM : M.Layered rank) : Inv M {} where
  ordered := trivial
  builtIn n hn := hn
  declared n hn := by
    have hbuiltIn : n ∈ builtIn := hn
    have hknown : CppGenerator.known {} (upperCaseIdentifier n) := by
      refine .inl ?_
      have hall : ∀ n ∈ builtIn, upperCaseIdentifier n ∈ predefined := by decide +kernel
      exact hall n hbuiltIn
    refine .inr ⟨hknown, ?_, ?_⟩
    · intro x hx
      unfold referenceName at hx
      split at hx
      · next e he =>
        obtain rfl := (MetaModel.typeForName_eq_some_iff.mp he).2
        exact absurd hbuiltIn (hM.enumerations e he).1
      · obtain rfl := Option.some.inj hx
        exact hknown
      · cases hx
    · intro s hs
      obtain rfl := (MetaModel.typeForName_eq_some_iff.mp hs).2
      exact absurd hbuiltIn (hM.structures s hs).1

theorem generateNamedTypes_leads (hM : M.Layered rank) {names : List Bytes}
    (hnames : ∀ name ∈ names, (∃ t, M.typeForName name = some t) ∧ rank name + 1 < fuel) {g : CppGenerator}
    (hg : Inv M g) (hbeing : g.m_typesBeingProcessed = []) :
    Leads M g (names.foldlM (fun g name => generateNamedType M fuel name g) g) fun g' =>
      ∀ name ∈ names, Declared M g'.known name := by
  induction names generalizing g with
  | nil => exact .stay hg (List.forall_mem_nil _)
  | cons name names ih =>
    obtain ⟨⟨hname, hfuel⟩, hnames⟩ := List.forall_mem_cons.mp hnames
    obtain ⟨fuel, rfl⟩ : ∃ n, fuel = n + 1 := ⟨fuel - 1, by omega⟩
    have hsound : Sound M (Below rank (rank name + 1)) g := ⟨hg, by rw [hbeing]; exact List.forall_mem_nil _⟩
    rw [List.foldlM_cons]
    refine (generateNamedType_leads hM hname (by omega) hsound).bind hsound fun g' hg' hgrows hdeclared => ?_
    refine (ih hnames hg'.inv (hgrows.being.trans hbeing)).imp fun g'' hgrows' hall => ?_
    exact List.forall_mem_cons.mpr ⟨hdeclared.mono hgrows'.known, hall⟩

theorem generateTypes_leads (hM : M.Layered rank) (hfuel : ∀ name ∈ M.typeNames, rank name + 1 < fuel) :
    Leads M {} (generateTypes M fuel) fun g => ∀ name ∈ M.typeNames, Declared M g.known name :=
  generateNamedTypes_leads hM (fun name hname => ⟨MetaModel.mem_typeNames_iff.mp hname, hfuel name hname⟩)
    (inv_start hM) rfl

end Ranked

end Generator

/-- **The header is a list of definitions in order, and it declares every type.** -/
theorem declared_in_order (M : MetaModel) (rank : Bytes → Nat) (fuel : Nat) (hM : M.Layered rank)
    (hfuel : ∀ name ∈ M.typeNames, rank name + 1 < fuel) :
    ∃ g, generateTypes M fuel = some g ∧ Ordered cpp (· ∈ predefined) g.m_typesHeaderFileContent ∧
      ∀ name ∈ M.typeNames, ∀ x, x = upperCaseIdentifier name ∨ referenceName M name = some x →
        Known cpp (· ∈ predefined) g.m_typesHeaderFileContent x := by
  obtain ⟨g, hg, hinv, -, hdeclared⟩ := generateTypes_leads hM hfuel
  refine ⟨g, hg, hinv.ordered, ?_⟩
  rintro name hname x (rfl | hx)
  · exact (hdeclared name hname).identifier
  · exact (hdeclared name hname).reference x hx

/-! ### A tree -/

def symbolKind : Enumeration := { name := bytes "SymbolKind", type := .base .string, values := [] }

def named : Structure := { name := bytes "Named", properties := [⟨bytes "name", .base .string, false, []⟩] }

/-- A structure that refers to itself, with a base and a structure literal. -/
def symbol : Structure where
  name := bytes "Symbol"
  bases := [.reference (bytes "Named")]
  properties := [
    ⟨bytes "kind", .reference (bytes "SymbolKind"), false, []⟩,
    ⟨bytes "children", .array (.reference (bytes "Symbol")), false, []⟩,
    ⟨bytes "span", .structureLiteral [⟨bytes "line", .base .uinteger, false, []⟩], true, []⟩,
    ⟨bytes "parent", .reference (bytes "Symbol"), true, []⟩]

def symbols : TypeAlias where
  name := bytes "symbols"
  type := .or [.map (.base .uri) (.reference (bytes "Symbol")), .base .null]

def symbolModel : MetaModel where
  version := []
  types := [.typeAlias symbols, .structure symbol, .structure named, .enumeration symbolKind]
  nodup := by decide +kernel
  requestsByMethod := []
  notificationsByMethod := []

def symbolRank (name : Bytes) : Nat :=
  if name = bytes "symbols" then 2 else if name = bytes "Symbol" then 1 else 0

theorem symbolModel_below {name : Bytes} {k : Nat} (hname : name ∈ symbolModel.typeNames) (hk : symbolRank name < k) :
    MetaType.Layered symbolModel (Below symbolRank k) (.reference name) :=
  ⟨.inr hk, MetaModel.mem_typeNames_iff.mp hname⟩

theorem symbolModel_layered : symbolModel.Layered symbolRank where
  enumerations e he := by
    have hmem := (MetaModel.typeForName_eq_some_iff.mp he).1
    obtain rfl : e = symbolKind := by simpa [symbolModel] using hmem
    exact ⟨by decide +kernel, .string, rfl⟩
  structures s hs := by
    have hmem := (MetaModel.typeForName_eq_some_iff.mp hs).1
    obtain rfl | rfl : s = symbol ∨ s = named := by simpa [symbolModel] using hmem
    · refine ⟨by decide +kernel, ?_, ?_⟩
      · rintro ref href
        obtain rfl : ref = .reference (bytes "Named") := List.mem_singleton.mp href
        refine ⟨named, rfl, .inr (by decide +kernel), by decide +kernel, by decide +kernel, ?_⟩
        rintro c ⟨⟩
        decide +kernel
      · rintro p hp
        simp only [symbol, List.mem_cons, List.not_mem_nil, or_false] at hp
        obtain rfl | rfl | rfl | rfl := hp
        · exact ⟨by decide +kernel, .inl (symbolModel_below (by decide +kernel) (by decide +kernel))⟩
        · exact ⟨by decide +kernel, .inr (.inr rfl)⟩
        · exact ⟨by decide +kernel, .inl ⟨⟨by decide +kernel, trivial⟩, trivial⟩⟩
        · exact ⟨by decide +kernel, .inr (.inl ⟨rfl, rfl⟩)⟩
    · refine ⟨by decide +kernel, List.forall_mem_nil _, ?_⟩
      rintro p hp
      obtain rfl := List.mem_singleton.mp hp
      exact ⟨by decide +kernel, .inl trivial⟩
  aliases a ha := by
    have hmem := (MetaModel.typeForName_eq_some_iff.mp ha).1
    obtain rfl : a = symbols := by simpa [symbolModel] using hmem
    rw [if_neg (by decide +kernel)]
    exact ⟨List.cons_ne_nil _ _, ⟨trivial, symbolModel_below (by decide +kernel) (by decide +kernel)⟩, trivial, trivial⟩

theorem symbolModel_declared_in_order :
    ∃ g, generateTypes symbolModel 4 = some g ∧ Ordered cpp (· ∈ predefined) g.m_typesHeaderFileContent ∧
      ∀ name ∈ symbolModel.typeNames, ∀ x, x = upperCaseIdentifier name ∨ referenceName symbolModel name = some x →
        Known cpp (· ∈ predefined) g.m_typesHeaderFileContent x :=
  declared_in_order symbolModel symbolRank 4 symbolModel_layered (by decide +kernel)

end Lsp.Metamodel
