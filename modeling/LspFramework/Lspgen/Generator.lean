import LspFramework.Serialization.Serialization

/-!
# lspgen: the code generated for structures

`CppGenerator::generate` writes, for each structure of the meta model, the functions `ToJson` and
`FromJson` and the tables `requiredProperties` and `literalProperties` that the type test reads.  The
generated text is kept as its lines (`ToJsonLine`, `FromJsonLine`), and a literal by what it spells.

* `MetaModel`: the named types; of the type of a property, what the generator asks for.
* `generate`: the code for one structure, from its own properties, its mixins' and its direct bases'.
* `MetaModel.fromJson`: a run of a generated `FromJson` function.
-/

namespace Lsp.Lspgen

open Chars Lsp.Json

/-! ## The meta model -/

/-- The text of a literal in the generated code. -/
inductive Literal where
  | string (value : Bytes)
  | integer (value : Integer)
  | boolean (value : Bool)
  deriving DecidableEq, Repr

/-- The `json::Value` that an entry `{"name", literal}` of the table holds.  A string literal is a
`const char*`; of the constructors of `json::Value`, the one from `bool` takes it without a
user-defined conversion, so it is chosen. -/
def Literal.tableValue : Literal → Value
  | .string _ => .boolean true
  | .integer i => .integer i
  | .boolean b => .boolean b

/-- `Type`, by the category; all categories that are no literal are one. -/
inductive PropertyType where
  | structureLiteral
  | stringLiteral (stringValue : Bytes)
  | integerLiteral (integerValue : Integer)
  | booleanLiteral (booleanValue : Bool)
  | other
  deriving DecidableEq, Repr

def PropertyType.isLiteral : PropertyType → Bool
  | .other => false
  | _ => true

/-- `literalValue`; `none` where the string stays empty. -/
def PropertyType.literalValue : PropertyType → Option Literal
  | .stringLiteral s => some (.string s)
  | .integerLiteral i => some (.integer i)
  | .booleanLiteral b => some (.boolean b)
  | .structureLiteral => none
  | .other => none

structure StructureProperty where
  name : Bytes
  type : PropertyType
  isOptional : Bool := false
  deriving DecidableEq, Repr

/-- An entry of `extends` or `mixins`: a `ReferenceType`, or another type. -/
inductive TypeRef where
  | reference (name : Bytes)
  | other
  deriving DecidableEq, Repr

/-- `bases` is the member `extends`. -/
structure Structure where
  name : Bytes
  properties : List StructureProperty
  bases : List TypeRef := []
  mixins : List TypeRef := []
  deriving DecidableEq, Repr

/-- What `typeForName` finds: a structure, or an enumeration or a type alias. -/
inductive NamedType where
  | structure (s : Structure)
  | other

/-- The types are registered under their names. -/
structure MetaModel where
  typeForName : Bytes → Option NamedType
  name_eq : ∀ name s, typeForName name = some (.structure s) → s.name = name

/-- A meta model of structures only. -/
def MetaModel.ofStructures (structures : List Structure) : MetaModel where
  typeForName name := (structures.find? fun s => s.name = name).map .structure
  name_eq := by
    intro name s h
    obtain ⟨s', hs', heq⟩ := Option.map_eq_some_iff.mp h
    cases heq
    simpa using List.find?_some hs'

def MetaModel.structureForRef (M : MetaModel) : TypeRef → Option Structure
  | .reference name =>
    match M.typeForName name with
    | some (.structure s) => some s
    | _ => none
  | .other => none

/-- No structure is reached again through `extends` and `mixins`. -/
def MetaModel.Acyclic (M : MetaModel) : Prop :=
  ∃ rank : Bytes → Nat, ∀ name s, M.typeForName name = some (.structure s) →
    ∀ ref ∈ s.bases ++ s.mixins, ∀ b, M.structureForRef ref = some b → rank b.name < rank name

/-! ## The generated code -/

inductive ToJsonLine where
  /-- `baseToJson(value, json);` -/
  | base (name : Bytes)
  /-- `if(value.key)`, for the statement that follows. -/
  | ifValue (key : Bytes)
  /-- `json["key"] = toJson(value.key);` -/
  | assign (key : Bytes)
  deriving DecidableEq, Repr

inductive FromJsonLine where
  /-- `baseFromJson(json, value);` -/
  | base (name : Bytes)
  /-- `if(auto* const v = json.find("key")) fromJson(std::move(*v), value.key);` -/
  | ifFind (key : Bytes)
  /-- `fromJson(json.get("key"), value.key);` -/
  | get (key : Bytes)
  /-- `if(value.key != literal) return;` -/
  | returnUnless (key : Bytes) (literal : Literal)
  deriving DecidableEq, Repr

structure Generated where
  toJson : List ToJsonLine := []
  fromJson : List FromJsonLine := []
  requiredProperties : List Bytes := []
  literalProperties : List (Bytes × Literal) := []
  deriving DecidableEq, Repr

/-- How `generate` ends without code: a `value()`, an `as` or a `std::get` on something else, or a
message. -/
inductive GenerateError where
  | badAccess
  | message (what : Bytes)
  deriving DecidableEq, Repr

/-- One turn of the loop of `generateStructureProperties`. -/
def generateProperty (basePropertiesByName : List Bytes) (code : Generated) (p : StructureProperty) :
    Generated :=
  let literalValue := p.type.literalValue
  let isInheritedLiteral := p.type.isLiteral && basePropertiesByName.contains p.name
  let code :=
    if p.isOptional then
      { code with
        toJson := code.toJson ++ [.ifValue p.name]
        fromJson := code.fromJson ++ [.ifFind p.name] }
    else
      { code with
        fromJson := if isInheritedLiteral then code.fromJson else code.fromJson ++ [.get p.name]
        requiredProperties :=
          if literalValue.isNone then code.requiredProperties ++ [p.name] else code.requiredProperties }
  let code :=
    match literalValue with
    | some literal =>
      { code with
        literalProperties := code.literalProperties ++ [(p.name, literal)]
        fromJson := code.fromJson ++ [.returnUnless p.name literal] }
    | none => code
  if isInheritedLiteral then code else { code with toJson := code.toJson ++ [.assign p.name] }

def generateStructureProperties (properties : List StructureProperty) (basePropertiesByName : List Bytes)
    (code : Generated) : Generated :=
  properties.foldl (generateProperty basePropertiesByName) code

/-- The names of the properties that are not optional. -/
def requiredNames (properties : List StructureProperty) : List Bytes :=
  (properties.filter fun p => !p.isOptional).map (·.name)

/-- One entry of `extends`: the calls of the base's functions, and the base. -/
def generateBase (M : MetaModel) (code : Generated) (ref : TypeRef) :
    Except GenerateError (Generated × Structure) :=
  match M.structureForRef ref with
  | some base =>
    .ok ({ code with
      toJson := code.toJson ++ [.base base.name]
      fromJson := code.fromJson ++ [.base base.name]
      requiredProperties := code.requiredProperties ++ requiredNames base.properties }, base)
  | none => .error .badAccess

/-- The calls for all entries of `extends`, and `basePropertiesByName`: the names of the own
properties of the first base. -/
def generateBases (M : MetaModel) : List TypeRef → Except GenerateError (Generated × List Bytes)
  | [] => .ok ({}, [])
  | first :: rest => do
    let (code, base) ← generateBase M {} first
    let code ← rest.foldlM (fun code ref => (generateBase M code ref).map Prod.fst) code
    return (code, base.properties.map (·.name))

/-- One entry of `mixins`. -/
def generateMixin (M : MetaModel) (structureName : Bytes) (basePropertiesByName : List Bytes)
    (code : Generated) (ref : TypeRef) : Except GenerateError Generated :=
  match ref with
  | .other =>
    .error (.message (bytes "Mixin type for '" ++ structureName ++ bytes "' must be a type reference"))
  | .reference name =>
    match M.typeForName name with
    | none => .error .badAccess
    | some (.structure mixin) => .ok (generateStructureProperties mixin.properties basePropertiesByName code)
    | some .other =>
      .error (.message (bytes "Mixin type for '" ++ structureName ++ bytes "' must be a structure type"))

/-- `generate(const Structure&)`: the two functions and the two tables. -/
def generate (M : MetaModel) (s : Structure) : Except GenerateError Generated := do
  let (code, basePropertiesByName) ← generateBases M s.bases
  let code ← s.mixins.foldlM (generateMixin M s.name basePropertiesByName) code
  return generateStructureProperties s.properties basePropertiesByName code

/-- The code for the structure of the name, if there is any. -/
def MetaModel.generated (M : MetaModel) (name : Bytes) : Option Generated :=
  match M.typeForName name with
  | some (.structure s) => (generate M s).toOption
  | _ => none

/-- The test that the generated tables make: `canDeserializeTypeFromJson`. -/
def Generated.canDeserialize (code : Generated) (json : Object) : Bool :=
  canDeserializeObject (code.literalProperties.map fun p => (p.1, p.2.tableValue)) code.requiredProperties
    (.object json)

/-! ## A run of the generated code

The members of the C++ structure are decoded by functions that depend on their types, and compared with
literals; both are parameters. -/

/-- `V` is the structure that is decoded into.  `decode` gives it with the member of the key assigned,
and what is left of the value that was moved out of the object; `none` where `value()` is called on an
error. -/
structure MemberCode (V : Type) where
  decode : Bytes → Bytes → Value → V → Option (V × Value)
  differs : Bytes → Bytes → Literal → V → Bool

inductive Outcome (V : Type) where
  | returned (json : Object) (value : V)
  /-- The process is terminated by `get` for a key that is not there. -/
  | missingKey (key : Bytes)
  /-- The process is terminated by the decoder of a member. -/
  | terminated

section Run

variable {V : Type}

/-- `fromJson(std::move(v), value.key)` for the value of the key, and the lines behind it. -/
def decodeMember (members : MemberCode V) (name key : Bytes) (v : Value) (json : Object) (value : V)
    (rest : Object → V → Option (Outcome V)) : Option (Outcome V) :=
  match members.decode name key v value with
  | some (value, left) => rest (Object.assign key left json) value
  | none => some .terminated

/-- The lines of the `FromJson` function of the structure `name`; `call` runs the functions of bases. -/
def runLines (members : MemberCode V) (call : Bytes → Object → V → Option (Outcome V)) (name : Bytes) :
    List FromJsonLine → Object → V → Option (Outcome V)
  | [], json, value => some (.returned json value)
  | .base base :: lines, json, value =>
    (call base json value).bind fun
      | .returned json value => runLines members call name lines json value
      | outcome => some outcome
  | .ifFind key :: lines, json, value =>
    match Object.find key json with
    | some v => decodeMember members name key v json value (runLines members call name lines)
    | none => runLines members call name lines json value
  | .get key :: lines, json, value =>
    match Object.find key json with
    | some v => decodeMember members name key v json value (runLines members call name lines)
    | none => some (.missingKey key)
  | .returnUnless key literal :: lines, json, value =>
    if members.differs name key literal value then some (.returned json value)
    else runLines members call name lines json value

/-- The `FromJson` function of the structure `name`, with calls nested to a depth; `none` where the
depth is too small, or no code was generated. -/
def MetaModel.fromJson (M : MetaModel) (members : MemberCode V) :
    Nat → Bytes → Object → V → Option (Outcome V)
  | 0, _, _, _ => none
  | depth + 1, name, json, value =>
    match M.generated name with
    | some code => runLines members (M.fromJson members depth) name code.fromJson json value
    | none => none

end Run

end Lsp.Lspgen
