import LspFramework.Json.Value
import LspFramework.Lspgen.OrTypes

/-!
# lspgen: the meta model

The JSON of the meta model is read into types, which are registered under their names, and into the
messages, which name the types of their members.

* `MetaType.createFromJson`: `Type::createFromJson`, with the member `extract` of each kind of type.
* `MetaModel.extract`: all of `MetaModel::extract`, with the aliases for types written in messages.

`none` is a `value()` that is called on an error, which terminates the process, or fuel that is used up.
-/

namespace Lsp.Metamodel

open Chars Lsp.Json

/-! ## Types -/

/-- `BaseType::Kind` -/
inductive Kind where
  | boolean | string | integer | uinteger | decimal | uri | documentUri | regExp | null
  deriving DecidableEq, Repr

namespace Kind

def all : List Kind := [.boolean, .string, .integer, .uinteger, .decimal, .uri, .documentUri, .regExp, .null]

/-- `BaseTypeStrings` -/
def baseTypeString : Kind → Bytes
  | .boolean => bytes "boolean"
  | .string => bytes "string"
  | .integer => bytes "integer"
  | .uinteger => bytes "uinteger"
  | .decimal => bytes "decimal"
  | .uri => bytes "URI"
  | .documentUri => bytes "DocumentUri"
  | .regExp => bytes "RegExp"
  | .null => bytes "null"

def kindFromString (str : Bytes) : Option Kind := all.find? fun kind => kind.baseTypeString = str

end Kind

inductive Category where
  | base | reference | array | map | and | or | tuple | structureLiteral | stringLiteral | integerLiteral
  | booleanLiteral
  deriving DecidableEq, Repr

namespace Category

def all : List Category :=
  [.base, .reference, .array, .map, .and, .or, .tuple, .structureLiteral, .stringLiteral, .integerLiteral,
    .booleanLiteral]

/-- `TypeCategoryStrings` -/
def typeCategoryString : Category → Bytes
  | .base => bytes "base"
  | .reference => bytes "reference"
  | .array => bytes "array"
  | .map => bytes "map"
  | .and => bytes "and"
  | .or => bytes "or"
  | .tuple => bytes "tuple"
  | .structureLiteral => bytes "literal"
  | .stringLiteral => bytes "stringLiteral"
  | .integerLiteral => bytes "integerLiteral"
  | .booleanLiteral => bytes "booleanLiteral"

def categoryFromString (str : Bytes) : Option Category := all.find? fun category => category.typeCategoryString = str

end Category

/-- `Type` with the classes derived from it. -/
inductive MetaType where
  | base (kind : Kind)
  | reference (name : Bytes)
  | array (elementType : MetaType)
  | map (keyType valueType : MetaType)
  | and (typeList : List MetaType)
  | or (typeList : List MetaType)
  | tuple (typeList : List MetaType)
  | structureLiteral (properties : List (OrType.StructureProperty MetaType))
  | stringLiteral (stringValue : Bytes)
  | integerLiteral (integerValue : Integer)
  | booleanLiteral (booleanValue : Bool)

abbrev StructureProperty := OrType.StructureProperty MetaType

structure EnumerationValue where
  name : Bytes
  value : Value
  documentation : Bytes

structure Enumeration where
  name : Bytes
  type : MetaType
  values : List EnumerationValue
  documentation : Bytes := []
  supportsCustomValues : Bool := false

/-- `bases` is the member `extends`. -/
structure Structure where
  name : Bytes
  properties : List StructureProperty
  bases : List MetaType := []
  mixins : List MetaType := []
  documentation : Bytes := []

structure TypeAlias where
  name : Bytes
  type : MetaType
  documentation : Bytes := []

inductive NamedType where
  | enumeration (e : Enumeration)
  | structure (s : Structure)
  | typeAlias (a : TypeAlias)

def NamedType.name : NamedType → Bytes
  | .enumeration e => e.name
  | .structure s => s.name
  | .typeAlias a => a.name

/-! ## Reading types -/

section Members

variable (json : Object) (key : String)

def getString : Option Bytes := (Object.find (bytes key) json).bind Value.string?

def getObject : Option Object := (Object.find (bytes key) json).bind Value.object?

def getArray : Option Json.Array := (Object.find (bytes key) json).bind Value.array?

def getBoolean : Option Bool := (Object.find (bytes key) json).bind Value.boolean?

def contains : Bool := Object.contains (bytes key) json

end Members

def extractDocumentation (json : Object) : Option Bytes :=
  if contains json "documentation" then getString json "documentation" else some []

/-- `StructureProperty::extract` -/
def extractProperty (createFromJson : Object → Option MetaType) (json : Object) : Option StructureProperty := do
  let name ← getString json "name"
  let type ← createFromJson (← getObject json "type")
  let isOptional ← if contains json "optional" then getBoolean json "optional" else some false
  let documentation ← extractDocumentation json
  return ⟨name, type, isOptional, documentation⟩

/-- `extractStructureProperties`; non-optional properties come first. -/
def extractStructureProperties (createFromJson : Object → Option MetaType) (json : Json.Array) :
    Option (List StructureProperty) :=
  (json.mapM fun e : Value => e.object?.bind (extractProperty createFromJson)).map OrType.extractStructureProperties

def MetaType.literalProperties : MetaType → Option (List StructureProperty)
  | .structureLiteral properties => some properties
  | _ => none

/-- The member `typeList` of `OrType::extract`. -/
def orTypeList (fuel : Nat) (types : List MetaType) : Option (List MetaType) :=
  (Loop.run (Adjacent.turn OrType.merging) fuel
    (Adjacent.start (types.filterMap MetaType.literalProperties))).map fun structureLiterals =>
    types.filter (fun t => t.literalProperties.isNone) ++ structureLiterals.map .structureLiteral

/-- `Type::createFromJson`; that an `or` type is empty is not passed on. -/
def MetaType.createFromJson : Nat → Object → Option MetaType
  | 0, _ => none
  | fuel + 1, json => do
    let createList (items : Json.Array) := items.mapM fun i : Value => i.object?.bind (createFromJson fuel)
    match ← Category.categoryFromString (← getString json "kind") with
    | .base => return .base (← Kind.kindFromString (← getString json "name"))
    | .reference => return .reference (← getString json "name")
    | .array => return .array (← createFromJson fuel (← getObject json "element"))
    | .map =>
      let keyType ← createFromJson fuel (← getObject json "key")
      let valueType ← createFromJson fuel (← getObject json "value")
      return .map keyType valueType
    | .and => return .and (← createList (← getArray json "items"))
    | .or => return .or (← orTypeList fuel (← createList (← getArray json "items")))
    | .tuple => return .tuple (← createList (← getArray json "items"))
    | .structureLiteral =>
      let properties ← getArray (← getObject json "value") "properties"
      return .structureLiteral (← extractStructureProperties (createFromJson fuel) properties)
    | .stringLiteral => return .stringLiteral (← getString json "value")
    | .integerLiteral =>
      let number ← (Object.find (bytes "value") json).bind Value.number?
      return .integerLiteral number.toInt32
    | .booleanLiteral => return .booleanLiteral (← getBoolean json "value")

section Named

variable (fuel : Nat)

def EnumerationValue.extract (obj : Object) : Option EnumerationValue := do
  return ⟨← getString obj "name", ← Object.find (bytes "value") obj, ← extractDocumentation obj⟩

def Enumeration.extract (json : Object) : Option Enumeration := do
  let name ← getString json "name"
  let type ← MetaType.createFromJson fuel (← getObject json "type")
  let values ← (← getArray json "values").mapM fun v : Value => v.object?.bind EnumerationValue.extract
  let documentation ← extractDocumentation json
  let supportsCustomValues ←
    if contains json "supportsCustomValues" then getBoolean json "supportsCustomValues" else some false
  return ⟨name, type, values, documentation, supportsCustomValues⟩

/-- The entries of `extends` or `mixins`. -/
def extractTypes (json : Object) (key : String) : Option (List MetaType) :=
  if contains json key then
    (getArray json key).bind (List.mapM fun e : Value => e.object?.bind (MetaType.createFromJson fuel))
  else some []

def Structure.extract (json : Object) : Option Structure := do
  let name ← getString json "name"
  let properties ← extractStructureProperties (MetaType.createFromJson fuel) (← getArray json "properties")
  let bases ← extractTypes fuel json "extends"
  let mixins ← extractTypes fuel json "mixins"
  return ⟨name, properties, bases, mixins, ← extractDocumentation json⟩

def TypeAlias.extract (json : Object) : Option TypeAlias := do
  let name ← getString json "name"
  let type ← MetaType.createFromJson fuel (← getObject json "type")
  return ⟨name, type, ← extractDocumentation json⟩

end Named

/-! ## Messages -/

def capitalizeString : Bytes → Bytes
  | [] => []
  | c :: str => toupper c :: str

inductive Direction where
  | clientToServer | serverToClient | both
  deriving DecidableEq, Repr

/-- A type name is empty where the message has no such member.  The defaults are those of a message that
`operator[]` of `std::map` makes: every member is zero or empty. -/
structure Message where
  documentation : Bytes := []
  direction : Direction := .clientToServer
  paramsTypeName : Bytes := []
  resultTypeName : Bytes := []
  partialResultTypeName : Bytes := []
  errorDataTypeName : Bytes := []
  registrationOptionsTypeName : Bytes := []

/-- The name of the type of a member: of a reference its name, of another type the name of its alias. -/
def memberTypeName (json : Object) (key : String) : Option Bytes :=
  if contains json key then do
    let type ← getObject json key
    if (← getString type "kind") = bytes "reference" then getString type "name"
    else return (← getString json "method") ++ capitalizeString (bytes key)
  else some []

def Direction.ofString (dir : Bytes) : Option Direction :=
  if dir = bytes "clientToServer" then some .clientToServer
  else if dir = bytes "serverToClient" then some .serverToClient
  else if dir = bytes "both" then some .both
  else none

/-- A message of an invalid direction keeps its defaults, but for the documentation. -/
def Message.extract (json : Object) : Option Message := do
  let documentation ← extractDocumentation json
  let dir ← getString json "messageDirection"
  let some direction := Direction.ofString dir | return { documentation }
  return {
    documentation
    direction
    paramsTypeName := ← memberTypeName json "params"
    resultTypeName := ← memberTypeName json "result"
    partialResultTypeName := ← memberTypeName json "partialResult"
    errorDataTypeName := ← memberTypeName json "errorData"
    registrationOptionsTypeName := ← memberTypeName json "registrationOptions" }

/-- The order of `std::map<std::string, Message>`. -/
def methodLess (a b : Bytes × Message) : Bool := a.1 < b.1

/-- `m_requestsByMethod` or `m_notificationsByMethod`: the messages up to the first one whose method was
there before, whose error is not passed on. -/
def extractMessages : Json.Array → List (Bytes × Message) → Option (List (Bytes × Message))
  | [], messages => some messages
  | r :: rs, messages => do
    let obj ← r.object?
    let method ← getString obj "method"
    if method ∈ messages.map Prod.fst then return messages
    let message ← Message.extract obj
    extractMessages rs (messages.orderedInsert (fun a b => methodLess a b = true) (method, message))

/-! ## The meta model -/

/-- `m_typesByName` and `m_typeNames`: the types in the order they were registered in, under names of
their own. -/
structure MetaModel where
  version : Bytes
  types : List NamedType
  nodup : (types.map NamedType.name).Nodup
  requestsByMethod : List (Bytes × Message)
  notificationsByMethod : List (Bytes × Message)

/-- `insertType`; a name that is there already keeps its type. -/
def insertType (type : NamedType) (types : List NamedType) : List NamedType :=
  if type.name ∈ types.map NamedType.name then types else types ++ [type]

theorem nodup_insertType {types : List NamedType} (h : (types.map NamedType.name).Nodup) (type : NamedType) :
    ((insertType type types).map NamedType.name).Nodup := by
  unfold insertType
  split
  · exact h
  · next hnew =>
    rw [List.map_append, List.map_singleton]
    exact List.nodup_append.mpr ⟨h, List.nodup_singleton _, by
      rintro a ha b hb rfl
      rw [List.mem_singleton.mp hb] at ha
      exact hnew ha⟩

/-- The alias for a type that is written in a message. -/
def typeAliasFor (fuel : Nat) (json : Object) (key : String) (typeBaseName : Bytes) : Option (List NamedType) :=
  if contains json key then do
    let typeJson ← getObject json key
    if (← getString typeJson "kind") = bytes "reference" then return []
    let type ← MetaType.createFromJson fuel typeJson
    let documentation ← extractDocumentation typeJson
    return [.typeAlias ⟨typeBaseName ++ capitalizeString (bytes key), type, documentation⟩]
  else some []

/-- The aliases for one message, made by `addTypeAlias` for each of the keys. -/
def typeAliasesFor (fuel : Nat) (keys : List String) (message : Value) : Option (List NamedType) := do
  let obj ← message.object?
  let typeBaseName ← getString obj "method"
  let aliases ← keys.mapM fun key => typeAliasFor fuel obj key typeBaseName
  return aliases.flatten

def requestKeys : List String := ["result", "params", "partialResult", "errorData", "registrationOptions"]

def notificationKeys : List String := ["params", "registrationOptions"]

/-- All types that are registered, in order: enumerations, structures, type aliases, and the aliases for
the types written in requests and notifications. -/
def extractNamedTypes (fuel : Nat) (json : Object) : Option (List NamedType) := do
  let enumerations ← (← getArray json "enumerations").mapM fun v : Value => v.object?.bind (Enumeration.extract fuel)
  let structures ← (← getArray json "structures").mapM fun v : Value => v.object?.bind (Structure.extract fuel)
  let typeAliases ← (← getArray json "typeAliases").mapM fun v : Value => v.object?.bind (TypeAlias.extract fuel)
  let requests ← (← getArray json "requests").mapM (typeAliasesFor fuel requestKeys)
  let notifications ← (← getArray json "notifications").mapM (typeAliasesFor fuel notificationKeys)
  return enumerations.map .enumeration ++ structures.map .structure ++ typeAliases.map .typeAlias ++
    requests.flatten ++ notifications.flatten

def MetaModel.extract (fuel : Nat) (json : Object) : Option MetaModel := do
  let version ← getString (← getObject json "metaData") "version"
  let types ← extractNamedTypes fuel json
  let requestsByMethod ← extractMessages (← getArray json "requests") []
  let notificationsByMethod ← extractMessages (← getArray json "notifications") []
  return {
    version
    types := types.foldl (fun types type => insertType type types) []
    nodup := by
      generalize hempty : ([] : List NamedType) = start
      have hstart : (start.map NamedType.name).Nodup := by
        rw [← hempty]
        exact List.nodup_nil
      clear hempty
      induction types generalizing start with
      | nil => exact hstart
      | cons type types ih => exact ih _ (nodup_insertType hstart type)
    requestsByMethod
    notificationsByMethod }

namespace MetaModel

/-- `m_typeNames` -/
def typeNames (M : MetaModel) : List Bytes := M.types.map NamedType.name

def typeForName (M : MetaModel) (name : Bytes) : Option NamedType := M.types.find? fun t => t.name = name

theorem typeForName_eq_some_iff {M : MetaModel} {name : Bytes} {t : NamedType} :
    M.typeForName name = some t ↔ t ∈ M.types ∧ t.name = name := by
  unfold typeForName
  constructor
  · intro h
    exact ⟨List.mem_of_find?_eq_some h, by simpa using List.find?_some h⟩
  · rintro ⟨hmem, rfl⟩
    cases hfind : M.types.find? fun t' => t'.name = t.name with
    | none =>
      have := List.find?_eq_none.mp hfind t hmem
      simp at this
    | some t' =>
      have hname : t'.name = t.name := by simpa using List.find?_some hfind
      have hmem' := List.mem_of_find?_eq_some hfind
      exact congrArg some (List.inj_on_of_nodup_map M.nodup hmem' hmem hname)

theorem mem_typeNames_iff {M : MetaModel} {name : Bytes} : name ∈ M.typeNames ↔ ∃ t, M.typeForName name = some t := by
  simp [typeNames, typeForName_eq_some_iff]

end MetaModel

end Lsp.Metamodel
