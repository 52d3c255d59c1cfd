import LspFramework.Lspgen.Outline

/-!
# lspgen: the messages

`generateMessages` writes `messages.h`, which includes `types.h`: a struct for each message, with aliases
for the types of its members.  A type that is written out in a message gets an alias in `types.h`, whose
name `addTypeAlias` and `Message::memberTypeName` make up apart from each other.

Main result: `messages_declared` (the types that `messages.h` names are declared in `types.h`).
-/

namespace Lsp.Metamodel

open Chars Definitions Lsp.Json

/-! ## The declarations -/

/-- The names of the types of the members, in the order they are written in. -/
def Message.members (message : Message) : List (Bytes × Bytes) :=
  [(bytes "RegistrationOptions", message.registrationOptionsTypeName),
    (bytes "PartialResult", message.partialResultTypeName),
    (bytes "ErrorData", message.errorDataTypeName),
    (bytes "Params", message.paramsTypeName),
    (bytes "Result", message.resultTypeName)]

structure MessageDeclaration where
  cppName : Bytes
  method : Bytes
  direction : Direction
  isNotification : Bool
  /-- `using name = type` -/
  usings : List (Bytes × Bytes)

def generateMessage (isNotification : Bool) (method : Bytes) (message : Message) : MessageDeclaration where
  cppName := upperCaseIdentifier method
  method := method
  direction := message.direction
  isNotification := isNotification
  usings := (message.members.filter fun m => m.2 ≠ []).map fun m => (m.1, upperCaseIdentifier m.2)

def generateMessages (M : MetaModel) : List MessageDeclaration :=
  M.requestsByMethod.map (fun m => generateMessage false m.1 m.2) ++
    M.notificationsByMethod.map fun m => generateMessage true m.1 m.2

/-! ## The names of members -/

/-- A member of the message that is a reference refers to a registered type, and another one is under one
of the keys that an alias is made for. -/
def MemberNamed (M : MetaModel) (keys : List String) (message : Value) (key : String) : Prop :=
  ∀ obj ∈ message.object?, ∀ type ∈ getObject obj key, ∀ kind ∈ getString type "kind",
    if kind = bytes "reference" then ∀ name ∈ getString type "name", name ∈ M.typeNames
    else key ∈ keys

instance (M : MetaModel) (keys : List String) (message : Value) (key : String) :
    Decidable (MemberNamed M keys message key) :=
  inferInstanceAs (Decidable (∀ obj ∈ message.object?, ∀ type ∈ getObject obj key, ∀ kind ∈ getString type "kind",
    if kind = bytes "reference" then ∀ name ∈ getString type "name", name ∈ M.typeNames else key ∈ keys))

/-- `requestKeys` are all the members there are. -/
structure Resolved (M : MetaModel) (json : Object) : Prop where
  requests : ∀ rs ∈ getArray json "requests", ∀ r ∈ rs, ∀ key ∈ requestKeys, MemberNamed M requestKeys r key
  notifications : ∀ ns ∈ getArray json "notifications", ∀ n ∈ ns, ∀ key ∈ requestKeys,
    MemberNamed M notificationKeys n key

theorem mem_extractMessages {rs : Json.Array} {messages out : List (Bytes × Message)}
    (h : extractMessages rs messages = some out) {m : Bytes × Message} (hm : m ∈ out) :
    m ∈ messages ∨ ∃ r ∈ rs, ∃ obj, r.object? = some obj ∧ Message.extract obj = some m.2 := by
  induction rs generalizing messages with
  | nil =>
    cases h
    exact .inl hm
  | cons r rs ih =>
    obtain ⟨obj, hobj, h⟩ := Option.bind_eq_some_iff.mp h
    obtain ⟨method, -, h⟩ := Option.bind_eq_some_iff.mp h
    split at h
    · cases h
      exact .inl hm
    · obtain ⟨message, hmessage, h⟩ := Option.bind_eq_some_iff.mp h
      rcases ih h with hm | ⟨r', hr', hfound⟩
      · rcases (List.mem_orderedInsert _).mp hm with rfl | hm
        · exact .inr ⟨r, List.mem_cons_self, obj, hobj, hmessage⟩
        · exact .inl hm
      · exact .inr ⟨r', List.mem_cons_of_mem _ hr', hfound⟩

/-- A name in a message is the name of one of its members. -/
theorem memberTypeName_of_members {obj : Object} {message : Message} (h : Message.extract obj = some message)
    {m : Bytes × Bytes} (hm : m ∈ message.members) (hne : m.2 ≠ []) :
    ∃ key ∈ requestKeys, memberTypeName obj key = some m.2 := by
  unfold Message.extract at h
  obtain ⟨documentation, -, h⟩ := Option.bind_eq_some_iff.mp h
  obtain ⟨dir, -, h⟩ := Option.bind_eq_some_iff.mp h
  cases hdirection : Direction.ofString dir with
  | none =>
    rw [hdirection] at h
    cases h
    simp only [Message.members, List.mem_cons, List.not_mem_nil, or_false] at hm
    obtain rfl | rfl | rfl | rfl | rfl := hm <;> exact absurd rfl hne
  | some direction =>
    rw [hdirection] at h
    obtain ⟨params, hparams, h⟩ := Option.bind_eq_some_iff.mp h
    obtain ⟨result, hresult, h⟩ := Option.bind_eq_some_iff.mp h
    obtain ⟨partialResult, hpartial, h⟩ := Option.bind_eq_some_iff.mp h
    obtain ⟨errorData, herror, h⟩ := Option.bind_eq_some_iff.mp h
    obtain ⟨options, hoptions, h⟩ := Option.bind_eq_some_iff.mp h
    cases h
    simp only [Message.members, List.mem_cons, List.not_mem_nil, or_false] at hm
    obtain rfl | rfl | rfl | rfl | rfl := hm
    · exact ⟨"registrationOptions", by decide, hoptions⟩
    · exact ⟨"partialResult", by decide, hpartial⟩
    · exact ⟨"errorData", by decide, herror⟩
    · exact ⟨"params", by decide, hparams⟩
    · exact ⟨"result", by decide, hresult⟩

theorem memberTypeName_eq_some {obj : Object} {key : String} {name : Bytes} (h : memberTypeName obj key = some name)
    (hne : name ≠ []) :
    ∃ type kind, contains obj key = true ∧ getObject obj key = some type ∧ getString type "kind" = some kind ∧
      if kind = bytes "reference" then getString type "name" = some name
      else ∃ method, getString obj "method" = some method ∧ name = method ++ capitalizeString (bytes key) := by
  unfold memberTypeName at h
  split at h
  · next hcontains =>
    obtain ⟨type, htype, h⟩ := Option.bind_eq_some_iff.mp h
    obtain ⟨kind, hkind, h⟩ := Option.bind_eq_some_iff.mp h
    refine ⟨type, kind, hcontains, htype, hkind, ?_⟩
    split at h
    · next href => rwa [if_pos href]
    · next href =>
      obtain ⟨method, hmethod, h⟩ := Option.bind_eq_some_iff.mp h
      rw [if_neg href]
      exact ⟨method, hmethod, (Option.some.inj h).symm⟩
  · cases h
    exact absurd rfl hne

/-! ## The aliases -/

theorem mem_typeAliasesFor {fuel : Nat} {keys : List String} {message : Value} {aliases : List NamedType}
    (h : typeAliasesFor fuel keys message = some aliases) {key : String} (hkey : key ∈ keys) {obj type : Object}
    {kind method : Bytes} (hobj : message.object? = some obj) (hcontains : contains obj key = true)
    (htype : getObject obj key = some type) (hkind : getString type "kind" = some kind)
    (href : kind ≠ bytes "reference") (hmethod : getString obj "method" = some method) :
    ∃ a ∈ aliases, a.name = method ++ capitalizeString (bytes key) := by
  unfold typeAliasesFor at h
  obtain ⟨obj', hobj', h⟩ := Option.bind_eq_some_iff.mp h
  obtain rfl : obj' = obj := Option.some.inj (hobj'.symm.trans hobj)
  obtain ⟨base, hbase, h⟩ := Option.bind_eq_some_iff.mp h
  obtain rfl : base = method := Option.some.inj (hbase.symm.trans hmethod)
  obtain ⟨all, hall, h⟩ := Option.bind_eq_some_iff.mp h
  cases h
  obtain ⟨found, hfound, hone⟩ := Fallible.mem_mapM hall hkey
  unfold typeAliasFor at hone
  rw [if_pos hcontains] at hone
  obtain ⟨type', htype', hone⟩ := Option.bind_eq_some_iff.mp hone
  obtain rfl : type' = type := Option.some.inj (htype'.symm.trans htype)
  obtain ⟨kind', hkind', hone⟩ := Option.bind_eq_some_iff.mp hone
  obtain rfl : kind' = kind := Option.some.inj (hkind'.symm.trans hkind)
  rw [if_neg href] at hone
  obtain ⟨metaType, -, hone⟩ := Option.bind_eq_some_iff.mp hone
  obtain ⟨documentation, -, hone⟩ := Option.bind_eq_some_iff.mp hone
  cases hone
  exact ⟨_, List.mem_flatten.mpr ⟨_, hfound, List.mem_cons_self⟩, rfl⟩

theorem mem_insertType (type : NamedType) (types : List NamedType) {name : Bytes}
    (h : name = type.name ∨ name ∈ types.map NamedType.name) :
    name ∈ (insertType type types).map NamedType.name := by
  unfold insertType
  split
  · next hmem =>
    rcases h with rfl | h
    · exact hmem
    · exact h
  · rw [List.map_append, List.mem_append]
    exact h.symm.imp_right fun h => List.mem_singleton.mpr h

theorem mem_insertTypes {types start : List NamedType} {name : Bytes}
    (h : name ∈ start.map NamedType.name ∨ name ∈ types.map NamedType.name) :
    name ∈ (types.foldl (fun types type => insertType type types) start).map NamedType.name := by
  induction types generalizing start with
  | nil => exact h.resolve_right List.not_mem_nil
  | cons type types ih =>
    rw [List.foldl_cons]
    rw [List.map_cons, List.mem_cons] at h
    rcases h with h | h | h
    · exact ih (.inl (mem_insertType type start (.inr h)))
    · exact ih (.inl (mem_insertType type start (.inl h)))
    · exact ih (.inr h)

section Extracted

variable {fuel : Nat} {json : Object} {M : MetaModel}

/-- What the meta model keeps of the messages, and the aliases for them. -/
theorem extract_eq_some (h : MetaModel.extract fuel json = some M) :
    ∃ requests notifications aliases aliases', getArray json "requests" = some requests ∧
      getArray json "notifications" = some notifications ∧
      extractMessages requests [] = some M.requestsByMethod ∧
      extractMessages notifications [] = some M.notificationsByMethod ∧
      requests.mapM (typeAliasesFor fuel requestKeys) = some aliases ∧
      notifications.mapM (typeAliasesFor fuel notificationKeys) = some aliases' ∧
      ∀ a ∈ aliases.flatten ++ aliases'.flatten, a.name ∈ M.typeNames := by
  obtain ⟨metaData, -, h⟩ := Option.bind_eq_some_iff.mp h
  obtain ⟨version, -, h⟩ := Option.bind_eq_some_iff.mp h
  obtain ⟨types, htypes, h⟩ := Option.bind_eq_some_iff.mp h
  obtain ⟨requests, hrequests, h⟩ := Option.bind_eq_some_iff.mp h
  obtain ⟨requestsByMethod, hrequestsByMethod, h⟩ := Option.bind_eq_some_iff.mp h
  obtain ⟨notifications, hnotifications, h⟩ := Option.bind_eq_some_iff.mp h
  obtain ⟨notificationsByMethod, hnotificationsByMethod, h⟩ := Option.bind_eq_some_iff.mp h
  cases h
  unfold extractNamedTypes at htypes
  obtain ⟨_, -, htypes⟩ := Option.bind_eq_some_iff.mp htypes
  obtain ⟨enumerations, -, htypes⟩ := Option.bind_eq_some_iff.mp htypes
  obtain ⟨_, -, htypes⟩ := Option.bind_eq_some_iff.mp htypes
  obtain ⟨structures, -, htypes⟩ := Option.bind_eq_some_iff.mp htypes
  obtain ⟨_, -, htypes⟩ := Option.bind_eq_some_iff.mp htypes
  obtain ⟨typeAliases, -, htypes⟩ := Option.bind_eq_some_iff.mp htypes
  obtain ⟨requests', hrequests', htypes⟩ := Option.bind_eq_some_iff.mp htypes
  obtain rfl := Option.some.inj (hrequests'.symm.trans hrequests)
  obtain ⟨aliases, haliases, htypes⟩ := Option.bind_eq_some_iff.mp htypes
  obtain ⟨notifications', hnotifications', htypes⟩ := Option.bind_eq_some_iff.mp htypes
  obtain rfl := Option.some.inj (hnotifications'.symm.trans hnotifications)
  obtain ⟨aliases', haliases', htypes⟩ := Option.bind_eq_some_iff.mp htypes
  cases htypes
  refine ⟨_, _, aliases, aliases', hrequests, hnotifications, hrequestsByMethod, hnotificationsByMethod, haliases,
    haliases', fun a ha => mem_insertTypes (.inr (List.mem_map_of_mem ?_))⟩
  rw [List.append_assoc]
  exact List.mem_append_right _ ha

/-- The messages that the aliases are made for name registered types only. -/
theorem members_registered {rs : Json.Array} {keys : List String} {messages : List (Bytes × Message)}
    {aliases : List (List NamedType)} (hmessages : extractMessages rs [] = some messages)
    (haliases : rs.mapM (typeAliasesFor fuel keys) = some aliases)
    (hregistered : ∀ a ∈ aliases.flatten, a.name ∈ M.typeNames)
    (hnamed : ∀ r ∈ rs, ∀ key ∈ requestKeys, MemberNamed M keys r key) {p : Bytes × Message} (hp : p ∈ messages)
    {m : Bytes × Bytes} (hm : m ∈ p.2.members) (hne : m.2 ≠ []) : m.2 ∈ M.typeNames := by
  obtain ⟨r, hr, obj, hobj, hextract⟩ := (mem_extractMessages hmessages hp).resolve_left List.not_mem_nil
  obtain ⟨key, hkey, hname⟩ := memberTypeName_of_members hextract hm hne
  obtain ⟨type, kind, hcontains, htype, hkind, hcases⟩ := memberTypeName_eq_some hname hne
  have hnamed := hnamed r hr key hkey obj hobj type htype kind hkind
  split at hcases
  · next href =>
    rw [if_pos href] at hnamed
    exact hnamed m.2 hcases
  · next href =>
    rw [if_neg href] at hnamed
    obtain ⟨method, hmethod, hname⟩ := hcases
    obtain ⟨found, hfound, hone⟩ := Fallible.mem_mapM haliases hr
    obtain ⟨a, ha, haname⟩ := mem_typeAliasesFor hone hnamed hobj hcontains htype hkind href hmethod
    rw [hname, ← haname]
    exact hregistered a (List.mem_flatten.mpr ⟨found, hfound, ha⟩)

end Extracted

/-! ## The header that they include -/

/-- Every type is declared under its own name, unless it is an enumeration over a type that is no base type. -/
theorem declares_own (M : MetaModel) {t : NamedType}
    (henum : ∀ e, t = .enumeration e → ∃ kind, e.type = .base kind) :
    ∃ o ∈ t.outlines M, upperCaseIdentifier t.name ∈ o.declares := by
  cases t with
  | enumeration e =>
    obtain ⟨kind, hkind⟩ := henum e rfl
    refine ⟨.enumeration (upperCaseIdentifier e.name), ?_, List.mem_cons_self⟩
    simp only [NamedType.outlines, hkind]
    exact List.mem_singleton_self _
  | «structure» s => exact ⟨s.outline M, List.mem_append_right _ (List.mem_singleton_self _), List.mem_cons_self⟩
  | typeAlias a =>
    exact ⟨.typeAlias (upperCaseIdentifier a.name), List.mem_append_right _ (List.mem_singleton_self _),
      List.mem_cons_self⟩

/-- Whatever reaches what, the header declares every type. -/
theorem known_of_generateTypes {M : MetaModel} {fuel : Nat} {g : CppGenerator}
    (hg : generateTypes M fuel = some g) (henum : ∀ e, .enumeration e ∈ M.types → ∃ kind, e.type = .base kind)
    {name : Bytes} (hname : name ∈ M.typeNames) : g.known (upperCaseIdentifier name) := by
  obtain ⟨t, ht, rfl⟩ := List.mem_map.mp hname
  by_cases hbuiltIn : t.name ∈ builtIn
  · have hall : ∀ n ∈ builtIn, upperCaseIdentifier n ∈ predefined := by decide +kernel
    exact .inl (hall _ hbuiltIn)
  · obtain ⟨o, ho, hdeclares⟩ := declares_own M (t := t) fun e he => henum e (he ▸ ht)
    have hmem : o ∈ M.outlines :=
      List.mem_flatMap.mpr ⟨t, List.mem_filter.mpr ⟨ht, by simpa using hbuiltIn⟩, ho⟩
    obtain ⟨d, hd, rfl⟩ := List.mem_map.mp ((generateTypes_outlines hg).mem_iff.mpr hmem)
    rw [declares_outline] at hdeclares
    exact .inr ⟨d, hd, hdeclares⟩

/-- **The types that `messages.h` names are declared in `types.h`.** -/
theorem messages_declared (fuel fuel' : Nat) (json : Object) (M : MetaModel) (g : CppGenerator)
    (hextract : MetaModel.extract fuel json = some M) (hresolved : Resolved M json)
    (henum : ∀ e, .enumeration e ∈ M.types → ∃ kind, e.type = .base kind)
    (hg : generateTypes M fuel' = some g) :
    ∀ d ∈ generateMessages M, ∀ u ∈ d.usings, Known cpp (· ∈ predefined) g.m_typesHeaderFileContent u.2 := by
  intro d hd u hu
  obtain ⟨requests, notifications, aliases, aliases', hrequests, hnotifications, hrequestsByMethod,
    hnotificationsByMethod, haliases, haliases', hregistered⟩ := extract_eq_some hextract
  have husings : ∀ message : Message, (∀ m ∈ message.members, m.2 ≠ [] → m.2 ∈ M.typeNames) →
      u ∈ (message.members.filter fun m => m.2 ≠ []).map (fun m => (m.1, upperCaseIdentifier m.2)) → g.known u.2 := by
    intro message hmessage hu
    obtain ⟨m, hm, rfl⟩ := List.mem_map.mp hu
    obtain ⟨hm, hne⟩ := List.mem_filter.mp hm
    exact known_of_generateTypes hg henum (hmessage m hm (of_decide_eq_true hne))
  rcases List.mem_append.mp hd with hd | hd
  · obtain ⟨p, hp, rfl⟩ := List.mem_map.mp hd
    refine husings p.2 (fun m => members_registered hrequestsByMethod haliases ?_ (hresolved.requests _ hrequests) hp) hu
    exact fun a ha => hregistered a (List.mem_append_left _ ha)
  · obtain ⟨p, hp, rfl⟩ := List.mem_map.mp hd
    refine husings p.2 (fun m => members_registered hnotificationsByMethod haliases' ?_
      (hresolved.notifications _ hnotifications) hp) hu
    exact fun a ha => hregistered a (List.mem_append_right _ ha)

/-! ### Hovering -/

def stringMember (key value : String) : Bytes × Value := (bytes key, .string (bytes value))

def hoverRequest : Value := .object [
  stringMember "method" "textDocument/hover", stringMember "messageDirection" "clientToServer",
  (bytes "params", .object [stringMember "kind" "reference", stringMember "name" "Hover"]),
  (bytes "result", .object [stringMember "kind" "array",
    (bytes "element", .object [stringMember "kind" "reference", stringMember "name" "Hover"])])]

def hoverNotification : Value := .object [
  stringMember "method" "$/hover", stringMember "messageDirection" "both",
  (bytes "params", .object [stringMember "kind" "base", stringMember "name" "null"])]

/-- An optional reference to the structure `type`. -/
def optionalReference (name type : String) : Value := .object [
  stringMember "name" name, (bytes "optional", .boolean true),
  (bytes "type", .object [stringMember "kind" "reference", stringMember "name" type])]

def hoverStructure (name : String) (properties : List Value) : Value :=
  .object [stringMember "name" name, (bytes "properties", .array properties)]

/-- Two structures that refer to each other, and two messages with types of their own. -/
def hoverJson : Object := [
  (bytes "metaData", .object [stringMember "version" "3.17.0"]),
  (bytes "requests", .array [hoverRequest]),
  (bytes "notifications", .array [hoverNotification]),
  (bytes "structures", .array [
    hoverStructure "Hover" [optionalReference "range" "Range"],
    hoverStructure "Range" [optionalReference "hover" "Hover"]]),
  (bytes "enumerations", .array []),
  (bytes "typeAliases", .array [])]

def hoverResult : TypeAlias where
  name := bytes "textDocument/hoverResult"
  type := .array (.reference (bytes "Hover"))

def hoverParams : TypeAlias := { name := bytes "$/hoverParams", type := .base .null }

def hover : Structure where
  name := bytes "Hover"
  properties := [⟨bytes "range", .reference (bytes "Range"), true, []⟩]

def range : Structure where
  name := bytes "Range"
  properties := [⟨bytes "hover", .reference (bytes "Hover"), true, []⟩]

def hoverModel : MetaModel where
  version := bytes "3.17.0"
  types := [.structure hover, .structure range, .typeAlias hoverResult, .typeAlias hoverParams]
  nodup := by decide +kernel
  requestsByMethod := [(bytes "textDocument/hover", {
    direction := .clientToServer
    paramsTypeName := bytes "Hover"
    resultTypeName := bytes "textDocument/hoverResult" })]
  notificationsByMethod := [(bytes "$/hover", {
    direction := .both
    paramsTypeName := bytes "$/hoverParams" })]

theorem hoverModel_extract : MetaModel.extract 3 hoverJson = some hoverModel := rfl

theorem hoverModel_resolved : Resolved hoverModel hoverJson := ⟨by decide +kernel, by decide +kernel⟩

theorem hoverModel_enumerations : ∀ e, .enumeration e ∈ hoverModel.types → ∃ kind, e.type = .base kind := by
  intro e he
  simp [hoverModel] at he

theorem hoverModel_messages_declared :
    ∃ g, generateTypes hoverModel 3 = some g ∧
      ∀ d ∈ generateMessages hoverModel, ∀ u ∈ d.usings, Known cpp (· ∈ predefined) g.m_typesHeaderFileContent u.2 := by
  obtain ⟨g, hg⟩ : ∃ g, generateTypes hoverModel 3 = some g := Option.isSome_iff_exists.mp (by decide +kernel)
  exact ⟨g, hg, messages_declared 3 3 hoverJson hoverModel g hoverModel_extract hoverModel_resolved
    hoverModel_enumerations hg⟩

end Lsp.Metamodel
