import Mathlib.Logic.Function.Basic
import LspFramework.Lspgen.Coverage
import LspFramework.Serialization.Structures

/-!
# What the generated functions do to a structure

A C++ structure has a field for each of its members and those of its bases.  `ToJson` writes the fields to
an object and `FromJson` reads them, each by calling the functions of the bases and going through the lines
for the structure's own properties and its mixins'; `FromJson` returns where a member is not its literal.

* `MemberTypes.Fields`: the fields of a structure; a field that is not optional has a value.
* `MetaModel.toJson`: a run of a generated `ToJson` function.
* `MemberTypes.code`: the members of a run of `FromJson`, decoded as their types are.

Main result: `generated_roundTrips` (a structure survives its generated functions when its members do).
-/

namespace Lsp.Lspgen

open Chars Lsp.Json Lsp.Json.Value

/-! ## Fields -/

/-- The type of a member of a literal type. -/
def Literal.type : Literal → Ty
  | .string _ => .string
  | .integer _ => .integral .int
  | .boolean _ => .bool

/-- The literal as it is compared. -/
def Literal.value : Literal → Value
  | .string s => .string s
  | .integer i => .integer i
  | .boolean b => .boolean b

structure MemberTypes where
  type : Bytes → Ty
  isOptional : Bytes → Bool

namespace MemberTypes

variable (T : MemberTypes)

/-- The field of a member. -/
structure Field (key : Bytes) where
  value : Option (T.type key).Val
  isSome : T.isOptional key = false → value.isSome = true

abbrev Fields : Type := (key : Bytes) → T.Field key

def Field.of {T : MemberTypes} {key : Bytes} (v : (T.type key).Val) : T.Field key := ⟨some v, fun _ => rfl⟩

def Field.empty {T : MemberTypes} {key : Bytes} (h : T.isOptional key = true) : T.Field key :=
  ⟨none, fun hreq => absurd h (by rw [hreq]; decide)⟩

/-- A new field without an initializer. -/
def default (key : Bytes) : T.Field key :=
  if h : T.isOptional key = true then .empty h else .of (T.type key).default

/-- `toJson`; an empty optional fails its assertion. -/
def toJson (key : Bytes) (field : T.Field key) : Option Value := field.value.map (T.type key).toJson

/-- `fromJson`; an optional is reset by a `null` that its type does not take. -/
def fromJson (key : Bytes) (json : Value) (field : T.Field key) : Option (T.Field key) :=
  if h : T.isOptional key = true then
    if json.isNull && !(T.type key).canDeserializeTypeFromJson json then some (.empty h)
    else ((T.type key).fromJson json (field.value.getD (T.type key).default)).map .of
  else ((T.type key).fromJson json (field.value.getD (T.type key).default)).map .of

/-- `value.key != literal` -/
def differs (key : Bytes) (literal : Literal) (field : T.Field key) : Bool :=
  match T.toJson key field with
  | some json => !json.eq literal.value
  | none => true

/-- `left` is what is left of a value that was moved from. -/
def code (left : Value → Value) : MemberCode T.Fields where
  decode _ key json fields :=
    (T.fromJson key json (fields key)).map fun field => (Function.update fields key field, left json)
  differs _ key literal fields := T.differs key literal (fields key)

end MemberTypes

/-! ## Runs of ToJson -/

section ToJson

variable {T : MemberTypes}

/-- The lines of a `ToJson` function; `guard` is what the conditions in front of the next statement give.
`none` where a condition has no statement behind it, or an empty optional is written. -/
def runToJson (call : Bytes → Object → Option Object) (fields : T.Fields) :
    Option Bool → List ToJsonLine → Object → Option Object
  | none, [], json => some json
  | some _, [], _ => none
  | guard, .ifValue key :: lines, json =>
    runToJson call fields (some (guard.getD true && (fields key).value.isSome)) lines json
  | guard, .assign key :: lines, json =>
    if guard.getD true then
      (T.toJson key (fields key)).bind fun v => runToJson call fields none lines (Object.assign key v json)
    else runToJson call fields none lines json
  | guard, .base name :: lines, json =>
    if guard.getD true then (call name json).bind (runToJson call fields none lines)
    else runToJson call fields none lines json

/-- The `ToJson` function of the name, with calls nested to a depth. -/
def MetaModel.toJson (M : MetaModel) (fields : T.Fields) : Nat → Bytes → Object → Option Object
  | 0, _, _ => none
  | depth + 1, name, json =>
    (M.generated name).bind fun code => runToJson (M.toJson fields depth) fields none code.toJson json

/-- The object after the fields of some keys are written to it. -/
def writeFields (fields : T.Fields) (keys : List Bytes) (json : Object) : Object :=
  keys.foldl (fun json key =>
    match T.toJson key (fields key) with
    | some v => Object.assign key v json
    | none => json) json

theorem writeFields_append (fields : T.Fields) (keys keys' : List Bytes) (json : Object) :
    writeFields fields (keys ++ keys') json = writeFields fields keys' (writeFields fields keys json) :=
  List.foldl_append

/-- Every one of the fields is there to be written. -/
def Present (fields : T.Fields) (keys : List Bytes) : Prop := ∀ key ∈ keys, (fields key).value.isSome = true

variable {fields : T.Fields} {call : Bytes → Object → Option Object} {keysOf : Bytes → Option (List Bytes)}

/-- **The lines write the fields of the keys they write.** -/
theorem runToJson_eq (hcall : ∀ name keys json, keysOf name = some keys → Present fields keys →
    call name json = some (writeFields fields keys json)) {lines : List ToJsonLine} {guard : Option Bool}
    {keys : List Bytes} (h : writtenKeys keysOf (fun key => (fields key).value.isSome) guard lines = some keys)
    (hpresent : Present fields keys) (json : Object) :
    runToJson call fields guard lines json = some (writeFields fields keys json) := by
  induction lines generalizing guard keys json with
  | nil =>
    cases guard with
    | none =>
      cases h
      rfl
    | some b => cases h
  | cons line lines ih =>
    cases line with
    | ifValue key =>
      rw [writtenKeys] at h
      rw [runToJson]
      exact ih h hpresent json
    | assign key =>
      rw [writtenKeys] at h
      rw [runToJson]
      obtain ⟨keys', hkeys', rfl⟩ := Option.map_eq_some_iff.mp h
      by_cases hguard : guard.getD true = true
      · simp only [if_pos hguard] at hpresent ⊢
        obtain ⟨hkey, hrest⟩ := List.forall_mem_cons.mp hpresent
        obtain ⟨v, hv⟩ := Option.isSome_iff_exists.mp hkey
        have hjson : T.toJson key (fields key) = some ((T.type key).toJson v) := by
          rw [MemberTypes.toJson, hv]
          rfl
        rw [hjson, Option.bind_some, ih hkeys' hrest, writeFields, writeFields, List.foldl_cons, hjson]
      · simp only [if_neg hguard] at hpresent ⊢
        exact ih hkeys' hpresent json
    | base name =>
      rw [writtenKeys] at h
      rw [runToJson]
      split at h
      · next hguard =>
        rw [if_pos hguard]
        obtain ⟨called, hcalled, h⟩ := Option.bind_eq_some_iff.mp h
        obtain ⟨keys', hkeys', rfl⟩ := Option.map_eq_some_iff.mp h
        have hboth := List.forall_mem_append.mp hpresent
        rw [hcall name called json hcalled hboth.1, Option.bind_some, ih hkeys' hboth.2, writeFields_append]
      · next hguard =>
        rw [if_neg hguard]
        exact ih h hpresent json

theorem toJson_eq {M : MetaModel} {depth : Nat} {name : Bytes} {keys : List Bytes}
    (h : M.keysWritten (fun key => (fields key).value.isSome) depth name = some keys) (hpresent : Present fields keys)
    (json : Object) : M.toJson fields depth name json = some (writeFields fields keys json) := by
  induction depth generalizing name keys json with
  | zero => cases h
  | succ depth ih =>
    rw [MetaModel.keysWritten] at h
    obtain ⟨code, hcode, h⟩ := Option.bind_eq_some_iff.mp h
    rw [MetaModel.toJson, hcode, Option.bind_some]
    exact runToJson_eq (fun name keys json hkeys hpresent => ih hkeys hpresent json) h hpresent json

theorem find_writeFields {keys : List Bytes} (hpresent : Present fields keys) (json : Object) (key : Bytes) :
    Object.find key (writeFields fields keys json) =
      if key ∈ keys then T.toJson key (fields key) else Object.find key json := by
  induction keys generalizing json with
  | nil => rfl
  | cons k keys ih =>
    obtain ⟨hk, hrest⟩ := List.forall_mem_cons.mp hpresent
    obtain ⟨v, hv⟩ := Option.isSome_iff_exists.mp hk
    have hjson : T.toJson k (fields k) = some ((T.type k).toJson v) := by
      rw [MemberTypes.toJson, hv]
      rfl
    rw [writeFields, List.foldl_cons, hjson]
    show Object.find key (writeFields fields keys (Object.assign k ((T.type k).toJson v) json)) = _
    rw [ih hrest, find_assign]
    by_cases hkey : key = k
    · subst hkey
      rw [if_pos rfl, if_pos List.mem_cons_self, hjson]
      split <;> rfl
    · rw [if_neg hkey]
      simp only [List.mem_cons, hkey, false_or]

theorem nodup_writeFields (fields : T.Fields) (keys : List Bytes) {json : Object} (h : (json.map Prod.fst).Nodup) :
    ((writeFields fields keys json).map Prod.fst).Nodup := by
  induction keys generalizing json with
  | nil => exact h
  | cons key keys ih =>
    rw [writeFields, List.foldl_cons]
    split
    · exact ih (Object.nodup_assign h)
    · exact ih h

end ToJson

/-! ## Runs of FromJson -/

section FromJson

variable {T : MemberTypes} {left : Value → Value}

/-- The field after its member of the object, if there is one, is decoded into it. -/
def MemberTypes.read (T : MemberTypes) (key : Bytes) (json : Option Value) (field : T.Field key) :
    Option (T.Field key) :=
  match json with
  | some v => T.fromJson key v field
  | none => some field

section Reading

variable (start : Object) (initial target : T.Fields)

/-- A field is as it was at first or as it was read; what is still to be read is as it was. -/
structure Reading (keys : List Bytes) (json : Object) (fields : T.Fields) : Prop where
  unread : ∀ key ∈ keys, Object.find key json = Object.find key start ∧ fields key = initial key
  between : ∀ key, fields key = initial key ∨ fields key = target key

/-- The keys have been read, and nothing else has changed. -/
structure HasRead (keys : List Bytes) (json : Object) (fields : T.Fields) (json' : Object) (fields' : T.Fields) :
    Prop where
  read : ∀ key ∈ keys, fields' key = target key
  kept : ∀ key, key ∉ keys → fields' key = fields key ∧ Object.find key json' = Object.find key json

/-- The function of a name reads the keys. -/
def CallReads (call : Object → T.Fields → Option (Outcome T.Fields)) (keys : List Bytes) : Prop :=
  ∀ json fields, Reading start initial target keys json fields →
    ∃ json' fields', call json fields = some (.returned json' fields') ∧
      HasRead target keys json fields json' fields'

/-- The line does not end the function. -/
def LineOk : FromJsonLine → Prop
  | .get key => (Object.find key start).isSome = true
  | .returnUnless key literal =>
    T.differs key literal (initial key) = false ∧ T.differs key literal (target key) = false
  | _ => True

end Reading

variable {start : Object} {initial target : T.Fields}

/-- One more key is read. -/
theorem Reading.next {key : Bytes} {keys : List Bytes} {json : Object} {fields : T.Fields}
    (h : Reading start initial target (key :: keys) json fields) (hkey : key ∉ keys) {json' : Object}
    {fields' : T.Fields} (hfield : fields' key = target key)
    (hother : ∀ k, k ≠ key → fields' k = fields k ∧ Object.find k json' = Object.find k json) :
    Reading start initial target keys json' fields' where
  unread k hk := by
    have hne : k ≠ key := fun heq => hkey (heq ▸ hk)
    rw [(hother k hne).1, (hother k hne).2]
    exact h.unread k (List.mem_cons_of_mem _ hk)
  between k := by
    by_cases hk : k = key
    · subst hk
      exact .inr hfield
    · rw [(hother k hk).1]
      exact h.between k

theorem HasRead.cons {key : Bytes} {keys : List Bytes} (hkey : key ∉ keys) {json json' json'' : Object}
    {fields fields' fields'' : T.Fields} (h : HasRead target keys json' fields' json'' fields'')
    (hfield : fields' key = target key)
    (hother : ∀ k, k ≠ key → fields' k = fields k ∧ Object.find k json' = Object.find k json) :
    HasRead target (key :: keys) json fields json'' fields'' where
  read k hk := by
    rcases List.mem_cons.mp hk with rfl | hk
    · rw [(h.kept k hkey).1, hfield]
    · exact h.read k hk
  kept k hk := by
    rw [List.mem_cons, not_or] at hk
    rw [(h.kept k hk.2).1, (h.kept k hk.2).2]
    exact hother k hk.1

/-- A key of a list without repetitions that is still to be read. -/
theorem member_step {name key : Bytes} {keys : List Bytes} (hkey : key ∉ keys) {json : Object} {fields : T.Fields}
    (h : Reading start initial target (key :: keys) json fields) {v : Value} (hv : Object.find key start = some v)
    (hread : T.read key (Object.find key start) (initial key) = some (target key))
    {rest : Object → T.Fields → Option (Outcome T.Fields)}
    (hrest : CallReads start initial target rest keys) :
    ∃ json' fields', decodeMember (T.code left) name key v json fields rest = some (.returned json' fields') ∧
      HasRead target (key :: keys) json fields json' fields' := by
  let fields₁ := Function.update fields key (target key)
  have hfield : fields₁ key = target key := Function.update_self key (target key) fields
  have hother : ∀ k, k ≠ key → fields₁ k = fields k ∧
      Object.find k (Object.assign key (left v) json) = Object.find k json := fun k hk =>
    ⟨Function.update_of_ne hk (target key) fields, Object.find_assign_of_ne (Ne.symm hk) _ _⟩
  obtain ⟨json', fields', hrun, hdone⟩ := hrest _ _ (h.next hkey hfield hother)
  refine ⟨json', fields', ?_, hdone.cons hkey hfield hother⟩
  have hdecode : T.fromJson key v (fields key) = some (target key) := by
    rw [(h.unread key List.mem_cons_self).2]
    rw [hv] at hread
    exact hread
  have hstep : (T.code left).decode name key v fields = some (fields₁, left v) := by
    show (T.fromJson key v (fields key)).map _ = _
    rw [hdecode]
    rfl
  rw [decodeMember, hstep]
  exact hrun

theorem runLines_reads {call : Bytes → Object → T.Fields → Option (Outcome T.Fields)}
    {keysOf : Bytes → Option (List Bytes)} (name : Bytes) {lines : List FromJsonLine} {keys : List Bytes}
    (hcall : ∀ b, .base b ∈ lines → ∀ ks, keysOf b = some ks → ks.Nodup → ks ⊆ keys →
      CallReads start initial target (call b) ks)
    (hlines : ∀ line ∈ lines, LineOk start initial target line)
    (h : readKeys keysOf lines = some keys) (hnodup : keys.Nodup)
    (hread : ∀ key ∈ keys, T.read key (Object.find key start) (initial key) = some (target key)) :
    CallReads start initial target (runLines (T.code left) call name lines) keys := by
  induction lines generalizing keys with
  | nil =>
    cases h
    intro json fields _
    exact ⟨json, fields, rfl, List.forall_mem_nil _, fun _ _ => ⟨rfl, rfl⟩⟩
  | cons line lines ih =>
    obtain ⟨hline, hrest⟩ := List.forall_mem_cons.mp hlines
    -- the keys of the first line are read first
    have hbehind : ∀ {ks}, readKeys keysOf lines = some ks → ks.Nodup → ks ⊆ keys →
        CallReads start initial target (runLines (T.code left) call name lines) ks := fun hks hnd hsub =>
      ih (fun b hb ks' hks' hnd' hsub' => hcall b (List.mem_cons_of_mem _ hb) ks' hks' hnd' (List.Subset.trans hsub' hsub)) hrest
        hks hnd fun key hk => hread key (hsub hk)
    intro json fields hreading
    cases line with
    | base b =>
      rw [readKeys] at h
      obtain ⟨ks, hks, h⟩ := Option.bind_eq_some_iff.mp h
      obtain ⟨ks', hks', rfl⟩ := Option.map_eq_some_iff.mp h
      obtain ⟨hnd, hnd', hdisjoint⟩ := List.nodup_append.mp hnodup
      have hfirst : Reading start initial target ks json fields :=
        ⟨fun key hk => hreading.unread key (List.mem_append_left _ hk), hreading.between⟩
      obtain ⟨json₁, fields₁, hrun₁, hdone₁⟩ :=
        hcall b List.mem_cons_self ks hks hnd (List.subset_append_left _ _) json fields hfirst
      have hsecond : Reading start initial target ks' json₁ fields₁ := by
        constructor
        · intro key hk
          have hnot : key ∉ ks := fun hmem => hdisjoint key hmem key hk rfl
          rw [(hdone₁.kept key hnot).1, (hdone₁.kept key hnot).2]
          exact hreading.unread key (List.mem_append_right _ hk)
        · intro key
          by_cases hk : key ∈ ks
          · exact .inr (hdone₁.read key hk)
          · rw [(hdone₁.kept key hk).1]
            exact hreading.between key
      obtain ⟨json', fields', hrun, hdone⟩ :=
        hbehind hks' hnd' (List.subset_append_right _ _) json₁ fields₁ hsecond
      refine ⟨json', fields', by rw [runLines, hrun₁]; exact hrun, ?_, ?_⟩
      · intro key hk
        by_cases hmem : key ∈ ks'
        · exact hdone.read key hmem
        · rw [(hdone.kept key hmem).1]
          exact hdone₁.read key ((List.mem_append.mp hk).resolve_right hmem)
      · intro key hk
        rw [List.mem_append, not_or] at hk
        rw [(hdone.kept key hk.2).1, (hdone.kept key hk.2).2]
        exact hdone₁.kept key hk.1
    | ifFind key =>
      rw [readKeys] at h
      obtain ⟨ks, hks, rfl⟩ := Option.map_eq_some_iff.mp h
      obtain ⟨hkey, hnd⟩ := List.nodup_cons.mp hnodup
      obtain ⟨hfind, hfield⟩ := hreading.unread key List.mem_cons_self
      have hbehind := hbehind hks hnd (List.subset_cons_self _ _)
      have hkeyread := hread key List.mem_cons_self
      rw [runLines, hfind]
      cases hv : Object.find key start with
      | some v => exact member_step hkey hreading hv hkeyread hbehind
      | none =>
        rw [hv] at hkeyread
        have hsame : fields key = target key := hfield.trans (Option.some.inj hkeyread)
        have hother : ∀ k, k ≠ key → fields k = fields k ∧ Object.find k json = Object.find k json :=
          fun _ _ => ⟨rfl, rfl⟩
        obtain ⟨json', fields', hrun, hdone⟩ := hbehind json fields (hreading.next hkey hsame hother)
        exact ⟨json', fields', hrun, hdone.cons hkey hsame hother⟩
    | get key =>
      rw [readKeys] at h
      obtain ⟨ks, hks, rfl⟩ := Option.map_eq_some_iff.mp h
      obtain ⟨hkey, hnd⟩ := List.nodup_cons.mp hnodup
      obtain ⟨v, hv⟩ := Option.isSome_iff_exists.mp hline
      rw [runLines, (hreading.unread key List.mem_cons_self).1, hv]
      exact member_step hkey hreading hv (hread key List.mem_cons_self)
        (hbehind hks hnd (List.subset_cons_self _ _))
    | returnUnless key literal =>
      rw [readKeys] at h
      have hsame : T.differs key literal (fields key) = false := by
        rcases hreading.between key with heq | heq
        · rw [heq]
          exact hline.1
        · rw [heq]
          exact hline.2
      obtain ⟨json', fields', hrun, hdone⟩ := hbehind h hnodup (List.Subset.refl _) json fields hreading
      refine ⟨json', fields', ?_, hdone⟩
      rw [runLines, if_neg]
      · exact hrun
      · show ¬ T.differs key literal (fields key) = true
        rw [hsame]
        decide

end FromJson

/-! ## A structure and its functions -/

namespace MetaModel

variable {M : MetaModel} {s t : Structure} {T : MemberTypes} {left : Value → Value}

section Run

variable {start : Object} {initial target : T.Fields}

/-- What the lines of a property ask for. -/
structure PropertyOk (M : MetaModel) (start : Object) (initial target : T.Fields) (t : Structure)
    (p : StructureProperty) : Prop where
  required : p.isOptional = false → ¬ M.InheritedLiteral t p → (Object.find p.name start).isSome = true
  literal : ∀ l, p.type.literalValue = some l →
    T.differs p.name l (initial p.name) = false ∧ T.differs p.name l (target p.name) = false

theorem lineOk_of_property {p : StructureProperty} (h : PropertyOk M start initial target t p) :
    ∀ line ∈ fromJsonLines (M.inheritedNames t) p, LineOk start initial target line := by
  intro line hline
  unfold fromJsonLines at hline
  rcases List.mem_append.mp hline with hline | hline
  · split at hline
    · rw [List.mem_singleton.mp hline]
      trivial
    · next hopt =>
      split at hline
      · cases hline
      · next hinh =>
        rw [List.mem_singleton.mp hline]
        exact h.required (Bool.eq_false_iff.mpr hopt) fun hl => hinh (inheritedLiteral_iff.mpr hl)
  · split at hline
    · next l hl =>
      rw [List.mem_singleton.mp hline]
      exact h.literal l hl
    · cases hline

/-- **`FromJson` reads the keys it looks up**, where its lines do not end it. -/
theorem fromJson_reads (hcomplete : M.Complete) (hs : M.Has s) {depth : Nat} {keys : List Bytes}
    (h : M.keysRead depth s.name = some keys) (hnodup : keys.Nodup)
    (hread : ∀ key ∈ keys, T.read key (Object.find key start) (initial key) = some (target key))
    (hok : ∀ t, M.Extends s t → ∀ p ∈ M.allProperties t, PropertyOk M start initial target t p) :
    CallReads start initial target (M.fromJson (T.code left) depth s.name) keys := by
  induction depth generalizing s keys with
  | zero => cases h
  | succ depth ih =>
    obtain ⟨code, hgen⟩ := hcomplete s.name s hs
    have hcode : M.generated s.name = some code := generated_eq_some_iff.mpr ⟨s, hs, rfl, hgen⟩
    rw [keysRead, hcode, Option.bind_some] at h
    have hlines : ∀ line ∈ code.fromJson, LineOk start initial target line := by
      intro line hline
      rw [generate_fromJson hgen] at hline
      rcases List.mem_append.mp hline with hline | hline
      · obtain ⟨b, -, rfl⟩ := List.mem_map.mp hline
        trivial
      · obtain ⟨p, hp, hline⟩ := List.mem_flatMap.mp hline
        exact lineOk_of_property (hok s .refl p hp) line hline
    have hcall : ∀ name, .base name ∈ code.fromJson → ∀ ks, M.keysRead depth name = some ks → ks.Nodup →
        ks ⊆ keys → CallReads start initial target (M.fromJson (T.code left) depth name) ks := by
      intro name hname ks hks hnd hsub
      obtain ⟨b, hb, rfl⟩ := (base_mem_fromJson hgen name).mp hname
      refine ih (has_of_mem_basesOf hb) hks hnd (fun key hk => hread key (hsub hk)) fun t ht => hok t ?_
      exact Inheritance.reaches_iff.mpr (.inr ⟨b, hb, ht⟩)
    intro json fields hreading
    obtain ⟨json', fields', hreturned, hdone⟩ :=
      runLines_reads s.name hcall hlines h hnodup hread json fields hreading
    refine ⟨json', fields', ?_, hdone⟩
    rw [fromJson, hcode]
    exact hreturned

end Run

/-- The members are declared as the generator writes them; what refines a member with a literal leaves it to
be of the literal's type. -/
structure Declares (M : MetaModel) (s : Structure) (T : MemberTypes) : Prop where
  isOptional : ∀ t, M.Extends s t → ∀ p ∈ M.allProperties t, ¬ M.InheritedLiteral t p →
    T.isOptional p.name = p.isOptional
  literal : ∀ t, M.Extends s t → ∀ p ∈ M.allProperties t, ∀ l, p.type.literalValue = some l →
    T.type p.name = l.type

/-- The members of literal types are their literals. -/
def HoldsLiterals (M : MetaModel) (s : Structure) (fields : T.Fields) : Prop :=
  ∀ t, M.Extends s t → ∀ p ∈ M.allProperties t, ∀ l, p.type.literalValue = some l →
    T.differs p.name l (fields p.name) = false

/-- A new structure: members of literal types are initialized, by their declaration or in the constructor. -/
structure New (M : MetaModel) (s : Structure) (initial : T.Fields) : Prop where
  literals : M.HoldsLiterals s initial
  others : ∀ key, (∀ t, M.Extends s t → ∀ p ∈ M.allProperties t, p.name = key →
    p.type.literalValue = none) → initial key = T.default key

end MetaModel

/-- The fields are written alike, and hold the same alternatives of variants. -/
def MemberTypes.Like (T : MemberTypes) (key : Bytes) (field field' : T.Field key) : Prop :=
  Option.Rel (fun v v' => Reordered ((T.type key).toJson v) ((T.type key).toJson v') ∧
    (T.type key).SameAlternatives v v') field.value field'.value

/-- Each member that is there round-trips. -/
def MemberTypes.RoundTrips (T : MemberTypes) (key : Bytes) (field : T.Field key) : Prop :=
  ∀ v ∈ field.value, (T.type key).RoundTrips v

section Members

variable {T : MemberTypes} {key : Bytes}

/-- A literal is decoded to the same whatever the member was. -/
theorem fromJson_literal {t : Ty} {l : Literal} (h : t = l.type) (json : Value) (v w : t.Val) :
    t.fromJson json v = t.fromJson json w := by
  subst h
  cases l <;> rfl

theorem eq_of_literal {l : Literal} {json json' : Value} (h : json.eq l.value = true) (hre : Reordered json json') :
    json' = json := by
  cases hre with
  | refl => rfl
  | array => cases l <;> cases h
  | object => cases l <;> cases h

theorem differs_of_like {l : Literal} {field field' : T.Field key} (h : T.differs key l field = false)
    (hlike : T.Like key field field') : T.differs key l field' = false := by
  obtain ⟨value, _⟩ := field
  obtain ⟨value', _⟩ := field'
  cases hlike with
  | none => exact h
  | some hv =>
    have heq := eq_of_literal (by simpa [MemberTypes.differs, MemberTypes.toJson] using h) hv.1
    simp only [MemberTypes.differs, MemberTypes.toJson, Option.map_some] at h ⊢
    rw [heq]
    exact h

/-- A field that was just made, or is of a literal's type, reads what was written for another one. -/
theorem read_like {field initial : T.Field key} {json : Option Value}
    (hinitial : initial = T.default key ∨ ∃ l : Literal, T.type key = l.type ∧ T.differs key l field = false)
    (hround : T.RoundTrips key field) (hjson : Option.Rel Reordered (T.toJson key field) json) :
    ∃ field', T.read key json initial = some field' ∧ T.Like key field field' := by
  obtain ⟨value, hsome⟩ := field
  cases value with
  | none =>
    cases hjson
    have hopt : T.isOptional key = true := by
      by_contra hreq
      exact Bool.noConfusion (hsome (Bool.eq_false_iff.mpr hreq))
    refine ⟨initial, rfl, ?_⟩
    rcases hinitial with rfl | ⟨l, -, hdiffers⟩
    · rw [MemberTypes.default, dif_pos hopt]
      exact .none
    · cases hdiffers
  | some v =>
    obtain ⟨w, rfl, hre⟩ : ∃ w, json = some w ∧ Reordered ((T.type key).toJson v) w := by
      cases hjson with
      | some hre => exact ⟨_, rfl, hre⟩
    obtain ⟨v', hdecode, hlike⟩ := hround v rfl w hre
    -- what is decoded into does not matter
    have hdecode' : (T.type key).fromJson w (initial.value.getD (T.type key).default) = some v' := by
      rcases hinitial with rfl | ⟨l, htype, -⟩
      · rw [MemberTypes.default]
        split <;> exact hdecode
      · rw [fromJson_literal htype w _ (T.type key).default]
        exact hdecode
    have htaken : ¬ (w.isNull && !(T.type key).canDeserializeTypeFromJson w) = true := by
      rw [← hre.isNull_eq, ← (T.type key).canDeserialize_reordered hre]
      simpa using (T.type key).takes_null v
    refine ⟨.of v', ?_, .some hlike⟩
    show T.fromJson key w initial = _
    unfold MemberTypes.fromJson
    by_cases hopt : T.isOptional key = true
    · rw [dif_pos hopt, if_neg htaken, hdecode']
      rfl
    · rw [dif_neg hopt, hdecode']
      rfl

end Members

namespace MetaModel

variable {M : MetaModel} {s : Structure} {T : MemberTypes} {fields initial : T.Fields}

/-- The keys that `ToJson` writes are those of the fields that are there. -/
theorem mem_written_iff (hcopied : M.MixinsCopied s) (hdeclares : M.Declares s T) {depth : Nat}
    (hdepth : Inheritance.Bounded M.basesOf depth s) (key : Bytes) :
    key ∈ Inheritance.collect M.basesOf (M.writtenOwn fun key => (fields key).value.isSome) depth s ↔
      M.HasKey s key ∧ (fields key).value.isSome = true := by
  constructor
  · intro hkey
    obtain ⟨t, ht, hkey⟩ := (Inheritance.mem_collect hdepth).mp hkey
    obtain ⟨p, hp, hkey⟩ := List.mem_flatMap.mp hkey
    obtain ⟨rfl, hleft, hset⟩ := mem_writtenOf.mp hkey
    refine ⟨hasKey_of_extends ht ⟨p, hasProperty_of_mem_allProperties hp, rfl⟩, ?_⟩
    rcases hset with hreq | hset
    · exact (fields p.name).isSome (by rw [hdeclares.isOptional t ht p hp hleft, hreq])
    · exact hset
  · rintro ⟨hkey, hset⟩
    exact mem_written hdepth (mixinsCopied_iff.mp hcopied key hkey) (.inl hset)

/-- **What `ToJson` writes**: the fields that are there, each once. -/
theorem toJson_writes (fields : T.Fields) (hcomplete : M.Complete) (hs : M.Has s) (hcopied : M.MixinsCopied s)
    (hrefined : M.Refined s) (hdeclares : M.Declares s T) {depth : Nat}
    (hdepth : Inheritance.Bounded M.basesOf depth s) :
    ∃ obj, M.toJson fields depth s.name [] = some obj ∧ (obj.map Prod.fst).Nodup ∧
      ∀ key v, Object.find key obj = some v ↔ M.HasKey s key ∧ T.toJson key (fields key) = some v := by
  let keys := Inheritance.collect M.basesOf (M.writtenOwn fun key => (fields key).value.isSome) depth s
  have hmem : ∀ key, key ∈ keys ↔ M.HasKey s key ∧ (fields key).value.isSome = true :=
    mem_written_iff hcopied hdeclares hdepth
  have hpresent : Present fields keys := fun key hkey => ((hmem key).mp hkey).2
  have hwritten := keysWritten_collect hcomplete (fun key => (fields key).value.isSome) hs hdepth hrefined
  refine ⟨_, toJson_eq hwritten hpresent [], nodup_writeFields fields keys List.nodup_nil, fun key v => ?_⟩
  rw [find_writeFields hpresent]
  by_cases hkey : key ∈ keys
  · rw [if_pos hkey, iff_and_self]
    exact fun _ => ((hmem key).mp hkey).1
  · rw [if_neg hkey, Object.find]
    constructor
    · intro h
      cases h
    · rintro ⟨hhas, hv⟩
      refine absurd ((hmem key).mpr ⟨hhas, ?_⟩) hkey
      rw [← Option.isSome_map, ← MemberTypes.toJson, hv]
      rfl

/-- A new structure has members that were just made, and the literals it is to have. -/
theorem New.initial_or (hnew : M.New s initial) (hdeclares : M.Declares s T) (hliterals : M.HoldsLiterals s fields)
    (key : Bytes) : initial key = T.default key ∨
      ∃ l : Literal, T.type key = l.type ∧ T.differs key l (fields key) = false := by
  by_cases hliteral : ∃ t, M.Extends s t ∧ ∃ p ∈ M.allProperties t, p.name = key ∧
      ∃ l, p.type.literalValue = some l
  · obtain ⟨t, ht, p, hp, rfl, l, hl⟩ := hliteral
    exact .inr ⟨l, hdeclares.literal t ht p hp l hl, hliterals t ht p hp l hl⟩
  · refine .inl (hnew.others key fun t ht p hp hname => Option.eq_none_iff_forall_ne_some.mpr fun l hl => ?_)
    exact hliteral ⟨t, ht, p, hp, hname, l, hl⟩

theorem isSome_of_rel {json json' : Option Value} (h : Option.Rel Reordered json json') :
    json'.isSome = json.isSome := by
  cases h <;> rfl

/-- Under a key of the structure is what is written for its field. -/
theorem rel_find {obj obj' : Object} (hnodup : (obj.map Prod.fst).Nodup)
    (hobj : ∀ key v, Object.find key obj = some v ↔ M.HasKey s key ∧ T.toJson key (fields key) = some v)
    (hre : Reordered (.object obj) (.object obj')) {key : Bytes} (hkey : M.HasKey s key) :
    Option.Rel Reordered (T.toJson key (fields key)) (Object.find key obj') := by
  have hfind : T.toJson key (fields key) = Object.find key obj :=
    Option.ext fun v => ((hobj key v).trans (and_iff_right hkey)).symm
  rw [hfind]
  exact ((reordered_object_iff hnodup).mp hre).2 key

/-- **A structure survives its generated functions when its members do.**  For every structure that the
functions cover: `ToJson` writes the members that are there, each once and no other, and `FromJson` reads a
new structure from every order of that object: to members that are written alike and hold the same
alternatives, and it changes no other field. -/
theorem generated_roundTrips (M : MetaModel) (hacyclic : M.Acyclic) (hcomplete : M.Complete) (s : Structure)
    (hs : M.Has s) (hcopied : M.MixinsCopied s) (hrefined : M.Refined s) (hdistinct : M.Distinct s)
    (T : MemberTypes) (hdeclares : M.Declares s T) (left : Value → Value) (fields initial : T.Fields)
    (hliterals : M.HoldsLiterals s fields) (hnew : M.New s initial)
    (hround : ∀ key, M.HasKey s key → T.RoundTrips key (fields key)) :
    ∃ depth obj, M.toJson fields depth s.name [] = some obj ∧ (obj.map Prod.fst).Nodup ∧
      (∀ key v, Object.find key obj = some v ↔ M.HasKey s key ∧ T.toJson key (fields key) = some v) ∧
      ∀ obj', Reordered (.object obj) (.object obj') →
        ∃ json' fields', M.fromJson (T.code left) depth s.name obj' initial = some (.returned json' fields') ∧
          (∀ key, M.HasKey s key → T.Like key (fields key) (fields' key)) ∧
          ∀ key, ¬ M.HasKey s key → fields' key = initial key := by
  have hcovers := (M.covers_iff_shape hacyclic hcomplete hs).mpr ⟨hcopied, hrefined, hdistinct⟩
  obtain ⟨depth, keys, hkeys, hnodupkeys, hall⟩ := hcovers.reads
  have hdepth := bounded_of_keysRead hcomplete hs hkeys
  obtain ⟨obj, hobj, hnodup, hfind⟩ :=
    toJson_writes fields hcomplete hs hcopied hrefined hdeclares hdepth
  refine ⟨depth, obj, hobj, hnodup, hfind, fun obj' hre => ?_⟩
  -- what each member is read to
  have hmember : ∀ key, ∃ field', M.HasKey s key →
      T.read key (Object.find key obj') (initial key) = some field' ∧ T.Like key (fields key) field' := by
    intro key
    by_cases hkey : M.HasKey s key
    · obtain ⟨field', hread, hlike⟩ := read_like (hnew.initial_or hdeclares hliterals key) (hround key hkey)
        (rel_find hnodup hfind hre hkey)
      exact ⟨field', fun _ => ⟨hread, hlike⟩⟩
    · exact ⟨initial key, fun h => absurd h hkey⟩
  choose target htarget using hmember
  have hok : ∀ t, M.Extends s t → ∀ p ∈ M.allProperties t, PropertyOk M obj' initial target t p := by
    intro t ht p hp
    have hkey : M.HasKey s p.name := hasKey_of_extends ht ⟨p, hasProperty_of_mem_allProperties hp, rfl⟩
    constructor
    · intro hreq hleft
      have hset := (fields p.name).isSome (by rw [hdeclares.isOptional t ht p hp hleft, hreq])
      rw [isSome_of_rel (rel_find hnodup hfind hre hkey), MemberTypes.toJson, Option.isSome_map]
      exact hset
    · intro l hl
      have hwritten := hliterals t ht p hp l hl
      exact ⟨hnew.literals t ht p hp l hl, differs_of_like hwritten (htarget p.name hkey).2⟩
  have hread : ∀ key ∈ keys, T.read key (Object.find key obj') (initial key) = some (target key) := fun key hkey =>
    (htarget key ((hall key).mp hkey)).1
  have hstart : Reading obj' initial target keys obj' initial := ⟨fun _ _ => ⟨rfl, rfl⟩, fun _ => .inl rfl⟩
  obtain ⟨json', fields', hrun, hdone⟩ := fromJson_reads hcomplete hs hkeys hnodupkeys hread hok obj' initial hstart
  refine ⟨json', fields', hrun, fun key hkey => ?_, fun key hkey => ?_⟩
  · rw [hdone.read key ((hall key).mpr hkey)]
    exact (htarget key hkey).2
  · exact (hdone.kept key fun hmem => hkey ((hall key).mp hmem)).1

/-- A structure without bases and mixins. -/
theorem shape_of_flat (hbases : M.basesOf s = []) (hmixins : M.mixinsOf s = [])
    (hnames : (s.properties.map (·.name)).Nodup) :
    (∀ t, M.Extends s t → t = s) ∧ M.MixinsCopied s ∧ M.Refined s ∧ M.Distinct s := by
  have hextends : ∀ t, M.Extends s t → t = s := by
    intro t ht
    rcases Inheritance.reaches_iff.mp ht with rfl | ⟨b, hb, -⟩
    · rfl
    · rw [hbases] at hb
      cases hb
  refine ⟨hextends, ?_, ?_, ?_⟩
  · intro t ht m hm
    obtain rfl := hextends t ht
    rw [hmixins] at hm
    cases hm
  · rintro t ht p - ⟨b, hb, -⟩
    obtain rfl := hextends t ht
    rw [hbases] at hb
    cases hb
  · intro t ht
    obtain rfl := hextends t ht
    rw [DistinctAt, allProperties, hbases, hmixins]
    exact ⟨.nil, (List.pairwise_map.mp hnames).imp fun hne hname => absurd hname hne⟩

end MetaModel

/-! ## A structure of the protocol -/

/-- `WorkDoneProgressBegin` with strings for members; `title` is the title of a new one, or of one that is sent. -/
def beginTypes : MemberTypes := ⟨fun _ => .string, fun _ => false⟩

def beginFields (title : Bytes) : beginTypes.Fields := fun key =>
  .of (show Bytes from if key = bytes "kind" then bytes "begin" else title)

theorem begin_extends : (∀ t, protocol.Extends workDoneProgressBegin t → t = workDoneProgressBegin) ∧
    protocol.MixinsCopied workDoneProgressBegin ∧ protocol.Refined workDoneProgressBegin ∧
    protocol.Distinct workDoneProgressBegin :=
  MetaModel.shape_of_flat rfl rfl (by decide)

/-- The only literal is `kind`. -/
theorem begin_literal {t : Structure} (ht : protocol.Extends workDoneProgressBegin t) {p : StructureProperty}
    (hp : p ∈ protocol.allProperties t) {l : Literal} (hl : p.type.literalValue = some l) :
    p.name = bytes "kind" ∧ l = .string (bytes "begin") := by
  obtain rfl := begin_extends.1 t ht
  have hall : protocol.allProperties workDoneProgressBegin = workDoneProgressBegin.properties := rfl
  rw [hall] at hp
  simp only [workDoneProgressBegin, List.mem_cons, List.not_mem_nil, or_false] at hp
  rcases hp with rfl | rfl
  · exact ⟨rfl, (Option.some.inj hl).symm⟩
  · cases hl

theorem begin_holdsLiterals (title : Bytes) : protocol.HoldsLiterals workDoneProgressBegin (beginFields title) := by
  intro t ht p hp l hl
  obtain ⟨hname, rfl⟩ := begin_literal ht hp hl
  rw [hname]
  rfl

theorem begin_declares : protocol.Declares workDoneProgressBegin beginTypes := by
  constructor
  · intro t ht p hp _
    obtain rfl := begin_extends.1 t ht
    have hall : protocol.allProperties workDoneProgressBegin = workDoneProgressBegin.properties := rfl
    rw [hall] at hp
    simp only [workDoneProgressBegin, List.mem_cons, List.not_mem_nil, or_false] at hp
    rcases hp with rfl | rfl <;> rfl
  · intro t ht p hp l hl
    obtain ⟨-, rfl⟩ := begin_literal ht hp hl
    rfl

theorem begin_new : protocol.New workDoneProgressBegin (beginFields []) := by
  refine ⟨begin_holdsLiterals [], fun key hother => ?_⟩
  have hkey : key ≠ bytes "kind" := by
    rintro rfl
    have hkind := hother workDoneProgressBegin .refl _ (List.mem_append_right _ List.mem_cons_self) rfl
    cases hkind
  unfold beginFields
  rw [if_neg hkey]
  rfl

theorem begin_roundTrips :
    ∃ depth obj, protocol.toJson (beginFields (bytes "Build")) depth workDoneProgressBegin.name [] = some obj ∧
      ∀ obj', Reordered (.object obj) (.object obj') → ∃ json' fields',
        protocol.fromJson (beginTypes.code fun _ => .null) depth workDoneProgressBegin.name obj' (beginFields []) =
          some (.returned json' fields') := by
  obtain ⟨-, hcopied, hrefined, hdistinct⟩ := begin_extends
  obtain ⟨depth, obj, hobj, -, -, hread⟩ := protocol.generated_roundTrips protocol_acyclic protocol_complete
    workDoneProgressBegin rfl hcopied hrefined hdistinct beginTypes begin_declares (fun _ => .null)
    (beginFields (bytes "Build")) (beginFields []) (begin_holdsLiterals _) begin_new
    fun key _ v _ => Ty.roundTrips_of_recoverable .string trivial v trivial trivial
  refine ⟨depth, obj, hobj, fun obj' hre => ?_⟩
  obtain ⟨json', fields', hrun, -⟩ := hread obj' hre
  exact ⟨json', fields', hrun⟩

end Lsp.Lspgen
