import Mathlib.Data.List.Dedup
import LspFramework.Lspgen.Tables

/-!
# Keys that are read without a test

`FromJson` reads a member that is not optional with `get`, which terminates the process when the key is
missing.  The type test is to exclude that, but its table `requiredProperties` and the function come
from different branches of the generator: the table has the properties of direct bases only, none of
their mixins or of their own bases, and no literal property of the structure itself.

* `MetaModel.fromJson_keeps`: a run on an object that has every key that is read finds them all.
* `MetaModel.fromJson_permissive`: when nothing else stops it, a run reads every key.
* `leastObject`: the smallest object that passes the test.

Main result: `MetaModel.keys_found_iff`.
-/

namespace Lsp.Lspgen

open Chars Lsp.Json

/-! ## Runs that find every key -/

/-- The run did not end at a missing key, and it removed none. -/
def Outcome.Keeps {V : Type} (json : Object) : Outcome V → Prop
  | .returned json' _ => ∀ key, Object.contains key json = true → Object.contains key json' = true
  | .missingKey _ => False
  | .terminated => True

theorem Outcome.Keeps.mono {V : Type} {json json' : Object} {o : Outcome V} (h : o.Keeps json')
    (hkeys : ∀ key, Object.contains key json = true → Object.contains key json' = true) : o.Keeps json := by
  cases o with
  | returned json'' value => exact fun key hkey => h key (hkeys key hkey)
  | missingKey key => exact h
  | terminated => trivial

section Keeps

variable {V : Type} {code : MemberCode V} {call : Bytes → Object → V → Option (Outcome V)} {name : Bytes}
  {R : Bytes → Bytes → Prop}

theorem decodeMember_keeps {key : Bytes} {v : Value} {json : Object} {value : V}
    {rest : Object → V → Option (Outcome V)} {o : Outcome V}
    (hrest : ∀ v value, ∀ o, rest (Object.assign key v json) value = some o →
      o.Keeps (Object.assign key v json))
    (h : decodeMember code name key v json value rest = some o) : o.Keeps json := by
  unfold decodeMember at h
  split at h
  · exact (hrest _ _ o h).mono fun k hk => Object.contains_assign hk key _
  · cases h
    trivial

/-- The lines of one function; `R` gives the keys that the functions of bases read. -/
theorem runLines_keeps (hcall : ∀ b json value, (∀ key, R b key → Object.contains key json = true) →
      ∀ o, call b json value = some o → o.Keeps json) {lines : List FromJsonLine} {json : Object}
    {value : V} (hget : ∀ key, .get key ∈ lines → Object.contains key json = true)
    (hbase : ∀ b, .base b ∈ lines → ∀ key, R b key → Object.contains key json = true) {o : Outcome V}
    (h : runLines code call name lines json value = some o) : o.Keeps json := by
  induction lines generalizing json value o with
  | nil =>
    cases h
    exact fun _ hkey => hkey
  | cons line lines ih =>
    have hih : ∀ json', (∀ key, Object.contains key json = true → Object.contains key json' = true) →
        ∀ value o, runLines code call name lines json' value = some o → o.Keeps json' :=
      fun json' hkeys value o ho => ih (fun key hmem => hkeys key (hget key (List.mem_cons_of_mem _ hmem)))
        (fun b hmem key hr => hkeys key (hbase b (List.mem_cons_of_mem _ hmem) key hr)) ho
    cases line with
    | base b =>
      rw [runLines] at h
      obtain ⟨o', ho', h⟩ := Option.bind_eq_some_iff.mp h
      have hkeeps := hcall b json value (hbase b List.mem_cons_self) o' ho'
      cases o' with
      | returned json' value' => exact (hih json' hkeeps value' o h).mono hkeeps
      | missingKey key => exact hkeeps.elim
      | terminated =>
        cases h
        trivial
    | ifFind key =>
      rw [runLines] at h
      split at h
      · exact decodeMember_keeps (fun v value => hih _ (fun k hk => Object.contains_assign hk key v) value) h
      · exact hih json (fun _ hk => hk) value o h
    | get key =>
      rw [runLines] at h
      split at h
      · exact decodeMember_keeps (fun v value => hih _ (fun k hk => Object.contains_assign hk key v) value) h
      · next hfind =>
        have hmem := hget key List.mem_cons_self
        rw [Object.contains, hfind] at hmem
        cases hmem
    | returnUnless key literal =>
      rw [runLines] at h
      split at h
      · cases h
        exact fun _ hkey => hkey
      · exact hih json (fun _ hk => hk) value o h

end Keeps

namespace MetaModel

variable {M : MetaModel} {V : Type}

/-- The structure is registered under its name. -/
def Has (M : MetaModel) (s : Structure) : Prop := M.typeForName s.name = some (.structure s)

theorem has_of_mem_basesOf {s b : Structure} (h : b ∈ M.basesOf s) : M.Has b := by
  obtain ⟨ref, -, hb⟩ := List.mem_filterMap.mp h
  cases ref with
  | other => cases hb
  | reference name =>
    unfold structureForRef at hb
    simp only at hb
    split at hb
    · next s hs =>
      cases hb
      rw [Has, M.name_eq name b hs]
      exact hs
    · cases hb

theorem generated_eq_some_iff {name : Bytes} {code : Generated} :
    M.generated name = some code ↔ ∃ s, M.Has s ∧ s.name = name ∧ generate M s = .ok code := by
  unfold generated
  constructor
  · intro h
    split at h
    · next s hs =>
      obtain rfl := M.name_eq name s hs
      cases hgen : generate M s with
      | error e =>
        rw [hgen] at h
        cases h
      | ok code' =>
        rw [hgen] at h
        cases h
        exact ⟨s, hs, rfl, hgen⟩
    · cases h
  · rintro ⟨s, hs, rfl, hgen⟩
    rw [hs]
    simp only [hgen]
    rfl

theorem Has.eq_of_name {s b : Structure} (hs : M.Has s) (hb : M.Has b) (h : s.name = b.name) : s = b := by
  unfold Has at hs hb
  rw [h, hb] at hs
  cases hs
  rfl

/-- The keys read by the function of a name. -/
def ReadsNamed (M : MetaModel) (name key : Bytes) : Prop := ∃ s, M.Has s ∧ s.name = name ∧ M.Reads s key

theorem readsNamed_of_get {s : Structure} {code : Generated} (hs : M.Has s) (hgen : generate M s = .ok code)
    {key : Bytes} (h : .get key ∈ code.fromJson) : M.ReadsNamed s.name key := by
  obtain ⟨p, hp, hopt, hinh, rfl⟩ := (get_mem_fromJson hgen key).mp h
  exact ⟨s, hs, rfl, .own hp hopt hinh⟩

theorem readsNamed_of_base {s : Structure} {code : Generated} (hs : M.Has s) (hgen : generate M s = .ok code)
    {name key : Bytes} (h : .base name ∈ code.fromJson) (hkey : M.ReadsNamed name key) :
    M.ReadsNamed s.name key := by
  obtain ⟨b, hb, rfl⟩ := (base_mem_fromJson hgen name).mp h
  obtain ⟨b', hb', hname, hreads⟩ := hkey
  obtain rfl := hb'.eq_of_name (has_of_mem_basesOf hb) hname
  exact ⟨s, hs, rfl, .base hb hreads⟩

/-- **A run on an object that has every key that is read finds them all.** -/
theorem fromJson_keeps (members : MemberCode V) (depth : Nat) {name : Bytes} {json : Object} {value : V}
    (h : ∀ key, M.ReadsNamed name key → Object.contains key json = true) {o : Outcome V}
    (ho : M.fromJson members depth name json value = some o) : o.Keeps json := by
  induction depth generalizing name json value o with
  | zero => cases ho
  | succ depth ih =>
    rw [fromJson] at ho
    split at ho
    · next code hcode =>
      obtain ⟨s, hs, rfl, hgen⟩ := generated_eq_some_iff.mp hcode
      refine runLines_keeps (R := M.ReadsNamed) ?_ ?_ ?_ ho
      · exact fun b json value hkeys o ho => ih hkeys ho
      · exact fun key hmem => h key (readsNamed_of_get hs hgen hmem)
      · exact fun b hmem key hkey => h key (readsNamed_of_base hs hgen hmem hkey)
    · cases ho

end MetaModel

/-! ## Runs that read every key -/

/-- Members that decode every value and differ from no literal. -/
def permissive : MemberCode Unit where
  decode _ _ v value := some (value, v)
  differs _ _ _ _ := false

/-- The run reads the keys of `P` and leaves the object as it is, or it ends at a missing key. -/
def ReadsAll (P : Bytes → Prop) (json : Object) (o : Option (Outcome Unit)) : Prop :=
  (o = some (.returned json ()) ∧ ∀ key, P key → Object.contains key json = true) ∨
    ∃ key, o = some (.missingKey key)

theorem runLines_permissive {call : Bytes → Object → Unit → Option (Outcome Unit)} {name : Bytes}
    {R : Bytes → Bytes → Prop} {json : Object} {lines : List FromJsonLine}
    (hcall : ∀ b, .base b ∈ lines → ReadsAll (R b) json (call b json ())) :
    ReadsAll (fun key => .get key ∈ lines ∨ ∃ b, .base b ∈ lines ∧ R b key) json
      (runLines permissive call name lines json ()) := by
  induction lines with
  | nil => exact .inl ⟨rfl, by simp⟩
  | cons line lines ih =>
    have hrest := ih fun b hmem => hcall b (List.mem_cons_of_mem _ hmem)
    cases line with
    | base b =>
      rcases hcall b List.mem_cons_self with ⟨hb, hkeys⟩ | ⟨key, hb⟩
      · rw [runLines, hb, Option.bind_some]
        refine hrest.imp_left fun ⟨hrun, hall⟩ => ⟨hrun, ?_⟩
        rintro key (hget | ⟨b', hb', hr⟩)
        · exact hall key (.inl (by simpa using hget))
        · rcases List.mem_cons.mp hb' with heq | hb'
          · cases heq
            exact hkeys key hr
          · exact hall key (.inr ⟨b', hb', hr⟩)
      · exact .inr ⟨key, by rw [runLines, hb, Option.bind_some]⟩
    | ifFind key =>
      have hrun : runLines permissive call name (.ifFind key :: lines) json () =
          runLines permissive call name lines json () := by
        rw [runLines]
        split
        · next v hv => simp only [decodeMember, permissive, Object.assign_of_find hv]
        · rfl
      rw [hrun]
      simpa using hrest
    | get key =>
      rw [runLines]
      cases hv : Object.find key json with
      | none => exact .inr ⟨key, rfl⟩
      | some v =>
        simp only [decodeMember, permissive, Object.assign_of_find hv]
        refine hrest.imp_left fun ⟨hrun, hall⟩ => ⟨hrun, ?_⟩
        rintro k (hget | ⟨b, hb, hr⟩)
        · rcases List.mem_cons.mp hget with heq | hget
          · cases heq
            rw [Object.contains, hv, Option.isSome_some]
          · exact hall k (.inl hget)
        · exact hall k (.inr ⟨b, by simpa using hb, hr⟩)
    | returnUnless key literal =>
      have hrun : runLines permissive call name (.returnUnless key literal :: lines) json () =
          runLines permissive call name lines json () := rfl
      rw [hrun]
      simpa using hrest

theorem ReadsAll.imp {P Q : Bytes → Prop} {json : Object} {o : Option (Outcome Unit)}
    (h : ReadsAll P json o) (hkeys : ∀ key, Q key → P key) : ReadsAll Q json o :=
  h.imp_left fun ⟨hrun, hall⟩ => ⟨hrun, fun key hkey => hall key (hkeys key hkey)⟩

namespace MetaModel

variable {M : MetaModel}

theorem reads_iff {s : Structure} {code : Generated} (hgen : generate M s = .ok code) {key : Bytes}
    (h : M.Reads s key) :
    .get key ∈ code.fromJson ∨ ∃ name, .base name ∈ code.fromJson ∧ M.ReadsNamed name key := by
  cases h with
  | own hp hopt hinh => exact .inl ((get_mem_fromJson hgen _).mpr ⟨_, hp, hopt, hinh, rfl⟩)
  | @base _ b _ hb hreads =>
    exact .inr ⟨b.name, (base_mem_fromJson hgen _).mpr ⟨b, hb, rfl⟩, b, has_of_mem_basesOf hb, rfl, hreads⟩

/-- When nothing else stops it, a run reads every key, or ends at a missing one. -/
theorem fromJson_permissive (hcomplete : M.Complete) {rank : Bytes → Nat}
    (hrank : ∀ name s, M.typeForName name = some (.structure s) → ∀ ref ∈ s.bases ++ s.mixins, ∀ b,
      M.structureForRef ref = some b → rank b.name < rank name)
    {depth : Nat} {s : Structure} (hs : M.Has s) (hdepth : rank s.name < depth) (json : Object) :
    ReadsAll (M.Reads s) json (M.fromJson permissive depth s.name json ()) := by
  induction depth generalizing s with
  | zero => omega
  | succ depth ih =>
    obtain ⟨code, hgen⟩ := hcomplete s.name s hs
    rw [fromJson, generated_eq_some_iff.mpr ⟨s, hs, rfl, hgen⟩]
    refine ReadsAll.imp (runLines_permissive (R := M.ReadsNamed) ?_) fun key hkey => reads_iff hgen hkey
    intro name hname
    obtain ⟨b, hb, rfl⟩ := (base_mem_fromJson hgen name).mp hname
    obtain ⟨ref, href, hbref⟩ := List.mem_filterMap.mp hb
    have hlt := hrank s.name s hs ref (List.mem_append_left _ href) b hbref
    have hbs := has_of_mem_basesOf hb
    refine (ih hbs (by omega)).imp ?_
    rintro key ⟨b', hb', hname', hreads⟩
    exact hb'.eq_of_name hbs hname' ▸ hreads

end MetaModel

/-! ## The smallest object that passes -/

/-- The value of the first entry of `literalProperties` for a key. -/
def leastValue (code : Generated) (key : Bytes) : Value :=
  match code.literalProperties.find? fun p => p.1 = key with
  | some p => p.2.tableValue
  | none => .null

def leastObject (code : Generated) : Object :=
  code.requiredProperties.dedup.map fun key => (key, leastValue code key)

theorem keys_leastObject (code : Generated) :
    (leastObject code).map Prod.fst = code.requiredProperties.dedup := by
  rw [leastObject, List.map_map]
  exact List.map_id _

theorem contains_leastObject (code : Generated) (key : Bytes) :
    Object.contains key (leastObject code) = true ↔ key ∈ code.requiredProperties := by
  rw [Object.contains_iff, keys_leastObject, List.mem_dedup]

theorem find_leastObject {code : Generated} {key : Bytes} {v : Value}
    (h : Object.find key (leastObject code) = some v) : v = leastValue code key := by
  obtain ⟨k, -, heq⟩ := List.mem_map.mp (Object.mem_of_find h)
  cases heq
  rfl

/-- A value equal to one of the table is that value. -/
theorem eq_tableValue {l : Literal} {v : Value} (h : v.eq l.tableValue = true) : v = l.tableValue := by
  cases l <;> cases v <;> simp_all [Literal.tableValue, Value.eq]

theorem tableValue_eq_self (l : Literal) : l.tableValue.eq l.tableValue = true := by
  cases l <;> simp [Literal.tableValue, Value.eq]

section Table

variable {M : MetaModel} {s : Structure} {code : Generated}

theorem canDeserialize_iff (code : Generated) (json : Object) :
    code.canDeserialize json = true ↔
      (∀ p ∈ code.literalProperties, ∀ v, Object.find p.1 json = some v → v.eq p.2.tableValue = true) ∧
        ∀ key ∈ code.requiredProperties, Object.contains key json = true := by
  unfold Generated.canDeserialize canDeserializeObject
  rw [Bool.and_eq_true, hasLiteralProperties, hasRequiredProperties, List.all_eq_true, List.all_eq_true,
    List.forall_mem_map]
  refine and_congr_left fun _ => forall₂_congr fun p _ => ?_
  cases Object.find p.1 json <;> simp

theorem canDeserialize_leastObject (hgen : generate M s = .ok code) (h : ¬ M.Contradictory s) :
    code.canDeserialize (leastObject code) = true := by
  refine (canDeserialize_iff _ _).mpr ⟨?_, fun key => (contains_leastObject code key).mpr⟩
  rintro ⟨key, m⟩ hm v hv
  obtain rfl := find_leastObject hv
  have hreq : key ∈ code.requiredProperties :=
    (contains_leastObject code key).mp (by rw [Object.contains, hv, Option.isSome_some])
  unfold leastValue
  cases hfind : code.literalProperties.find? fun p => decide (p.1 = key) with
  | none => exact absurd hm fun hm => by simpa using List.find?_eq_none.mp hfind _ hm
  | some p =>
    obtain ⟨k, l⟩ := p
    have hk : k = key := by simpa using List.find?_some hfind
    subst hk
    obtain ⟨p, hp, hpl, hpk⟩ := (mem_literalProperties hgen k l).mp (List.mem_of_find?_eq_some hfind)
    obtain ⟨q, hq, hqm, hqk⟩ := (mem_literalProperties hgen k m).mp hm
    by_contra hne
    refine h ⟨p, hp, q, hq, hpk.trans hqk.symm, ?_, l, m, hpl, hqm, Bool.eq_false_iff.mpr hne⟩
    exact hpk ▸ (mem_requiredProperties hgen k).mp hreq

theorem not_canDeserialize_of_contradictory (hgen : generate M s = .ok code) (h : M.Contradictory s)
    (json : Object) : ¬ code.canDeserialize json = true := by
  intro hpass
  obtain ⟨hlit, hreq⟩ := (canDeserialize_iff _ _).mp hpass
  obtain ⟨p, hp, q, hq, hname, hp_req, l, m, hl, hm, hne⟩ := h
  have hcont := hreq p.name ((mem_requiredProperties hgen _).mpr hp_req)
  obtain ⟨v, hv⟩ := Option.isSome_iff_exists.mp hcont
  have hvl := eq_tableValue (hlit (p.name, l) ((mem_literalProperties hgen _ _).mpr ⟨p, hp, hl, rfl⟩) v hv)
  have hvm := eq_tableValue (hlit (p.name, m) ((mem_literalProperties hgen _ _).mpr ⟨q, hq, hm, hname.symm⟩) v hv)
  rw [← hvl, hvm, tableValue_eq_self] at hne
  cases hne

end Table

/-! ## Main result -/

/-- No object that passes the test of the tables leads to a missing key, whatever the members decode and
whichever literals they differ from. -/
def KeysFound (M : MetaModel) (s : Structure) (code : Generated) : Prop :=
  ∀ (V : Type) (members : MemberCode V) (depth : Nat) (json : Object) (value : V),
    (json.map Prod.fst).Nodup → code.canDeserialize json = true →
    ∀ key, M.fromJson members depth s.name json value ≠ some (.missingKey key)

/-- **When the type test protects the decoder.**  For every acyclic meta model that code is generated
for, and each of its structures: no object that passes the test makes `FromJson` read a missing key,
exactly when every key that it reads is required by the table of the structure, or the tables let no
object pass. -/
theorem MetaModel.keys_found_iff (M : MetaModel) (hacyclic : M.Acyclic) (hcomplete : M.Complete)
    (s : Structure) (hs : M.Has s) (code : Generated) (hgen : generate M s = .ok code) :
    KeysFound M s code ↔ (∀ key, M.Reads s key → M.Required s key) ∨ M.Contradictory s := by
  constructor
  · intro h
    by_cases hcon : M.Contradictory s
    · exact .inr hcon
    · refine .inl fun key hreads => ?_
      obtain ⟨rank, hrank⟩ := hacyclic
      have hpass := canDeserialize_leastObject hgen hcon
      have hnodup : ((leastObject code).map Prod.fst).Nodup := by
        rw [keys_leastObject]
        exact List.nodup_dedup _
      have hrun := fromJson_permissive hcomplete hrank hs (Nat.lt_succ_self _) (leastObject code)
      rcases hrun with ⟨-, hall⟩ | ⟨k, hk⟩
      · exact (mem_requiredProperties hgen key).mp ((contains_leastObject code key).mp (hall key hreads))
      · exact absurd hk (h Unit permissive _ _ () hnodup hpass k)
  · rintro (hreq | hcon) V members depth json value - hpass key hmiss
    · refine fromJson_keeps members depth ?_ hmiss
      rintro k ⟨s', hs', hname, hreads⟩
      obtain rfl := hs'.eq_of_name hs hname
      exact ((canDeserialize_iff _ _).mp hpass).2 k ((mem_requiredProperties hgen k).mpr (hreq k hreads))
    · exact not_canDeserialize_of_contradictory hgen hcon json hpass

/-! ## Two structures of the protocol -/

/-- The base of the file operations. -/
def resourceOperation : Structure where
  name := bytes "ResourceOperation"
  properties := [{ name := bytes "kind", type := .other }]

/-- A structure whose literal property refines its base's. -/
def createFile : Structure where
  name := bytes "CreateFile"
  properties := [{ name := bytes "kind", type := .stringLiteral (bytes "create") },
    { name := bytes "uri", type := .other }]
  bases := [.reference (bytes "ResourceOperation")]

/-- A structure with a literal property of its own. -/
def workDoneProgressBegin : Structure where
  name := bytes "WorkDoneProgressBegin"
  properties := [{ name := bytes "kind", type := .stringLiteral (bytes "begin") },
    { name := bytes "title", type := .other }]

def protocol : MetaModel := .ofStructures [resourceOperation, createFile, workDoneProgressBegin]

theorem mem_of_protocol {name : Bytes} {s : Structure} (h : protocol.typeForName name = some (.structure s)) :
    s ∈ [resourceOperation, createFile, workDoneProgressBegin] := by
  obtain ⟨s', hs', heq⟩ := Option.map_eq_some_iff.mp h
  cases heq
  exact List.mem_of_find?_eq_some hs'

theorem protocol_acyclic : protocol.Acyclic := by
  refine ⟨fun name => if name = createFile.name then 1 else 0, ?_⟩
  intro name s hs ref href b hb
  obtain rfl := protocol.name_eq name s hs
  have hmem := mem_of_protocol hs
  simp only [List.mem_cons, List.not_mem_nil, or_false] at hmem
  rcases hmem with rfl | rfl | rfl
  · simp [resourceOperation] at href
  · obtain rfl : .reference (bytes "ResourceOperation") = ref := by simpa [createFile, eq_comm] using href
    obtain rfl : resourceOperation = b := Option.some.inj hb
    decide
  · simp [workDoneProgressBegin] at href

theorem protocol_complete : protocol.Complete := by
  intro name s hs
  have hmem := mem_of_protocol hs
  simp only [List.mem_cons, List.not_mem_nil, or_false] at hmem
  rcases hmem with rfl | rfl | rfl
  · exact ⟨_, rfl⟩
  · exact ⟨_, rfl⟩
  · exact ⟨_, rfl⟩

theorem keys_found_createFile :
    ∃ code, generate protocol createFile = .ok code ∧ KeysFound protocol createFile code := by
  refine ⟨_, rfl, (protocol.keys_found_iff protocol_acyclic protocol_complete createFile rfl _ rfl).mpr
    (.inl ?_)⟩
  have hbases : protocol.basesOf createFile = [resourceOperation] := rfl
  have hkind : protocol.Required createFile (bytes "kind") :=
    .inl ⟨resourceOperation, by simp [hbases], _, List.mem_cons_self, rfl, rfl⟩
  intro key hreads
  cases hreads with
  | own hp hopt hinh =>
    have hprops : protocol.allProperties createFile = createFile.properties := rfl
    rw [hprops] at hp
    simp only [createFile, List.mem_cons, List.not_mem_nil, or_false] at hp
    rcases hp with rfl | rfl
    · exact hkind
    · exact .inr ⟨_, hprops ▸ List.mem_cons_of_mem _ List.mem_cons_self, rfl, rfl, rfl⟩
  | base hb hreads =>
    obtain rfl : _ = resourceOperation := by simpa [hbases] using hb
    cases hreads with
    | own hp hopt hinh =>
      obtain rfl := List.mem_singleton.mp hp
      exact hkind
    | base hb _ => exact absurd hb (List.not_mem_nil (a := _))

/-- An object with no more than the required `title` passes for `WorkDoneProgressBegin`: the literal
property is only compared when it is there, and it is in no table of required ones.  `FromJson` reads it
with `get`. -/
theorem keys_not_found :
    let json : Object := [(bytes "title", .string [])]
    protocol.Acyclic ∧ protocol.Complete ∧ protocol.Has workDoneProgressBegin ∧
      ∃ code, generate protocol workDoneProgressBegin = .ok code ∧ code.canDeserialize json = true ∧
        ∀ (V : Type) (members : MemberCode V) (value : V),
          protocol.fromJson members 1 workDoneProgressBegin.name json value =
            some (.missingKey (bytes "kind")) :=
  ⟨protocol_acyclic, protocol_complete, rfl, _, rfl, rfl, fun _ _ _ => rfl⟩

end Lsp.Lspgen
