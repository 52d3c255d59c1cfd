import Mathlib.Data.List.Forall2
import LspFramework.Lib.Binary64

/-!
# JSON values

`json::Value` is a variant of seven alternatives.  `json::Object` is an unordered map; here
it is the list of its members in the order the map is iterated in, so a statement about every
`Value` is one about every iteration order.  `Value.WellFormed` says that the keys of each
object are distinct, which the map guarantees.

* `Object.find`, `contains`, `get`, `index` (`operator[]`): the members of one object.
* `Value.eq`: `operator==`, which ignores the order of the members.
* `Reordered v w`: `w` is `v` with the members of its objects in another order; the two are
  equal (`Reordered.eq`).
* `Pointer`: a `Value*` into a value under construction, as the path from its root.
-/

namespace Lsp.Json

open Chars

abbrev Integer := Int32
abbrev Decimal := Binary64

inductive Value where
  | null
  | boolean (b : Bool)
  | integer (i : Integer)
  | decimal (d : Decimal)
  | string (s : Bytes)
  | array (elems : List Value)
  | object (members : List (Bytes × Value))
  deriving Repr

abbrev Array := List Value
abbrev Object := List (Bytes × Value)

/-- `json::ParseError`: `what()` and `textPos()`. -/
structure ParseError where
  message : Bytes
  textPos : Nat
  deriving DecidableEq, Repr

/-! ## Objects -/

namespace Object

def find (key : Bytes) : Object → Option Value
  | [] => none
  | (k, v) :: ms => if k = key then some v else find key ms

def contains (key : Bytes) (ms : Object) : Bool := (find key ms).isSome

/-- The object after `(*this)[key]`, which inserts a null value for a missing key. -/
def index (key : Bytes) (ms : Object) : Object :=
  if contains key ms then ms else ms ++ [(key, .null)]

/-- The object after `(*this)[key] = v`. -/
def assign (key : Bytes) (v : Value) : Object → Object
  | [] => [(key, v)]
  | (k, w) :: ms => if k = key then (k, v) :: ms else (k, w) :: assign key v ms

end Object

namespace Value

/-! ## Alternatives -/

def isNull : Value → Bool
  | .null => true
  | _ => false

def isBoolean : Value → Bool
  | .boolean _ => true
  | _ => false

def isInteger : Value → Bool
  | .integer _ => true
  | _ => false

def isDecimal : Value → Bool
  | .decimal _ => true
  | _ => false

def isNumber (v : Value) : Bool := v.isInteger || v.isDecimal

def isString : Value → Bool
  | .string _ => true
  | _ => false

def isObject : Value → Bool
  | .object _ => true
  | _ => false

def isArray : Value → Bool
  | .array _ => true
  | _ => false

/-- `boolean()`, without the error it holds otherwise; the same for the other alternatives. -/
def boolean? : Value → Option Bool
  | .boolean b => some b
  | _ => none

def string? : Value → Option Bytes
  | .string s => some s
  | _ => none

def object? : Value → Option Object
  | .object ms => some ms
  | _ => none

def array? : Value → Option Array
  | .array vs => some vs
  | _ => none

def number? : Value → Option Decimal
  | .decimal d => some d
  | .integer i => some (Binary64.ofInt i.toInt)
  | _ => none

/-! ## Properties of all nodes -/

mutual

/-- `p` holds of the value and of every value inside it. -/
def Everywhere (p : Value → Prop) : Value → Prop
  | .array elems => p (.array elems) ∧ EverywhereElems p elems
  | .object members => p (.object members) ∧ EverywhereMembers p members
  | v => p v

def EverywhereElems (p : Value → Prop) : List Value → Prop
  | [] => True
  | v :: vs => Everywhere p v ∧ EverywhereElems p vs

def EverywhereMembers (p : Value → Prop) : List (Bytes × Value) → Prop
  | [] => True
  | (_, v) :: ms => Everywhere p v ∧ EverywhereMembers p ms

end

def DistinctKeys : Value → Prop
  | .object members => (members.map Prod.fst).Nodup
  | _ => True

/-- The keys of every object in the value are distinct. -/
def WellFormed : Value → Prop := Everywhere DistinctKeys

/-- No number in the value is a `Decimal`. -/
def NoDecimal : Value → Prop := Everywhere fun v => v.isDecimal = false

/-! ## Equality -/

mutual

/-- `operator==`. -/
def eq : Value → Value → Bool
  | .null, .null => true
  | .boolean b, .boolean c => b == c
  | .integer i, .integer j => i == j
  | .decimal d, .decimal e => d.eq e
  | .string s, .string t => s == t
  | .array vs, .array ws => eqElems vs ws
  | .object ms, .object ns => ms.length == ns.length && eqMembers ms ns
  | _, _ => false

def eqElems : List Value → List Value → Bool
  | [], [] => true
  | v :: vs, w :: ws => eq v w && eqElems vs ws
  | _, _ => false

/-- Every member of the first object is in the second, with an equal value. -/
def eqMembers : List (Bytes × Value) → Object → Bool
  | [], _ => true
  | (k, v) :: ms, ns =>
    (match Object.find k ns with
      | some w => eq v w
      | none => false) && eqMembers ms ns

end

/-- The same value with the members of its objects in some other order. -/
inductive Reordered : Value → Value → Prop
  | refl (v : Value) : Reordered v v
  | array {vs ws : List Value} : List.Forall₂ Reordered vs ws → Reordered (.array vs) (.array ws)
  | object {ms ms' ns : List (Bytes × Value)} : ms.Perm ms' →
      ms'.map Prod.fst = ns.map Prod.fst →
      List.Forall₂ Reordered (ms'.map Prod.snd) (ns.map Prod.snd) →
      Reordered (.object ms) (.object ns)

/-! ## Pointers -/

inductive PathStep where
  | key (k : Bytes)
  | index (i : Nat)
  deriving DecidableEq, Repr

abbrev Pointer := List PathStep

def child? : PathStep → Value → Option Value
  | .key k, .object ms => Object.find k ms
  | .index i, .array vs => vs[i]?
  | _, _ => none

def setChild : PathStep → Value → Value → Value
  | .key k, w, .object ms => .object (Object.assign k w ms)
  | .index i, w, .array vs => .array (vs.set i w)
  | _, _, v => v

/-- `*p`, or `none` when `p` points into nothing. -/
def deref? : Pointer → Value → Option Value
  | [], v => some v
  | s :: p, v => (child? s v).bind (deref? p)

/-- The root after `*p = w`. -/
def store : Pointer → Value → Value → Value
  | [], w, _ => w
  | s :: p, w, v =>
    match child? s v with
    | some c => setChild s (store p w c) v
    | none => v

/-! ## Lemmas -/

/-- Induction over a value with the hypothesis for every element and every member. -/
@[elab_as_elim, induction_eliminator]
theorem ind {motive : Value → Prop} (null : motive .null) (boolean : ∀ b, motive (.boolean b))
    (integer : ∀ i, motive (.integer i)) (decimal : ∀ d, motive (.decimal d))
    (string : ∀ s, motive (.string s))
    (array : ∀ elems, (∀ v ∈ elems, motive v) → motive (.array elems))
    (object : ∀ members, (∀ m ∈ members, motive m.2) → motive (.object members)) (v : Value) :
    motive v :=
  @Value.rec motive (fun vs => ∀ v ∈ vs, motive v) (fun ms => ∀ m ∈ ms, motive m.2)
    (fun m => motive m.2)
    null boolean integer decimal string array object
    (by simp) (fun _ _ h hs => List.forall_mem_cons.mpr ⟨h, hs⟩)
    (by simp) (fun _ _ h hs => List.forall_mem_cons.mpr ⟨h, hs⟩) (fun _ _ h => h) v

theorem everywhereElems_iff (p : Value → Prop) (vs : List Value) :
    EverywhereElems p vs ↔ ∀ v ∈ vs, Everywhere p v := by
  induction vs with
  | nil => simp [EverywhereElems]
  | cons v vs ih => simp [EverywhereElems, ih]

theorem everywhereMembers_iff (p : Value → Prop) (ms : List (Bytes × Value)) :
    EverywhereMembers p ms ↔ ∀ m ∈ ms, Everywhere p m.2 := by
  induction ms with
  | nil => simp [EverywhereMembers]
  | cons m ms ih => simp [EverywhereMembers, ih]

theorem everywhere_array (p : Value → Prop) (vs : List Value) :
    Everywhere p (.array vs) ↔ p (.array vs) ∧ ∀ v ∈ vs, Everywhere p v := by
  rw [Everywhere, everywhereElems_iff]

theorem everywhere_object (p : Value → Prop) (ms : List (Bytes × Value)) :
    Everywhere p (.object ms) ↔ p (.object ms) ∧ ∀ m ∈ ms, Everywhere p m.2 := by
  rw [Everywhere, everywhereMembers_iff]

end Value

namespace Object

theorem find_eq_none_iff (key : Bytes) (ms : Object) : find key ms = none ↔ key ∉ ms.map Prod.fst := by
  induction ms with
  | nil => simp [find]
  | cons m ms ih =>
    obtain ⟨k, v⟩ := m
    by_cases h : k = key
    · simp [find, h]
    · simp [find, h, ih, Ne.symm h]

theorem contains_iff (key : Bytes) (ms : Object) : contains key ms = true ↔ key ∈ ms.map Prod.fst := by
  rw [contains, Option.isSome_iff_ne_none, ne_eq, find_eq_none_iff, not_not]

theorem find_append_of_notMem {key : Bytes} {ms : Object} (h : key ∉ ms.map Prod.fst) (ns : Object) :
    find key (ms ++ ns) = find key ns := by
  induction ms with
  | nil => rfl
  | cons m ms ih =>
    obtain ⟨k, v⟩ := m
    simp only [List.map_cons, List.mem_cons, not_or] at h
    simp only [List.cons_append, find, Ne.symm h.1, if_false]
    exact ih h.2

theorem assign_append_of_notMem {key : Bytes} {ms : Object} (h : key ∉ ms.map Prod.fst) (v : Value)
    (ns : Object) : assign key v (ms ++ ns) = ms ++ assign key v ns := by
  induction ms with
  | nil => rfl
  | cons m ms ih =>
    obtain ⟨k, w⟩ := m
    simp only [List.map_cons, List.mem_cons, not_or] at h
    simp only [List.cons_append, assign, Ne.symm h.1, if_false]
    rw [ih h.2]

theorem find_assign_self (key : Bytes) (v : Value) (ms : Object) : find key (assign key v ms) = some v := by
  induction ms with
  | nil => simp [assign, find]
  | cons m ms ih =>
    obtain ⟨k, w⟩ := m
    by_cases h : k = key
    · simp [assign, find, h]
    · simp [assign, find, h, ih]

theorem find_assign_of_ne {key k : Bytes} (h : key ≠ k) (v : Value) (ms : Object) :
    find k (assign key v ms) = find k ms := by
  induction ms with
  | nil => simp [assign, find, h]
  | cons m ms ih =>
    obtain ⟨k', w⟩ := m
    by_cases hk : k' = key
    · subst hk
      simp [assign, find, h]
    · simp only [assign, hk, if_false, find, ih]

theorem contains_assign {k : Bytes} {ms : Object} (h : contains k ms = true) (key : Bytes) (v : Value) :
    contains k (assign key v ms) = true := by
  by_cases hk : key = k
  · rw [hk, contains, find_assign_self, Option.isSome_some]
  · rw [contains, find_assign_of_ne hk]
    exact h

theorem assign_of_find {key : Bytes} {v : Value} {ms : Object} (h : find key ms = some v) :
    assign key v ms = ms := by
  induction ms with
  | nil => cases h
  | cons m ms ih =>
    rw [find] at h
    rw [assign]
    split
    · next hk =>
      rw [if_pos hk] at h
      cases h
      rfl
    · next hk =>
      rw [if_neg hk] at h
      rw [ih h]

theorem assign_assign (key : Bytes) (v w : Value) (ms : Object) :
    assign key w (assign key v ms) = assign key w ms := by
  induction ms with
  | nil => simp [assign]
  | cons m ms ih =>
    obtain ⟨k, u⟩ := m
    by_cases h : k = key
    · simp [assign, h]
    · simp [assign, h, ih]

theorem find_of_mem {key : Bytes} {v : Value} {ms : Object} (hd : (ms.map Prod.fst).Nodup)
    (h : (key, v) ∈ ms) : find key ms = some v := by
  induction ms with
  | nil => simp at h
  | cons m ms ih =>
    obtain ⟨k, w⟩ := m
    rw [List.map_cons, List.nodup_cons] at hd
    rcases List.mem_cons.mp h with h | h
    · simp only [Prod.mk.injEq] at h
      simp [find, h.1, h.2]
    · have hk : k ≠ key := by
        rintro rfl
        exact hd.1 (List.mem_map.mpr ⟨_, h, rfl⟩)
      simp only [find, hk, if_false]
      exact ih hd.2 h

theorem mem_of_find {key : Bytes} {v : Value} {ms : Object} (h : find key ms = some v) :
    (key, v) ∈ ms := by
  induction ms with
  | nil => cases h
  | cons m ms ih =>
    obtain ⟨k, w⟩ := m
    rw [find] at h
    split at h
    · next hk =>
      cases h
      rw [hk]
      exact List.mem_cons_self
    · exact List.mem_cons_of_mem _ (ih h)

theorem mem_assign {key : Bytes} {v : Value} {json : Object} {m : Bytes × Value}
    (h : m ∈ assign key v json) : m = (key, v) ∨ m ∈ json := by
  induction json with
  | nil => exact .inl (List.mem_singleton.mp h)
  | cons n json ih =>
    obtain ⟨k, w⟩ := n
    rw [assign] at h
    split at h
    · next hk =>
      subst hk
      rcases List.mem_cons.mp h with h | h
      · exact .inl h
      · exact .inr (List.mem_cons_of_mem _ h)
    · rcases List.mem_cons.mp h with h | h
      · exact .inr (by rw [h]; exact List.mem_cons_self)
      · rcases ih h with h | h
        · exact .inl h
        · exact .inr (List.mem_cons_of_mem _ h)

theorem nodup_assign {key : Bytes} {v : Value} {json : Object} (h : (json.map Prod.fst).Nodup) :
    ((assign key v json).map Prod.fst).Nodup := by
  induction json with
  | nil => simp [assign]
  | cons n json ih =>
    obtain ⟨k, w⟩ := n
    rw [List.map_cons, List.nodup_cons] at h
    rw [assign]
    split
    · next hk => exact List.nodup_cons.mpr ⟨h.1, h.2⟩
    · next hk =>
      rw [List.map_cons, List.nodup_cons]
      refine ⟨?_, ih h.2⟩
      intro hmem
      obtain ⟨m, hm, heq⟩ := List.mem_map.mp hmem
      rcases mem_assign hm with rfl | hm
      · exact hk heq.symm
      · exact h.1 (List.mem_map.mpr ⟨m, hm, heq⟩)

end Object

namespace Value

theorem deref?_append (p q : Pointer) (v : Value) :
    deref? (p ++ q) v = (deref? p v).bind (deref? q) := by
  induction p generalizing v with
  | nil => rfl
  | cons s p ih =>
    simp only [List.cons_append, deref?]
    cases child? s v with
    | none => rfl
    | some c => exact ih c

theorem child?_setChild {s : PathStep} {v c : Value} (h : child? s v = some c) (w : Value) :
    child? s (setChild s w v) = some w := by
  cases s with
  | key k =>
    cases v <;> simp_all [child?, setChild, Object.find_assign_self]
  | index i =>
    cases v <;> simp_all [child?, setChild]
    exact List.getElem?_set_self (List.getElem?_eq_some_iff.mp h).1

theorem setChild_setChild {s : PathStep} {v c : Value} (h : child? s v = some c) (w w' : Value) :
    setChild s w' (setChild s w v) = setChild s w' v := by
  cases s with
  | key k => cases v <;> simp_all [child?, setChild, Object.assign_assign]
  | index i => cases v <;> simp_all [child?, setChild]

/-- What was stored through a pointer is read back through it. -/
theorem deref?_store {p : Pointer} {v x : Value} (h : deref? p v = some x) (w : Value) :
    deref? p (store p w v) = some w := by
  induction p generalizing v with
  | nil => rfl
  | cons s p ih =>
    obtain ⟨c, hc, hx⟩ := Option.bind_eq_some_iff.mp h
    simp only [store, hc, deref?, child?_setChild hc, Option.bind_some]
    exact ih hx

/-- The last store through a pointer wins. -/
theorem store_store {p : Pointer} {v x : Value} (h : deref? p v = some x) (w w' : Value) :
    store p w' (store p w v) = store p w' v := by
  induction p generalizing v with
  | nil => rfl
  | cons s p ih =>
    obtain ⟨c, hc, hx⟩ := Option.bind_eq_some_iff.mp h
    simp only [store, hc, child?_setChild hc, ih hx, setChild_setChild hc]

/-- A store through a longer pointer changes the target of the shorter one. -/
theorem store_append {p : Pointer} {v x : Value} (h : deref? p v = some x) (q : Pointer) (w : Value) :
    store (p ++ q) w v = store p (store q w x) v := by
  induction p generalizing v with
  | nil =>
    simp only [deref?, Option.some.injEq] at h
    simp [store, h]
  | cons s p ih =>
    obtain ⟨c, hc, hx⟩ := Option.bind_eq_some_iff.mp h
    simp only [List.cons_append, store, hc, ih hx]

/-! ## Reordering -/

theorem forall₂_pairs {α β : Type} {R : β → β → Prop} {ms ns : List (α × β)}
    (hk : ms.map Prod.fst = ns.map Prod.fst) (hv : List.Forall₂ R (ms.map Prod.snd) (ns.map Prod.snd)) :
    List.Forall₂ (fun m n => m.1 = n.1 ∧ R m.2 n.2) ms ns := by
  induction ms generalizing ns with
  | nil =>
    cases ns with
    | nil => exact .nil
    | cons n ns => cases hk
  | cons m ms ih =>
    cases ns with
    | nil => cases hk
    | cons n ns =>
      rw [List.map_cons, List.map_cons, List.cons.injEq] at hk
      cases hv with
      | cons h hv => exact .cons ⟨hk.1, h⟩ (ih hk.2 hv)

theorem exists_right_of_mem {α β : Type} {R : α → β → Prop} {l : List α} {l' : List β}
    (h : List.Forall₂ R l l') {a : α} (ha : a ∈ l) : ∃ b ∈ l', R a b := by
  induction h with
  | nil => simp at ha
  | cons hab _ ih =>
    rcases List.mem_cons.mp ha with rfl | ha
    · exact ⟨_, List.mem_cons_self, hab⟩
    · obtain ⟨b, hb, hr⟩ := ih ha
      exact ⟨b, List.mem_cons_of_mem _ hb, hr⟩

theorem exists_left_of_mem {α β : Type} {R : α → β → Prop} {l : List α} {l' : List β}
    (h : List.Forall₂ R l l') {b : β} (hb : b ∈ l') : ∃ a ∈ l, R a b :=
  exists_right_of_mem (List.Forall₂.flip (R := flip R) h) hb

theorem reordered_array_iff {vs : List Value} {w : Value} :
    Reordered (.array vs) w ↔ ∃ ws, w = .array ws ∧ List.Forall₂ Reordered vs ws := by
  constructor
  · intro h
    cases h with
    | refl => exact ⟨vs, rfl, List.forall₂_same.mpr fun v _ => .refl v⟩
    | array h => exact ⟨_, rfl, h⟩
  · rintro ⟨ws, rfl, h⟩
    exact .array h

theorem Reordered.isNull_eq {v w : Value} (h : Reordered v w) : v.isNull = w.isNull := by
  cases h <;> rfl

/-- A property of nodes that reordering keeps is kept at every node. -/
theorem Reordered.everywhere {p : Value → Prop} (hp : ∀ v w, Reordered v w → p v → p w) {v w : Value}
    (h : Reordered v w) (hv : Everywhere p v) : Everywhere p w := by
  induction v generalizing w with
  | array vs ih =>
    rw [everywhere_array] at hv
    have hw := hp _ w h hv.1
    cases h with
    | refl => exact (everywhere_array _ _).2 hv
    | array hvs =>
      refine (everywhere_array _ _).2 ⟨hw, ?_⟩
      intro u hu
      obtain ⟨v, hmem, hr⟩ := exists_left_of_mem hvs hu
      exact ih v hmem hr (hv.2 v hmem)
  | object ms ih =>
    rw [everywhere_object] at hv
    have hw := hp _ w h hv.1
    cases h with
    | refl => exact (everywhere_object _ _).2 hv
    | object hperm hk hvs =>
      refine (everywhere_object _ _).2 ⟨hw, ?_⟩
      intro u hu
      obtain ⟨m, hmem, -, hr⟩ := exists_left_of_mem (forall₂_pairs hk hvs) hu
      have hm := hperm.mem_iff.mpr hmem
      exact ih m hm hr (hv.2 m hm)
  | _ =>
    cases h
    exact hv

theorem Reordered.wellFormed {v w : Value} (h : Reordered v w) : v.WellFormed → w.WellFormed := by
  refine h.everywhere ?_
  intro v w hr hd
  cases hr with
  | refl => exact hd
  | array _ => trivial
  | object hperm hk _ =>
    have hd' := (hperm.map Prod.fst).nodup_iff.mp hd
    rwa [hk] at hd'

/-- The members of a reordered object are found under the same keys. -/
theorem Reordered.find_some {ms ns : List (Bytes × Value)} (h : Reordered (.object ms) (.object ns))
    (hd : (ms.map Prod.fst).Nodup) {key : Bytes} {v : Value} (hf : Object.find key ms = some v) :
    ∃ w, Object.find key ns = some w ∧ Reordered v w := by
  cases h with
  | refl => exact ⟨v, hf, .refl v⟩
  | @object _ ms' _ hperm hk hvs =>
    have hmem := hperm.mem_iff.mp (Object.mem_of_find hf)
    obtain ⟨⟨k, w⟩, hw, hkey, hr⟩ := exists_right_of_mem (forall₂_pairs hk hvs) hmem
    obtain rfl : key = k := hkey
    have hd' : (ns.map Prod.fst).Nodup := by
      rw [← hk]
      exact (hperm.map Prod.fst).nodup_iff.mp hd
    exact ⟨w, Object.find_of_mem hd' hw, hr⟩

theorem Reordered.find_none {ms ns : List (Bytes × Value)} (h : Reordered (.object ms) (.object ns))
    {key : Bytes} (hf : Object.find key ms = none) : Object.find key ns = none := by
  cases h with
  | refl => exact hf
  | object hperm hk _ =>
    rw [Object.find_eq_none_iff] at hf ⊢
    rwa [← hk, ← (hperm.map Prod.fst).mem_iff]

theorem Reordered.noDecimal {v w : Value} (h : Reordered v w) : v.NoDecimal → w.NoDecimal := by
  refine h.everywhere ?_
  intro v w hr hd
  cases hr with
  | refl => exact hd
  | array _ => rfl
  | object _ _ _ => rfl

theorem eqElems_of_forall₂ {vs ws : List Value} (h : List.Forall₂ (fun v w => v.eq w = true) vs ws) :
    eqElems vs ws = true := by
  induction h with
  | nil => rfl
  | cons h _ ih => rw [eqElems, h, ih, Bool.and_self]

theorem eqMembers_of_forall {ms : List (Bytes × Value)} {ns : Object}
    (h : ∀ m ∈ ms, ∃ w, Object.find m.1 ns = some w ∧ m.2.eq w = true) : eqMembers ms ns = true := by
  induction ms with
  | nil => rfl
  | cons m ms ih =>
    obtain ⟨w, hf, he⟩ := h m List.mem_cons_self
    simp only [eqMembers, hf, he, Bool.true_and]
    exact ih fun m hm => h m (List.mem_cons_of_mem _ hm)

/-- **Values that differ in the order of their members are equal**, unless a NaN is in them. -/
theorem Reordered.eq {v w : Value} (h : Reordered v w) (hw : v.WellFormed) (hd : v.NoDecimal) :
    v.eq w = true := by
  induction v generalizing w with
  | null =>
    cases h
    rfl
  | boolean b =>
    cases h
    simp [Value.eq]
  | integer i =>
    cases h
    simp [Value.eq]
  | decimal d => simp [NoDecimal, Everywhere, isDecimal] at hd
  | string s =>
    cases h
    simp [Value.eq]
  | array vs ih =>
    rw [WellFormed, everywhere_array] at hw
    rw [NoDecimal, everywhere_array] at hd
    have hself : ∀ v ∈ vs, ∀ w, Reordered v w → v.eq w = true := fun v hv w hr =>
      ih v hv hr (hw.2 v hv) (hd.2 v hv)
    cases h with
    | refl =>
      rw [Value.eq]
      exact eqElems_of_forall₂ (List.forall₂_same.mpr fun v hv => hself v hv v (.refl v))
    | array hvs =>
      rw [Value.eq]
      refine eqElems_of_forall₂ ?_
      have := (List.forall₂_and_left vs _).mpr ⟨fun v hv => hself v hv, hvs⟩
      exact this.imp fun v w h => h.1 w h.2
  | object ms ih =>
    have hwf := hw
    rw [WellFormed, everywhere_object] at hw
    rw [NoDecimal, everywhere_object] at hd
    have hself : ∀ m ∈ ms, ∀ w, Reordered m.2 w → m.2.eq w = true := fun m hm w hr =>
      ih m hm hr (hw.2 m hm) (hd.2 m hm)
    have hwf' := h.wellFormed hwf
    cases h with
    | refl =>
      simp only [Value.eq, beq_self_eq_true, Bool.true_and]
      exact eqMembers_of_forall fun m hm =>
        ⟨m.2, Object.find_of_mem hw.1 hm, hself m hm m.2 (.refl m.2)⟩
    | @object _ ms' ns hperm hk hvs =>
      rw [WellFormed, everywhere_object] at hwf'
      have hlen : ms.length = ns.length := by
        rw [hperm.length_eq, ← List.length_map (f := Prod.fst), hk, List.length_map]
      simp only [Value.eq, hlen, beq_self_eq_true, Bool.true_and]
      refine eqMembers_of_forall ?_
      intro m hm
      obtain ⟨⟨k, w⟩, hmem, hkey, hr⟩ :=
        exists_right_of_mem (forall₂_pairs hk hvs) (hperm.mem_iff.mp hm)
      exact ⟨w, hkey ▸ Object.find_of_mem hwf'.1 hmem, hself m hm w hr⟩

end Value

end Lsp.Json
