import LspFramework.Json.Soundness
import LspFramework.Json.Conformance.Strings
import LspFramework.Json.Conformance.Numbers

/-!
# Which texts of RFC 8259 the parser accepts

A text with distinct keys and representable numbers is accepted exactly when no number in it has a
plus sign in its exponent or rounds up to the least normal `double`:

    (∃ v, parse text = .ok v) ↔
      ∀ n ∈ j.numbers, ¬ n.ExplicitPlus ∧ ¬ RoundsUpToNormal n.num n.den      (parse_rfc_iff)

By induction on the text: without such a number it is in the grammar of the parser, with one the
parser leaves there.
-/

namespace Lsp.Json

open Chars Loop
open Binary64 (RoundsUpToNormal)
open Rfc8259 (ValueText ElementsText MembersText StringText Number)

/-! ## White space and heads -/

theorem Separator.append_rfc {first : Bool} {s w : Bytes} (h : Separator first s) (hw : Rfc8259.Ws w) :
    Separator first (s ++ w) :=
  h.append_ws (ws_of_rfc hw)

/-- White space and a comma behind an element stand before the next one. -/
theorem separator_after {w : Bytes} (hw : Rfc8259.Ws w) : Separator false (w ++ [chr ',']) :=
  .comma (ws_of_rfc hw) (by decide)

theorem follows_after {w : Bytes} (hw : Rfc8259.Ws w) {c : UInt8} (hc : isNumberChar c = false) (s : Bytes) :
    Follows (w ++ c :: s) :=
  follows_ws_append (ws_of_rfc hw) hc s

theorem valueText_head {t : Bytes} {j : Rfc8259.Json} (h : ValueText t j) (r : Bytes) :
    ∃ c s, t ++ r = c :: s ∧ isspace c = false ∧ c ≠ chr ']' := by
  cases h with
  | null => exact ⟨_, _, rfl, by decide⟩
  | true_ => exact ⟨_, _, rfl, by decide⟩
  | false_ => exact ⟨_, _, rfl, by decide⟩
  | number n =>
    obtain ⟨c, s, heq, hc⟩ := number_head n (Number.fracText n.frac ++ Number.expText n.exp ++ r)
    obtain ⟨h₁, -, -, h₂⟩ := numberHead_facts c hc
    refine ⟨c, s, ?_, h₁, h₂⟩
    rw [text_eq, ← heq]
    simp only [List.append_assoc]
  | string hs =>
    obtain ⟨body, -, rfl⟩ := hs
    exact ⟨_, _, rfl, by decide⟩
  | emptyArray _ => exact ⟨_, _, rfl, by decide⟩
  | array _ => exact ⟨_, _, rfl, by decide⟩
  | emptyObject _ => exact ⟨_, _, rfl, by decide⟩
  | object _ => exact ⟨_, _, rfl, by decide⟩

/-! ## What the parser does on each part of a text -/

/-- Any way to leave without a value. -/
def Leaves (_ : Exit) : Prop := True

/-- No plus sign, and no number at which `std::stod` throws. -/
def AllPlain (ns : List Number) : Prop :=
  ∀ n ∈ ns, ¬ n.ExplicitPlus ∧ ¬ RoundsUpToNormal n.num n.den

def AllRepresentable (ns : List Number) : Prop := ∀ n ∈ ns, Representable n

theorem allPlain_append {ns ms : List Number} : AllPlain (ns ++ ms) ↔ AllPlain ns ∧ AllPlain ms :=
  List.forall_mem_append

theorem allRepresentable_append {ns ms : List Number} :
    AllRepresentable (ns ++ ms) ↔ AllRepresentable ns ∧ AllRepresentable ms :=
  List.forall_mem_append

def ReadsText (t : Bytes) (j : Rfc8259.Json) : Prop :=
  j.DistinctKeys → AllRepresentable j.numbers →
    (AllPlain j.numbers → ∃ v, Derives t v) ∧
    (¬ AllPlain j.numbers → ∀ r, Follows r → LeavesAt Leaves (t ++ r))

/-- Elements up to the closing bracket, behind a separator. -/
def ReadsElementsText (t : Bytes) (js : List Rfc8259.Json) : Prop :=
  Rfc8259.Json.DistinctKeysElements js → AllRepresentable (Rfc8259.Json.numbersElements js) →
    ∀ (first : Bool) (s : Bytes), Separator first s →
      (AllPlain (Rfc8259.Json.numbersElements js) → ∃ vs, Elements first (s ++ t ++ [chr ']']) vs) ∧
      (¬ AllPlain (Rfc8259.Json.numbersElements js) →
        ∀ r, LeavesInElements Leaves first (s ++ t ++ chr ']' :: r))

/-- Members up to the closing bracket, behind members with other keys. -/
def ReadsMembersText (t : Bytes) (ms : List (List Nat × Rfc8259.Json)) : Prop :=
  Rfc8259.Json.DistinctKeysMembers ms → AllRepresentable (Rfc8259.Json.numbersMembers ms) →
    ∀ (first : Bool) (s : Bytes), Separator first s →
      (AllPlain (Rfc8259.Json.numbersMembers ms) → ∃ ns, Members first (s ++ t ++ [chr '}']) ns ∧
        List.Forall₂ Reads (ms.map Prod.fst) (ns.map Prod.fst)) ∧
      (¬ AllPlain (Rfc8259.Json.numbersMembers ms) →
        ∀ (uss : List (List Nat)) (keys : List Bytes) (r : Bytes), List.Forall₂ Reads uss keys →
          (uss ++ ms.map Prod.fst).Nodup → LeavesInMembers Leaves first keys (s ++ t ++ chr '}' :: r))

/-- Different code units, different keys. -/
theorem notMem_of_reads {us : List Nat} {uss : List (List Nat)} {key : Bytes} {keys : List Bytes}
    (h : Reads us key) (hs : List.Forall₂ Reads uss keys) (hnew : us ∉ uss) : key ∉ keys := by
  induction hs with
  | nil => exact List.not_mem_nil
  | cons h' _ ih =>
    intro hmem
    rcases List.mem_cons.mp hmem with rfl | hmem
    · exact hnew (by rw [h.unique h']; exact List.mem_cons_self)
    · exact ih (fun hu => hnew (List.mem_cons_of_mem _ hu)) hmem

theorem nodup_of_reads {uss : List (List Nat)} {keys : List Bytes} (hs : List.Forall₂ Reads uss keys)
    (h : uss.Nodup) : keys.Nodup := by
  induction hs with
  | nil => exact List.nodup_nil
  | cons h' hs ih =>
    obtain ⟨hnew, hnd⟩ := List.nodup_cons.mp h
    exact List.nodup_cons.mpr ⟨notMem_of_reads h' hs hnew, ih hnd⟩

/-! ## One lemma for each rule of the grammar -/

theorem readsText_scalar {t : Bytes} {j : Rfc8259.Json} {v : Value} (hj : j.numbers = []) (h : Scalar t v) :
    ReadsText t j := by
  intro _ _
  refine ⟨fun _ => ⟨v, .scalar h⟩, fun hp => absurd ?_ hp⟩
  rw [hj]
  exact nofun

/-- The parser leaves at a run of number characters without a value. -/
theorem leaves_run {t r : Bytes} (hhead : ∃ c s, t = c :: s ∧ (isdigit c || c == chr '-') = true)
    (hchars : ∀ c ∈ t, isNumberChar c = true) (hr : Follows r) (hval : ∀ v, numberValue t ≠ some (.ok v)) :
    LeavesAt Leaves (t ++ r) := by
  refine leaves_number ?_ fun k => ?_
  · obtain ⟨c, t, rfl, hc⟩ := hhead
    exact ⟨c, _, rfl, hc⟩
  · rw [parseSimpleValue_run hhead hchars hr]
    cases hv : numberValue t with
    | none => exact ⟨_, trivial, rfl⟩
    | some x =>
      cases x with
      | ok v => exact absurd hv (hval v)
      | error e => exact ⟨_, trivial, rfl⟩

theorem readsText_number (n : Number) : ReadsText n.text (.number n) := by
  intro _ hr
  have hn : n ∈ (Rfc8259.Json.number n).numbers := List.mem_singleton_self n
  constructor
  · intro hp
    obtain ⟨v, hv⟩ := numberToken_of_number (hr n hn) (hp n hn).1 (hp n hn).2
    exact ⟨v, .scalar (.number hv)⟩
  · intro hp r hfollow
    by_cases hplus : n.ExplicitPlus
    · obtain ⟨t, s, htext, hhead, hchars, hval⟩ := number_cut hplus
      have hfollow : Follows (chr '+' :: (s ++ r)) := by
        intro d hd
        cases hd
        decide
      rw [htext, List.append_assoc, List.cons_append]
      exact leaves_run hhead hchars hfollow hval
    · have hup : RoundsUpToNormal n.num n.den := by
        by_contra hno
        refine hp fun m hm => ?_
        rw [List.mem_singleton.mp hm]
        exact ⟨hplus, hno⟩
      refine leaves_run (text_head n) (text_chars hplus) hfollow fun v hv => ?_
      rw [numberValue_roundsUp (hr n hn) hup] at hv
      cases hv

theorem readsText_string {t : Bytes} {us : List Nat} (h : StringText t us) : ReadsText t (.string us) := by
  obtain ⟨s, hs, -⟩ := stringToken_of_stringText h
  exact readsText_scalar rfl (.string hs)

theorem readsText_emptyArray {w : Bytes} (hw : Rfc8259.Ws w) :
    ReadsText (chr '[' :: w ++ [chr ']']) (.array []) := by
  intro _ _
  exact ⟨fun _ => ⟨_, .array (.close (ws_of_rfc hw))⟩, fun hp => absurd nofun hp⟩

theorem readsText_emptyObject {w : Bytes} (hw : Rfc8259.Ws w) :
    ReadsText (chr '{' :: w ++ [chr '}']) (.object []) := by
  intro _ _
  exact ⟨fun _ => ⟨_, .object (.close (ws_of_rfc hw)) List.nodup_nil⟩, fun hp => absurd nofun hp⟩

theorem separator_nil : Separator true [] := .first (by decide)

theorem readsText_array {t : Bytes} {js : List Rfc8259.Json} (h : ReadsElementsText t js) :
    ReadsText (chr '[' :: t ++ [chr ']']) (.array js) := by
  intro hk hr
  obtain ⟨h₁, h₂⟩ := h hk hr true [] separator_nil
  constructor
  · intro hp
    obtain ⟨vs, hvs⟩ := h₁ hp
    exact ⟨_, .array hvs⟩
  · intro hp r _
    have := leaves_array (h₂ hp r)
    simpa using this

theorem readsText_object {t : Bytes} {ms : List (List Nat × Rfc8259.Json)} (h : ReadsMembersText t ms) :
    ReadsText (chr '{' :: t ++ [chr '}']) (.object ms) := by
  intro hk hr
  obtain ⟨h₁, h₂⟩ := h hk.2 hr true [] separator_nil
  constructor
  · intro hp
    obtain ⟨ns, hns, hkeys⟩ := h₁ hp
    exact ⟨_, .object hns (nodup_of_reads hkeys hk.1)⟩
  · intro hp r _
    have := leaves_object (h₂ hp [] [] r .nil hk.1)
    simpa using this

theorem readsElements_last {w t w' : Bytes} {j : Rfc8259.Json} (hw : Rfc8259.Ws w) (ht : ValueText t j)
    (hw' : Rfc8259.Ws w') (ih : ReadsText t j) : ReadsElementsText (w ++ t ++ w') [j] := by
  intro hk hr first s hs
  have hnum : Rfc8259.Json.numbersElements [j] = j.numbers := List.append_nil _
  rw [hnum] at hr ⊢
  obtain ⟨h₁, h₂⟩ := ih hk.1 hr
  constructor
  · intro hp
    obtain ⟨v, hv⟩ := h₁ hp
    have := Elements.item (hs.append_rfc hw) hv (.close (ws_of_rfc hw'))
    exact ⟨[v], by simpa only [List.append_assoc] using this⟩
  · intro hp r
    have := leaves_elements_here (hs.append_rfc hw) (valueText_head ht _)
      (h₂ hp _ (follows_after (c := chr ']') hw' (by decide) r))
    simpa only [List.append_assoc] using this

theorem readsElements_more {w t w' t' : Bytes} {j : Rfc8259.Json} {js : List Rfc8259.Json}
    (hw : Rfc8259.Ws w) (ht : ValueText t j) (hw' : Rfc8259.Ws w') (ih : ReadsText t j)
    (ih' : ReadsElementsText t' js) : ReadsElementsText (w ++ t ++ w' ++ chr ',' :: t') (j :: js) := by
  intro hk hr first s hs
  rw [Rfc8259.Json.numbersElements, allRepresentable_append] at hr
  rw [Rfc8259.Json.numbersElements, allPlain_append]
  obtain ⟨h₁, h₂⟩ := ih hk.1 hr.1
  obtain ⟨h₃, h₄⟩ := ih' hk.2 hr.2 false _ (separator_after hw')
  constructor
  · intro hp
    obtain ⟨v, hv⟩ := h₁ hp.1
    obtain ⟨vs, hvs⟩ := h₃ hp.2
    have := Elements.item (hs.append_rfc hw) hv hvs
    exact ⟨v :: vs, by simpa only [List.append_assoc, List.cons_append, List.nil_append] using this⟩
  · intro hp r
    by_cases hhere : AllPlain j.numbers
    · obtain ⟨v, hv⟩ := h₁ hhere
      have hlater := h₄ (fun h => hp ⟨hhere, h⟩) r
      have hfollow : Follows (w' ++ [chr ','] ++ t' ++ chr ']' :: r) := by
        simp only [List.append_assoc, List.cons_append, List.nil_append]
        exact follows_after hw' (by decide) _
      have := leaves_elements_later (hs.append_rfc hw) hv hfollow hlater
      simpa only [List.append_assoc, List.cons_append, List.nil_append] using this
    · have := leaves_elements_here (hs.append_rfc hw) (valueText_head ht _)
        (h₂ hhere _ (follows_after (c := chr ',') hw' (by decide) (t' ++ chr ']' :: r)))
      simpa only [List.append_assoc, List.cons_append] using this

theorem readsMembers_last {w k w₁ w₂ t w' : Bytes} {us : List Nat} {j : Rfc8259.Json} (hw : Rfc8259.Ws w)
    (hk : StringText k us) (hw₁ : Rfc8259.Ws w₁) (hw₂ : Rfc8259.Ws w₂) (hw' : Rfc8259.Ws w')
    (ih : ReadsText t j) : ReadsMembersText (w ++ k ++ w₁ ++ chr ':' :: w₂ ++ t ++ w') [(us, j)] := by
  intro hd hr first s hs
  have hnum : Rfc8259.Json.numbersMembers [(us, j)] = j.numbers := List.append_nil _
  rw [hnum] at hr ⊢
  obtain ⟨key, hkey, hreads⟩ := stringToken_of_stringText hk
  obtain ⟨h₁, h₂⟩ := ih hd.1 hr
  constructor
  · intro hp
    obtain ⟨v, hv⟩ := h₁ hp
    have := Members.item (hs.append_rfc hw) hkey (ws_of_rfc hw₁) (ws_of_rfc hw₂) hv (.close (ws_of_rfc hw'))
    exact ⟨[(key, v)], by simpa only [List.append_assoc, List.cons_append] using this, .cons hreads .nil⟩
  · intro hp uss keys r huss hnd
    have hnew : key ∉ keys := by
      rw [List.nodup_append] at hnd
      exact notMem_of_reads hreads huss fun hu => hnd.2.2 us hu us List.mem_cons_self rfl
    have := leaves_members_here (hs.append_rfc hw) hkey hnew (ws_of_rfc hw₁) (ws_of_rfc hw₂)
      (h₂ hp _ (follows_after (c := chr '}') hw' (by decide) r))
    simpa only [List.append_assoc, List.cons_append] using this

theorem readsMembers_more {w k w₁ w₂ t w' t' : Bytes} {us : List Nat} {j : Rfc8259.Json}
    {ms : List (List Nat × Rfc8259.Json)} (hw : Rfc8259.Ws w) (hk : StringText k us) (hw₁ : Rfc8259.Ws w₁)
    (hw₂ : Rfc8259.Ws w₂) (hw' : Rfc8259.Ws w') (ih : ReadsText t j) (ih' : ReadsMembersText t' ms) :
    ReadsMembersText (w ++ k ++ w₁ ++ chr ':' :: w₂ ++ t ++ w' ++ chr ',' :: t') ((us, j) :: ms) := by
  intro hd hr first s hs
  rw [Rfc8259.Json.numbersMembers, allRepresentable_append] at hr
  rw [Rfc8259.Json.numbersMembers, allPlain_append]
  obtain ⟨key, hkey, hreads⟩ := stringToken_of_stringText hk
  obtain ⟨h₁, h₂⟩ := ih hd.1 hr.1
  obtain ⟨h₃, h₄⟩ := ih' hd.2 hr.2 false _ (separator_after hw')
  constructor
  · intro hp
    obtain ⟨v, hv⟩ := h₁ hp.1
    obtain ⟨ns, hns, hkeys⟩ := h₃ hp.2
    have := Members.item (hs.append_rfc hw) hkey (ws_of_rfc hw₁) (ws_of_rfc hw₂) hv hns
    refine ⟨(key, v) :: ns, ?_, .cons hreads hkeys⟩
    simpa only [List.append_assoc, List.cons_append, List.nil_append] using this
  · intro hp uss keys r huss hnd
    have hnew : key ∉ keys := by
      rw [List.nodup_append] at hnd
      exact notMem_of_reads hreads huss fun hu => hnd.2.2 us hu us List.mem_cons_self rfl
    by_cases hhere : AllPlain j.numbers
    · obtain ⟨v, hv⟩ := h₁ hhere
      have hkeys : List.Forall₂ Reads (uss ++ [us]) (keys ++ [key]) :=
        List.rel_append huss (.cons hreads .nil)
      have hlater := h₄ (fun h => hp ⟨hhere, h⟩) (uss ++ [us]) (keys ++ [key]) r hkeys (by simpa using hnd)
      have hfollow : Follows (w' ++ [chr ','] ++ t' ++ chr '}' :: r) := by
        simp only [List.append_assoc, List.cons_append, List.nil_append]
        exact follows_after hw' (by decide) _
      have := leaves_members_later (hs.append_rfc hw) hkey hnew (ws_of_rfc hw₁) (ws_of_rfc hw₂) hv hfollow hlater
      simpa only [List.append_assoc, List.cons_append, List.nil_append] using this
    · have := leaves_members_here (hs.append_rfc hw) hkey hnew (ws_of_rfc hw₁) (ws_of_rfc hw₂)
        (h₂ hhere _ (follows_after (c := chr ',') hw' (by decide) (t' ++ chr '}' :: r)))
      simpa only [List.append_assoc, List.cons_append] using this

theorem readsText {t : Bytes} {j : Rfc8259.Json} (h : ValueText t j) : ReadsText t j :=
  @ValueText.rec (fun t j _ => ReadsText t j) (fun t js _ => ReadsElementsText t js)
    (fun t ms _ => ReadsMembersText t ms)
    (readsText_scalar rfl .null)
    (readsText_scalar rfl .true_)
    (readsText_scalar rfl .false_)
    readsText_number
    (fun hs => readsText_string hs)
    (fun hw => readsText_emptyArray hw)
    (fun _ ih => readsText_array ih)
    (fun hw => readsText_emptyObject hw)
    (fun _ ih => readsText_object ih)
    (fun hw ht hw' ih => readsElements_last hw ht hw' ih)
    (fun hw ht hw' _ ih ih' => readsElements_more hw ht hw' ih ih')
    (fun hw hk hw₁ hw₂ _ hw' ih => readsMembers_last hw hk hw₁ hw₂ hw' ih)
    (fun hw hk hw₁ hw₂ _ hw' _ ih ih' => readsMembers_more hw hk hw₁ hw₂ hw' ih ih') t j h

/-! ## Whole texts -/

/-- **The texts of the RFC that are accepted**: those without an explicit plus sign and without a number
that rounds up to the least normal `double`. -/
theorem parse_rfc_iff {text : Bytes} {j : Rfc8259.Json} (h : Rfc8259.Text text j) (hk : j.DistinctKeys)
    (hr : ∀ n ∈ j.numbers, Representable n) :
    (∃ v, parse text = .ok v) ↔
      ∀ n ∈ j.numbers, ¬ n.ExplicitPlus ∧ ¬ RoundsUpToNormal n.num n.den := by
  obtain ⟨w, t, w', hw, ht, hw', rfl⟩ := h
  obtain ⟨hplain, hleaves⟩ := readsText ht hk hr
  constructor
  · rintro ⟨v, hv⟩
    by_contra hp
    obtain ⟨x, -, hx⟩ := hleaves hp w' (follows_ws (ws_of_rfc hw')) (w ++ t ++ w').length w [] [] .null .null
      (ws_of_rfc hw) rfl
    rw [← List.append_assoc] at hx
    rw [(parse_eq_iff _ _).2 hx] at hv
    cases hv
  · intro hp
    obtain ⟨v, hv⟩ := hplain hp
    exact ⟨v, parse_text ⟨w, t, w', ws_of_rfc hw, hv, ws_of_rfc hw', rfl⟩⟩

/-- At a number that rounds up to the least normal `double` the exception of `std::stod` leaves the parser. -/
theorem parse_roundsUp {n : Number} (hr : Representable n) (hp : ¬ n.ExplicitPlus)
    (hu : RoundsUpToNormal n.num n.den) : parse n.text = .error (.throws .outOfRange) := by
  have hthrows : LeavesAt (· = .throws .outOfRange) n.text := by
    refine leaves_number (text_head n) fun k => ⟨_, rfl, ?_⟩
    have hrun := parseSimpleValue_run (n := k) (r := []) (text_head n) (text_chars hp) nofun
    rwa [List.append_nil, numberValue_roundsUp hr hu] at hrun
  obtain ⟨x, rfl, hx⟩ := hthrows n.text.length [] [] [] .null .null nofun rfl
  exact (parse_eq_iff _ _).2 hx

/-- `25e` with a sign and a `3`. -/
def numberWithSign (sign : Option Rfc8259.Sign) : Number where
  minus := false
  int := bytes "25"
  frac := none
  exp := some
    { mark := chr 'e', sign := sign, digits := bytes "3", mark_ok := .inl rfl,
      digits_ok := ⟨by decide, List.all_eq_true.mp rfl⟩ }
  int_ok := ⟨⟨by decide, List.all_eq_true.mp rfl⟩, by decide⟩
  frac_ok := Rfc8259.digits_of_none

/-- `2.2250738585072012e-308` -/
def numberBelowNormal : Number where
  minus := false
  int := bytes "2"
  frac := some (bytes "2250738585072012")
  exp := some
    { mark := chr 'e', sign := some .minus, digits := bytes "308", mark_ok := .inl rfl,
      digits_ok := ⟨by decide, List.all_eq_true.mp rfl⟩ }
  int_ok := ⟨⟨by decide, List.all_eq_true.mp rfl⟩, by decide⟩
  frac_ok := fun ds h => by
    cases h
    exact ⟨by decide, List.all_eq_true.mp rfl⟩

/-- One number with an exponent, the whole of a text. -/
theorem representable_number {n : Number} (hexp : n.exp ≠ none)
    (h : (Binary64.round n.minus n.num n.den).IsNormal) : ∀ m ∈ (Rfc8259.Json.number n).numbers, Representable m := by
  intro m hm
  rw [List.mem_singleton.mp hm]
  exact ⟨fun hint => absurd hint.2 hexp, fun _ => .inr h⟩

theorem text_number (n : Number) : Rfc8259.Text n.text (.number n) :=
  ⟨[], n.text, [], by decide, .number n, by decide, by simp⟩

theorem parse_rfc_iff_minus :
    (∃ v, parse (bytes "25e-3") = .ok v) ↔
      ∀ n ∈ (Rfc8259.Json.number (numberWithSign (some .minus))).numbers,
        ¬ n.ExplicitPlus ∧ ¬ RoundsUpToNormal n.num n.den :=
  parse_rfc_iff (text_number (numberWithSign (some .minus))) trivial
    (representable_number (by decide) (by decide +kernel))

theorem parse_explicit_plus :
    (Rfc8259.Text (bytes "25e+3") (.number (numberWithSign (some .plus))) ∧
      (Rfc8259.Json.number (numberWithSign (some .plus))).DistinctKeys ∧
      (∀ n ∈ (Rfc8259.Json.number (numberWithSign (some .plus))).numbers, Representable n) ∧
      parse (bytes "25e+3") = .error (.error ⟨bytes "Invalid number value: '25e'", 0⟩)) ∧
    (Rfc8259.Text (bytes "2.2250738585072012e-308") (.number numberBelowNormal) ∧
      (Rfc8259.Json.number numberBelowNormal).DistinctKeys ∧
      (∀ n ∈ (Rfc8259.Json.number numberBelowNormal).numbers, Representable n) ∧
      parse (bytes "2.2250738585072012e-308") = .error (.throws .outOfRange)) := by
  have hbelow := representable_number (n := numberBelowNormal) (by decide) (by decide +kernel)
  refine ⟨⟨text_number _, trivial, ?_, (parse_eq_iff _ _).2 ⟨1, ?_⟩⟩, ⟨text_number _, trivial, hbelow, ?_⟩⟩
  · exact representable_number (by decide) (by decide +kernel)
  · rfl
  · refine parse_roundsUp (hbelow _ List.mem_cons_self) ?_ (by decide +kernel)
    rintro ⟨x, hx, hsign⟩
    cases hx
    cases hsign

end Lsp.Json
