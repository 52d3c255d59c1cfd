import LspFramework.Lib.Chars
import Mathlib.Data.List.Infix

/-!
# Percent-encoded texts

A text whose escapes are well formed is a list of pieces: bytes that stand for themselves, and
triplets of a `%` and two hex digits.

* `text`, `values`: how the pieces are written, and what they stand for.
* `upper`: the same pieces with the hex digits in upper case.
* `decoded`: what any text stands for; a `%` without two hex digits stands for itself.
* `segments`: a path, split at the slashes that are written, each segment decoded.

The segments of a path are those of what it stands for unless a slash is escaped
(`segments_eq_splitOn`, `exists_slash_of_escapedSlash`).
-/

namespace Percent

open Chars

inductive Piece where
  | plain (c : UInt8) (h : c ≠ chr '%')
  | triplet (a b : UInt8) (ha : isDigitOf 16 a = true) (hb : isDigitOf 16 b = true)

theorem isDigitOf_toupper : ∀ c : UInt8, isDigitOf 16 c = true → isDigitOf 16 (toupper c) = true :=
  forall_byte (by decide +kernel)

namespace Piece

def text : Piece → Bytes
  | plain c _ => [c]
  | triplet a b _ _ => [chr '%', a, b]

def value : Piece → UInt8
  | plain c _ => c
  | triplet a b _ _ => UInt8.ofNat (16 * digitVal a + digitVal b)

def upper : Piece → Piece
  | plain c h => plain c h
  | triplet a b ha hb => triplet (toupper a) (toupper b) (isDigitOf_toupper a ha) (isDigitOf_toupper b hb)

end Piece

def text (ps : List Piece) : Bytes := ps.flatMap Piece.text

def values (ps : List Piece) : Bytes := ps.map Piece.value

def upper (ps : List Piece) : List Piece := ps.map Piece.upper

def WellFormed (s : Bytes) : Prop := ∃ ps, text ps = s

def decoded : Bytes → Bytes
  | c :: a :: b :: s =>
    if c = chr '%' ∧ isDigitOf 16 a = true ∧ isDigitOf 16 b = true then
      UInt8.ofNat (16 * digitVal a + digitVal b) :: decoded s
    else c :: decoded (a :: b :: s)
  | s => s

def segments (path : Bytes) : List Bytes := (path.splitOn (chr '/')).map decoded

def EscapedSlash (s : Bytes) : Prop := bytes "%2F" <:+: s ∨ bytes "%2f" <:+: s

instance (s : Bytes) : Decidable (EscapedSlash s) := inferInstanceAs (Decidable (_ ∨ _))

/-! ## Lemmas -/

theorem text_cons (p : Piece) (ps : List Piece) : text (p :: ps) = p.text ++ text ps := rfl

theorem text_append (ps qs : List Piece) : text (ps ++ qs) = text ps ++ text qs := List.flatMap_append

theorem text_eq_nil {ps : List Piece} : text ps = [] ↔ ps = [] := by
  constructor
  · intro h
    cases ps with
    | nil => rfl
    | cons p ps => cases p <;> cases h
  · rintro rfl
    rfl

theorem decoded_plain {c : UInt8} (hc : c ≠ chr '%') (s : Bytes) : decoded (c :: s) = c :: decoded s := by
  match s with
  | [] => rfl
  | [_] => rfl
  | _ :: _ :: _ => rw [decoded, if_neg fun h => hc h.1]

theorem decoded_triplet {a b : UInt8} (ha : isDigitOf 16 a = true) (hb : isDigitOf 16 b = true) (s : Bytes) :
    decoded (chr '%' :: a :: b :: s) = UInt8.ofNat (16 * digitVal a + digitVal b) :: decoded s := by
  rw [decoded, if_pos ⟨rfl, ha, hb⟩]

/-! ## Well-formed texts -/

namespace WellFormed

variable {s : Bytes}

theorem plain {c : UInt8} (hc : c ≠ chr '%') (h : WellFormed s) : WellFormed (c :: s) := by
  obtain ⟨ps, rfl⟩ := h
  exact ⟨.plain c hc :: ps, rfl⟩

theorem triplet {a b : UInt8} (ha : isDigitOf 16 a = true) (hb : isDigitOf 16 b = true) (h : WellFormed s) :
    WellFormed (chr '%' :: a :: b :: s) := by
  obtain ⟨ps, rfl⟩ := h
  exact ⟨.triplet a b ha hb :: ps, rfl⟩

theorem tail {c : UInt8} (h : WellFormed s) (hc : s.head? = some c) (hne : c ≠ chr '%') :
    WellFormed s.tail := by
  obtain ⟨ps, rfl⟩ := h
  cases ps with
  | nil => cases hc
  | cons p ps =>
    cases p with
    | plain d hd => exact ⟨ps, rfl⟩
    | triplet a b ha hb =>
      cases hc
      exact absurd rfl hne

/-- A run of a class that does not cut triplets, and what stands behind it. -/
theorem span {p : UInt8 → Bool} (hp : p (chr '%') = true → ∀ c, isDigitOf 16 c = true → p c = true)
    (h : WellFormed s) : WellFormed (s.takeWhile p) ∧ WellFormed (s.dropWhile p) := by
  obtain ⟨ps, rfl⟩ := h
  induction ps with
  | nil => exact ⟨⟨[], rfl⟩, ⟨[], rfl⟩⟩
  | cons q ps ih =>
    have hwhole : WellFormed (text (q :: ps)) := ⟨_, rfl⟩
    rw [text_cons] at hwhole ⊢
    cases q with
    | plain c hc =>
      rw [Piece.text, List.singleton_append] at hwhole ⊢
      cases hpc : p c with
      | true =>
        rw [List.takeWhile_cons_of_pos hpc, List.dropWhile_cons_of_pos hpc]
        exact ⟨ih.1.plain hc, ih.2⟩
      | false =>
        rw [List.takeWhile_cons_of_neg (Bool.eq_false_iff.mp hpc),
          List.dropWhile_cons_of_neg (Bool.eq_false_iff.mp hpc)]
        exact ⟨⟨[], rfl⟩, hwhole⟩
    | triplet a b ha hb =>
      rw [Piece.text, List.cons_append, List.cons_append, List.singleton_append] at hwhole ⊢
      cases hpc : p (chr '%') with
      | true =>
        have hpa := hp hpc a ha
        have hpb := hp hpc b hb
        rw [List.takeWhile_cons_of_pos hpc, List.takeWhile_cons_of_pos hpa, List.takeWhile_cons_of_pos hpb,
          List.dropWhile_cons_of_pos hpc, List.dropWhile_cons_of_pos hpa, List.dropWhile_cons_of_pos hpb]
        exact ⟨ih.1.triplet ha hb, ih.2⟩
      | false =>
        rw [List.takeWhile_cons_of_neg (Bool.eq_false_iff.mp hpc),
          List.dropWhile_cons_of_neg (Bool.eq_false_iff.mp hpc)]
        exact ⟨⟨[], rfl⟩, hwhole⟩

end WellFormed

/-! ## Escaped slashes -/

theorem digit_slash :
    ∀ a : UInt8, (digitVal a = 2 ↔ a = chr '2') ∧ (digitVal a = 15 ↔ a = chr 'F' ∨ a = chr 'f') := by
  intro a
  constructor
  · exact forall_byte (P := fun a => digitVal a = 2 ↔ a = chr '2') (by decide +kernel) a
  · exact forall_byte (P := fun a => digitVal a = 15 ↔ a = chr 'F' ∨ a = chr 'f') (by decide +kernel) a

theorem escape_slash {a b : UInt8} (ha : isDigitOf 16 a = true) (hb : isDigitOf 16 b = true) :
    UInt8.ofNat (16 * digitVal a + digitVal b) = chr '/' ↔ a = chr '2' ∧ (b = chr 'F' ∨ b = chr 'f') := by
  simp only [isDigitOf, decide_eq_true_eq] at ha hb
  rw [← (digit_slash a).1, ← (digit_slash b).2, ← UInt8.toNat_inj, UInt8.toNat_ofNat',
    Nat.mod_eq_of_lt (by omega), show (chr '/').toNat = 47 from rfl]
  omega

/-- The piece is a triplet that stands for a slash. -/
def Piece.IsEscapedSlash : Piece → Prop
  | plain _ _ => False
  | triplet a b _ _ => UInt8.ofNat (16 * digitVal a + digitVal b) = chr '/'

/-- A slash that is not escaped is written as it is. -/
theorem Piece.text_of_slash {p : Piece} (hp : p.value = chr '/') (hno : ¬ p.IsEscapedSlash) :
    p.text = [chr '/'] := by
  cases p with
  | plain c hc => exact congrArg (fun c => [c]) hp
  | triplet a b ha hb => exact absurd hp hno

/-- A `%` and two bytes in a text are one of its triplets. -/
theorem triplet_of_infix {ps : List Piece} {x y : UInt8} (h : [chr '%', x, y] <:+: text ps) :
    ∃ ha hb, Piece.triplet x y ha hb ∈ ps := by
  have hdigit : ∀ {c : UInt8} {s : Bytes}, isDigitOf 16 c = true → ¬ [chr '%', x, y] <+: c :: s := by
    intro c s hc hpre
    have hhead : chr '%' = c := (List.cons_prefix_cons.mp hpre).1
    rw [← hhead] at hc
    exact absurd hc (by decide)
  induction ps with
  | nil => exact absurd (List.eq_nil_of_infix_nil h) (List.cons_ne_nil _ _)
  | cons p ps ih =>
    have hmore : [chr '%', x, y] <:+: text ps → ∃ ha hb, Piece.triplet x y ha hb ∈ p :: ps := by
      intro hin
      obtain ⟨ha, hb, hmem⟩ := ih hin
      exact ⟨ha, hb, List.mem_cons_of_mem _ hmem⟩
    rw [text_cons] at h
    cases p with
    | plain c hc =>
      rcases List.infix_cons_iff.mp h with hpre | hin
      · exact absurd (List.cons_prefix_cons.mp hpre).1.symm hc
      · exact hmore hin
    | triplet a b ha hb =>
      rcases List.infix_cons_iff.mp h with hpre | hin
      · obtain ⟨-, hpre⟩ := List.cons_prefix_cons.mp hpre
        obtain ⟨hxa, hpre⟩ := List.cons_prefix_cons.mp hpre
        obtain ⟨hyb, -⟩ := List.cons_prefix_cons.mp hpre
        subst hxa hyb
        exact ⟨ha, hb, List.mem_cons_self⟩
      · rcases List.infix_cons_iff.mp hin with hpre | hin
        · exact absurd hpre (hdigit ha)
        · rcases List.infix_cons_iff.mp hin with hpre | hin
          · exact absurd hpre (hdigit hb)
          · exact hmore hin

theorem escapedSlash_text (ps : List Piece) : EscapedSlash (text ps) ↔ ∃ p ∈ ps, p.IsEscapedSlash := by
  constructor
  · rintro (h | h)
    · obtain ⟨ha, hb, hmem⟩ := triplet_of_infix h
      exact ⟨_, hmem, (escape_slash ha hb).mpr ⟨rfl, .inl rfl⟩⟩
    · obtain ⟨ha, hb, hmem⟩ := triplet_of_infix h
      exact ⟨_, hmem, (escape_slash ha hb).mpr ⟨rfl, .inr rfl⟩⟩
  · rintro ⟨p, hmem, hp⟩
    obtain ⟨l, r, rfl⟩ := List.append_of_mem hmem
    cases p with
    | plain c hc => exact hp.elim
    | triplet a b ha hb =>
      have htext : text (l ++ Piece.triplet a b ha hb :: r) = text l ++ [chr '%', a, b] ++ text r := by
        rw [text_append, text_cons, List.append_assoc]
        rfl
      rw [EscapedSlash, htext]
      obtain ⟨rfl, rfl | rfl⟩ := (escape_slash ha hb).mp hp
      · exact .inl ⟨text l, text r, rfl⟩
      · exact .inr ⟨text l, text r, rfl⟩

/-! ## Segments -/

theorem not_mem_of_mem_splitOn {a : UInt8} {s l : Bytes} (h : l ∈ s.splitOn a) : a ∉ l := by
  induction s generalizing l with
  | nil =>
    rw [List.splitOn_nil, List.mem_singleton] at h
    rw [h]
    exact List.not_mem_nil
  | cons c s ih =>
    rw [List.splitOn_cons_eq_if_modifyHead] at h
    split at h
    · rcases List.mem_cons.mp h with rfl | h
      · exact List.not_mem_nil
      · exact ih h
    · next hc =>
      cases hs : s.splitOn a with
      | nil => exact absurd hs (List.splitOn_ne_nil a s)
      | cons t ts =>
        rw [hs, List.modifyHead_cons] at h
        rcases List.mem_cons.mp h with rfl | h
        · intro hmem
          rcases List.mem_cons.mp hmem with rfl | hmem
          · exact hc (beq_self_eq_true _)
          · exact ih (by rw [hs]; exact List.mem_cons_self) hmem
        · exact ih (by rw [hs]; exact List.mem_cons_of_mem _ h)

theorem segments_slash (s : Bytes) : segments (chr '/' :: s) = [] :: segments s := by
  rw [segments, List.splitOn_cons_eq_if_modifyHead, if_pos (beq_self_eq_true _)]
  rfl

theorem segments_plain {c : UInt8} (hc : c ≠ chr '/') (hp : c ≠ chr '%') (s : Bytes) :
    segments (c :: s) = (segments s).modifyHead (c :: ·) := by
  rw [segments, segments, List.splitOn_cons_eq_if_modifyHead, if_neg (by rwa [beq_iff_eq])]
  cases hs : s.splitOn (chr '/') with
  | nil => exact absurd hs (List.splitOn_ne_nil _ _)
  | cons t ts => rw [List.modifyHead_cons, List.map_cons, List.map_cons, List.modifyHead_cons, decoded_plain hp]

theorem segments_triplet {a b : UInt8} (ha : isDigitOf 16 a = true) (hb : isDigitOf 16 b = true) (s : Bytes) :
    segments (chr '%' :: a :: b :: s) =
      (segments s).modifyHead (UInt8.ofNat (16 * digitVal a + digitVal b) :: ·) := by
  have hdigit : ∀ c, isDigitOf 16 c = true → ¬ (c == chr '/') = true := forall_byte (by decide +kernel)
  rw [segments, segments, List.splitOn_cons_eq_if_modifyHead, if_neg (by decide),
    List.splitOn_cons_eq_if_modifyHead, if_neg (hdigit a ha), List.splitOn_cons_eq_if_modifyHead,
    if_neg (hdigit b hb)]
  cases hs : s.splitOn (chr '/') with
  | nil => exact absurd hs (List.splitOn_ne_nil _ _)
  | cons t ts =>
    rw [List.modifyHead_cons, List.modifyHead_cons, List.modifyHead_cons, List.map_cons, List.map_cons,
      List.modifyHead_cons, decoded_triplet ha hb]

/-- **Without escaped slashes, the segments are those of the value.** -/
theorem segments_eq_splitOn {ps : List Piece} (h : ¬ EscapedSlash (text ps)) :
    segments (text ps) = (values ps).splitOn (chr '/') := by
  rw [escapedSlash_text] at h
  induction ps with
  | nil => rfl
  | cons p ps ih =>
    have ih := ih fun ⟨q, hq, hslash⟩ => h ⟨q, List.mem_cons_of_mem _ hq, hslash⟩
    have hvalues : values (p :: ps) = p.value :: values ps := rfl
    rw [text_cons, hvalues, List.splitOn_cons_eq_if_modifyHead, ← ih]
    cases p with
    | plain c hc =>
      by_cases hslash : c = chr '/'
      · subst hslash
        exact segments_slash _
      · rw [if_neg (by rwa [beq_iff_eq])]
        exact segments_plain hslash hc _
    | triplet a b ha hb =>
      have hno : ¬ (Piece.triplet a b ha hb).IsEscapedSlash := fun hp => h ⟨_, List.mem_cons_self, hp⟩
      rw [if_neg (by rwa [beq_iff_eq])]
      exact segments_triplet ha hb _

/-- **An escaped slash stands in a segment.** -/
theorem exists_slash_of_escapedSlash {ps : List Piece} (h : EscapedSlash (text ps)) :
    ∃ t ∈ segments (text ps), chr '/' ∈ t := by
  have hhead : ∀ {ts : List Bytes} (c : UInt8), (∃ t ∈ ts, chr '/' ∈ t) →
      ∃ t ∈ ts.modifyHead (c :: ·), chr '/' ∈ t := by
    rintro ts c ⟨t, ht, hslash⟩
    cases ts with
    | nil => cases ht
    | cons t' ts =>
      rw [List.modifyHead_cons]
      rcases List.mem_cons.mp ht with rfl | ht
      · exact ⟨_, List.mem_cons_self, List.mem_cons_of_mem _ hslash⟩
      · exact ⟨t, List.mem_cons_of_mem _ ht, hslash⟩
  rw [escapedSlash_text] at h
  induction ps with
  | nil =>
    obtain ⟨p, hp, -⟩ := h
    cases hp
  | cons p ps ih =>
    obtain ⟨q, hq, hslash⟩ := h
    rw [text_cons]
    cases p with
    | plain c hc =>
      rcases List.mem_cons.mp hq with rfl | hq
      · exact hslash.elim
      · have hmem := ih ⟨q, hq, hslash⟩
        rw [Piece.text, List.singleton_append]
        by_cases hc' : c = chr '/'
        · subst hc'
          obtain ⟨t, ht, hin⟩ := hmem
          rw [segments_slash]
          exact ⟨t, List.mem_cons_of_mem _ ht, hin⟩
        · rw [segments_plain hc' hc]
          exact hhead c hmem
    | triplet a b ha hb =>
      rw [Piece.text, List.cons_append, List.cons_append, List.singleton_append, segments_triplet ha hb]
      rcases List.mem_cons.mp hq with rfl | hq
      · cases hs : segments (text ps) with
        | nil => exact absurd (List.map_eq_nil_iff.mp hs) (List.splitOn_ne_nil _ _)
        | cons t ts =>
          have hval : UInt8.ofNat (16 * digitVal a + digitVal b) = chr '/' := hslash
          rw [List.modifyHead_cons, hval]
          exact ⟨_, List.mem_cons_self, List.mem_cons_self⟩
      · exact hhead _ (ih ⟨q, hq, hslash⟩)

end Percent
