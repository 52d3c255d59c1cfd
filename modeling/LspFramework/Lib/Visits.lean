import Mathlib.Data.List.Dedup
import Mathlib.Data.List.Perm.Basic

/-!
# Visits

A traversal keeps the nodes that it has visited and what it has emitted.  It goes into a node that was not
visited before, emits what belongs to the node, and may visit others in between.

    Goes s t xs: new nodes are visited on the way from s to t; what belongs to them and xs is emitted
    s goes to t with xs, t to u with ys → s goes to u with xs ++ ys                        (Goes.trans)
    into n, then on with what belongs to n → s goes to t                                   (Goes.visit)
    a traversal that got to all nodes has emitted what belongs to each of them, once       (Goes.all)
-/

namespace Visits

structure State (ν ω : Type) where
  visited : List ν
  emitted : List ω

section Visits

variable {ν ω : Type} (emits : ν → List ω) (ok : ν → Prop)

/-- From `s` to `t` nodes of the kind `ok` are visited, each once and none that was visited before. -/
def Goes (s t : State ν ω) (extra : List ω) : Prop :=
  ∃ new : List ν, new.Nodup ∧ (∀ n ∈ new, n ∉ s.visited ∧ ok n) ∧ t.visited.Perm (new ++ s.visited) ∧
    t.emitted.Perm (s.emitted ++ (new.flatMap emits ++ extra))

variable {emits ok} {s t u : State ν ω} {extra extra' : List ω}

theorem Goes.stay (s : State ν ω) : Goes emits ok s s [] :=
  ⟨[], List.nodup_nil, List.forall_mem_nil _, .refl _, by simp⟩

theorem Goes.emit (s : State ν ω) (x : ω) : Goes emits ok s ⟨s.visited, s.emitted ++ [x]⟩ [x] :=
  ⟨[], List.nodup_nil, List.forall_mem_nil _, .refl _, by simp⟩

theorem Goes.trans (h : Goes emits ok s t extra) (h' : Goes emits ok t u extra') :
    Goes emits ok s u (extra ++ extra') := by
  obtain ⟨new, hnodup, hnew, hvisited, hemitted⟩ := h
  obtain ⟨new', hnodup', hnew', hvisited', hemitted'⟩ := h'
  have hfresh : ∀ n ∈ new', n ∉ new ∧ n ∉ s.visited := by
    intro n hn
    have hnot := (hnew' n hn).1
    rw [hvisited.mem_iff, List.mem_append, not_or] at hnot
    exact hnot
  refine ⟨new ++ new', List.nodup_append'.mpr ⟨hnodup, hnodup', fun n hn hn' => (hfresh n hn').1 hn⟩, ?_, ?_, ?_⟩
  · intro n hn
    rcases List.mem_append.mp hn with hn | hn
    · exact hnew n hn
    · exact ⟨(hfresh n hn).2, (hnew' n hn).2⟩
  · rw [List.append_assoc]
    exact hvisited'.trans ((hvisited.append_left new').trans (List.perm_append_comm_assoc new' new s.visited))
  · refine hemitted'.trans ((hemitted.append_right _).trans ?_)
    simp only [List.flatMap_append, List.append_assoc]
    exact ((List.perm_append_comm_assoc _ _ _).append_left _).append_left _

/-- What belongs to a node is emitted while it is being visited. -/
theorem Goes.visit {n : ν} (hn : n ∉ s.visited) (hok : ok n)
    (h : Goes emits ok ⟨n :: s.visited, s.emitted⟩ t (emits n)) : Goes emits ok s t [] := by
  obtain ⟨new, hnodup, hnew, hvisited, hemitted⟩ := h
  have hfresh : ∀ m ∈ new, m ≠ n ∧ m ∉ s.visited := fun m hm =>
    not_or.mp (mt List.mem_cons.mpr (hnew m hm).1)
  refine ⟨n :: new, List.nodup_cons.mpr ⟨fun hmem => (hfresh n hmem).1 rfl, hnodup⟩, ?_, ?_, ?_⟩
  · exact List.forall_mem_cons.mpr ⟨⟨hn, hok⟩, fun m hm => ⟨(hfresh m hm).2, (hnew m hm).2⟩⟩
  · exact hvisited.trans List.perm_middle
  · rw [List.flatMap_cons, List.append_nil]
    exact hemitted.trans (List.perm_append_comm.append_left _)

theorem Goes.visited_subset (h : Goes emits ok s t extra) : s.visited ⊆ t.visited := by
  obtain ⟨new, -, -, hvisited, -⟩ := h
  intro n hn
  exact hvisited.mem_iff.mpr (List.mem_append_right _ hn)

/-- **What a whole traversal emits**: what belongs to each node that was to be visited, once. -/
theorem Goes.all {nodes : List ν} {fresh : ν → Bool} (h : Goes emits ok s t []) (hempty : s.emitted = [])
    (hfresh : ∀ n, fresh n = true ↔ n ∉ s.visited) (hnodup : nodes.Nodup) (hok : ∀ n, ok n → n ∈ nodes)
    (hall : nodes ⊆ t.visited) : t.emitted.Perm ((nodes.filter fresh).flatMap emits) := by
  obtain ⟨new, hnew_nodup, hnew, hvisited, hemitted⟩ := h
  rw [hempty, List.nil_append, List.append_nil] at hemitted
  refine hemitted.trans (List.Perm.flatMap_right emits ?_)
  rw [List.perm_ext_iff_of_nodup hnew_nodup (hnodup.filter _)]
  intro n
  rw [List.mem_filter, hfresh]
  constructor
  · exact fun hn => ⟨hok n (hnew n hn).2, (hnew n hn).1⟩
  · rintro ⟨hn, hnot⟩
    exact (List.mem_append.mp (hvisited.mem_iff.mp (hall hn))).resolve_right hnot

end Visits

end Visits
