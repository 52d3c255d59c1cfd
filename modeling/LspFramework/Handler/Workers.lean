import Mathlib.Logic.Relation
import Mathlib.Data.List.Nodup
import Mathlib.Data.List.Range
import LspFramework.Handler.ThreadPool

/-!
# The threads of the pool

`ThreadPool` with its callers and its threads: each section under `m_mutex` is one step, and the
sections of any number of `addTask` calls, of the workers and of one caller of `waitUntilFinished`
are interleaved in any order.  A worker that has exited stays in `m_threads` until the wait clears
the vector, and while `m_waitForNewTasks` is false no `addTask` queues anything, so the vector the
wait joins does not change under it.

    Reachable initialThreads maxThreads s → Inv initialThreads maxThreads s      (reachable_inv)
    … → one place for each task, in order, drained when the joins end            (pool_run)
    … → a run of `ThreadPool` leads to a pool that s refines                     (reachable_refines)
-/

namespace Lsp.Workers

/-- A task is the number of the call of `addTask` that brings it. -/
abbrev Task := Nat

inductive Worker where
  /-- before its section, at the top of the loop or waiting for the event -/
  | free
  /-- between its section and the end of `execute` -/
  | holds (task : Task)
  | exited
  deriving DecidableEq, Repr

def Worker.task? : Worker → Option Task
  | .holds task => some task
  | _ => none

/-- Where the caller of `waitUntilFinished` is: in the loop over `m_threads` so many are joined. -/
inductive Waiter where
  | outside
  | joining (joined : Nat)
  deriving DecidableEq, Repr

structure State where
  m_waitForNewTasks : Bool := true
  m_maxThreads : Nat
  m_threads : List Worker
  m_taskQueue : List Task := []
  calls : Nat := 0
  /-- the tasks of the calls that have not queued them -/
  callers : List Task := []
  waiter : Waiter := .outside
  /-- the tasks in the order of the sections that queued them, and of those that popped them -/
  submitted : List Task := []
  taken : List Task := []
  executed : List Task := []

namespace State

def create (initialThreads maxThreads : Nat) : State where
  m_maxThreads := max maxThreads 1
  m_threads := List.replicate initialThreads .free

def addThread (s : State) : State := { s with m_threads := s.m_threads ++ [.free] }

/-- The section of `addTask`, behind its wait. -/
def addTask (task : Task) (s : State) : State :=
  let s := { s with m_taskQueue := s.m_taskQueue ++ [task], submitted := s.submitted ++ [task] }
  if (s.m_taskQueue.length > 1 ∧ s.m_threads.length < s.m_maxThreads) ∨ s.m_threads = [] then addThread s
  else s

/-- The section of the worker at a place; none while it waits for the event. -/
def work (i : Nat) (s : State) : Option State :=
  if s.m_waitForNewTasks = true ∧ s.m_taskQueue = [] then none
  else
    match s.m_taskQueue with
    | task :: rest =>
      some { s with
        m_taskQueue := rest
        taken := s.taken ++ [task]
        m_threads := s.m_threads.set i (.holds task) }
    | [] => some { s with m_threads := s.m_threads.set i .exited }

def execute (i : Nat) (task : Task) (s : State) : State :=
  { s with m_threads := s.m_threads.set i .free, executed := s.executed ++ [task] }

/-- The first section of `waitUntilFinished`, and the last. -/
def beginWait (s : State) : State := { s with m_waitForNewTasks := false, waiter := .joining 0 }

def endWait (s : State) : State :=
  { s with m_threads := [], m_waitForNewTasks := true, waiter := .outside }

/-- The tasks the workers hold. -/
def held (s : State) : List Task := s.m_threads.filterMap Worker.task?

/-- The tasks by their places: queued, held by a worker, executed. -/
def places (s : State) : List Task := s.m_taskQueue ++ s.held ++ s.executed

end State

open State

/-- The joins of `waitUntilFinished` have ended. -/
def Joined (s : State) : Prop := s.waiter = .joining s.m_threads.length

inductive Step : State → State → Prop
  | call {s : State} : Step s { s with callers := s.callers ++ [s.calls], calls := s.calls + 1 }
  | addTask {s : State} {task : Task} {before after : List Task} : s.callers = before ++ task :: after →
      s.m_waitForNewTasks = true → Step s { s.addTask task with callers := before ++ after }
  | work {s s' : State} {i : Nat} : s.m_threads[i]? = some .free → s.work i = some s' → Step s s'
  | execute {s : State} {i : Nat} {task : Task} : s.m_threads[i]? = some (.holds task) →
      Step s (s.execute i task)
  | beginWait {s : State} : s.waiter = .outside → Step s s.beginWait
  | join {s : State} {joined : Nat} : s.waiter = .joining joined → s.m_threads[joined]? = some .exited →
      Step s { s with waiter := .joining (joined + 1) }
  | endWait {s : State} : Joined s → Step s s.endWait

def Reachable (initialThreads maxThreads : Nat) : State → Prop :=
  Relation.ReflTransGen Step (create initialThreads maxThreads)

/-! ## The invariant -/

structure Inv (initialThreads maxThreads : Nat) (s : State) : Prop where
  max : s.m_maxThreads = max maxThreads 1
  count : s.m_threads.length ≤ Nat.max initialThreads s.m_maxThreads
  calls : (s.callers ++ s.submitted).Perm (List.range s.calls)
  order : s.taken ++ s.m_taskQueue = s.submitted
  places : s.taken.Perm (s.held ++ s.executed)
  served : s.m_taskQueue ≠ [] → s.m_threads ≠ []
  /-- A worker exits when no more tasks come and the queue is empty. -/
  exited : .exited ∈ s.m_threads → s.m_waitForNewTasks = false ∧ s.m_taskQueue = []
  flag : s.m_waitForNewTasks = true ↔ s.waiter = .outside
  joined : ∀ n, s.waiter = .joining n → ∀ w ∈ s.m_threads.take n, w = .exited

section Inv

variable {initialThreads maxThreads : Nat} {s : State}

theorem inv_create : Inv initialThreads maxThreads (create initialThreads maxThreads) where
  max := rfl
  count := by
    rw [create, List.length_replicate]
    exact Nat.le_max_left _ _
  calls := by simp [create]
  order := rfl
  places := by simp [create, held, Worker.task?]
  served h := absurd rfl h
  exited h := by simp [create] at h
  flag := by simp [create]
  joined n h := by simp [create] at h

theorem filterMap_task_cons (w : Worker) (ws : List Worker) :
    (w :: ws).filterMap Worker.task? = w.task?.toList ++ ws.filterMap Worker.task? := by
  cases w <;> rfl

/-- What the workers hold when one of them changes. -/
theorem held_set {ws : List Worker} {i : Nat} {w : Worker} (h : ws[i]? = some w) (w' : Worker) :
    ∃ rest, (ws.filterMap Worker.task?).Perm (w.task?.toList ++ rest) ∧
      ((ws.set i w').filterMap Worker.task?).Perm (w'.task?.toList ++ rest) := by
  obtain ⟨hi, rfl⟩ := List.getElem?_eq_some_iff.mp h
  refine ⟨(ws.eraseIdx i).filterMap Worker.task?, ?_, ?_⟩
  · rw [← filterMap_task_cons]
    exact (List.getElem_cons_eraseIdx_perm hi).symm.filterMap _
  · rw [← filterMap_task_cons]
    exact (List.set_perm_cons_eraseIdx hi w').filterMap _

theorem inv_call (h : Inv initialThreads maxThreads s) :
    Inv initialThreads maxThreads { s with callers := s.callers ++ [s.calls], calls := s.calls + 1 } := by
  refine { h with calls := ?_ }
  rw [List.range_succ, List.append_assoc]
  exact List.perm_middle.trans ((h.calls.cons s.calls).trans (List.perm_append_singleton _ _).symm)

theorem addTask_others (task : Task) (s : State) :
    (s.addTask task).m_taskQueue = s.m_taskQueue ++ [task] ∧
      (s.addTask task).submitted = s.submitted ++ [task] ∧ (s.addTask task).taken = s.taken ∧
      (s.addTask task).executed = s.executed ∧ (s.addTask task).m_maxThreads = s.m_maxThreads ∧
      (s.addTask task).m_waitForNewTasks = s.m_waitForNewTasks ∧ (s.addTask task).waiter = s.waiter ∧
      (s.addTask task).calls = s.calls := by
  unfold addTask
  dsimp only
  split <;> exact ⟨rfl, rfl, rfl, rfl, rfl, rfl, rfl, rfl⟩

/-- A thread is added when there are fewer than `m_maxThreads`, or none. -/
theorem addTask_threads (task : Task) (s : State) :
    (s.addTask task).m_threads = s.m_threads ∧ s.m_threads ≠ [] ∨
      (s.addTask task).m_threads = s.m_threads ++ [.free] ∧
        (s.m_threads.length < s.m_maxThreads ∨ s.m_threads = []) := by
  unfold addTask
  dsimp only
  split
  · next h => exact .inr ⟨rfl, h.imp_left And.right⟩
  · next h => exact .inl ⟨rfl, fun hnil => h (.inr hnil)⟩

theorem addTask_held (task : Task) (s : State) : (s.addTask task).held = s.held := by
  have hfree : [Worker.free].filterMap Worker.task? = [] := rfl
  obtain ⟨heq, -⟩ | ⟨heq, -⟩ := addTask_threads task s
  · rw [held, heq, held]
  · rw [held, heq, List.filterMap_append, hfree, List.append_nil, held]

theorem addTask_ne_nil (task : Task) (s : State) : (s.addTask task).m_threads ≠ [] := by
  obtain ⟨heq, hne⟩ | ⟨heq, -⟩ := addTask_threads task s
  · exact heq ▸ hne
  · exact heq ▸ List.append_ne_nil_of_right_ne_nil _ (List.cons_ne_nil _ _)

theorem exited_of_addTask {task : Task} {s : State} (h : .exited ∈ (s.addTask task).m_threads) :
    .exited ∈ s.m_threads := by
  obtain ⟨heq, -⟩ | ⟨heq, -⟩ := addTask_threads task s
  · exact heq ▸ h
  · rw [heq, List.mem_append] at h
    exact h.resolve_right (by simp)

theorem addTask_length_le (task : Task) {s : State} {n : Nat} (h : s.m_threads.length ≤ n)
    (hmax : s.m_maxThreads ≤ n) (hpos : 1 ≤ n) : (s.addTask task).m_threads.length ≤ n := by
  obtain ⟨heq, -⟩ | ⟨heq, hless | hnil⟩ := addTask_threads task s
  · exact heq ▸ h
  · rw [heq, List.length_append, List.length_singleton]
    omega
  · rw [heq, hnil]
    exact hpos

theorem inv_addTask (h : Inv initialThreads maxThreads s) {task : Task} {before after : List Task}
    (hcallers : s.callers = before ++ task :: after) (hflag : s.m_waitForNewTasks = true) :
    Inv initialThreads maxThreads { s.addTask task with callers := before ++ after } := by
  obtain ⟨hqueue, hsubmitted, htaken, hexecuted, hmax, hwait, hwaiter, hcalls⟩ := addTask_others task s
  constructor
  case max => exact hmax.trans h.max
  case count =>
    show (s.addTask task).m_threads.length ≤ Nat.max initialThreads (s.addTask task).m_maxThreads
    have hpos : 1 ≤ s.m_maxThreads := h.max ▸ Nat.le_max_right _ _
    rw [hmax]
    exact addTask_length_le task h.count (Nat.le_max_right _ _) (Nat.le_trans hpos (Nat.le_max_right _ _))
  case calls =>
    -- the task moves from the callers to the submitted ones
    show ((before ++ after) ++ (s.addTask task).submitted).Perm (List.range (s.addTask task).calls)
    rw [hsubmitted, hcalls]
    refine List.Perm.trans ?_ h.calls
    rw [hcallers, ← List.append_assoc]
    refine (List.perm_append_singleton task _).trans ?_
    rw [List.append_assoc, List.append_assoc]
    exact List.perm_middle.symm
  case order =>
    show (s.addTask task).taken ++ (s.addTask task).m_taskQueue = (s.addTask task).submitted
    rw [htaken, hqueue, hsubmitted, ← List.append_assoc, h.order]
  case places =>
    show (s.addTask task).taken.Perm ((s.addTask task).held ++ (s.addTask task).executed)
    rw [htaken, hexecuted, addTask_held]
    exact h.places
  case served => exact fun _ => addTask_ne_nil task s
  case exited =>
    intro hmem
    rw [(h.exited (exited_of_addTask hmem)).1] at hflag
    cases hflag
  case flag =>
    show (s.addTask task).m_waitForNewTasks = true ↔ (s.addTask task).waiter = .outside
    rw [hwait, hwaiter]
    exact h.flag
  case joined =>
    intro n hn
    rw [hwaiter, h.flag.mp hflag] at hn
    cases hn

/-- A worker takes the first task, or exits. -/
theorem work_cases {s' : State} {i : Nat} (hs : s.work i = some s') :
    (∃ task rest, s.m_taskQueue = task :: rest ∧
      s' = { s with
        m_taskQueue := rest
        taken := s.taken ++ [task]
        m_threads := s.m_threads.set i (.holds task) }) ∨
      s.m_waitForNewTasks = false ∧ s.m_taskQueue = [] ∧
        s' = { s with m_threads := s.m_threads.set i .exited } := by
  unfold work at hs
  split at hs
  · cases hs
  · next hwait =>
    split at hs
    · next task rest hqueue => exact .inl ⟨task, rest, hqueue, (Option.some.inj hs).symm⟩
    · next hqueue =>
      refine .inr ⟨?_, hqueue, (Option.some.inj hs).symm⟩
      cases hflag : s.m_waitForNewTasks with
      | false => rfl
      | true => exact absurd ⟨hflag, hqueue⟩ hwait

/-- The threads that were joined have exited, so none of them is free or holds a task. -/
theorem joined_set (h : Inv initialThreads maxThreads s) {i n : Nat} {w : Worker}
    (hw : s.m_threads[i]? = some w) (hlive : w ≠ .exited) (hn : s.waiter = .joining n) (w' : Worker) :
    ∀ v ∈ (s.m_threads.set i w').take n, v = .exited := by
  intro v hv
  have hle : n ≤ i := by
    by_contra hlt
    refine hlive (h.joined n hn w (List.mem_take_iff_getElem.mpr ?_))
    obtain ⟨hi, rfl⟩ := List.getElem?_eq_some_iff.mp hw
    exact ⟨i, by omega, rfl⟩
  rw [List.take_set_of_le hle] at hv
  exact h.joined n hn v hv

theorem mem_of_mem_set {ws : List Worker} {i : Nat} {w w' : Worker} (h : w ∈ ws.set i w') (hne : w ≠ w') :
    w ∈ ws :=
  (List.mem_or_eq_of_mem_set h).resolve_right hne

theorem inv_work (h : Inv initialThreads maxThreads s) {s' : State} {i : Nat}
    (hfree : s.m_threads[i]? = some .free) (hs : s.work i = some s') : Inv initialThreads maxThreads s' := by
  have hlen : ∀ w, (s.m_threads.set i w).length = s.m_threads.length := fun w => List.length_set
  obtain ⟨task, rest, hqueue, rfl⟩ | ⟨hflag, hqueue, rfl⟩ := work_cases hs
  · obtain ⟨others, hold, hnew⟩ := held_set hfree (.holds task)
    have hne : s.m_threads ≠ [] := h.served (by simp [hqueue])
    refine { h with count := ?_, order := ?_, places := ?_, served := ?_, exited := ?_, joined := ?_ }
    · exact (hlen _).symm ▸ h.count
    · show (s.taken ++ [task]) ++ rest = s.submitted
      rw [← h.order, hqueue, List.append_assoc, List.singleton_append]
    · refine (List.perm_append_singleton task s.taken).trans ((h.places.cons task).trans ?_)
      exact ((hold.cons task).trans hnew.symm).append_right s.executed
    · exact fun _ hnil => hne ((List.set_eq_nil_iff _ _).mp hnil)
    · intro hmem
      have := (h.exited (mem_of_mem_set hmem (by simp))).2
      rw [hqueue] at this
      cases this
    · exact fun n hn => joined_set h hfree (by simp) hn _
  · obtain ⟨others, hold, hnew⟩ := held_set hfree .exited
    refine { h with count := ?_, places := ?_, served := ?_, exited := ?_, joined := ?_ }
    · exact (hlen _).symm ▸ h.count
    · exact h.places.trans ((hold.trans hnew.symm).append_right s.executed)
    · exact fun hne => absurd hqueue hne
    · exact fun _ => ⟨hflag, hqueue⟩
    · exact fun n hn => joined_set h hfree (by simp) hn _

theorem inv_execute (h : Inv initialThreads maxThreads s) {i : Nat} {task : Task}
    (hholds : s.m_threads[i]? = some (.holds task)) : Inv initialThreads maxThreads (s.execute i task) := by
  obtain ⟨others, hold, hnew⟩ := held_set hholds .free
  refine { h with count := ?_, places := ?_, served := ?_, exited := ?_, joined := ?_ }
  · show (s.m_threads.set i .free).length ≤ Nat.max initialThreads s.m_maxThreads
    rw [List.length_set]
    exact h.count
  · -- the task moves from the worker to the executed ones
    refine h.places.trans ((hold.append_right s.executed).trans ?_)
    show (task :: (others ++ s.executed)).Perm ((s.execute i task).held ++ (s.executed ++ [task]))
    rw [← List.append_assoc]
    exact (List.perm_append_singleton task _).symm.trans
      ((hnew.symm.append_right s.executed).append_right [task])
  · exact fun hne hnil => h.served hne ((List.set_eq_nil_iff _ _).mp hnil)
  · exact fun hmem => h.exited (mem_of_mem_set hmem (by simp))
  · exact fun n hn => joined_set h hholds (by simp) hn _

theorem inv_beginWait (h : Inv initialThreads maxThreads s) : Inv initialThreads maxThreads s.beginWait := by
  refine { h with exited := ?_, flag := ?_, joined := ?_ }
  · exact fun hmem => ⟨rfl, (h.exited hmem).2⟩
  · simp [beginWait]
  · intro n hn w hw
    obtain rfl := Waiter.joining.inj hn
    simp at hw

theorem inv_join (h : Inv initialThreads maxThreads s) {joined : Nat} (hwaiter : s.waiter = .joining joined)
    (hexited : s.m_threads[joined]? = some .exited) :
    Inv initialThreads maxThreads { s with waiter := .joining (joined + 1) } := by
  refine { h with flag := ?_, joined := ?_ }
  · have := h.flag
    simp_all
  · intro n hn w hw
    obtain rfl := Waiter.joining.inj hn
    rw [List.take_add_one, hexited] at hw
    rcases List.mem_append.mp hw with hw | hw
    · exact h.joined joined hwaiter w hw
    · simpa using hw

/-- When every thread has exited nothing is queued or held. -/
theorem drained_of_exited (h : Inv initialThreads maxThreads s) (hall : ∀ w ∈ s.m_threads, w = .exited) :
    s.m_taskQueue = [] ∧ s.held = [] := by
  constructor
  · by_contra hne
    obtain ⟨w, hw⟩ := List.exists_mem_of_ne_nil _ (h.served hne)
    obtain rfl := hall w hw
    exact hne (h.exited hw).2
  · rw [held, List.filterMap_eq_nil_iff]
    intro w hw
    rw [hall w hw]
    rfl

/-- When the joins have ended nothing is queued or held. -/
theorem drained (h : Inv initialThreads maxThreads s) (hjoined : Joined s) :
    s.m_taskQueue = [] ∧ s.held = [] := by
  have hall := h.joined _ hjoined
  rw [List.take_length] at hall
  exact drained_of_exited h hall

theorem inv_endWait (h : Inv initialThreads maxThreads s) (hjoined : Joined s) :
    Inv initialThreads maxThreads s.endWait := by
  obtain ⟨hqueue, hheld⟩ := drained h hjoined
  refine { h with count := ?_, places := ?_, served := ?_, exited := ?_, flag := ?_, joined := ?_ }
  · exact Nat.zero_le _
  · show s.taken.Perm ([] ++ s.executed)
    rw [← hheld]
    exact h.places
  · exact fun hne => absurd hqueue hne
  · exact fun hmem => by cases hmem
  · simp [endWait]
  · exact fun n hn => by cases hn

theorem inv_step {s' : State} (h : Inv initialThreads maxThreads s) (hstep : Step s s') :
    Inv initialThreads maxThreads s' := by
  cases hstep with
  | call => exact inv_call h
  | addTask hcallers hflag => exact inv_addTask h hcallers hflag
  | work hfree hs => exact inv_work h hfree hs
  | execute hholds => exact inv_execute h hholds
  | beginWait _ => exact inv_beginWait h
  | join hwaiter hexited => exact inv_join h hwaiter hexited
  | endWait hjoined => exact inv_endWait h hjoined

/-- **What every interleaving keeps.** -/
theorem reachable_inv (hs : Reachable initialThreads maxThreads s) : Inv initialThreads maxThreads s := by
  induction hs with
  | refl => exact inv_create
  | tail _ hstep ih => exact inv_step ih hstep

/-! ## Whole runs -/

theorem submitted_step {s' : State} (hstep : Step s s') : s.submitted <+: s'.submitted := by
  cases hstep with
  | @addTask task before after _ _ =>
    obtain ⟨-, hsubmitted, -⟩ := addTask_others task s
    show s.submitted <+: (s.addTask task).submitted
    rw [hsubmitted]
    exact List.prefix_append _ _
  | work _ hs =>
    obtain ⟨task, rest, -, rfl⟩ | ⟨-, -, rfl⟩ := work_cases hs
    · exact List.prefix_rfl
    · exact List.prefix_rfl
  | _ => exact List.prefix_rfl

theorem submitted_run {s' : State} (hrun : Relation.ReflTransGen Step s s') :
    s.submitted <+: s'.submitted := by
  induction hrun with
  | refl => exact List.prefix_rfl
  | tail _ hstep ih => exact ih.trans (submitted_step hstep)

theorem places_perm (h : Inv initialThreads maxThreads s) : s.places.Perm s.submitted := by
  rw [← h.order, places, List.append_assoc]
  exact (h.places.symm.append_left _).trans List.perm_append_comm

theorem places_nodup (h : Inv initialThreads maxThreads s) : (s.callers ++ s.places).Nodup := by
  have hperm := ((places_perm h).append_left s.callers).trans h.calls
  exact hperm.nodup_iff.mpr List.nodup_range

/-- **No interleaving loses a task or executes it twice**, and when the joins of `waitUntilFinished`
have ended everything queued before is executed. -/
theorem pool_run (hs : Reachable initialThreads maxThreads s) :
    (s.places.Perm s.submitted ∧ (s.callers ++ s.places).Nodup) ∧
    s.taken ++ s.m_taskQueue = s.submitted ∧
    (s.m_taskQueue ≠ [] → ∃ w ∈ s.m_threads, w ≠ .exited) ∧
    s.m_threads.length ≤ max initialThreads (max maxThreads 1) ∧
    ∀ s', Relation.ReflTransGen Step s s' → Joined s' →
      s'.m_taskQueue = [] ∧ ∀ task ∈ s.submitted, task ∈ s'.executed := by
  have h := reachable_inv hs
  refine ⟨⟨places_perm h, places_nodup h⟩, h.order, ?_, h.max ▸ h.count, ?_⟩
  · intro hne
    obtain ⟨w, hw⟩ := List.exists_mem_of_ne_nil _ (h.served hne)
    refine ⟨w, hw, ?_⟩
    rintro rfl
    exact hne (h.exited hw).2
  · intro s' hrun hjoined
    have h' : Inv initialThreads maxThreads s' := reachable_inv (hs.trans hrun)
    obtain ⟨hqueue, hheld⟩ := drained h' hjoined
    refine ⟨hqueue, fun task htask => ?_⟩
    have hmem := (places_perm h').mem_iff.mpr ((submitted_run hrun).subset htask)
    rwa [places, hqueue, hheld] at hmem

end Inv

/-- Three tasks on two threads; the wait begins when two of them are held and one is queued. -/
theorem pool_run_drained :
    ∃ s s', Reachable 0 2 s ∧ s.submitted = [1, 0, 2] ∧ s.m_taskQueue = [2] ∧ s.m_threads = [.holds 0, .holds 1] ∧
      Relation.ReflTransGen Step s s' ∧ Joined s' ∧ ∀ task ∈ [1, 0, 2], task ∈ s'.executed := by
  let s : State :=
    { m_maxThreads := 2, m_threads := [.holds 0, .holds 1], m_taskQueue := [2], calls := 3, submitted := [1, 0, 2],
      taken := [1, 0] }
  -- the second call is the first in the section of `addTask`
  have h₁ : Reachable 0 2 _ := .tail (.tail (.tail .refl .call) .call) .call
  have h₂ := h₁.tail (@Step.addTask _ 1 [0] [2] rfl rfl)
  have h₃ := (h₂.tail (@Step.addTask _ 0 [] [2] rfl rfl)).tail (@Step.addTask _ 2 [] [] rfl rfl)
  have h₄ : Reachable 0 2 s := (h₃.tail (@Step.work _ _ 1 rfl rfl)).tail (@Step.work _ _ 0 rfl rfl)
  -- the thread that is done first takes the last task
  have r₁ := (Relation.ReflTransGen.single (Step.beginWait (s := s) rfl)).tail (@Step.execute _ 1 1 rfl)
  have r₂ := (r₁.tail (@Step.work _ _ 1 rfl rfl)).tail (@Step.execute _ 1 2 rfl)
  have r₃ := (r₂.tail (@Step.execute _ 0 0 rfl)).tail (@Step.work _ _ 0 rfl rfl)
  have r₄ := ((r₃.tail (@Step.join _ 0 rfl rfl)).tail (@Step.work _ _ 1 rfl rfl)).tail (@Step.join _ 1 rfl rfl)
  exact ⟨_, _, h₄, rfl, rfl, rfl, r₄, rfl, ((pool_run h₄).2.2.2.2 _ r₄ rfl).2⟩

/-! ## The pool without its threads -/

/-- The pool of `ThreadPool` behind the threads: it counts them and keeps the tasks they hold. -/
structure Refines (s : State) (pool : ThreadPool Task) : Prop where
  m_maxThreads : s.m_maxThreads = pool.m_maxThreads
  threads : s.m_threads.length = pool.threads
  m_taskQueue : s.m_taskQueue = pool.m_taskQueue
  running : s.held.Perm pool.running

theorem create_refines (initialThreads maxThreads : Nat) :
    Refines (create initialThreads maxThreads) (ThreadPool.create initialThreads maxThreads) where
  m_maxThreads := rfl
  threads := List.length_replicate
  m_taskQueue := rfl
  running := by simp [create, held, Worker.task?, ThreadPool.create]

/-- A step of `ThreadPool`: the queue grows, a thread takes a task or finishes one, the pool is as
after its construction, or nothing is done. -/
inductive PoolStep : ThreadPool Task → ThreadPool Task → Prop
  | addTask {pool : ThreadPool Task} (task : Task) : PoolStep pool (pool.addTask task)
  | take {pool pool' : ThreadPool Task} : pool.take = some pool' → PoolStep pool pool'
  | finish {pool pool' : ThreadPool Task} {i : Nat} {task : Task} : pool.finish i = some (task, pool') →
      PoolStep pool pool'
  | restart {pool : ThreadPool Task} : pool.tasks = [] → PoolStep pool (.create 0 pool.m_maxThreads)
  | idle {pool : ThreadPool Task} : PoolStep pool pool

section Refines

variable {initialThreads maxThreads : Nat} {s : State} {pool : ThreadPool Task}

theorem addTask_refines (hr : Refines s pool) (task : Task) : Refines (s.addTask task) (pool.addTask task) := by
  obtain ⟨hqueue, -, -, -, hmax, -⟩ := addTask_others task s
  have hcond : ((s.m_taskQueue ++ [task]).length > 1 ∧ s.m_threads.length < s.m_maxThreads ∨ s.m_threads = []) ↔
      ((pool.m_taskQueue ++ [task]).length > 1 ∧ pool.threads < pool.m_maxThreads ∨ pool.threads = 0) := by
    rw [hr.m_taskQueue, hr.m_maxThreads, ← hr.threads, List.length_eq_zero_iff]
  refine ⟨hmax.trans hr.m_maxThreads, ?_, hqueue.trans (congrArg (· ++ [task]) hr.m_taskQueue), ?_⟩
  · show _ = if _ then pool.threads + 1 else pool.threads
    unfold addTask
    dsimp only
    split
    · next h => rw [if_pos (hcond.mp h), ← hr.threads, addThread, List.length_append, List.length_singleton]
    · next h => rw [if_neg (mt hcond.mpr h), ← hr.threads]
  · rw [addTask_held]
    exact hr.running

theorem work_refines (hr : Refines s pool) {s' : State} {i : Nat} (hfree : s.m_threads[i]? = some .free)
    (hs : s.work i = some s') : ∃ pool', PoolStep pool pool' ∧ Refines s' pool' := by
  obtain ⟨task, rest, hqueue, rfl⟩ | ⟨-, -, rfl⟩ := work_cases hs
  · obtain ⟨others, hold, hnew⟩ := held_set hfree (.holds task)
    have hless : s.held.length < s.m_threads.length :=
      List.length_filterMap_lt_length_iff_exists.mpr ⟨.free, List.mem_of_getElem? hfree, rfl⟩
    obtain ⟨pool', htake, hmax, hthreads, hqueue', hrunning⟩ :=
      ThreadPool.take_cons (hr.m_taskQueue ▸ hqueue) (by rw [← hr.threads, ← hr.running.length_eq]; exact hless)
    refine ⟨pool', .take htake, hr.m_maxThreads.trans hmax.symm, ?_, hqueue'.symm, ?_⟩
    · exact List.length_set.trans (hr.threads.trans hthreads.symm)
    · rw [hrunning]
      exact hnew.trans (((hold.symm.trans hr.running).cons task).trans (List.perm_append_singleton _ _).symm)
  · obtain ⟨others, hold, hnew⟩ := held_set hfree .exited
    exact ⟨pool, .idle, hr.m_maxThreads, List.length_set.trans hr.threads, hr.m_taskQueue,
      hnew.trans (hold.symm.trans hr.running)⟩

theorem execute_refines (hr : Refines s pool) {i : Nat} {task : Task}
    (hholds : s.m_threads[i]? = some (.holds task)) :
    ∃ pool', PoolStep pool pool' ∧ Refines (s.execute i task) pool' := by
  obtain ⟨others, hold, hnew⟩ := held_set hholds .free
  have hrunning : pool.running.Perm (task :: others) := hr.running.symm.trans hold
  obtain ⟨k, hk, rfl⟩ := List.mem_iff_getElem.mp (hrunning.mem_iff.mpr List.mem_cons_self)
  obtain ⟨pool', hfinish, hmax, hthreads, hqueue, hrest⟩ := ThreadPool.finish_of_lt hk
  refine ⟨pool', .finish hfinish, hr.m_maxThreads.trans hmax.symm, ?_, hr.m_taskQueue.trans hqueue.symm, ?_⟩
  · exact List.length_set.trans (hr.threads.trans hthreads.symm)
  · rw [hrest]
    refine hnew.trans (List.Perm.cons_inv (a := pool.running[k]) ?_)
    exact hrunning.symm.trans (List.getElem_cons_eraseIdx_perm hk).symm

theorem endWait_refines (h : Inv initialThreads maxThreads s) (hr : Refines s pool) (hjoined : Joined s) :
    ∃ pool', PoolStep pool pool' ∧ Refines s.endWait pool' := by
  obtain ⟨hqueue, hheld⟩ := drained h hjoined
  have hrunning : pool.running = [] := List.perm_nil.mp (hheld ▸ hr.running.symm)
  have htasks : pool.tasks = [] := by rw [ThreadPool.tasks, ← hr.m_taskQueue, hqueue, hrunning]; rfl
  refine ⟨_, .restart htasks, ?_, rfl, hqueue, .refl _⟩
  show s.m_maxThreads = max pool.m_maxThreads 1
  have := h.max
  rw [← hr.m_maxThreads]
  omega

/-- **The threads refine the pool.** -/
theorem step_refines (h : Inv initialThreads maxThreads s) (hr : Refines s pool) {s' : State}
    (hstep : Step s s') : ∃ pool', PoolStep pool pool' ∧ Refines s' pool' := by
  cases hstep with
  | @addTask task before after _ _ =>
    have := addTask_refines hr task
    exact ⟨_, .addTask task, this.m_maxThreads, this.threads, this.m_taskQueue, this.running⟩
  | work hfree hs => exact work_refines hr hfree hs
  | execute hholds => exact execute_refines hr hholds
  | endWait hjoined => exact endWait_refines h hr hjoined
  | _ => exact ⟨pool, .idle, hr.m_maxThreads, hr.threads, hr.m_taskQueue, hr.running⟩

/-- Every run of the threads is one of the pool. -/
theorem reachable_refines (hs : Reachable initialThreads maxThreads s) :
    ∃ pool, Relation.ReflTransGen PoolStep (ThreadPool.create initialThreads maxThreads) pool ∧
      Refines s pool := by
  induction hs with
  | refl => exact ⟨_, .refl, create_refines initialThreads maxThreads⟩
  | tail hs hstep ih =>
    obtain ⟨pool, hrun, hr⟩ := ih
    obtain ⟨pool', hpool, hr'⟩ := step_refines (reachable_inv hs) hr hstep
    exact ⟨pool', hrun.tail hpool, hr'⟩

end Refines

end Lsp.Workers
