import Mathlib.Logic.Function.Basic
import LspFramework.Handler.Workers

/-!
# Tasks that add tasks, and a wait

The pool with the programs of its tasks, which may call `addTask` on the same pool.  A call waits for
`m_waitForNewTasks`, which `waitUntilFinished` sets again when it has joined all threads; the thread whose task
is in such a call does not exit, so when the wait comes to that thread both wait for each other.

    Stuck s → Step program s s' → Stuck s'                                                     (stuck_step)
    (∀ s', s.beginWait … s' → ¬ Stuck s') ↔ Quiet s                                           (never_stuck)
-/

namespace Lsp.Drain

open Workers (Task)

/-- `κ` are the kinds of tasks. -/
structure State (κ : Type) where
  pool : Workers.State
  /-- the calls of `addTask` a task has still to make -/
  todo : Task → List κ := fun _ => []
  /-- the call a task is in, by the task it brings -/
  inside : Task → Option Task := fun _ => none
  waited : Bool := false

section Algorithm

variable {κ : Type} (program : κ → List κ)

namespace State

def create (initialThreads maxThreads : Nat) : State κ where
  pool := .create initialThreads maxThreads

/-- A call of `addTask` begins, which brings a task of the kind. -/
def call (kind : κ) (s : State κ) : State κ :=
  { s with
    pool := { s.pool with callers := s.pool.callers ++ [s.pool.calls], calls := s.pool.calls + 1 }
    todo := Function.update s.todo s.pool.calls (program kind) }

/-- A task begins its next call. -/
def callFrom (task : Task) (kind : κ) (rest : List κ) (s : State κ) : State κ :=
  { s.call program kind with
    todo := Function.update (s.call program kind).todo task rest
    inside := Function.update s.inside task (some s.pool.calls) }

/-- The call that brings the task returns. -/
def returned (task : Task) (s : State κ) : Task → Option Task :=
  fun t => if s.inside t = some task then none else s.inside t

def beginWait (s : State κ) : State κ := { s with pool := s.pool.beginWait, waited := true }

/-- The tasks that are queued or held by a thread. -/
def active (s : State κ) : List Task := s.pool.m_taskQueue ++ s.pool.held

end State

/-- The steps of the pool; a task ends when all its calls have returned, and `waitUntilFinished` is called
once. -/
inductive Step : State κ → State κ → Prop
  | call {s : State κ} (kind : κ) : Step s (s.call program kind)
  | callFrom {s : State κ} {i : Nat} {task : Task} {kind : κ} {rest : List κ} :
      s.pool.m_threads[i]? = some (.holds task) → s.inside task = none → s.todo task = kind :: rest →
      Step s (s.callFrom program task kind rest)
  | addTask {s : State κ} {task : Task} {before after : List Task} :
      s.pool.callers = before ++ task :: after → s.pool.m_waitForNewTasks = true →
      Step s { s with pool := { s.pool.addTask task with callers := before ++ after }, inside := s.returned task }
  | work {s : State κ} {pool : Workers.State} {i : Nat} : s.pool.m_threads[i]? = some .free →
      s.pool.work i = some pool → Step s { s with pool }
  | execute {s : State κ} {i : Nat} {task : Task} : s.pool.m_threads[i]? = some (.holds task) →
      s.inside task = none → s.todo task = [] → Step s { s with pool := s.pool.execute i task }
  | beginWait {s : State κ} : s.pool.waiter = .outside → s.waited = false → Step s s.beginWait
  | join {s : State κ} {joined : Nat} : s.pool.waiter = .joining joined →
      s.pool.m_threads[joined]? = some .exited →
      Step s { s with pool := { s.pool with waiter := .joining (joined + 1) } }
  | endWait {s : State κ} : Workers.Joined s.pool → Step s { s with pool := s.pool.endWait }

def Reachable (initialThreads maxThreads : Nat) : State κ → Prop :=
  Relation.ReflTransGen (Step program) (State.create initialThreads maxThreads)

end Algorithm

section Stuck

variable {κ : Type} {program : κ → List κ} {initialThreads maxThreads : Nat} {s s' : State κ}

/-- The task of the thread at a place is in `addTask`, which waits for `m_waitForNewTasks`. -/
def Blocked (s : State κ) (i : Nat) : Prop :=
  ∃ task brought, s.pool.m_threads[i]? = some (.holds task) ∧ s.inside task = some brought ∧
    s.pool.m_waitForNewTasks = false

/-- `waitUntilFinished` joins a thread that waits for `waitUntilFinished`. -/
def Stuck (s : State κ) : Prop := ∃ n, s.pool.waiter = .joining n ∧ Blocked s n

/-- No queued task and no running one has a call of `addTask` to make, or is in one. -/
def Quiet (s : State κ) : Prop := ∀ task ∈ s.active, s.todo task = [] ∧ s.inside task = none

/-- A step that begins the wait only in a quiet state. -/
def QuietStep (program : κ → List κ) (s s' : State κ) : Prop :=
  Step program s s' ∧ (s.waited = false → s'.waited = true → Quiet s)

/-! ## Lemmas -/

theorem step_pool (hstep : Step program s s') : Workers.Step s.pool s'.pool := by
  cases hstep with
  | call kind => exact .call
  | callFrom _ _ _ => exact .call
  | addTask hcallers hflag => exact .addTask hcallers hflag
  | work hfree hs => exact .work hfree hs
  | execute hholds _ _ => exact .execute hholds
  | beginWait hwaiter _ => exact .beginWait hwaiter
  | join hwaiter hexited => exact .join hwaiter hexited
  | endWait hjoined => exact .endWait hjoined

theorem pool_inv (hs : Reachable program initialThreads maxThreads s) :
    Workers.Inv initialThreads maxThreads s.pool :=
  Workers.reachable_inv (Relation.ReflTransGen.lift State.pool (fun _ _ => step_pool) _ _ hs)

theorem mem_held {i : Nat} {task : Task} (h : s.pool.m_threads[i]? = some (.holds task)) :
    task ∈ s.active :=
  List.mem_append_right _ (List.mem_filterMap.mpr ⟨_, List.mem_of_getElem? h, rfl⟩)

/-- An active task came with an earlier call. -/
theorem lt_calls (h : Workers.Inv initialThreads maxThreads s.pool) {task : Task} (htask : task ∈ s.active) :
    task < s.pool.calls := by
  have hplaces : task ∈ s.pool.places := List.mem_append_left _ htask
  have hsubmitted := (Workers.places_perm h).mem_iff.mp hplaces
  exact List.mem_range.mp (h.calls.mem_iff.mp (List.mem_append_right _ hsubmitted))

theorem call_todo (h : Workers.Inv initialThreads maxThreads s.pool) (kind : κ) {task : Task}
    (htask : task ∈ s.active) : (s.call program kind).todo task = s.todo task :=
  Function.update_of_ne (Nat.ne_of_lt (lt_calls h htask)) _ _

/-- A thread that holds a task still does when another place changes. -/
theorem set_others {threads : List Workers.Worker} {n i : Nat} {w : Workers.Worker} {task : Task}
    (hholds : threads[n]? = some (.holds task)) (hw : threads[i]? = some w) (hne : w ≠ .holds task)
    (w' : Workers.Worker) : (threads.set i w')[n]? = some (.holds task) := by
  have hin : i ≠ n := by
    rintro rfl
    exact hne (Option.some.inj (hw.symm.trans hholds))
  rw [List.getElem?_set_ne hin]
  exact hholds

/-- **Once it is stuck, nothing the pool does ends it.** -/
theorem stuck_step (hstuck : Stuck s) (hstep : Step program s s') : Stuck s' := by
  obtain ⟨n, hwaiter, task, brought, hholds, hinside, hflag⟩ := hstuck
  cases hstep with
  | call kind => exact ⟨n, hwaiter, task, brought, hholds, hinside, hflag⟩
  | @callFrom _ other _ _ _ hnone _ =>
    have hne : task ≠ other := by
      rintro rfl
      rw [hinside] at hnone
      cases hnone
    exact ⟨n, hwaiter, task, brought, hholds, (Function.update_of_ne hne _ _).trans hinside, hflag⟩
  | addTask _ htrue =>
    rw [hflag] at htrue
    cases htrue
  | work hfree hs =>
    obtain ⟨_, rest, -, rfl⟩ | ⟨-, -, rfl⟩ := Workers.work_cases hs
    · exact ⟨n, hwaiter, task, brought, set_others hholds hfree nofun _, hinside, hflag⟩
    · exact ⟨n, hwaiter, task, brought, set_others hholds hfree nofun _, hinside, hflag⟩
  | @execute i other hother hnone _ =>
    have hne : Workers.Worker.holds other ≠ .holds task := by
      rintro heq
      obtain rfl := Workers.Worker.holds.inj heq
      rw [hinside] at hnone
      cases hnone
    exact ⟨n, hwaiter, task, brought, set_others hholds hother hne _, hinside, hflag⟩
  | beginWait houtside _ =>
    rw [hwaiter] at houtside
    cases houtside
  | join hjoining hexited =>
    obtain rfl := Workers.Waiter.joining.inj (hwaiter.symm.trans hjoining)
    cases hholds.symm.trans hexited
  | endWait hjoined =>
    obtain rfl := Workers.Waiter.joining.inj (hwaiter.symm.trans hjoined)
    rw [List.getElem?_eq_none (Nat.le_refl _)] at hholds
    cases hholds

/-! ## Quiet states -/

theorem quiet_congr (hactive : ∀ task, task ∈ s'.active ↔ task ∈ s.active)
    (hsame : ∀ task ∈ s.active, s'.todo task = s.todo task ∧ s'.inside task = s.inside task) :
    Quiet s' ↔ Quiet s := by
  constructor
  · intro h task htask
    obtain ⟨htodo, hinside⟩ := hsame task htask
    rw [← htodo, ← hinside]
    exact h task ((hactive task).mpr htask)
  · intro h task htask
    have htask' := (hactive task).mp htask
    obtain ⟨htodo, hinside⟩ := hsame task htask'
    rw [htodo, hinside]
    exact h task htask'

/-- A thread that takes a task, or exits, leaves the tasks what they are. -/
theorem quiet_work {pool : Workers.State} {i : Nat} (hfree : s.pool.m_threads[i]? = some .free)
    (hs : s.pool.work i = some pool) : Quiet { s with pool } ↔ Quiet s := by
  refine quiet_congr (fun task => ?_) fun _ _ => ⟨rfl, rfl⟩
  obtain ⟨taken, rest, hqueue, rfl⟩ | ⟨-, -, rfl⟩ := Workers.work_cases hs
  · obtain ⟨others, hold, hnew⟩ := Workers.held_set hfree (.holds taken)
    have hactive : (rest ++ (s.pool.m_threads.set i (.holds taken)).filterMap Workers.Worker.task?).Perm
        (s.pool.m_taskQueue ++ s.pool.held) := by
      rw [hqueue]
      exact (hnew.append_left rest).trans (List.perm_middle.trans ((hold.symm.append_left rest).cons taken))
    exact hactive.mem_iff
  · obtain ⟨others, hold, hnew⟩ := Workers.held_set hfree .exited
    exact ((hnew.trans hold.symm).append_left _).mem_iff

/-- So does a task that ends. -/
theorem quiet_execute {i : Nat} {task : Task} (hholds : s.pool.m_threads[i]? = some (.holds task))
    (hinside : s.inside task = none) (htodo : s.todo task = []) :
    Quiet { s with pool := s.pool.execute i task } ↔ Quiet s := by
  obtain ⟨others, hold, hnew⟩ := Workers.held_set hholds .free
  have hactive : (task :: (s.pool.m_taskQueue ++ (s.pool.m_threads.set i .free).filterMap Workers.Worker.task?)).Perm
      s.active :=
    ((hnew.append_left _).cons task).trans (List.perm_middle.symm.trans (hold.symm.append_left _))
  have hmem : ∀ t, t ∈ s.active ↔ t = task ∨ t ∈ ({ s with pool := s.pool.execute i task } : State κ).active :=
    fun t => hactive.mem_iff.symm.trans List.mem_cons
  constructor
  · intro h t ht
    rcases (hmem t).mp ht with rfl | ht'
    · exact ⟨htodo, hinside⟩
    · exact h t ht'
  · exact fun h t ht => h t ((hmem t).mpr (.inr ht))

/-- While the pool is drained its quiet states are left only to quiet ones. -/
theorem quiet_step (h : Workers.Inv initialThreads maxThreads s.pool) (hquiet : Quiet s)
    (hstep : Step program s s') (hflag : s.pool.m_waitForNewTasks = false)
    (hflag' : s'.pool.m_waitForNewTasks = false) : Quiet s' := by
  cases hstep with
  | call kind =>
    have hsame : Quiet (s.call program kind) ↔ Quiet s :=
      quiet_congr (fun _ => .rfl) fun _ ht => ⟨call_todo h kind ht, rfl⟩
    exact hsame.mpr hquiet
  | callFrom hholds _ htodo =>
    rw [(hquiet _ (mem_held hholds)).1] at htodo
    cases htodo
  | addTask _ htrue =>
    rw [hflag] at htrue
    cases htrue
  | work hfree hs => exact (quiet_work hfree hs).mpr hquiet
  | execute hholds hinside htodo => exact (quiet_execute hholds hinside htodo).mpr hquiet
  | beginWait _ _ => exact (quiet_congr (fun _ => .rfl) fun _ _ => ⟨rfl, rfl⟩).mpr hquiet
  | join _ _ => exact (quiet_congr (fun _ => .rfl) fun _ _ => ⟨rfl, rfl⟩).mpr hquiet
  | endWait _ => cases hflag'

/-- What keeps the wait from being stuck. -/
def Safe (s : State κ) : Prop := s.pool.m_waitForNewTasks = false → s.waited = true ∧ Quiet s

theorem not_stuck_of_safe (hsafe : Safe s) : ¬ Stuck s := by
  rintro ⟨n, -, task, brought, hholds, hinside, hflag⟩
  rw [((hsafe hflag).2 task (mem_held hholds)).2] at hinside
  cases hinside

/-- The flag is cleared by the wait alone, and the wait is called once. -/
theorem flag_step (hstep : Step program s s') :
    (s.waited = false ∧ s' = s.beginWait) ∨
      s'.waited = s.waited ∧ (s.pool.m_waitForNewTasks = true → s'.pool.m_waitForNewTasks = true) := by
  cases hstep with
  | @addTask task _ _ _ htrue =>
    obtain ⟨-, -, -, -, -, hwait, -⟩ := Workers.addTask_others task s.pool
    exact .inr ⟨rfl, fun _ => hwait.trans htrue⟩
  | work _ hs =>
    obtain ⟨_, rest, -, rfl⟩ | ⟨-, -, rfl⟩ := Workers.work_cases hs
    · exact .inr ⟨rfl, id⟩
    · exact .inr ⟨rfl, id⟩
  | beginWait _ hwaited => exact .inl ⟨hwaited, rfl⟩
  | endWait _ => exact .inr ⟨rfl, fun _ => rfl⟩
  | _ => exact .inr ⟨rfl, id⟩

theorem safe_step (h : Workers.Inv initialThreads maxThreads s.pool) (hsafe : Safe s)
    (hstep : QuietStep program s s') : Safe s' := by
  obtain ⟨hstep, hquiet⟩ := hstep
  intro hflag'
  rcases flag_step hstep with ⟨hwaited, rfl⟩ | ⟨hwaited, hkeep⟩
  · exact ⟨rfl, hquiet hwaited rfl⟩
  · cases hflag : s.pool.m_waitForNewTasks with
    | true =>
      rw [hkeep hflag] at hflag'
      cases hflag'
    | false =>
      obtain ⟨hwas, hquiet⟩ := hsafe hflag
      exact ⟨hwaited.trans hwas, quiet_step h hquiet hstep hflag hflag'⟩

theorem safe_run (h : Workers.Inv initialThreads maxThreads s.pool) (hsafe : Safe s)
    (hrun : Relation.ReflTransGen (QuietStep program) s s') :
    Workers.Inv initialThreads maxThreads s'.pool ∧ Safe s' := by
  induction hrun with
  | refl => exact ⟨h, hsafe⟩
  | tail _ hstep ih => exact ⟨Workers.inv_step ih.1 (step_pool hstep.1), safe_step ih.1 ih.2 hstep⟩

theorem waited_run (hwaited : s.waited = true) (hrun : Relation.ReflTransGen (Step program) s s') :
    Relation.ReflTransGen (QuietStep program) s s' ∧ s'.waited = true := by
  induction hrun with
  | refl => exact ⟨.refl, hwaited⟩
  | @tail t t' _ hstep ih =>
    obtain ⟨hrun, hwas⟩ := ih
    have hno : t.waited ≠ false := by simp [hwas]
    refine ⟨hrun.tail ⟨hstep, fun hfalse => absurd hfalse hno⟩, ?_⟩
    rcases flag_step hstep with ⟨hfalse, -⟩ | ⟨hsame, -⟩
    · exact absurd hfalse hno
    · exact hsame.trans hwas

/-! ## The way to a stuck state -/

def status : Option Workers.Worker → Nat
  | some .free => 1
  | some (.holds _) => 2
  | _ => 0

/-- How far the wait, which joins the thread at `n`, is from its end if that thread does all the work. -/
def distance (s : State κ) (n : Nat) : Nat :=
  2 * s.pool.m_taskQueue.length + status s.pool.m_threads[n]? + 3 * (s.pool.m_threads.length - n)

theorem status_le (w : Option Workers.Worker) : status w ≤ 2 := by
  rcases w with _ | _ | _ | _
  all_goals simp [status]

/-- A step after which the wait is nearer to its end, in a state that is not quiet. -/
def Nearer (program : κ → List κ) (s : State κ) (n : Nat) : Prop :=
  ∃ s' n', Step program s s' ∧ s'.pool.waiter = .joining n' ∧ ¬ Quiet s' ∧ distance s' n' < distance s n

theorem nearer_exited {n : Nat} (hwaiter : s.pool.waiter = .joining n)
    (hthread : s.pool.m_threads[n]? = some .exited) (hquiet : ¬ Quiet s) : Nearer program s n := by
  have hlt : n < s.pool.m_threads.length := (List.getElem?_eq_some_iff.mp hthread).1
  refine ⟨_, n + 1, .join hwaiter hthread, rfl, hquiet, ?_⟩
  have := status_le s.pool.m_threads[n + 1]?
  show 2 * s.pool.m_taskQueue.length + status s.pool.m_threads[n + 1]? +
    3 * (s.pool.m_threads.length - (n + 1)) < distance s n
  rw [distance]
  omega

/-- A free thread takes a task, or exits. -/
theorem nearer_free {n : Nat} (hwaiter : s.pool.waiter = .joining n) (hflag : s.pool.m_waitForNewTasks = false)
    (hthread : s.pool.m_threads[n]? = some .free) (hquiet : ¬ Quiet s) : Nearer program s n := by
  have hlt : n < s.pool.m_threads.length := (List.getElem?_eq_some_iff.mp hthread).1
  have hset : ∀ w, (s.pool.m_threads.set n w)[n]? = some w := fun w => List.getElem?_set_self hlt
  obtain ⟨pool, hwork⟩ : ∃ pool, s.pool.work n = some pool := by
    cases hqueue : s.pool.m_taskQueue <;> simp [Workers.State.work, hqueue, hflag]
  refine ⟨_, n, .work hthread hwork, ?_, mt (quiet_work hthread hwork).mp hquiet, ?_⟩
  · obtain ⟨_, rest, -, rfl⟩ | ⟨-, -, rfl⟩ := Workers.work_cases hwork
    · exact hwaiter
    · exact hwaiter
  · obtain ⟨_, rest, hqueue, rfl⟩ | ⟨-, -, rfl⟩ := Workers.work_cases hwork
    · simp only [distance, hset, hthread, status, hqueue, List.length_cons, List.length_set]
      omega
    · simp only [distance, hset, hthread, status, List.length_set]
      omega

theorem nearer_execute {n : Nat} {task : Task} (hwaiter : s.pool.waiter = .joining n)
    (hthread : s.pool.m_threads[n]? = some (.holds task)) (hinside : s.inside task = none)
    (htodo : s.todo task = []) (hquiet : ¬ Quiet s) : Nearer program s n := by
  have hlt : n < s.pool.m_threads.length := (List.getElem?_eq_some_iff.mp hthread).1
  refine ⟨_, n, .execute hthread hinside htodo, hwaiter, mt (quiet_execute hthread hinside htodo).mp hquiet, ?_⟩
  simp only [distance, Workers.State.execute, List.getElem?_set_self hlt, hthread, status, List.length_set]
  omega

/-- A task that begins a call while the wait joins its thread. -/
theorem stuck_callFrom {n : Nat} {task : Task} {kind : κ} {rest : List κ}
    (hwaiter : s.pool.waiter = .joining n) (hflag : s.pool.m_waitForNewTasks = false)
    (hthread : s.pool.m_threads[n]? = some (.holds task)) : Stuck (s.callFrom program task kind rest) :=
  ⟨n, hwaiter, task, s.pool.calls, hthread, Function.update_self _ _ _, hflag⟩

/-- While the wait joins a thread and the state is not quiet, there is a step nearer to its end, or the thread
is blocked at once. -/
theorem stuck_or_nearer (h : Workers.Inv initialThreads maxThreads s.pool) {n : Nat}
    (hwaiter : s.pool.waiter = .joining n) (hquiet : ¬ Quiet s) :
    (∃ s', Relation.ReflTransGen (Step program) s s' ∧ Stuck s') ∨ Nearer program s n := by
  have hflag : s.pool.m_waitForNewTasks = false := by
    cases hflag : s.pool.m_waitForNewTasks with
    | false => rfl
    | true => cases hwaiter.symm.trans (h.flag.mp hflag)
  cases hthread : s.pool.m_threads[n]? with
  | none =>
    -- all threads are joined, so no task is left
    have hall := h.joined n hwaiter
    rw [List.take_of_length_le (List.getElem?_eq_none_iff.mp hthread)] at hall
    obtain ⟨hqueue, hheld⟩ := Workers.drained_of_exited h hall
    refine absurd (fun task htask => ?_) hquiet
    rw [State.active, hqueue, hheld] at htask
    cases htask
  | some w =>
    cases w with
    | exited => exact .inr (nearer_exited hwaiter hthread hquiet)
    | free => exact .inr (nearer_free hwaiter hflag hthread hquiet)
    | holds task =>
      cases hinside : s.inside task with
      | some brought => exact .inl ⟨s, .refl, n, hwaiter, task, brought, hthread, hinside, hflag⟩
      | none =>
        cases htodo : s.todo task with
        | nil => exact .inr (nearer_execute hwaiter hthread hinside htodo hquiet)
        | cons kind rest =>
          exact .inl ⟨_, .single (.callFrom hthread hinside htodo), stuck_callFrom hwaiter hflag hthread⟩

theorem reaches_stuck (h : Workers.Inv initialThreads maxThreads s.pool) {n : Nat}
    (hwaiter : s.pool.waiter = .joining n) (hquiet : ¬ Quiet s) :
    ∃ s', Relation.ReflTransGen (Step program) s s' ∧ Stuck s' := by
  induction hd : distance s n using Nat.strong_induction_on generalizing s n with
  | _ d ih =>
    obtain hstuck | ⟨s', n', hstep, hwaiter', hquiet', hless⟩ := stuck_or_nearer h hwaiter hquiet
    · exact hstuck
    · obtain ⟨s'', hrun, hstuck⟩ :=
        ih _ (hd ▸ hless) (Workers.inv_step h (step_pool hstep)) hwaiter' hquiet' rfl
      exact ⟨s'', .head hstep hrun, hstuck⟩

/-- **When the wait does not get stuck**: in no run whose wait begins in a quiet state, and from any other
state the wait can. -/
theorem never_stuck (program : κ → List κ) (initialThreads maxThreads : Nat) :
    (∀ s, Relation.ReflTransGen (QuietStep program) (.create initialThreads maxThreads) s → ¬ Stuck s) ∧
      ∀ s, Reachable program initialThreads maxThreads s → Step program s s.beginWait →
        ((∀ s', Relation.ReflTransGen (Step program) s.beginWait s' → ¬ Stuck s') ↔ Quiet s) := by
  constructor
  · intro s hrun
    exact not_stuck_of_safe (safe_run (s := .create initialThreads maxThreads) Workers.inv_create nofun hrun).2
  · intro s hs hbegin
    have h' := Workers.inv_step (pool_inv hs) (step_pool hbegin)
    have hsame : Quiet s.beginWait ↔ Quiet s := quiet_congr (fun _ => .rfl) fun _ _ => ⟨rfl, rfl⟩
    constructor
    · intro hnever
      by_contra hquiet
      obtain ⟨s', hrun, hstuck⟩ := reaches_stuck h' (n := 0) rfl (mt hsame.mp hquiet)
      exact hnever s' hrun hstuck
    · intro hquiet s' hrun
      exact not_stuck_of_safe (safe_run h' (fun _ => ⟨rfl, hsame.mpr hquiet⟩) (waited_run rfl hrun).1).2

end Stuck

/-- A task that adds one other task. -/
def nested : Bool → List Bool
  | true => [false]
  | false => []

/-- A wait for a queued task that adds none. -/
theorem never_stuck_single :
    ∃ s, Reachable nested 0 1 s ∧ s.active = [0] ∧
      ∀ s', Relation.ReflTransGen (Step nested) s.beginWait s' → ¬ Stuck s' := by
  let s := State.call nested false (.create 0 1)
  let queued : State Bool := { s with pool := { s.pool.addTask 0 with callers := [] }, inside := s.returned 0 }
  have hcall : Step nested (.create 0 1) s := .call false
  have hadd : Step nested s queued := @Step.addTask _ _ s 0 [] [] rfl rfl
  have hs : Reachable nested 0 1 queued := (Relation.ReflTransGen.single hcall).tail hadd
  have hquiet : Quiet queued := by
    intro task htask
    obtain rfl : task = 0 := List.mem_singleton.mp htask
    exact ⟨rfl, rfl⟩
  exact ⟨queued, hs, rfl, ((never_stuck nested 0 1).2 queued hs (.beginWait rfl rfl)).mpr hquiet⟩

/-- **The wait begins while the task runs, before its call of `addTask`.** -/
theorem nested_stuck : ∃ s, Reachable nested 0 1 s ∧ Stuck s := by
  let s₁ := State.call nested true (.create 0 1)
  let s₂ : State Bool := { s₁ with pool := { s₁.pool.addTask 0 with callers := [] }, inside := s₁.returned 0 }
  let s₃ : State Bool :=
    { s₂ with pool := { s₂.pool with m_taskQueue := [], taken := [0], m_threads := [.holds 0] } }
  have hcall : Step nested (.create 0 1) s₁ := .call true
  have hadd : Step nested s₁ s₂ := @Step.addTask _ _ s₁ 0 [] [] rfl rfl
  have htake : Step nested s₂ s₃ := .work (i := 0) rfl rfl
  have hbegin : Step nested s₃ s₃.beginWait := .beginWait rfl rfl
  have hblock : Step nested s₃.beginWait (s₃.beginWait.callFrom nested 0 false []) :=
    .callFrom (i := 0) rfl rfl rfl
  refine ⟨_, ((((Relation.ReflTransGen.single hcall).tail hadd).tail htake).tail hbegin).tail hblock, ?_⟩
  exact ⟨0, rfl, 0, 1, rfl, rfl, rfl⟩

end Lsp.Drain
