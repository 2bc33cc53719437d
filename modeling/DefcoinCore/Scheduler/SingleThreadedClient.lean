import Mathlib.Logic.Relation
import Mathlib.Tactic

/-!
# Serial callbacks on a pool of threads

`SingleThreadedSchedulerClient` of `scheduler.cpp` runs callbacks one after the other on the threads
of a `CScheduler`. The flag, the list of pending callbacks and the queue of tasks change in separate
critical sections, so the model is a set of threads that each stand before the next critical section
of the functions they are in; a step is one critical section of one thread. A callback is named by
the number of callbacks that were appended before it. It counts as running from the moment it is
moved out of the list until its thread enters the destructor, whether it returned or threw. While
it runs it may append callbacks itself.

The threads that service the queue take a task of the client whenever there is one: other tasks,
times and the condition variable only restrict which of these steps are taken.
-/

namespace DefcoinCore.Scheduler

open Function List

/-- Where a thread stands in the functions of the client. -/
inductive Frame where
  /-- In `AddToProcessQueue`, before the callback is appended. -/
  | append
  /-- In `MaybeScheduleProcessQueue`, before its critical section. -/
  | check
  /-- In `MaybeScheduleProcessQueue`, before `schedule`. -/
  | schedule
  /-- In `ProcessQueue`, before its critical section. -/
  | process
  /-- In `ProcessQueue`, inside a callback. -/
  | callback (n : Nat)
  /-- In `~RAIICallbacksRunning`, before its critical section. -/
  | clear
  deriving DecidableEq

/-- The thread runs a callback there. -/
def Frame.isCallback : Frame → Bool
  | .callback _ => true
  | _ => false

/-- `SingleThreadedSchedulerClient` with its tasks in the scheduler and the threads `ι`, each with
the functions it is in, the innermost first. -/
structure SingleThreadedSchedulerClient (ι : Type) where
  m_callbacks_pending : List Nat := []
  m_are_callbacks_running : Bool := false
  /-- How many times `ProcessQueue` stands in the `taskQueue` of the scheduler. -/
  taskQueue : Nat := 0
  threads : ι → List Frame := fun _ => []
  /-- How many callbacks were appended so far. -/
  appended : Nat := 0
  /-- The callbacks that were started, in order. -/
  started : List Nat := []

namespace SingleThreadedSchedulerClient

variable {ι : Type} [DecidableEq ι] (s : SingleThreadedSchedulerClient ι)

/-- A thread moves on. -/
def moveTo (i : ι) (l : List Frame) : SingleThreadedSchedulerClient ι :=
  { s with threads := Function.update s.threads i l }

/-- The next critical section of a thread. -/
def resume (i : ι) (s : SingleThreadedSchedulerClient ι) : SingleThreadedSchedulerClient ι :=
  match s.threads i with
  | [] => s
  | .append :: l =>
    { s with m_callbacks_pending := s.m_callbacks_pending ++ [s.appended]
             appended := s.appended + 1 }.moveTo i (.check :: l)
  | .check :: l =>
    if s.m_are_callbacks_running then s.moveTo i l
    else if s.m_callbacks_pending.isEmpty then s.moveTo i l
    else s.moveTo i (.schedule :: l)
  | .schedule :: l => { s with taskQueue := s.taskQueue + 1 }.moveTo i l
  | .process :: l =>
    if s.m_are_callbacks_running then s.moveTo i l
    else
      match s.m_callbacks_pending with
      | [] => s.moveTo i l
      | n :: rest =>
        { s with m_are_callbacks_running := true, m_callbacks_pending := rest
                 started := s.started ++ [n] }.moveTo i (.callback n :: l)
  | .callback _ :: l => s.moveTo i (.clear :: l)
  | .clear :: l => { s with m_are_callbacks_running := false }.moveTo i (.check :: l)

/-- What can happen next. -/
inductive Step : SingleThreadedSchedulerClient ι → Prop
  /-- A thread that is outside, or inside a callback, calls `AddToProcessQueue`. -/
  | add (i : ι) (h : s.threads i = [] ∨ ∃ n l, s.threads i = .callback n :: l) :
      Step (s.moveTo i (.append :: s.threads i))
  /-- A thread of the scheduler takes a task. -/
  | service (i : ι) (h : s.threads i = []) (task : 0 < s.taskQueue) :
      Step ({ s with taskQueue := s.taskQueue - 1 }.moveTo i [.process])
  | resume (i : ι) : Step (s.resume i)

/-- The states that the interleavings of the threads reach. -/
abbrev Reachable : Prop := Relation.ReflTransGen Step {} s

/-- The functions that a thread is in when it does not run a callback. -/
inductive Free : List Frame → Prop
  | idle : Free []
  | append : Free [.append]
  | check : Free [.check]
  | schedule : Free [.schedule]
  | process : Free [.process]

/-- The functions that the thread with the callback is in. -/
inductive Holding : List Frame → Prop
  | callback (n : Nat) : Holding [.callback n]
  | append (n : Nat) : Holding [.append, .callback n]
  | check (n : Nat) : Holding [.check, .callback n]
  | schedule (n : Nat) : Holding [.schedule, .callback n]
  | clear : Holding [.clear]

/-- A thread that will schedule or process when nothing runs. -/
def Serves (l : List Frame) : Prop := l = [.check] ∨ l = [.schedule] ∨ l = [.process]

/-- The flag says whether some thread holds a callback, and pending callbacks are taken care of. -/
structure Inv (owner : Option ι) : Prop where
  flag : s.m_are_callbacks_running = owner.isSome
  holding : ∀ i, owner = some i → Holding (s.threads i)
  free : ∀ i, owner ≠ some i → Free (s.threads i)
  order : s.started ++ s.m_callbacks_pending = List.range s.appended
  served : owner = none → s.m_callbacks_pending ≠ [] → 0 < s.taskQueue ∨ ∃ i, Serves (s.threads i)

variable {s} {s' : SingleThreadedSchedulerClient ι} {owner : Option ι} {i : ι} {l : List Frame}

/-- A thread moves on without taking or giving up a callback. -/
theorem Inv.move (h : s.Inv owner) (hthreads : s'.threads = update s.threads i l)
    (hflag : s'.m_are_callbacks_running = s.m_are_callbacks_running)
    (hholding : owner = some i → Holding l) (hfree : owner ≠ some i → Free l)
    (horder : s'.started ++ s'.m_callbacks_pending = range s'.appended)
    (hserved : owner = none → s'.m_callbacks_pending ≠ [] → 0 < s'.taskQueue ∨ Serves l ∨
      ∃ j, j ≠ i ∧ Serves (s.threads j)) : s'.Inv owner := by
  refine ⟨hflag.trans h.flag, ?_, ?_, horder, ?_⟩
  · intro j hj
    rw [hthreads, update_apply]
    split_ifs with hji
    · exact hholding (hji ▸ hj)
    · exact h.holding j hj
  · intro j hj
    rw [hthreads, update_apply]
    split_ifs with hji
    · exact hfree (hji ▸ hj)
    · exact h.free j hj
  · intro howner hpending
    obtain htask | hl | ⟨j, hj, hs⟩ := hserved howner hpending
    · exact .inl htask
    · exact .inr ⟨i, by rwa [hthreads, update_self]⟩
    · exact .inr ⟨j, by rwa [hthreads, update_of_ne hj]⟩

omit [DecidableEq ι] in
/-- An appended callback is the last in the order. -/
theorem Inv.order_append (h : s.Inv owner) :
    s.started ++ (s.m_callbacks_pending ++ [s.appended]) = range (s.appended + 1) := by
  rw [← append_assoc, h.order, range_succ]

/-- The thread with the callback moves on. -/
theorem Inv.resume_holding (h : s.Inv (some i)) : ∃ owner, (s.resume i).Inv owner := by
  have hrun : s.m_are_callbacks_running := h.flag
  have hl := h.holding i rfl
  unfold resume
  generalize hi : s.threads i = l at hl
  cases hl with
  | callback n =>
    exact ⟨_, h.move rfl rfl (fun _ => .clear) (absurd rfl) h.order nofun⟩
  | append n =>
    exact ⟨_, h.move rfl rfl (fun _ => .check n) (absurd rfl) h.order_append nofun⟩
  | check n =>
    simp only [hrun, if_true]
    exact ⟨_, h.move rfl rfl (fun _ => .callback n) (absurd rfl) h.order nofun⟩
  | schedule n => exact ⟨_, h.move rfl rfl (fun _ => .callback n) (absurd rfl) h.order nofun⟩
  | clear =>
    -- The flag is cleared, and the thread stays to look for pending callbacks.
    refine ⟨none, rfl, nofun, fun j _ => ?_, h.order, fun _ _ => .inr ⟨i, ?_⟩⟩
    · simp only [moveTo, update_apply]
      split_ifs with hji
      · exact .check
      · exact h.free j fun he => hji (Option.some.inj he).symm
    · simp only [moveTo, update_self]
      exact .inl rfl

/-- Another thread moves on. -/
theorem Inv.resume_free (h : s.Inv owner) (hne : owner ≠ some i) :
    ∃ owner, (s.resume i).Inv owner := by
  have hl := h.free i hne
  unfold resume
  generalize hi : s.threads i = l at hl
  cases hl with
  | idle => exact ⟨_, h⟩
  | append =>
    exact ⟨_, h.move rfl rfl (absurd · hne) (fun _ => .check) h.order_append
      fun _ _ => .inr (.inl (.inl rfl))⟩
  | check =>
    split_ifs with hrun hempty
    · refine ⟨_, h.move rfl rfl (absurd · hne) (fun _ => .idle) h.order fun howner _ => ?_⟩
      rw [h.flag, howner] at hrun
      cases hrun
    · exact ⟨_, h.move rfl rfl (absurd · hne) (fun _ => .idle) h.order
        fun _ hp => absurd (isEmpty_iff.mp hempty) hp⟩
    · exact ⟨_, h.move rfl rfl (absurd · hne) (fun _ => .schedule) h.order
        fun _ _ => .inr (.inl (.inr (.inl rfl)))⟩
  | schedule =>
    exact ⟨_, h.move rfl rfl (absurd · hne) (fun _ => .idle) h.order
      fun _ _ => .inl (Nat.succ_pos _)⟩
  | process =>
    simp only
    split_ifs with hrun
    · refine ⟨_, h.move rfl rfl (absurd · hne) (fun _ => .idle) h.order fun howner _ => ?_⟩
      rw [h.flag, howner] at hrun
      cases hrun
    rcases hp : s.m_callbacks_pending with _ | ⟨n, rest⟩
    · exact ⟨_, h.move rfl rfl (absurd · hne) (fun _ => .idle) h.order fun _ hne' => absurd hp hne'⟩
    · -- No thread holds a callback, so this one becomes the owner.
      have hnone : owner = none := by
        rw [h.flag] at hrun
        simpa using hrun
      refine ⟨some i, rfl, ?_, ?_, ?_, nofun⟩
      · rintro j ⟨⟩
        simp only [moveTo, update_self]
        exact .callback n
      · intro j hj
        simp only [moveTo, update_of_ne fun he : j = i => hj (congrArg some he.symm)]
        exact h.free j (by rw [hnone]; nofun)
      · show s.started ++ [n] ++ rest = range s.appended
        rw [← h.order, hp, append_assoc, singleton_append]

/-- Every step keeps the invariant. -/
theorem Step.inv (hs : Step s s') (h : s.Inv owner) : ∃ owner, s'.Inv owner := by
  cases hs with
  | add i hi =>
    rcases hi with hi | ⟨n, l, hi⟩
    · rw [hi]
      refine ⟨owner, h.move rfl rfl (fun ho => ?_) (fun _ => .append) h.order fun ho hp => ?_⟩
      · have hh := h.holding i ho
        rw [hi] at hh
        cases hh
      · refine (h.served ho hp).imp id fun ⟨j, hj⟩ => .inr ⟨j, ?_, hj⟩
        rintro rfl
        rw [hi] at hj
        simp [Serves] at hj
    · by_cases ho : owner = some i
      · have hh := h.holding i ho
        rw [hi] at hh ⊢
        cases hh
        exact ⟨owner, h.move rfl rfl (fun _ => .append n) (absurd ho) h.order
          fun hnone => by cases ho.symm.trans hnone⟩
      · have hh := h.free i ho
        rw [hi] at hh
        cases hh
  | service i hi task =>
    refine ⟨owner, h.move rfl rfl (fun ho => ?_) (fun _ => .process) h.order
      fun _ _ => .inr (.inl (.inr (.inr rfl)))⟩
    have hh := h.holding i ho
    rw [hi] at hh
    cases hh
  | resume i =>
    by_cases ho : owner = some i
    · subst ho
      exact h.resume_holding
    · exact h.resume_free ho

/-- The invariant holds in every interleaving. -/
theorem Reachable.inv (h : Reachable s) : ∃ owner, s.Inv owner := by
  induction h with
  | refl => exact ⟨none, rfl, nofun, fun _ _ => .idle, rfl, fun _ hp => absurd rfl hp⟩
  | tail _ hs ih =>
    obtain ⟨owner, h⟩ := ih
    exact hs.inv h

omit [DecidableEq ι] in
/-- A thread with a callback is the owner. -/
theorem Inv.owner_of_mem (h : s.Inv owner) {n : Nat} (hn : .callback n ∈ s.threads i) :
    owner = some i := by
  by_contra ho
  have hf := h.free i ho
  generalize s.threads i = l at hf hn
  cases hf <;> simp at hn

omit [DecidableEq ι] in
/-- A thread runs one callback at most. -/
theorem Inv.countP_le (h : s.Inv owner) (i : ι) : (s.threads i).countP Frame.isCallback ≤ 1 := by
  by_cases ho : owner = some i
  · have hh := h.holding i ho
    generalize s.threads i = l at hh
    cases hh <;> simp [Frame.isCallback]
  · have hf := h.free i ho
    generalize s.threads i = l at hf
    cases hf <;> simp [Frame.isCallback]

/-- Some steps of one thread alone put `ProcessQueue` into the queue of the scheduler or start a
callback. -/
def WillProcess (s : SingleThreadedSchedulerClient ι) (i : ι) : Prop :=
  ∃ k, s.taskQueue < ((resume i)^[k] s).taskQueue ∨
    s.started.length < ((resume i)^[k] s).started.length

/-- A thread before `schedule`. -/
theorem willProcess_schedule (hi : s.threads i = .schedule :: l) : WillProcess s i :=
  ⟨1, .inl (by simp [resume, hi, moveTo])⟩

/-- A step that leaves the queue and the callbacks alone can be taken first. -/
theorem willProcess_of_resume (h : WillProcess (s.resume i) i)
    (htask : (s.resume i).taskQueue = s.taskQueue) (hstart : (s.resume i).started = s.started) :
    WillProcess s i := by
  obtain ⟨k, hk⟩ := h
  rw [htask, hstart] at hk
  exact ⟨k + 1, hk⟩

/-- A thread that looks for pending callbacks while none runs. -/
theorem willProcess_check (hi : s.threads i = .check :: l)
    (hrun : s.m_are_callbacks_running = false)
    (hp : s.m_callbacks_pending ≠ []) : WillProcess s i := by
  have hstep : s.resume i = s.moveTo i (.schedule :: l) := by simp [resume, hi, hrun, hp]
  refine willProcess_of_resume ?_ (by rw [hstep]; rfl) (by rw [hstep]; rfl)
  rw [hstep]
  exact willProcess_schedule (l := l) (by simp [moveTo])

/-- While callbacks are pending and none runs, a task stands in the queue or a thread will bring
one. -/
theorem Inv.willProcess (h : s.Inv owner) (hp : s.m_callbacks_pending ≠ [])
    (hnone : ∀ i n, .callback n ∉ s.threads i) : 0 < s.taskQueue ∨ ∃ i, WillProcess s i := by
  rcases owner with _ | o
  · have hrun : s.m_are_callbacks_running = false := h.flag
    refine (h.served rfl hp).imp id fun ⟨i, hi⟩ => ⟨i, ?_⟩
    rcases hi with hi | hi | hi
    · exact willProcess_check hi hrun hp
    · exact willProcess_schedule hi
    · obtain ⟨n, rest, hcons⟩ := exists_cons_of_ne_nil hp
      exact ⟨1, .inr (by simp [resume, hi, hrun, hcons, moveTo])⟩
  · -- The owner has left its callback and stands in the destructor.
    have hclear : s.threads o = [.clear] := by
      have hh := h.holding o rfl
      have hn := hnone o
      generalize s.threads o = l at hh hn
      cases hh <;> simp at hn ⊢
    have hstep : s.resume o = { s with m_are_callbacks_running := false }.moveTo o [.check] := by
      simp [resume, hclear]
    refine .inr ⟨o, willProcess_of_resume ?_ (by rw [hstep]; rfl) (by rw [hstep]; rfl)⟩
    rw [hstep]
    exact willProcess_check (l := []) (by simp [moveTo]) rfl hp

/-- In every interleaving at most one callback runs, the callbacks start in the order in which they
were appended, each once at most, and none is stranded. -/
theorem callbacks_serial (h : Reachable s) :
    (∀ i j m n, .callback m ∈ s.threads i → .callback n ∈ s.threads j → i = j) ∧
      (∀ i, (s.threads i).countP Frame.isCallback ≤ 1) ∧
      s.started = List.range s.started.length ∧
      s.started ++ s.m_callbacks_pending = List.range s.appended ∧
      (s.m_callbacks_pending ≠ [] → (∀ i n, .callback n ∉ s.threads i) →
        0 < s.taskQueue ∨ ∃ i, WillProcess s i) := by
  obtain ⟨owner, hinv⟩ := h.inv
  refine ⟨?_, hinv.countP_le, ?_, hinv.order, hinv.willProcess⟩
  · intro i j m n hm hn
    exact Option.some.inj ((hinv.owner_of_mem hm).symm.trans (hinv.owner_of_mem hn))
  · have htake := congrArg (take s.started.length) hinv.order
    have hle := congrArg length hinv.order
    rw [length_append, length_range] at hle
    rwa [take_left, take_range, Nat.min_eq_left (by omega)] at htake

/-- A thread runs the first of two callbacks, and no other thread runs one. -/
theorem callbacks_serial_running :
    ∃ s : SingleThreadedSchedulerClient (Fin 2), Reachable s ∧ s.m_callbacks_pending = [1] ∧
      .callback 0 ∈ s.threads 1 ∧ ∀ i n, .callback n ∈ s.threads i → i = 1 := by
  -- Thread 0 appends both, and thread 1 takes the task that was scheduled for the first.
  have hfirst : Reachable (resume 0 (resume 0 (resume 0 (moveTo {} (0 : Fin 2) [.append])))) :=
    .tail (.tail (.tail (.tail .refl (.add 0 (.inl rfl))) (.resume 0)) (.resume 0)) (.resume 0)
  have hsecond := (hfirst.tail (.add 0 (.inl rfl))).tail (.resume 0)
  have hrunning := (hsecond.tail (.service 1 rfl Nat.one_pos)).tail (.resume 1)
  exact ⟨_, hrunning, rfl, .head _, fun i n h => (callbacks_serial hrunning).1 i 1 n 0 h (.head _)⟩

end SingleThreadedSchedulerClient

end DefcoinCore.Scheduler
