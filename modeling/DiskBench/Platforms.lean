import DiskBench.Threads

/-!
# The two platforms

`win32_queue_wait` hands over one completion and returns, `linux_queue_wait` hands over those that
there are. So the threads do nothing on Windows that they could not do on Linux, where the same
completion is followed by the return of the call.
-/

namespace DiskBench

open Sharing Transition

variable {γ : Type} {config : Config} {G : Generator γ} {s t : IoState γ} {a : Action γ}

/-- The configuration on a platform. -/
def Config.on (config : Config) (platform : Platform) : Config :=
  { config with platform := platform }

/-- A call of `queue_wait` has seen no completion yet. -/
def WaitsAfresh (s : IoState γ) : Prop :=
  ∀ caller events received oldActive block,
    s.pc = .wait caller events received oldActive block → oldActive = s.queue.active

section Places

variable {queue : AsyncQueue} {caller caller' : Caller} {events events' received received' : ℕ}
  {oldActive oldActive' : UInt32} {block ok : Bool}

theorem waitLoop_afresh
    (h : waitLoop queue caller events received = .wait caller' events' received' oldActive block) :
    oldActive = queue.active := by
  unfold waitLoop at h
  split at h
  · cases h
    rfl
  · cases caller <;> cases h

theorem waitReturned_afresh
    (h : waitReturned config queue caller events received oldActive' ok =
      .wait caller' events' received' oldActive block) : oldActive = queue.active := by
  unfold waitReturned at h
  split at h
  · cases h
  split at h
  · cases caller <;> cases h
  · exact waitLoop_afresh h

end Places

/-- On Windows every call sees one completion at most. -/
theorem WaitsAfresh.of_step (h : WaitsAfresh s) (hstep : step (config.on .win32) G s a = some t) :
    WaitsAfresh t := by
  intro caller events received oldActive block hwait
  cases step_next hstep with
  | timeout clock accepted hpc htime => exact waitLoop_afresh hwait
  | stop clock accepted i rest hpc hready hlimit => exact waitLoop_afresh hwait
  | submit clock accepted i rest data seed target hpc htime hready hlimit hfill hassert =>
    exact waitLoop_afresh hwait
  | effect i k hi hk =>
    obtain ⟨buf, hqueue⟩ := effect_queue s i k
    rw [effect_pc] at hwait
    rw [hqueue, h _ _ _ _ _ hwait]
    rfl
  | notify i transfer now caller' events' received' oldActive' block' worker workload queue hpc hi
      hnotifies hnotify =>
    exact waitReturned_afresh hwait
  | drop i transfer now caller' events' received' oldActive' block' hpc hi hnotifies =>
    exact waitReturned_afresh hwait
  | waitReturn ok caller' events' received' oldActive' block' hpc hok =>
    exact waitReturned_afresh hwait
  | _ => cases hwait

/-- A completion is handed over in a call of `queue_wait`. -/
theorem exists_wait_of_reap {i : ℕ} {transfer : Transfer} {now : AprTime}
    (hstep : step config G s (.reap i transfer now) = some t) :
    ∃ caller events received oldActive block,
      s.pc = .wait caller events received oldActive block := by
  simp only [step] at hstep
  split at hstep
  · exact ⟨_, _, _, _, _, ‹_›⟩
  · cases hstep

/-- On Linux the call goes on after a completion, and returns when there is no other one. -/
theorem reap_on_linux {i : ℕ} {transfer : Transfer} {now : AprTime} (h : WaitsAfresh s)
    (hP : Cooperative (config.on .win32) s (.reap i transfer now))
    (hstep : step (config.on .win32) G s (.reap i transfer now) = some t) :
    ∃ ops, ops ≠ [] ∧ exec (step (config.on .linux) G) s ops = some t ∧
      Along (step (config.on .linux) G) (Cooperative (config.on .linux)) s ops := by
  cases step_next hstep with
  | notify i transfer now caller events received oldActive block worker workload queue hpc hi
      hnotifies hnotify =>
    have hreap := @step_reap γ (config.on .linux) G s i transfer now caller events received
      oldActive block worker workload queue hpc hi rfl hnotify
    have hreturn := @step_waitReturn γ (config.on .linux) G { s with
      worker := worker
      workload := workload
      queue := queue
      device := s.device.complete i (s.queue.ioaqes i).request transfer } caller events received
      oldActive block hpc
    refine ⟨[.reap i transfer now, .waitReturn true], List.cons_ne_nil _ _, ?_, ?_⟩
    · rw [exec_cons_eq_some]
      refine ⟨_, hreap, ?_⟩
      rw [exec_cons_eq_some]
      refine ⟨_, hreturn, ?_⟩
      rw [exec_nil, hpc]
      rfl
    · refine (along_cons hreap).mpr ⟨rfl, (along_cons hreturn).mpr ⟨?_, trivial⟩⟩
      -- The call has handed over a completion, so fewer entries are in use.
      intro caller' events' received' oldActive' hwait hactive
      have hbefore := h _ _ _ _ _ hpc
      have hafter : queue.active = s.queue.active - 1 := by
        rw [(genericQueueNotify_ok hnotify).1]
        rfl
      cases (show s.pc = _ from hwait).symm.trans hpc
      rw [hbefore, show queue.active = _ from hafter] at hactive
      grind
  | notifyFails i transfer now reason hi hnotify =>
    obtain ⟨caller, events, received, oldActive, block, hpc⟩ := exists_wait_of_reap hstep
    have herror := @step_reap_error γ (config.on .linux) G s i transfer now caller events received
      oldActive block reason hpc hi rfl hnotify
    exact ⟨[.reap i transfer now], List.cons_ne_nil _ _, exec_cons_eq_some.mpr ⟨_, herror, rfl⟩,
      (along_cons herror).mpr ⟨rfl, trivial⟩⟩
  | drop i transfer now caller events received oldActive block hpc hi hnotifies =>
    rw [show _ = true from hP] at hnotifies
    cases hnotifies

/-- What a thread does on Windows it can do on Linux. -/
theorem step_on_linux (h : WaitsAfresh s) (hP : Cooperative (config.on .win32) s a)
    (hstep : step (config.on .win32) G s a = some t) :
    ∃ ops, ops ≠ [] ∧ exec (step (config.on .linux) G) s ops = some t ∧
      Along (step (config.on .linux) G) (Cooperative (config.on .linux)) s ops := by
  have hsame (hlinux : step (config.on .linux) G s a = some t)
      (hP' : Cooperative (config.on .linux) s a) :
      ∃ ops, ops ≠ [] ∧ exec (step (config.on .linux) G) s ops = some t ∧
        Along (step (config.on .linux) G) (Cooperative (config.on .linux)) s ops :=
    ⟨[a], List.cons_ne_nil _ _, exec_cons_eq_some.mpr ⟨t, hlinux, rfl⟩,
      (along_cons hlinux).mpr ⟨hP', trivial⟩⟩
  cases a with
  | reap i transfer now => exact reap_on_linux h hP hstep
  | launch l => exact hsame hstep hP
  | iterate clock accepted => exact hsame hstep hP
  | effect i k => exact hsame hstep hP
  | waitReturn ok => exact hsame hstep hP
  | finish now => exact hsame hstep hP

section Threads

variable {ι φ : Type} [DecidableEq ι] [DecidableEq φ] {file : ι → φ} {worker : ι → IoWorker}
  {generator : ι → γ} {disk : φ → Memory} {threads : ι → IoState γ} {as : List (ι × Action γ)}

/-- **The platforms agree.** Any number of threads take any tests one after another on Windows, in
any interleaving and on any files, while the platform is cooperative. Every state that they reach,
with the contents of the files, the counters and the logs of the requests, they can also reach on
Linux, on a cooperative platform. A transfer that failed on Windows would leave a request counted as
active with nothing in flight, a state that Linux does not reach. -/
theorem windows_states_on_linux
    (hrun : exec (threadsStep (config.on .win32) G file)
      (threadsInitial file worker generator disk) as = some threads)
    (hcooperative : Along (threadsStep (config.on .win32) G file)
      (Acting (Cooperative (config.on .win32))) (threadsInitial file worker generator disk) as) :
    Reaches (threadsStep (config.on .linux) G file) (Acting (Cooperative (config.on .linux)))
      (threadsInitial file worker generator disk) threads := by
  refine together_simulation (I := WaitsAfresh) ?_ ?_ ?_ ?_ ?_ hrun hcooperative
  · exact fun s disk disk' => rfl
  · exact fun s disk h => h
  · exact fun s a t h _ hstep => h.of_step hstep
  · exact fun s a t h hP hstep => step_on_linux h hP hstep
  · intro i caller events received oldActive block hwait
    cases hwait

end Threads

/-- A workload with two writes on Windows: there the thread waits for each of them by itself. -/
def windowsRun : List (Action GeneratorData) :=
  [.launch pairLaunch, .iterate ⟨1, 1, 1⟩ true, .waitReturn true, .iterate ⟨2, 2, 2⟩ true,
    .effect 0 0, .effect 1 0, .reap 1 .full 3, .reap 0 .full 4, .iterate ⟨5, 5, 5⟩ true, .finish 6]

/-- Two threads with two writes each on the same file end on Linux as they do on Windows. -/
theorem windows_states_on_linux_pair : ∃ threads,
    exec (threadsStep (Config.on ⟨false, .win32, 4096, true⟩ .win32) workloads fun _ : Bool => ())
      (threadsInitial (fun _ => ()) (fun _ => pairInitial.worker) (fun _ => pairInitial.generator)
        fun _ => pairInitial.device.disk)
      (windowsRun.flatMap fun a => [(true, a), (false, a)]) = some threads ∧
    (threads true).pc = .done ∧ (threads false).pc = .done ∧
    Reaches (threadsStep (Config.on ⟨false, .win32, 4096, true⟩ .linux) workloads
        fun _ : Bool => ()) (Acting (Cooperative (Config.on ⟨false, .win32, 4096, true⟩ .linux)))
      (threadsInitial (fun _ => ()) (fun _ => pairInitial.worker) (fun _ => pairInitial.generator)
        fun _ => pairInitial.device.disk) threads := by
  have hrun : exec (threadsStep (Config.on ⟨false, .win32, 4096, true⟩ .win32) workloads
        fun _ : Bool => ())
      (threadsInitial (fun _ => ()) (fun _ => pairInitial.worker) (fun _ => pairInitial.generator)
        fun _ => pairInitial.device.disk)
      (windowsRun.flatMap fun a => [(true, a), (false, a)]) = some _ := rfl
  exact ⟨_, hrun, rfl, rfl, windows_states_on_linux hrun (by decide)⟩

end DiskBench
