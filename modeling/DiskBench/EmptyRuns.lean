import Mathlib.Algebra.Order.Ring.Rat
import DiskBench.Steps
import DiskBench.Statistics

/-!
# Runs without completed requests

A thread whose time limit has passed at its first loop test completes no request. The divisions of
`dump_statistics` come before its test for such runs, and `run_tests` reads the last line of the
statistics whether or not one has been added.
-/

namespace DiskBench

section Survival

variable {T : Type} [Add T] [Div T] [NatCast T] [IntCast T] [Mul T] [Zero T] [LT T] [DecidableLT T]

/-- `dump_statistics` divides by nothing that is 0, and the index at which `run_tests` then reads
the last line is inside the array. -/
def Survives (uninitialized : Uninitialized) (statistics : IoStatistics T)
    (workers : List (Option FinishedWorkload)) : Prop :=
  ∃ statistics', dumpStatistics uninitialized statistics workers = some statistics' ∧
    statistics'.lastThroughput.isSome

/-- A test is survived exactly when each of its workloads has completed a request and transferred
at least as many bytes as requests, and the line counts a request or the statistics have a line
already. -/
theorem survives_iff (uninitialized : Uninitialized) (statistics : IoStatistics T)
    (workers : List (Option FinishedWorkload)) :
    Survives uninitialized statistics workers ↔
      (∀ finished ∈ workloadsOf workers, finished.workload.Divides) ∧
        (readRequests workers ≠ 0 ∨ writeRequests workers ≠ 0 ∨ statistics.lines ≠ []) := by
  constructor
  · rintro ⟨statistics', hdump, hlast⟩
    rw [lastThroughput_isSome_iff] at hlast
    obtain ⟨totals, hsum, ⟨_, rfl⟩ | ⟨hrequests, _⟩⟩ := dumpStatistics_some hdump
    · exact ⟨sumWorkers_isSome_iff.mp (Option.isSome_of_eq_some hsum), Or.inr (Or.inr hlast)⟩
    · exact ⟨sumWorkers_isSome_iff.mp (Option.isSome_of_eq_some hsum), by tauto⟩
  · rintro ⟨hdivides, hline⟩
    obtain ⟨totals, hsum⟩ := Option.isSome_iff_exists.mp (sumWorkers_isSome_iff.mpr hdivides :
      (sumWorkers workers.length 0 workers (Totals.initial uninitialized : Totals T)).isSome)
    by_cases hrequests : readRequests workers ≠ 0 ∨ writeRequests workers ≠ 0
    · refine ⟨_, dumpStatistics_of_requests hsum hrequests, ?_⟩
      rw [lastThroughput_isSome_iff]
      simp [IoStatistics.push]
    · rw [not_or, not_not, not_not] at hrequests
      refine ⟨_, dumpStatistics_of_empty hsum hrequests.1 hrequests.2, ?_⟩
      rw [lastThroughput_isSome_iff]
      tauto

end Survival

/-- A thread with no time for its workload. -/
def noTime : List (Action GeneratorData) :=
  [.launch ⟨.sequential ⟨true, 0, 512⟩, 1, 1024, 1024, 0, fun _ _ => 0, true, 0⟩,
    .iterate ⟨1, 1, 1⟩ true, .finish 2]

/-- The thread ends without a request, and `dump_statistics` divides by 0. -/
theorem noTime_traps : ∃ t, Transition.exec (step ⟨false, .linux, 4096, true⟩ workloads)
      (IoState.initial ⟨0, 8192, 0, 0, 0, 88172645463325252, true⟩ (.sequential ⟨true, 0, 512⟩)
        fun _ => 0) noTime = some t ∧ t.pc = .done ∧
    dumpStatistics ⟨0, 0, 0, 0, 0, 0⟩ (IoStatistics.create ['t']) [some ⟨t.workload, t.generator⟩] =
      (none : Option (IoStatistics ℚ)) :=
  ⟨_, rfl, rfl, rfl⟩

end DiskBench
