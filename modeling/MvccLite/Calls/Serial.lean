import Mathlib.Data.List.Perm.Basic
import MvccLite.Calls.Jobs

/-! Serializability of transactions that read only what they write: replayed one
at a time in the order of their versions, they answer as they did. -/
namespace MvccLite.Calls
open Library VersionStore

/-- The transactions that wrote nothing and read as of `n`. -/
def readersAt (js : List Job) (n : Nat) : List Job := js.filter (fun j => !j.writes && j.version = n)

/-- The serial order: writers by version, each followed by its readers. -/
def serial (js : List Job) : List Job :=
  readersAt js 0 ++ (writers js).flatMap (fun w => w :: readersAt js w.version)

/-- The jobs one after the other, each alone. -/
def replay (store : VersionStore) (m : TransactionManager) :
    List Job → (VersionStore × TransactionManager) × List (List Observed)
  | [] => ((store, m), [])
  | j :: js =>
    let out := j.work.replay store m
    let rest := replay out.1.1 out.1.2 js
    (rest.1, out.2 :: rest.2)

theorem replay_append (store : VersionStore) (m : TransactionManager) (js js' : List Job) :
    replay store m (js ++ js') =
      ((replay (replay store m js).1.1 (replay store m js).1.2 js').1,
        (replay store m js).2 ++ (replay (replay store m js).1.1 (replay store m js).1.2 js').2) := by
  induction js generalizing store m with
  | nil => rfl
  | cons j js ih => simp [replay, ih]

section replay
variable {log : WriteLog} {store : VersionStore} {n : Nat}

/-- Readers of one version, one after the other, leave the store where it is. -/
private theorem replay_readers {js : List Job} (hall : ∀ j ∈ js, Faithful log j)
    (hread : ∀ j ∈ js, j.writes = false ∧ j.version = n) (hr : Represents (log.take n) 0 store)
    (m : TransactionManager) :
    (replay store m js).2 = js.map Job.outcome ∧ Represents (log.take n) 0 (replay store m js).1.1 := by
  induction js generalizing store m with
  | nil => exact ⟨rfl, hr⟩
  | cons j js ih =>
    obtain ⟨hw, hv⟩ := hread j (by simp)
    obtain ⟨hout, hr'⟩ := (hall j (by simp)).replays store m (by simpa [hw, hv] using hr)
    rw [hv] at hr'
    obtain ⟨houts, hend⟩ := ih (fun k hk => hall k (by simp [hk])) (fun k hk => hread k (by simp [hk])) hr'
      (j.work.replay store m).1.2
    exact ⟨by simp [replay, hout, houts], hend⟩

private theorem readersAt_spec {js : List Job} {j : Job} (hj : j ∈ readersAt js n) :
    j ∈ js ∧ j.writes = false ∧ j.version = n := by
  simpa [readersAt] using hj

/-- The writers of the next versions, each with its readers. -/
private theorem replay_writers {js ws : List Job} (hall : ∀ j ∈ js, Faithful log j)
    (hws : ∀ w ∈ ws, w ∈ js ∧ w.writes = true) {k : Nat} (hvers : ws.map Job.version = List.range' (n + 1) k)
    (hr : Represents (log.take n) 0 store) (m : TransactionManager) :
    (replay store m (ws.flatMap (fun w => w :: readersAt js w.version))).2 =
        (ws.flatMap (fun w => w :: readersAt js w.version)).map Job.outcome ∧
      Represents (log.take (n + k)) 0 (replay store m (ws.flatMap (fun w => w :: readersAt js w.version))).1.1 := by
  induction ws generalizing store m n k with
  | nil =>
    obtain rfl : k = 0 := by simpa using hvers.symm
    exact ⟨rfl, hr⟩
  | cons w ws ih =>
    cases k with
    | zero => simp at hvers
    | succ k =>
      rw [List.range'_succ, List.map_cons] at hvers
      obtain ⟨hv, hrest⟩ := List.cons.inj hvers
      obtain ⟨hmem, hw⟩ := hws w (by simp)
      obtain ⟨hout, hr'⟩ := (hall w hmem).replays store m (by simpa [hw, hv] using hr)
      rw [hv] at hr'
      obtain ⟨hreaders, hr''⟩ := replay_readers (fun j hj => hall j (readersAt_spec hj).1)
        (fun j hj => (readersAt_spec hj).2) hr' (w.work.replay store m).1.2
      obtain ⟨houts, hend⟩ := ih (fun u hu => hws u (by simp [hu])) hrest hr''
        (replay (w.work.replay store m).1.1 (w.work.replay store m).1.2 (readersAt js (n + 1))).1.2
      rw [List.flatMap_cons, List.cons_append, hv]
      refine ⟨?_, ?_⟩
      · simp [replay, replay_append, hout, hreaders, houts]
      · rw [replay, replay_append]
        rwa [Nat.add_right_comm] at hend

end replay

/-- The readers of the versions up to `n`, version by version, are the readers up to `n`. -/
private theorem readers_perm (js : List Job) (n : Nat) :
    ((List.range (n + 1)).flatMap (readersAt js)).Perm (js.filter (fun j => !j.writes && j.version ≤ n)) := by
  induction n with
  | zero =>
    refine List.Perm.of_eq ?_
    simp [readersAt]
  | succ n ih =>
    rw [List.range_succ, List.flatMap_append, List.flatMap_singleton]
    have hsplit := List.filter_append_perm (fun j : Job => decide (j.version ≤ n))
      (js.filter (fun j => !j.writes && j.version ≤ n + 1))
    have hlow : (js.filter (fun j => !j.writes && j.version ≤ n + 1)).filter (fun j => decide (j.version ≤ n)) =
        js.filter (fun j => !j.writes && j.version ≤ n) := by
      rw [List.filter_filter]
      refine List.filter_congr (fun j _ => ?_)
      by_cases h : j.version ≤ n
      · simp [h, Nat.le_succ_of_le h]
      · simp [h]
    have hhigh : (js.filter (fun j => !j.writes && j.version ≤ n + 1)).filter (fun j => !decide (j.version ≤ n)) =
        readersAt js (n + 1) := by
      rw [List.filter_filter]
      refine List.filter_congr (fun j _ => ?_)
      by_cases h : j.version = n + 1
      · simp [h]
      · by_cases hle : j.version ≤ n
        · simp [h, hle]
        · simp [h, hle, show ¬ j.version ≤ n + 1 by omega]
    rw [hlow, hhigh] at hsplit
    exact (ih.append_right _).trans hsplit

/-- Nobody is left out of the serial order, and nobody comes twice. -/
private theorem serial_perm {js : List Job} {n : Nat} (hvers : (writers js).map Job.version = List.range' 1 n)
    (hbound : ∀ j ∈ js, j.version ≤ n) : (serial js).Perm js := by
  have hreaders : readersAt js 0 ++ (writers js).flatMap (fun w => readersAt js w.version) =
      (List.range (n + 1)).flatMap (readersAt js) := by
    rw [← List.flatMap_map Job.version (readersAt js) (writers js), hvers]
    rw [List.range_eq_range', List.range'_succ, List.flatMap_cons]
  have hall : js.filter (fun j => !j.writes && j.version ≤ n) = js.filter (fun j => !j.writes) := by
    refine List.filter_congr (fun j hj => ?_)
    simp [hbound j hj]
  have hwith : ((writers js).flatMap (fun w => w :: readersAt js w.version)).Perm
      (writers js ++ (writers js).flatMap (fun w => readersAt js w.version)) := by
    simpa using (List.map_append_flatMap_perm (writers js) id (fun w => readersAt js w.version)).symm
  have hswap : (readersAt js 0 ++ (writers js ++ (writers js).flatMap (fun w => readersAt js w.version))).Perm
      (writers js ++ (List.range (n + 1)).flatMap (readersAt js)) := by
    rw [← hreaders, ← List.append_assoc, ← List.append_assoc]
    exact List.perm_append_comm.append_right _
  have hrest : (writers js ++ (List.range (n + 1)).flatMap (readersAt js)).Perm
      (writers js ++ js.filter (fun j => !j.writes)) := by
    rw [← hall]
    exact (readers_perm js n).append_left _
  exact (hwith.append_left _).trans (hswap.trans (hrest.trans (List.filter_append_perm Job.writes js)))

/-- Replaying the committed transactions and the successful direct writes one at
a time from an empty store, writers in the order of their versions and readers
right after the version of their snapshot, gives every call the answer it had,
and ends with the same value of every key. -/
theorem committed_transactions_serializable {tr : List Event} {s : Sys} (h : machine.Execution tr s)
    (hreads : ReadsWithinWrites tr) :
    (serial (jobs tr)).Perm (jobs tr) ∧
    (writers (jobs tr)).map Job.version = List.range' 1 s.store.currentVersion ∧
    (replay {} {} (serial (jobs tr))).2 = (serial (jobs tr)).map Job.outcome ∧
    ∀ key, ((replay {} {} (serial (jobs tr))).1.1.get key).observed = (s.store.get key).observed := by
  have hr := represents_of_execution h
  obtain ⟨hall, hvers⟩ := jobs_of_execution h hreads
  rw [hr.numbered] at hvers
  have hempty : Represents ((callLog tr).take 0) 0 {} := .empty
  obtain ⟨hread, hzero⟩ := replay_readers (fun j hj => hall j (readersAt_spec hj).1)
    (fun j hj => (readersAt_spec hj).2) hempty {}
  have hvers' : (writers (jobs tr)).map Job.version = List.range' (0 + 1) (callLog tr).length := hvers
  obtain ⟨houts, hend⟩ := replay_writers hall (fun w hw => List.mem_filter.mp hw) hvers' hzero
    (replay {} {} (readersAt (jobs tr) 0)).1.2
  rw [Nat.zero_add, List.take_length] at hend
  refine ⟨serial_perm hvers (fun j hj => (hall j hj).bound), by rw [hr.currentVersion_eq]; exact hvers, ?_, ?_⟩
  · rw [serial, replay_append, hread, List.map_append]
    exact congrArg _ houts
  · intro key
    rw [serial, replay_append]
    exact (hend.mono (Nat.zero_le _)).get_agree hr key

/-- Two transactions move on from one snapshot over different keys, a reader
between them commits last, and a pass runs. -/
private def overlapping : List Call :=
  [.write (.put "x" "0"), .begin, .begin, .begin, .data 1 (.get "x"), .data 1 (.put "x" "1"), .data 2 (.delete "y"),
    .data 2 (.put "y" "1"), .commit 1 true, .runOnce, .data 3 (.get "x"), .commit 2 true, .commit 3 true]

theorem committed_transactions_serializable_overlapping :
    ∃ tr s, machine.Execution tr s ∧ ReadsWithinWrites tr ∧
      (serial (jobs tr)).map Job.version = [1, 1, 2, 3] ∧
      (serial (jobs tr)).map Job.writes = [true, false, true, true] ∧
      (replay {} {} (serial (jobs tr))).2 = (serial (jobs tr)).map Job.outcome ∧
      ∀ key, ((replay {} {} (serial (jobs tr))).1.1.get key).observed = (s.store.get key).observed := by
  obtain ⟨tr, s, h, hreads, hvers, hwrites⟩ : ∃ tr s, machine.Execution tr s ∧ ReadsWithinWrites tr ∧
      (serial (jobs tr)).map Job.version = [1, 1, 2, 3] ∧
      (serial (jobs tr)).map Job.writes = [true, false, true, true] :=
    ⟨_, _, Machine.scheduled overlapping (by decide), by decide, by decide, by decide⟩
  obtain ⟨_, _, houts, hvalues⟩ := committed_transactions_serializable h hreads
  exact ⟨tr, s, h, hreads, hvers, hwrites, houts, hvalues⟩

end MvccLite.Calls
