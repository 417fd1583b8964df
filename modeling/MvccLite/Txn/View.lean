import Mathlib.Logic.Function.Basic
import MvccLite.Store.KvStore
import MvccLite.Txn.Outcomes

/-! What the three data calls mean: a map from keys to values. The plain store is
such a map; a write buffer over a base map is another, and a transaction is the
second over its snapshot. -/
namespace MvccLite
open VersionStore

abbrev Contents := String → Option String

namespace Contents
variable (m : Contents)

def reply : DataCall → Observed
  | .get key => if key = "" then .refused else .ofValue (m key)
  | .put key _ => if key = "" then .refused else ⟨.ok, none, none, none⟩
  | .delete key =>
    if key = "" then .refused
    else if (m key).isSome then ⟨.ok, none, none, none⟩ else ⟨.notFound, none, none, none⟩

def next : DataCall → Contents
  | .get _ => m
  | .put key value => if key = "" then m else Function.update m key (some value)
  | .delete key => if key = "" then m else Function.update m key none

/-- The contents after a sequence of calls. -/
def after (cs : List DataCall) : Contents := cs.foldl next m

/-- The replies to a sequence of calls, in order. -/
def replies (m : Contents) : List DataCall → List Observed
  | [] => []
  | c :: cs => m.reply c :: replies (m.next c) cs

theorem after_concat (cs : List DataCall) (c : DataCall) : m.after (cs ++ [c]) = (m.after cs).next c := by
  simp [after]

theorem replies_concat (m : Contents) (cs : List DataCall) (c : DataCall) :
    m.replies (cs ++ [c]) = m.replies cs ++ [(m.after cs).reply c] := by
  induction cs generalizing m with
  | nil => rfl
  | cons d cs ih => simp [replies, ih, after]

/-- Deleting what is not there changes nothing. -/
theorem next_delete_absent {key : String} (h : m key = none) : m.next (.delete key) = m := by
  simp only [next]
  split
  · rfl
  · rw [← h, Function.update_eq_self]

end Contents

namespace KVStore
variable (s : KVStore)

def contents : Contents := fun key => s.table.lookup key

theorem contents_insert (key value : String) :
    contents ⟨s.table.insert key value⟩ = Function.update s.contents key (some value) := by
  funext k
  by_cases h : k = key
  · subst h
    simp [contents]
  · simp [contents, h]

theorem contents_erase (key : String) :
    contents ⟨s.table.erase key⟩ = Function.update s.contents key none := by
  funext k
  by_cases h : k = key
  · subst h
    simp [contents]
  · simp [contents, h]

/-- The plain store refines the map. -/
theorem exec_refines (c : DataCall) :
    (s.exec c).2.observed = s.contents.reply c ∧ (s.exec c).1.contents = s.contents.next c := by
  cases c with
  | get key =>
    refine ⟨?_, rfl⟩
    by_cases hk : key = ""
    · simp [exec, get, Contents.reply, hk, Reply.observed, Observed.refused]
    · cases hl : s.table.lookup key <;>
        simp [exec, get, Contents.reply, hk, Reply.observed, contents, hl, Observed.ofValue]
  | put key value =>
    by_cases hk : key = ""
    · simp [exec, put, Contents.reply, Contents.next, hk, Reply.observed, Observed.refused]
    · simp [exec, put, Contents.reply, Contents.next, hk, Reply.observed, contents_insert]
  | delete key =>
    by_cases hk : key = ""
    · simp [exec, delete, Contents.reply, Contents.next, hk, Reply.observed, Observed.refused]
    · cases hl : s.table.lookup key with
      | none =>
        have hn := s.contents.next_delete_absent (show s.contents key = none from hl)
        simp [exec, delete, Contents.reply, hk, Reply.observed, contents, hl, hn]
      | some v =>
        have hm : s.contents key = some v := hl
        simp [exec, delete, Contents.reply, Contents.next, hk, Reply.observed, contents_erase, hl, hm]

theorem replies_refines (s : KVStore) (cs : List DataCall) :
    (s.replies cs).map Reply.observed = s.contents.replies cs := by
  induction cs generalizing s with
  | nil => rfl
  | cons c cs ih =>
    obtain ⟨hr, hn⟩ := s.exec_refines c
    simp [replies, Contents.replies, hr, ih, hn]

end KVStore

/-- The plain store that holds the latest value of every key not deleted. -/
def VersionStore.latestContents (s : VersionStore) : KVStore :=
  { table := s.table.keys.foldl (fun t key => match s.latestValue key with
      | some value => t.insert key value
      | none => t) ∅ }

private theorem lookup_latest (s : VersionStore) (ks : List String) (t : AList (fun _ : String => String))
    (key : String) :
    (ks.foldl (fun t key => match s.latestValue key with
      | some value => t.insert key value
      | none => t) t).lookup key =
      if key ∈ ks ∧ (s.latestValue key).isSome then s.latestValue key else t.lookup key := by
  induction ks generalizing t with
  | nil => simp
  | cons k ks ih =>
    rw [List.foldl_cons, ih]
    by_cases hin : key ∈ ks ∧ (s.latestValue key).isSome
    · simp [hin]
    · rw [if_neg hin]
      by_cases hk : key = k
      · subst hk
        cases hv : s.latestValue key <;> simp
      · have hne : ¬ (key ∈ k :: ks ∧ (s.latestValue key).isSome) := by simpa [hk] using hin
        rw [if_neg hne]
        cases hv : s.latestValue k <;> simp [hk]

theorem VersionStore.contents_latestContents (s : VersionStore) :
    s.latestContents.contents = s.latestValue := by
  funext key
  rw [KVStore.contents, latestContents, lookup_latest]
  split
  · rfl
  · rename_i hn
    have hout : s.latestValue key = none := by
      by_contra hne
      refine hn ⟨?_, Option.isSome_iff_ne_none.mpr hne⟩
      by_contra hk
      have hl : s.table.lookup key = none := AList.lookup_eq_none.mpr (fun hm => hk (AList.mem_keys.mp hm))
      simp [latestValue, history, hl] at hne
    rw [hout]
    rfl

abbrev WriteSet := AList (fun _ : String => Option String)

namespace WriteSet
variable (base base' : Contents) (ws : WriteSet)

/-- The buffered outcome of a key wins over the base. -/
def overlay : Contents := fun key => (ws.lookup key).getD (base key)

/-- A data call on a buffer over a base that never changes. -/
def exec (base : Contents) (ws : WriteSet) : DataCall → WriteSet × Observed
  | .get key => (ws, if key = "" then .refused else .ofValue (ws.overlay base key))
  | .put key value =>
    if key = "" then (ws, .refused) else (ws.insert key (some value), ⟨.ok, none, none, none⟩)
  | .delete key =>
    if key = "" then (ws, .refused)
    else if (ws.overlay base key).isSome then (ws.insert key none, ⟨.ok, none, none, none⟩)
    else (ws, ⟨.notFound, none, none, none⟩)

/-- A key is unbuffered, deleted or set. -/
theorem lookup_cases (key : String) :
    ws.lookup key = none ∨ ws.lookup key = some none ∨ ∃ v, ws.lookup key = some (some v) := by
  cases ws.lookup key with
  | none => exact .inl rfl
  | some out =>
    cases out with
    | none => exact .inr (.inl rfl)
    | some v => exact .inr (.inr ⟨v, rfl⟩)

theorem overlay_empty : overlay base ∅ = base := by
  funext key
  simp [overlay]

theorem overlay_insert (key : String) (out : Option String) :
    overlay base (ws.insert key out) = Function.update (ws.overlay base) key out := by
  funext k
  by_cases h : k = key
  · subst h
    simp [overlay]
  · simp [overlay, h]

/-- The buffer over its base refines the map. -/
theorem exec_refines (c : DataCall) :
    (exec base ws c).2 = (ws.overlay base).reply c ∧
      (exec base ws c).1.overlay base = (ws.overlay base).next c := by
  cases c with
  | get key => exact ⟨rfl, rfl⟩
  | put key value =>
    by_cases hk : key = ""
    · simp [exec, Contents.reply, Contents.next, hk]
    · simp [exec, Contents.reply, Contents.next, hk, overlay_insert]
  | delete key =>
    by_cases hk : key = ""
    · simp [exec, Contents.reply, Contents.next, hk]
    · cases hm : ws.overlay base key with
      | none =>
        have hn := (ws.overlay base).next_delete_absent hm
        simp [exec, Contents.reply, hk, hm, hn]
      | some v => simp [exec, Contents.reply, Contents.next, hk, hm, overlay_insert]

/-- The key that the call looks up in the base, if any. -/
def looksUp : DataCall → Option String
  | .put _ _ => none
  | .get key | .delete key => if key = "" ∨ (ws.lookup key).isSome then none else some key

/-- A call depends on the base only through the key it looks up there. -/
theorem exec_congr {base base' : Contents} {ws : WriteSet} {c : DataCall}
    (h : ∀ key ∈ ws.looksUp c, base key = base' key) : exec base ws c = exec base' ws c := by
  have agree (key : String) (hk : key ≠ "") (hc : ws.looksUp c = ws.looksUp (.get key)) :
      ws.overlay base key = ws.overlay base' key := by
    cases hl : ws.lookup key with
    | some out => simp [overlay, hl]
    | none =>
      have hkey : base key = base' key := h key (by rw [hc]; simp [looksUp, hk, hl])
      simp [overlay, hl, hkey]
  cases c with
  | put key value => rfl
  | get key =>
    by_cases hk : key = ""
    · simp [exec, hk]
    · simp [exec, hk, agree key hk rfl]
  | delete key =>
    by_cases hk : key = ""
    · simp [exec, hk]
    · simp [exec, hk, agree key hk rfl]

/-- A sequence of calls, with their replies and the keys looked up in the base. -/
def run (base : Contents) (ws : WriteSet) : List DataCall → WriteSet × List Observed × List String
  | [] => (ws, [], [])
  | c :: cs =>
    let out := exec base ws c
    let rest := run base out.1 cs
    (rest.1, out.2 :: rest.2.1, (ws.looksUp c).toList ++ rest.2.2)

theorem run_concat (cs : List DataCall) (c : DataCall) :
    run base ws (cs ++ [c]) =
      ((exec base (run base ws cs).1 c).1, (run base ws cs).2.1 ++ [(exec base (run base ws cs).1 c).2],
        (run base ws cs).2.2 ++ ((run base ws cs).1.looksUp c).toList) := by
  induction cs generalizing ws with
  | nil => simp [run]
  | cons d cs ih => simp [run, ih]

theorem run_congr {base base' : Contents} {ws : WriteSet} {cs : List DataCall}
    (h : ∀ key ∈ (run base ws cs).2.2, base key = base' key) : run base ws cs = run base' ws cs := by
  induction cs generalizing ws with
  | nil => rfl
  | cons c cs ih =>
    have hc : exec base ws c = exec base' ws c :=
      exec_congr (fun key hk => h key (by simp [run, Option.mem_def.mp hk]))
    have hcs : run base (exec base ws c).1 cs = run base' (exec base ws c).1 cs :=
      ih (fun key hk => h key (by simp [run, hk]))
    simp [run, ← hc, hcs]

end WriteSet

namespace Transaction
variable (txn : Transaction) (base : Contents)

/-- The buffered outcome of a key wins over the snapshot. -/
def contents : Contents := WriteSet.overlay base txn.writeSet

/-- Logging the write set is laying it over what was there. -/
theorem latest_ops (log : WriteLog) (version : Nat) :
    WriteLog.latest (log ++ [⟨version, txn.ops⟩]) = txn.contents log.latest := by
  funext key
  rw [WriteLog.latest_concat, txn.entriesFor_ops, contents, WriteSet.overlay]
  cases txn.writeSet.lookup key <;> rfl

/-- The store answers reads at the snapshot from `base`. -/
def ReadsFrom (store : VersionStore) (snapshot : Nat) (base : Contents) : Prop :=
  ∀ key, (store.getAsOf key snapshot).observed = if key = "" then .refused else .ofValue (base key)

variable {txn base}

private theorem delete_unbuffered {store : VersionStore} (hr : ReadsFrom store txn.snapshotVersion base)
    {key : String} (hk : key ≠ "") :
    (store.getAsOf key txn.snapshotVersion).status.code = if (base key).isSome then .ok else .notFound := by
  have := congrArg Observed.code (hr key)
  rw [if_neg hk] at this
  cases hb : base key <;> simpa [hb, Observed.ofValue, Reply.observed] using this

/-- An active transaction is its buffer over its snapshot. -/
theorem exec_buffer {store : VersionStore} (hb : txn.Buffered) (ha : txn.state = .active)
    (hr : ReadsFrom store txn.snapshotVersion base) (c : DataCall) :
    (txn.exec store c).1.writeSet = (WriteSet.exec base txn.writeSet c).1 ∧
      (txn.exec store c).2.observed = (WriteSet.exec base txn.writeSet c).2 := by
  cases c with
  | get key =>
    refine ⟨rfl, ?_⟩
    simp only [exec, get, ha, ne_eq, not_true_eq_false, if_false, WriteSet.exec, WriteSet.overlay]
    by_cases hk : key = ""
    · subst hk
      rw [hb]
      simpa using hr ""
    · rcases WriteSet.lookup_cases txn.writeSet key with hl | hl | ⟨v, hl⟩
      · simpa [hl, hk] using hr key
      · simp [hl, hk, Reply.observed, Observed.ofValue]
      · simp [hl, hk, Reply.observed, Observed.ofValue]
  | put key value =>
    by_cases hk : key = ""
    · simp [exec, put, ha, hk, WriteSet.exec, Reply.observed, Observed.refused]
    · simp [exec, put, ha, hk, WriteSet.exec, Reply.observed]
  | delete key =>
    by_cases hk : key = ""
    · simp [exec, delete, ha, hk, WriteSet.exec, Reply.observed, Observed.refused]
    · rcases WriteSet.lookup_cases txn.writeSet key with hl | hl | ⟨v, hl⟩
      · have hs := delete_unbuffered hr hk
        cases hv : base key <;>
          simp [exec, delete, ha, hk, WriteSet.exec, WriteSet.overlay, Reply.observed, hl, hs, hv, Status.isOk]
      · simp [exec, delete, ha, hk, WriteSet.exec, WriteSet.overlay, Reply.observed, hl]
      · simp [exec, delete, ha, hk, WriteSet.exec, WriteSet.overlay, Reply.observed, hl]

/-- A sequence of calls on one transaction, with nobody else about. -/
def run (store : VersionStore) (txn : Transaction) : List DataCall → Transaction × List Reply
  | [] => (txn, [])
  | c :: cs =>
    let out := txn.exec store c
    let rest := run store out.1 cs
    (rest.1, out.2 :: rest.2)

theorem run_buffer {store : VersionStore} {snapshot : Nat} (hr : ReadsFrom store snapshot base)
    {txn : Transaction} (hb : txn.Buffered) (ha : txn.state = .active) (hs : txn.snapshotVersion = snapshot)
    (cs : List DataCall) :
    (txn.run store cs).1.Buffered ∧ (txn.run store cs).1.state = .active ∧
      (txn.run store cs).1.snapshotVersion = snapshot ∧
      (txn.run store cs).1.writeSet = (WriteSet.run base txn.writeSet cs).1 ∧
      (txn.run store cs).2.map Reply.observed = (WriteSet.run base txn.writeSet cs).2.1 := by
  induction cs generalizing txn with
  | nil => exact ⟨hb, ha, hs, rfl, rfl⟩
  | cons c cs ih =>
    obtain ⟨_, hsnap, hstate⟩ := txn.exec_fixed store c
    obtain ⟨hw, ho⟩ := exec_buffer hb ha (hs ▸ hr) c
    obtain ⟨h₁, h₂, h₃, h₄, h₅⟩ := ih (hb.exec store c) (hstate.trans ha) (hsnap.trans hs)
    rw [hw] at h₄ h₅
    exact ⟨h₁, h₂, h₃, h₄, by simp [run, WriteSet.run, ho, h₅]⟩

/-- So it refines the map. -/
theorem exec_refines {store : VersionStore} (hb : txn.Buffered) (ha : txn.state = .active)
    (hr : ReadsFrom store txn.snapshotVersion base) (c : DataCall) :
    (txn.exec store c).2.observed = (txn.contents base).reply c ∧
      (txn.exec store c).1.contents base = (txn.contents base).next c := by
  obtain ⟨hw, ho⟩ := exec_buffer hb ha hr c
  obtain ⟨hreply, hnext⟩ := WriteSet.exec_refines base txn.writeSet c
  exact ⟨ho.trans hreply, by rw [contents, hw]; exact hnext⟩

end Transaction
end MvccLite
