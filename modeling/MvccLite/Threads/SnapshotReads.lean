import MvccLite.Threads.Guard
import MvccLite.Txn.View

/-! Snapshot isolation of reads, with read-your-own-writes: through all that
others do, an active transaction answers as a private plain store would. -/
namespace MvccLite.Threads
open Library VersionStore

/-- A data call on the transaction, issued while it is active, with its reply. -/
def activeCall (id : Nat) (t : Event) : Option (DataCall × Reply) :=
  match t.label, t.output, t.source.clients id with
  | .data id' c, some r, some (.returned txn) => if id' = id ∧ txn.state = .active then some (c, r) else none
  | _, _, _ => none

def activeCalls (id : Nat) (tr : List Event) : List (DataCall × Reply) := tr.filterMap (activeCall id)

theorem activeCalls_concat (id : Nat) (tr : List Event) (t : Event) :
    activeCalls id (tr ++ [t]) = activeCalls id tr ++ (activeCall id t).toList := filterMap_concat _ _ _

theorem activeCall_none {id : Nat} {t : Event} (h : ∀ c, t.label ≠ .data id c) :
    activeCall id t = none := by
  unfold activeCall
  split
  · rename_i id' c r txn hl _ _
    rw [if_neg]
    rintro ⟨rfl, _⟩
    exact h c hl
  · rfl

/-- A transaction in this phase, with snapshot `v`, has answered these calls from `base`. -/
def Phase.Answers (v : Nat) (base : Contents) (calls : List DataCall) : Option Phase → Prop
  | none | some (.ending _) | some (.destroying _) => True
  | some .allocated | some .placed => False
  | some (.versionRead snapshot) => snapshot = v ∧ calls = []
  | some (.returned txn) =>
    txn.state = .active → txn.snapshotVersion = v ∧ txn.contents base = base.after calls

structure Answering (id v : Nat) (base : Contents) (tr : List Event) (s : State) : Prop where
  replies : (activeCalls id tr).map (fun call => call.2.observed) = base.replies ((activeCalls id tr).map Prod.fst)
  phase : Phase.Answers v base ((activeCalls id tr).map Prod.fst) (s.clients id)

namespace Answering
variable {id v : Nat} {base : Contents} {tr : List Event} {t : Event}

private theorem silent (hcall : activeCall id t = none) (hr : Answering id v base tr t.source)
    (hp : Phase.Answers v base ((activeCalls id tr).map Prod.fst) (t.target.clients id)) :
    Answering id v base (tr ++ [t]) t.target := by
  have heq : activeCalls id (tr ++ [t]) = activeCalls id tr := by simp [activeCalls_concat, hcall]
  exact ⟨by rw [heq]; exact hr.replies, by rw [heq]; exact hp⟩

private theorem other (h : Fires t.source t.label t.output t.target) (hne : t.label.client ≠ some id)
    (hid : id < t.source.manager.nextTxnId) (hr : Answering id v base tr t.source) :
    Answering id v base (tr ++ [t]) t.target := by
  refine silent (activeCall_none (fun c hl => hne (by simp [hl, Action.client]))) hr ?_
  rcases h.client_frame hne with hc | ⟨he, _⟩
  · rw [hc]
    exact hr.phase
  · omega

private theorem data {s s' : State} {c : DataCall} {r : Option Reply} {txn : Transaction}
    (h : Fires s (.data id c) r s') (hc : s.clients id = some (.returned txn))
    (hc' : s'.clients id = some (.returned (txn.exec s.store c).1)) (hb : txn.Buffered)
    (hbase : s.snapshot id = some v → Transaction.ReadsFrom s.store v base)
    (hr : Answering id v base tr s) : Answering id v base (tr ++ [⟨s, .data id c, r, s'⟩]) s' := by
  obtain rfl : r = some (txn.exec s.store c).2 := by
    cases h with
    | data _ hd =>
      obtain rfl := Phase.returned.inj (Option.some.inj (hd.symm.trans hc))
      rfl
  have hphase := hr.phase
  rw [hc] at hphase
  obtain ⟨_, hsnap, hstate⟩ := txn.exec_fixed s.store c
  by_cases ha : txn.state = .active
  · obtain ⟨rfl, hcontents⟩ := hphase ha
    have hreads := hbase (by simp [State.snapshot, hc, Phase.snapshot, ha])
    obtain ⟨hobs, hnext⟩ := Transaction.exec_refines hb ha hreads c
    have hcall : activeCall id ⟨s, .data id c, some (txn.exec s.store c).2, s'⟩ =
        some (c, (txn.exec s.store c).2) := by simp [activeCall, hc, ha]
    constructor
    · simp [activeCalls_concat, hcall, Contents.replies_concat, hr.replies, hobs, hcontents]
    · rw [hc', activeCalls_concat, hcall]
      refine fun _ => ⟨hsnap, ?_⟩
      rw [hnext, hcontents, List.map_append]
      exact (base.after_concat _ c).symm
  · refine silent (by simp [activeCall, hc, ha]) hr ?_
    rw [hc']
    exact fun ha' => absurd (hstate ▸ ha') ha

private theorem own {s s' : State} {a : Action} {r : Option Reply} (h : Fires s a r s') (hi : Registered s)
    (hb : AllBuffered s) (hown : a.client = some id)
    (hbase : s.snapshot id = some v → Transaction.ReadsFrom s.store v base)
    (hr : Answering id v base tr s) : Answering id v base (tr ++ [⟨s, a, r, s'⟩]) s' := by
  have hphase := hr.phase
  obtain ⟨ph, ph', hc, hc', hm⟩ := h.moves hown
  rw [hc] at hphase
  cases hm with
  | placeholder | readVersion => exact hphase.elim
  | refine =>
    obtain ⟨rfl, hnil⟩ := hphase
    refine silent (activeCall_none (by simp)) hr ?_
    rw [hc', hnil]
    exact fun _ => ⟨rfl, WriteSet.overlay_empty base⟩
  | @data txn c => exact data h hc hc' (hb id txn (by simp [State.object, hc, Phase.object])) hbase hr
  | commit | abort | destroy | destroyFinished | unregisterDestroyed =>
    refine silent (activeCall_none (by simp)) hr ?_
    rw [hc']
    trivial
  | commitRefused | abortRefused =>
    refine silent (activeCall_none (by simp)) hr ?_
    rw [hc']
    exact hphase
  | @unregister txn =>
    refine silent (activeCall_none (by simp)) hr ?_
    rw [hc']
    exact fun ha => absurd ha (hi.settled _ txn hc)

theorem step (h : Fires t.source t.label t.output t.target) (hi : Registered t.source)
    (hb : AllBuffered t.source) (hid : id < t.source.manager.nextTxnId)
    (hbase : t.source.snapshot id = some v → Transaction.ReadsFrom t.source.store v base)
    (hr : Answering id v base tr t.source) : Answering id v base (tr ++ [t]) t.target := by
  by_cases hown : t.label.client = some id
  · exact own h hi hb hown hbase hr
  · exact other h hown hid hr

end Answering

/-- Reads at a snapshot that no sweep has passed are those of the moment it was taken. -/
theorem readsFrom_snapshot {pre post : List Event} {s s' : State} (hpre : machine.Execution pre s)
    (h : machine.Execution (pre ++ post) s') (hswept : highest (boundaries (pre ++ post)) ≤ s.store.currentVersion) :
    Transaction.ReadsFrom s'.store s.store.currentVersion s.store.latestValue := by
  intro key
  have hr := represents_of_execution hpre
  have hr' := represents_of_execution h
  have hnum : WriteLog.Numbered (writeLog pre ++ writeLog post) := by
    have := hr'.numbered
    rwa [writeLog, List.filterMap_append] at this
  rw [hr'.getAsOf_observed hswept, hr.latestValue_eq, hr.currentVersion_eq, writeLog, List.filterMap_append]
  change _ = if key = "" then _ else Observed.ofValue (WriteLog.latest (writeLog pre) key)
  have hval : WriteLog.valueAt (writeLog pre ++ writeLog post) (writeLog pre).length key =
      WriteLog.latest (writeLog pre) key := by
    rw [hnum.valueAt_append le_rfl, hr.numbered.valueAt_eq, List.take_length]
  rw [← hval]
  rfl

private theorem drawn_of_placed {tr : List Event} {s : State} {id : Nat} (h : machine.Execution tr s)
    (hocc : Occurs tr (.placeholder id)) : id < s.manager.nextTxnId := by
  by_cases hc : s.clients id = none
  · have hl := lived_of_execution h id
    rw [Lived, hc] at hl
    by_contra hle
    exact (hl.2 (not_lt.mp hle)).1 hocc
  · exact (registered_of_execution h).drawn id hc

private theorem answering_start {s s' : State} {r : Option Reply} {id : Nat} (base : Contents)
    (h : Fires s (.readVersion id) r s') : Answering id s.store.currentVersion base [] s' := by
  cases h with
  | readVersion hc => exact ⟨rfl, by rw [State.setClient_self]; exact ⟨rfl, rfl⟩⟩

/-- What a transaction answers while it is active: the status and value that a
private plain store would give, filled with the latest values of the store at
the moment `Begin` read the version, as long as no pass was in flight when the
placeholder went in. -/
theorem reads_refine_private_store {pre mid post : List Event} {tp tv : Event} {s : State} {id : Nat}
    (h : machine.Execution (pre ++ tp :: mid ++ tv :: post) s) (hp : tp.label = .placeholder id)
    (hcalm : ∀ p, ¬ (tp.source.passes p).InFlight) (hv : tv.label = .readVersion id) :
    (activeCalls id post).map (fun call => (call.2.status.code, call.2.value)) =
      (tv.source.store.latestContents.replies ((activeCalls id post).map Prod.fst)).map
        (fun r => (r.status.code, r.value)) := by
  obtain ⟨hpre, htv, hpost⟩ := h.around
  have hstart := taken_fires htv
  rw [hv] at hstart
  have hanswers := hpost.invariant
    (I := fun tr s => Answering id tv.source.store.currentVersion tv.source.store.latestValue tr s)
    (answering_start _ hstart) ?_
  · have hobs : (activeCalls id post).map (fun call => call.2.observed) =
        (tv.source.store.latestContents.replies ((activeCalls id post).map Prod.fst)).map Reply.observed := by
      rw [hanswers.replies, KVStore.replies_refines, contents_latestContents]
    simpa [Function.comp_def, Reply.observed] using
      congrArg (List.map (fun o : Observed => (o.code, o.value))) hobs
  · intro tr t hto ht ha
    have hex := hpre.append (Machine.Path.cons htv hto)
    have hg : Guarded id (pre ++ tp :: mid ++ tv :: tr) t.source := by
      rw [List.append_assoc, List.cons_append] at hex ⊢
      exact guarded_of_placed hex hp hcalm
    have hid : id < t.source.manager.nextTxnId := drawn_of_placed hex ⟨tp, by simp, hp⟩
    refine ha.step (taken_fires ht) (registered_of_execution hex) (allBuffered_of_execution hex) hid ?_
    exact fun hs => readsFrom_snapshot hpre hex (hg.swept _ hs)

/-- A key is overwritten and a pass runs while a transaction reads, deletes and rereads it. -/
private def rereadKey : List Action :=
  [.fetchTxnId, .write (.put "k" "1"), .placeholder 1, .readVersion 1, .refine 1, .data 1 (.get "k"),
    .write (.put "k" "2"), .runOnce 0] ++ visits 0 16 ++
    [.finishScan 0, .collectGarbage 0, .data 1 (.get "k"), .data 1 (.delete "k"), .data 1 (.get "k")]

theorem reads_refine_private_store_reread_key :
    ∃ pre tp tv post s, machine.Execution (pre ++ tp :: [] ++ tv :: post) s ∧ tp.label = .placeholder 1 ∧
      tv.label = .readVersion 1 ∧ s.store.currentVersion = 2 ∧
      (activeCalls 1 post).map Prod.fst = [.get "k", .get "k", .delete "k", .get "k"] ∧
      (activeCalls 1 post).map (fun call => (call.2.status.code, call.2.value)) =
        [(.ok, some "1"), (.ok, some "1"), (.ok, none), (.notFound, none)] := by
  obtain ⟨t₀, t₁, tp, tv, post, s, h, hp, hidle, hv, hplain, hver, hcalls⟩ :
      ∃ t₀ t₁ tp tv post s, machine.Execution (t₀ :: t₁ :: tp :: tv :: post) s ∧ tp.label = .placeholder 1 ∧
        tp.source.passes = (fun _ => .idle) ∧ tv.label = .readVersion 1 ∧
        (tv.source.store.latestContents.replies [.get "k", .get "k", .delete "k", .get "k"]).map
          (fun r => (r.status.code, r.value)) = [(.ok, some "1"), (.ok, some "1"), (.ok, none), (.notFound, none)] ∧
        s.store.currentVersion = 2 ∧
        (activeCalls 1 post).map Prod.fst = [.get "k", .get "k", .delete "k", .get "k"] :=
    ⟨_, _, _, _, _, _, Machine.scheduled rereadKey (by decide), rfl, rfl, rfl, by decide, by decide, by decide⟩
  have hread := reads_refine_private_store (show machine.Execution ([t₀, t₁] ++ tp :: [] ++ tv :: post) s from h) hp
    (fun p => by simp [hidle, Pass.InFlight]) hv
  refine ⟨[t₀, t₁], tp, tv, post, s, h, hp, hv, hver, hcalls, ?_⟩
  rw [hread, hcalls]
  exact hplain

end MvccLite.Threads
