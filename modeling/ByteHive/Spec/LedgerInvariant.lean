import ByteHive.Spec.LedgerOrder

/-!
# The invariant of the ledger

Each of the five operations that change a ledger touches one map, or both at one path. What it can
leave at a path is said first (`record_cases`, `mergeRemote_cases`), then that the relation between
the two maps survives it.
-/

namespace ByteHive

namespace DeletionLedger

/-- Every tombstone is stored under its own path and is newer than the live record there. -/
structure Ordered (l : DeletionLedger) : Prop where
  path_eq : ∀ p t, l.entries.get p = some t → t.path = p
  newer : ∀ p t a, l.entries.get p = some t → l.alive.get p = some a → a < t.deletedAtMs

/-- The operations that change a ledger. -/
inductive Op where
  | record (path : PathBuf) (deletedAtMs : Nat) (deleterNode : String) (prevHash : Option String)
      (prevMtimeMs : Option Nat)
  | recordAlive (path : PathBuf) (actionMs : Nat)
  | mergeRemote (remote : FinMap PathBuf Tombstone)
  | remove (path : PathBuf)
  | prune (nowMs ttlMs : Nat)

def runOp (l : DeletionLedger) : Op → DeletionLedger
  | .record p t d ph pm => l.record p t d ph pm
  | .recordAlive p a => (l.recordAlive p a).2
  | .mergeRemote remote => l.mergeRemote remote
  | .remove p => (l.remove p).2
  | .prune now ttl => l.prune now ttl

/-- The keys of a remote map are the paths of its tombstones. -/
def Op.Keyed : Op → Prop
  | .mergeRemote remote => ∀ p t, remote.get p = some t → t.path = p
  | _ => True

/-! ## What an operation leaves -/

theorem lt_of_not_superseded {l : DeletionLedger} {p : PathBuf} {t a : Nat}
    (h : l.isSuperseded p t = false) (ha : l.alive.get p = some a) : a < t := by
  simp only [isSuperseded, ha, decide_eq_false_iff_not] at h
  omega

/-- A tombstone after `record` was there, or is the recorded one. -/
theorem record_cases {l : DeletionLedger} {p q : PathBuf} {t : Nat} {d : String}
    {ph : Option String} {pm : Option Nat} {tomb : Tombstone}
    (h : (l.record p t d ph pm).entries.get q = some tomb) :
    l.entries.get q = some tomb ∨
      q = p ∧ l.isSuperseded p t = false ∧ tomb = ⟨p, t, d, ph, pm⟩ := by
  have hinsert : (l.entries.insert p ⟨p, t, d, ph, pm⟩).get q = some tomb →
      l.entries.get q = some tomb ∨ q = p ∧ tomb = ⟨p, t, d, ph, pm⟩ := by
    intro hget
    rw [FinMap.get_insert] at hget
    split at hget
    · next hq => exact .inr ⟨hq, (Option.some.inj hget).symm⟩
    · exact .inl hget
  rw [record] at h
  split at h
  · exact .inl h
  · next hnew =>
    have hnew := Bool.eq_false_iff.mpr hnew
    dsimp only at h
    split at h
    · split at h
      · exact .inl h
      · exact (hinsert h).imp_right fun ⟨hq, ht⟩ => ⟨hq, hnew, ht⟩
    · exact (hinsert h).imp_right fun ⟨hq, ht⟩ => ⟨hq, hnew, ht⟩

/-- A tombstone after a merge was there, or is the remote one. -/
theorem mergeRemote_cases {l : DeletionLedger} {remote : FinMap PathBuf Tombstone} {q : PathBuf}
    {tomb : Tombstone} (h : (l.mergeRemote remote).entries.get q = some tomb) :
    l.entries.get q = some tomb ∨
      remote.get q = some tomb ∧ l.isSuperseded q tomb.deletedAtMs = false := by
  rw [get_mergeRemote] at h
  split at h
  · exact .inl h
  · next t hremote =>
    split at h
    · exact .inl h
    · next hnew =>
      have hnew := Bool.eq_false_iff.mpr hnew
      split at h
      · next existing hexisting =>
        split at h
        · exact .inl (hexisting.trans h)
        · obtain rfl := Option.some.inj h
          exact .inr ⟨hremote, hnew⟩
      · obtain rfl := Option.some.inj h
        exact .inr ⟨hremote, hnew⟩

/-! ## Each operation keeps the invariant -/

theorem ordered_new : new.Ordered :=
  ⟨(fun _ _ h => nomatch h), (fun _ _ _ h => nomatch h)⟩

/-- Fewer records are in order as well. -/
theorem Ordered.of_subset {l l' : DeletionLedger} (h : l.Ordered)
    (hentries : ∀ p t, l'.entries.get p = some t → l.entries.get p = some t)
    (halive : ∀ p a, l'.alive.get p = some a → l.alive.get p = some a) : l'.Ordered :=
  ⟨fun p t ht => h.path_eq p t (hentries p t ht),
    fun p t a ht ha => h.newer p t a (hentries p t ht) (halive p a ha)⟩

theorem Ordered.record {l : DeletionLedger} (h : l.Ordered) (p : PathBuf) (t : Nat) (d : String)
    (ph : Option String) (pm : Option Nat) : (l.record p t d ph pm).Ordered := by
  constructor
  · intro q tomb hq
    obtain hold | ⟨rfl, -, rfl⟩ := record_cases hq
    · exact h.path_eq q tomb hold
    · rfl
  · intro q tomb a hq ha
    rw [record_alive] at ha
    obtain hold | ⟨rfl, hnew, rfl⟩ := record_cases hq
    · exact h.newer q tomb a hold ha
    · exact lt_of_not_superseded hnew ha

/-- A tombstone at the path stays only when it is newer than the action. -/
theorem Ordered.recordAlive {l : DeletionLedger} (h : l.Ordered) (p : PathBuf) (a : Nat) :
    (l.recordAlive p a).2.Ordered := by
  have hkept : ∀ q t, (l.recordAlive p a).2.entries.get q = some t →
      l.entries.get q = some t ∧ (q = p ∧ 0 < a → a < t.deletedAtMs) := by
    intro q t hq
    rw [get_entries_recordAlive] at hq
    split at hq
    · next hp =>
      obtain ⟨hget, hlt⟩ := Option.filter_eq_some_iff.mp hq
      exact ⟨hp.1 ▸ hget, fun _ => of_decide_eq_true hlt⟩
    · next hp => exact ⟨hq, fun h => absurd h hp⟩
  constructor
  · intro q t hq
    exact h.path_eq q t (hkept q t hq).1
  · intro q t b hq hb
    obtain ⟨hold, hlt⟩ := hkept q t hq
    rw [get_alive_recordAlive] at hb
    split at hb
    · next hraised =>
      obtain rfl := Option.some.inj hb
      exact hlt ⟨hraised.1, by omega⟩
    · exact h.newer q t b hold hb

theorem Ordered.mergeRemote {l : DeletionLedger} (h : l.Ordered) {remote : FinMap PathBuf Tombstone}
    (hremote : ∀ p t, remote.get p = some t → t.path = p) : (l.mergeRemote remote).Ordered := by
  constructor
  · intro q t hq
    obtain hold | ⟨hnew, -⟩ := mergeRemote_cases hq
    · exact h.path_eq q t hold
    · exact hremote q t hnew
  · intro q t a hq ha
    obtain hold | ⟨-, hnew⟩ := mergeRemote_cases hq
    · exact h.newer q t a hold ha
    · exact lt_of_not_superseded hnew ha

theorem Ordered.remove {l : DeletionLedger} (h : l.Ordered) (p : PathBuf) :
    (l.remove p).2.Ordered := by
  refine h.of_subset (fun q t hq => ?_) fun _ _ ha => ha
  rw [DeletionLedger.remove, FinMap.get_erase] at hq
  split at hq
  · cases hq
  · exact hq

/-- Entries go from either map, and nothing comes. -/
theorem Ordered.prune {l : DeletionLedger} (h : l.Ordered) (now ttl : Nat) :
    (l.prune now ttl).Ordered :=
  h.of_subset (fun _ _ hq => (Option.filter_eq_some_iff.mp hq).1)
    fun _ _ hq => (Option.filter_eq_some_iff.mp hq).1

theorem Ordered.runOp {l : DeletionLedger} (h : l.Ordered) {op : Op} (hop : op.Keyed) :
    (l.runOp op).Ordered := by
  cases op with
  | record p t d ph pm => exact h.record p t d ph pm
  | recordAlive p a => exact h.recordAlive p a
  | mergeRemote remote => exact h.mergeRemote hop
  | remove p => exact h.remove p
  | prune now ttl => exact h.prune now ttl

theorem Ordered.runOps {l : DeletionLedger} (h : l.Ordered) {ops : List Op}
    (hops : ∀ op ∈ ops, op.Keyed) : (ops.foldl DeletionLedger.runOp l).Ordered := by
  induction ops generalizing l with
  | nil => exact h
  | cons op ops ih =>
    exact ih (h.runOp (hops op List.mem_cons_self)) fun o ho => hops o (List.mem_cons_of_mem _ ho)

/-! ## Reachable ledgers -/

/-- In every reachable ledger at most one of the two records of a path is its newest action: a
    tombstone is stored under its own path, and later than the live record. -/
theorem reachable_ordered (ops : List Op) (hops : ∀ op ∈ ops, op.Keyed) (p : PathBuf)
    (t : Tombstone) (ht : (ops.foldl runOp new).entries.get p = some t) :
    t.path = p ∧ ∀ a, (ops.foldl runOp new).alive.get p = some a → a < t.deletedAtMs := by
  have h := ordered_new.runOps hops
  exact ⟨h.path_eq p t ht, fun a ha => h.newer p t a ht ha⟩

/-- A file is written and deleted by a peer; the older delete of this side is not recorded. -/
theorem reachable_ordered_deleted :
    let p := PathBuf.ofNames ["a"]
    let tomb : Tombstone := ⟨p, 20, "peer", none, none⟩
    tomb.path = p ∧ ∀ a, ([Op.recordAlive p 10, .mergeRemote (FinMap.empty.insert p tomb),
      .record p 15 "me" none none].foldl runOp new).alive.get p = some a → a < 20 :=
  reachable_ordered _ (by
    intro op hop
    simp only [List.mem_cons, List.not_mem_nil, or_false] at hop
    obtain rfl | rfl | rfl := hop
    · trivial
    · intro p t ht
      rw [FinMap.get_insert] at ht
      split at ht
      · next hp => rw [← Option.some.inj ht, hp]
      · cases ht
    · trivial) _ ⟨PathBuf.ofNames ["a"], 20, "peer", none, none⟩ (by decide)

end DeletionLedger

end ByteHive
