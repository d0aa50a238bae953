import Mathlib
import ByteHive.ForStd.LwwPair
import ByteHive.Spec.LedgerOrder

/-!
# The ledger as a join of stamps

For one path the ledger holds a live stamp and the stamp of a tombstone, which is there
only while it is newer (`Normal`). Every call joins further stamps to these, so the order
and the number of the calls do not matter (`stamps_runCalls`).

Key results:
- `stamps_runCalls`: what is stored after any calls
- `stamps_prune`, `stamps_merge`: pruning and merging, path by path
-/

namespace ByteHive

namespace DeletionLedger

open LwwPair

/-! ## The stamps of a path -/

/-- An optional stamp, `⊥` when there is none. -/
def stampOf : Option Nat → WithBot Nat
  | none => ⊥
  | some a => WithBot.some a

@[simp] theorem stampOf_none : stampOf none = ⊥ := rfl

@[simp] theorem stampOf_some (a : Nat) : stampOf (some a) = WithBot.some a := rfl

theorem stampOf_injective : Function.Injective stampOf := by
  intro a b h
  cases a <;> cases b <;> simp_all

/-- The stamp of the tombstone at a path. -/
def deletedAt (l : DeletionLedger) (p : PathBuf) : Option Nat :=
  (l.entries.get p).map (·.deletedAtMs)

/-- The live stamp and the tombstone's. -/
def stamps (l : DeletionLedger) (p : PathBuf) : WithBot Nat × WithBot Nat :=
  (stampOf (l.alive.get p), stampOf (l.deletedAt p))

theorem stamps_eq_iff {l l' : DeletionLedger} {p : PathBuf} :
    l.stamps p = l'.stamps p ↔ l.alive.get p = l'.alive.get p ∧ l.deletedAt p = l'.deletedAt p := by
  simp only [stamps, Prod.mk.injEq, stampOf_injective.eq_iff]

/-- The form of every ledger: a stored tombstone is newer than the live record, and no live
    record is zero. -/
structure Normal (l : DeletionLedger) : Prop where
  newer : ∀ p tomb a, l.entries.get p = some tomb → l.alive.get p = some a → a < tomb.deletedAtMs
  positive : ∀ p a, l.alive.get p = some a → 0 < a

theorem Normal.newer_or_bot {l : DeletionLedger} (hl : l.Normal) (p : PathBuf) :
    stampOf (l.deletedAt p) = ⊥ ∨ stampOf (l.alive.get p) < stampOf (l.deletedAt p) := by
  unfold deletedAt
  cases he : l.entries.get p with
  | none => exact .inl rfl
  | some tomb =>
    right
    cases ha : l.alive.get p with
    | none => exact WithBot.bot_lt_coe _
    | some a => exact WithBot.coe_lt_coe.mpr (hl.newer p tomb a he ha)

theorem Normal.visible {l : DeletionLedger} (hl : l.Normal) (p : PathBuf) :
    visible (l.stamps p) = l.stamps p := visible_of_lt (hl.newer_or_bot p)

theorem normal_of_visible {l : DeletionLedger} (hl : ∀ p, visible (l.stamps p) = l.stamps p)
    (hpos : ∀ p a, l.alive.get p = some a → 0 < a) : l.Normal := by
  refine ⟨fun p tomb a he ha => ?_, hpos⟩
  have hp := congrArg Prod.snd (hl p)
  simp only [LwwPair.visible, stamps, deletedAt, he, ha, stampOf_some, Option.map_some] at hp
  split at hp
  · next hlt => exact WithBot.coe_lt_coe.mp hlt
  · exact absurd hp.symm (WithBot.coe_ne_bot)

theorem normal_new : new.Normal :=
  ⟨(fun _ _ _ he => nomatch he), (fun _ _ ha => nomatch ha)⟩

/-! ## One call -/

theorem stampOf_alive_recordAlive (l : DeletionLedger) (p : PathBuf) {a : Nat} (ha : 0 < a) :
    stampOf ((l.recordAlive p a).2.alive.get p) = stampOf (l.alive.get p) ⊔ WithBot.some a := by
  rw [get_alive_recordAlive]
  cases hb : l.alive.get p with
  | none => simp [aliveSince, hb, ha]
  | some b =>
    simp only [aliveSince, hb, Option.getD_some, true_and]
    split
    · next hlt => simp [hlt.le]
    · next hlt => simp [Nat.le_of_not_lt hlt]

theorem stampOf_deletedAt_recordAlive (l : DeletionLedger) (p : PathBuf) {a : Nat} (ha : 0 < a) :
    stampOf ((l.recordAlive p a).2.deletedAt p) =
      if WithBot.some a < stampOf (l.deletedAt p) then stampOf (l.deletedAt p) else ⊥ := by
  rw [deletedAt, get_entries_recordAlive, if_pos ⟨rfl, ha⟩, deletedAt]
  cases he : l.entries.get p with
  | none => simp
  | some t => by_cases hlt : a < t.deletedAtMs <;> simp [Option.filter_some, hlt]

theorem stamps_recordAlive {l : DeletionLedger} (hl : l.Normal) (q : PathBuf) (a : Nat)
    (p : PathBuf) :
    (l.recordAlive q a).2.stamps p =
      visible (l.stamps p ⊔ if q = p ∧ 0 < a then (WithBot.some a, ⊥) else ⊥) := by
  by_cases hqp : q = p ∧ 0 < a
  · obtain ⟨rfl, ha⟩ := hqp
    simp only [ha, and_self, if_true]
    refine Prod.ext (stampOf_alive_recordAlive l q ha) ?_
    show stampOf ((l.recordAlive q a).2.deletedAt q) =
      if stampOf (l.alive.get q) ⊔ WithBot.some a < stampOf (l.deletedAt q) ⊔ ⊥
        then stampOf (l.deletedAt q) ⊔ ⊥ else ⊥
    rw [stampOf_deletedAt_recordAlive l q ha, sup_bot_eq]
    -- The tombstone is newer than the old live record, so only the action counts.
    rcases hl.newer_or_bot q with hbot | hlt
    · rw [hbot, if_neg not_lt_bot, if_neg not_lt_bot]
    · simp only [sup_lt_iff, hlt, true_and]
  · rw [if_neg hqp, sup_bot_eq, hl.visible]
    rw [stamps_eq_iff, get_alive_recordAlive, deletedAt, get_entries_recordAlive]
    constructor
    · rw [if_neg]
      rintro ⟨rfl, hlt⟩
      exact hqp ⟨rfl, by omega⟩
    · rw [if_neg]
      · rfl
      · rintro ⟨rfl, ha⟩
        exact hqp ⟨rfl, ha⟩

theorem isSuperseded_iff_stampOf {l : DeletionLedger} {p : PathBuf} {d : Nat} :
    l.isSuperseded p d = true ↔ WithBot.some d ≤ stampOf (l.alive.get p) := by
  unfold isSuperseded
  cases l.alive.get p <;> simp

/-- What is stored at a path to which a tombstone is offered. -/
def offered (l : DeletionLedger) (p : PathBuf) (tomb : Tombstone) : Option Tombstone :=
  if l.isSuperseded p tomb.deletedAtMs then l.entries.get p
  else
    match l.entries.get p with
    | some existing => if existing.deletedAtMs ≥ tomb.deletedAtMs then some existing else some tomb
    | none => some tomb

theorem stampOf_offered (l : DeletionLedger) (p : PathBuf) (tomb : Tombstone) :
    stampOf ((l.offered p tomb).map (·.deletedAtMs)) =
      if WithBot.some tomb.deletedAtMs ≤ stampOf (l.alive.get p) then stampOf (l.deletedAt p)
      else stampOf (l.deletedAt p) ⊔ WithBot.some tomb.deletedAtMs := by
  rw [offered, deletedAt]
  by_cases hsup : l.isSuperseded p tomb.deletedAtMs = true
  · rw [if_pos hsup, if_pos (isSuperseded_iff_stampOf.mp hsup)]
  · rw [if_neg hsup, if_neg (fun h => hsup (isSuperseded_iff_stampOf.mpr h))]
    cases l.entries.get p with
    | none => simp
    | some existing =>
      by_cases hge : existing.deletedAtMs ≥ tomb.deletedAtMs
      · simp [hge]
      · simp [hge, (Nat.lt_of_not_le hge).le]

theorem stamps_offered {l : DeletionLedger} (hl : l.Normal) (p : PathBuf) (tomb : Tombstone) :
    stampOf ((l.offered p tomb).map (·.deletedAtMs)) =
      (visible (l.stamps p ⊔ (⊥, WithBot.some tomb.deletedAtMs))).2 := by
  show _ = if stampOf (l.alive.get p) ⊔ ⊥ < stampOf (l.deletedAt p) ⊔ WithBot.some tomb.deletedAtMs
    then stampOf (l.deletedAt p) ⊔ WithBot.some tomb.deletedAtMs else ⊥
  rw [sup_bot_eq, stampOf_offered]
  by_cases hle : WithBot.some tomb.deletedAtMs ≤ stampOf (l.alive.get p)
  · rw [if_pos hle]
    rcases hl.newer_or_bot p with hbot | hlt
    · rw [hbot, bot_sup_eq, if_neg (not_lt.mpr hle)]
    · rw [sup_eq_left.mpr (hle.trans hlt.le), if_pos hlt]
  · rw [if_neg hle, if_pos (lt_sup_of_lt_right (not_le.mp hle))]

theorem get_record (l : DeletionLedger) (q : PathBuf) (t : Nat) (d : String) (ph : Option String)
    (pm : Option Nat) (p : PathBuf) :
    (l.record q t d ph pm).entries.get p =
      if p = q then l.offered q ⟨q, t, d, ph, pm⟩ else l.entries.get p := by
  unfold record offered
  by_cases hsup : l.isSuperseded q t = true
  · simp only [hsup, if_true]
    split
    · next hpq => rw [hpq]
    · rfl
  · simp only [hsup, Bool.false_eq_true, if_false]
    cases he : l.entries.get q with
    | none => simp
    | some existing =>
      simp only
      by_cases hge : existing.deletedAtMs ≥ t
      · simp only [hge, if_true]
        split
        · next hpq => rw [hpq, he]
        · rfl
      · simp [hge]

theorem stampOf_deletedAt_record (l : DeletionLedger) (p : PathBuf) (d : Nat) (deleter : String)
    (ph : Option String) (pm : Option Nat) :
    stampOf ((l.record p d deleter ph pm).deletedAt p) =
      if WithBot.some d ≤ stampOf (l.alive.get p) then stampOf (l.deletedAt p)
      else stampOf (l.deletedAt p) ⊔ WithBot.some d := by
  rw [deletedAt, get_record, if_pos rfl, stampOf_offered]

theorem stamps_record {l : DeletionLedger} (hl : l.Normal) (q : PathBuf) (t : Nat) (d : String)
    (ph : Option String) (pm : Option Nat) (p : PathBuf) :
    (l.record q t d ph pm).stamps p =
      visible (l.stamps p ⊔ (⊥, if q = p then WithBot.some t else ⊥)) := by
  by_cases hqp : q = p
  · subst hqp
    refine Prod.ext ?_ ?_
    · rw [stamps, record_alive, if_pos rfl]
      exact (sup_bot_eq _).symm
    · show stampOf (((l.record q t d ph pm).entries.get q).map (·.deletedAtMs)) = _
      rw [get_record, if_pos rfl, if_pos rfl]
      exact stamps_offered hl q ⟨q, t, d, ph, pm⟩
  · have hbot : ((⊥ : WithBot Nat), (⊥ : WithBot Nat)) = ⊥ := rfl
    rw [if_neg hqp, hbot, sup_bot_eq, hl.visible, stamps_eq_iff, record_alive, deletedAt,
      get_record, if_neg (Ne.symm hqp)]
    exact ⟨rfl, rfl⟩

theorem stamps_mergeRemote {l : DeletionLedger} (hl : l.Normal)
    (remote : FinMap PathBuf Tombstone) (p : PathBuf) :
    (l.mergeRemote remote).stamps p =
      visible (l.stamps p ⊔ (⊥, stampOf ((remote.get p).map (·.deletedAtMs)))) := by
  have hget := get_mergeRemote l remote p
  cases hr : remote.get p with
  | none =>
    have hbot : ((⊥ : WithBot Nat), (⊥ : WithBot Nat)) = ⊥ := rfl
    simp only [hr] at hget
    rw [Option.map_none, stampOf_none, hbot, sup_bot_eq, hl.visible, stamps_eq_iff, deletedAt, hget]
    exact ⟨rfl, rfl⟩
  | some tomb =>
    simp only [hr] at hget
    refine Prod.ext (sup_bot_eq _).symm ?_
    show stampOf (((l.mergeRemote remote).entries.get p).map (·.deletedAtMs)) = _
    rw [hget]
    exact stamps_offered hl p tomb

/-! ## Any calls -/

/-- The ledger after some calls, from `new()`. -/
def runCalls (calls : List LedgerCall) : DeletionLedger := calls.foldl runCall new

/-- The live stamps that a call gives for a path; zero is none. -/
def LedgerCall.liveStamps (p : PathBuf) : LedgerCall → List Nat
  | .record _ _ _ _ _ => []
  | .recordAlive q a => if q = p ∧ 0 < a then [a] else []
  | .mergeRemote _ => []

/-- The delete stamps that a call gives for a path. -/
def LedgerCall.deleteStamps (p : PathBuf) : LedgerCall → List Nat
  | .record q t _ _ _ => if q = p then [t] else []
  | .recordAlive _ _ => []
  | .mergeRemote remote => ((remote.get p).map (·.deletedAtMs)).toList

theorem maximum_toList (o : Option Nat) : o.toList.maximum = stampOf o := by
  cases o <;> rfl

/-- A call joins its stamps to those of the path. -/
theorem stamps_runCall {l : DeletionLedger} (hl : l.Normal) (c : LedgerCall) (p : PathBuf) :
    (l.runCall c).stamps p =
      visible (l.stamps p ⊔ ((c.liveStamps p).maximum, (c.deleteStamps p).maximum)) := by
  cases c with
  | record q t d ph pm =>
    rw [runCall, stamps_record hl, LedgerCall.liveStamps, LedgerCall.deleteStamps]
    split <;> rfl
  | recordAlive q a =>
    rw [runCall, stamps_recordAlive hl, LedgerCall.liveStamps, LedgerCall.deleteStamps]
    split <;> rfl
  | mergeRemote remote =>
    rw [runCall, stamps_mergeRemote hl, LedgerCall.liveStamps, LedgerCall.deleteStamps,
      maximum_toList]
    rfl

theorem positive_recordAlive {l : DeletionLedger} (hl : ∀ p a, l.alive.get p = some a → 0 < a)
    (q : PathBuf) (b : Nat) : ∀ p a, (l.recordAlive q b).2.alive.get p = some a → 0 < a := by
  intro p a ha
  rw [get_alive_recordAlive] at ha
  split at ha
  · next hlt =>
    obtain rfl := Option.some.inj ha
    omega
  · exact hl p a ha

theorem Normal.runCall {l : DeletionLedger} (hl : l.Normal) (c : LedgerCall) :
    (l.runCall c).Normal := by
  refine normal_of_visible (fun p => by rw [stamps_runCall hl, visible_visible]) ?_
  cases c with
  | record q t d ph pm =>
    intro p a ha
    rw [DeletionLedger.runCall, record_alive] at ha
    exact hl.positive p a ha
  | recordAlive q b => exact positive_recordAlive hl.positive q b
  | mergeRemote remote => exact hl.positive

theorem normal_runCalls (calls : List LedgerCall) : (runCalls calls).Normal := by
  induction calls using List.reverseRecOn with
  | nil => exact normal_new
  | append_singleton calls c ih =>
    rw [runCalls, List.foldl_append]
    exact ih.runCall c

/-- What the ledger holds after any calls: the newest stamps, the tombstone's where it is
    newer. -/
theorem stamps_runCalls (calls : List LedgerCall) (p : PathBuf) :
    (runCalls calls).stamps p =
      visible ((calls.flatMap (·.liveStamps p)).maximum,
        (calls.flatMap (·.deleteStamps p)).maximum) := by
  induction calls using List.reverseRecOn with
  | nil => rfl
  | append_singleton calls c ih =>
    have hstep := stamps_runCall (normal_runCalls calls) c p
    rw [ih, visible_sup_visible] at hstep
    rw [runCalls, List.foldl_append, List.flatMap_append, List.flatMap_append, maximum_append,
      maximum_append, List.flatMap_singleton, List.flatMap_singleton]
    exact hstep

/-! ## Pruning and merging -/

/-- The stamps that `prune` keeps. -/
def keeps (nowMs ttlMs : Nat) (t : Nat) : Bool := decide (t > nowMs) || decide (nowMs - t ≤ ttlMs)

theorem keeps_mono {nowMs ttlMs : Nat} (i j : Nat) (hij : i ≤ j)
    (hi : keeps nowMs ttlMs i = true) : keeps nowMs ttlMs j = true := by
  simp only [keeps, Bool.or_eq_true, decide_eq_true_eq] at hi ⊢
  omega

theorem stampOf_filter (keep : Nat → Bool) (o : Option Nat) :
    stampOf (o.filter keep) = cut keep (stampOf o) := by
  cases o with
  | none => rfl
  | some a => by_cases h : keep a = true <;> simp [Option.filter_some, h]

theorem stamps_prune (l : DeletionLedger) (nowMs ttlMs : Nat) (p : PathBuf) :
    (l.prune nowMs ttlMs).stamps p = cutBoth (keeps nowMs ttlMs) (l.stamps p) := by
  refine Prod.ext (stampOf_filter (keeps nowMs ttlMs) (l.alive.get p)) ?_
  refine Eq.trans (congrArg stampOf ?_) (stampOf_filter (keeps nowMs ttlMs) (l.deletedAt p))
  show ((l.entries.get p).filter fun t => keeps nowMs ttlMs t.deletedAtMs).map (·.deletedAtMs) = _
  rw [deletedAt]
  cases l.entries.get p with
  | none => rfl
  | some tomb =>
    by_cases h : keeps nowMs ttlMs tomb.deletedAtMs = true <;> simp [Option.filter_some, h]

theorem Normal.prune {l : DeletionLedger} (hl : l.Normal) (nowMs ttlMs : Nat) :
    (l.prune nowMs ttlMs).Normal := by
  refine ⟨fun p tomb a he ha => ?_, fun p a ha => ?_⟩
  · exact hl.newer p tomb a (Option.filter_eq_some_iff.mp he).1 (Option.filter_eq_some_iff.mp ha).1
  · exact hl.positive p a (Option.filter_eq_some_iff.mp ha).1

/-- The live stamps for a path in a list of live actions. -/
def stampsIn (actions : List (PathBuf × Nat)) (p : PathBuf) : List Nat :=
  actions.filterMap fun x => if x.1 = p ∧ 0 < x.2 then some x.2 else none

/-- Recording live actions one by one. -/
theorem recordAll_spec {l : DeletionLedger} (hl : l.Normal) (actions : List (PathBuf × Nat)) :
    (SyncEngine.recordAll l actions).2.Normal ∧
      ∀ p, (SyncEngine.recordAll l actions).2.stamps p =
        LwwPair.visible (l.stamps p ⊔ ((stampsIn actions p).maximum, ⊥)) := by
  induction actions generalizing l with
  | nil =>
    refine ⟨hl, fun p => ?_⟩
    have hbot : ((stampsIn [] p).maximum, (⊥ : WithBot Nat)) = ⊥ := rfl
    rw [hbot, sup_bot_eq, hl.visible]
    rfl
  | cons x actions ih =>
    obtain ⟨q, a⟩ := x
    have hstep : (l.recordAlive q a).2.Normal := hl.runCall (.recordAlive q a)
    obtain ⟨hnormal, hstamps⟩ := ih hstep
    refine ⟨hnormal, fun p => ?_⟩
    have hrest := hstamps p
    rw [stamps_recordAlive hl, visible_sup_visible, sup_assoc] at hrest
    refine hrest.trans ?_
    congr 2
    refine Prod.ext ?_ ?_
    · by_cases hqp : q = p ∧ 0 < a
      · simp [stampsIn, hqp, List.maximum_cons]
      · simp [stampsIn, hqp]
    · split <;> rfl

/-- `merge_ledger` on what a side with the ledger `r` sends. -/
def merge (order : HashOrder) (l r : DeletionLedger) : DeletionLedger :=
  (SyncEngine.recordAll l ((order.toList r.alive.keys).filterMap fun p =>
    (r.alive.get p).map fun a => (p, a))).2.mergeRemote r.entries

/-- A ledger sends its live record for a path once. -/
theorem maximum_stampsIn (order : HashOrder) {r : DeletionLedger} (hr : r.Normal) (p : PathBuf) :
    (stampsIn ((order.toList r.alive.keys).filterMap fun q => (r.alive.get q).map fun a => (q, a))
      p).maximum = stampOf (r.alive.get p) := by
  rw [← maximum_toList]
  refine maximum_congr fun a => ?_
  simp only [stampsIn, List.mem_filterMap, order.mem_toList, Option.map_eq_some_iff,
    Option.mem_toList]
  constructor
  · rintro ⟨x, ⟨q, -, b, hb, rfl⟩, hx⟩
    split at hx
    · next hq =>
      obtain rfl := Option.some.inj hx
      rw [← hq.1]
      exact hb
    · cases hx
  · intro ha
    exact ⟨(p, a), ⟨p, FinMap.mem_keys_of_get ha, a, ha, rfl⟩, by simp [hr.positive p a ha]⟩

/-- A merge joins the stamps of both sides. -/
theorem stamps_merge (order : HashOrder) {l r : DeletionLedger} (hl : l.Normal) (hr : r.Normal)
    (p : PathBuf) :
    (merge order l r).stamps p = LwwPair.visible (l.stamps p ⊔ r.stamps p) := by
  obtain ⟨hnormal, hstamps⟩ := recordAll_spec hl ((order.toList r.alive.keys).filterMap fun p =>
    (r.alive.get p).map fun a => (p, a))
  rw [merge, stamps_mergeRemote hnormal, hstamps, visible_sup_visible, sup_assoc,
    maximum_stampsIn order hr]
  congr 2
  exact Prod.ext (sup_bot_eq _) (bot_sup_eq _)

theorem Normal.merge (order : HashOrder) {l r : DeletionLedger} (hl : l.Normal) (hr : r.Normal) :
    (merge order l r).Normal := by
  refine normal_of_visible (fun p => by rw [stamps_merge order hl hr, visible_visible]) ?_
  exact ((recordAll_spec hl _).1).positive

theorem maximum_eq_stampOf_iff {xs : List Nat} {o : Option Nat} :
    xs.maximum = stampOf o ↔ ∀ a, o = some a ↔ a ∈ xs ∧ ∀ b ∈ xs, b ≤ a := by
  constructor
  · rintro h a
    rw [← List.maximum_eq_coe_iff, h, ← stampOf_some, stampOf_injective.eq_iff]
  · intro h
    cases o with
    | none =>
      rw [stampOf_none, List.maximum_eq_bot]
      by_contra hne
      obtain ⟨a, ha⟩ := WithBot.ne_bot_iff_exists.mp (List.maximum_ne_bot_of_ne_nil hne)
      cases (h a).mpr (List.maximum_eq_coe_iff.mp ha.symm)
    | some a => exact List.maximum_eq_coe_iff.mpr ((h a).mp rfl)

/-- Any order and any repetition of the same calls gives the same stamps: the newest live stamp
    given for a path, and the newest delete stamp where it is newer. Pruning goes through
    merging, for the tombstones alone and together with the live records. -/
theorem runCalls_join (calls calls' : List LedgerCall) (hsame : ∀ c, c ∈ calls ↔ c ∈ calls')
    (order : HashOrder) (l r : DeletionLedger) (hl : l.Normal) (hr : r.Normal)
    (nowMs ttlMs : Nat) (p : PathBuf) :
    ((runCalls calls).alive.get p = (runCalls calls').alive.get p ∧
      (runCalls calls).deletedAt p = (runCalls calls').deletedAt p) ∧
    (∀ a, (runCalls calls).alive.get p = some a ↔
      a ∈ calls.flatMap (·.liveStamps p) ∧ ∀ b ∈ calls.flatMap (·.liveStamps p), b ≤ a) ∧
    (∀ d, (runCalls calls).deletedAt p = some d ↔
      (d ∈ calls.flatMap (·.deleteStamps p) ∧ ∀ b ∈ calls.flatMap (·.deleteStamps p), b ≤ d) ∧
        ∀ a, (runCalls calls).alive.get p = some a → a < d) ∧
    ((merge order l r).prune nowMs ttlMs).stamps p =
      ((merge order (l.prune nowMs ttlMs) (r.prune nowMs ttlMs)).prune nowMs ttlMs).stamps p ∧
    ((l.mergeRemote r.entries).prune nowMs ttlMs).stamps p =
      (((l.prune nowMs ttlMs).mergeRemote (r.prune nowMs ttlMs).entries).prune nowMs ttlMs).stamps
        p := by
  have hfst : (calls.flatMap (·.liveStamps p)).maximum = stampOf ((runCalls calls).alive.get p) :=
    (congrArg Prod.fst (stamps_runCalls calls p)).symm
  have hsnd : stampOf ((runCalls calls).deletedAt p) =
      (LwwPair.visible ((calls.flatMap (·.liveStamps p)).maximum,
        (calls.flatMap (·.deleteStamps p)).maximum)).2 :=
    congrArg Prod.snd (stamps_runCalls calls p)
  refine ⟨?_, maximum_eq_stampOf_iff.mp hfst, ?_, ?_, ?_⟩
  · rw [← stamps_eq_iff, stamps_runCalls, stamps_runCalls]
    have hmem : ∀ f : LedgerCall → List Nat, ∀ a, a ∈ calls.flatMap f ↔ a ∈ calls'.flatMap f := by
      intro f a
      simp only [List.mem_flatMap, hsame]
    rw [maximum_congr (hmem _), maximum_congr (hmem _)]
  · intro d
    rw [hfst, LwwPair.visible] at hsnd
    simp only at hsnd
    rw [← List.maximum_eq_coe_iff, ← stampOf_injective.eq_iff, hsnd, stampOf_some]
    have hnewer : (∀ a, (runCalls calls).alive.get p = some a → a < d) ↔
        stampOf ((runCalls calls).alive.get p) < WithBot.some d := by
      cases (runCalls calls).alive.get p with
      | none => simp
      | some a => simp
    rw [hnewer]
    constructor
    · intro h
      split at h
      · next hlt => exact ⟨h, h ▸ hlt⟩
      · exact absurd h.symm WithBot.coe_ne_bot
    · rintro ⟨h, hlt⟩
      rw [h, if_pos hlt]
  · rw [stamps_prune, stamps_prune, stamps_merge order hl hr,
      stamps_merge order (hl.prune nowMs ttlMs) (hr.prune nowMs ttlMs), stamps_prune, stamps_prune,
      cutBoth_join keeps_mono]
  · have hdead : stampOf ((r.prune nowMs ttlMs).deletedAt p) =
        cut (keeps nowMs ttlMs) (stampOf (r.deletedAt p)) :=
      congrArg Prod.snd (stamps_prune r nowMs ttlMs p)
    have hcut : ((⊥ : WithBot Nat), stampOf ((r.prune nowMs ttlMs).deletedAt p)) =
        cutBoth (keeps nowMs ttlMs) (⊥, stampOf (r.deletedAt p)) := Prod.ext rfl hdead
    rw [stamps_prune, stamps_prune, stamps_mergeRemote hl,
      stamps_mergeRemote (hl.prune nowMs ttlMs), stamps_prune]
    show cutBoth _ (LwwPair.visible (l.stamps p ⊔ (⊥, stampOf (r.deletedAt p)))) =
      cutBoth _ (LwwPair.visible (_ ⊔ (⊥, stampOf ((r.prune nowMs ttlMs).deletedAt p))))
    rw [hcut, cutBoth_join keeps_mono]

/-- A delete at 5 and a live action at 3, in both orders and once twice. -/
theorem runCalls_join_swapped :
    let delete : LedgerCall := .record (.ofNames ["a"]) 5 "n" none none
    let live : LedgerCall := .recordAlive (.ofNames ["a"]) 3
    (runCalls [delete, live]).deletedAt (.ofNames ["a"]) =
      (runCalls [live, delete, live]).deletedAt (.ofNames ["a"]) := by
  intro delete live
  have hsame : ∀ c, c ∈ [delete, live] ↔ c ∈ [live, delete, live] := by
    intro c
    simp only [List.mem_cons, List.not_mem_nil, or_false]
    tauto
  exact (runCalls_join [delete, live] [live, delete, live] hsame .sorted new new normal_new normal_new
    0 0 (.ofNames ["a"])).1.2

end DeletionLedger

end ByteHive
