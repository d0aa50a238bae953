import Mathlib.Tactic.NormNum
import ByteHive.Native.Shares
import ByteHive.Native.TrashCalls

/-!
# The arithmetic of expiry

A purge compares each entry with `now - days * 86400000`, a share link expires at
`now + hours * 3600000`, all in `u64`. The subtraction saturates; the products and the sum wrap, or
panic in a build with overflow checks. So the results are those of unbounded integers exactly where
nothing is too large, and a negative number of days is very large.
-/

namespace ByteHive

/-! ## Products and sums -/

theorem mulU64_of_lt {a b : Nat} (h : a * b < 2 ^ 64) (checks : Bool) :
    mulU64 checks a b = some (a * b) := if_pos h

theorem mulU64_true {a b : Nat} (h : 2 ^ 64 ≤ a * b) : mulU64 true a b = none := by
  rw [mulU64, if_neg (by omega)]
  rfl

theorem addU64_of_lt {a b : Nat} (h : a + b < 2 ^ 64) (checks : Bool) :
    addU64 checks a b = some (a + b) := if_pos h

theorem addU64_true {a b : Nat} (h : 2 ^ 64 ≤ a + b) : addU64 true a b = none := by
  rw [addU64, if_neg (by omega)]
  rfl

theorem days_mul_assoc (days : Nat) :
    days * 24 * 3600 = days * 86400 ∧ days * 24 * 3600 * 1000 = days * 86400000 := by
  rw [Nat.mul_assoc, Nat.mul_assoc, Nat.mul_assoc]
  exact ⟨rfl, rfl⟩

/-- The cut-off of unbounded integers, where the product fits. -/
theorem expiryCutoffMs_of_lt {days : Nat} (h : days * 86400000 < 2 ^ 64) (checks : Bool)
    (nowMs : Nat) : expiryCutoffMs checks days nowMs = some (nowMs - days * 86400000) := by
  obtain ⟨hsecs, hms⟩ := days_mul_assoc days
  have h₁ : days * 24 < 2 ^ 64 :=
    lt_of_le_of_lt (Nat.mul_le_mul_left days (by norm_num : 24 ≤ 86400000)) h
  have h₂ : days * 24 * 3600 < 2 ^ 64 := by
    rw [hsecs]
    exact lt_of_le_of_lt (Nat.mul_le_mul_left days (by norm_num : 86400 ≤ 86400000)) h
  have h₃ : days * 24 * 3600 * 1000 < 2 ^ 64 := by
    rw [hms]
    exact h
  simp only [expiryCutoffMs, mulU64_of_lt h₁, mulU64_of_lt h₂, mulU64_of_lt h₃, hms, bind,
    Option.bind_some, pure]

/-- With overflow checks a product that does not fit panics. -/
theorem expiryCutoffMs_true {days : Nat} (h : 2 ^ 64 ≤ days * 86400000) (nowMs : Nat) :
    expiryCutoffMs true days nowMs = none := by
  obtain ⟨-, hms⟩ := days_mul_assoc days
  unfold expiryCutoffMs
  by_cases h₁ : days * 24 < 2 ^ 64
  · by_cases h₂ : days * 24 * 3600 < 2 ^ 64
    · have h₃ : 2 ^ 64 ≤ days * 24 * 3600 * 1000 := by rw [hms]; exact h
      simp only [mulU64_of_lt h₁, mulU64_of_lt h₂, mulU64_true h₃, bind, Option.bind_some,
        Option.bind_none]
    · simp only [mulU64_of_lt h₁, mulU64_true (Nat.not_lt.mp h₂), bind, Option.bind_some,
        Option.bind_none]
  · simp only [mulU64_true (Nat.not_lt.mp h₁), bind, Option.bind_none]

/-- What `as u64` makes of a setting: itself, or for a negative one something very large. -/
theorem toNat_toUInt64 (d : Int64) :
    (0 ≤ d.toInt ∧ (d.toUInt64.toNat : Int) = d.toInt) ∨
      d.toInt < 0 ∧ 2 ^ 63 ≤ d.toUInt64.toNat := by
  have hnat : d.toUInt64.toNat = d.toBitVec.toNat := rfl
  have hint : d.toInt = d.toBitVec.toInt := rfl
  have hlt := d.toBitVec.isLt
  rw [hnat, hint, BitVec.toInt_eq_toNat_cond]
  split
  · left
    omega
  · right
    omega

/-! ## What unbounded integers select -/

/-- The entry has expired after `d` days, in unbounded integers. -/
def Expired (d : Int) (nowMs : Nat) (e : TrashEntry) : Prop :=
  0 < d ∧ (e.deletedAtMs : Int) + d * 86400000 < nowMs

instance (d : Int) (nowMs : Nat) (e : TrashEntry) : Decidable (Expired d nowMs e) :=
  inferInstanceAs (Decidable (_ ∧ _))

namespace TrashManager

/-- `purge_expired` when it selects the expired entries. -/
def exactPurge (f : PurgeFaults) (t : TrashTree) (nowMs : Nat) (d : Int) : Nat × TrashTree :=
  let doomed := (loadIndex t).filter (Expired d nowMs)
  if doomed = [] then (0, t)
  else (doomed.length, saveIndexOr f (removeDirs f t (doomed.map (·.id))) nowMs
    ((loadIndex t).filter (¬ Expired d nowMs ·)))

end TrashManager

namespace TrashedEngine

open TrashManager

/-- The expired entries, each judged at the time that the clock shows for it. -/
def exactEntries (d : Int) (clock : Nat → Nat) : List TrashEntry → List TrashEntry
  | [] => []
  | e :: entries =>
    let rest := exactEntries d (fun i => clock (i + 1)) entries
    if Expired d (clock 0) e then e :: rest else rest

/-- `purge_expired_trash` when both it and the manager select the expired entries. -/
def exactPurgeTrash (h : Host) (f : PurgeFaults) (s : TrashedEngine) (clock : Nat → Nat)
    (managerNowMs : Nat) (d : Int) : Nat × TrashedEngine :=
  let r := exactPurge f s.root managerNowMs d
  let s' := { s with root := r.2 }
  (r.1, if r.1 > 0 then
      s'.clearLedgerPrefixes h ((exactEntries d clock s.listTrash).map (·.originalPath))
    else s')

end TrashedEngine

/-! ## When the code selects them -/

/-- The number of days is not negative, and the product fits. -/
def DaysFit (d : Int) : Prop := 0 ≤ d ∧ d * 86400000 < 2 ^ 64

/-- With `n` days, a setting of `d` that is no more than `n`. -/
theorem expired_iff {d : Int} {n : Nat} (hn : (n : Int) = d) (hpos : n ≠ 0) (nowMs : Nat)
    (e : TrashEntry) : Expired d nowMs e ↔ e.deletedAtMs < nowMs - n * 86400000 := by
  unfold Expired
  omega

theorem not_expired_zero {nowMs : Nat} (e : TrashEntry) : ¬ Expired 0 nowMs e := by
  unfold Expired
  omega

/-- A setting whose number of days fits, or one at which the overflow checks panic. -/
theorem daysFit_cases (d : Int64) :
    DaysFit d.toInt ∧ (d.toUInt64.toNat : Int) = d.toInt ∧ d.toUInt64.toNat * 86400000 < 2 ^ 64 ∨
      ¬ DaysFit d.toInt ∧ d.toUInt64.toNat ≠ 0 ∧ 2 ^ 64 ≤ d.toUInt64.toNat * 86400000 := by
  unfold DaysFit
  rcases toNat_toUInt64 d with ⟨hnonneg, heq⟩ | ⟨hneg, hlarge⟩
  · by_cases hfit : d.toInt * 86400000 < 2 ^ 64
    · left
      omega
    · right
      omega
  · right
    omega

namespace TrashManager

theorem purgeExpired_exact_iff (f : PurgeFaults) (t : TrashTree) (nowMs : Nat) (d : Int64) :
    (∀ checks, purgeExpired checks f t nowMs (filesyncTrashExpiryDays (some d)) =
      some (exactPurge f t nowMs d.toInt)) ↔ DaysFit d.toInt := by
  rcases daysFit_cases d with ⟨hfit, heq, hlt⟩ | ⟨hfit, hpos, hlarge⟩
  · refine iff_of_true (fun checks => ?_) hfit
    by_cases hzero : d.toUInt64.toNat = 0
    · have hd : d.toInt = 0 := by omega
      have hnone : (loadIndex t).filter (Expired 0 nowMs) = [] := by
        rw [List.filter_eq_nil_iff]
        intro e _
        simpa using not_expired_zero e
      simp [purgeExpired, filesyncTrashExpiryDays, hzero, exactPurge, hd, hnone]
    · have hexpired : expired (nowMs - d.toUInt64.toNat * 86400000) (loadIndex t) =
          (loadIndex t).filter (Expired d.toInt nowMs) := by
        refine List.filter_congr fun e _ => ?_
        rw [decide_eq_decide]
        exact (expired_iff heq hzero nowMs e).symm
      have hrest : (IndexChange.retain (nowMs - d.toUInt64.toNat * 86400000)).apply (loadIndex t) =
          (loadIndex t).filter (¬ Expired d.toInt nowMs ·) := by
        refine List.filter_congr fun e _ => ?_
        rw [decide_eq_decide, expired_iff heq hzero nowMs e, Nat.not_lt]
      simp only [purgeExpired, filesyncTrashExpiryDays, Option.map_some, if_neg hzero,
        expiryCutoffMs_of_lt hlt, exactPurge, hexpired, hrest, bind, Option.bind_some, pure]
      split <;> rfl
  · refine iff_of_false (fun hall => ?_) hfit
    have hchecks := hall true
    simp only [purgeExpired, filesyncTrashExpiryDays, Option.map_some, if_neg hpos,
      expiryCutoffMs_true hlarge, bind, Option.bind_none] at hchecks
    cases hchecks

end TrashManager

namespace TrashedEngine

open TrashManager

theorem expiredAt_exact {d : Int} {n : Nat} (hn : (n : Int) = d) (hpos : n ≠ 0)
    (hlt : n * 86400000 < 2 ^ 64) (checks : Bool) (clock : Nat → Nat) (entries : List TrashEntry) :
    expiredAt checks n clock entries = some (exactEntries d clock entries) := by
  induction entries generalizing clock with
  | nil => rfl
  | cons e entries ih =>
    simp only [expiredAt, expiryCutoffMs_of_lt hlt, ih, exactEntries, bind, Option.bind_some, pure]
    by_cases hexpired : Expired d (clock 0) e
    · rw [if_pos hexpired, if_pos ((expired_iff hn hpos _ e).mp hexpired)]
    · rw [if_neg hexpired, if_neg fun hc => hexpired ((expired_iff hn hpos _ e).mpr hc)]

theorem exactEntries_zero (clock : Nat → Nat) (entries : List TrashEntry) :
    exactEntries 0 clock entries = [] := by
  induction entries generalizing clock with
  | nil => rfl
  | cons e entries ih => rw [exactEntries, ih, if_neg (not_expired_zero e)]

theorem purgeExpiredTrash_exact_iff (h : Host) (f : PurgeFaults) (s : TrashedEngine)
    (clock : Nat → Nat) (managerNowMs : Nat) (d : Int64) :
    (∀ checks, { s with expiryDays := filesyncTrashExpiryDays (some d) }.purgeExpiredTrash checks h
        f clock managerNowMs =
      some (exactPurgeTrash h f { s with expiryDays := filesyncTrashExpiryDays (some d) } clock
        managerNowMs d.toInt)) ↔ DaysFit d.toInt := by
  have hmanager := purgeExpired_exact_iff f s.root managerNowMs d
  rcases daysFit_cases d with ⟨hfit, heq, hlt⟩ | ⟨hfit, hpos, hlarge⟩
  · refine iff_of_true (fun checks => ?_) hfit
    have hpurge := hmanager.mpr hfit checks
    have hentries : expiredEntries checks
        { s with expiryDays := filesyncTrashExpiryDays (some d) } clock =
          some (exactEntries d.toInt clock s.listTrash) := by
      by_cases hzero : d.toUInt64.toNat = 0
      · have hd : d.toInt = 0 := by omega
        simp [expiredEntries, filesyncTrashExpiryDays, hzero, hd, exactEntries_zero]
      · simp only [expiredEntries, filesyncTrashExpiryDays, Option.map_some, if_neg hzero]
        exact expiredAt_exact heq hzero hlt checks clock s.listTrash
    simp only [purgeExpiredTrash, hentries, hpurge, bind, Option.bind_some, pure, exactPurgeTrash]
    split <;> rfl
  · refine iff_of_false (fun hall => ?_) hfit
    -- Even where the trash is empty, the manager forms the product.
    have hpurge : purgeExpired true f s.root managerNowMs (filesyncTrashExpiryDays (some d)) =
        none := by
      simp only [purgeExpired, filesyncTrashExpiryDays, Option.map_some, if_neg hpos,
        expiryCutoffMs_true hlarge, bind, Option.bind_none]
    have hchecks := hall true
    simp only [purgeExpiredTrash, hpurge, bind, Option.bind_none, Option.bind_fun_none] at hchecks
    cases hchecks

end TrashedEngine

theorem hours_mul_assoc (h : Nat) : h * 3600 * 1000 = h * 3600000 := by
  rw [Nat.mul_assoc]

/-- The steps of the sum; stated for variables, since a product with a number in it would be
    computed step by step. -/
theorem createShare_eq {checks : Bool} {h c secs ms at' : Nat}
    (h₁ : mulU64 checks h 3600 = some secs) (h₂ : mulU64 checks secs 1000 = some ms)
    (h₃ : addU64 checks c ms = some at') : createShare checks (some h) c = some ⟨some at'⟩ := by
  simp only [createShare, h₁, h₂, h₃, bind, Option.bind_some, pure]

@[simp] theorem Share.isExpiredAt_some (expiresMs now : Nat) :
    Share.isExpiredAt ⟨some expiresMs⟩ now = decide (expiresMs < now) := rfl

theorem createShare_of_lt {h c : Nat} (hfit : c + h * 3600000 < 2 ^ 64) (checks : Bool) :
    createShare checks (some h) c = some ⟨some (c + h * 3600000)⟩ := by
  have hproduct : h * 3600000 < 2 ^ 64 := lt_of_le_of_lt (Nat.le_add_left _ c) hfit
  have h₁ : h * 3600 < 2 ^ 64 :=
    lt_of_le_of_lt (Nat.mul_le_mul_left h (by norm_num : 3600 ≤ 3600000)) hproduct
  have h₂ : h * 3600 * 1000 < 2 ^ 64 := by
    rw [hours_mul_assoc]
    exact hproduct
  have hms := mulU64_of_lt h₂ checks
  rw [hours_mul_assoc] at hms
  exact createShare_eq (mulU64_of_lt h₁ checks) hms (addU64_of_lt hfit checks)

theorem createShare_true {h c : Nat} (hlarge : 2 ^ 64 ≤ c + h * 3600000) :
    createShare true (some h) c = none := by
  unfold createShare
  by_cases h₁ : h * 3600 < 2 ^ 64
  · by_cases h₂ : h * 3600 * 1000 < 2 ^ 64
    · have h₃ : 2 ^ 64 ≤ c + h * 3600 * 1000 := by
        rw [hours_mul_assoc]
        exact hlarge
      simp only [mulU64_of_lt h₁, mulU64_of_lt h₂, addU64_true h₃, bind, Option.bind_some,
        Option.bind_none]
    · simp only [mulU64_of_lt h₁, mulU64_true (Nat.not_lt.mp h₂), bind, Option.bind_some,
        Option.bind_none]
  · simp only [mulU64_true (Nat.not_lt.mp h₁), bind, Option.bind_none]

theorem createShare_exact_iff (h c t : Nat) :
    (∀ checks, (createShare checks (some h) c).map (·.isExpiredAt t) =
      some (decide (c + h * 3600000 < t))) ↔ c + h * 3600000 < 2 ^ 64 := by
  by_cases hfit : c + h * 3600000 < 2 ^ 64
  · refine iff_of_true (fun checks => ?_) hfit
    rw [createShare_of_lt hfit, Option.map_some, Share.isExpiredAt_some]
  · refine iff_of_false (fun hall => ?_) hfit
    have hchecks := hall true
    rw [createShare_true (Nat.not_lt.mp hfit)] at hchecks
    cases hchecks

/-- In both build profiles the manager and the engine purge what unbounded integers select, and a
    share is expired when unbounded integers say so, exactly if the number of days is not negative
    and nothing is too large. -/
theorem expiry_exact_iff (host : Host) (f : TrashManager.PurgeFaults) (s : TrashedEngine)
    (t : TrashTree) (clock : Nat → Nat) (nowMs : Nat) (d : Int64) (h c later : Nat) :
    ((∀ checks, TrashManager.purgeExpired checks f t nowMs (filesyncTrashExpiryDays (some d)) =
        some (TrashManager.exactPurge f t nowMs d.toInt)) ∧
      (∀ checks,
        { s with expiryDays := filesyncTrashExpiryDays (some d) }.purgeExpiredTrash checks host f
            clock nowMs =
          some (TrashedEngine.exactPurgeTrash host f
            { s with expiryDays := filesyncTrashExpiryDays (some d) } clock nowMs d.toInt)) ∧
      ∀ checks, (createShare checks (some h) c).map (·.isExpiredAt later) =
        some (decide (c + h * 3600000 < later))) ↔
    DaysFit d.toInt ∧ c + h * 3600000 < 2 ^ 64 := by
  rw [TrashManager.purgeExpired_exact_iff, TrashedEngine.purgeExpiredTrash_exact_iff,
    createShare_exact_iff, ← and_assoc, and_self]

/-! ## Products that wrap -/

/-- A trash with one entry, deleted at 100. -/
def trashOfOne : TrashTree :=
  ((FileTree.empty : TrashTree).write (PathBuf.ofNames ["a"]) (.bytes [1]) 10 >>= fun t =>
    TrashManager.moveToTrash t 100 (trashId 100000000 0) (PathBuf.ofNames ["a"]) "n").getD .empty

/-- 584 million years come out as nine and a half hours: the entry of 100 ms is purged although it
    has not expired, and a share link for as long expires within the hour. With overflow checks both
    panic, and so does a setting of -1. -/
theorem expiry_wraps :
    (TrashManager.purgeExpired false .none trashOfOne 34449000
        (filesyncTrashExpiryDays (some 213503982335))).map (·.1) = some 1 ∧
      (TrashManager.loadIndex trashOfOne).filter (Expired 213503982335 34449000) = [] ∧
      (createShare false (some 5124095576031) 0).map (·.isExpiredAt 3600000) = some true ∧
      ¬ (0 + 5124095576031 * 3600000 < 3600000) ∧
      (TrashManager.purgeExpired true .none trashOfOne 34449000
        (filesyncTrashExpiryDays (some (-1)))).isNone = true ∧
      (createShare true (some 5124095576031) 0).isNone = true :=
  ⟨by decide +kernel, by decide +kernel, by decide +kernel, by norm_num, by decide +kernel,
    by decide +kernel⟩

end ByteHive
