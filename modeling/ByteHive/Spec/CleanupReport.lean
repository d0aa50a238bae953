import ByteHive.Native.LogCleanup
import Mathlib.Tactic.TypeStar

/-!
# What the cleanup report says

The second pass lowers its total when it chooses a file, and counts what it frees when the file
is really gone. The report is therefore right as long as every file with content that is chosen
for its size can be deleted (`cleanup_correct_iff`); which files are chosen is right in any case.
-/

namespace ByteHive

/-! ## The files of a directory have different paths -/

mutual

/-- No two entries of a directory have one name. -/
def DistinctNames : List (String × LogNode) → Prop
  | [] => True
  | (name, node) :: children =>
    name ∉ children.map Prod.fst ∧ node.Distinct ∧ DistinctNames children

def LogNode.Distinct : LogNode → Prop
  | .dir children => DistinctNames children
  | .file _ _ => True
  | .other => True

end

mutual

/-- What is found lies below an entry of the directory. -/
theorem path_of_mem_collect {dir : List String} {depth : Nat} {now : SystemTime} {e : LogEntry} :
    ∀ {children : List (String × LogNode)}, e ∈ collect dir depth now children →
      ∃ name ∈ children.map Prod.fst, dir ++ [name] <+: e.path
  | [], h => absurd h List.not_mem_nil
  | (name, node) :: children, h => by
    rw [collect, List.mem_append] at h
    obtain h | h := h
    · exact ⟨name, List.mem_cons_self, path_of_mem_collectNode h⟩
    · obtain ⟨other, hmem, hpre⟩ := path_of_mem_collect h
      exact ⟨other, List.mem_cons_of_mem _ hmem, hpre⟩

theorem path_of_mem_collectNode {path : List String} {name : String} {depth : Nat}
    {now : SystemTime} {e : LogEntry} :
    ∀ {node : LogNode}, e ∈ collectNode path name depth now node → path <+: e.path
  | .dir children, h => by
    rw [collectNode] at h
    split at h
    · obtain ⟨name, -, hpre⟩ := path_of_mem_collect h
      exact (List.prefix_append path [name]).trans hpre
    · exact absurd h List.not_mem_nil
  | .file size modified, h => by
    rw [collectNode, List.mem_singleton] at h
    exact h ▸ List.prefix_rfl
  | .other, h => by
    rw [collectNode] at h
    exact absurd h List.not_mem_nil

end

mutual

theorem nodup_paths_collect (dir : List String) (depth : Nat) (now : SystemTime) :
    ∀ {children : List (String × LogNode)}, DistinctNames children →
      ((collect dir depth now children).map (·.path)).Nodup
  | [], _ => by
    rw [collect]
    exact List.nodup_nil
  | (name, node) :: children, h => by
    rw [DistinctNames] at h
    obtain ⟨hname, hnode, hchildren⟩ := h
    rw [collect, List.map_append, List.nodup_append]
    refine ⟨nodup_paths_collectNode (dir ++ [name]) name depth now hnode,
      nodup_paths_collect dir depth now hchildren, ?_⟩
    -- a path below this entry is not below one of another name
    intro p hp q hq heq
    obtain ⟨e, he, rfl⟩ := List.mem_map.mp hp
    obtain ⟨f, hf, rfl⟩ := List.mem_map.mp hq
    obtain ⟨other, hother, hpre⟩ := path_of_mem_collect hf
    have hhere := path_of_mem_collectNode he
    rw [heq] at hhere
    have hsame : dir ++ [name] = dir ++ [other] :=
      (List.prefix_of_prefix_length_le hhere hpre (by simp)).eq_of_length (by simp)
    obtain rfl : name = other := by simpa using hsame
    exact hname hother

theorem nodup_paths_collectNode (path : List String) (name : String) (depth : Nat)
    (now : SystemTime) :
    ∀ {node : LogNode}, node.Distinct →
      ((collectNode path name depth now node).map (·.path)).Nodup
  | .dir children, h => by
    rw [collectNode]
    split
    · exact nodup_paths_collect path (depth + 1) now h
    · exact List.nodup_nil
  | .file size modified, _ => by
    rw [collectNode]
    exact List.nodup_singleton _
  | .other, _ => by
    rw [collectNode]
    exact List.nodup_nil

end

/-! ## What the cleanup should do -/

/-- Older than the retention. -/
def OverAge (policy : RetentionPolicy) (now : SystemTime) (e : LogEntry) : Prop :=
  ∃ retention, policy.retention = some retention ∧ e.mtime.ns < now.ns - (retention : Int)

/-- What the first pass leaves. -/
def afterExpiry (removes : Removes) (policy : RetentionPolicy) (now : SystemTime)
    (entries : List LogEntry) : List LogEntry :=
  entries.filter fun e => !expiredGoes removes (policy.retention.bind now.checkedSub) e

/-- Deleting the rotated files that are older does not bring the total to the cap. -/
def Needed (removes : Removes) (policy : RetentionPolicy) (now : SystemTime)
    (entries : List LogEntry) (e : LogEntry) : Prop :=
  ∃ cap older newer, policy.maxTotalBytes = some cap ∧
    candidates (afterExpiry removes policy now entries) = older ++ e :: newer ∧
    cap + totalSize older < totalSize (afterExpiry removes policy now entries)

/-- No deletion fails. -/
def NoneFails (removes : Removes) (policy : RetentionPolicy) (now : SystemTime)
    (entries : List LogEntry) : Prop :=
  (∀ e ∈ entries, e.rotated.isSome = true → OverAge policy now e →
    removes .expired e.path = true) ∧
  ∀ e, Needed removes policy now entries e → removes .size e.path = true

/-- The shortest part of the files, in their order, without which the total meets the cap; all of
    them when none does. -/
structure ShortestPart (cap total : Nat) (files part : List LogEntry) : Prop where
  isPrefix : part <+: files
  enough : total ≤ cap + totalSize part ∨ part = files
  shortest : ∀ older e newer, part = older ++ e :: newer → cap + totalSize older < total

/-- The files that are there after the deletions. -/
def remaining (entries deleted : List LogEntry) : List LogEntry :=
  entries.filter fun e => decide (e.path ∉ deleted.map (·.path))

/-- What the files and the policy ask for, when every deletion works. -/
structure RightFiles (policy : RetentionPolicy) (now : SystemTime)
    (entries expired removed : List LogEntry) (overCap : Bool) : Prop where
  expired_gone : ∀ e ∈ entries, e.rotated.isSome = true → OverAge policy now e →
    e ∉ remaining entries (expired ++ removed)
  /-- The other deleted files are the oldest of those that are left. -/
  oldest : ∃ files : List LogEntry, files.Pairwise oldestFirst ∧
    (∀ e, e ∈ files ↔ e ∈ entries ∧ e.rotated.isSome = true ∧ ¬OverAge policy now e) ∧
    files.Nodup ∧
    match policy.maxTotalBytes with
    | none => removed = []
    | some cap => ShortestPart cap (totalSize (remaining entries expired)) files removed
  over_cap : overCap = true ↔
    (∀ e ∈ remaining entries (expired ++ removed), e.rotated = none) ∧
    ∃ cap, policy.maxTotalBytes = some cap ∧
      cap < totalSize (remaining entries (expired ++ removed))

/-- The right files are deleted and accounted for. -/
structure CleanedUp (removes : Removes) (policy : RetentionPolicy) (now : SystemTime)
    (entries : List LogEntry) (report : CleanupReport) (expired removed : List LogEntry) :
    Prop where
  rotated_only : ∀ e ∈ expired ++ removed, e ∈ entries ∧ e.rotated.isSome = true
  after_eq : report.totalBytesAfter = totalSize (remaining entries (expired ++ removed))
  freed_eq : report.totalBytesAfter + report.bytesFreed = totalSize entries
  right_files : NoneFails removes policy now entries →
    RightFiles policy now entries expired removed report.overCapWithActive

/-! ## Choosing -/

@[simp] theorem totalSize_nil : totalSize [] = 0 := rfl

@[simp] theorem totalSize_cons (e : LogEntry) (es : List LogEntry) :
    totalSize (e :: es) = e.size + totalSize es := by
  simp only [totalSize, List.map_cons, List.sum_cons]

@[simp] theorem totalSize_append (es fs : List LogEntry) :
    totalSize (es ++ fs) = totalSize es + totalSize fs := by
  simp only [totalSize, List.map_append, List.sum_append]

theorem totalSize_perm {es fs : List LogEntry} (h : es.Perm fs) : totalSize es = totalSize fs :=
  (h.map _).sum_nat

/-- A part and the rest of it. -/
theorem totalSize_filter (p : LogEntry → Bool) (es : List LogEntry) :
    totalSize (es.filter p) + totalSize (es.filter fun e => !p e) = totalSize es := by
  rw [← totalSize_append]
  exact totalSize_perm (List.filter_append_perm p es)

theorem totalSize_filter_le (p : LogEntry → Bool) (es : List LogEntry) :
    totalSize (es.filter p) ≤ totalSize es := by
  have h := totalSize_filter p es
  omega

/-- Choosing stops as soon as the total that is counted on meets the cap. -/
theorem chooseDoomed_spec {cap total : Nat} {files : List LogEntry} (h : totalSize files ≤ total) :
    (chooseDoomed cap total files).2 + totalSize (chooseDoomed cap total files).1 = total ∧
    ShortestPart cap total files (chooseDoomed cap total files).1 := by
  induction files generalizing total with
  | nil =>
    exact ⟨rfl, List.prefix_rfl, Or.inr rfl, by simp [chooseDoomed]⟩
  | cons c cs ih =>
    rw [totalSize_cons] at h
    have hrest : totalSize cs ≤ total - c.size := by omega
    obtain ⟨htotal, hpre, henough, hshort⟩ := ih hrest
    rw [chooseDoomed]
    split
    · next hle =>
      refine ⟨rfl, List.nil_prefix, Or.inl (by simpa using hle), ?_⟩
      intro older e newer heq
      simp at heq
    · next hgt =>
      refine ⟨?_, List.cons_prefix_cons.mpr ⟨rfl, hpre⟩, ?_, ?_⟩
      · simp only [totalSize_cons]
        omega
      · simp only [totalSize_cons]
        obtain hmet | hall := henough
        · exact Or.inl (by omega)
        · exact Or.inr (by rw [hall])
      · intro older e newer heq
        match older with
        | [] =>
          simp only [totalSize_nil]
          omega
        | o :: older =>
          simp only [List.cons_append, List.cons.injEq] at heq
          have hlt := hshort older e newer heq.2
          rw [totalSize_cons, ← heq.1]
          omega

/-- The shortest part is all that is needed. -/
theorem ShortestPart.mem_iff {cap total : Nat} {files part : List LogEntry}
    (h : ShortestPart cap total files part) (e : LogEntry) :
    e ∈ part ↔ ∃ older newer, files = older ++ e :: newer ∧ cap + totalSize older < total := by
  obtain ⟨rest, hrest⟩ := h.isPrefix
  constructor
  · intro he
    obtain ⟨older, newer, rfl⟩ := List.append_of_mem he
    exact ⟨older, newer ++ rest, by simp [← hrest], h.shortest older e newer rfl⟩
  · intro ⟨older, newer, heq, hlt⟩
    obtain hmet | rfl := h.enough
    · -- what lies before `e` is not enough, so the part goes past it
      have hlen : older.length < part.length := by
        by_contra hle
        have hpre : part <+: older :=
          List.prefix_of_prefix_length_le h.isPrefix (heq ▸ List.prefix_append ..) (by omega)
        obtain ⟨more, rfl⟩ := hpre
        rw [totalSize_append] at hlt
        omega
      have hpre : older ++ [e] <+: part :=
        List.prefix_of_prefix_length_le (heq ▸ ⟨newer, by simp⟩) h.isPrefix (by simp; omega)
      exact hpre.subset (by simp)
    · rw [heq]
      simp

/-! ## What is deleted -/

theorem expiredGoes_iff (removes : Removes) (policy : RetentionPolicy) (now : SystemTime)
    (e : LogEntry) :
    expiredGoes removes (policy.retention.bind now.checkedSub) e = true ↔
      e.rotated.isSome = true ∧ OverAge policy now e ∧ removes .expired e.path = true := by
  have hcut : ∀ retention, (now.checkedSub retention).any (fun c => e.mtime.ns < c.ns) = true ↔
      e.mtime.ns < now.ns - (retention : Int) := by
    intro retention
    rw [SystemTime.checkedSub]
    split
    · simp
    · next hlow =>
      -- no file is older than the least time there is
      have hmin := e.mtime.min_le
      simp only [Option.any_none, Bool.false_eq_true, false_iff]
      omega
  rw [OverAge]
  cases hretention : policy.retention with
  | none => simp [expiredGoes]
  | some retention =>
    have hold := hcut retention
    simp only [Option.bind_some, Option.some.injEq, exists_eq_left']
    rw [← hold]
    cases now.checkedSub retention with
    | none => simp [expiredGoes]
    | some cutoff => simp [expiredGoes, and_assoc]

/-- The files chosen for their size, and the total that is counted on. -/
def chosen (removes : Removes) (policy : RetentionPolicy) (now : SystemTime)
    (entries : List LogEntry) : List LogEntry × Nat :=
  let kept := afterExpiry removes policy now entries
  match policy.maxTotalBytes with
  | some cap => chooseDoomed cap (totalSize kept) (candidates kept)
  | none => ([], totalSize kept)

theorem cleanup_eq (removes : Removes) (policy : RetentionPolicy) (now : SystemTime)
    (entries : List LogEntry) :
    cleanup removes policy now entries =
      let expired := entries.filter (expiredGoes removes (policy.retention.bind now.checkedSub))
      let removed := (chosen removes policy now entries).1.filter fun e => removes .size e.path
      let total := (chosen removes policy now entries).2
      (⟨expired.length, removed.length, totalSize expired + totalSize removed, total,
        policy.maxTotalBytes.any (· < total)⟩, expired, removed) := by
  have hnone : ∀ cap total, total ≤ cap → ∀ files, chooseDoomed cap total files = ([], total) := by
    intro cap total hle files
    cases files with
    | nil => rfl
    | cons c cs => rw [chooseDoomed, if_pos hle]
  rw [cleanup, chosen]
  cases policy.maxTotalBytes with
  | none => rfl
  | some cap =>
    simp only [afterExpiry]
    split
    · rfl
    · next hle =>
      simp only [hnone _ _ (Nat.le_of_not_lt hle)]
      simpa using hle

theorem candidates_perm (entries : List LogEntry) :
    (candidates entries).Perm (entries.filter fun e => e.rotated.isSome) :=
  List.perm_insertionSort _ _

instance : IsTrans LogEntry oldestFirst where
  trans a b c hab hbc := by
    simp only [oldestFirst] at *
    omega

instance : Std.Total oldestFirst where
  total a b := by
    simp only [oldestFirst]
    omega

theorem candidates_sorted (entries : List LogEntry) : (candidates entries).Pairwise oldestFirst :=
  List.pairwise_insertionSort _ _

theorem mem_afterExpiry {removes : Removes} {policy : RetentionPolicy} {now : SystemTime}
    {entries : List LogEntry} {e : LogEntry} :
    e ∈ afterExpiry removes policy now entries ↔ e ∈ entries ∧
      expiredGoes removes (policy.retention.bind now.checkedSub) e = false := by
  simp only [afterExpiry, List.mem_filter, Bool.not_eq_true']

theorem mem_candidates {entries : List LogEntry} {e : LogEntry} :
    e ∈ candidates entries ↔ e ∈ entries ∧ e.rotated.isSome = true := by
  rw [(candidates_perm entries).mem_iff, List.mem_filter]

theorem chosen_spec (removes : Removes) (policy : RetentionPolicy) (now : SystemTime)
    (entries : List LogEntry) :
    (chosen removes policy now entries).2 + totalSize (chosen removes policy now entries).1 =
      totalSize (afterExpiry removes policy now entries) ∧
    match policy.maxTotalBytes with
    | none => (chosen removes policy now entries).1 = []
    | some cap => ShortestPart cap (totalSize (afterExpiry removes policy now entries))
        (candidates (afterExpiry removes policy now entries))
        (chosen removes policy now entries).1 := by
  rw [chosen]
  cases policy.maxTotalBytes with
  | none => exact ⟨rfl, rfl⟩
  | some cap =>
    refine chooseDoomed_spec ?_
    rw [totalSize_perm (candidates_perm _)]
    exact totalSize_filter_le _ _

/-- A file is chosen when it is needed. -/
theorem mem_chosen (removes : Removes) (policy : RetentionPolicy) (now : SystemTime)
    (entries : List LogEntry) (e : LogEntry) :
    e ∈ (chosen removes policy now entries).1 ↔ Needed removes policy now entries e := by
  have hpart := (chosen_spec removes policy now entries).2
  rw [Needed]
  cases hcap : policy.maxTotalBytes with
  | none =>
    rw [hcap] at hpart
    simp [hpart]
  | some cap =>
    rw [hcap] at hpart
    simp only [Option.some.injEq, exists_and_left, exists_eq_left']
    rw [hpart.mem_iff e]

theorem chosen_sublist (removes : Removes) (policy : RetentionPolicy) (now : SystemTime)
    (entries : List LogEntry) :
    (chosen removes policy now entries).1.Sublist
      (candidates (afterExpiry removes policy now entries)) := by
  have hpart := (chosen_spec removes policy now entries).2
  cases hcap : policy.maxTotalBytes with
  | none =>
    rw [hcap] at hpart
    rw [hpart]
    exact List.nil_sublist _
  | some cap =>
    rw [hcap] at hpart
    exact hpart.isPrefix.sublist

/-! ## What remains -/

section

variable {entries deleted : List LogEntry}

theorem mem_remaining (hpaths : (entries.map (·.path)).Nodup) (hsub : deleted ⊆ entries)
    {e : LogEntry} : e ∈ remaining entries deleted ↔ e ∈ entries ∧ e ∉ deleted := by
  rw [remaining, List.mem_filter, decide_eq_true_eq]
  refine and_congr_right fun he => not_congr ⟨fun h => ?_, fun h => List.mem_map_of_mem h⟩
  obtain ⟨d, hd, hpath⟩ := List.mem_map.mp h
  rwa [← List.inj_on_of_nodup_map hpaths (hsub hd) he hpath]

theorem totalSize_remaining (hpaths : (entries.map (·.path)).Nodup) (hsub : deleted ⊆ entries)
    (hnodup : deleted.Nodup) :
    totalSize (remaining entries deleted) + totalSize deleted = totalSize entries := by
  have hperm : (entries.filter fun e => !decide (e.path ∉ deleted.map (·.path))).Perm deleted := by
    refine (List.perm_ext_iff_of_nodup (hpaths.of_map.filter _) hnodup).mpr fun e => ?_
    have hmem := mem_remaining hpaths hsub (e := e)
    rw [remaining, List.mem_filter] at hmem
    rw [List.mem_filter, Bool.not_eq_true']
    constructor
    · intro ⟨he, hgone⟩
      by_contra hnot
      rw [(hmem.mpr ⟨he, hnot⟩).2] at hgone
      exact Bool.noConfusion hgone
    · intro he
      refine ⟨hsub he, ?_⟩
      by_contra hstays
      exact (hmem.mp ⟨hsub he, by simpa using hstays⟩).2 he
  rw [← totalSize_perm hperm]
  exact totalSize_filter _ entries

end

/-- Nothing with content is lost from a part. -/
theorem totalSize_filter_eq_iff (p : LogEntry → Bool) (es : List LogEntry) :
    totalSize (es.filter p) = totalSize es ↔ ∀ e ∈ es, p e = true ∨ e.size = 0 := by
  induction es with
  | nil => simp
  | cons e es ih =>
    have hle := totalSize_filter_le p es
    rw [List.forall_mem_cons, ← ih, List.filter_cons, totalSize_cons]
    split
    · next hp =>
      rw [totalSize_cons]
      simp only [hp, true_or, true_and]
      omega
    · next hp =>
      simp only [hp, Bool.false_eq_true, false_or]
      omega

/-! ## The report -/

section

variable (removes : Removes) (policy : RetentionPolicy) (now : SystemTime)
variable {entries : List LogEntry}

/-- The files the first pass deletes. -/
def expiredFiles (entries : List LogEntry) : List LogEntry :=
  entries.filter (expiredGoes removes (policy.retention.bind now.checkedSub))

/-- The files the second pass deletes. -/
def removedFiles (entries : List LogEntry) : List LogEntry :=
  (chosen removes policy now entries).1.filter fun e => removes .size e.path

theorem mem_chosen_entries {e : LogEntry} (h : e ∈ (chosen removes policy now entries).1) :
    e ∈ entries ∧ e.rotated.isSome = true ∧
      expiredGoes removes (policy.retention.bind now.checkedSub) e = false := by
  obtain ⟨hkept, hrot⟩ := mem_candidates.mp ((chosen_sublist removes policy now entries).subset h)
  obtain ⟨he, hstays⟩ := mem_afterExpiry.mp hkept
  exact ⟨he, hrot, hstays⟩

/-- Only rotated files are deleted. -/
theorem deleted_rotated {e : LogEntry}
    (h : e ∈ expiredFiles removes policy now entries ++ removedFiles removes policy now entries) :
    e ∈ entries ∧ e.rotated.isSome = true := by
  obtain h | h := List.mem_append.mp h
  · obtain ⟨he, hgoes⟩ := List.mem_filter.mp h
    exact ⟨he, ((expiredGoes_iff removes policy now e).mp hgoes).1⟩
  · obtain ⟨he, hrot, -⟩ := mem_chosen_entries removes policy now (List.mem_filter.mp h).1
    exact ⟨he, hrot⟩

/-- No file is deleted twice. -/
theorem deleted_nodup (hpaths : (entries.map (·.path)).Nodup) :
    (expiredFiles removes policy now entries ++ removedFiles removes policy now entries).Nodup := by
  have hentries : entries.Nodup := hpaths.of_map
  have hcandidates : (candidates (afterExpiry removes policy now entries)).Nodup :=
    (candidates_perm _).nodup_iff.mpr ((hentries.filter _).filter _)
  refine List.nodup_append.mpr ⟨hentries.filter _,
    (hcandidates.sublist (chosen_sublist removes policy now entries)).filter _, ?_⟩
  intro e he f hf heq
  subst heq
  have hgoes := (List.mem_filter.mp he).2
  have hstays := (mem_chosen_entries removes policy now (List.mem_filter.mp hf).1).2.2
  rw [hgoes] at hstays
  exact Bool.noConfusion hstays

/-- The sizes of the files that were deleted and of those that were only chosen. -/
theorem totalSize_balance (hpaths : (entries.map (·.path)).Nodup) :
    let deleted := expiredFiles removes policy now entries ++ removedFiles removes policy now entries
    totalSize (remaining entries deleted) + totalSize deleted = totalSize entries ∧
    (chosen removes policy now entries).2 + totalSize (chosen removes policy now entries).1 +
      totalSize (expiredFiles removes policy now entries) = totalSize entries := by
  refine ⟨totalSize_remaining hpaths (fun e he => (deleted_rotated removes policy now he).1)
    (deleted_nodup removes policy now hpaths), ?_⟩
  have hsplit := totalSize_filter
    (expiredGoes removes (policy.retention.bind now.checkedSub)) entries
  rw [(chosen_spec removes policy now entries).1, Nat.add_comm]
  exact hsplit

/-- Where no deletion fails, the right files go. -/
theorem right_files (hpaths : (entries.map (·.path)).Nodup)
    (h : NoneFails removes policy now entries) :
    RightFiles policy now entries (expiredFiles removes policy now entries)
      (removedFiles removes policy now entries)
      (policy.maxTotalBytes.any (· < (chosen removes policy now entries).2)) := by
  have hremoved : removedFiles removes policy now entries = (chosen removes policy now entries).1 :=
    List.filter_eq_self.mpr fun e he => h.2 e ((mem_chosen removes policy now entries e).mp he)
  have hexpired : ∀ e, e ∈ expiredFiles removes policy now entries ↔
      e ∈ entries ∧ e.rotated.isSome = true ∧ OverAge policy now e := by
    intro e
    rw [expiredFiles, List.mem_filter, expiredGoes_iff]
    refine and_congr_right fun he => ⟨fun hg => ⟨hg.1, hg.2.1⟩, fun hg => ⟨hg.1, hg.2, ?_⟩⟩
    exact h.1 e he hg.1 hg.2
  have hfiles : ∀ e, e ∈ candidates (afterExpiry removes policy now entries) ↔
      e ∈ entries ∧ e.rotated.isSome = true ∧ ¬OverAge policy now e := by
    intro e
    rw [mem_candidates, mem_afterExpiry, and_assoc]
    refine and_congr_right fun he => ?_
    rw [and_comm]
    refine and_congr_right fun hrot => ?_
    rw [← Bool.not_eq_true, expiredGoes_iff]
    exact not_congr ⟨fun hg => hg.2.1, fun hg => ⟨hrot, hg, h.1 e he hrot hg⟩⟩
  have hdeleted : expiredFiles removes policy now entries ++
      removedFiles removes policy now entries ⊆ entries :=
    fun e he => (deleted_rotated removes policy now he).1
  have hkept : remaining entries (expiredFiles removes policy now entries) =
      afterExpiry removes policy now entries := by
    refine List.filter_congr fun e he => ?_
    have hmem := mem_remaining hpaths (fun d hd => hdeleted (List.mem_append_left _ hd)) (e := e)
    rw [remaining, List.mem_filter, expiredFiles, List.mem_filter] at hmem
    simp only [he, true_and, Bool.not_eq_true] at hmem
    rw [Bool.eq_iff_iff]
    exact hmem.trans (by rw [Bool.not_eq_true'])
  have htotal : (chosen removes policy now entries).2 =
      totalSize (remaining entries (expiredFiles removes policy now entries ++
        removedFiles removes policy now entries)) := by
    obtain ⟨hsum, hchosen⟩ := totalSize_balance removes policy now hpaths
    rw [totalSize_append, hremoved] at hsum
    rw [hremoved]
    omega
  have hpart := (chosen_spec removes policy now entries).2
  refine ⟨?_, ⟨candidates (afterExpiry removes policy now entries), candidates_sorted _, hfiles,
    ?_, ?_⟩, ?_⟩
  · intro e he hrot hold hstays
    exact ((mem_remaining hpaths hdeleted).mp hstays).2
      (List.mem_append_left _ ((hexpired e).mpr ⟨he, hrot, hold⟩))
  · exact (candidates_perm _).nodup_iff.mpr ((hpaths.of_map.filter _).filter _)
  · rw [hremoved, hkept]
    exact hpart
  · rw [Option.any_eq_true, htotal]
    simp only [decide_eq_true_eq]
    refine ⟨fun ⟨cap, hcap, hover⟩ => ⟨fun e he => ?_, cap, hcap, hover⟩, fun hr => hr.2⟩
    -- the total is over the cap still, so that every file that could go was chosen
    rw [hcap] at hpart
    obtain ⟨he, hnot⟩ := (mem_remaining hpaths hdeleted).mp he
    rw [← htotal] at hover
    have hsum := (chosen_spec removes policy now entries).1
    obtain hmet | hall := hpart.enough
    · omega
    · by_contra hrot
      have hsome := Option.isSome_iff_ne_none.mpr hrot
      by_cases hold : OverAge policy now e
      · exact hnot (List.mem_append_left _ ((hexpired e).mpr ⟨he, hsome, hold⟩))
      · refine hnot (List.mem_append_right _ ?_)
        rw [hremoved, hall]
        exact (hfiles e).mpr ⟨he, hsome, hold⟩

end

/-- The report is right exactly when every file with content that the cap asks for can be
    deleted. -/
theorem cleanup_correct_iff (removes : Removes) (policy : RetentionPolicy) (now : SystemTime)
    {children : List (String × LogNode)} (hdistinct : DistinctNames children) :
    let entries := collect [] 0 now children
    let (report, expired, removed) := cleanup removes policy now entries
    CleanedUp removes policy now entries report expired removed ↔
      ∀ e, Needed removes policy now entries e → removes .size e.path = true ∨ e.size = 0 := by
  intro entries
  have hpaths : (entries.map (·.path)).Nodup := nodup_paths_collect [] 0 now hdistinct
  rw [cleanup_eq]
  obtain ⟨hsum, hchosen⟩ := totalSize_balance removes policy now hpaths
  rw [totalSize_append] at hsum
  have hcondition := totalSize_filter_eq_iff (fun e => removes .size e.path)
    (chosen removes policy now entries).1
  simp only [mem_chosen] at hcondition
  rw [← hcondition]
  constructor
  · intro h
    have hfreed : (chosen removes policy now entries).2 +
        (totalSize (expiredFiles removes policy now entries) +
          totalSize (removedFiles removes policy now entries)) = totalSize entries := h.freed_eq
    show totalSize (removedFiles removes policy now entries) = _
    omega
  · intro h
    have hall : totalSize (removedFiles removes policy now entries) =
        totalSize (chosen removes policy now entries).1 := h
    refine ⟨fun e he => deleted_rotated removes policy now he, ?_, ?_,
      right_files removes policy now hpaths⟩
    · show (chosen removes policy now entries).2 = totalSize (remaining entries
        (expiredFiles removes policy now entries ++ removedFiles removes policy now entries))
      omega
    · show (chosen removes policy now entries).2 +
        (totalSize (expiredFiles removes policy now entries) +
          totalSize (removedFiles removes policy now entries)) = totalSize entries
      omega

/-- One rotated file, larger than one MiB. -/
def oneLarge : List (String × LogNode) :=
  [("server.log.1", .file (2 ^ 20 + 1) none), ("server.log", .file 10 none)]

theorem oneLarge_deleted :
    DistinctNames oneLarge ∧
    let entries := collect [] 0 ⟨0, by decide⟩ oneLarge
    let (report, expired, removed) :=
      cleanup (fun _ _ => true) ⟨none, some (2 ^ 20)⟩ ⟨0, by decide⟩ entries
    CleanedUp (fun _ _ => true) ⟨none, some (2 ^ 20)⟩ ⟨0, by decide⟩ entries report expired
      removed := by
  have hdistinct : DistinctNames oneLarge := by
    simp [oneLarge, DistinctNames, LogNode.Distinct]
  exact ⟨hdistinct, (cleanup_correct_iff (fun _ _ => true) ⟨none, some (2 ^ 20)⟩ ⟨0, by decide⟩
    hdistinct).mpr fun _ _ => Or.inl rfl⟩

/-- A file that cannot be deleted is taken off the total. -/
theorem locked_file_discounted :
    ¬∀ (removes : Removes) (policy : RetentionPolicy) (now : SystemTime)
      (children : List (String × LogNode)), DistinctNames children →
      let entries := collect [] 0 now children
      let (report, expired, removed) := cleanup removes policy now entries
      CleanedUp removes policy now entries report expired removed := by
  intro h
  have hclean := h (fun _ _ => false) ⟨none, some (2 ^ 20)⟩ ⟨0, by decide⟩ oneLarge
    (by simp [oneLarge, DistinctNames, LogNode.Distinct])
  exact absurd hclean.after_eq (by decide +kernel)

end ByteHive
