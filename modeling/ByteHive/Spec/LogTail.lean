import ByteHive.Native.LogRotation
import Mathlib.Data.List.Induction

/-!
# What a rotated log keeps

Which records are in which file is followed beside the bytes (`heldFiles`): a record goes to the
newest file, and when it does not fit, a new file becomes the newest and the oldest of more than
`max_files + 1` files is dropped. The files on disk hold the bytes of these records
(`run_holds`), so that what they keep is a tail of what was written (`rotation_keeps_tail`).
-/

namespace ByteHive

open LogDir

/-! ## The records of the files -/

/-- The records of each file, the newest file first. -/
abbrev HeldFiles := List (List (List UInt8))

/-- Where a record goes. -/
def placeLine (m n : Nat) : HeldFiles → List UInt8 → HeldFiles
  | [], line => [[line]]
  | records :: older, line =>
    if 0 < records.flatten.length ∧ m < records.flatten.length + line.length then
      ([line] :: records :: older).take (n + 1)
    else (records ++ [line]) :: older

/-- The records of each file after all of them were written. -/
def heldFiles (m n : Nat) (lines : List (List UInt8)) : HeldFiles :=
  lines.foldl (placeLine m n) []

/-- The files on disk. -/
def filesOf (held : HeldFiles) : LogDir
  | .active => held[0]?.map List.flatten
  | .numbered 0 => none
  | .numbered (i + 1) => held[i + 1]?.map List.flatten

/-! ## Rotation -/

section

variable (dir : LogDir)

theorem renameIfExists_apply (src : LogName) {dst : LogName} (hdst : dir dst = none)
    (name : LogName) :
    dir.renameIfExists src dst name =
      if name = src then none else if name = dst then dir src else dir name := by
  rw [renameIfExists]
  cases hsrc : dir src with
  | none =>
    show dir name = _
    split
    · next h => rw [h, hsrc]
    · split
      · next h => rw [h, hdst]
      · rfl
  | some content =>
    show Function.update (Function.update dir dst (some content)) src none name = _
    rw [Function.update_apply, Function.update_apply]

theorem shiftFiles_active (i : Nat) (hfree : dir (.numbered (i + 1)) = none) :
    dir.shiftFiles i .active = dir .active := by
  induction i generalizing dir with
  | zero => rfl
  | succ i ih =>
    have hrename := renameIfExists_apply dir (.numbered (i + 1)) hfree
    rw [shiftFiles, ih _ (by rw [hrename, if_pos rfl]), hrename]
    simp

/-- Each file gets the next number, as long as the last number is free. -/
theorem shiftFiles_numbered (i : Nat) (hfree : dir (.numbered (i + 1)) = none) (k : Nat) :
    dir.shiftFiles i (.numbered k) =
      if k = 0 ∨ i + 1 < k then dir (.numbered k)
      else if k = 1 then none
      else dir (.numbered (k - 1)) := by
  induction i generalizing dir with
  | zero =>
    show dir (.numbered k) = _
    split
    · rfl
    · next hk =>
      obtain rfl : k = 1 := by omega
      rw [if_pos rfl]
      exact hfree
  | succ i ih =>
    have hrename := renameIfExists_apply dir (.numbered (i + 1)) hfree
    rw [shiftFiles, ih _ (by rw [hrename, if_pos rfl])]
    simp only [hrename, LogName.numbered.injEq]
    -- the last file is the one that this turn renamed
    obtain rfl | hk := eq_or_ne k (i + 2)
    · simp
    · split
      · next hout => rw [if_neg (by omega), if_pos (by omega)]
      · next hin =>
        rw [if_neg (by omega : ¬(k = 0 ∨ i + 1 + 1 < k))]
        split
        · rfl
        · rw [if_neg (by omega), if_neg (by omega)]

theorem rotateFiles_active (n : Nat) : dir.rotateFiles n .active = none := by
  rw [rotateFiles]
  split
  · exact Function.update_self ..
  · next hn =>
    obtain ⟨i, rfl⟩ := Nat.exists_eq_succ_of_ne_zero hn
    have hfree : dir.removeIfExists (.numbered (i + 1)) (.numbered (i + 1)) = none :=
      Function.update_self ..
    show ((dir.removeIfExists (.numbered (i + 1))).shiftFiles i).renameIfExists _ _ _ = _
    rw [renameIfExists_apply _ _ (by rw [shiftFiles_numbered _ i hfree]; simp), if_pos rfl]

/-- The file becomes the first of the numbered ones, and the last of these is dropped. -/
theorem rotateFiles_numbered (n k : Nat) :
    dir.rotateFiles n (.numbered k) =
      if k = 0 ∨ n < k then dir (.numbered k)
      else if k = 1 then dir .active
      else dir (.numbered (k - 1)) := by
  rw [rotateFiles]
  split
  · next hn =>
    rw [if_pos (by omega)]
    exact Function.update_of_ne (by simp) _ _
  · next hn =>
    obtain ⟨i, rfl⟩ := Nat.exists_eq_succ_of_ne_zero hn
    have hfree : dir.removeIfExists (.numbered (i + 1)) (.numbered (i + 1)) = none :=
      Function.update_self ..
    have hkeep : ∀ name, name ≠ .numbered (i + 1) →
        dir.removeIfExists (.numbered (i + 1)) name = dir name := fun name hname =>
      Function.update_of_ne hname _ _
    show ((dir.removeIfExists (.numbered (i + 1))).shiftFiles i).renameIfExists _ _ _ = _
    rw [renameIfExists_apply _ _ (by rw [shiftFiles_numbered _ i hfree]; simp),
      shiftFiles_active _ i hfree, shiftFiles_numbered _ i hfree, if_neg (by simp),
      hkeep .active (by simp)]
    simp only [LogName.numbered.injEq]
    split
    · next hk =>
      subst hk
      rw [if_neg (by omega)]
    · split
      · exact hkeep _ (by simp; omega)
      · exact hkeep _ (by simp; omega)

end

/-- A rotation makes room for a new file. -/
theorem rotateFiles_filesOf {n : Nat} {held : HeldFiles} (hlen : held.length ≤ n + 1)
    (line : List UInt8) :
    ((filesOf held).rotateFiles n).openAppend.1.append line =
      filesOf (([line] :: held).take (n + 1)) := by
  funext name
  rw [append, openAppend]
  simp only [rotateFiles_active, Function.update_self, Option.getD_none, Option.getD_some,
    List.nil_append, Function.update_idem]
  cases name with
  | active => simp [filesOf]
  | numbered k =>
    rw [Function.update_of_ne (by simp), rotateFiles_numbered]
    match k with
    | 0 => simp [filesOf]
    | 1 =>
      show (if 1 = 0 ∨ n < 1 then held[1]?.map _ else if 1 = 1 then held[0]?.map _ else _) =
        (([line] :: held).take (n + 1))[1]?.map _
      rw [List.getElem?_take]
      split
      · rw [if_neg (by omega), List.getElem?_eq_none (by omega)]
      · rw [if_pos rfl, if_pos (by omega), List.getElem?_cons_succ]
    | k + 2 =>
      show (if k + 2 = 0 ∨ n < k + 2 then held[k + 2]?.map _ else if k + 2 = 1 then _
        else held[k + 1]?.map _) = (([line] :: held).take (n + 1))[k + 2]?.map _
      rw [List.getElem?_take]
      split
      · rw [if_neg (by omega), List.getElem?_eq_none (by omega)]
      · rw [if_neg (by omega), if_pos (by omega), List.getElem?_cons_succ]

/-! ## The bytes on disk are those of the records -/

/-- What holds after every call. -/
structure Holds (m n : Nat) (held : HeldFiles) (log : RotatingFile × LogDir) : Prop where
  maxBytes_eq : log.1.maxBytes = some m
  maxFiles_eq : log.1.maxFiles = n
  dir_eq : log.2 = filesOf held
  /-- The tracked size is the size of the file. -/
  tracked : ∀ size, log.1.state = some size →
    ∃ records older, held = records :: older ∧ size = records.flatten.length

/-- Where nothing was written, an empty file is opened. -/
def openedFiles : HeldFiles → HeldFiles
  | [] => [[]]
  | records :: older => records :: older

theorem placeLine_openedFiles (m n : Nat) (held : HeldFiles) (line : List UInt8) :
    placeLine m n (openedFiles held) line = placeLine m n held line := by
  cases held <;> rfl

theorem openAppend_filesOf (held : HeldFiles) : ∃ records older,
    openedFiles held = records :: older ∧
    (filesOf held).openAppend = (filesOf (records :: older), records.flatten.length) := by
  cases held with
  | nil =>
    refine ⟨[], [], rfl, Prod.ext (funext fun name => ?_) rfl⟩
    rw [openAppend]
    match name with
    | .active => rfl
    | .numbered 0 => rfl
    | .numbered (i + 1) => rfl
  | cons records older =>
    refine ⟨records, older, rfl, Prod.ext (funext fun name => ?_) rfl⟩
    rw [openAppend]
    match name with
    | .active => rfl
    | .numbered 0 => rfl
    | .numbered (i + 1) => rfl

theorem append_filesOf (records : List (List UInt8)) (older : HeldFiles) (line : List UInt8) :
    (filesOf (records :: older)).append line = filesOf ((records ++ [line]) :: older) := by
  funext name
  match name with
  | .active => simp [append, filesOf]
  | .numbered 0 => rfl
  | .numbered (i + 1) => rfl

/-- The size that is tracked while nothing is in the file. -/
theorem size_rotated (dir : LogDir) (n : Nat) : (dir.rotateFiles n).openAppend.2 = 0 := by
  simp only [openAppend, rotateFiles_active, Option.getD_none, List.length_nil]

theorem writeLine_holds {m n : Nat} {held : HeldFiles} {file : RotatingFile} {dir : LogDir}
    (hlen : held.length ≤ n + 1) (h : Holds m n held (file, dir)) (line : List UInt8) :
    Holds m n (placeLine m n held line) (file.writeLine dir line) := by
  obtain ⟨hm, hn, hdir, htracked⟩ := h
  simp only at hm hn hdir htracked
  subst hn hdir
  -- the file is open, and its size is known
  obtain ⟨records, older, hheld, hopen⟩ : ∃ records older, openedFiles held = records :: older ∧
      file.opened (filesOf held) = (filesOf (records :: older), records.flatten.length) := by
    rw [RotatingFile.opened]
    cases hstate : file.state with
    | none => exact openAppend_filesOf held
    | some size =>
      obtain ⟨records, older, rfl, rfl⟩ := htracked size hstate
      exact ⟨records, older, rfl, rfl⟩
  have hlen' : (records :: older).length ≤ file.maxFiles + 1 := by
    rw [← hheld]
    cases held with
    | nil => exact Nat.le_add_left 1 _
    | cons => exact hlen
  rw [← placeLine_openedFiles, hheld, RotatingFile.writeLine, hopen, placeLine]
  simp only [RotatingFile.mustRotate, hm, Bool.and_eq_true, decide_eq_true_eq]
  split
  · refine ⟨rfl, rfl, rotateFiles_filesOf hlen' line, ?_⟩
    intro size hsize
    simp only [Option.some.injEq, size_rotated] at hsize
    exact ⟨[line], (records :: older).take file.maxFiles, rfl, by simp [← hsize]⟩
  · refine ⟨rfl, rfl, append_filesOf records older line, ?_⟩
    intro size hsize
    simp only [Option.some.injEq] at hsize
    exact ⟨records ++ [line], older, rfl, by simp [← hsize]⟩

/-! ## A tail of the records -/

/-- All but one of the records of a file are empty. -/
def OneNonempty (records : List (List UInt8)) : Prop := (records.filter (· ≠ [])).length ≤ 1

/-- All records that are kept, in the order in which they were written. -/
def keptLines (held : HeldFiles) : List (List UInt8) := held.reverse.flatten

@[simp] theorem keptLines_cons (records : List (List UInt8)) (older : HeldFiles) :
    keptLines (records :: older) = keptLines older ++ records := by
  simp only [keptLines, List.reverse_cons, List.flatten_append, List.flatten_cons, List.flatten_nil,
    List.append_nil]

/-- A record is added, and only the oldest file may go. -/
theorem placeLine_cases {m n : Nat} {held : HeldFiles} (hlen : held.length ≤ n + 1)
    (line : List UInt8) :
    keptLines (placeLine m n held line) = keptLines held ++ [line] ∨
    held.length = n + 1 ∧ placeLine m n held line = [line] :: held.dropLast := by
  match held with
  | [] => exact Or.inl rfl
  | records :: older =>
    rw [placeLine]
    split
    · rw [List.take_succ_cons]
      obtain hroom | hfull := Nat.lt_or_eq_of_le hlen
      · left
        rw [List.take_of_length_le (by omega), keptLines_cons]
      · right
        rw [List.dropLast_eq_take, hfull, Nat.add_sub_cancel]
        exact ⟨rfl, rfl⟩
    · left
      rw [keptLines_cons, keptLines_cons, List.append_assoc]

theorem keptLines_dropLast (held : HeldFiles) : keptLines held.dropLast <:+ keptLines held := by
  obtain rfl | ⟨newer, oldest, rfl⟩ := held.eq_nil_or_concat
  · exact List.suffix_rfl
  · rw [List.concat_eq_append, List.dropLast_concat, keptLines, keptLines, List.reverse_concat, List.flatten_cons]
    exact List.suffix_append ..

theorem placeLine_length (m n : Nat) {held : HeldFiles} (hlen : held.length ≤ n + 1)
    (line : List UInt8) : (placeLine m n held line).length ≤ n + 1 := by
  match held with
  | [] => exact Nat.le_add_left 1 n
  | records :: older =>
    rw [placeLine]
    split
    · exact List.length_take_le _ _
    · exact hlen

/-- A file past the limit holds one record with content. -/
theorem placeLine_sizes {m n : Nat} {held : HeldFiles}
    (h : ∀ records ∈ held, records.flatten.length ≤ m ∨ OneNonempty records)
    (line : List UInt8) :
    ∀ records ∈ placeLine m n held line, records.flatten.length ≤ m ∨ OneNonempty records := by
  have hnew : OneNonempty [line] := List.length_filter_le (· ≠ []) [line]
  match held with
  | [] =>
    intro records hmem
    obtain rfl := List.mem_singleton.mp hmem
    exact Or.inr hnew
  | newest :: older =>
    rw [placeLine]
    split
    · intro records hmem
      obtain rfl | hmem := List.mem_cons.mp (List.mem_of_mem_take hmem)
      · exact Or.inr hnew
      · exact h records hmem
    · next hfits =>
      intro records hmem
      obtain rfl | hmem := List.mem_cons.mp hmem
      · -- the record fits, or nothing but empty records was in the file
        by_cases hempty : newest.flatten.length = 0
        · right
          have hnil : newest.filter (· ≠ []) = [] := by
            rw [List.filter_eq_nil_iff]
            intro record hrecord
            have := List.flatten_eq_nil_iff.mp (List.length_eq_zero_iff.mp hempty) record hrecord
            simpa using this
          rw [OneNonempty, List.filter_append, hnil]
          exact hnew
        · left
          rw [List.flatten_append, List.length_append, List.flatten_singleton]
          omega
      · exact h records (List.mem_cons_of_mem _ hmem)

theorem heldFiles_append (m n : Nat) (lines : List (List UInt8)) (line : List UInt8) :
    heldFiles m n (lines ++ [line]) = placeLine m n (heldFiles m n lines) line := by
  rw [heldFiles, List.foldl_append]
  rfl

theorem heldFiles_length (m n : Nat) (lines : List (List UInt8)) :
    (heldFiles m n lines).length ≤ n + 1 := by
  induction lines using List.reverseRecOn with
  | nil => exact Nat.zero_le _
  | append_singleton lines line ih =>
    rw [heldFiles_append]
    exact placeLine_length m n ih line

theorem keptLines_suffix (m n : Nat) (lines : List (List UInt8)) :
    keptLines (heldFiles m n lines) <:+ lines := by
  induction lines using List.reverseRecOn with
  | nil => exact List.suffix_rfl
  | append_singleton lines line ih =>
    obtain ⟨dropped, hdropped⟩ := ih
    rw [heldFiles_append]
    obtain hadd | ⟨-, hrotated⟩ := placeLine_cases (heldFiles_length m n lines) line
    · rw [hadd]
      exact ⟨dropped, by rw [← List.append_assoc, hdropped]⟩
    · obtain ⟨oldest, holdest⟩ := keptLines_dropLast (heldFiles m n lines)
      rw [hrotated, keptLines_cons]
      refine ⟨dropped ++ oldest, ?_⟩
      rw [List.append_assoc, ← List.append_assoc oldest, holdest, ← List.append_assoc, hdropped]

theorem heldFiles_sizes (m n : Nat) (lines : List (List UInt8)) :
    ∀ records ∈ heldFiles m n lines, records.flatten.length ≤ m ∨ OneNonempty records := by
  induction lines using List.reverseRecOn with
  | nil => exact fun _ h => absurd h List.not_mem_nil
  | append_singleton lines line ih =>
    rw [heldFiles_append]
    exact placeLine_sizes ih line

/-! ## Whole runs -/

theorem writtenLines_append (calls : List LogCall) (call : LogCall) :
    writtenLines (calls ++ [call]) = writtenLines calls ++ writtenLines [call] :=
  List.filterMap_append

/-- After any calls the files hold the records that `heldFiles` says. -/
theorem run_holds (m n : Nat) (calls : List LogCall) :
    Holds m n (heldFiles m n (writtenLines calls))
      (calls.foldl LogCall.run (⟨some m, n, none⟩, fun _ => none)) := by
  induction calls using List.reverseRecOn with
  | nil =>
    refine ⟨rfl, rfl, funext fun name => ?_, fun size h => nomatch h⟩
    match name with
    | .active => rfl
    | .numbered 0 => rfl
    | .numbered (i + 1) => rfl
  | append_singleton calls call ih =>
    rw [List.foldl_append, writtenLines_append]
    cases call with
    | writeLine line =>
      show Holds m n (heldFiles m n (writtenLines calls ++ [line])) _
      rw [heldFiles_append]
      exact writeLine_holds (heldFiles_length m n _) ih line
    | reopen =>
      show Holds m n (heldFiles m n (writtenLines calls ++ [])) _
      rw [List.append_nil]
      exact ⟨ih.maxBytes_eq, ih.maxFiles_eq, ih.dir_eq, fun size h => nomatch h⟩

/-- `name.n`, …, `name.1` and `name` one after the other. -/
def readFiles (dir : LogDir) (n : Nat) : List UInt8 :=
  ((List.range' 1 n).reverse.flatMap fun i => (dir (.numbered i)).getD []) ++
    (dir .active).getD []

theorem flatMap_range_getElem {α β : Type} (f : α → List β) (l : List α) (k : Nat)
    (hk : l.length ≤ k) :
    ((List.range k).reverse.flatMap fun i => (l[i]?.map f).getD []) = l.reverse.flatMap f := by
  induction k generalizing l with
  | zero =>
    obtain rfl := List.length_eq_zero_iff.mp (Nat.le_zero.mp hk)
    rfl
  | succ k ih =>
    rw [List.range_succ_eq_map, List.reverse_cons, List.flatMap_append, ← List.map_reverse,
      List.flatMap_map]
    match l with
    | [] => simp
    | a :: l =>
      have hrest := ih l (Nat.le_of_succ_le_succ hk)
      simp only [Nat.succ_eq_add_one, List.getElem?_cons_succ]
      rw [hrest]
      simp

theorem readFiles_filesOf {n : Nat} {held : HeldFiles} (hlen : held.length ≤ n + 1) :
    readFiles (filesOf held) n = (keptLines held).flatten := by
  have hread := flatMap_range_getElem List.flatten held (n + 1) hlen
  rw [keptLines, List.flatten_flatten, ← List.flatMap_def, ← hread, readFiles,
    List.range_succ_eq_map, List.reverse_cons, List.flatMap_append, ← List.map_reverse,
    List.flatMap_map, List.range'_eq_map_range, ← List.map_reverse, List.flatMap_map]
  congr 1
  · congr 1
    funext i
    rw [Nat.add_comm]
    rfl
  · exact (List.append_nil _).symm

/-- What the files of a log keep of the records; a file past the limit is one that is exempt. -/
structure TailKept (exempt : List (List UInt8) → Prop) (m n : Nat) (lines : List (List UInt8))
    (dir : LogDir) : Prop where
  /-- The files hold the bytes of the records that went to them. -/
  contents : dir = filesOf (heldFiles m n lines)
  suffix : keptLines (heldFiles m n lines) <:+ lines
  read : readFiles dir n = (keptLines (heldFiles m n lines)).flatten
  sizes : ∀ records ∈ heldFiles m n lines, records.flatten.length ≤ m ∨ exempt records
  count : ∃ names : List LogName, names.length = n + 1 ∧ ∀ name, dir name ≠ none → name ∈ names
  /-- Only a rotation with the last number taken drops records, those of the oldest file. -/
  dropped : ∀ line,
    keptLines (heldFiles m n (lines ++ [line])) = keptLines (heldFiles m n lines) ++ [line] ∨
    (heldFiles m n lines).length = n + 1 ∧
      heldFiles m n (lines ++ [line]) = [line] :: (heldFiles m n lines).dropLast

/-- A rotated log keeps a tail of its records. -/
theorem rotation_keeps_tail (m n : Nat) (calls : List LogCall) :
    TailKept OneNonempty m n (writtenLines calls)
      (calls.foldl LogCall.run (⟨some m, n, none⟩, fun _ => none)).2 := by
  have hlen := heldFiles_length m n (writtenLines calls)
  have hdir := (run_holds m n calls).dir_eq
  refine ⟨hdir, keptLines_suffix m n _, ?_, heldFiles_sizes m n _, ?_, ?_⟩
  · rw [hdir, readFiles_filesOf hlen]
  · refine ⟨.active :: (List.range' 1 n).map .numbered, by simp, ?_⟩
    intro name hname
    rw [hdir] at hname
    match name with
    | .active => exact List.mem_cons_self
    | .numbered 0 => exact absurd rfl hname
    | .numbered (i + 1) =>
      refine List.mem_cons_of_mem _ (List.mem_map_of_mem (List.mem_range'_1.mpr ?_))
      by_contra hout
      exact hname (by rw [filesOf, List.getElem?_eq_none (by omega)]; rfl)
  · intro line
    rw [heldFiles_append]
    exact placeLine_cases hlen line

/-- An empty record before one that is larger than the limit is a second one in its file. -/
theorem empty_record_shares_file :
    ¬TailKept (fun records => records.length = 1) mib 3
      (writtenLines [.writeLine [], .writeLine (List.replicate (mib + 1) 97)])
      ([.writeLine [], .writeLine (List.replicate (mib + 1) 97)].foldl LogCall.run
        (RotatingFile.new 1 3, fun _ => none)).2 := by
  intro h
  have hlen : [[], List.replicate (mib + 1) (97 : UInt8)].flatten.length = mib + 1 := by
    rw [List.flatten_cons, List.nil_append, List.flatten_singleton, List.length_replicate]
  obtain hsize | hone := h.sizes [[], List.replicate (mib + 1) 97] List.mem_cons_self
  · omega
  · cases hone

end ByteHive
