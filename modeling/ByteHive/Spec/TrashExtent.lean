import ByteHive.Native.TrashFallback
import ByteHive.Spec.CopyExactness

/-!
# What `move_to_trash` reaches

Whatever it falls back to, `move_to_trash` changes only what it is asked to delete and the places of
the trash (`moveToTrash_spec`), and what it is asked to delete is gone afterwards. Only the root
itself, which no path ending in `.` names, is removed as a directory (`moveToTrash_root`).
-/

namespace ByteHive

open FileTree

/-! ## Copies -/

section

variable {β : Type} {ls : DirListing β} {now fuel : Nat} {src dst : List String}
variable {t t' : FileTree String β}

/-- The tree that a copy leaves when it ends, well or not. -/
def CopyEnd.Leaves (e : CopyEnd β) (t : FileTree String β) : Prop := e = .done t ∨ e = .failed t

theorem copyFile_within (h : (copyFile now t src dst).Leaves t') :
    Within (fun q => dst <+: q) (fun _ => False) now t t' := by
  obtain hdone | hfailed := h
  · obtain ⟨data, -, hwrite⟩ := copyFile_eq_done hdone
    exact (Within.write hwrite).mono (fun q hq => hq ▸ List.prefix_rfl) fun _ h => h
  · rw [copyFile] at hfailed
    split at hfailed
    · cases hfailed
      exact Within.refl _ _ now t
    · split at hfailed
      · cases hfailed
        exact Within.refl _ _ now t
      · cases hfailed

theorem copyEntries_within
    {copyDir : FileTree String β → List String → List String → CopyEnd β} {cs : List String}
    (hentry : ∀ s s' c, (copyEntry copyDir now src dst s c).Leaves s' →
      Within (fun q => dst <+: q) (fun _ => False) now s s')
    (h : (copyEntries copyDir now src dst cs t).Leaves t') :
    Within (fun q => dst <+: q) (fun _ => False) now t t' := by
  induction cs generalizing t with
  | nil =>
    obtain hdone | hfailed := h
    · cases hdone
      exact Within.refl _ _ now _
    · cases hfailed
  | cons c cs ih =>
    rw [copyEntries] at h
    split at h
    · next t₁ hdone => exact (hentry t t₁ c (.inl hdone)).trans (ih h)
    · next hstop =>
      obtain hdone | hfailed := h
      · exact absurd hdone (hstop t')
      · exact hentry t t' c (.inr hfailed)

/-- A copy changes what is at or below its target, and what it makes there is of its time. -/
theorem copyDirAll_within (h : (copyDirAll ls now fuel t src dst).Leaves t') :
    Within (fun q => dst <+: q) (fun _ => False) now t t' := by
  induction fuel generalizing t t' src dst with
  | zero => obtain h | h := h <;> cases h
  | succ fuel ih =>
    rw [copyDirAll] at h
    split at h
    · obtain h | h := h
      · cases h
      · cases h
        exact Within.refl _ _ now t
    · next t₁ hmake =>
      have hmade : Within (fun q => dst <+: q) (fun _ => False) now t t₁ :=
        (Within.createDirAll hmake).mono (fun _ h => h.elim) fun _ h => h
      split at h
      · refine hmade.trans (copyEntries_within (fun s s' c hentry => ?_) h)
        have hbelow : ∀ q, dst ++ [c] <+: q → dst <+: q :=
          fun q hq => (List.prefix_append dst [c]).trans hq
        rw [copyEntry] at hentry
        split at hentry
        · exact (ih hentry).mono hbelow fun _ h => h
        · exact (copyFile_within hentry).mono hbelow fun _ h => h
      · obtain h | h := h
        · cases h
        · cases h
          exact hmade

end

namespace RootTree

/-! ## What is to be deleted, and where the trash is -/

/-- What a deletion takes away: the path with what is below it, but not a directory whose path ends
    in `.` itself. -/
def Removed (names : List String) (dot : Bool) (q : List String) : Prop :=
  names <+: q ∧ (dot = true → q ≠ names)

instance (names : List String) (dot : Bool) (q : List String) : Decidable (Removed names dot q) :=
  inferInstanceAs (Decidable (_ ∧ _))

/-- The places of the trash manager for a new entry: its index, and the directory of the entry. -/
def TrashOwn (id : String) (q : List String) : Prop :=
  indexFile <+: q ∨ indexTmp <+: q ∨ entryDir id <+: q

/-- A deletion into the trash. -/
structure Trashed (tick : TrashTick) (names : List String) (dot : Bool) (t t' : RootTree) :
    Prop where
  within : Within (fun q => Removed names dot q ∨ TrashOwn tick.id q)
    (fun q => entryDir tick.id <+: q) tick.now t t'
  gone : ∀ q n, t'.get q = some n → Removed names dot q → ¬entryDir tick.id <+: q →
    n.mtime = tick.now

/-- What is left when everything has been removed. -/
def Emptied (names : List String) (dot : Bool) (t : RootTree) : Option RootTree → Prop
  | none => names = [] ∧ dot = false
  | some t' => ∀ q, t'.get q = if Removed names dot q then none else t.get q

section

variable {tick : TrashTick} {names : List String} {dot : Bool} {t t₁ t₂ t' : RootTree}

theorem Trashed.after (hbefore : Within (fun q => entryDir tick.id <+: q)
      (fun q => entryDir tick.id <+: q) tick.now t t₁)
    (h : Trashed tick names dot t₁ t') : Trashed tick names dot t t' :=
  ⟨(hbefore.mono (fun _ hq => .inr (.inr (.inr hq))) fun _ hq => hq).trans h.within, h.gone⟩

theorem Trashed.before (h : Trashed tick names dot t t₁)
    (hafter : Within (TrashOwn tick.id) (fun q => entryDir tick.id <+: q) tick.now t₁ t') :
    Trashed tick names dot t t' := by
  refine ⟨h.within.trans (hafter.mono (fun _ hq => .inr hq) fun _ hq => hq),
    fun q n hq hremoved hout => ?_⟩
  obtain hnow | hq := hafter.only q n hq hout
  · exact hnow
  · exact h.gone q n hq hremoved hout

theorem Emptied.trashed (h : Emptied names dot t (some t')) : Trashed tick names dot t t' := by
  refine ⟨⟨fun q n hq hout => ?_, fun q n hq _ => ?_⟩, fun q n hq hremoved _ => ?_⟩
  · rw [h q, if_neg fun hremoved => hout (.inl hremoved), hq]
  · rw [h q] at hq
    split at hq
    · cases hq
    · exact .inr hq
  · rw [h q, if_pos hremoved] at hq
    cases hq

theorem removeDirAll_emptied (t : RootTree) (names : List String) (dot : Bool) :
    Emptied names dot t (removeDirAll t names dot) := by
  rw [removeDirAll]
  cases dot with
  | true =>
    intro q
    rw [get_removeBelow]
    exact if_congr (by simp [Removed]) rfl rfl
  | false =>
    by_cases hroot : names = []
    · simp [hroot, Emptied]
    · simp only [hroot, if_false, Bool.false_eq_true]
      intro q
      rw [get_removeTree]
      exact if_congr (by simp [Removed]) rfl rfl

theorem hardDelete_emptied (hdir : dot = true → t.isDir names = true) :
    Emptied names dot t (hardDelete t names dot) := by
  rw [hardDelete]
  split
  · exact removeDirAll_emptied t names dot
  · next hfile =>
    intro q
    rw [get_removeTree]
    refine if_congr ?_ rfl rfl
    simp only [Removed]
    exact ⟨fun hq => ⟨hq, fun hdot => absurd (hdir hdot) hfile⟩, fun hq => hq.1⟩

/-! ## The index -/

theorem saveIndex_within (codec : IndexCodec) (now : Nat) (t : RootTree) (index : List TrashEntry)
    (id : String) :
    Within (TrashOwn id) (fun q => entryDir id <+: q) now t (saveIndex codec now t index) := by
  rw [saveIndex]
  split
  · exact Within.refl _ _ now t
  · next t₁ hmake =>
    have hmade : Within (TrashOwn id) (fun q => entryDir id <+: q) now t t₁ :=
      (Within.createDirAll hmake).mono (fun _ h => h.elim) fun _ h => h.elim
    split
    · exact hmade
    · next t₂ hwrite =>
      have hwritten : Within (TrashOwn id) (fun q => entryDir id <+: q) now t t₂ :=
        hmade.trans ((Within.write hwrite).mono (fun q hq => .inr (.inl (hq ▸ List.prefix_rfl)))
          fun _ h => h.elim)
      split
      · exact hwritten.trans ((Within.removeTree t₂ now indexTmp).mono
          (fun _ hq => .inr (.inl hq)) fun _ h => h.elim)
      · next t₃ hrename =>
        have hmoved := Within.rename now hrename
        refine ⟨fun q n hq hout => ?_, fun q n hq hout => ?_⟩
        · refine hmoved.keeps q n (hwritten.keeps q n hq hout) fun hin => hout ?_
          exact hin.elim (fun h => .inr (.inl h)) .inl
        · by_cases hin : indexFile <+: q
          · -- The index is the file that was written just now.
            obtain ⟨r, rfl⟩ := hin
            have hne : indexTmp ≠ indexFile := by decide
            rw [get_rename hne hrename, movedGet, if_pos (List.prefix_append _ _),
              List.drop_left, get_write hwrite] at hq
            split at hq
            · cases hq
              exact .inl rfl
            · next hr =>
              have hfile : t₂.isFile indexTmp = true := by
                rw [isFile, get_write hwrite, if_pos rfl]
                rfl
              have hnone := t₂.get_eq_none_of_file_prefix hfile (List.prefix_append indexTmp r)
                (Ne.symm hr)
              rw [get_write hwrite, if_neg hr, hq] at hnone
              cases hnone
          · obtain hnow | hq := hmoved.only q n hq hin
            · exact .inl hnow
            · exact hwritten.only q n hq hout

/-! ## The call -/

theorem entryDir_ne_nil (id : String) : entryDir id ≠ [] := by simp [entryDir, trashDir]

/-- The place of the data is not above what is moved there. -/
theorem dest_not_above (id : String) (names : List String) : ¬entryDir id ++ names <+: names := by
  intro hpre
  have hlen := hpre.length_le
  have hpos := List.length_pos_of_ne_nil (entryDir_ne_nil id)
  rw [List.length_append] at hlen
  omega

variable {host : BrowserHost}

/-- When the data was not moved, only the directory of the entry has changed. -/
theorem moveOrCopy_error
    (h : moveOrCopy host tick.now t names dot (entryDir tick.id ++ names) = .error t') :
    Within (fun q => entryDir tick.id ++ names <+: q) (fun _ => False) tick.now t t' := by
  rw [moveOrCopy] at h
  split at h
  · cases h
  · split at h
    · split at h
      · cases h
      · next hcopy =>
        cases h
        exact copyDirAll_within (.inr hcopy)
      · cases h
        exact Within.refl _ _ _ _
    · split at h
      · cases h
      · next hcopy =>
        cases h
        exact copyFile_within (.inr hcopy)
      · cases h
        exact Within.refl _ _ _ _

/-- When the data was moved, it is gone from where it was. -/
theorem moveOrCopy_ok (hdir : dot = true → t.isDir names = true) {disk : Option RootTree}
    (h : moveOrCopy host tick.now t names dot (entryDir tick.id ++ names) = .ok disk) :
    (∃ t', disk = some t' ∧ Trashed tick names dot t t') ∨
      disk = none ∧ names = [] ∧ dot = false := by
  have hdest : ∀ q, entryDir tick.id ++ names <+: q → entryDir tick.id <+: q :=
    fun q hq => (List.prefix_append _ names).trans hq
  -- After a copy the data is removed.
  have hcopied : ∀ t₁, Within (fun q => entryDir tick.id ++ names <+: q) (fun _ => False)
      tick.now t t₁ → Emptied names dot t₁ disk →
      (∃ t', disk = some t' ∧ Trashed tick names dot t t') ∨
        disk = none ∧ names = [] ∧ dot = false := by
    intro t₁ hcopy hemptied
    cases disk with
    | none => exact .inr ⟨rfl, hemptied⟩
    | some t' =>
      exact .inl ⟨t', rfl, hemptied.trashed.after (hcopy.mono hdest fun _ h => h.elim)⟩
  rw [moveOrCopy] at h
  split at h
  · next t' hrename =>
    cases h
    cases dot with
    | true => cases hrename
    | false =>
      have hrename : t.rename names (entryDir tick.id ++ names) = some t' := hrename
      have hmoved := Within.rename tick.now hrename
      refine .inl ⟨t', rfl, ⟨hmoved.mono ?_ hdest, fun q n hq hremoved hout => ?_⟩⟩
      · intro q hq
        obtain hq | hq := hq
        · exact .inl ⟨hq, fun hdot => by cases hdot⟩
        · exact .inr (.inr (.inr (hdest q hq)))
      · have hne : names ≠ entryDir tick.id ++ names := by
          simpa using entryDir_ne_nil tick.id
        rw [get_rename hne hrename, movedGet, if_neg fun hin => hout (hdest q hin),
          if_pos hremoved.1] at hq
        cases hq
  · split at h
    · split at h
      · next t₁ hcopy =>
        cases h
        exact hcopied t₁ (copyDirAll_within (.inl hcopy)) (removeDirAll_emptied t₁ names dot)
      · cases h
      · cases h
    · next hfile =>
      split at h
      · next t₁ hcopy =>
        cases h
        refine hcopied t₁ (copyFile_within (.inl hcopy)) fun q => ?_
        rw [get_removeTree]
        refine if_congr ?_ rfl rfl
        exact ⟨fun hq => ⟨hq, fun hdot => absurd (hdir hdot) hfile⟩, fun hq => hq.1⟩
      · cases h
      · cases h

variable (host tick) in
/-- Only a path for the root can take the root away. -/
theorem moveToTrash_spec {p : BrowserPath} (hslash : dot = true → p.slash = true)
    (hexists : p.existsIn t = true) (deletedBy : String) :
    (∃ t', moveToTrash host tick t p dot deletedBy = some t' ∧ Trashed tick p.names dot t t') ∨
      moveToTrash host tick t p dot deletedBy = none ∧ p.names = [] ∧ dot = false := by
  have hdir : dot = true → t.isDir p.names = true := by
    intro hdot
    rwa [BrowserPath.existsIn, if_pos (hslash hdot)] at hexists
  have hemptied : ∀ {t₁ disk}, Emptied p.names dot t₁ disk →
      (∃ t', disk = some t' ∧ Trashed tick p.names dot t₁ t') ∨
        disk = none ∧ p.names = [] ∧ dot = false := by
    intro t₁ disk h
    cases disk with
    | none => exact .inr ⟨rfl, h⟩
    | some t' => exact .inl ⟨t', rfl, h.trashed⟩
  rw [moveToTrash, hexists]
  simp only [Bool.not_true, Bool.false_eq_true, if_false]
  cases hmake : t.createDirAll tick.now (entryDir tick.id ++ p.names).dropLast with
  | none => exact hemptied (hardDelete_emptied hdir)
  | some t₁ =>
    have hmade : Within (fun q => entryDir tick.id <+: q) (fun q => entryDir tick.id <+: q)
        tick.now t t₁ := (Within.createDirAll hmake).mono (fun _ h => h.elim) fun _ h => h.elim
    have hdir₁ : dot = true → t₁.isDir p.names = true :=
      fun hdot => isDir_createDirAll_of_isDir hmake (hdir hdot)
    simp only
    cases hmove : moveOrCopy host tick.now t₁ p.names dot (entryDir tick.id ++ p.names) with
    | error t₂ =>
      have hleft := moveOrCopy_error hmove
      have hdir₂ : dot = true → t₂.isDir p.names = true :=
        fun hdot => hleft.isDir_of_isDir (dest_not_above tick.id p.names) (hdir₁ hdot)
      simp only
      obtain ⟨t₃, hthere, htrashed⟩ | ⟨hgone, hroot⟩ := hemptied (hardDelete_emptied hdir₂)
      · refine .inl ⟨_, by rw [hthere]; rfl, (htrashed.after ?_).after hmade |>.before ?_⟩
        · exact hleft.mono (fun q hq => (List.prefix_append _ p.names).trans hq) fun _ h => h.elim
        · show Within _ _ _ t₃ (if _ then _ else _)
          split
          · exact (Within.removeTree t₃ tick.now (entryDir tick.id)).mono
              (fun _ hq => .inr (.inr hq)) fun _ h => h.elim
          · exact Within.refl _ _ _ _
      · rw [hgone]
        exact .inr ⟨rfl, hroot⟩
    | ok disk =>
      simp only
      refine .inl ⟨_, rfl, ?_⟩
      obtain ⟨t₂, rfl, htrashed⟩ | ⟨rfl, hroot, hdot⟩ := moveOrCopy_ok hdir₁ hmove
      · exact (htrashed.after hmade).before (saveIndex_within _ _ _ _ _)
      · -- The root has been removed, and is made again for the index.
        have hempty : Emptied p.names dot t₁ (some .empty) := by
          intro q
          rw [get_empty, if_pos]
          exact ⟨hroot ▸ List.nil_prefix, fun h => by rw [hdot] at h; cases h⟩
        exact (hempty.trashed.after hmade).before (saveIndex_within _ _ _ _ _)

/-- A directory for a new entry that is not there yet cannot be copied into from the root: the root
    is removed. -/
theorem moveToTrash_root {p : BrowserPath} (hroot : p.names = [])
    (hfree : t.get (entryDir tick.id) = none) (deletedBy : String) :
    moveToTrash host tick t p false deletedBy = none := by
  have hexists : p.existsIn t = true := by simp [BrowserPath.existsIn, hroot, pathExists, isDir]
  have hremoved : ∀ t : RootTree, hardDelete t [] false = none := fun t => rfl
  rw [moveToTrash, hexists, hroot, List.append_nil]
  simp only [Bool.not_true, Bool.false_eq_true, if_false, hremoved]
  cases hmake : t.createDirAll tick.now (entryDir tick.id).dropLast with
  | none => rfl
  | some t₁ =>
    have hparent : (entryDir tick.id).dropLast = trashDir := rfl
    rw [hparent] at hmake
    have hfree₁ : ∀ r, t₁.get (entryDir tick.id ++ r) = none := by
      intro r
      refine get_append_eq_none (entryDir_ne_nil _) ?_ r
      rw [get_createDirAll hmake, if_neg, hfree]
      intro hway
      exact absurd hway.2.1.length_le (by simp [entryDir, trashDir])
    have hmirrors : Mirrors [] (entryDir tick.id) t₁ := by
      intro r b hkind
      simp [kind, hfree₁ r, entryDir_ne_nil] at hkind
    have hway : ∀ q, q <+: entryDir tick.id → t₁.isFile q = false := by
      intro q hq
      obtain heq | hq := List.prefix_concat_iff.mp hq
      · have hnone := hfree₁ []
        rw [List.append_nil] at hnone
        rw [isFile, heq]
        simp [show t₁.get (trashDir ++ [tick.id]) = none from hnone]
      · have hfile := (createDirAll_isSome_iff tick.now).mp (by rw [hmake]; rfl) q hq
        rw [isFile, get_createDirAll hmake]
        split
        · rfl
        · exact hfile
    have hcopy := (copyDirAll_below host.listing tick.now host.limit hmirrors hway
      (p := []) rfl).2 ".bh_filesync" ["trash", tick.id] rfl
    rw [List.append_nil, List.append_nil] at hcopy
    have hmove : moveOrCopy host tick.now t₁ [] false (entryDir tick.id) = .error t₁ := by
      have hrename : t₁.rename [] (entryDir tick.id) = none := by
        rw [FileTree.rename, if_neg (Ne.symm (entryDir_ne_nil _)), dif_neg]
        intro hcan
        have hsource := hcan.source
        simp at hsource
      rw [moveOrCopy]
      simp only [Bool.false_eq_true, if_false, hrename]
      rw [if_pos (show t₁.isDir [] = true from rfl), hcopy]
    simp only [hmove, Option.map_none]

end

end RootTree

end ByteHive
