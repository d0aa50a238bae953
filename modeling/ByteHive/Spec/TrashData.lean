import ByteHive.Native.TrashCalls
import ByteHive.Spec.TrashIndex

/-!
# Where the data of the trash is

What the calls of a `TrashManager` leave at each path of the root: one lookup lemma for moving
data in, for restoring and for saving the index. Data is moved as a whole, so below the moved
path every lookup goes along.
-/

namespace FileTree

universe u v

variable {κ : Type u} {β : Type v} [DecidableEq κ]

/-- Making the parents of `g` and moving `f` there: below `g` is what was below `f`, and nothing is
    left at `f`. -/
theorem get_moved {t t₁ t₂ : FileTree κ β} {now : Nat} {f g : List κ}
    (h₁ : t.createDirAll now g.dropLast = some t₁) (h₂ : t₁.rename f g = some t₂) (hne : f ≠ g)
    (q : List κ) :
    t₂.get q =
      if g <+: q then t.get (f ++ q.drop g.length)
      else if f <+: q then none
      else if q ≠ [] ∧ q <+: g.dropLast ∧ t.get q = none then some (.dir now) else t.get q := by
  have hcan := (rename_eq_some_iff hne).mp (by rw [h₂]; rfl)
  rw [get_rename hne h₂, movedGet]
  split
  · -- No parent of `g` is made at or below `f`.
    rw [get_createDirAll h₁, if_neg]
    rintro ⟨-, hpre, -⟩
    have hbelow := (List.prefix_append f (q.drop g.length)).trans hpre
    exact hcan.not_below (hbelow.trans (List.dropLast_prefix g))
  · split
    · rfl
    · rw [get_createDirAll h₁]

/-- Every path on the way to `p` is a directory once the directories up to `p` are made. -/
theorem isDir_of_createDirAll {t t' : FileTree κ β} {now : Nat} {p q : List κ}
    (h : t.createDirAll now p = some t') (hq : q <+: p) : t'.isDir q = true := by
  have hfile := (createDirAll_isSome_iff now).mp (by rw [h]; rfl) q hq
  rw [isDir, get_createDirAll h]
  by_cases hroot : q = []
  · simp [hroot]
  · cases hn : t.get q with
    | none => simp [hroot, hq, FileNode.isDir]
    | some n =>
      -- No file is on the way.
      rw [isFile, hn, Option.any_some, Bool.not_eq_false'] at hfile
      simp [hfile]

end FileTree

namespace ByteHive

namespace TrashManager

open FileTree

/-- An entry as `move_to_trash` makes it. -/
structure Made (e : TrashEntry) : Prop where
  trashRelPath : e.trashRelPath = .normal e.id :: e.originalPath
  id : ∃ ns seq, e.id = trashId ns seq

/-- The path of the data of an entry. -/
def dataPath (e : TrashEntry) : PathBuf := trashDir ++ e.trashRelPath

variable {t t' : TrashTree} {now : Nat}

theorem Made.dataPath_eq {e : TrashEntry} (he : Made e) :
    dataPath e = trashIdDir e.id ++ e.originalPath := by
  rw [dataPath, he.trashRelPath, trashIdDir, List.append_assoc]
  rfl

theorem Made.below {e : TrashEntry} (he : Made e) : trashIdDir e.id <+: dataPath e := by
  rw [he.dataPath_eq]
  exact List.prefix_append _ _

/-- The directory of an entry is neither the index file nor the file it is written to first. -/
theorem Made.id_ne {e : TrashEntry} (he : Made e) {name : String} (hname : '_' ∉ name.toList) :
    e.id ≠ name := by
  obtain ⟨ns, seq, hid⟩ := he.id
  rw [hid]
  exact trashId_ne hname

theorem Made.not_index {e : TrashEntry} (he : Made e) {q : PathBuf}
    (hq : trashIdDir e.id <+: q) : ¬ trashIndexFile <+: q ∧ ¬ trashIndexTmp <+: q := by
  have hother : ∀ name : String, '_' ∉ name.toList → ¬ trashDir ++ [.normal name] <+: q := by
    intro name hname hpre
    obtain ⟨r, rfl⟩ := hq
    rw [trashIdDir] at hpre
    have heq := entry_eq_of_below hpre
    exact he.id_ne hname (by cases heq; rfl)
  exact ⟨hother _ (by decide), hother _ (by decide)⟩

/-- Saving the index changes no other path, but that its directory is there. -/
theorem get_saveIndex {index : List TrashEntry} (h : saveIndex t now index = some t')
    {q : PathBuf} (hfile : ¬ trashIndexFile <+: q) (htmp : ¬ trashIndexTmp <+: q) :
    t'.get q =
      if q ≠ [] ∧ q <+: trashDir ∧ t.get q = none then some (.dir now) else t.get q := by
  simp only [saveIndex, bind, Option.bind_eq_some_iff] at h
  obtain ⟨t₁, h₁, t₂, h₂, h₃⟩ := h
  have hne : trashIndexTmp ≠ trashIndexFile := by decide
  have hq : q ≠ trashIndexTmp := fun heq => htmp (heq ▸ List.prefix_refl _)
  rw [get_rename hne h₃, movedGet, if_neg hfile, if_neg htmp, get_write h₂, if_neg hq,
    get_createDirAll h₁]

/-- Nothing is left where the index was written first. -/
theorem get_saveIndex_tmp {index : List TrashEntry} (h : saveIndex t now index = some t')
    {q : PathBuf} (htmp : trashIndexTmp <+: q) : t'.get q = none := by
  simp only [saveIndex, bind, Option.bind_eq_some_iff] at h
  obtain ⟨t₁, -, t₂, -, h₃⟩ := h
  have hne : trashIndexTmp ≠ trashIndexFile := by decide
  have hfile : ¬ trashIndexFile <+: q := by
    intro hfile
    obtain ⟨r, rfl⟩ := htmp
    have hpre := List.prefix_of_prefix_length_le hfile (List.prefix_append trashIndexTmp r)
      (by decide)
    exact absurd (hpre.eq_of_length (by decide)) (by decide)
  rw [get_rename hne h₃, movedGet, if_neg hfile, if_pos htmp]

/-- When the index can be saved. -/
theorem saveIndex_isSome_iff {index : List TrashEntry} :
    (saveIndex t now index).isSome = true ↔
      (∀ q, q <+: trashDir → t.isFile q = false) ∧ t.isDir trashIndexTmp = false ∧
        t.isDir trashIndexFile = false := by
  have hne : trashIndexTmp ≠ trashIndexFile := by decide
  have hparent : trashIndexTmp.dropLast = trashDir := List.dropLast_concat
  have htmpOut : ¬ trashIndexTmp <+: trashDir := by decide
  have hfileOut : ¬ trashIndexFile <+: trashDir := by decide
  rw [← createDirAll_isSome_iff now]
  cases h₁ : t.createDirAll now trashDir with
  | none => simp [saveIndex, h₁]
  | some t₁ =>
    -- Making the directory changes neither file.
    have hkeep : ∀ p, ¬ p <+: trashDir → t₁.get p = t.get p := fun p hp => by
      rw [get_createDirAll h₁, if_neg fun hc => hp hc.2.1]
    have hdir := isDir_of_createDirAll h₁ (List.prefix_refl trashDir)
    have htmp : t₁.isDir trashIndexTmp = t.isDir trashIndexTmp := by
      rw [isDir, isDir, hkeep _ htmpOut]
    have hfile : t₁.isDir trashIndexFile = t.isDir trashIndexFile := by
      rw [isDir, isDir, hkeep _ hfileOut]
    simp only [saveIndex, h₁, bind, Option.bind_some, Option.isSome_some, true_and]
    rw [← htmp, ← hfile]
    cases h₂ : t₁.write trashIndexTmp (.index index) now with
    | none =>
      have hnone := write_eq_none_iff.mp h₂
      rw [hparent, hdir] at hnone
      have htrue : t₁.isDir trashIndexTmp = true := by
        rcases hnone with hnil | hfalse | htrue
        · exact absurd hnil (by decide)
        · cases hfalse
        · exact htrue
      simp [htrue]
    | some t₂ =>
      have hfalse : t₁.isDir trashIndexTmp = false := by
        by_contra htrue
        rw [Bool.not_eq_false] at htrue
        have hnone : t₁.write trashIndexTmp (.index index) now = none :=
          write_eq_none_iff.mpr (.inr (.inr htrue))
        rw [h₂] at hnone
        cases hnone
      have hindex : t₂.get trashIndexFile = t₁.get trashIndexFile := by
        rw [get_write h₂, if_neg (Ne.symm hne)]
      have hreplace : t₂.replaceable trashIndexTmp trashIndexFile = true ↔
          t₁.isDir trashIndexFile = false := by
        rw [replaceable, isDir_write h₂, hfalse, hindex, isDir]
        cases t₁.get trashIndexFile with
        | none => simp [show trashIndexFile ≠ [] by decide]
        | some n => simp [show trashIndexFile ≠ [] by decide]
      rw [Option.bind_some, rename_eq_some_iff hne, ← hreplace]
      constructor
      · intro hcan
        exact ⟨hfalse, hcan.replaces⟩
      · intro hboth
        have hsource : (t₂.get trashIndexTmp).isSome = true := by rw [get_write h₂, if_pos rfl]; rfl
        have hparent' : t₂.isDir trashIndexFile.dropLast = true := by
          rw [isDir_write h₂]
          exact hdir
        exact ⟨hsource, by decide, by decide, hparent', hboth.2⟩

/-- The data of `rel` goes to the entry's directory. -/
theorem get_moveData {id : String} {rel : PathBuf} {deletedBy : String} {e : TrashEntry}
    (h : moveData t now id rel deletedBy = some (t', e)) (q : PathBuf) :
    t'.get q =
      if dataPath e <+: q then t.get (rel ++ q.drop (dataPath e).length)
      else if rel <+: q then none
      else if q ≠ [] ∧ q <+: (dataPath e).dropLast ∧ t.get q = none then some (.dir now)
      else t.get q := by
  simp only [moveData, bind, Option.bind_eq_some_iff, pure, Option.some.injEq, Prod.mk.injEq] at h
  obtain ⟨t₁, h₁, t₂, h₂, rfl, rfl⟩ := h
  have hpath : trashIdDir id ++ rel = trashDir ++ (.normal id :: rel) := by
    rw [trashIdDir, List.append_assoc]
    rfl
  rw [hpath] at h₁ h₂
  have hne : rel ≠ trashDir ++ (.normal id :: rel) := by
    intro heq
    have hlen := congrArg List.length heq
    simp only [List.length_append, List.length_cons] at hlen
    omega
  exact get_moved h₁ h₂ hne q

theorem made_moveData {ns seq : Nat} {rel : PathBuf} {deletedBy : String} {e : TrashEntry}
    (h : moveData t now (trashId ns seq) rel deletedBy = some (t', e)) : Made e := by
  simp only [moveData, bind, Option.bind_eq_some_iff, pure, Option.some.injEq, Prod.mk.injEq] at h
  obtain ⟨t₁, -, t₂, -, -, rfl⟩ := h
  exact ⟨rfl, ns, seq, rfl⟩

/-- Moving data adds no entry to the index; it may move the index file itself. -/
theorem mem_of_moveData {id : String} {rel : PathBuf} {deletedBy : String} {e e' : TrashEntry}
    (h : moveData t now id rel deletedBy = some (t', e)) (hmade : Made e)
    (he : e' ∈ loadIndex t') : e' ∈ loadIndex t := by
  have hdata : ¬ dataPath e <+: trashIndexFile := by
    intro hc
    exact (hmade.not_index (hmade.below.trans hc)).1 (List.prefix_refl _)
  have hget := get_moveData h trashIndexFile
  rw [if_neg hdata] at hget
  by_cases hrel : rel <+: trashIndexFile
  · rw [if_pos hrel] at hget
    simp [loadIndex, FileTree.read, hget] at he
  · rw [if_neg hrel] at hget
    by_cases hmissing : t.get trashIndexFile = none
    · -- A directory made there is no index.
      rw [hmissing] at hget
      have hnone : loadIndex t' = [] := by
        rw [loadIndex, FileTree.read, hget]
        split_ifs <;> rfl
      rw [hnone] at he
      cases he
    · rw [if_neg fun hc => hmissing hc.2.2] at hget
      rwa [loadIndex, FileTree.read, hget] at he

/-- A restored entry: its data is at the destination, and its directory is gone. -/
theorem get_restoreData {index : List TrashEntry} {id : String} {destOverride : Option PathBuf}
    {destRel : PathBuf} (h : restoreData t now index id destOverride = some (.ok (t', destRel)))
    {e : TrashEntry} (he : index.find? (·.id = id) = some e) (q : PathBuf) :
    t'.get q =
      if trashIdDir id <+: q then none
      else if skipCurDir destRel <+: q then t.get (dataPath e ++ q.drop (skipCurDir destRel).length)
      else if dataPath e <+: q then none
      else if q ≠ [] ∧ q <+: (skipCurDir destRel).dropLast ∧ t.get q = none then some (.dir now)
      else t.get q := by
  obtain ⟨e', he', -, -, -, hdata, hthere, t₁, t₂, h₁, h₂, h₃⟩ := restoreData_ok h
  obtain rfl : e = e' := Option.some.inj (he.symm.trans he')
  have hne : dataPath e ≠ skipCurDir destRel := by
    intro heq
    rw [← heq] at hthere
    exact absurd (hdata.symm.trans hthere) (by decide)
  rw [get_removeData h₃]
  simp only [List.mem_singleton, exists_eq_left]
  split
  · rfl
  · exact get_moved h₁ h₂ hne q

/-- What lies above an existing path exists. -/
theorem not_prefix_of_get {p d : PathBuf} {n : FileNode TrashFile} (hp : t.get p = some n)
    (hd : t.pathExists d = false) : ¬ d <+: p := by
  intro hpre
  rw [pathExists, Bool.or_eq_false_iff, decide_eq_false_iff_not] at hd
  by_cases heq : d = p
  · rw [heq, hp] at hd
    exact absurd hd.2 (by simp)
  · have hdir := t.isDir_of_prefix hp hpre heq
    rw [isDir, Bool.or_eq_true, decide_eq_true_eq, Option.any_eq_true] at hdir
    rcases hdir with hnil | ⟨n', hn', -⟩
    · exact hd.1 hnil
    · rw [hn'] at hd
      exact absurd hd.2 (by simp)

/-- An index with an entry is in its file. -/
theorem isFile_of_mem {e : TrashEntry} (he : e ∈ loadIndex t) : t.isFile trashIndexFile = true := by
  unfold loadIndex FileTree.read at he
  unfold FileTree.isFile
  cases hget : t.get trashIndexFile with
  | none => simp [hget] at he
  | some n =>
    cases n with
    | dir m => simp [hget] at he
    | file f m => rfl

/-- A destination is neither above what is in the trash nor below the index. -/
theorem dest_apart {index : List TrashEntry} {id : String} {destOverride : Option PathBuf}
    {destRel : PathBuf} (h : restoreData t now index id destOverride = some (.ok (t', destRel)))
    {e : TrashEntry} (he : index.find? (·.id = id) = some e)
    (hindex : t.isFile trashIndexFile = true) :
    ¬ skipCurDir destRel <+: trashIndexFile ∧ ¬ skipCurDir destRel <+: dataPath e ∧
      ¬ trashIndexFile <+: skipCurDir destRel := by
  obtain ⟨e', he', -, -, -, hdata, hthere, t₁, t₂, h₁, -, -⟩ := restoreData_ok h
  obtain rfl : e = e' := Option.some.inj (he.symm.trans he')
  obtain ⟨n, hn, -⟩ := (Option.any_eq_true _ _).mp hindex
  have hfile := not_prefix_of_get hn hthere
  have hsome : ∃ n, t.get (dataPath e) = some n := by
    have hne : dataPath e ≠ [] := by simp [dataPath, trashDir, PathBuf.ofNames]
    rw [pathExists, Bool.or_eq_true, decide_eq_true_eq] at hdata
    exact Option.isSome_iff_exists.mp (hdata.resolve_left hne)
  refine ⟨hfile, not_prefix_of_get hsome.choose_spec hthere, fun hpre => ?_⟩
  rcases List.eq_nil_or_concat (skipCurDir destRel) with hnil | ⟨d, c, hd⟩
  · rw [hnil] at hfile
    exact hfile List.nil_prefix
  · -- No directory is made at or below a file.
    rw [hd, List.concat_eq_append] at hpre hfile h₁
    rcases List.prefix_concat_iff.mp hpre with heq | hbelow
    · exact hfile (heq ▸ List.prefix_refl _)
    · have hfree := (createDirAll_isSome_iff now).mp (by rw [h₁]; rfl) trashIndexFile
        (by rwa [List.dropLast_concat])
      rw [hindex] at hfree
      cases hfree

/-- The index is not saved where its first file is a directory. -/
theorem isDir_tmp_of_saveIndex {index : List TrashEntry} (h : saveIndex t now index = some t') :
    t.isDir trashIndexTmp = false := by
  simp only [saveIndex, bind, Option.bind_eq_some_iff] at h
  obtain ⟨t₁, h₁, t₂, h₂, -⟩ := h
  by_contra hdir
  rw [Bool.not_eq_false] at hdir
  have hnone : t₁.write trashIndexTmp (.index index) now = none :=
    write_eq_none_iff.mpr (.inr (.inr (isDir_createDirAll_of_isDir h₁ hdir)))
  rw [hnone] at h₂
  cases h₂

/-- Restoring to a path strictly below the first file of the index makes that file a directory. -/
theorem isDir_tmp_of_below {index : List TrashEntry} {id : String} {destOverride : Option PathBuf}
    {destRel : PathBuf} (h : restoreData t now index id destOverride = some (.ok (t', destRel)))
    {e : TrashEntry} (he : index.find? (·.id = id) = some e) (hmade : Made e)
    (hbelow : trashIndexTmp <+: skipCurDir destRel) (hne : trashIndexTmp ≠ skipCurDir destRel) :
    t'.isDir trashIndexTmp = true := by
  have hid : e.id = id := by simpa using List.find?_some he
  have hlen : trashIndexTmp.length < (skipCurDir destRel).length :=
    lt_of_le_of_ne hbelow.length_le fun hlen => hne (hbelow.eq_of_length hlen)
  have hparent : trashIndexTmp <+: (skipCurDir destRel).dropLast :=
    List.prefix_of_prefix_length_le hbelow (List.dropLast_prefix _)
      (by rw [List.length_dropLast]; omega)
  have hown : ¬ trashIdDir id <+: trashIndexTmp := fun hpre =>
    (hmade.not_index (hid ▸ hpre)).2 (List.prefix_refl _)
  have hdest : ¬ skipCurDir destRel <+: trashIndexTmp := by
    intro hpre
    have hle := hpre.length_le
    omega
  have hdata : ¬ dataPath e <+: trashIndexTmp := fun hpre =>
    hown (hid ▸ hmade.below.trans hpre)
  have hget := get_restoreData h he trashIndexTmp
  rw [if_neg hown, if_neg hdest, if_neg hdata] at hget
  obtain ⟨-, -, -, -, -, -, -, t₁, -, h₁, -, -⟩ := restoreData_ok h
  have hfile := (createDirAll_isSome_iff now).mp (by rw [h₁]; rfl) trashIndexTmp hparent
  rw [isDir, hget]
  cases hn : t.get trashIndexTmp with
  | none =>
    have hroot : trashIndexTmp ≠ [] := by decide
    simp [hroot, hparent, FileNode.isDir]
  | some n =>
    -- A file there would be on the way to the destination.
    rw [FileTree.isFile, hn, Option.any_some, Bool.not_eq_false'] at hfile
    simp [hfile]

theorem restoreEntry_ok {id : String} {destOverride : Option PathBuf} {destRel : PathBuf}
    (h : restoreEntryWithDest t now id destOverride = some (.ok destRel, t')) :
    ∃ t₁, restoreData t now (loadIndex t) id destOverride = some (.ok (t₁, destRel)) ∧
      saveIndex t₁ now ((IndexChange.remove id).apply (loadIndex t)) = some t' := by
  unfold restoreEntryWithDest at h
  split at h
  · cases h
  · cases h
  · next t₁ dest hdata =>
    obtain ⟨t₂, hsave, heq⟩ := Option.map_eq_some_iff.mp h
    cases heq
    exact ⟨t₁, hdata, hsave⟩

/-- A restore that is refused changes nothing. -/
theorem restoreEntry_error {id : String} {destOverride : Option PathBuf} {err : TrashRestoreError}
    (h : restoreEntryWithDest t now id destOverride = some (.error err, t')) : t' = t := by
  unfold restoreEntryWithDest at h
  split at h
  · cases h
  · cases h
    rfl
  · obtain ⟨t₂, -, heq⟩ := Option.map_eq_some_iff.mp h
    cases heq

/-- What a restore leaves at the destination: the data, unless the destination is in the directory
    of the entry, which goes, or is the file that the index is written to first. -/
theorem get_restoreEntry {id : String} {destOverride : Option PathBuf} {destRel : PathBuf}
    (h : restoreEntryWithDest t now id destOverride = some (.ok destRel, t')) {e : TrashEntry}
    (he : (loadIndex t).find? (·.id = id) = some e) (hmade : Made e) (r : PathBuf) :
    t'.get (skipCurDir destRel ++ r) =
      if trashIdDir id <+: skipCurDir destRel ∨ skipCurDir destRel = trashIndexTmp then none
      else t.get (dataPath e ++ r) := by
  obtain ⟨t₁, hdata, hsave⟩ := restoreEntry_ok h
  have hid : e.id = id := by simpa using List.find?_some he
  have hindex := isFile_of_mem (List.mem_of_find?_eq_some he)
  obtain ⟨hnotfile, hnotdata, hnotbelow⟩ := dest_apart hdata he hindex
  have hpre : skipCurDir destRel <+: skipCurDir destRel ++ r := List.prefix_append _ _
  by_cases htmp : skipCurDir destRel = trashIndexTmp
  · rw [if_pos (.inr htmp)]
    exact get_saveIndex_tmp hsave (htmp ▸ hpre)
  · have htmpOut : ¬ trashIndexTmp <+: skipCurDir destRel := by
      intro hbelow
      have hdir := isDir_tmp_of_below hdata he hmade hbelow (Ne.symm htmp)
      rw [isDir_tmp_of_saveIndex hsave] at hdir
      cases hdir
    -- No prefix of the destination is a path of the trash that exists.
    have habove : ∀ p, skipCurDir destRel <+: p → ¬ p <+: trashIndexFile ∧ ¬ p <+: dataPath e :=
      fun p hp => ⟨fun hc => hnotfile (hp.trans hc), fun hc => hnotdata (hp.trans hc)⟩
    have hroot : trashDir <+: trashIndexFile := List.prefix_append _ _
    have hfile : ¬ trashIndexFile <+: skipCurDir destRel ++ r := fun hc =>
      (List.prefix_or_prefix_of_prefix hc hpre).elim hnotbelow hnotfile
    have htmp' : ¬ trashIndexTmp <+: skipCurDir destRel ++ r := by
      intro hc
      rcases List.prefix_or_prefix_of_prefix hc hpre with hc | hc
      · exact htmpOut hc
      · rcases List.prefix_concat_iff.mp hc with heq | hc
        · exact htmp heq
        · exact hnotfile (hc.trans hroot)
    rw [get_saveIndex hsave hfile htmp', if_neg fun hc => (habove _ hpre).1 (hc.2.1.trans hroot),
      get_restoreData hdata he, if_pos hpre, List.drop_left]
    by_cases hown : trashIdDir id <+: skipCurDir destRel
    · rw [if_pos (hown.trans hpre), if_pos (.inl hown)]
    · have hownOut : ¬ trashIdDir id <+: skipCurDir destRel ++ r := by
        intro hc
        rcases List.prefix_or_prefix_of_prefix hc hpre with hc | hc
        · exact hown hc
        · exact hnotdata (hc.trans (hid ▸ hmade.below))
      rw [if_neg hownOut, if_neg (by simp [hown, htmp])]

/-! ## Purges -/

variable {f : PurgeFaults}

/-- The directory of an entry lies neither on the way to the index nor at one of its files. -/
theorem Made.apart {e : TrashEntry} (he : Made e) :
    ¬ trashIdDir e.id <+: trashIndexFile ∧ ¬ trashIdDir e.id <+: trashIndexTmp ∧
      ∀ q, q <+: trashDir → ¬ trashIdDir e.id <+: q := by
  refine ⟨fun hc => (he.not_index hc).1 (List.prefix_refl _),
    fun hc => (he.not_index hc).2 (List.prefix_refl _), fun q hq hc => ?_⟩
  have hlen := (hc.trans hq).length_le
  rw [trashIdDir, List.length_append, List.length_singleton] at hlen
  omega

/-- Removing directories of entries changes nothing outside of them. -/
theorem get_removeDirs {ids : List String} {q : PathBuf}
    (hq : ∀ id ∈ ids, ¬ trashIdDir id <+: q) : (removeDirs f t ids).get q = t.get q := by
  unfold removeDirs
  induction ids generalizing t with
  | nil => rfl
  | cons id ids ih =>
    rw [List.foldl_cons, ih fun id' hid' => hq id' (List.mem_cons_of_mem _ hid')]
    unfold removeDir
    split
    · rfl
    · rw [Option.getD_some, get_removeTree, if_neg (hq id (List.mem_cons_self))]

/-- The index can be written. -/
def PurgeFaults.saves (f : PurgeFaults) (t : TrashTree) : Bool :=
  !f.save && (saveIndex t 0 []).isSome

theorem loadIndex_congr (h : t'.get trashIndexFile = t.get trashIndexFile) :
    loadIndex t' = loadIndex t := by
  rw [loadIndex, loadIndex, FileTree.read, FileTree.read, h]

theorem loadIndex_saveIndexOr (now : Nat) (index : List TrashEntry) :
    loadIndex (saveIndexOr f t now index) = if f.saves t then index else loadIndex t := by
  have hsome : (saveIndex t now index).isSome = (saveIndex t 0 []).isSome := by
    rw [Bool.eq_iff_iff, saveIndex_isSome_iff, saveIndex_isSome_iff]
  rw [saveIndexOr, PurgeFaults.saves, ← hsome]
  cases f.save with
  | true => simp
  | false =>
    cases hsave : saveIndex t now index with
    | none => simp
    | some t' => simp [(saveIndex_spec hsave).1]

/-- The paths that saving the index depends on: its two files and the way to them. -/
def IndexPath (q : PathBuf) : Prop := q = trashIndexFile ∨ q = trashIndexTmp ∨ q <+: trashDir

theorem Made.not_indexPath {e : TrashEntry} (he : Made e) {q : PathBuf} (hq : IndexPath q) :
    ¬ trashIdDir e.id <+: q := by
  rcases hq with rfl | rfl | hq
  · exact he.apart.1
  · exact he.apart.2.1
  · exact he.apart.2.2 q hq

theorem isSome_saveIndex_congr {now' : Nat} {index index' : List TrashEntry}
    (h : ∀ q, IndexPath q → t'.get q = t.get q) :
    (saveIndex t' now' index').isSome = (saveIndex t now index).isSome := by
  rw [Bool.eq_iff_iff, saveIndex_isSome_iff, saveIndex_isSome_iff, isDir, isDir, isDir, isDir,
    h _ (.inl rfl), h _ (.inr (.inl rfl))]
  refine and_congr_left fun _ => forall_congr' fun q => forall_congr' fun hq => ?_
  rw [isFile, isFile, h q (.inr (.inr hq))]

/-- Removing directories of entries changes neither the index nor whether it can be written. -/
theorem removeDirs_index (ids : List String) (hmade : ∀ id ∈ ids, ∃ e, Made e ∧ e.id = id) :
    loadIndex (removeDirs f t ids) = loadIndex t ∧ f.saves (removeDirs f t ids) = f.saves t := by
  have hget : ∀ q, IndexPath q → (removeDirs f t ids).get q = t.get q := by
    intro q hq
    refine get_removeDirs fun id hid => ?_
    obtain ⟨e, he, rfl⟩ := hmade id hid
    exact he.not_indexPath hq
  refine ⟨loadIndex_congr (hget _ (.inl rfl)), ?_⟩
  rw [PurgeFaults.saves, PurgeFaults.saves, isSome_saveIndex_congr hget]

end TrashManager

end ByteHive
