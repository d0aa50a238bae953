import ByteHive.Spec.StateDir
import ByteHive.Spec.TrashData

/-!
# Restoring what was moved to the trash

Whatever is done with other entries in between, a restore puts back the subtree that was moved, as
long as no call names a path in the internal folder. The trash lies in the root like everything
else: a restore of another entry to a path below `.bh_filesync/trash` changes the data that waits
there.
-/

namespace ByteHive

namespace TrashManager

open FileTree

variable {t t' : TrashTree} {now : Nat} {e : TrashEntry}

/-! ## What leaves the data of an entry alone -/

theorem trashIdDir_below {id id' : String} {q : PathBuf} (h : trashIdDir id <+: q)
    (h' : trashIdDir id' <+: q) : id = id' := by
  obtain ⟨r, rfl⟩ := h'
  have heq := entry_eq_of_below h
  cases heq
  rfl

/-- A path outside the internal folder is not above a path of the trash. -/
theorem not_prefix_trash {p q : PathBuf} (hp : ApartFromState p) (hq : stateDir <+: q) :
    ¬ p <+: q := fun hpq => (hp.of_below hpq).2 hq

theorem stateDir_trashIdDir {id : String} {q : PathBuf} (h : trashIdDir id <+: q) :
    stateDir <+: q := by
  have hstate : stateDir <+: trashIdDir id := ⟨PathBuf.ofNames ["trash"] ++ [.normal id], rfl⟩
  exact hstate.trans h

theorem sameBelow_saveIndex {index : List TrashEntry} (h : saveIndex t now index = some t')
    (he : Made e) : SameBelow (trashIdDir e.id) t t' := by
  intro q hq
  obtain ⟨hfile, htmp⟩ := he.not_index hq
  rw [get_saveIndex h hfile htmp, if_neg fun hc => he.apart.2.2 q hc.2.1 hq]

theorem sameBelow_moveData {id : String} {rel : PathBuf} {deletedBy : String} {e' : TrashEntry}
    (h : moveData t now id rel deletedBy = some (t', e')) (hmade : Made e')
    (hrel : ApartFromState rel) (hne : e.id ≠ e'.id) : SameBelow (trashIdDir e.id) t t' := by
  intro q hq
  have hother : ∀ p, p <+: dataPath e' → ¬ trashIdDir e.id <+: p := fun p hp hc =>
    hne (trashIdDir_below (hc.trans hp) hmade.below)
  rw [get_moveData h, if_neg, if_neg (not_prefix_trash hrel (stateDir_trashIdDir hq)), if_neg]
  · exact fun hc => hother q (hc.2.1.trans (List.dropLast_prefix _)) hq
  · exact fun hc => hne (trashIdDir_below hq (hmade.below.trans hc))

theorem sameBelow_restoreData {index : List TrashEntry} {id : String}
    {destOverride : Option PathBuf} {destRel : PathBuf} {e' : TrashEntry}
    (h : restoreData t now index id destOverride = some (.ok (t', destRel)))
    (he' : index.find? (·.id = id) = some e') (hmade : Made e')
    (hdest : ApartFromState (skipCurDir destRel)) (hne : e.id ≠ id) :
    SameBelow (trashIdDir e.id) t t' := by
  intro q hq
  have hid : e'.id = id := by simpa using List.find?_some he'
  have hstate := stateDir_trashIdDir hq
  rw [get_restoreData h he', if_neg fun hc => hne (trashIdDir_below hq hc),
    if_neg (not_prefix_trash hdest hstate), if_neg, if_neg]
  · exact fun hc => hdest.2 (hstate.trans (hc.2.1.trans (List.dropLast_prefix _)))
  · exact fun hc => hne (hid ▸ trashIdDir_below hq (hmade.below.trans hc))

/-- A restore to a place outside the internal folder leaves the index and the way to it alone. -/
theorem get_restoreData_index {index : List TrashEntry} {id : String}
    {destOverride : Option PathBuf} {destRel : PathBuf} {e' : TrashEntry}
    (h : restoreData t now index id destOverride = some (.ok (t', destRel)))
    (he' : index.find? (·.id = id) = some e') (hmade : Made e')
    (hdest : ApartFromState (skipCurDir destRel)) {q : PathBuf} (hq : IndexPath q) :
    t'.get q = t.get q := by
  have hid : e'.id = id := by simpa using List.find?_some he'
  have hidDir := hmade.not_indexPath hq
  have hstate : q = [] ∨ stateDir <+: q := by
    rcases hq with rfl | rfl | hq
    · exact .inr (by decide)
    · exact .inr (by decide)
    · cases q with
      | nil => exact .inl rfl
      | cons c q =>
        obtain ⟨rfl, -⟩ := List.cons_prefix_cons.mp hq
        exact .inr (List.cons_prefix_cons.mpr ⟨rfl, List.nil_prefix⟩)
  have hdestOut : ¬ skipCurDir destRel <+: q := by
    rcases hstate with rfl | hstate
    · exact fun hc => hdest.1 (List.prefix_nil.mp hc)
    · exact not_prefix_trash hdest hstate
  rw [get_restoreData h he', if_neg (hid ▸ hidDir), if_neg hdestOut,
    if_neg fun hc => hidDir (hmade.below.trans hc), if_neg]
  intro hc
  exact hdest.2 ((hstate.resolve_left hc.1).trans (hc.2.1.trans (List.dropLast_prefix _)))

theorem sameBelow_removeDirs {f : PurgeFaults} {ids : List String} (hne : ∀ id ∈ ids, e.id ≠ id) :
    SameBelow (trashIdDir e.id) t (removeDirs f t ids) := by
  intro q hq
  exact get_removeDirs fun id hid hc => hne id hid (trashIdDir_below hq hc)

/-! ## A trash in order -/

/-- Each entry is listed once, was made by `move_to_trash` for a path outside the internal folder,
    and has its data; and the index can be written. -/
structure InOrder (t : TrashTree) : Prop where
  made : ∀ e ∈ loadIndex t, Made e
  safe : ∀ e ∈ loadIndex t, safeRelative e.originalPath = true
  apart : ∀ e ∈ loadIndex t, ApartFromState e.originalPath
  nodup : ((loadIndex t).map (·.id)).Nodup
  data : ∀ e ∈ loadIndex t, ∃ n, t.get (dataPath e) = some n
  saves : (saveIndex t 0 []).isSome = true

/-- Without an internal folder there is nothing to be in order. -/
theorem InOrder.of_no_state (h : t.pathExists stateDir = false) : InOrder t := by
  have hnone : ∀ q, stateDir <+: q → t.get q = none := by
    intro q hq
    cases hn : t.get q with
    | none => rfl
    | some n => exact absurd hq (not_prefix_of_get hn h)
  have hindex : loadIndex t = [] := by
    rw [loadIndex, FileTree.read, hnone _ (by decide)]
  have hsaves : (saveIndex t 0 []).isSome = true := by
    rw [saveIndex_isSome_iff, isDir, isDir, hnone _ (by decide), hnone _ (by decide)]
    refine ⟨fun q hq => ?_, by decide, by decide⟩
    cases q with
    | nil => simp [isFile]
    | cons c q =>
      obtain ⟨rfl, -⟩ := List.cons_prefix_cons.mp hq
      rw [isFile, hnone _ (List.cons_prefix_cons.mpr ⟨rfl, List.nil_prefix⟩)]
      rfl
  have hall : ∀ {P : TrashEntry → Prop}, ∀ e ∈ loadIndex t, P e := by
    intro P e he
    rw [hindex] at he
    cases he
  exact ⟨hall, hall, hall, by simp [hindex], hall, hsaves⟩

theorem isSome_saveIndex_again {index index' : List TrashEntry} {now' : Nat}
    (h : saveIndex t now index = some t') : (saveIndex t' now' index').isSome = true := by
  rw [saveIndex_isSome_iff]
  have hspec := (saveIndex_spec h).2
  have hbefore := (saveIndex_isSome_iff.mp (by rw [h]; rfl : (saveIndex t now index).isSome = true))
  have htmp : t'.isDir trashIndexTmp = false := by
    rw [isDir, get_saveIndex_tmp h (List.prefix_refl _)]
    decide
  have hfile : t'.isDir trashIndexFile = false := by
    by_contra hdir
    rw [Bool.not_eq_false] at hdir
    have hdir' := hspec (.normal "index.json") hdir
    rw [show trashDir ++ [.normal "index.json"] = trashIndexFile from rfl, hbefore.2.2] at hdir'
    cases hdir'
  refine ⟨fun q hq => ?_, htmp, hfile⟩
  have hout : ∀ name : String, ¬ trashDir ++ [.normal name] <+: q := fun name hc => by
    have hlen := (hc.trans hq).length_le
    rw [List.length_append, List.length_singleton] at hlen
    omega
  have hold := hbefore.1 q hq
  rw [isFile, get_saveIndex h (hout _) (hout _)]
  split
  · rfl
  · exact hold

theorem InOrder.idDir (ht : InOrder t) (he : e ∈ loadIndex t) : t.isDir (trashIdDir e.id) = true := by
  obtain ⟨n, hn⟩ := ht.data e he
  refine t.isDir_of_prefix hn (ht.made e he).below fun heq => ?_
  rw [(ht.made e he).dataPath_eq, List.self_eq_append_right] at heq
  exact (ht.apart e he).1 heq

theorem InOrder.not_file (ht : InOrder t) (he : e ∈ loadIndex t) :
    t.isFile (trashIdDir e.id) = false := by
  have hdir := ht.idDir he
  rw [isDir, Bool.or_eq_true, decide_eq_true_eq] at hdir
  obtain ⟨d, hd, hdir⟩ := (Option.any_eq_true _ _).mp (hdir.resolve_left (by simp [trashIdDir]))
  rw [isFile, hd, Option.any_some, hdir]
  rfl

/-- A new id is the id of no entry. -/
theorem InOrder.id_ne (ht : InOrder t) (he : e ∈ loadIndex t) {id : String}
    (hfresh : t.get (trashIdDir id) = none) : e.id ≠ id := by
  rintro rfl
  have hdir := ht.idDir he
  rw [isDir, hfresh] at hdir
  exact absurd hdir (by simp [trashIdDir])

theorem InOrder.of_kept (ht : InOrder t) (hsub : (loadIndex t').Sublist (loadIndex t))
    (hkeep : ∀ e ∈ loadIndex t', SameBelow (trashIdDir e.id) t t')
    (hsaves : (saveIndex t' 0 []).isSome = true) : InOrder t' where
  made e he := ht.made e (hsub.subset he)
  safe e he := ht.safe e (hsub.subset he)
  apart e he := ht.apart e (hsub.subset he)
  nodup := ht.nodup.sublist (hsub.map _)
  data e he := by
    rw [hkeep e he _ (ht.made e (hsub.subset he)).below]
    exact ht.data e (hsub.subset he)
  saves := hsaves

theorem InOrder.find? (ht : InOrder t) (he : e ∈ loadIndex t) :
    (loadIndex t).find? (·.id = e.id) = some e := by
  cases hfind : (loadIndex t).find? (·.id = e.id) with
  | none => exact absurd (List.find?_eq_none.mp hfind e he) (by simp)
  | some e' =>
    have hid : e'.id = e.id := by simpa using List.find?_some hfind
    rw [List.inj_on_of_nodup_map ht.nodup (List.mem_of_find?_eq_some hfind) he hid]

/-! ## What one call does -/

theorem skipCurDir_of_safe {p : PathBuf} (hp : safeRelative p = true) : skipCurDir p = p := by
  rw [skipCurDir, List.filter_eq_self]
  intro c hc
  obtain ⟨name, rfl⟩ := safeRelative_iff.mp hp c hc
  rfl

theorem moveToTrash_spec {ns seq : Nat} {rel : PathBuf} {deletedBy : String}
    (hrel : ApartFromState rel) (hexists : t.pathExists rel = true)
    (h : moveToTrash t now (trashId ns seq) rel deletedBy = some t') :
    ∃ e, Made e ∧ e.id = trashId ns seq ∧ e.originalPath = rel ∧
      loadIndex t' = loadIndex t ++ [e] ∧
      (∀ r, t'.get (dataPath e ++ r) = t.get (rel ++ r)) ∧
      (∀ e', Made e' → e'.id ≠ e.id → SameBelow (trashIdDir e'.id) t t') ∧
      (saveIndex t' 0 []).isSome = true := by
  unfold moveToTrash at h
  rw [hexists] at h
  obtain ⟨⟨t₁, e⟩, hmove, hsave⟩ := Option.bind_eq_some_iff.mp h
  have hmade := made_moveData hmove
  have hentry : e.id = trashId ns seq ∧ e.originalPath = rel := by
    simp only [moveData, bind, Option.bind_eq_some_iff, pure, Option.some.injEq,
      Prod.mk.injEq] at hmove
    obtain ⟨_, -, _, -, -, rfl⟩ := hmove
    exact ⟨rfl, rfl⟩
  -- The index is read after the move, which leaves it alone.
  have hindex : loadIndex t₁ = loadIndex t := by
    apply loadIndex_congr
    have hfile : trashIndexFile <+: dataPath e → False := (hmade.not_index hmade.below).1
    rw [get_moveData hmove, if_neg, if_neg (not_prefix_trash hrel (by decide)), if_neg]
    · exact fun hc => hfile (hc.2.1.trans (List.dropLast_prefix _))
    · exact fun hc => hmade.apart.1 (hmade.below.trans hc)
  refine ⟨e, hmade, hentry.1, hentry.2, ?_, ?_, ?_, isSome_saveIndex_again hsave⟩
  · rw [← hindex]
    exact (saveIndex_spec hsave).1
  · intro r
    rw [sameBelow_saveIndex hsave hmade _ (hmade.below.trans (List.prefix_append _ r)),
      get_moveData hmove, if_pos (List.prefix_append _ r), List.drop_left]
  · intro e' hmade' hne
    exact (sameBelow_moveData hmove hmade hrel hne).trans (sameBelow_saveIndex hsave hmade')

theorem restoreEntry_spec (ht : InOrder t) {id : String} {destOverride : Option PathBuf}
    {destRel : PathBuf} (hdest : ∀ o, destOverride = some o → OutsideState (skipCurDir o))
    (h : restoreEntryWithDest t now id destOverride = some (.ok destRel, t')) :
    loadIndex t' = (loadIndex t).eraseP (·.id = id) ∧
      (∀ e, Made e → e.id ≠ id → SameBelow (trashIdDir e.id) t t') ∧
      (saveIndex t' 0 []).isSome = true := by
  obtain ⟨t₁, hdata, hsave⟩ := restoreEntry_ok h
  obtain ⟨e, hfind, he, -, hdestRel, -, hthere, -⟩ := restoreData_ok hdata
  have hapart : ApartFromState (skipCurDir destRel) := by
    constructor
    · intro hnil
      rw [hnil] at hthere
      cases hthere
    · cases destOverride with
      | some o => exact hdestRel ▸ hdest o rfl
      | none =>
        have heq : destRel = e.originalPath := hdestRel
        rw [heq, skipCurDir_of_safe (ht.safe e he)]
        exact (ht.apart e he).2
  refine ⟨(saveIndex_spec hsave).1, fun e' hmade' hne => ?_, isSome_saveIndex_again hsave⟩
  exact (sameBelow_restoreData hdata hfind (ht.made e he) hapart hne).trans
    (sameBelow_saveIndex hsave hmade')

/-- Where the trash is in order, a purge of listed entries removes them, and touches no other. -/
theorem saveIndexOr_removeDirs (ht : InOrder t) (now : Nat) {ids : List String}
    (hids : ∀ id ∈ ids, ∃ e ∈ loadIndex t, e.id = id) (index : List TrashEntry)
    (h : saveIndexOr .none (removeDirs .none t ids) now index = t') :
    loadIndex t' = index ∧ (∀ e, Made e → e.id ∉ ids → SameBelow (trashIdDir e.id) t t') ∧
      (saveIndex t' 0 []).isSome = true := by
  have hmade : ∀ id ∈ ids, ∃ e, Made e ∧ e.id = id := by
    intro id hid
    obtain ⟨e, he, rfl⟩ := hids id hid
    exact ⟨e, ht.made e he, rfl⟩
  have hsaves : PurgeFaults.none.saves (removeDirs .none t ids) = true := by
    rw [(removeDirs_index ids hmade).2, PurgeFaults.saves, ht.saves]
    rfl
  have hsome : (saveIndex (removeDirs .none t ids) now index).isSome = true := by
    rw [PurgeFaults.saves, Bool.and_eq_true] at hsaves
    exact (isSome_saveIndex_congr fun _ _ => rfl).trans hsaves.2
  obtain ⟨t₂, hsave⟩ := Option.isSome_iff_exists.mp hsome
  have heq : t₂ = t' := by
    rw [← h, saveIndexOr, hsave]
    rfl
  subst heq
  refine ⟨(saveIndex_spec hsave).1, fun e he hid => ?_, isSome_saveIndex_again hsave⟩
  exact (sameBelow_removeDirs fun id hmem heq => hid (heq ▸ hmem)).trans (sameBelow_saveIndex hsave he)

theorem sublist_apply {change : IndexChange} (hpush : ∀ e, change ≠ .push e)
    (index : List TrashEntry) : (change.apply index).Sublist index := by
  cases change with
  | push e => exact absurd rfl (hpush e)
  | remove id => exact List.eraseP_sublist
  | retain cutoff => exact List.filter_sublist
  | clear => exact List.nil_sublist _

/-- A change of the index that comes with the removal of the directories it is about: the trash
    stays in order, and the other entries keep their data. -/
theorem InOrder.change (ht : InOrder t) (change : IndexChange) (hpush : ∀ e, change ≠ .push e)
    (h : loadIndex t' = change.apply (loadIndex t) ∧
      (∀ e, Made e → e.id ∉ change.removed (loadIndex t) → SameBelow (trashIdDir e.id) t t') ∧
      (saveIndex t' 0 []).isSome = true) :
    InOrder t' ∧ ∀ e ∈ loadIndex t, e.id ∉ change.removed (loadIndex t) →
      e ∈ loadIndex t' ∧ SameBelow (trashIdDir e.id) t t' := by
  obtain ⟨hload, hsame, hsaves⟩ := h
  have hmem : ∀ e, e ∈ loadIndex t' ↔ e ∈ loadIndex t ∧ e.id ∉ change.removed (loadIndex t) := by
    intro e
    rw [hload, IndexChange.mem_apply ht.nodup hpush]
  constructor
  · refine ht.of_kept (hload ▸ sublist_apply hpush _) (fun e he => ?_) hsaves
    exact hsame e (ht.made e ((hmem e).mp he).1) ((hmem e).mp he).2
  · intro e he hout
    exact ⟨(hmem e).mpr ⟨he, hout⟩, hsame e (ht.made e he) hout⟩

theorem restoreDest_default {p : PathBuf} (he : e.originalPath = p) (hnil : p ≠ [])
    (hsafe : safeRelative p = true) : restoreDest e none = .ok p := by
  have hnormal := safeRelative_iff.mp hsafe
  have hvalid : validateRel p = .ok () := by
    rw [validateRel, if_neg hnil, if_neg]
    intro hbad
    rcases hbad with hbad | hbad
    · obtain ⟨name, hname⟩ := hnormal _ hbad
      cases hname
    · obtain ⟨name, hname⟩ := hnormal _ hbad
      cases hname
  simp only [restoreDest, he, hvalid]

/-- Where nothing is at the original path and no file on the way to it, an entry can be restored,
    and its data is then at the original path. -/
theorem restoreEntry_succeeds (ht : InOrder t) (he : e ∈ loadIndex t)
    (hfree : t.pathExists e.originalPath = false)
    (hway : ∀ q, q <+: e.originalPath → t.isFile q = false) (now : Nat) :
    ∃ t', restoreEntryWithDest t now e.id none = some (.ok e.originalPath, t') ∧
      ∀ r, t'.get (e.originalPath ++ r) = t.get (dataPath e ++ r) := by
  have hmade := ht.made e he
  have hapart := ht.apart e he
  have hskip := skipCurDir_of_safe (ht.safe e he)
  have hfind := ht.find? he
  obtain ⟨n, hn⟩ := ht.data e he
  have hdataExists : t.pathExists (trashDir ++ e.trashRelPath) = true := by
    rw [pathExists, show t.get (trashDir ++ e.trashRelPath) = some n from hn]
    simp
  have hstate : stateDir <+: dataPath e := stateDir_trashIdDir hmade.below
  have hne : dataPath e ≠ e.originalPath := fun heq => hapart.2 (heq ▸ hstate)
  -- The parents are made.
  obtain ⟨t₁, h₁⟩ := Option.isSome_iff_exists.mp ((createDirAll_isSome_iff now).mpr fun q hq =>
    hway q (hq.trans (List.dropLast_prefix _)))
  have hfreeGet : t.get e.originalPath = none := by
    rw [pathExists, Bool.or_eq_false_iff] at hfree
    simpa using hfree.2
  have hcan : t₁.CanMove (dataPath e) e.originalPath := by
    have hsource : (t₁.get (dataPath e)).isSome = true := by
      rw [get_createDirAll h₁, if_neg fun hc => absurd hc.2.2 (by rw [hn]; simp), hn]
      rfl
    have hnone : t₁.get e.originalPath = none := by
      rw [get_createDirAll h₁, if_neg fun hc => not_prefix_dropLast hapart.1 hc.2.1, hfreeGet]
    have hreplace : t₁.replaceable (dataPath e) e.originalPath = true := by
      rw [replaceable, hnone]
    exact ⟨hsource, hapart.1, fun hc => hapart.2 (hstate.trans hc),
      isDir_of_createDirAll h₁ (List.prefix_refl _), hreplace⟩
  obtain ⟨t₂, h₂⟩ := Option.isSome_iff_exists.mp ((rename_eq_some_iff hne).mpr hcan)
  have hget₂ := get_moved h₁ h₂ hne
  -- The directory of the entry is still one.
  have hidDir : t₂.isFile (trashIdDir e.id) = false := by
    have hbelow : ¬ dataPath e <+: trashIdDir e.id := by
      intro hc
      have hlen := hc.length_le
      have hpos := List.length_pos_of_ne_nil hapart.1
      rw [hmade.dataPath_eq, List.length_append] at hlen
      omega
    rw [isFile, hget₂, if_neg (not_prefix_trash hapart (stateDir_trashIdDir (List.prefix_refl _))),
      if_neg hbelow]
    split
    · rfl
    · exact ht.not_file he
  have h₃ : removeData t₂ [e.id] = some (t₂.removeTree (trashIdDir e.id)) := by
    simp [removeData, hidDir]
  have hdata : restoreData t now (loadIndex t) e.id none =
      some (.ok (t₂.removeTree (trashIdDir e.id), e.originalPath)) := by
    have h₂' : t₁.rename (trashDir ++ e.trashRelPath) e.originalPath = some t₂ := h₂
    simp [restoreData, hfind, restoreDest_default rfl hapart.1 (ht.safe e he), hdataExists, hskip,
      hfree, h₁, h₂', h₃]
  -- The index can still be written.
  have hsome : (saveIndex (t₂.removeTree (trashIdDir e.id)) now
      ((IndexChange.remove e.id).apply (loadIndex t))).isSome = true := by
    exact (isSome_saveIndex_congr fun q hq =>
      get_restoreData_index hdata hfind hmade (hskip.symm ▸ hapart) hq).trans ht.saves
  obtain ⟨t₃, hsave⟩ := Option.isSome_iff_exists.mp hsome
  have hok : restoreEntryWithDest t now e.id none = some (.ok e.originalPath, t₃) := by
    rw [restoreEntryWithDest, hdata]
    simp only [hsave, Option.map_some]
  refine ⟨t₃, hok, fun r => ?_⟩
  have hget := get_restoreEntry hok hfind hmade r
  rw [hskip, if_neg] at hget
  · exact hget
  · intro hc
    rcases hc with hc | hc
    · exact hapart.2 (stateDir_trashIdDir hc)
    · exact hapart.2 (hc ▸ by decide)

/-- The id is unknown, or the destination is unsafe or taken. -/
def Refused (t : TrashTree) (id : String) (destOverride : Option PathBuf) : Prop :=
  ∀ e, (loadIndex t).find? (·.id = id) = some e →
    (∃ err, restoreDest e destOverride = .error err) ∨
      ∃ dest, restoreDest e destOverride = .ok dest ∧ t.pathExists (skipCurDir dest) = true

theorem restoreEntry_refused {id : String} {destOverride : Option PathBuf}
    (h : Refused t id destOverride) (now : Nat) :
    ∃ err, restoreEntryWithDest t now id destOverride = some (.error err, t) := by
  have hdata : ∃ err, restoreData t now (loadIndex t) id destOverride = some (.error err) := by
    cases hfind : (loadIndex t).find? (·.id = id) with
    | none => exact ⟨_, by simp only [restoreData, hfind]; rfl⟩
    | some e =>
      rcases h e hfind with herr | hdest
      · obtain ⟨err, herr⟩ := herr
        exact ⟨err, by simp only [restoreData, hfind, herr]⟩
      · obtain ⟨dest, hdest, hthere⟩ := hdest
        cases hdata : t.pathExists (trashDir ++ e.trashRelPath) with
        | false => exact ⟨_, by simp only [restoreData, hfind, hdest, hdata]; rfl⟩
        | true => exact ⟨_, by simp only [restoreData, hfind, hdest, hdata, hthere]; rfl⟩
  obtain ⟨err, herr⟩ := hdata
  exact ⟨err, by simp only [restoreEntryWithDest, herr]⟩

end TrashManager

/-! ## Runs of one manager -/

/-- A call of a `TrashManager`, with the clock and the id it reads. -/
inductive TrashAction where
  | moveToTrash (now ns seq : Nat) (rel : PathBuf) (deletedBy : String)
  | restoreEntryWithDest (now : Nat) (id : String) (destOverride : Option PathBuf)
  | purgeEntry (now : Nat) (id : String)
  | purgeExpired (checks : Bool) (nowMs : Nat)
  | empty (now : Nat)

namespace TrashAction

open TrashManager FileTree

/-- The tree after the call of a manager with these `expiry_days`. A call in which a disk
    operation fails is not possible. -/
def run (days : Option Nat) (t : TrashTree) : TrashAction → Option TrashTree
  | .moveToTrash now ns seq rel deletedBy =>
    TrashManager.moveToTrash t now (trashId ns seq) rel deletedBy
  | .restoreEntryWithDest now id destOverride =>
    (TrashManager.restoreEntryWithDest t now id destOverride).map (·.2)
  | .purgeEntry now id => some (TrashManager.purgeEntry .none t now id).2
  | .purgeExpired checks nowMs => (TrashManager.purgeExpired checks .none t nowMs days).map (·.2)
  | .empty now => some (TrashManager.empty .none t now).2

/-- The call names no path in the internal folder, and its id is new. -/
def Proper (t : TrashTree) : TrashAction → Prop
  | .moveToTrash _ ns seq rel _ =>
    safeRelative rel = true ∧ ApartFromState rel ∧ t.get (trashIdDir (trashId ns seq)) = none
  | .restoreEntryWithDest _ _ destOverride =>
    ∀ o, destOverride = some o → OutsideState (skipCurDir o)
  | _ => True

/-- The call is about other entries than `id`. -/
def Spares (days : Option Nat) (id : String) (t : TrashTree) : TrashAction → Prop
  | .moveToTrash .. => True
  | .restoreEntryWithDest _ id' _ => id' ≠ id
  | .purgeEntry _ id' => id' ≠ id
  | .purgeExpired checks nowMs =>
    ∀ d cutoff e, days = some d → d ≠ 0 → expiryCutoffMs checks d nowMs = some cutoff →
      e ∈ loadIndex t → e.id = id → cutoff ≤ e.deletedAtMs
  | .empty _ => False

variable {days : Option Nat} {t t' : TrashTree}

/-- What a call keeps: the order of the trash, and the entries that it is not about. -/
def Keeps (days : Option Nat) (a : TrashAction) (t t' : TrashTree) : Prop :=
  InOrder t' ∧ ∀ e ∈ loadIndex t, a.Spares days e.id t →
    e ∈ loadIndex t' ∧ SameBelow (trashIdDir e.id) t t'

theorem Keeps.refl (ht : InOrder t) (a : TrashAction) : Keeps days a t t :=
  ⟨ht, fun _ he _ => ⟨he, .refl _ _⟩⟩

theorem keeps_moveToTrash (ht : InOrder t) {now ns seq : Nat} {rel : PathBuf} {deletedBy : String}
    (hproper : (moveToTrash now ns seq rel deletedBy).Proper t)
    (h : (moveToTrash now ns seq rel deletedBy).run days t = some t') :
    Keeps days (moveToTrash now ns seq rel deletedBy) t t' := by
  obtain ⟨hsafe, hapart, hfresh⟩ := hproper
  cases hexists : t.pathExists rel with
  | false =>
    have hsame : some t = some t' := by
      rw [← h, run, TrashManager.moveToTrash, hexists]
      rfl
    cases hsame
    exact .refl ht _
  | true =>
    obtain ⟨e, hmade, hid, hpath, hload, hdata, hsame, hsaves⟩ :=
      moveToTrash_spec hapart hexists h
    have hne : ∀ e' ∈ loadIndex t, e'.id ≠ e.id := fun e' he' => hid ▸ ht.id_ne he' hfresh
    have hall : ∀ e', e' ∈ loadIndex t' ↔ e' ∈ loadIndex t ∨ e' = e := by
      intro e'
      rw [hload, List.mem_append, List.mem_singleton]
    have hcase : ∀ {P : TrashEntry → Prop}, (∀ e' ∈ loadIndex t, P e') → P e →
        ∀ e' ∈ loadIndex t', P e' := by
      intro P hold hnew e' he'
      rcases (hall e').mp he' with he' | rfl
      · exact hold e' he'
      · exact hnew
    constructor
    · have hnodup : ((loadIndex t').map (·.id)).Nodup := by
        rw [hload, List.map_append, List.nodup_append]
        refine ⟨ht.nodup, by simp, fun id hid' id' hnew heq => ?_⟩
        obtain ⟨e', he', rfl⟩ := List.mem_map.mp hid'
        rw [List.map_singleton, List.mem_singleton] at hnew
        exact hne e' he' (heq.trans hnew)
      have hkept : ∀ e' ∈ loadIndex t, ∃ n, t'.get (dataPath e') = some n := by
        intro e' he'
        rw [hsame e' (ht.made e' he') (hne e' he') _ (ht.made e' he').below]
        exact ht.data e' he'
      have hmoved : ∃ n, t'.get (dataPath e) = some n := by
        have hnode := hdata []
        rw [List.append_nil, List.append_nil] at hnode
        rw [pathExists, decide_eq_false hapart.1, Bool.false_or] at hexists
        rw [hnode]
        exact Option.isSome_iff_exists.mp hexists
      exact ⟨hcase ht.made hmade, hcase ht.safe (hpath ▸ hsafe), hcase ht.apart (hpath ▸ hapart),
        hnodup, hcase hkept hmoved, hsaves⟩
    · intro e' he' _
      exact ⟨(hall e').mpr (.inl he'), hsame e' (ht.made e' he') (hne e' he')⟩

theorem keeps_restore (ht : InOrder t) {now : Nat} {id : String} {destOverride : Option PathBuf}
    (hproper : (restoreEntryWithDest now id destOverride).Proper t)
    (h : (restoreEntryWithDest now id destOverride).run days t = some t') :
    Keeps days (restoreEntryWithDest now id destOverride) t t' := by
  have hmap : (TrashManager.restoreEntryWithDest t now id destOverride).map (·.2) = some t' := h
  obtain ⟨⟨res, t''⟩, hres, rfl⟩ := Option.map_eq_some_iff.mp hmap
  cases res with
  | error err =>
    obtain rfl := restoreEntry_error hres
    exact .refl ht _
  | ok destRel =>
    obtain ⟨hload, hsame, hsaves⟩ := restoreEntry_spec ht hproper hres
    obtain ⟨horder, hkeep⟩ := ht.change (.remove id) (by simp)
      ⟨hload, fun e he hid => hsame e he (by simpa [IndexChange.removed] using hid), hsaves⟩
    refine ⟨horder, fun e he hspared => hkeep e he ?_⟩
    have hne : id ≠ e.id := hspared
    simpa [IndexChange.removed] using Ne.symm hne

theorem keeps_purgeEntry (ht : InOrder t) {now : Nat} {id : String}
    (h : (purgeEntry now id).run days t = some t') : Keeps days (purgeEntry now id) t t' := by
  obtain rfl : (TrashManager.purgeEntry .none t now id).2 = t' := Option.some.inj h
  unfold TrashManager.purgeEntry
  cases hany : (loadIndex t).any (·.id = id) with
  | false => exact .refl ht _
  | true =>
    obtain ⟨e₀, he₀, hid₀⟩ := List.any_eq_true.mp hany
    obtain rfl : e₀.id = id := of_decide_eq_true hid₀
    have hfile := ht.not_file he₀
    have hremove : removeDir .none t e₀.id = some (removeDirs .none t [e₀.id]) := by
      simp [removeDirs, removeDir, PurgeFaults.none, hfile]
    simp only [if_true, hremove]
    obtain ⟨horder, hkeep⟩ := ht.change (.remove e₀.id) (by simp)
      (saveIndexOr_removeDirs ht now
        (fun id (hid : id ∈ [e₀.id]) => ⟨e₀, he₀, (List.mem_singleton.mp hid).symm⟩) _ rfl)
    refine ⟨horder, fun e he hspared => hkeep e he ?_⟩
    have hne : e₀.id ≠ e.id := hspared
    simpa [IndexChange.removed] using Ne.symm hne

theorem keeps_purgeExpired (ht : InOrder t) {checks : Bool} {nowMs : Nat}
    (h : (purgeExpired checks nowMs).run days t = some t') :
    Keeps days (purgeExpired checks nowMs) t t' := by
  have hmap : (TrashManager.purgeExpired checks .none t nowMs days).map (·.2) = some t' := h
  obtain ⟨⟨count, t''⟩, hrun, rfl⟩ := Option.map_eq_some_iff.mp hmap
  clear hmap
  unfold TrashManager.purgeExpired at hrun
  cases days with
  | none =>
    cases hrun
    exact .refl ht _
  | some d =>
    simp only at hrun
    by_cases hzero : d = 0
    · rw [if_pos hzero] at hrun
      cases hrun
      exact .refl ht _
    · rw [if_neg hzero] at hrun
      obtain ⟨cutoff, hcutoff, hrun⟩ := Option.bind_eq_some_iff.mp hrun
      by_cases hnone : expired cutoff (loadIndex t) = []
      · rw [if_pos hnone] at hrun
        cases hrun
        exact .refl ht _
      · rw [if_neg hnone] at hrun
        cases hrun
        have hlisted : ∀ id ∈ (expired cutoff (loadIndex t)).map (·.id),
            ∃ e ∈ loadIndex t, e.id = id := by
          intro id hid
          obtain ⟨e, he, rfl⟩ := List.mem_map.mp hid
          exact ⟨e, (List.mem_filter.mp he).1, rfl⟩
        obtain ⟨horder, hkeep⟩ := ht.change (.retain cutoff) (by simp)
          (saveIndexOr_removeDirs ht nowMs hlisted _ rfl)
        refine ⟨horder, fun e he hspared => hkeep e he fun hremoved => ?_⟩
        obtain ⟨e', he', hid⟩ := List.mem_map.mp hremoved
        obtain ⟨hmem, hlt⟩ := List.mem_filter.mp he'
        have hle := hspared d cutoff e' rfl hzero hcutoff hmem hid
        have hlt' := of_decide_eq_true hlt
        omega

theorem keeps_empty (ht : InOrder t) {now : Nat} (h : (empty now).run days t = some t') :
    Keeps days (empty now) t t' := by
  obtain rfl : (TrashManager.empty .none t now).2 = t' := Option.some.inj h
  have hlisted : ∀ id ∈ (loadIndex t).map (·.id), ∃ e ∈ loadIndex t, e.id = id := by
    intro id hid
    obtain ⟨e, he, rfl⟩ := List.mem_map.mp hid
    exact ⟨e, he, rfl⟩
  obtain ⟨horder, -⟩ := ht.change .clear (by simp)
    (saveIndexOr_removeDirs ht now hlisted _ rfl)
  exact ⟨horder, fun e he hspared => hspared.elim⟩

theorem run_keeps (ht : InOrder t) {a : TrashAction} (hproper : a.Proper t)
    (h : a.run days t = some t') : Keeps days a t t' := by
  cases a with
  | moveToTrash now ns seq rel deletedBy => exact keeps_moveToTrash ht hproper h
  | restoreEntryWithDest now id destOverride => exact keeps_restore ht hproper h
  | purgeEntry now id => exact keeps_purgeEntry ht h
  | purgeExpired checks nowMs => exact keeps_purgeExpired ht h
  | empty now => exact keeps_empty ht h

/-- After `p` was moved to the trash and any calls about other entries: every entry is listed once
    and has its data in its directory; `p` can be restored, with the subtree that was moved, where
    nothing is at `p` and no file on the way to it; and a restore that is refused changes nothing. -/
theorem restore_undoes_move {t t₁ t₂ : TrashTree} {now ns seq : Nat} {p : PathBuf}
    {deletedBy : String} {acts : List TrashAction} (ht : InOrder t) (hsafe : safeRelative p = true)
    (hp : ApartFromState p) (hexists : t.pathExists p = true)
    (hfresh : t.get (trashIdDir (trashId ns seq)) = none)
    (hmove : TrashManager.moveToTrash t now (trashId ns seq) p deletedBy = some t₁)
    (hproper : Run.StepsMeet (run days) (fun t a => a.Proper t) t₁ acts)
    (hspares : Run.StepsMeet (run days) (fun t a => a.Spares days (trashId ns seq) t) t₁ acts)
    (hrun : Run.runFrom (run days) t₁ acts = some t₂) :
    Run.Always (run days) (fun t => ((loadIndex t).map (·.id)).Nodup ∧ ∀ e ∈ loadIndex t,
        trashIdDir e.id <+: trashDir ++ e.trashRelPath ∧
          ∃ n, t.get (trashDir ++ e.trashRelPath) = some n) t₁ acts ∧
      (t₂.pathExists p = false → (∀ q, q <+: p → t₂.isFile q = false) → ∀ later,
        ∃ t₃, TrashManager.restoreEntryWithDest t₂ later (trashId ns seq) none = some (.ok p, t₃) ∧
          ∀ r, t₃.get (p ++ r) = t.get (p ++ r)) ∧
      ∀ later id destOverride,
        (Refused t₂ id destOverride → ∃ err,
          TrashManager.restoreEntryWithDest t₂ later id destOverride = some (.error err, t₂)) ∧
        ∀ err t₃, TrashManager.restoreEntryWithDest t₂ later id destOverride =
          some (.error err, t₃) → t₃ = t₂ := by
  have hstart : Keeps days (moveToTrash now ns seq p deletedBy) t t₁ :=
    keeps_moveToTrash ht ⟨hsafe, hp, hfresh⟩ hmove
  obtain ⟨e, hmade, hid, rfl, hload, hmoved, -, -⟩ := moveToTrash_spec hp hexists hmove
  -- The invariant of the run: the trash is in order, and the entry has what was moved.
  have halways : Run.Always (run days) (fun t' => InOrder t' ∧ e ∈ loadIndex t' ∧
      ∀ r, t'.get (dataPath e ++ r) = t.get (e.originalPath ++ r)) t₁ acts := by
    refine Run.always_of_stepsMeet (c := fun t a => a.Proper t ∧ a.Spares days e.id t) ?_
      ⟨hstart.1, by rw [hload]; simp, hmoved⟩ ?_ hrun
    · intro s a s' ⟨hs, he, hdata⟩ ⟨hprop, hspared⟩ hstep
      obtain ⟨hs', hkept⟩ := run_keeps hs hprop hstep
      obtain ⟨he', hsame⟩ := hkept e he hspared
      refine ⟨hs', he', fun r => ?_⟩
      rw [hsame _ (hmade.below.trans (List.prefix_append _ r)), hdata r]
    · intro bs a s' hpre hbs
      exact ⟨hproper bs a s' hpre hbs, hid ▸ hspares bs a s' hpre hbs⟩
  refine ⟨fun bs s' hpre hbs => ?_, fun hfree hway later => ?_, fun later id destOverride =>
    ⟨fun hrefused => restoreEntry_refused hrefused later, fun err t₃ h => restoreEntry_error h⟩⟩
  · obtain ⟨hs', -⟩ := halways bs s' hpre hbs
    exact ⟨hs'.nodup, fun e' he' => ⟨(hs'.made e' he').below, hs'.data e' he'⟩⟩
  · obtain ⟨ht₂, he, hdata⟩ := halways acts t₂ (List.prefix_refl _) hrun
    obtain ⟨t₃, hrestore, hget⟩ := restoreEntry_succeeds ht₂ he hfree hway later
    refine ⟨t₃, hid ▸ hrestore, fun r => ?_⟩
    rw [hget r, hdata r]

/-! ## A restore into the trash -/

/-- A root with the empty directory `d` and the file `x`. -/
def dirAndFile : TrashTree :=
  (((FileTree.empty : TrashTree).createDirAll 5 (PathBuf.ofNames ["d"])).bind fun t =>
    t.write (PathBuf.ofNames ["x"]) (.bytes [1]) 10).getD .empty

def idOfD : String := trashId 50000000 0

def idOfX : String := trashId 60000000 1

/-- `x` is moved to the trash and restored to a place below the data of `d`. -/
def intoTheTrash : List TrashAction :=
  [.moveToTrash 60 60000000 1 (.ofNames ["x"]) "n",
    .restoreEntryWithDest 70 idOfX (some (trashIdDir idOfD ++ PathBuf.ofNames ["d", "x"]))]

/-- Both calls succeed and are about another entry, but `d` comes back with `x` in it. -/
theorem restore_with_more_than_was_moved :
    ∃ t₁ t₂ t₃, TrashManager.moveToTrash dirAndFile 50 idOfD (.ofNames ["d"]) "n" = some t₁ ∧
      Run.runFrom (run none) t₁ intoTheTrash = some t₂ ∧
      (Run.StepsMeet (run none) (fun t a => a.Spares none idOfD t) t₁ intoTheTrash) ∧
      t₂.pathExists (PathBuf.ofNames ["d"]) = false ∧
      TrashManager.restoreEntryWithDest t₂ 80 idOfD none = some (.ok (.ofNames ["d"]), t₃) ∧
      dirAndFile.get (PathBuf.ofNames ["d", "x"]) = none ∧
      t₃.get (PathBuf.ofNames ["d", "x"]) ≠ none := by
  have hall : ((TrashManager.moveToTrash dirAndFile 50 idOfD (.ofNames ["d"]) "n").bind fun t₁ =>
      (Run.runFrom (run none) t₁ intoTheTrash).bind fun t₂ =>
        (TrashManager.restoreEntryWithDest t₂ 80 idOfD none).map fun r =>
          (t₂.pathExists (PathBuf.ofNames ["d"]), r.1.toOption,
            (r.2.get (PathBuf.ofNames ["d", "x"])).isSome)) =
      some (false, some (PathBuf.ofNames ["d"]), true) := by decide +kernel
  obtain ⟨t₁, hmove, hall⟩ := Option.bind_eq_some_iff.mp hall
  obtain ⟨t₂, hrun, hall⟩ := Option.bind_eq_some_iff.mp hall
  obtain ⟨⟨res, t₃⟩, hrestore, heq⟩ := Option.map_eq_some_iff.mp hall
  simp only [Prod.mk.injEq] at heq
  obtain ⟨hfree, hres, hmore⟩ := heq
  refine ⟨t₁, t₂, t₃, hmove, hrun, ?_, hfree, ?_, by decide +kernel, ?_⟩
  · intro bs a s hpre _
    have hmem : a ∈ intoTheTrash := hpre.subset (by simp)
    simp only [intoTheTrash, List.mem_cons, List.not_mem_nil, or_false] at hmem
    rcases hmem with rfl | rfl
    · trivial
    · show idOfX ≠ idOfD
      decide +kernel
  · cases res with
    | error err => cases hres
    | ok dest =>
      cases hres
      exact hrestore
  · intro hnone
    rw [hnone] at hmore
    cases hmore

/-- `x` follows `d` into the trash, and `d` comes back as it was. -/
theorem restore_undoes_move_of_dir :
    ∃ t₁ t₂ t₃, TrashManager.moveToTrash dirAndFile 50 idOfD (.ofNames ["d"]) "n" = some t₁ ∧
      TrashManager.moveToTrash t₁ 60 idOfX (.ofNames ["x"]) "n" = some t₂ ∧
      TrashManager.restoreEntryWithDest t₂ 80 idOfD none = some (.ok (.ofNames ["d"]), t₃) ∧
      ∀ r, t₃.get (PathBuf.ofNames ["d"] ++ r) = dirAndFile.get (PathBuf.ofNames ["d"] ++ r) := by
  have hall : ((TrashManager.moveToTrash dirAndFile 50 idOfD (.ofNames ["d"]) "n").bind fun t₁ =>
      (TrashManager.moveToTrash t₁ 60 idOfX (.ofNames ["x"]) "n").map fun t₂ =>
        ((t₁.get (trashIdDir idOfX)).isNone, t₂.pathExists (PathBuf.ofNames ["d"]),
          (PathBuf.ofNames ["d"]).inits.all fun q => !t₂.isFile q)) =
      some (true, false, true) := by decide +kernel
  obtain ⟨t₁, hmove, hall⟩ := Option.bind_eq_some_iff.mp hall
  obtain ⟨t₂, hmove₂, heq⟩ := Option.map_eq_some_iff.mp hall
  simp only [Prod.mk.injEq, Option.isNone_iff_eq_none, List.all_eq_true, Bool.not_eq_true'] at heq
  obtain ⟨hfresh, hfree, hway⟩ := heq
  have hrun : Run.runFrom (run none) t₁ [.moveToTrash 60 60000000 1 (.ofNames ["x"]) "n"] =
      some t₂ := by
    rw [Run.runFrom_cons]
    exact ⟨t₂, hmove₂, rfl⟩
  have hone : ∀ (c : TrashTree → TrashAction → Prop) (a : TrashAction), c t₁ a →
      Run.StepsMeet (run none) c t₁ [a] := by
    intro c a hc bs b s hpre hbs
    have hnil : bs = [] := by
      have hlen := hpre.length_le
      rw [List.length_append, List.length_singleton, List.length_singleton] at hlen
      exact List.eq_nil_of_length_eq_zero (by omega)
    subst hnil
    obtain rfl : t₁ = s := Option.some.inj hbs
    obtain ⟨rfl, -⟩ := List.cons_prefix_cons.mp hpre
    exact hc
  have hproper : Run.StepsMeet (run none) (fun t a => a.Proper t) t₁
      [.moveToTrash 60 60000000 1 (.ofNames ["x"]) "n"] :=
    hone _ _ ⟨by decide, by decide, hfresh⟩
  have hspares : Run.StepsMeet (run none) (fun t a => a.Spares none idOfD t) t₁
      [.moveToTrash 60 60000000 1 (.ofNames ["x"]) "n"] := hone _ _ trivial
  obtain ⟨-, hrestore, -⟩ := restore_undoes_move (t := dirAndFile) (p := .ofNames ["d"])
    (InOrder.of_no_state (by decide +kernel)) (by decide) (by decide) (by decide +kernel)
    (by decide +kernel) hmove hproper hspares hrun
  obtain ⟨t₃, hok, hget⟩ := hrestore hfree
    (fun q hq => hway q ((List.mem_inits q _).mpr hq)) 80
  exact ⟨t₁, t₂, t₃, hmove, hmove₂, hok, hget⟩

end TrashAction

end ByteHive
