import ByteHive.Native.Trash

/-!
# The index of the trash

No entry of the trash is lost or left unlisted in any run of calls in which no call saves the
index while another holds a copy that it has read: `TrashWorld.index_exact`. The mutex of a
`TrashManager` does not give that, since it belongs to the instance: `TrashWorld.two_managers`.

The invariant is `TrashWorld.Inv`: the index lists what was moved in, less what is still to
be listed and what was removed, plus what is still to be dropped.
-/

namespace ByteHive

/-! ## Names -/

theorem underscore_not_mem_padded (width n : Nat) : '_' ∉ padded width n := by
  rw [padded, List.leftpad]
  intro h
  cases List.mem_append.mp h with
  | inl h => exact absurd (List.eq_of_mem_replicate h) (by decide)
  | inr h => exact Nat.underscore_not_in_toDigits h

theorem padded_injective (width : Nat) : Function.Injective (padded width) := by
  intro n m h
  have hvalue : ∀ k, Nat.ofDigitChars 10 (padded width k) 0 = k := by
    intro k
    rw [padded, List.leftpad, Nat.ofDigitChars_append, Nat.ofDigitChars_replicate_zero,
      Nat.mul_zero, Nat.ofDigitChars_ten_toDigits]
  rw [← hvalue n, ← hvalue m, h]

/-- Two ids of one process differ in the counter. -/
theorem trashId_seq_eq {ns ns' seq seq' : Nat} (h : trashId ns seq = trashId ns' seq') :
    seq = seq' := by
  have hlist := String.ofList_injective h
  rw [List.append_cons_inj_of_notMem (underscore_not_mem_padded _ _)
    (underscore_not_mem_padded _ _)] at hlist
  exact padded_injective 6 hlist.2.2

theorem trashId_ne {ns seq : Nat} {name : String} (h : '_' ∉ name.toList) :
    trashId ns seq ≠ name := by
  rintro rfl
  rw [trashId, String.toList_ofList] at h
  exact h (List.mem_append_right _ (List.mem_cons_self ..))

/-! ## What a step does to the trash directory -/

namespace TrashManager

open FileTree

/-- A step of a call, but for the saving of the index: the index file stays as it is, and but
    for `new` no directory appears in the trash. -/
structure EntriesKept (t t' : TrashTree) (new : Option Component) : Prop where
  index : t'.get trashIndexFile = t.get trashIndexFile
  dirs : ∀ x, t'.isDir (trashDir ++ [x]) = true → t.isDir (trashDir ++ [x]) = true ∨ some x = new

theorem EntriesKept.loadIndex {t t' : TrashTree} {new : Option Component} (h : EntriesKept t t' new) :
    loadIndex t' = loadIndex t := by
  rw [TrashManager.loadIndex, TrashManager.loadIndex, FileTree.read, FileTree.read, h.index]

theorem EntriesKept.of_get {t t' : TrashTree} (hindex : t'.get trashIndexFile = t.get trashIndexFile)
    (hget : ∀ x, t'.get (trashDir ++ [x]) = none ∨
      t'.get (trashDir ++ [x]) = t.get (trashDir ++ [x])) : EntriesKept t t' none := by
  refine ⟨hindex, fun x hx => .inl ?_⟩
  rw [isDir_concat] at hx ⊢
  cases hget x with
  | inl h => simp [h] at hx
  | inr h => rwa [h] at hx

theorem EntriesKept.trans {t t₁ t₂ : TrashTree} {new : Option Component} (h₁ : EntriesKept t t₁ new)
    (h₂ : EntriesKept t₁ t₂ none) : EntriesKept t t₂ new := by
  refine ⟨h₂.index.trans h₁.index, fun x hx => ?_⟩
  cases h₂.dirs x hx with
  | inl h => exact h₁.dirs x h
  | inr h => cases h

/-- Of the paths in the trash directory a longer one is not a prefix. -/
theorem not_prefix_of_below {p : PathBuf} {x c : Component} (hp : p ≠ []) :
    ¬ (trashDir ++ [c] ++ p) <+: trashDir ++ [x] := by
  intro h
  have hlen := h.length_le
  have hpos := List.length_pos_of_ne_nil hp
  rw [List.length_append, List.length_append, List.length_append] at hlen
  simp only [List.length_singleton] at hlen
  omega

theorem entry_eq_of_below {p : PathBuf} {x c : Component}
    (h : trashDir ++ [x] <+: trashDir ++ [c] ++ p) : x = c := by
  rw [List.append_assoc] at h
  have hx := (List.prefix_append_right_inj _).mp h
  exact (List.cons_prefix_cons.mp hx).1

/-- `move_to_trash` makes the directory of its entry. -/
theorem moveData_frame {t t' : TrashTree} {now : Nat} {id : String} {rel : PathBuf}
    {by_ : String} {e : TrashEntry} (h : moveData t now id rel by_ = some (t', e))
    (hrel : rel ≠ []) (hindex : rel ≠ trashIndexFile) (hid : id ≠ "index.json") :
    EntriesKept t t' (some (.normal id)) := by
  simp only [moveData, bind, Option.bind_eq_some_iff, pure, Option.some.injEq, Prod.mk.injEq] at h
  obtain ⟨t₁, h₁, t₂, h₂, rfl, -⟩ := h
  have hne : rel ≠ trashIdDir id ++ rel := by
    intro heq
    have hlen := congrArg List.length heq
    simp only [trashIdDir, List.length_append, List.length_singleton] at hlen
    omega
  have hcan := (rename_eq_some_iff hne).mp (by rw [h₂]; rfl)
  have hkeep : ∀ x, x ≠ .normal id → t₁.get (trashDir ++ [x]) = t.get (trashDir ++ [x]) := by
    intro x hx
    rw [get_createDirAll h₁, if_neg]
    exact fun hc => hx (entry_eq_of_below (hc.2.1.trans (List.dropLast_prefix _)))
  have htarget : ∀ x, ¬ (trashIdDir id ++ rel) <+: trashDir ++ [x] :=
    fun x => not_prefix_of_below hrel
  constructor
  · rw [get_rename hne h₂, movedGet, trashIndexFile, if_neg (htarget _), if_neg]
    · exact hkeep _ fun heq => hid (by cases heq; rfl)
    · -- The index file is not moved, and the trash does not go below itself.
      intro hpre
      cases List.prefix_concat_iff.mp hpre with
      | inl heq => exact hindex heq
      | inr hpre' =>
        exact hcan.not_below (hpre'.trans (by simp [trashIdDir, List.append_assoc]))
  · intro x hx
    by_cases hxid : x = .normal id
    · exact .inr (by rw [hxid])
    · rw [isDir_concat, get_rename hne h₂, movedGet, if_neg (htarget x)] at hx
      by_cases hpre : rel <+: trashDir ++ [x]
      · simp [if_pos hpre] at hx
      · rw [if_neg hpre, hkeep x hxid] at hx
        exact .inl ((isDir_concat ..).trans hx)

theorem get_removeData {t t' : TrashTree} {ids : List String} (h : removeData t ids = some t')
    (q : PathBuf) : t'.get q = if ∃ id ∈ ids, trashIdDir id <+: q then none else t.get q := by
  rw [removeData] at h
  split at h
  · cases h
  · next hfiles =>
    obtain rfl := Option.some.inj h
    clear h hfiles
    induction ids generalizing t with
    | nil => simp
    | cons id ids ih =>
      rw [List.foldl_cons, ih, get_removeTree]
      simp only [List.mem_cons, exists_eq_or_imp]
      by_cases h₁ : ∃ id ∈ ids, trashIdDir id <+: q
      · rw [if_pos h₁, if_pos (.inr h₁)]
      · by_cases h₂ : trashIdDir id <+: q
        · rw [if_neg h₁, if_pos h₂, if_pos (.inl h₂)]
        · rw [if_neg h₁, if_neg h₂, if_neg (not_or.mpr ⟨h₂, h₁⟩)]

theorem trashIdDir_not_prefix_index {id : String} (hid : id ≠ "index.json") :
    ¬ trashIdDir id <+: trashIndexFile := by
  intro h
  have heq := h.eq_of_length (by rw [trashIdDir, trashIndexFile]; rfl)
  exact hid (by cases heq; rfl)

theorem removeData_frame {t t' : TrashTree} {ids : List String} (h : removeData t ids = some t')
    (hids : ∀ id ∈ ids, id ≠ "index.json") : EntriesKept t t' none := by
  refine .of_get ?_ fun x => ?_
  · rw [get_removeData h, if_neg]
    rintro ⟨id, hid, hpre⟩
    exact trashIdDir_not_prefix_index (hids id hid) hpre
  · rw [get_removeData h]
    by_cases hpre : ∃ id ∈ ids, trashIdDir id <+: trashDir ++ [x]
    · exact .inl (if_pos hpre)
    · exact .inr (if_neg hpre)

/-- What `restore_entry_with_dest` does where it succeeds. -/
theorem restoreData_ok {t t' : TrashTree} {now : Nat} {index : List TrashEntry} {id : String}
    {destOverride : Option PathBuf} {destRel : PathBuf}
    (h : restoreData t now index id destOverride = some (.ok (t', destRel))) :
    ∃ e, index.find? (·.id = id) = some e ∧ e ∈ index ∧ e.id = id ∧
      destRel = destOverride.getD e.originalPath ∧ t.pathExists (trashDir ++ e.trashRelPath) = true ∧
      t.pathExists (skipCurDir destRel) = false ∧ ∃ t₁ t₂,
      t.createDirAll now (skipCurDir destRel).dropLast = some t₁ ∧
      t₁.rename (trashDir ++ e.trashRelPath) (skipCurDir destRel) = some t₂ ∧
      removeData t₂ [id] = some t' := by
  rw [restoreData] at h
  cases hfind : index.find? (·.id = id) with
  | none => simp [hfind] at h
  | some e =>
    have hid : e.id = id := by simpa using List.find?_some hfind
    cases hdest : restoreDest e destOverride with
    | error err => simp [hfind, hdest] at h
    | ok dest =>
      have hdestRel : dest = destOverride.getD e.originalPath := by
        cases destOverride with
        | none =>
          simp only [restoreDest] at hdest
          split at hdest <;> cases hdest
          rfl
        | some o =>
          simp only [restoreDest] at hdest
          split at hdest
          · cases hdest
          · split at hdest <;> cases hdest
            rfl
      simp only [hfind, hdest] at h
      cases hdata : t.pathExists (trashDir ++ e.trashRelPath) with
      | false => simp [hdata] at h
      | true =>
        cases hthere : t.pathExists (skipCurDir dest) with
        | true => simp [hdata, hthere] at h
        | false =>
          simp only [hdata, hthere, Bool.not_true, Bool.false_eq_true, if_false, bind,
            Option.bind_eq_some_iff, pure, Option.some.injEq, Except.ok.injEq,
            Prod.mk.injEq] at h
          obtain ⟨t₁, h₁, t₂, h₂, t₃, h₃, rfl, rfl⟩ := h
          rw [hid] at h₃
          exact ⟨e, rfl, List.mem_of_find?_eq_some hfind, hid, hdestRel, hdata, hthere, t₁, t₂, h₁,
            h₂, h₃⟩

/-- A path at which nothing exists is not above the entries of the trash. -/
theorem not_prefix_of_not_exists {t : TrashTree} {dest p : PathBuf} {x : Component}
    (hp : t.pathExists (trashDir ++ p) = true) (hdest : t.pathExists dest = false)
    (hout : ¬ trashDir <+: dest) : ¬ dest <+: trashDir ++ [x] := by
  intro hpre
  cases List.prefix_concat_iff.mp hpre with
  | inl heq => exact hout (heq ▸ List.prefix_append ..)
  | inr hpre =>
    have habove := hpre.trans (List.prefix_append trashDir p)
    rw [pathExists, Bool.or_eq_true, decide_eq_true_eq] at hp
    rw [pathExists, Bool.or_eq_false_iff, decide_eq_false_iff_not] at hdest
    have hpe : t.pathExists dest = true := by
      cases hp with
      | inl hnil => exact absurd hnil (by simp [trashDir, PathBuf.ofNames])
      | inr hsome =>
        obtain ⟨n, hn⟩ := Option.isSome_iff_exists.mp hsome
        by_cases heq : dest = trashDir ++ p
        · rw [heq] at hdest
          simp [hn] at hdest
        · have hdir := t.isDir_of_prefix hn habove heq
          rw [isDir, Bool.or_eq_true, decide_eq_true_eq, Option.any_eq_true] at hdir
          cases hdir with
          | inl hnil => exact absurd hnil hdest.1
          | inr hd =>
            obtain ⟨d, hd, -⟩ := hd
            simp [hd] at hdest
    simp [pathExists, hdest] at hpe

/-- A restored entry leaves the trash. -/
theorem restoreData_frame {t t' : TrashTree} {now : Nat} {index : List TrashEntry} {id : String}
    {destOverride : Option PathBuf} {destRel : PathBuf}
    (h : restoreData t now index id destOverride = some (.ok (t', destRel)))
    (hindex : ∀ e ∈ index, e.id ≠ "index.json" ∧
      ∃ rel, rel ≠ [] ∧ e.trashRelPath = .normal e.id :: rel)
    (hout : ∀ e ∈ index, e.id = id →
      ¬ trashDir <+: skipCurDir (destOverride.getD e.originalPath)) : EntriesKept t t' none := by
  obtain ⟨e, -, he, hid, rfl, hdata, hthere, t₁, t₂, h₁, h₂, h₃⟩ := restoreData_ok h
  obtain ⟨hname, rel, hrel, hpath⟩ := hindex e he
  have hdest := hout e he hid
  rw [show trashDir ++ e.trashRelPath = trashDir ++ [.normal e.id] ++ rel by
    rw [hpath, List.append_assoc]; rfl] at h₂
  have hsource : ∀ x, ¬ (trashDir ++ [.normal e.id] ++ rel) <+: trashDir ++ [x] :=
    fun x => not_prefix_of_below hrel
  have htarget : ∀ x, ¬ skipCurDir (destOverride.getD e.originalPath) <+: trashDir ++ [x] :=
    fun x => not_prefix_of_not_exists hdata hthere hdest
  have hne : trashDir ++ [.normal e.id] ++ rel ≠ skipCurDir (destOverride.getD e.originalPath) := by
    intro heq
    rw [← heq, List.append_assoc] at hdest
    exact hdest (List.prefix_append ..)
  have hkeep : ∀ x, t₂.get (trashDir ++ [x]) = t.get (trashDir ++ [x]) := by
    intro x
    rw [get_rename hne h₂, movedGet, if_neg (htarget x), if_neg (hsource x), get_createDirAll h₁,
      if_neg]
    rintro ⟨-, hpre, -⟩
    exact hdest (((List.prefix_append ..).trans hpre).trans (List.dropLast_prefix _))
  have hframe : EntriesKept t t₂ none := .of_get (hkeep _) fun x => .inr (hkeep x)
  refine hframe.trans (removeData_frame h₃ fun id' hid' => ?_)
  rw [List.mem_singleton.mp hid', ← hid]
  exact hname

/-- Saving the index writes it, and changes nothing else in the trash. -/
theorem saveIndex_spec {t t' : TrashTree} {now : Nat} {index : List TrashEntry}
    (h : saveIndex t now index = some t') :
    loadIndex t' = index ∧
      ∀ x, t'.isDir (trashDir ++ [x]) = true → t.isDir (trashDir ++ [x]) = true := by
  simp only [saveIndex, bind, Option.bind_eq_some_iff] at h
  obtain ⟨t₁, h₁, t₂, h₂, h₃⟩ := h
  have hne : trashIndexTmp ≠ trashIndexFile := by decide
  have hself : t'.get trashIndexFile = some (.file (.index index) now) := by
    rw [get_rename hne h₃, movedGet, if_pos (List.prefix_refl _), List.drop_length,
      List.append_nil, get_write h₂, if_pos rfl]
  refine ⟨by rw [loadIndex, FileTree.read, hself], fun x hx => ?_⟩
  rw [isDir_concat] at hx ⊢
  by_cases hfile : x = .normal "index.json"
  · rw [hfile] at hx
    rw [show trashDir ++ [.normal "index.json"] = trashIndexFile from rfl, hself] at hx
    simp [FileNode.isDir] at hx
  · have hlast : ∀ c, trashDir ++ [c] <+: trashDir ++ [x] → c = x := fun c hpre => by
      have := (List.prefix_append_right_inj _).mp hpre
      exact (List.cons_prefix_cons.mp this).1
    have h₁' : ¬ trashIndexFile <+: trashDir ++ [x] := fun hpre => hfile (hlast _ hpre).symm
    rw [get_rename hne h₃, movedGet, if_neg h₁'] at hx
    by_cases htmp : trashIndexTmp <+: trashDir ++ [x]
    · simp [if_pos htmp] at hx
    · have hneTmp : trashDir ++ [x] ≠ trashIndexTmp := fun heq => htmp (heq ▸ List.prefix_refl _)
      have habove : ¬ trashDir ++ [x] <+: trashDir := by
        intro hpre
        have hlen := hpre.length_le
        rw [List.length_append, List.length_singleton] at hlen
        omega
      rw [if_neg htmp, get_write h₂, if_neg hneTmp, get_createDirAll h₁,
        if_neg fun hc => habove hc.2.1] at hx
      exact hx

theorem removeData_isDir {t t' : TrashTree} {ids : List String} (h : removeData t ids = some t')
    {id : String} (hid : id ∈ ids) : t'.isDir (trashIdDir id) = false := by
  rw [trashIdDir, isDir_concat, get_removeData h, if_pos ⟨id, hid, List.prefix_refl _⟩]
  rfl

end TrashManager

/-! ## What a change does to the entries -/

namespace IndexChange

variable {index : List TrashEntry} {change : IndexChange} {e : TrashEntry}

/-- Where ids are distinct, a change that is no `push` drops the entries it has removed. -/
theorem mem_apply (hnodup : (index.map (·.id)).Nodup) (hpush : ∀ e, change ≠ .push e) :
    e ∈ change.apply index ↔ e ∈ index ∧ e.id ∉ change.removed index := by
  cases change with
  | push e => exact absurd rfl (hpush e)
  | remove id =>
    have hpair : index.Pairwise fun a b => a.id ≠ b.id := List.pairwise_map.mp hnodup
    simp only [apply, removed, List.mem_singleton]
    induction index with
    | nil => simp
    | cons a index ih =>
      obtain ⟨hhead, htail⟩ := List.pairwise_cons.mp hpair
      by_cases ha : a.id = id
      · rw [List.eraseP_cons_of_pos (by simpa using ha)]
        constructor
        · exact fun he => ⟨List.mem_cons_of_mem _ he, fun h => hhead e he (ha.trans h.symm)⟩
        · rintro ⟨he, hne⟩
          cases List.mem_cons.mp he with
          | inl heq => exact absurd (heq ▸ ha) hne
          | inr he => exact he
      · have hih : e ∈ index.eraseP (fun a => a.id = id) ↔ e ∈ index ∧ ¬ e.id = id :=
          ih (List.nodup_cons.mp hnodup).2 htail
        rw [List.eraseP_cons_of_neg (by simpa using ha), List.mem_cons, List.mem_cons, hih]
        constructor
        · intro h
          cases h with
          | inl heq => exact ⟨.inl heq, heq ▸ ha⟩
          | inr h => exact ⟨.inr h.1, h.2⟩
        · rintro ⟨he, hne⟩
          exact he.imp_right fun he => ⟨he, hne⟩
  | retain cutoffMs =>
    have hinj : ∀ a ∈ index, ∀ b ∈ index, a.id = b.id → a = b :=
      fun a ha b hb => List.inj_on_of_nodup_map hnodup ha hb
    simp only [apply, removed, List.mem_filter, decide_eq_true_eq, List.mem_map, not_exists,
      not_and, and_imp]
    refine and_congr_right fun he => ?_
    constructor
    · intro hle a ha hlt heq
      obtain rfl := hinj a ha e he heq
      omega
    · intro h
      by_contra hlt
      exact h e he (by omega) rfl
  | clear =>
    simp only [apply, removed, List.not_mem_nil, List.mem_map, not_exists, not_and, false_iff]
    exact fun he h => h e he rfl

theorem nodup_apply (hnodup : (index.map (·.id)).Nodup) (hpush : ∀ e, change ≠ .push e) :
    ((change.apply index).map (·.id)).Nodup := by
  have hsub : (change.apply index).Sublist index := by
    cases change with
    | push e => exact absurd rfl (hpush e)
    | remove id => exact List.eraseP_sublist
    | retain cutoffMs => exact List.filter_sublist
    | clear => exact List.nil_sublist index
  exact (hsub.map _).nodup hnodup

end IndexChange

/-! ## The invariant -/

/-- The data of an entry is below a directory of its own. -/
structure TrashEntry.Wf (e : TrashEntry) : Prop where
  id_ne : e.id ≠ "index.json"
  path : ∃ rel, rel ≠ [] ∧ e.trashRelPath = .normal e.id :: rel

namespace TrashWorld

open TrashManager

variable {w w' : TrashWorld} {c : Nat} {call : TrashCall}

def pendingOf (w : TrashWorld) (c : Nat) : Option TrashEntry :=
  (w.calls.get c).bind (·.phase.pending)

def removingOf (w : TrashWorld) (c : Nat) : List String :=
  ((w.calls.get c).map (·.phase.removing)).getD []

def heldOf (w : TrashWorld) (c : Nat) : Option (List TrashEntry) :=
  (w.calls.get c).bind (·.phase.held)

/-- `trash_id` does not yield `id` any more. -/
def Old (w : TrashWorld) (id : String) : Prop :=
  ∀ ns seq, w.bootNs ≤ ns → w.nextSeq ≤ seq → id ≠ trashId ns seq

structure Inv (w : TrashWorld) : Prop where
  wf : ∀ e ∈ w.entered, e.Wf ∧ w.Old e.id
  inj : ∀ e ∈ w.entered, ∀ e' ∈ w.entered, e.id = e'.id → e = e'
  nodup : (w.index.map (·.id)).Nodup
  gone : ∀ id ∈ w.gone, ∃ e ∈ w.entered, e.id = id
  pending : ∀ c e, w.pendingOf c = some e → e ∈ w.entered ∧ e.id ∉ w.gone
  pending_inj : ∀ c c' e, w.pendingOf c = some e → w.pendingOf c' = some e → c = c'
  removing : ∀ c, ∀ id ∈ w.removingOf c, id ∈ w.gone ∧ w.tree.isDir (trashIdDir id) = false
  held : ∀ c index, w.heldOf c = some index → index = w.index
  listed : ∀ e, e ∈ w.index ↔ e ∈ w.entered ∧ (∀ c, w.pendingOf c ≠ some e) ∧
    (e.id ∈ w.gone → ∃ c, e.id ∈ w.removingOf c)
  dirs : ∀ x, w.tree.isDir (trashDir ++ [x]) = true → (∃ e ∈ w.index, x = .normal e.id) ∨
    ∃ c e, w.pendingOf c = some e ∧ x = .normal e.id

/-- A step that changes neither the disk nor what any call has moved or removed. -/
theorem Inv.of_calls (h : w.Inv) (htree : w'.tree = w.tree) (hentered : w'.entered = w.entered)
    (hgone : w'.gone = w.gone) (hboot : w'.bootNs = w.bootNs) (hseq : w'.nextSeq = w.nextSeq)
    (hpending : ∀ c, w'.pendingOf c = w.pendingOf c)
    (hremoving : ∀ c, w'.removingOf c = w.removingOf c)
    (hheld : ∀ c index, w'.heldOf c = some index → w.heldOf c = some index ∨ index = w.index) :
    w'.Inv := by
  have hindex : w'.index = w.index := by rw [index, index, htree]
  constructor
  case wf =>
    intro e he
    rw [Old, hboot, hseq]
    exact h.wf e (hentered ▸ he)
  case inj => rw [hentered]; exact h.inj
  case nodup => rw [hindex]; exact h.nodup
  case gone => rw [hgone, hentered]; exact h.gone
  case pending => simp only [hpending, hentered, hgone]; exact h.pending
  case pending_inj => simp only [hpending]; exact h.pending_inj
  case removing => simp only [hremoving, hgone, htree]; exact h.removing
  case held =>
    intro c index hc
    rw [hindex]
    cases hheld c index hc with
    | inl hc => exact h.held c index hc
    | inr heq => exact heq
  case listed => simp only [hindex, hentered, hpending, hgone, hremoving]; exact h.listed
  case dirs => simp only [htree, hindex, hpending]; exact h.dirs

@[simp] theorem pendingOf_setPhase (w : TrashWorld) (c c' : Nat) (call : TrashCall)
    (phase : TrashPhase) : (w.setPhase c call phase).pendingOf c' =
      if c' = c then phase.pending else w.pendingOf c' := by
  by_cases hc : c' = c <;> simp [pendingOf, setPhase, hc]

@[simp] theorem removingOf_setPhase (w : TrashWorld) (c c' : Nat) (call : TrashCall)
    (phase : TrashPhase) : (w.setPhase c call phase).removingOf c' =
      if c' = c then phase.removing else w.removingOf c' := by
  by_cases hc : c' = c <;> simp [removingOf, setPhase, hc]

@[simp] theorem heldOf_setPhase (w : TrashWorld) (c c' : Nat) (call : TrashCall)
    (phase : TrashPhase) : (w.setPhase c call phase).heldOf c' =
      if c' = c then phase.held else w.heldOf c' := by
  by_cases hc : c' = c <;> simp [heldOf, setPhase, hc]

@[simp] theorem pendingOf_finish (w : TrashWorld) (c c' : Nat) :
    (w.finish c).pendingOf c' = if c' = c then none else w.pendingOf c' := by
  by_cases hc : c' = c <;> simp [pendingOf, finish, hc]

@[simp] theorem removingOf_finish (w : TrashWorld) (c c' : Nat) :
    (w.finish c).removingOf c' = if c' = c then [] else w.removingOf c' := by
  by_cases hc : c' = c <;> simp [removingOf, finish, hc]

@[simp] theorem heldOf_finish (w : TrashWorld) (c c' : Nat) :
    (w.finish c).heldOf c' = if c' = c then none else w.heldOf c' := by
  by_cases hc : c' = c <;> simp [heldOf, finish, hc]

theorem pendingOf_eq (hc : w.calls.get c = some call) : w.pendingOf c = call.phase.pending := by
  simp [pendingOf, hc]

theorem removingOf_eq (hc : w.calls.get c = some call) :
    w.removingOf c = call.phase.removing := by
  simp [removingOf, hc]

theorem heldOf_eq (hc : w.calls.get c = some call) : w.heldOf c = call.phase.held := by
  simp [heldOf, hc]

/-- A call with nothing moved and nothing removed returns. -/
theorem Inv.finish (h : w.Inv) (hc : w.calls.get c = some call) (hp : call.phase.pending = none)
    (hr : call.phase.removing = []) : (w.finish c).Inv := by
  refine h.of_calls rfl rfl rfl rfl rfl (fun c' => ?_) (fun c' => ?_) fun c' index hheld => ?_
  · by_cases hcc : c' = c
    · rw [pendingOf_finish, if_pos hcc, hcc, pendingOf_eq hc, hp]
    · rw [pendingOf_finish, if_neg hcc]
  · by_cases hcc : c' = c
    · rw [removingOf_finish, if_pos hcc, hcc, removingOf_eq hc, hr]
    · rw [removingOf_finish, if_neg hcc]
  · by_cases hcc : c' = c
    · simp [hcc] at hheld
    · rw [heldOf_finish, if_neg hcc] at hheld
      exact .inl hheld

/-- A call reads the index. -/
theorem Inv.load {phase : TrashPhase} (h : w.Inv) (hc : w.calls.get c = some call)
    (hp : phase.pending = call.phase.pending) (hr : phase.removing = call.phase.removing)
    (hh : phase.held = some w.index) : (w.setPhase c call phase).Inv := by
  refine h.of_calls rfl rfl rfl rfl rfl (fun c' => ?_) (fun c' => ?_) fun c' index hheld => ?_
  · by_cases hcc : c' = c
    · rw [pendingOf_setPhase, if_pos hcc, hcc, pendingOf_eq hc, hp]
    · rw [pendingOf_setPhase, if_neg hcc]
  · by_cases hcc : c' = c
    · rw [removingOf_setPhase, if_pos hcc, hcc, removingOf_eq hc, hr]
    · rw [removingOf_setPhase, if_neg hcc]
  · rw [heldOf_setPhase] at hheld
    by_cases hcc : c' = c
    · rw [if_pos hcc, hh] at hheld
      exact .inr (Option.some.inj hheld).symm
    · rw [if_neg hcc] at hheld
      exact .inl hheld

theorem Inv.mem_entered (h : w.Inv) {e : TrashEntry} (he : e ∈ w.index) : e ∈ w.entered :=
  ((h.listed e).mp he).1

/-- An entry whose id is that of a listed one is listed. -/
theorem Inv.mem_index_of_id (h : w.Inv) {e e' : TrashEntry} (he : e ∈ w.entered)
    (he' : e' ∈ w.index) (hid : e'.id = e.id) : e ∈ w.index :=
  h.inj e' (h.mem_entered he') e he hid ▸ he'

/-- The id of a new entry. -/
theorem Inv.id_ne_new (h : w.Inv) {ns : Nat} (hns : w.bootNs ≤ ns) {e : TrashEntry}
    (he : e ∈ w.entered) : e.id ≠ trashId ns w.nextSeq :=
  (h.wf e he).2 ns w.nextSeq hns (Nat.le_refl _)

section Steps

variable {t : TrashTree} {e : TrashEntry} {ids : List String}

/-- `move_to_trash` moves the data. -/
theorem Inv.move (h : w.Inv) {ns : Nat} (hns : w.bootNs ≤ ns)
    (hid : e.id = trashId ns w.nextSeq) (hwf : e.Wf)
    (hframe : EntriesKept w.tree w'.tree (some (.normal e.id)))
    (hentered : w'.entered = w.entered ++ [e]) (hgone : w'.gone = w.gone)
    (hboot : w'.bootNs = w.bootNs) (hseq : w'.nextSeq = w.nextSeq + 1)
    (hpc : w.pendingOf c = none)
    (hpending : ∀ c', w'.pendingOf c' = if c' = c then some e else w.pendingOf c')
    (hremoving : ∀ c', w'.removingOf c' = w.removingOf c')
    (hheld : ∀ c' index, w'.heldOf c' = some index → w.heldOf c' = some index) : w'.Inv := by
  have hnew : ∀ e' ∈ w.entered, e'.id ≠ e.id := fun e' he' heq =>
    h.id_ne_new hns he' (heq.trans hid)
  have hnot : e ∉ w.entered := fun he => hnew e he rfl
  have hindex : w'.index = w.index := hframe.loadIndex
  have hmem : ∀ e', e' ∈ w'.entered ↔ e' ∈ w.entered ∨ e' = e := by simp [hentered]
  constructor
  case wf =>
    intro e' he'
    rw [Old, hboot, hseq]
    cases (hmem e').mp he' with
    | inl he' =>
      obtain ⟨hwf', hold⟩ := h.wf e' he'
      exact ⟨hwf', fun ns seq hns hseq => hold ns seq hns (by omega)⟩
    | inr heq =>
      subst heq
      refine ⟨hwf, fun ns' seq _ hseq heq => ?_⟩
      have := trashId_seq_eq (hid.symm.trans heq)
      omega
  case inj =>
    intro a ha b hb hab
    cases (hmem a).mp ha with
    | inl ha =>
      cases (hmem b).mp hb with
      | inl hb => exact h.inj a ha b hb hab
      | inr hb => exact absurd (hb ▸ hab) (hnew a ha)
    | inr ha =>
      cases (hmem b).mp hb with
      | inl hb => exact absurd (ha ▸ hab.symm) (hnew b hb)
      | inr hb => rw [ha, hb]
  case nodup => rw [hindex]; exact h.nodup
  case gone =>
    intro id hid
    obtain ⟨e', he', heq⟩ := h.gone id (hgone ▸ hid)
    exact ⟨e', (hmem e').mpr (.inl he'), heq⟩
  case pending =>
    intro c' e' hc'
    rw [hpending] at hc'
    rw [hgone]
    split at hc'
    · cases hc'
      refine ⟨(hmem e).mpr (.inr rfl), fun hg => ?_⟩
      obtain ⟨e', he', heq⟩ := h.gone _ hg
      exact hnew e' he' heq
    · obtain ⟨he', hg⟩ := h.pending c' e' hc'
      exact ⟨(hmem e').mpr (.inl he'), hg⟩
  case pending_inj =>
    intro c₁ c₂ e' h₁ h₂
    rw [hpending] at h₁ h₂
    split at h₁
    · next hc₁ =>
      cases h₁
      split at h₂
      · next hc₂ => rw [hc₁, hc₂]
      · exact absurd (h.pending c₂ e h₂).1 hnot
    · split at h₂
      · cases h₂
        exact absurd (h.pending c₁ e h₁).1 hnot
      · exact h.pending_inj c₁ c₂ e' h₁ h₂
  case removing =>
    intro c' id hc'
    rw [hremoving] at hc'
    obtain ⟨hg, hdir⟩ := h.removing c' id hc'
    refine ⟨hgone ▸ hg, ?_⟩
    cases hnow : w'.tree.isDir (trashIdDir id) with
    | false => rfl
    | true =>
      cases hframe.dirs _ hnow with
      | inl hbefore => exact absurd hbefore (by rw [← trashIdDir, hdir]; decide)
      | inr heq =>
        obtain ⟨e', he', heq'⟩ := h.gone id hg
        cases heq
        exact absurd heq' (hnew e' he')
  case held =>
    intro c' index hc'
    rw [hindex]
    exact h.held c' index (hheld c' index hc')
  case listed =>
    intro e'
    rw [hindex, hgone, h.listed e', hmem]
    simp only [hremoving, hpending]
    constructor
    · rintro ⟨he', hp, hg⟩
      refine ⟨.inl he', fun c' hc' => ?_, hg⟩
      split at hc'
      · cases hc'
        exact hnot he'
      · exact hp c' hc'
    · rintro ⟨he', hp, hg⟩
      refine ⟨he'.resolve_right fun heq => hp c (by rw [if_pos rfl, heq]), fun c' hc' => ?_, hg⟩
      refine hp c' ?_
      rw [if_neg fun hcc => by rw [hcc, hpc] at hc'; cases hc']
      exact hc'
  case dirs =>
    intro x hx
    rw [hindex]
    cases hframe.dirs x hx with
    | inl hbefore =>
      cases h.dirs x hbefore with
      | inl h => exact .inl h
      | inr h =>
        obtain ⟨c', e', hc', hx'⟩ := h
        refine .inr ⟨c', e', ?_, hx'⟩
        rw [hpending, if_neg fun hcc => by rw [hcc, hpc] at hc'; cases hc']
        exact hc'
    | inr heq =>
      cases heq
      exact .inr ⟨c, e, by rw [hpending, if_pos rfl], rfl⟩

/-- A call that holds the index removes the data of entries that it lists. -/
theorem Inv.remove (h : w.Inv) (hids : ∀ id ∈ ids, ∃ e ∈ w.index, e.id = id)
    (hframe : EntriesKept w.tree w'.tree none)
    (hremoved : ∀ id ∈ ids, w'.tree.isDir (trashIdDir id) = false)
    (hentered : w'.entered = w.entered) (hgone : w'.gone = w.gone ++ ids)
    (hboot : w'.bootNs = w.bootNs) (hseq : w'.nextSeq = w.nextSeq)
    (hrc : w.removingOf c = [])
    (hpending : ∀ c', w'.pendingOf c' = w.pendingOf c')
    (hremoving : ∀ c', w'.removingOf c' = if c' = c then ids else w.removingOf c')
    (hheld : ∀ c' index, w'.heldOf c' = some index → w.heldOf c' = some index) : w'.Inv := by
  have hindex : w'.index = w.index := hframe.loadIndex
  have hmem : ∀ id, id ∈ w'.gone ↔ id ∈ w.gone ∨ id ∈ ids := by simp [hgone]
  constructor
  case wf =>
    intro e he
    rw [Old, hboot, hseq]
    exact h.wf e (hentered ▸ he)
  case inj => rw [hentered]; exact h.inj
  case nodup => rw [hindex]; exact h.nodup
  case gone =>
    intro id hid
    rw [hentered]
    cases (hmem id).mp hid with
    | inl hid => exact h.gone id hid
    | inr hid =>
      obtain ⟨e, he, heq⟩ := hids id hid
      exact ⟨e, h.mem_entered he, heq⟩
  case pending =>
    intro c' e hc'
    rw [hpending] at hc'
    obtain ⟨he, hg⟩ := h.pending c' e hc'
    rw [hentered, hmem]
    refine ⟨he, not_or.mpr ⟨hg, fun hid => ?_⟩⟩
    -- A pending entry is not listed, so its data is not removed.
    obtain ⟨e', he', heq⟩ := hids _ hid
    exact ((h.listed e).mp (h.mem_index_of_id he he' heq)).2.1 c' hc'
  case pending_inj => simp only [hpending]; exact h.pending_inj
  case removing =>
    intro c' id hc'
    rw [hremoving] at hc'
    rw [hmem]
    split at hc'
    · exact ⟨.inr hc', hremoved id hc'⟩
    · obtain ⟨hg, hdir⟩ := h.removing c' id hc'
      refine ⟨.inl hg, ?_⟩
      cases hnow : w'.tree.isDir (trashIdDir id) with
      | false => rfl
      | true =>
        cases hframe.dirs _ hnow with
        | inl hbefore => exact absurd hbefore (by rw [← trashIdDir, hdir]; decide)
        | inr heq => cases heq
  case held =>
    intro c' index hc'
    rw [hindex]
    exact h.held c' index (hheld c' index hc')
  case listed =>
    intro e
    simp only [hindex, hentered, hpending, hremoving, hmem]
    constructor
    · intro he
      obtain ⟨hen, hp, hg⟩ := (h.listed e).mp he
      refine ⟨hen, hp, fun hid => ?_⟩
      cases hid with
      | inl hid =>
        obtain ⟨c', hc'⟩ := hg hid
        refine ⟨c', ?_⟩
        rw [if_neg fun hcc => by rw [hcc, hrc] at hc'; cases hc']
        exact hc'
      | inr hid => exact ⟨c, by rw [if_pos rfl]; exact hid⟩
    · rintro ⟨hen, hp, hg⟩
      by_cases hid : e.id ∈ ids
      · obtain ⟨e', he', heq⟩ := hids _ hid
        exact h.mem_index_of_id hen he' heq
      · refine (h.listed e).mpr ⟨hen, hp, fun hg' => ?_⟩
        obtain ⟨c', hc'⟩ := hg (.inl hg')
        split at hc'
        · exact absurd hc' hid
        · exact ⟨c', hc'⟩
  case dirs =>
    intro x hx
    simp only [hindex, hpending]
    cases hframe.dirs x hx with
    | inl hbefore => exact h.dirs x hbefore
    | inr heq => cases heq

/-- The last step of a call, where no other call holds the index. -/
theorem Inv.save (h : w.Inv) {index : List TrashEntry} {change : IndexChange}
    (hc : w.calls.get c = some call) (hphase : call.phase = .saving index change)
    (halone : ∀ c', c' ≠ c → w.heldOf c' = none)
    (hindex : loadIndex t = change.apply index)
    (hdirs : ∀ x, t.isDir (trashDir ++ [x]) = true → w.tree.isDir (trashDir ++ [x]) = true) :
    ({ w with tree := t }.finish c).Inv := by
  have hpc : w.pendingOf c = (TrashPhase.saving index change).pending := by
    rw [pendingOf_eq hc, hphase]
  have hrc : w.removingOf c = change.removed index := by
    rw [removingOf_eq hc, hphase]
    rfl
  obtain rfl : index = w.index := h.held c index (by rw [heldOf_eq hc, hphase]; rfl)
  have hremoving : ∀ c', c' ≠ c → w.removingOf c' = [] := by
    intro c' hcc
    have hnone := halone c' hcc
    cases hget : w.calls.get c' with
    | none => simp [removingOf, hget]
    | some call' =>
      rw [heldOf_eq hget] at hnone
      rw [removingOf_eq hget]
      cases hphase' : call'.phase with
      | saving index' change' => simp [hphase', TrashPhase.held] at hnone
      | _ => rfl
  have hgone : ∀ id ∈ w.gone, (∃ c', id ∈ w.removingOf c') → id ∈ change.removed w.index := by
    rintro id - ⟨c', hid⟩
    by_cases hcc : c' = c
    · rwa [hcc, hrc] at hid
    · rw [hremoving c' hcc] at hid
      cases hid
  have hp : ∀ c', ({ w with tree := t }.finish c).pendingOf c' =
      if c' = c then none else w.pendingOf c' := pendingOf_finish { w with tree := t } c
  have hr : ∀ c', ({ w with tree := t }.finish c).removingOf c' = [] := by
    intro c'
    rw [removingOf_finish]
    by_cases hcc : c' = c
    · rw [if_pos hcc]
    · rw [if_neg hcc]
      exact hremoving c' hcc
  have hindex' : ({ w with tree := t }.finish c).index = change.apply w.index := hindex
  have hmem : ∀ e, e ∈ change.apply w.index ↔ e ∈ w.entered ∧
      (∀ c', c' ≠ c → w.pendingOf c' ≠ some e) ∧ e.id ∉ w.gone := by
    intro e
    cases hchange : change with
    | push new =>
      rw [hchange] at hpc hgone
      have hnew : w.pendingOf c = some new := hpc
      obtain ⟨hen, hg⟩ := h.pending c new hnew
      rw [IndexChange.apply, List.mem_append, List.mem_singleton]
      constructor
      · intro he
        cases he with
        | inl he =>
          obtain ⟨hen, hp, hg⟩ := (h.listed e).mp he
          exact ⟨hen, fun c' _ => hp c', fun hid => absurd (hgone _ hid (hg hid)) List.not_mem_nil⟩
        | inr he =>
          subst he
          exact ⟨hen, fun c' hcc hc' => hcc (h.pending_inj c' c e hc' hnew), hg⟩
      · rintro ⟨hen, hp, hg⟩
        by_cases he : e = new
        · exact .inr he
        · refine .inl ((h.listed e).mpr ⟨hen, fun c' hc' => ?_, fun hid => absurd hid hg⟩)
          by_cases hcc : c' = c
          · rw [hcc, hnew] at hc'
            exact he (Option.some.inj hc').symm
          · exact hp c' hcc hc'
    | _ =>
      have hpush : ∀ e, change ≠ .push e := by rw [hchange]; exact fun e => by simp
      have hnone : w.pendingOf c = none := by rw [hpc, hchange]; rfl
      rw [← hchange, IndexChange.mem_apply h.nodup hpush, h.listed e]
      constructor
      · rintro ⟨⟨hen, hp, hg⟩, hid⟩
        exact ⟨hen, fun c' _ => hp c', fun hgone' => hid (hgone _ hgone' (hg hgone'))⟩
      · rintro ⟨hen, hp, hg⟩
        refine ⟨⟨hen, fun c' hc' => ?_, fun hid => absurd hid hg⟩, fun hid => ?_⟩
        · by_cases hcc : c' = c
          · rw [hcc, hnone] at hc'
            cases hc'
          · exact hp c' hcc hc'
        · exact hg (h.removing c _ (by rw [hrc]; exact hid)).1
  constructor
  case wf => exact h.wf
  case inj => exact h.inj
  case nodup =>
    rw [hindex']
    cases hchange : change with
    | push new =>
      rw [hchange] at hpc
      have hnew : w.pendingOf c = some new := hpc
      rw [IndexChange.apply, List.map_append, List.map_singleton, List.nodup_append']
      refine ⟨h.nodup, List.nodup_singleton _, ?_⟩
      rw [List.disjoint_singleton, List.mem_map]
      rintro ⟨e, he, hid⟩
      exact ((h.listed new).mp (h.mem_index_of_id (h.pending c new hnew).1 he hid)).2.1 c hnew
    | _ => exact IndexChange.nodup_apply h.nodup fun e => by simp
  case gone => exact h.gone
  case pending =>
    intro c' e hc'
    rw [hp] at hc'
    split at hc'
    · cases hc'
    · exact h.pending c' e hc'
  case pending_inj =>
    intro c₁ c₂ e h₁ h₂
    rw [hp] at h₁ h₂
    split at h₁
    · cases h₁
    · split at h₂
      · cases h₂
      · exact h.pending_inj c₁ c₂ e h₁ h₂
  case removing =>
    intro c' id hid
    rw [hr] at hid
    cases hid
  case held =>
    intro c' index' hc'
    rw [heldOf_finish] at hc'
    split at hc'
    · cases hc'
    · next hcc => exact absurd ((halone c' hcc).symm.trans hc') (by simp)
  case listed =>
    intro e
    rw [hindex', hmem]
    simp only [hp, hr]
    constructor
    · rintro ⟨hen, hp, hg⟩
      refine ⟨hen, fun c' hc' => ?_, fun hid => absurd hid hg⟩
      split at hc'
      · cases hc'
      · next hcc => exact hp c' hcc hc'
    · rintro ⟨hen, hp, hg⟩
      refine ⟨hen, fun c' hcc hc' => hp c' (by rw [if_neg hcc]; exact hc'), fun hid => ?_⟩
      obtain ⟨c', hc'⟩ := hg hid
      cases hc'
  case dirs =>
    intro x hx
    rw [hindex']
    cases h.dirs x (hdirs x hx) with
    | inl hlisted =>
      -- The directories of the entries that are dropped are gone.
      obtain ⟨e, he, rfl⟩ := hlisted
      obtain ⟨hen, hp, hg⟩ := (h.listed e).mp he
      refine .inl ⟨e, (hmem e).mpr ⟨hen, fun c' _ => hp c', fun hid => ?_⟩, rfl⟩
      obtain ⟨c', hc'⟩ := hg hid
      have hdir := (h.removing c' _ hc').2
      rw [trashIdDir, hdirs _ hx] at hdir
      cases hdir
    | inr hpending =>
      obtain ⟨c', e, hc', rfl⟩ := hpending
      by_cases hcc : c' = c
      · refine .inl ⟨e, (hmem e).mpr ⟨(h.pending c' e hc').1, fun c'' hcc' hc'' => ?_,
          (h.pending c' e hc').2⟩, rfl⟩
        exact hcc' ((h.pending_inj c'' c' e hc'' hc').trans hcc)
      · exact .inr ⟨c', e, by rw [hp, if_neg hcc]; exact hc', rfl⟩

end Steps

/-! ## Runs -/

/-- The next step of `call` loses no update: no call saves the index while another holds one
    that it has read, nothing is restored into the trash directory, and the index file itself
    is not moved to the trash. -/
def carefulCall (w : TrashWorld) (c : Nat) (call : TrashCall) : Bool :=
  match call.phase, call.op with
  | .start, .moveToTrash rel _ => decide (rel ≠ trashIndexFile)
  | .loaded index, .restoreEntryWithDest id dest =>
    decide (∀ e ∈ index, e.id = id → ¬ trashDir <+: skipCurDir (dest.getD e.originalPath))
  | .saving _ _, _ => decide (∀ c' ∈ w.calls.keys, c' ≠ c → w.heldOf c' = none)
  | _, _ => true

def Careful (w : TrashWorld) (ev : TrashEvent) : Prop :=
  match ev with
  | .call .. => True
  | .step c _ => ∀ call ∈ w.calls.get c, w.carefulCall c call = true

instance (w : TrashWorld) : (ev : TrashEvent) → Decidable (w.Careful ev)
  | .call .. => .isTrue trivial
  | .step c _ => inferInstanceAs (Decidable (∀ call ∈ w.calls.get c, w.carefulCall c call = true))

/-- The trash before any call: the index lists the directories that are there, each once. -/
structure Start (w : TrashWorld) : Prop where
  calls : ∀ c, w.calls.get c = none
  entered : w.entered = w.index
  gone : w.gone = []
  nodup : (w.index.map (·.id)).Nodup
  wf : ∀ e ∈ w.index, e.Wf ∧ w.Old e.id
  dirs : ∀ x, w.tree.isDir (trashDir ++ [x]) = true → ∃ e ∈ w.index, x = .normal e.id

/-- The index lists what was moved in and neither restored nor purged, each entry once, and
    every directory in the trash is that of a listed entry. -/
structure Exact (w : TrashWorld) : Prop where
  nodup : (w.index.map (·.id)).Nodup
  listed : ∀ e, e ∈ w.index ↔ e ∈ w.entered ∧ e.id ∉ w.gone
  dirs : ∀ x, w.tree.isDir (trashDir ++ [x]) = true → ∃ e ∈ w.index, x = .normal e.id

theorem Start.inv (h : w.Start) : w.Inv where
  wf := h.entered ▸ h.wf
  inj e he e' he' hid := by
    rw [h.entered] at he he'
    exact List.inj_on_of_nodup_map h.nodup he he' hid
  nodup := h.nodup
  gone id hid := by
    rw [h.gone] at hid
    cases hid
  pending c e hc := by simp [pendingOf, h.calls] at hc
  pending_inj c c' e hc := by simp [pendingOf, h.calls] at hc
  removing c id hid := by simp [removingOf, h.calls] at hid
  held c index hc := by simp [heldOf, h.calls] at hc
  listed e := by simp [h.entered, h.gone, pendingOf, h.calls]
  dirs x hx := .inl (h.dirs x hx)

theorem Inv.exact (h : w.Inv) (hcalls : ∀ c, w.calls.get c = none) : w.Exact where
  nodup := h.nodup
  listed e := by
    rw [h.listed e]
    simp [pendingOf, removingOf, hcalls]
  dirs x hx := by
    cases h.dirs x hx with
    | inl hlisted => exact hlisted
    | inr hpending =>
      obtain ⟨c, e, hc, -⟩ := hpending
      simp [pendingOf, hcalls] at hc

theorem Inv.begin (h : w.Inv) (hc : w.calls.get c = none) (hphase : call.phase = .start) :
    ({ w with calls := w.calls.insert c call }).Inv := by
  refine h.of_calls rfl rfl rfl rfl rfl (fun c' => ?_) (fun c' => ?_) fun c' index hheld => ?_
  · by_cases hcc : c' = c
    · simp [pendingOf, hcc, hc, hphase, TrashPhase.pending]
    · simp [pendingOf, hcc]
  · by_cases hcc : c' = c
    · simp [removingOf, hcc, hc, hphase, TrashPhase.removing]
    · simp [removingOf, hcc]
  · by_cases hcc : c' = c
    · simp [heldOf, hcc, hphase, TrashPhase.held] at hheld
    · simp only [heldOf, FinMap.get_insert, if_neg hcc] at hheld
      exact .inl hheld

theorem Inv.stepStart (h : w.Inv) {ns : Nat} (hc : w.calls.get c = some call)
    (hphase : call.phase = .start) (hns : w.bootNs ≤ ns)
    (hcareful : ∀ by_, call.op ≠ .moveToTrash trashIndexFile by_)
    (hcallable : ∀ rel by_, call.op = .moveToTrash rel by_ → rel ≠ [])
    (hstep : w.stepStart c call ns = some w') : w'.Inv := by
  have hp : call.phase.pending = none := by rw [hphase]; rfl
  have hr : call.phase.removing = [] := by rw [hphase]; rfl
  cases hop : call.op with
  | moveToTrash rel by_ =>
    simp only [TrashWorld.stepStart, hop] at hstep
    split at hstep
    · cases hstep
      exact h.finish hc hp hr
    · obtain ⟨⟨t, e⟩, hmove, rfl⟩ := Option.map_eq_some_iff.mp hstep
      have hname : trashId ns w.nextSeq ≠ "index.json" := trashId_ne (by decide)
      have hframe := moveData_frame hmove (hcallable rel by_ hop)
        (fun heq => hcareful by_ (by rw [hop, heq])) hname
      have he : e.id = trashId ns w.nextSeq ∧ e.trashRelPath = .normal e.id :: rel := by
        simp only [moveData, bind, Option.bind_eq_some_iff, pure, Option.some.injEq,
          Prod.mk.injEq] at hmove
        obtain ⟨-, -, -, -, -, rfl⟩ := hmove
        exact ⟨rfl, rfl⟩
      refine h.move hns he.1 ⟨he.1 ▸ hname, rel, hcallable rel by_ hop, he.2⟩ (he.1 ▸ hframe) rfl
        rfl rfl rfl (by rw [pendingOf_eq hc, hp]) (fun c' => pendingOf_setPhase _ c c' call _)
        (fun c' => ?_) fun c' index hheld => ?_
      · rw [removingOf_setPhase]
        split
        · next hcc => rw [hcc, removingOf_eq hc, hr]; rfl
        · rfl
      · rw [heldOf_setPhase] at hheld
        split at hheld
        · cases hheld
        · exact hheld
  | _ =>
    simp only [TrashWorld.stepStart, hop] at hstep
    split at hstep
    · cases hstep
      exact h.finish hc hp hr
    · split at hstep
      · cases hstep
      · cases hstep
        exact h.load hc (by rw [hp]; rfl) (by rw [hr]; rfl) rfl

/-- The entries whose data `purge_entry`, `purge_expired` and `empty` remove are listed. -/
theorem mem_of_changeOf {index : List TrashEntry} {change : IndexChange}
    (h : w.changeOf call index = some change) :
    (∀ id ∈ change.removed index, ∃ e ∈ index, e.id = id) ∧ ∀ e, change ≠ .push e := by
  cases hop : call.op with
  | purgeEntry id =>
    simp only [changeOf, hop] at h
    split at h
    · next hany =>
      cases h
      obtain ⟨e, he, hid⟩ := List.any_eq_true.mp hany
      refine ⟨fun id' hid' => ⟨e, he, ?_⟩, fun e => by simp⟩
      rw [List.mem_singleton.mp hid']
      simpa using hid
    · cases h
  | purgeExpired =>
    simp only [changeOf, hop] at h
    split at h
    · split at h
      · cases h
        refine ⟨fun id hid => ?_, fun e => by simp⟩
        obtain ⟨e, he, rfl⟩ := List.mem_map.mp hid
        exact ⟨e, List.mem_of_mem_filter he, rfl⟩
      · cases h
    · cases h
  | empty =>
    simp only [changeOf, hop, Option.some.injEq] at h
    subst h
    refine ⟨fun id hid => ?_, fun e => by simp⟩
    obtain ⟨e, he, rfl⟩ := List.mem_map.mp hid
    exact ⟨e, he, rfl⟩
  | moveToTrash rel by_ => simp [changeOf, hop] at h
  | restoreEntryWithDest id dest => simp [changeOf, hop] at h

/-- A call that holds the index removes data and goes on to save it. -/
theorem Inv.setSaving (h : w.Inv) {index : List TrashEntry} {change : IndexChange} {t : TrashTree}
    (hc : w.calls.get c = some call) (hphase : call.phase = .loaded index)
    (hframe : EntriesKept w.tree t none) (hids : ∀ id ∈ change.removed index, ∃ e ∈ index, e.id = id)
    (hpush : ∀ e, change ≠ .push e)
    (hremoved : ∀ id ∈ change.removed index, t.isDir (trashIdDir id) = false) :
    ({ w with tree := t, gone := w.gone ++ change.removed index }.setPhase c call
      (.saving index change)).Inv := by
  have hindex : index = w.index := h.held c index (by rw [heldOf_eq hc, hphase]; rfl)
  have hlisted : ∀ id ∈ change.removed index, ∃ e ∈ w.index, e.id = id := by
    rw [← hindex]
    exact hids
  refine h.remove (c := c) hlisted hframe hremoved rfl rfl rfl rfl
    (by rw [removingOf_eq hc, hphase]; rfl) (fun c' => ?_)
    (fun c' => removingOf_setPhase _ c c' call _) fun c' index' hheld => ?_
  · rw [pendingOf_setPhase]
    split
    · next hcc =>
      rw [hcc, pendingOf_eq hc, hphase]
      cases hchange : change with
      | push e => exact absurd hchange (hpush e)
      | _ => rfl
    · rfl
  · rw [heldOf_setPhase] at hheld
    split at hheld
    · next hcc =>
      rw [hcc, heldOf_eq hc, hphase]
      exact hheld
    · exact hheld

theorem Inv.stepLoaded (h : w.Inv) {ns : Nat} {index : List TrashEntry}
    (hc : w.calls.get c = some call) (hphase : call.phase = .loaded index)
    (hcareful : ∀ id dest, call.op = .restoreEntryWithDest id dest →
      ∀ e ∈ index, e.id = id → ¬ trashDir <+: skipCurDir (dest.getD e.originalPath))
    (hstep : w.stepLoaded c call ns index = some w') : w'.Inv := by
  have hindex : index = w.index := h.held c index (by rw [heldOf_eq hc, hphase]; rfl)
  have hwf : ∀ e ∈ index, e.Wf := fun e he => (h.wf e (h.mem_entered (hindex ▸ he))).1
  have hfinish : (w.finish c).Inv :=
    h.finish hc (by rw [hphase]; rfl) (by rw [hphase]; rfl)
  cases hop : call.op with
  | restoreEntryWithDest id dest =>
    simp only [TrashWorld.stepLoaded, hop] at hstep
    obtain ⟨res, hrestore, rfl⟩ := Option.map_eq_some_iff.mp hstep
    cases res with
    | error err => exact hfinish
    | ok res =>
      obtain ⟨t, destRel⟩ := res
      have hframe := restoreData_frame hrestore (fun e he => ⟨(hwf e he).id_ne, (hwf e he).path⟩)
        (hcareful id dest hop)
      obtain ⟨e, -, he, hid, -, -, -, t₁, t₂, -, -, hremove⟩ := restoreData_ok hrestore
      have hlisted : ∀ id' ∈ (IndexChange.remove id).removed index, ∃ e ∈ index, e.id = id' :=
        fun id' hid' => ⟨e, he, hid.trans (List.mem_singleton.mp hid').symm⟩
      exact h.setSaving hc hphase hframe hlisted (fun e => by simp) fun id' hid' =>
        removeData_isDir hremove hid'
  | _ =>
    simp only [TrashWorld.stepLoaded, hop] at hstep
    cases hchange : w.changeOf call index with
    | none =>
      rw [hchange] at hstep
      cases hstep
      exact hfinish
    | some change =>
      rw [hchange] at hstep
      obtain ⟨t, hremove, rfl⟩ := Option.map_eq_some_iff.mp hstep
      obtain ⟨hids, hpush⟩ := mem_of_changeOf hchange
      refine h.setSaving hc hphase (removeData_frame hremove fun id hid => ?_) hids hpush
        fun id hid => removeData_isDir hremove hid
      obtain ⟨e, he, rfl⟩ := hids id hid
      exact (hwf e he).id_ne

/-- Every call that runs has an argument that its callers pass. -/
def Callable (w : TrashWorld) : Prop :=
  ∀ c call, w.calls.get c = some call → callable call.op = true

theorem Inv.step (h : w.Inv) (hcall : w.Callable) {ev : TrashEvent} (hcareful : w.Careful ev)
    (hstep : w.step ev = some w') : w'.Inv := by
  cases ev with
  | call c manager op ns =>
    simp only [TrashWorld.step] at hstep
    split at hstep
    · next hc =>
      cases hstep
      exact h.begin hc.1 rfl
    · cases hstep
  | step c ns =>
    simp only [TrashWorld.step] at hstep
    split at hstep
    · cases hstep
    · next hns =>
      obtain ⟨call, hc, hstep⟩ := Option.bind_eq_some_iff.mp hstep
      have hcareful := hcareful call hc
      rw [carefulCall] at hcareful
      cases hphase : call.phase with
      | start =>
        simp only [stepCall, hphase] at hstep
        refine h.stepStart hc hphase (Nat.not_lt.mp hns) (fun by_ hop => ?_)
          (fun rel by_ hop => ?_) hstep
        · simp [hphase, hop] at hcareful
        · have hok := hcall c call hc
          simp only [hop, callable, Bool.and_eq_true, decide_eq_true_eq] at hok
          exact hok.2
      | moved entry =>
        simp only [stepCall, hphase] at hstep
        split at hstep
        · cases hstep
        · cases hstep
          exact h.load hc (by rw [hphase]; rfl) (by rw [hphase]; rfl) rfl
      | loaded index =>
        simp only [stepCall, hphase] at hstep
        refine h.stepLoaded hc hphase (fun id dest hop => ?_) hstep
        rw [hphase, hop] at hcareful
        exact of_decide_eq_true hcareful
      | saving index change =>
        simp only [stepCall, hphase] at hstep
        obtain ⟨t, hsave, rfl⟩ := Option.map_eq_some_iff.mp hstep
        obtain ⟨hindex, hdirs⟩ := saveIndex_spec hsave
        rw [hphase] at hcareful
        refine h.save hc hphase (fun c' hcc => ?_) hindex hdirs
        by_cases hrunning : c' ∈ w.calls.keys
        · exact of_decide_eq_true hcareful c' hrunning hcc
        · simp [heldOf, FinMap.get_eq_none_iff.mpr hrunning]

/-- A step changes the calls only by adding one, moving one on or ending one. -/
theorem calls_step {ev : TrashEvent} (hstep : w.step ev = some w') (c : Nat) (call' : TrashCall)
    (hc : w'.calls.get c = some call') :
    (∃ call, w.calls.get c = some call ∧ call'.op = call.op) ∨ callable call'.op = true := by
  have hset : ∀ (w₀ : TrashWorld) c₀ call₀ phase, w' = w₀.setPhase c₀ call₀ phase →
      w₀.calls = w.calls → w.calls.get c₀ = some call₀ →
      ∃ call, w.calls.get c = some call ∧ call'.op = call.op := by
    intro w₀ c₀ call₀ phase heq hcalls hget
    rw [heq, setPhase, hcalls, FinMap.get_insert] at hc
    split at hc
    · next hcc =>
      cases hc
      exact ⟨call₀, hcc ▸ hget, rfl⟩
    · exact ⟨call', hc, rfl⟩
  have hend : ∀ (w₀ : TrashWorld) c₀, w₀.calls = w.calls → w' = w₀.finish c₀ →
      ∃ call, w.calls.get c = some call ∧ call'.op = call.op := by
    intro w₀ c₀ hcalls heq
    rw [heq, finish, hcalls, FinMap.get_erase] at hc
    split at hc
    · cases hc
    · exact ⟨call', hc, rfl⟩
  cases ev with
  | call c₀ manager op ns =>
    simp only [TrashWorld.step] at hstep
    split at hstep
    · next hok =>
      cases hstep
      rw [FinMap.get_insert] at hc
      split at hc
      · cases hc
        exact .inr hok.2
      · exact .inl ⟨call', hc, rfl⟩
    · cases hstep
  | step c₀ ns =>
    left
    simp only [TrashWorld.step] at hstep
    split at hstep
    · cases hstep
    · obtain ⟨call, hget, hstep⟩ := Option.bind_eq_some_iff.mp hstep
      cases hphase : call.phase with
      | start =>
        simp only [stepCall, hphase, TrashWorld.stepStart] at hstep
        split at hstep
        · split at hstep
          · cases hstep
            exact hend w c₀ rfl rfl
          · obtain ⟨⟨t, e⟩, -, heq⟩ := Option.map_eq_some_iff.mp hstep
            exact hset _ c₀ call _ heq.symm rfl hget
        · split at hstep
          · cases hstep
            exact hend w c₀ rfl rfl
          · split at hstep
            · cases hstep
            · cases hstep
              exact hset w c₀ call _ rfl rfl hget
      | moved entry =>
        simp only [stepCall, hphase] at hstep
        split at hstep
        · cases hstep
        · cases hstep
          exact hset w c₀ call _ rfl rfl hget
      | loaded index =>
        simp only [stepCall, hphase, TrashWorld.stepLoaded] at hstep
        split at hstep
        · obtain ⟨res, -, heq⟩ := Option.map_eq_some_iff.mp hstep
          cases res with
          | error err => exact hend w c₀ rfl heq.symm
          | ok res =>
            obtain ⟨t, dest⟩ := res
            exact hset _ c₀ call _ heq.symm rfl hget
        · cases hchange : w.changeOf call index with
          | none =>
            rw [hchange] at hstep
            cases hstep
            exact hend w c₀ rfl rfl
          | some change =>
            rw [hchange] at hstep
            obtain ⟨t, -, heq⟩ := Option.map_eq_some_iff.mp hstep
            exact hset _ c₀ call _ heq.symm rfl hget
      | saving index change =>
        simp only [stepCall, hphase] at hstep
        obtain ⟨t, -, heq⟩ := Option.map_eq_some_iff.mp hstep
        exact hend { w with tree := t } c₀ rfl heq.symm

/-- In a run of careful steps from a consistent trash the index is exact whenever no call is
    running. -/
theorem index_exact {evs : List TrashEvent} (hstart : w.Start)
    (hcareful : Run.StepsMeet step Careful w evs) (hrun : Run.runFrom step w evs = some w') :
    Run.Always step (fun v => (∀ c, v.calls.get c = none) → v.Exact) w evs := by
  have hinv : Run.Always step (fun v => v.Inv ∧ v.Callable) w evs := by
    refine Run.always_of_stepsMeet (fun v ev v' hv hmeet hstep => ?_) ?_ hcareful hrun
    · refine ⟨hv.1.step hv.2 hmeet hstep, fun c call' hc => ?_⟩
      cases calls_step hstep c call' hc with
      | inl hold =>
        obtain ⟨call, hget, hop⟩ := hold
        exact hop ▸ hv.2 c call hget
      | inr hok => exact hok
    · refine ⟨hstart.inv, fun c call hc => ?_⟩
      rw [hstart.calls] at hc
      cases hc
  intro evs' v hpre hv hcalls
  exact (hinv evs' v hpre hv).1.exact hcalls

/-! Two components move a file to the trash at the same time. -/

/-- The files `a` and `b`, and no trash yet. -/
def twoFiles : TrashWorld where
  tree := ⟨.insert (.insert .empty [.normal "a"] (.file (.bytes [1]) 0)) [.normal "b"]
      (.file (.bytes [2]) 0), by
    intro p n h
    simp only [FinMap.get_insert, FinMap.get_empty] at h
    split at h
    · next hp => simp [hp]
    · split at h
      · next hp => simp [hp]
      · cases h⟩
  expiryDays _ := none
  bootNs := 0
  nextSeq := 0
  calls := .empty
  entered := []
  gone := []

theorem twoFiles_start : twoFiles.Start where
  calls c := rfl
  entered := rfl
  gone := rfl
  nodup := List.nodup_nil
  wf e he := by cases he
  dirs x hx := by
    have hget : twoFiles.tree.get (trashDir ++ [x]) = none := by
      simp [twoFiles, FileTree.get, trashDir, PathBuf.ofNames]
    rw [FileTree.isDir_concat, hget] at hx
    cases hx

/-- Each of the two reads the index before the other saves it. -/
def bothMove : List TrashEvent :=
  [.call 0 0 (.moveToTrash [.normal "a"] "filebrowser") 0,
    .call 1 1 (.moveToTrash [.normal "b"] "node") 0,
    .step 0 1, .step 1 2, .step 0 3, .step 1 4, .step 0 5, .step 1 6]

/-- The second index that is saved lacks the entry of the first. -/
theorem two_managers : ¬ ∀ (w : TrashWorld) (evs : List TrashEvent) (w' : TrashWorld),
    w.Start → Run.runFrom step w evs = some w' → (∀ c, w'.calls.get c = none) → w'.Exact := by
  intro h
  have hrun : (Run.runFrom step twoFiles bothMove).map
      (fun w => (w.index.map (·.id), w.entered.map (·.id), w.gone, decide (w.calls.keys = ∅)))
      = some ([trashId 2 1], [trashId 1 0, trashId 2 1], [], true) := by decide +kernel
  obtain ⟨w', hw', hres⟩ := Option.map_eq_some_iff.mp hrun
  simp only [Prod.mk.injEq, decide_eq_true_eq] at hres
  obtain ⟨hindex, hentered, hgone, hcalls⟩ := hres
  have hexact := h twoFiles bothMove w' twoFiles_start hw' (FinMap.keys_eq_empty_iff.mp hcalls)
  have hmem : trashId 1 0 ∈ w'.entered.map (·.id) := by rw [hentered]; exact List.mem_cons_self ..
  obtain ⟨e, he, hid⟩ := List.mem_map.mp hmem
  have hlisted : e ∈ w'.index := (hexact.listed e).mpr ⟨he, by rw [hgone]; exact List.not_mem_nil⟩
  have hlost : e.id ∈ w'.index.map (·.id) := List.mem_map.mpr ⟨e, hlisted, rfl⟩
  rw [hindex, hid, List.mem_singleton] at hlost
  exact absurd (trashId_seq_eq hlost) (by decide)

/-- The two calls one after the other. -/
def eachMoves : List TrashEvent :=
  [.call 0 0 (.moveToTrash [.normal "a"] "filebrowser") 0,
    .call 1 1 (.moveToTrash [.normal "b"] "node") 0,
    .step 0 1, .step 1 2, .step 0 3, .step 0 4, .step 1 5, .step 1 6]

theorem index_exact_eachMoves :
    Run.Always step (fun v => (∀ c, v.calls.get c = none) → v.Exact) twoFiles eachMoves := by
  have hrun : (Run.runFrom step twoFiles eachMoves).isSome = true := by decide +kernel
  obtain ⟨w', hw'⟩ := Option.isSome_iff_exists.mp hrun
  have hcareful : Run.meets step Careful twoFiles eachMoves = true := by decide +kernel
  exact index_exact twoFiles_start (Run.stepsMeet_of_meets hcareful) hw'

end TrashWorld

end ByteHive
