import ByteHive.ForStd.FileTree

/-!
# What a change of a tree leaves alone

`Within changed placed now t t'` bounds a change from both sides: what was there stays but where
`changed` says, and what is there then is of the time `now` or was there before but where `placed`
says. Each operation has its bounds, and changes after each other have common ones.
-/

universe u v

namespace FileTree

variable {κ : Type u} {β : Type v}

section

variable [DecidableEq κ]

/-- What is below `p` is removed, but not `p` itself. -/
def removeBelow (t : FileTree κ β) (p : List κ) : FileTree κ β :=
  ⟨t.nodes.filter fun q _ => !decide (p <+: q ∧ q ≠ p), by
    intro q n h
    simp only [FinMap.get_filter, Option.filter_eq_some_iff, Bool.not_eq_true',
      decide_eq_false_iff_not, not_and, not_not] at h
    obtain ⟨hq, hbelow⟩ := h
    refine ⟨(t.closed q n hq).1, (t.closed q n hq).2.imp_right fun ⟨d, hd, hdir⟩ => ⟨d, ?_, hdir⟩⟩
    have hparent : p <+: q.dropLast → q.dropLast = p := by
      intro hpre
      have heq := hbelow (hpre.trans (List.dropLast_prefix q))
      exact absurd (heq ▸ hpre) (not_prefix_dropLast (heq ▸ (t.closed q n hq).1))
    simpa [hd] using not_or_of_imp hparent⟩

theorem get_removeBelow (t : FileTree κ β) (p q : List κ) :
    (t.removeBelow p).get q = if p <+: q ∧ q ≠ p then none else t.get q := by
  show (t.nodes.get q).filter _ = _
  by_cases h : p <+: q ∧ q ≠ p
  · simp [h]
  · have hkeep : ∀ o : Option (FileNode β),
        o.filter (fun _ => !decide (p <+: q ∧ q ≠ p)) = o := by
      intro o
      cases o <;> simp [h]
    rw [hkeep, if_neg h]
    rfl

/-- Only directories are made. -/
theorem isFile_createDirAll {t t' : FileTree κ β} {now : Nat} {p : List κ}
    (h : t.createDirAll now p = some t') (q : List κ) : t'.isFile q = t.isFile q := by
  rw [isFile, isFile, get_createDirAll h]
  split
  · next hnew =>
    rw [hnew.2.2]
    rfl
  · rfl

end

structure Within (changed placed : List κ → Prop) (now : Nat) (t t' : FileTree κ β) : Prop where
  keeps : ∀ q n, t.get q = some n → ¬changed q → t'.get q = some n
  only : ∀ q n, t'.get q = some n → ¬placed q → n.mtime = now ∨ t.get q = some n

namespace Within

variable {changed placed changed' placed' : List κ → Prop} {now : Nat}
variable {t t' t'' : FileTree κ β}

theorem refl (changed placed : List κ → Prop) (now : Nat) (t : FileTree κ β) :
    Within changed placed now t t :=
  ⟨fun _ _ h _ => h, fun _ _ h _ => .inr h⟩

theorem trans (h : Within changed placed now t t') (h' : Within changed placed now t' t'') :
    Within changed placed now t t'' := by
  refine ⟨fun q n hq hout => h'.keeps q n (h.keeps q n hq hout) hout, fun q n hq hout => ?_⟩
  obtain hnow | hq := h'.only q n hq hout
  · exact .inl hnow
  · exact h.only q n hq hout

theorem mono (h : Within changed placed now t t') (hc : ∀ q, changed q → changed' q)
    (hp : ∀ q, placed q → placed' q) : Within changed' placed' now t t' :=
  ⟨fun q n hq hout => h.keeps q n hq fun hin => hout (hc q hin),
    fun q n hq hout => h.only q n hq fun hin => hout (hp q hin)⟩

variable [DecidableEq κ] {p f g : List κ}

/-- A directory stays one. -/
theorem isDir_of_isDir (h : Within changed placed now t t') (hp : ¬changed p)
    (hdir : t.isDir p = true) : t'.isDir p = true := by
  simp only [isDir, Bool.or_eq_true, decide_eq_true_eq, Option.any_eq_true] at hdir ⊢
  obtain hroot | ⟨n, hn, hdir⟩ := hdir
  · exact .inl hroot
  · exact .inr ⟨n, h.keeps p n hn hp, hdir⟩

theorem createDirAll (h : t.createDirAll now p = some t') :
    Within (fun _ => False) (fun _ => False) now t t' := by
  constructor
  · intro q n hq _
    rw [get_createDirAll h, hq]
    simp
  · intro q n hq _
    rw [get_createDirAll h] at hq
    split at hq
    · cases hq
      exact .inl rfl
    · exact .inr hq

theorem write {data : β} (h : t.write p data now = some t') :
    Within (fun q => q = p) (fun _ => False) now t t' := by
  constructor
  · intro q n hq hout
    rw [get_write h, if_neg hout, hq]
  · intro q n hq _
    rw [get_write h] at hq
    split at hq
    · cases hq
      exact .inl rfl
    · exact .inr hq

theorem removeTree (t : FileTree κ β) (now : Nat) (p : List κ) :
    Within (fun q => p <+: q) (fun _ => False) now t (t.removeTree p) := by
  constructor
  · intro q n hq hout
    rw [get_removeTree, if_neg hout, hq]
  · intro q n hq _
    rw [get_removeTree] at hq
    split at hq
    · cases hq
    · exact .inr hq

theorem rename (now : Nat) (h : t.rename f g = some t') :
    Within (fun q => f <+: q ∨ g <+: q) (fun q => g <+: q) now t t' := by
  by_cases hfg : f = g
  · rw [FileTree.rename, if_pos hfg] at h
    split at h
    · cases h
      exact refl _ _ now t
    · cases h
  · constructor
    · intro q n hq hout
      rw [not_or] at hout
      rw [get_rename hfg h, movedGet, if_neg hout.2, if_neg hout.1, hq]
    · intro q n hq hout
      rw [get_rename hfg h, movedGet, if_neg hout] at hq
      split at hq
      · cases hq
      · exact .inr hq

end Within

end FileTree
