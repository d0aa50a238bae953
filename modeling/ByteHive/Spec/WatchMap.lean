import ByteHive.ForStd.Run
import ByteHive.Native.Watcher

/-!
# The watcher's map

Users change the directories below the root while the watcher works through the events.
A directory is `Settled` when the watcher knows it by its current path. Otherwise it has
to be `Due`: an event is queued about it, or about a directory above it in its present
place, on a descriptor that is still the parent's, and the watcher will list that place
when it comes to the event.

Every operation of the users leaves each directory settled or due, and so does the
watcher, except in two places: a self event drops the watch of the directory, and the
second half of a move renames map entries by prefix.

## Key results

- `inv_step`: what one step keeps, under `Rewatched` for the two places
- `watch_map_complete`: whenever no event is left, every directory is watched and mapped
  to its current path
-/

namespace ByteHive

/-! ## Moved and grafted entries -/

namespace Disk

theorem get_move (d : Disk) (f g q : PathBuf) :
    (d.move f g).get q = if g <+: q then d.get (f ++ q.drop g.length)
      else if f <+: q then none else d.get q := by
  refine FinMap.get_ofKeys_of_support (fun q hq => ?_) q
  rw [Finset.mem_union, Finset.mem_image]
  by_cases hg : g <+: q
  · rw [if_pos hg] at hq
    obtain ⟨r, rfl⟩ := hg
    rw [List.drop_left] at hq
    exact .inr ⟨f ++ r, (d.mem_keys _).mpr hq, by rw [List.drop_left]⟩
  · rw [if_neg hg] at hq
    split at hq
    · cases hq
    · exact .inl ((d.mem_keys q).mpr hq)

theorem get_graft (d : Disk) (p : PathBuf) (sub : Disk) (q : PathBuf) :
    (d.graft p sub).get q = if p <+: q then sub.get (q.drop p.length) else d.get q := by
  refine FinMap.get_ofKeys_of_support (fun q hq => ?_) q
  rw [Finset.mem_union, Finset.mem_image]
  by_cases hp : p <+: q
  · rw [if_pos hp] at hq
    obtain ⟨r, rfl⟩ := hp
    rw [List.drop_left] at hq
    exact .inr ⟨r, (sub.mem_keys r).mpr hq, rfl⟩
  · rw [if_neg hp] at hq
    exact .inl ((d.mem_keys q).mpr hq)

theorem isDir_iff {d : Disk} {p : PathBuf} :
    d.isDir p = true ↔ ∃ n, d.get p = some n ∧ n.isDir = true := by
  unfold isDir
  cases d.get p <;> simp

theorem mem_dirsBelow {d : Disk} {p q : PathBuf} :
    q ∈ d.dirsBelow p ↔ p <+: q ∧ d.isDir q = true := by
  unfold dirsBelow
  rw [Finset.mem_filter, d.mem_keys]
  refine ⟨fun h => h.2, fun h => ⟨?_, h⟩⟩
  obtain ⟨n, hn, -⟩ := isDir_iff.mp h.2
  rw [hn]
  rfl

theorem nothingBelow_iff {d : Disk} {p : PathBuf} :
    d.nothingBelow p = true ↔ ∀ q n, d.get q = some n → p <+: q → q = p := by
  unfold nothingBelow
  rw [decide_eq_true_eq]
  refine ⟨fun h q n hq => h q (FinMap.mem_keys_of_get hq), fun h q hq => ?_⟩
  obtain ⟨n, hn⟩ := Option.isSome_iff_exists.mp ((d.mem_keys q).mp hq)
  exact h q n hn

theorem unused_iff {d : Disk} {num : Nat} :
    d.unused num = true ↔ ∀ q n, d.get q = some n → n.num ≠ num := by
  unfold unused
  rw [decide_eq_true_eq]
  constructor
  · intro h q n hq heq
    have hne := h q (FinMap.mem_keys_of_get hq)
    rw [hq, Option.map_some, heq] at hne
    exact hne rfl
  · intro h q hq
    obtain ⟨n, hn⟩ := Option.isSome_iff_exists.mp ((d.mem_keys q).mp hq)
    rw [hn, Option.map_some]
    exact fun heq => h q n hn (Option.some.inj heq)

/-- Every inode has one name, and the root is a directory. -/
structure Valid (d : Disk) : Prop where
  root : d.isDir [] = true
  distinct : ∀ p q m n, d.get p = some m → d.get q = some n → m.num = n.num → p = q

theorem Valid.insert {d : Disk} (h : d.Valid) {p : PathBuf} {n : Inode} (hp : p ≠ [])
    (hunused : ∀ q m, d.get q = some m → m.num ≠ n.num) :
    Valid (d.insert p n) where
  root := by
    obtain ⟨r, hr, hdir⟩ := isDir_iff.mp h.root
    exact isDir_iff.mpr ⟨r, by rw [FinMap.get_insert, if_neg (Ne.symm hp), hr], hdir⟩
  distinct q r m m' hq hr hnum := by
    rw [FinMap.get_insert] at hq hr
    split at hq
    · next hqp =>
      split at hr
      · next hrp => rw [hqp, hrp]
      · cases hq
        exact absurd hnum.symm (hunused r m' hr)
    · split at hr
      · cases hr
        exact absurd hnum (hunused q m hq)
      · exact h.distinct q r m m' hq hr hnum

theorem Valid.erase {d : Disk} (h : d.Valid) {p : PathBuf} (hp : p ≠ []) :
    Valid (d.erase p) where
  root := by
    obtain ⟨r, hr, hdir⟩ := isDir_iff.mp h.root
    exact isDir_iff.mpr ⟨r, by rw [FinMap.get_erase, if_neg (Ne.symm hp), hr], hdir⟩
  distinct q r m m' hq hr hnum := by
    rw [FinMap.get_erase] at hq hr
    split at hq
    · cases hq
    · split at hr
      · cases hr
      · exact h.distinct q r m m' hq hr hnum

theorem Valid.graft {d : Disk} (h : d.Valid) {p : PathBuf} {sub : Disk} (hp : p ≠ [])
    (hunused : ∀ q m, sub.get q = some m → ∀ r m', d.get r = some m' → m'.num ≠ m.num)
    (hdistinct : ∀ q r m m', sub.get q = some m → sub.get r = some m' → m.num = m'.num → q = r) :
    Valid (d.graft p sub) where
  root := by
    obtain ⟨r, hr, hdir⟩ := isDir_iff.mp h.root
    refine isDir_iff.mpr ⟨r, ?_, hdir⟩
    rw [get_graft, if_neg (fun hpre => hp (List.prefix_nil.mp hpre)), hr]
  distinct q r m m' hq hr hnum := by
    rw [get_graft] at hq hr
    by_cases hpq : p <+: q
    · rw [if_pos hpq] at hq
      by_cases hpr : p <+: r
      · rw [if_pos hpr] at hr
        have hdrop := hdistinct _ _ m m' hq hr hnum
        obtain ⟨t, rfl⟩ := hpq
        obtain ⟨u, rfl⟩ := hpr
        rw [List.drop_left, List.drop_left] at hdrop
        rw [hdrop]
      · rw [if_neg hpr] at hr
        exact absurd hnum.symm (hunused _ m hq r m' hr)
    · rw [if_neg hpq] at hq
      by_cases hpr : p <+: r
      · rw [if_pos hpr] at hr
        exact absurd hnum (hunused _ m' hr q m hq)
      · rw [if_neg hpr] at hr
        exact h.distinct q r m m' hq hr hnum

/-- Where an entry was before the move of `f` to `g`. -/
theorem get_of_get_move {d : Disk} {f g q : PathBuf} {n : Inode}
    (h : (d.move f g).get q = some n) :
    (∃ r, q = g ++ r ∧ d.get (f ++ r) = some n) ∨
      (¬ g <+: q ∧ ¬ f <+: q ∧ d.get q = some n) := by
  rw [get_move] at h
  by_cases hg : g <+: q
  · rw [if_pos hg] at h
    obtain ⟨r, rfl⟩ := hg
    rw [List.drop_left] at h
    exact .inl ⟨r, rfl, h⟩
  · rw [if_neg hg] at h
    split at h
    · cases h
    · next hf => exact .inr ⟨hg, hf, h⟩

theorem get_move_of_not {d : Disk} {f g q : PathBuf} (hg : ¬ g <+: q) (hf : ¬ f <+: q) :
    (d.move f g).get q = d.get q := by
  rw [get_move, if_neg hg, if_neg hf]

theorem get_move_append (d : Disk) (f g r : PathBuf) :
    (d.move f g).get (g ++ r) = d.get (f ++ r) := by
  rw [get_move, if_pos (List.prefix_append g r), List.drop_left]

theorem Valid.move {d : Disk} (h : d.Valid) {f g : PathBuf} (hf : f ≠ []) (hg : g ≠ []) :
    Valid (d.move f g) where
  root := by
    obtain ⟨r, hr, hdir⟩ := isDir_iff.mp h.root
    refine isDir_iff.mpr ⟨r, ?_, hdir⟩
    rw [get_move_of_not (fun hpre => hg (List.prefix_nil.mp hpre))
      (fun hpre => hf (List.prefix_nil.mp hpre)), hr]
  distinct q r m m' hq hr hnum := by
    cases get_of_get_move hq with
    | inl hmoved =>
      obtain ⟨t, rfl, ht⟩ := hmoved
      cases get_of_get_move hr with
      | inl hmoved' =>
        obtain ⟨u, rfl, hu⟩ := hmoved'
        have htu := h.distinct _ _ m m' ht hu hnum
        rw [List.append_cancel_left htu]
      | inr hstays =>
        have htr := h.distinct _ _ m m' ht hstays.2.2 hnum
        exact absurd (htr ▸ List.prefix_append f t) hstays.2.1
    | inr hstays =>
      cases get_of_get_move hr with
      | inl hmoved =>
        obtain ⟨u, rfl, hu⟩ := hmoved
        have hqu := h.distinct _ _ m m' hstays.2.2 hu hnum
        exact absurd (hqu ▸ List.prefix_append f u) hstays.2.1
      | inr hstays' => exact h.distinct q r m m' hstays.2.2 hstays'.2.2 hnum

theorem vacant_iff {d : Disk} {p : PathBuf} :
    d.vacant p = true ↔ p ≠ [] ∧ d.isDir p.dropLast = true ∧ d.get p = none := by
  simp [vacant, and_assoc]

end Disk

namespace WatchedRoot

/-! ## Settled and due directories -/

/-- The watcher knows the directory at `p` by its current path. -/
def Settled (s : WatchedRoot) (p : PathBuf) : Prop :=
  ∃ n wd, s.disk.get p = some n ∧ n.isDir = true ∧ s.inotify.watches.get n.num = some wd ∧
    s.wdMap.get wd = some p

/-- The event makes the watcher list `a ++ [c]` if it takes its descriptor for `a`. -/
structure Announces (ev : InotifyEvent) (c : Component) : Prop where
  isDir : ev.isDir = true
  name : ev.name = some c
  mask : ev.mask = .create ∨ ev.mask = .movedTo

/-- The event announces an entry of the directory at `a`, on the descriptor of that directory,
    and `p` is this entry or lies below it. -/
def Reaches (s : WatchedRoot) (ev : InotifyEvent) (p : PathBuf) : Prop :=
  ∃ a c n, a ++ [c] <+: p ∧ s.disk.get a = some n ∧ n.isDir = true ∧
    s.inotify.watches.get n.num = some ev.wd ∧ Announces ev c

/-- One of the events reaches `p`. -/
def Due (s : WatchedRoot) (events : List InotifyEvent) (p : PathBuf) : Prop :=
  ∃ ev ∈ events, s.Reaches ev p

/-- Descriptors and inodes: what holds between the kernel's side and the map. -/
structure Base (s : WatchedRoot) : Prop where
  valid : s.disk.Valid
  own : ∀ a b wd, s.inotify.watches.get a = some wd → s.inotify.watches.get b = some wd → a = b
  live : ∀ num wd, s.inotify.watches.get num = some wd →
    ∃ p n, s.disk.get p = some n ∧ n.isDir = true ∧ n.num = num
  known : ∀ num wd, s.inotify.watches.get num = some wd → (s.wdMap.get wd).isSome = true
  below : ∀ num wd, s.inotify.watches.get num = some wd → wd < s.inotify.nextWd
  queued : ∀ ev ∈ s.inotify.queue, ev.wd < s.inotify.nextWd
  gone : ∀ ev ∈ s.inotify.queue, ev.mask = .ignored ∨ ev.mask = .deleteSelf →
    ∀ num, s.inotify.watches.get num ≠ some ev.wd

/-- Every directory is settled or due. -/
structure WatchInv (s : WatchedRoot) : Prop where
  base : s.Base
  tracked : ∀ p, s.disk.isDir p = true → s.Settled p ∨ s.Due s.inotify.queue p

variable {s s' : WatchedRoot} {p q : PathBuf} {ev : InotifyEvent} {events : List InotifyEvent}

theorem Reaches.mono (h : s.Reaches ev p) (hpq : p <+: q) : s.Reaches ev q := by
  obtain ⟨a, c, n, hac, hrest⟩ := h
  exact ⟨a, c, n, hac.trans hpq, hrest⟩

theorem Due.mono (h : s.Due events p) (hpq : p <+: q) : s.Due events q := by
  obtain ⟨ev, hev, hreach⟩ := h
  exact ⟨ev, hev, hreach.mono hpq⟩

theorem Due.subset {events' : List InotifyEvent} (h : s.Due events p)
    (hsub : ∀ ev ∈ events, ev ∈ events') : s.Due events' p := by
  obtain ⟨ev, hev, hreach⟩ := h
  exact ⟨ev, hsub ev hev, hreach⟩

theorem due_cons {rest : List InotifyEvent} (h : s.Due (ev :: rest) p) :
    s.Reaches ev p ∨ s.Due rest p := by
  obtain ⟨ev', hev', hreach⟩ := h
  cases List.mem_cons.mp hev' with
  | inl heq => exact .inl (heq ▸ hreach)
  | inr hmem => exact .inr ⟨ev', hmem, hreach⟩

/-- An event reaches what it reached when the directories above `p` are still there with their
    watches. -/
theorem Reaches.congr (h : s.Reaches ev p)
    (hkeep : ∀ a n, a <+: p → a ≠ p → s.disk.get a = some n →
      s.inotify.watches.get n.num = some ev.wd →
      s'.disk.get a = some n ∧ s'.inotify.watches.get n.num = some ev.wd) : s'.Reaches ev p := by
  obtain ⟨a, c, n, hac, hget, hdir, hwatch, hann⟩ := h
  have hne : a ≠ p := by
    rintro rfl
    have hlen := hac.length_le
    simp at hlen
  obtain ⟨hget', hwatch'⟩ := hkeep a n ((List.prefix_append a [c]).trans hac) hne hget hwatch
  exact ⟨a, c, n, hac, hget', hdir, hwatch', hann⟩

theorem Settled.isDir (h : s.Settled p) : s.disk.isDir p = true := by
  obtain ⟨n, wd, hget, hdir, -⟩ := h
  exact Disk.isDir_iff.mpr ⟨n, hget, hdir⟩

/-! ## The users' operations -/

theorem mem_entryEvent {k : Inotify} {d : Disk} {mask : EventMask} {isDir : Bool} {cookie : Nat} :
    ev ∈ k.entryEvent d p mask isDir cookie ↔
      ∃ n wd, d.get p.dropLast = some n ∧ k.watches.get n.num = some wd ∧
        ev = ⟨wd, mask, isDir, cookie, p.getLast?⟩ := by
  unfold Inotify.entryEvent
  cases hn : d.get p.dropLast with
  | none => simp
  | some n =>
    simp only [Option.bind_some]
    cases hw : k.watches.get n.num with
    | none => simp [hw]
    | some wd => simp [hw]

theorem mem_goneEvents {k : Inotify} {d : Disk} (h : ev ∈ k.goneEvents d p) :
    ∃ n, d.get p = some n ∧ k.watches.get n.num = some ev.wd := by
  unfold Inotify.goneEvents at h
  cases hn : d.get p with
  | none => simp [hn] at h
  | some n =>
    simp only [hn, Option.bind_some] at h
    cases hw : k.watches.get n.num with
    | none => simp [hw] at h
    | some wd =>
      simp only [hw, List.mem_cons, List.not_mem_nil, or_false] at h
      refine ⟨n, rfl, ?_⟩
      cases h with
      | inl h => rw [h, hw]
      | inr h => rw [h, hw]; rfl

theorem mem_selfEvent {k : Inotify} {num : Nat} {mask : EventMask}
    (h : ev ∈ k.selfEvent num mask) : ev.mask = mask ∧ k.watches.get num = some ev.wd := by
  unfold Inotify.selfEvent at h
  cases hw : k.watches.get num with
  | none => simp [hw] at h
  | some wd =>
    simp only [hw, List.mem_singleton] at h
    rw [h]
    exact ⟨rfl, rfl⟩

/-- A new place below a directory is due: either its parent's watch announces it, or the
    watcher will list a directory further up. -/
theorem WatchInv.due_new (h : s.WatchInv) {c : Component} (hlast : p.getLast? = some c)
    (hparent : s.disk.isDir p.dropLast = true)
    (hkeep : ∀ a n wd, a <+: p.dropLast → s.disk.get a = some n →
      s.inotify.watches.get n.num = some wd →
      s'.disk.get a = some n ∧ s'.inotify.watches.get n.num = some wd)
    (hqueue : ∀ ev ∈ s.inotify.queue, ev ∈ s'.inotify.queue)
    (hevent : ∀ n wd, s.disk.get p.dropLast = some n → s.inotify.watches.get n.num = some wd →
      ∃ ev ∈ s'.inotify.queue, ev.wd = wd ∧ Announces ev c) :
    s'.Due s'.inotify.queue p := by
  cases h.tracked _ hparent with
  | inl hsettled =>
    obtain ⟨n, wd, hget, hdir, hwatch, -⟩ := hsettled
    obtain ⟨ev, hev, rfl, hann⟩ := hevent n wd hget hwatch
    obtain ⟨hget', hwatch'⟩ := hkeep _ n ev.wd (List.prefix_refl _) hget hwatch
    refine ⟨ev, hev, p.dropLast, c, n, ?_, hget', hdir, hwatch', hann⟩
    rw [List.dropLast_append_getLast? c hlast]
  | inr hdue =>
    obtain ⟨ev, hev, hreach⟩ := hdue
    refine ⟨ev, hqueue ev hev, Reaches.mono (hreach.congr ?_) (List.dropLast_prefix p)⟩
    exact fun a n ha _ hget hwatch => hkeep a n ev.wd ha hget hwatch

/-- Places that an operation leaves alone stay settled or due. -/
theorem WatchInv.keep (h : s.WatchInv) (hdir : s.disk.isDir p = true)
    (hhere : ∀ n, s.disk.get p = some n → s'.disk.get p = some n)
    (habove : ∀ a n, a <+: p → a ≠ p → s.disk.get a = some n → s'.disk.get a = some n)
    (hwatch : ∀ a n wd, a <+: p → s.disk.get a = some n →
      s.inotify.watches.get n.num = some wd → s'.inotify.watches.get n.num = some wd)
    (hmap : s'.wdMap = s.wdMap) (hqueue : ∀ ev ∈ s.inotify.queue, ev ∈ s'.inotify.queue) :
    s'.Settled p ∨ s'.Due s'.inotify.queue p := by
  cases h.tracked p hdir with
  | inl hsettled =>
    obtain ⟨n, wd, hget, hd, hw, hm⟩ := hsettled
    exact .inl ⟨n, wd, hhere n hget, hd, hwatch p n wd (List.prefix_refl _) hget hw, hmap ▸ hm⟩
  | inr hdue =>
    obtain ⟨ev, hev, hreach⟩ := hdue
    refine .inr ⟨ev, hqueue ev hev, hreach.congr fun a n ha hne hget hw => ?_⟩
    exact ⟨habove a n ha hne hget, hwatch a n ev.wd ha hget hw⟩

/-- An operation that adds entries, with inodes that no entry had. -/
theorem Base.grow (h : s.Base) {d : Disk} (hvalid : d.Valid)
    (hold : ∀ p n, s.disk.get p = some n → d.get p = some n) (events : List InotifyEvent)
    (hevents : ∀ ev ∈ events, (∃ num, s.inotify.watches.get num = some ev.wd) ∧
      ev.mask ≠ .ignored ∧ ev.mask ≠ .deleteSelf) (cookie : Nat) :
    (notify { s with disk := d, nextCookie := cookie } events).Base where
  valid := hvalid
  own := h.own
  live num wd hw := by
    obtain ⟨p, n, hp, hdir, hnum⟩ := h.live num wd hw
    exact ⟨p, n, hold p n hp, hdir, hnum⟩
  known := h.known
  below := h.below
  queued ev hev := by
    cases List.mem_append.mp hev with
    | inl hmem => exact h.queued ev hmem
    | inr hmem =>
      obtain ⟨⟨num, hw⟩, -⟩ := hevents ev hmem
      exact h.below num ev.wd hw
  gone ev hev hmask := by
    cases List.mem_append.mp hev with
    | inl hmem => exact h.gone ev hmem hmask
    | inr hmem =>
      obtain ⟨-, hnot, hnot'⟩ := hevents ev hmem
      exact absurd hmask (not_or.mpr ⟨hnot, hnot'⟩)

/-- A new entry, announced by the parent's watch when it is a directory. -/
theorem WatchInv.newEntry (h : s.WatchInv) {n : Inode} {events : List InotifyEvent}
    (hvacant : s.disk.vacant p = true) (hunused : s.disk.unused n.num = true)
    (hevents : ∀ ev ∈ events, (∃ m, s.disk.get p.dropLast = some m ∧
      s.inotify.watches.get m.num = some ev.wd) ∧ (ev.mask = .create ∨ ev.mask = .closeWrite))
    (hann : n.isDir = true → ∀ m wd c, s.disk.get p.dropLast = some m →
      s.inotify.watches.get m.num = some wd → p.getLast? = some c →
      ∃ ev ∈ events, ev.wd = wd ∧ Announces ev c) :
    ({ s with disk := s.disk.insert p n }.notify events).WatchInv := by
  obtain ⟨hp, hparent, hfree⟩ := Disk.vacant_iff.mp hvacant
  have hold : ∀ q m, s.disk.get q = some m → (s.disk.insert p n).get q = some m := by
    intro q m hq
    rw [FinMap.get_insert, if_neg, hq]
    rintro rfl
    rw [hfree] at hq
    cases hq
  have hbase := h.base.grow (h.base.valid.insert hp (Disk.unused_iff.mp hunused)) hold
    events (fun ev hev => by
      obtain ⟨⟨m, -, hw⟩, hmask⟩ := hevents ev hev
      refine ⟨⟨m.num, hw⟩, ?_⟩
      cases hmask with
      | inl hmask => simp [hmask]
      | inr hmask => simp [hmask]) s.nextCookie
  refine ⟨hbase, fun q hq => ?_⟩
  by_cases hqp : q = p
  · subst hqp
    have hdir : n.isDir = true := by
      obtain ⟨m, hm, hd⟩ := Disk.isDir_iff.mp hq
      have hget : (s.disk.insert q n).get q = some m := hm
      rw [FinMap.get_insert, if_pos rfl] at hget
      cases hget
      exact hd
    obtain ⟨c, hlast⟩ := Option.isSome_iff_exists.mp (List.getLast?_isSome.mpr hp)
    refine .inr (h.due_new hlast hparent (fun a m wd _ hget hw => ⟨hold a m hget, hw⟩)
      (fun ev hev => List.mem_append_left _ hev) fun m wd hget hw => ?_)
    obtain ⟨ev, hev, hwd, hannounces⟩ := hann hdir m wd c hget hw hlast
    exact ⟨ev, List.mem_append_right _ hev, hwd, hannounces⟩
  · have hsame : (s.disk.insert p n).get q = s.disk.get q := by
      rw [FinMap.get_insert, if_neg hqp]
    have hdir : s.disk.isDir q = true := by
      obtain ⟨m, hm, hd⟩ := Disk.isDir_iff.mp hq
      have hget : (s.disk.insert p n).get q = some m := hm
      exact Disk.isDir_iff.mpr ⟨m, by rw [← hsame, hget], hd⟩
    exact h.keep hdir (fun m hm => hold q m hm) (fun a m _ _ hget => hold a m hget)
      (fun a m wd _ _ hw => hw) rfl fun ev hev => List.mem_append_left _ hev

theorem WatchInv.mkdir (h : s.WatchInv) {num : Nat} (hop : s.userOp (.mkdir p num) = some s') :
    s'.WatchInv := by
  rw [userOp, Option.ite_none_right_eq_some, Bool.and_eq_true] at hop
  obtain ⟨⟨hvacant, hunused⟩, hop⟩ := hop
  cases hop
  refine h.newEntry hvacant hunused (fun ev hev => ?_) fun _ m wd c hget hw hlast => ?_
  · obtain ⟨m, wd, hm, hw, rfl⟩ := mem_entryEvent.mp hev
    exact ⟨⟨m, hm, hw⟩, .inl rfl⟩
  · exact ⟨_, mem_entryEvent.mpr ⟨m, wd, hget, hw, rfl⟩, rfl, rfl, hlast, .inl rfl⟩

theorem WatchInv.writeFile (h : s.WatchInv) {num : Nat}
    (hop : s.userOp (.writeFile p num) = some s') : s'.WatchInv := by
  rw [userOp, Option.ite_none_right_eq_some, Bool.and_eq_true] at hop
  obtain ⟨⟨hvacant, hunused⟩, hop⟩ := hop
  cases hop
  refine h.newEntry hvacant hunused (fun ev hev => ?_) fun hdir => by cases hdir
  cases List.mem_append.mp hev with
  | inl hev =>
    obtain ⟨m, wd, hm, hw, rfl⟩ := mem_entryEvent.mp hev
    exact ⟨⟨m, hm, hw⟩, .inl rfl⟩
  | inr hev =>
    obtain ⟨m, wd, hm, hw, rfl⟩ := mem_entryEvent.mp hev
    exact ⟨⟨m, hm, hw⟩, .inr rfl⟩

/-- What moving a tree in from outside does, and when it is possible. -/
theorem moveIn_cases (hvalid : s.disk.Valid) {sub : Disk}
    (hop : s.userOp (.moveIn p sub) = some s') :
    s.disk.vacant p = true ∧ (∀ q m, s.disk.get q = some m → ¬ p <+: q) ∧
      (sub.get []).isSome = true ∧ (sub.isDir [] = true ∨ sub.nothingBelow [] = true) ∧
      (s.disk.graft p sub).Valid ∧
      s' = { s with disk := s.disk.graft p sub, nextCookie := s.nextCookie + 1 }.notify
        (s.inotify.entryEvent s.disk p .movedTo (sub.isDir []) s.nextCookie) := by
  rw [userOp, Option.ite_none_right_eq_some] at hop
  simp only [Bool.and_eq_true, decide_eq_true_eq, Bool.or_eq_true, Option.any_eq_true] at hop
  obtain ⟨⟨⟨⟨⟨⟨hvacant, hbelow⟩, hsome⟩, htop⟩, hfresh⟩, hdistinct⟩, hop⟩ := hop
  obtain ⟨hp, -, hfree⟩ := Disk.vacant_iff.mp hvacant
  have hclear : ∀ q m, s.disk.get q = some m → ¬ p <+: q := by
    intro q m hq hpq
    have heq := Disk.nothingBelow_iff.mp hbelow q m hq hpq
    rw [heq, hfree] at hq
    cases hq
  have hgraft : (s.disk.graft p sub).Valid := by
    refine hvalid.graft hp (fun q m hq => ?_) fun q r m m' hq hr hnum => ?_
    · obtain ⟨m', hm', hunused⟩ := hfresh q (FinMap.mem_keys_of_get hq)
      rw [hq] at hm'
      cases hm'
      exact Disk.unused_iff.mp hunused
    · refine hdistinct q (FinMap.mem_keys_of_get hq) r (FinMap.mem_keys_of_get hr) ?_
      rw [hq, hr, Option.map_some, Option.map_some, hnum]
  exact ⟨hvacant, hclear, hsome, htop, hgraft, (Option.some.inj hop).symm⟩

theorem WatchInv.moveIn (h : s.WatchInv) {sub : Disk}
    (hop : s.userOp (.moveIn p sub) = some s') : s'.WatchInv := by
  obtain ⟨hvacant, hclear, -, htop, hvalid, rfl⟩ := moveIn_cases h.base.valid hop
  obtain ⟨hp, hparent, -⟩ := Disk.vacant_iff.mp hvacant
  have hold : ∀ q m, s.disk.get q = some m → (s.disk.graft p sub).get q = some m := by
    intro q m hq
    rw [Disk.get_graft, if_neg (hclear q m hq), hq]
  have hbase := h.base.grow hvalid hold
    (s.inotify.entryEvent s.disk p .movedTo (sub.isDir []) s.nextCookie)
    (fun ev hev => by
      obtain ⟨n, wd, -, hw, rfl⟩ := mem_entryEvent.mp hev
      exact ⟨⟨n.num, hw⟩, by simp, by simp⟩) (s.nextCookie + 1)
  refine ⟨hbase, fun q hq => ?_⟩
  have hqget : (s.disk.graft p sub).isDir q = true := hq
  obtain ⟨n, hn, hdir⟩ := Disk.isDir_iff.mp hqget
  rw [Disk.get_graft] at hn
  by_cases hpq : p <+: q
  · rw [if_pos hpq] at hn
    have hsub : sub.isDir [] = true := by
      cases htop with
      | inl htop => exact htop
      | inr htop =>
        have hnil := Disk.nothingBelow_iff.mp htop _ n hn List.nil_prefix
        rw [hnil] at hn
        exact Disk.isDir_iff.mpr ⟨n, hn, hdir⟩
    obtain ⟨c, hlast⟩ := Option.isSome_iff_exists.mp (List.getLast?_isSome.mpr hp)
    refine .inr (Due.mono (h.due_new hlast hparent (fun a m wd _ hget hw => ⟨hold a m hget, hw⟩)
      (fun ev hev => List.mem_append_left _ hev) fun m wd hget hw => ?_) hpq)
    refine ⟨_, List.mem_append_right _ (mem_entryEvent.mpr ⟨m, wd, hget, hw, rfl⟩), rfl, ?_⟩
    exact ⟨hsub, hlast, .inr rfl⟩
  · rw [if_neg hpq] at hn
    exact h.keep (Disk.isDir_iff.mpr ⟨n, hn, hdir⟩) (fun m hm => hold q m hm)
      (fun a m _ _ hget => hold a m hget) (fun a m wd _ _ hw => hw) rfl
      fun ev hev => List.mem_append_left _ hev

/-! Removals and renames: a directory that is gone takes its watch along. -/

theorem watches_forget (k : Inotify) (d : Disk) (p : PathBuf) (num : Nat) :
    (k.forget d p).watches.get num =
      if (d.get p).map Inode.num = some num then none else k.watches.get num := by
  unfold Inotify.forget
  cases d.get p with
  | none => rfl
  | some n =>
    show (k.watches.erase n.num).get num = _
    rw [FinMap.get_erase, Option.map_some]
    by_cases heq : num = n.num
    · rw [if_pos heq, if_pos (congrArg some heq.symm)]
    · rw [if_neg heq, if_neg (fun h => heq (Option.some.inj h).symm)]

theorem watches_of_forget {k : Inotify} {d : Disk} {num wd : Nat}
    (h : (k.forget d p).watches.get num = some wd) :
    (d.get p).map Inode.num ≠ some num ∧ k.watches.get num = some wd := by
  rw [watches_forget] at h
  split at h
  · cases h
  · next hne => exact ⟨hne, h⟩

theorem queue_forget (k : Inotify) (d : Disk) (p : PathBuf) : (k.forget d p).queue = k.queue := by
  unfold Inotify.forget
  split <;> rfl

theorem nextWd_forget (k : Inotify) (d : Disk) (p : PathBuf) :
    (k.forget d p).nextWd = k.nextWd := by
  unfold Inotify.forget
  split <;> rfl

/-- The watches of the other directories stay. -/
theorem watches_forget_of_ne (h : s.Base) {a : PathBuf} {n : Inode} {wd : Nat} (hne : a ≠ p)
    (hget : s.disk.get a = some n) (hw : s.inotify.watches.get n.num = some wd) :
    (s.inotify.forget s.disk p).watches.get n.num = some wd := by
  rw [watches_forget, if_neg, hw]
  intro hnum
  obtain ⟨m, hm, hmn⟩ := Option.map_eq_some_iff.mp hnum
  exact hne (h.valid.distinct a p n m hget hm hmn.symm)

/-- An operation that takes the directory at `p` away and keeps the other inodes. -/
theorem Base.forget (h : s.Base) {d : Disk} (hvalid : d.Valid)
    (hold : ∀ a n, s.disk.get a = some n → a ≠ p → ∃ b, d.get b = some n)
    (events : List InotifyEvent) (hevents : ∀ ev ∈ events, (∃ num, s.inotify.watches.get num = some ev.wd) ∧
      (ev.mask = .ignored ∨ ev.mask = .deleteSelf → ∃ n, s.disk.get p = some n ∧
        s.inotify.watches.get n.num = some ev.wd)) (cookie : Nat) :
    (notify { s with disk := d, inotify := s.inotify.forget s.disk p, nextCookie := cookie }
      events).Base := by
  have hmem : ∀ ev ∈ (s.inotify.forget s.disk p).queue ++ events,
      ev ∈ s.inotify.queue ∨ ev ∈ events := by
    rw [queue_forget]
    exact fun ev hev => List.mem_append.mp hev
  constructor
  · exact hvalid
  · intro a b wd ha hb
    exact h.own a b wd (watches_of_forget ha).2 (watches_of_forget hb).2
  · intro num wd hw
    obtain ⟨hne, hw⟩ := watches_of_forget hw
    obtain ⟨a, n, ha, hdir, hnum⟩ := h.live num wd hw
    obtain ⟨b, hb⟩ := hold a n ha (fun heq => hne (by rw [← heq, ha, Option.map_some, hnum]))
    exact ⟨b, n, hb, hdir, hnum⟩
  · intro num wd hw
    exact h.known num wd (watches_of_forget hw).2
  · intro num wd hw
    have hlt := h.below num wd (watches_of_forget hw).2
    show wd < (s.inotify.forget s.disk p).nextWd
    rw [nextWd_forget]
    exact hlt
  · intro ev hev
    show ev.wd < (s.inotify.forget s.disk p).nextWd
    rw [nextWd_forget]
    cases hmem ev hev with
    | inl hold => exact h.queued ev hold
    | inr hnew =>
      obtain ⟨⟨num, hw⟩, -⟩ := hevents ev hnew
      exact h.below num ev.wd hw
  · intro ev hev hmask num hw
    obtain ⟨hne, hw⟩ := watches_of_forget hw
    cases hmem ev hev with
    | inl hold => exact h.gone ev hold hmask num hw
    | inr hnew =>
      obtain ⟨n, hn, hwn⟩ := (hevents ev hnew).2 hmask
      exact hne (by rw [hn, Option.map_some, h.own n.num num ev.wd hwn hw])

theorem WatchInv.rmdir (h : s.WatchInv) (hop : s.userOp (.rmdir p events) = some s') :
    s'.WatchInv := by
  rw [userOp, Option.ite_none_right_eq_some] at hop
  simp only [Bool.and_eq_true, decide_eq_true_eq] at hop
  obtain ⟨⟨⟨⟨hp, -⟩, hbelow⟩, hperm⟩, hop⟩ := hop
  cases hop
  have hold : ∀ a n, s.disk.get a = some n → a ≠ p → (s.disk.erase p).get a = some n := by
    intro a n ha hne
    rw [FinMap.get_erase, if_neg hne, ha]
  have hbase := h.base.forget (p := p) (h.base.valid.erase hp)
    (fun a n ha hne => ⟨a, hold a n ha hne⟩) events (fun ev hev => by
      cases List.mem_append.mp (hperm.mem_iff.mp hev) with
      | inl hev =>
        obtain ⟨n, wd, -, hw, rfl⟩ := mem_entryEvent.mp hev
        exact ⟨⟨n.num, hw⟩, by simp⟩
      | inr hev =>
        obtain ⟨n, hn, hw⟩ := mem_goneEvents hev
        exact ⟨⟨n.num, hw⟩, fun _ => ⟨n, hn, hw⟩⟩) s.nextCookie
  refine ⟨hbase, fun q hq => ?_⟩
  have hqget : Disk.isDir (s.disk.erase p) q = true := hq
  obtain ⟨n, hn, hdir⟩ := Disk.isDir_iff.mp hqget
  rw [FinMap.get_erase] at hn
  split at hn
  · cases hn
  · next hqp =>
    -- `p` was empty, so it is not above `q`
    have habove : ∀ a, a <+: q → a ≠ p := by
      intro a ha heq
      exact hqp (Disk.nothingBelow_iff.mp hbelow q n hn (heq ▸ ha))
    exact h.keep (Disk.isDir_iff.mpr ⟨n, hn, hdir⟩) (fun m hm => hold q m hm hqp)
      (fun a m ha _ hget => hold a m hget (habove a ha))
      (fun a m wd ha hget hw => watches_forget_of_ne h.base (habove a ha) hget hw) rfl
      fun ev hev => List.mem_append_left _ ((queue_forget _ _ _).symm ▸ hev)

theorem mem_renameEvents {source target : PathBuf} (hev : ev ∈ s.renameEvents source target) :
    (∃ num, s.inotify.watches.get num = some ev.wd) ∧
      (ev.mask = .ignored ∨ ev.mask = .deleteSelf → ∃ n, s.disk.get target = some n ∧
        s.inotify.watches.get n.num = some ev.wd) := by
  simp only [renameEvents, List.mem_append] at hev
  obtain ((hfrom | hto) | hself) | hgone := hev
  · obtain ⟨n, wd, -, hw, rfl⟩ := mem_entryEvent.mp hfrom
    exact ⟨⟨n.num, hw⟩, by simp⟩
  · obtain ⟨n, wd, -, hw, rfl⟩ := mem_entryEvent.mp hto
    exact ⟨⟨n.num, hw⟩, by simp⟩
  · cases hsource : s.disk.get source with
    | none => simp [hsource] at hself
    | some n =>
      simp only [hsource, Option.map_some, Option.getD_some] at hself
      obtain ⟨hmask, hw⟩ := mem_selfEvent hself
      exact ⟨⟨n.num, hw⟩, by simp [hmask]⟩
  · obtain ⟨n, hn, hw⟩ := mem_goneEvents hgone
    exact ⟨⟨n.num, hw⟩, fun _ => ⟨n, hn, hw⟩⟩

theorem WatchInv.renameDir (h : s.WatchInv) {source target : PathBuf}
    (hop : s.userOp (.renameDir source target events) = some s') : s'.WatchInv := by
  rw [userOp, Option.ite_none_right_eq_some] at hop
  simp only [Bool.and_eq_true, decide_eq_true_eq] at hop
  obtain ⟨⟨⟨⟨⟨⟨⟨⟨hsource, -⟩, hinto⟩, htarget⟩, hparent⟩, -⟩, hbelow⟩, hperm⟩, hop⟩ := hop
  cases hop
  have hstays : ∀ a, ¬ target <+: a → ¬ source <+: a →
      (s.disk.move source target).get a = s.disk.get a :=
    fun a hg hf => Disk.get_move_of_not hg hf
  have hbase := h.base.forget (p := target) (d := s.disk.move source target)
    (h.base.valid.move hsource htarget) (fun a n ha hne => by
      by_cases hf : source <+: a
      · obtain ⟨r, rfl⟩ := hf
        exact ⟨target ++ r, by rw [Disk.get_move_append, ha]⟩
      · refine ⟨a, ?_⟩
        rw [hstays a (fun hg => hne (Disk.nothingBelow_iff.mp hbelow a n ha hg)) hf, ha])
    events (fun ev hev => mem_renameEvents (hperm.mem_iff.mp hev)) (s.nextCookie + 1)
  refine ⟨hbase, fun q hq => ?_⟩
  have hqget : (s.disk.move source target).isDir q = true := hq
  obtain ⟨n, hn, hdir⟩ := Disk.isDir_iff.mp hqget
  have hkept : ∀ ev ∈ s.inotify.queue, ev ∈ (s.inotify.forget s.disk target).queue ++ events :=
    fun ev hev => List.mem_append_left _ ((queue_forget _ _ _).symm ▸ hev)
  by_cases hg : target <+: q
  · -- the parent of the new place announces it
    obtain ⟨c, hlast⟩ := Option.isSome_iff_exists.mp (List.getLast?_isSome.mpr htarget)
    refine .inr (Due.mono (h.due_new hlast hparent (fun a m wd ha hget hw => ?_) hkept
      fun m wd hget hw => ?_) hg)
    · have hnot : ¬ target <+: a := by
        intro hpre
        have hlen := (hpre.trans ha).length_le
        have hpos := List.length_pos_iff.mpr htarget
        rw [List.length_dropLast] at hlen
        omega
      have hnot' : ¬ source <+: a :=
        fun hpre => hinto ((hpre.trans ha).trans (List.dropLast_prefix target))
      refine ⟨(hstays a hnot hnot').trans hget, watches_forget_of_ne h.base ?_ hget hw⟩
      exact fun heq => hnot (heq ▸ List.prefix_refl a)
    · have hmem : ⟨wd, .movedTo, true, s.nextCookie, target.getLast?⟩ ∈ events := by
        refine hperm.mem_iff.mpr ?_
        simp only [renameEvents, List.mem_append]
        exact .inl (.inl (.inr (mem_entryEvent.mpr ⟨m, wd, hget, hw, rfl⟩)))
      exact ⟨_, List.mem_append_right _ hmem, rfl, rfl, hlast, .inr rfl⟩
  · have hf : ¬ source <+: q := by
      intro hf
      rw [Disk.get_move, if_neg hg, if_pos hf] at hn
      cases hn
    rw [hstays q hg hf] at hn
    have hnot : ∀ a, a <+: q → ¬ target <+: a ∧ ¬ source <+: a :=
      fun a ha => ⟨fun hpre => hg (hpre.trans ha), fun hpre => hf (hpre.trans ha)⟩
    refine h.keep (Disk.isDir_iff.mpr ⟨n, hn, hdir⟩) (fun m hm => (hstays q hg hf).trans hm)
      (fun a m ha _ hget => (hstays a (hnot a ha).1 (hnot a ha).2).trans hget)
      (fun a m wd ha hget hw => ?_) rfl hkept
    exact watches_forget_of_ne h.base (fun heq => (hnot a ha).1 (heq ▸ List.prefix_refl a)) hget hw

/-- Whatever users do, each directory stays settled or due. -/
theorem WatchInv.user (h : s.WatchInv) {op : DiskOp} (hop : s.userOp op = some s') :
    s'.WatchInv := by
  cases op with
  | mkdir p num => exact h.mkdir hop
  | writeFile p num => exact h.writeFile hop
  | moveIn p sub => exact h.moveIn hop
  | rmdir p events => exact h.rmdir hop
  | renameDir source target events => exact h.renameDir hop

/-! ## Watching directories -/

/-- What watching more directories keeps. -/
structure Grows (s s' : WatchedRoot) : Prop where
  disk : s'.disk = s.disk
  queue : s'.inotify.queue = s.inotify.queue
  watches : ∀ num wd, s.inotify.watches.get num = some wd → s'.inotify.watches.get num = some wd
  settled : ∀ p, s.Settled p → s'.Settled p

theorem Grows.refl (s : WatchedRoot) : Grows s s := ⟨rfl, rfl, fun _ _ h => h, fun _ h => h⟩

theorem Grows.trans {s₁ s₂ s₃ : WatchedRoot} (h : Grows s₁ s₂) (h' : Grows s₂ s₃) :
    Grows s₁ s₃ where
  disk := h'.disk.trans h.disk
  queue := h'.queue.trans h.queue
  watches num wd hw := h'.watches num wd (h.watches num wd hw)
  settled p hp := h'.settled p (h.settled p hp)

theorem Grows.due (h : Grows s s') (hdue : s.Due events p) : s'.Due events p := by
  obtain ⟨ev, hev, hreach⟩ := hdue
  refine ⟨ev, hev, hreach.congr fun a n _ _ hget hw => ?_⟩
  exact ⟨h.disk ▸ hget, h.watches n.num ev.wd hw⟩

/-- A watch that the kernel already has keeps its descriptor; a new one is larger than any
    before. -/
theorem add_spec (k : Inotify) (num : Nat) :
    (k.watches.get num = some (k.add num).1 ∧ (k.add num).2 = k) ∨
      (k.watches.get num = none ∧ (k.add num).1 = k.nextWd ∧
        (k.add num).2 = { k with
          watches := k.watches.insert num k.nextWd
          nextWd := k.nextWd + 1 }) := by
  unfold Inotify.add
  cases h : k.watches.get num with
  | some wd => exact .inl ⟨rfl, rfl⟩
  | none => exact .inr ⟨rfl, rfl, rfl⟩

theorem watchDir_known (h : s.Base) {n : Inode} {wd : Nat} (hget : s.disk.get p = some n)
    (hdir : n.isDir = true) (hw : s.inotify.watches.get n.num = some wd) :
    let t : WatchedRoot := { s with wdMap := s.wdMap.insert wd p }
    t.Base ∧ Grows s t ∧ t.Settled p := by
  have hmap : ∀ q m wd', s.disk.get q = some m → s.inotify.watches.get m.num = some wd' →
      s.wdMap.get wd' = some q → (s.wdMap.insert wd p).get wd' = some q := by
    intro q m wd' hq hw' hknown
    rw [FinMap.get_insert]
    split
    · next heq =>
      -- one descriptor, one inode, one path
      rw [h.valid.distinct q p m n hq hget (h.own _ _ wd (heq ▸ hw') hw)]
    · exact hknown
  refine ⟨?_, ⟨rfl, rfl, fun _ _ hw' => hw', ?_⟩, ?_⟩
  · refine { h with known := fun num wd' hw' => ?_ }
    show ((s.wdMap.insert wd p).get wd').isSome = true
    rw [FinMap.get_insert]
    split
    · rfl
    · exact h.known num wd' hw'
  · intro q hq
    obtain ⟨m, wd', hm, hmdir, hw', hknown⟩ := hq
    exact ⟨m, wd', hm, hmdir, hw', hmap q m wd' hm hw' hknown⟩
  · exact ⟨n, wd, hget, hdir, hw, by rw [FinMap.get_insert, if_pos rfl]⟩

theorem watchDir_new (h : s.Base) {n : Inode} (hget : s.disk.get p = some n)
    (hdir : n.isDir = true) (hnone : s.inotify.watches.get n.num = none) :
    let t : WatchedRoot := { s with
      inotify := { s.inotify with
        watches := s.inotify.watches.insert n.num s.inotify.nextWd
        nextWd := s.inotify.nextWd + 1 }
      wdMap := s.wdMap.insert s.inotify.nextWd p }
    t.Base ∧ Grows s t ∧ t.Settled p := by
  have hkeep : ∀ num wd, s.inotify.watches.get num = some wd →
      (s.inotify.watches.insert n.num s.inotify.nextWd).get num = some wd := by
    intro num wd hw
    rw [FinMap.get_insert, if_neg, hw]
    rintro rfl
    rw [hnone] at hw
    cases hw
  have hback : ∀ num wd, (s.inotify.watches.insert n.num s.inotify.nextWd).get num = some wd →
      (num = n.num ∧ wd = s.inotify.nextWd) ∨ s.inotify.watches.get num = some wd := by
    intro num wd hw
    rw [FinMap.get_insert] at hw
    split at hw
    · next heq => exact .inl ⟨heq, (Option.some.inj hw).symm⟩
    · exact .inr hw
  -- the new descriptor is none of the old ones
  have hmap : ∀ wd, wd < s.inotify.nextWd →
      (s.wdMap.insert s.inotify.nextWd p).get wd = s.wdMap.get wd := by
    intro wd hlt
    rw [FinMap.get_insert, if_neg (by omega)]
  refine ⟨?_, ⟨rfl, rfl, hkeep, ?_⟩, ?_⟩
  · constructor
    · exact h.valid
    · intro a b wd ha hb
      cases hback a wd ha with
      | inl hnew =>
        cases hback b wd hb with
        | inl hnew' => rw [hnew.1, hnew'.1]
        | inr hold =>
          have hlt := h.below b wd hold
          omega
      | inr hold =>
        have hlt := h.below a wd hold
        cases hback b wd hb with
        | inl hnew => omega
        | inr hold' => exact h.own a b wd hold hold'
    · intro num wd hw
      cases hback num wd hw with
      | inl hnew => exact ⟨p, n, hget, hdir, hnew.1.symm⟩
      | inr hold => exact h.live num wd hold
    · intro num wd hw
      show ((s.wdMap.insert s.inotify.nextWd p).get wd).isSome = true
      cases hback num wd hw with
      | inl hnew => rw [hnew.2, FinMap.get_insert, if_pos rfl]; rfl
      | inr hold =>
        rw [hmap wd (h.below num wd hold)]
        exact h.known num wd hold
    · intro num wd hw
      show wd < s.inotify.nextWd + 1
      cases hback num wd hw with
      | inl hnew => omega
      | inr hold =>
        have hlt := h.below num wd hold
        omega
    · intro ev hev
      show ev.wd < s.inotify.nextWd + 1
      have hlt := h.queued ev hev
      omega
    · intro ev hev hmask num hw
      have hlt := h.queued ev hev
      cases hback num ev.wd hw with
      | inl hnew => omega
      | inr hold => exact h.gone ev hev hmask num hold
  · intro q hq
    obtain ⟨m, wd, hm, hmdir, hw, hknown⟩ := hq
    exact ⟨m, wd, hm, hmdir, hkeep _ _ hw, (hmap wd (h.below _ _ hw)).trans hknown⟩
  · exact ⟨n, s.inotify.nextWd, hget, hdir, by rw [FinMap.get_insert, if_pos rfl],
      by rw [FinMap.get_insert, if_pos rfl]⟩

theorem watchDir_spec (h : s.Base) (hdir : s.disk.isDir p = true) :
    (s.watchDir p).Base ∧ Grows s (s.watchDir p) ∧ (s.watchDir p).Settled p := by
  obtain ⟨n, hget, hn⟩ := Disk.isDir_iff.mp hdir
  unfold watchDir
  simp only [hget]
  cases add_spec s.inotify n.num with
  | inl hknown =>
    rw [hknown.2]
    exact watchDir_known h hget hn hknown.1
  | inr hnew =>
    rw [hnew.2.1, hnew.2.2]
    exact watchDir_new h hget hn hnew.1

theorem foldl_watchDir (dirs : List PathBuf) (h : s.Base)
    (hdirs : ∀ p ∈ dirs, s.disk.isDir p = true) :
    (dirs.foldl watchDir s).Base ∧ Grows s (dirs.foldl watchDir s) ∧
      ∀ p ∈ dirs, (dirs.foldl watchDir s).Settled p := by
  induction dirs generalizing s with
  | nil => exact ⟨h, Grows.refl s, fun p hp => absurd hp List.not_mem_nil⟩
  | cons p dirs ih =>
    obtain ⟨hbase, hgrows, hp⟩ := watchDir_spec h (hdirs p (by simp))
    obtain ⟨hbase', hgrows', hrest⟩ := ih hbase fun q hq => by
      rw [hgrows.disk]
      exact hdirs q (List.mem_cons_of_mem p hq)
    refine ⟨hbase', hgrows.trans hgrows', fun q hq => ?_⟩
    cases List.mem_cons.mp hq with
    | inl heq => exact heq ▸ hgrows'.settled p hp
    | inr hmem => exact hrest q hmem

/-- After the walk all directories at and below `path` are settled. -/
theorem addWatchRecursive_spec (order : HashOrder) (h : s.Base) (path : PathBuf) :
    (s.addWatchRecursive order path).Base ∧ Grows s (s.addWatchRecursive order path) ∧
      ∀ p, path <+: p → s.disk.isDir p = true → (s.addWatchRecursive order path).Settled p := by
  obtain ⟨hbase, hgrows, hall⟩ := foldl_watchDir (order.toList (s.disk.dirsBelow path)) h
    fun p hp => (Disk.mem_dirsBelow.mp ((order.mem_toList _ p).mp hp)).2
  refine ⟨hbase, hgrows, fun p hpre hdir => hall p ?_⟩
  exact (order.mem_toList _ p).mpr (Disk.mem_dirsBelow.mpr ⟨hpre, hdir⟩)

/-! ## Taking watches away -/

theorem watches_remove (k : Inotify) (wd num : Nat) :
    (k.remove wd).watches.get num =
      if k.watches.get num = some wd then none else k.watches.get num := by
  unfold Inotify.remove
  split
  · show (k.watches.filter fun _ w => !decide (w = wd)).get num = _
    rw [FinMap.get_filter]
    cases k.watches.get num with
    | none => simp
    | some w => by_cases heq : w = wd <;> simp [heq]
  · next hnone =>
    rw [if_neg]
    exact fun hw => hnone ⟨num, FinMap.mem_keys_of_get hw, hw⟩

theorem queue_remove (k : Inotify) (wd : Nat) :
    (k.remove wd).queue = k.queue ∨ ((∃ num, k.watches.get num = some wd) ∧
      (k.remove wd).queue = k.queue ++ [Inotify.ignoredEvent wd]) := by
  unfold Inotify.remove
  split
  · next h =>
    obtain ⟨num, -, hw⟩ := h
    exact .inr ⟨⟨num, hw⟩, rfl⟩
  · exact .inl rfl

theorem nextWd_remove (k : Inotify) (wd : Nat) : (k.remove wd).nextWd = k.nextWd := by
  unfold Inotify.remove
  split <;> rfl

theorem watches_of_remove {k : Inotify} {wd wd' num : Nat}
    (h : (k.remove wd).watches.get num = some wd') :
    wd' ≠ wd ∧ k.watches.get num = some wd' := by
  rw [watches_remove] at h
  split at h
  · cases h
  · next hne => exact ⟨fun heq => hne (heq ▸ h), h⟩

theorem watches_remove_of_ne {k : Inotify} {wd wd' num : Nat} (hne : wd' ≠ wd)
    (h : k.watches.get num = some wd') : (k.remove wd).watches.get num = some wd' := by
  rw [watches_remove, if_neg, h]
  exact fun heq => hne (Option.some.inj (h.symm.trans heq))

theorem mem_queue_remove {k : Inotify} {wd : Nat} (h : ev ∈ k.queue) :
    ev ∈ (k.remove wd).queue := by
  cases queue_remove k wd with
  | inl heq => exact heq ▸ h
  | inr hmore => exact hmore.2 ▸ List.mem_append_left _ h

theorem Base.dropWatch (h : s.Base) (wd : Nat) : (s.dropWatch wd).Base := by
  constructor
  · exact h.valid
  · intro a b wd' ha hb
    exact h.own a b wd' (watches_of_remove ha).2 (watches_of_remove hb).2
  · intro num wd' hw
    exact h.live num wd' (watches_of_remove hw).2
  · intro num wd' hw
    obtain ⟨hne, hw⟩ := watches_of_remove hw
    show ((s.wdMap.erase wd).get wd').isSome = true
    rw [FinMap.get_erase, if_neg hne]
    exact h.known num wd' hw
  · intro num wd' hw
    show wd' < (s.inotify.remove wd).nextWd
    rw [nextWd_remove]
    exact h.below num wd' (watches_of_remove hw).2
  · intro ev hev
    show ev.wd < (s.inotify.remove wd).nextWd
    rw [nextWd_remove]
    cases queue_remove s.inotify wd with
    | inl heq => exact h.queued ev (heq ▸ hev)
    | inr hmore =>
      obtain ⟨⟨num, hw⟩, hqueue⟩ := hmore
      cases List.mem_append.mp (hqueue ▸ hev : ev ∈ s.inotify.queue ++ _) with
      | inl hold => exact h.queued ev hold
      | inr hlast =>
        rw [List.mem_singleton.mp hlast]
        exact h.below num wd hw
  · intro ev hev hmask num hw
    obtain ⟨hne, hw⟩ := watches_of_remove hw
    cases queue_remove s.inotify wd with
    | inl heq => exact h.gone ev (heq ▸ hev) hmask num hw
    | inr hmore =>
      cases List.mem_append.mp (hmore.2 ▸ hev : ev ∈ s.inotify.queue ++ _) with
      | inl hold => exact h.gone ev hold hmask num hw
      | inr hlast => exact hne (by rw [List.mem_singleton.mp hlast]; rfl)

/-- Every directory is settled or due, or the watcher is about to list it. -/
structure Listing (listed : PathBuf → Prop) (s : WatchedRoot) : Prop where
  base : s.Base
  closed : ∀ p q, listed p → p <+: q → listed q
  tracked : ∀ p, s.disk.isDir p = true → s.Settled p ∨ s.Due s.inotify.queue p ∨ listed p

variable {listed : PathBuf → Prop}

theorem WatchInv.listing (h : s.WatchInv) : s.Listing fun _ => False where
  base := h.base
  closed _ _ hp _ := hp
  tracked p hdir := by
    cases h.tracked p hdir with
    | inl hsettled => exact .inl hsettled
    | inr hdue => exact .inr (.inl hdue)

theorem Listing.watchInv (h : s.Listing listed) (hnone : ∀ p, ¬ listed p) : s.WatchInv where
  base := h.base
  tracked p hdir := by
    obtain hsettled | hdue | hlist := h.tracked p hdir
    · exact .inl hsettled
    · exact .inr hdue
    · exact absurd hlist (hnone p)

/-- A watch may go when its directory is due or about to be listed. -/
theorem Listing.dropWatch (h : s.Listing listed) {wd : Nat}
    (hdrop : ∀ p n, s.disk.get p = some n → s.inotify.watches.get n.num = some wd →
      s.Due s.inotify.queue p ∨ listed p) : (s.dropWatch wd).Listing listed := by
  have hreaches : ∀ ev q, s.Reaches ev q → ev.wd ≠ wd → (s.dropWatch wd).Reaches ev q := by
    intro ev q hreach hne
    refine hreach.congr fun a n _ _ hget hw => ?_
    exact ⟨hget, watches_remove_of_ne hne hw⟩
  -- an event that reaches the directory itself is one of a directory above, so it stays
  have hdropped : ∀ p n, s.disk.get p = some n → s.inotify.watches.get n.num = some wd →
      (s.dropWatch wd).Due (s.dropWatch wd).inotify.queue p ∨ listed p := by
    intro p n hget hw
    cases hdrop p n hget hw with
    | inr hlist => exact .inr hlist
    | inl hdue =>
      obtain ⟨ev, hev, hreach⟩ := hdue
      refine .inl ⟨ev, mem_queue_remove hev, hreaches ev p hreach fun heq => ?_⟩
      obtain ⟨a, c, m, hac, ha, -, hwa, -⟩ := hreach
      have hap : a = p :=
        h.base.valid.distinct a p m n ha hget (h.base.own _ _ wd (heq ▸ hwa) hw)
      have hlen := hac.length_le
      rw [hap, List.length_append, List.length_singleton] at hlen
      omega
  refine ⟨h.base.dropWatch wd, h.closed, fun q hdir => ?_⟩
  obtain hsettled | hdue | hlist := h.tracked q hdir
  · obtain ⟨n, wd', hget, hn, hw, hknown⟩ := hsettled
    by_cases heq : wd' = wd
    · exact .inr (hdropped q n hget (heq ▸ hw))
    · refine .inl ⟨n, wd', hget, hn, watches_remove_of_ne heq hw, ?_⟩
      show (s.wdMap.erase wd).get wd' = some q
      rw [FinMap.get_erase, if_neg heq, hknown]
  · obtain ⟨ev, hev, hreach⟩ := hdue
    by_cases heq : ev.wd = wd
    · obtain ⟨a, c, n, hac, ha, -, hwa, -⟩ := hreach
      have haq : a <+: q := (List.prefix_append a [c]).trans hac
      cases hdropped a n ha (heq ▸ hwa) with
      | inl hdue => exact .inr (.inl (hdue.mono haq))
      | inr hlist => exact .inr (.inr (h.closed a q hlist haq))
    · exact .inr (.inl ⟨ev, mem_queue_remove hev, hreaches ev q hreach heq⟩)
  · exact .inr (.inr hlist)

theorem WatchInv.dropWatch (h : s.WatchInv) {wd : Nat}
    (hdue : ∀ p n, s.disk.get p = some n → s.inotify.watches.get n.num = some wd →
      s.Due s.inotify.queue p) : (s.dropWatch wd).WatchInv :=
  (h.listing.dropWatch fun p n hget hw => .inl (hdue p n hget hw)).watchInv fun _ => id

/-- The watches mapped to `source` go when nothing is there. -/
theorem Listing.dropStale (h : s.Listing listed) {source : PathBuf}
    (hnone : s.disk.get source = none) : (s.dropStale source).Listing listed := by
  have hfold : ∀ (wds : List Nat) (t : WatchedRoot), t.Listing listed → t.disk.get source = none →
      (∀ wd ∈ wds, ∀ p, t.wdMap.get wd = some p → p = source) →
      (wds.foldl WatchedRoot.dropWatch t).Listing listed := by
    intro wds
    induction wds with
    | nil => exact fun t ht _ _ => ht
    | cons wd wds ih =>
      intro t ht hfree hstale
      refine ih (t.dropWatch wd) (ht.dropWatch fun p n hget hw => ?_) hfree fun wd' hwd' p hp => ?_
      · have hdir : t.disk.isDir p = true := by
          obtain ⟨q, m, hq, hm, hnum⟩ := ht.base.live n.num wd hw
          have hqp := ht.base.valid.distinct q p m n hq hget hnum
          exact Disk.isDir_iff.mpr ⟨m, hqp ▸ hq, hm⟩
        obtain hsettled | hrest := ht.tracked p hdir
        · -- a settled directory is mapped to where it is, and nothing is at `source`
          obtain ⟨m, wd', hm, -, hw', hknown⟩ := hsettled
          obtain rfl : n = m := Option.some.inj (hget.symm.trans hm)
          obtain rfl : wd = wd' := Option.some.inj (hw.symm.trans hw')
          rw [hstale wd (by simp) p hknown, hfree] at hget
          cases hget
        · exact hrest
      · have hget : (t.wdMap.erase wd).get wd' = some p := hp
        rw [FinMap.get_erase] at hget
        split at hget
        · cases hget
        · exact hstale wd' (List.mem_cons_of_mem wd hwd') p hget
  refine hfold _ s h hnone fun wd hwd p hp => ?_
  rw [Finset.mem_sort, Finset.mem_filter] at hwd
  exact Option.some.inj (hp.symm.trans hwd.2)

/-- Once the watcher has listed the places, nothing is left to list. -/
theorem Listing.walk (h : s.Listing listed) (order : HashOrder) {path : PathBuf}
    (hpath : ∀ p, listed p → path <+: p) : (s.addWatchRecursive order path).WatchInv := by
  obtain ⟨hbase, hgrows, hwalked⟩ := addWatchRecursive_spec order h.base path
  refine ⟨hbase, fun p hdir => ?_⟩
  rw [hgrows.disk] at hdir
  obtain hsettled | hdue | hlist := h.tracked p hdir
  · exact .inl (hgrows.settled p hsettled)
  · rw [hgrows.queue]
    exact .inr (hgrows.due hdue)
  · exact .inl (hwalked p (hpath p hlist) hdir)

/-! ## Handling an event -/

/-- The queue without the event that is handled. -/
def pop (s : WatchedRoot) (rest : List InotifyEvent) : WatchedRoot :=
  { s with inotify := { s.inotify with queue := rest } }

/-- The watcher lists `p` for the event. -/
def Lists (s : WatchedRoot) (ev : InotifyEvent) (p : PathBuf) : Prop :=
  ∃ c dir, Announces ev c ∧ s.wdMap.get ev.wd = some dir ∧ dir ++ [c] <+: p

/-- What holds before a step that does not lose a directory. A directory that gets a self
    event is due by a later event. So is each directory that a second half of a move takes for
    one of those moved, unless it is listed with the place that they moved to. -/
def Rewatched (s : WatchedRoot) : WatchStep → Prop
  | .handle _ =>
    ∀ ev rest, s.inotify.queue = ev :: rest →
      (ev.mask = .moveSelf → ∀ p n, s.disk.get p = some n →
        s.inotify.watches.get n.num = some ev.wd → s.Due rest p) ∧
      (ev.mask = .movedTo → ∀ source, s.pendingMoves.get ev.cookie = some source →
        ∀ p, source <+: p → s.Settled p → s.Due rest p ∨ s.Lists ev p)
  | _ => True

/-- When an event reaches a directory, the watcher lists it or another event reaches it. -/
theorem WatchInv.pop (h : s.WatchInv) {rest : List InotifyEvent}
    (hqueue : s.inotify.queue = ev :: rest) : (s.pop rest).Listing (s.Lists ev) where
  base := {
    h.base with
    queued := fun ev' hev' => h.base.queued ev' (hqueue ▸ List.mem_cons_of_mem ev hev')
    gone := fun ev' hev' => h.base.gone ev' (hqueue ▸ List.mem_cons_of_mem ev hev') }
  closed p q := by
    rintro ⟨c, dir, hann, hdir, hpre⟩ hpq
    exact ⟨c, dir, hann, hdir, hpre.trans hpq⟩
  tracked p hdir := by
    obtain hsettled | hdue := h.tracked p hdir
    · exact .inl hsettled
    · rw [hqueue] at hdue
      obtain hreach | hrest := due_cons hdue
      · obtain ⟨a, c, n, hac, hget, hn, hw, hann⟩ := hreach
        have hap : a <+: p := (List.prefix_append a [c]).trans hac
        obtain hsettled | hdue' := h.tracked a (Disk.isDir_iff.mpr ⟨n, hget, hn⟩)
        · -- the map knows the descriptor by the path of the parent
          obtain ⟨m, wd, hm, -, hw', hknown⟩ := hsettled
          obtain rfl : n = m := Option.some.inj (hget.symm.trans hm)
          obtain rfl : ev.wd = wd := Option.some.inj (hw.symm.trans hw')
          exact .inr (.inr ⟨c, a, hann, hknown, hac⟩)
        · rw [hqueue] at hdue'
          obtain hself | hrest := due_cons hdue'
          · -- the event is about an entry of `a`, so it cannot reach `a`
            obtain ⟨b, c', m, hbc, hb, -, hwb, -⟩ := hself
            have hba := h.base.valid.distinct b a m n hb hget (h.base.own _ _ _ hwb hw)
            have hlen := hbc.length_le
            rw [hba, List.length_append, List.length_singleton] at hlen
            omega
          · exact .inr (.inl (hrest.mono hap))
      · exact .inr (.inl hrest)

/-- What is sent and which moves are open does not matter to the map. -/
theorem WatchInv.congr (h : s.WatchInv) (hdisk : s'.disk = s.disk)
    (hinotify : s'.inotify = s.inotify) (hmap : s'.wdMap = s.wdMap) : s'.WatchInv := by
  obtain ⟨disk, inotify, wdMap, pendingMoves, sent, nextCookie⟩ := s'
  cases hdisk
  cases hinotify
  cases hmap
  refine ⟨{ h.base with }, fun p hdir => ?_⟩
  exact h.tracked p hdir

/-- An event that lists nothing: its mask or its kind is another one, or its descriptor is
    unknown. -/
theorem WatchInv.pop_quiet (h : s.WatchInv) {rest : List InotifyEvent}
    (hqueue : s.inotify.queue = ev :: rest) (hquiet : ∀ p, ¬ s.Lists ev p) :
    (s.pop rest).WatchInv :=
  (h.pop hqueue).watchInv hquiet

theorem not_lists (hmask : ev.mask ≠ .create) (hmask' : ev.mask ≠ .movedTo) (p : PathBuf) :
    ¬ s.Lists ev p := by
  rintro ⟨c, dir, hann, -⟩
  cases hann.mask with
  | inl heq => exact hmask heq
  | inr heq => exact hmask' heq

theorem not_lists_of_file (hdir : ev.isDir = false) (p : PathBuf) : ¬ s.Lists ev p := by
  rintro ⟨c, dir, hann, -⟩
  rw [hann.isDir] at hdir
  cases hdir

/-- A watch that is gone from the kernel is gone from the map. -/
theorem WatchInv.erase_gone (h : s.WatchInv) {wd : Nat}
    (hgone : ∀ num, s.inotify.watches.get num ≠ some wd) :
    ({ s with wdMap := s.wdMap.erase wd } : WatchedRoot).WatchInv := by
  have hknown : ∀ num wd', s.inotify.watches.get num = some wd' →
      (s.wdMap.erase wd).get wd' = s.wdMap.get wd' := by
    intro num wd' hw
    rw [FinMap.get_erase, if_neg]
    exact fun heq => hgone num (heq ▸ hw)
  refine ⟨{ h.base with known := fun num wd' hw => ?_ }, fun p hdir => ?_⟩
  · show ((s.wdMap.erase wd).get wd').isSome = true
    rw [hknown num wd' hw]
    exact h.base.known num wd' hw
  · obtain hsettled | hdue := h.tracked p hdir
    · obtain ⟨n, wd', hget, hn, hw, hmap⟩ := hsettled
      exact .inl ⟨n, wd', hget, hn, hw, (hknown n.num wd' hw).trans hmap⟩
    · exact .inr hdue

/-- The map entries below `source` change; whoever was settled there is due or about to be
    listed. -/
theorem Listing.rewrite (h : s.Listing listed) {source target : PathBuf}
    (hmoved : ∀ p, source <+: p → s.Settled p → s.Due s.inotify.queue p ∨ listed p) :
    ({ s with wdMap := rewriteWdMapForRename s.wdMap source target } : WatchedRoot).Listing
      listed := by
  refine ⟨{ h.base with known := fun num wd hw => ?_ }, h.closed, fun p hdir => ?_⟩
  · show ((rewriteWdMapForRename s.wdMap source target).get wd).isSome = true
    rw [rewriteWdMapForRename, FinMap.get_map, Option.isSome_map]
    exact h.base.known num wd hw
  · obtain hsettled | hrest := h.tracked p hdir
    · by_cases hpre : source <+: p
      · exact .inr (hmoved p hpre hsettled)
      · obtain ⟨n, wd, hget, hn, hw, hmap⟩ := hsettled
        refine .inl ⟨n, wd, hget, hn, hw, ?_⟩
        have hne : p ≠ source := fun heq => hpre (heq ▸ List.prefix_refl p)
        show (rewriteWdMapForRename s.wdMap source target).get wd = some p
        rw [rewriteWdMapForRename, FinMap.get_map, hmap, Option.map_some, remapPathForRename,
          if_neg hne, if_neg hpre, Option.getD_none]
    · exact .inr hrest

/-- The second half of a move whose first half is known. -/
theorem WatchInv.movedTo (h : s.WatchInv) (order : HashOrder) {rest : List InotifyEvent}
    {name : Component} {dir source : PathBuf} (hqueue : s.inotify.queue = ev :: rest)
    (hname : ev.name = some name) (hknown : s.wdMap.get ev.wd = some dir)
    (hmoved : ∀ p, source <+: p → s.Settled p → s.Due rest p ∨ s.Lists ev p) :
    let target := dir ++ [name]
    let s₁ : WatchedRoot := { s.pop rest with
      pendingMoves := s.pendingMoves.erase ev.cookie
      wdMap := rewriteWdMapForRename s.wdMap source target }
    let s₂ := if (s.disk.get source).isNone then s₁.dropStale source else s₁
    (if ev.isDir then s₂.addWatchRecursive order target else s₂).WatchInv := by
  intro target s₁ s₂
  have htarget : ∀ p, s.Lists ev p → target <+: p := by
    rintro p ⟨c, a, hann, ha, hpre⟩
    obtain rfl : dir = a := Option.some.inj (hknown.symm.trans ha)
    obtain rfl : name = c := Option.some.inj (hname.symm.trans hann.name)
    exact hpre
  have hpopped : ({ s.pop rest with
      pendingMoves := s.pendingMoves.erase ev.cookie } : WatchedRoot).Listing (s.Lists ev) := by
    have hpop := h.pop hqueue
    exact { base := { hpop.base with }, closed := hpop.closed, tracked := hpop.tracked }
  have hrewritten : s₁.Listing (s.Lists ev) := hpopped.rewrite hmoved
  have hdropped : s₂.Listing (s.Lists ev) := by
    show (if (s.disk.get source).isNone then s₁.dropStale source else s₁).Listing (s.Lists ev)
    split
    · next hfree => exact hrewritten.dropStale (Option.isNone_iff_eq_none.mp hfree)
    · exact hrewritten
  split
  · exact hdropped.walk order htarget
  · next hfile => exact hdropped.watchInv (not_lists_of_file (Bool.eq_false_iff.mpr hfile))

theorem WatchInv.handleNamed (h : s.WatchInv) (order : HashOrder) {rest : List InotifyEvent}
    {name : Component} {dir : PathBuf} (hqueue : s.inotify.queue = ev :: rest)
    (hname : ev.name = some name) (hknown : s.wdMap.get ev.wd = some dir)
    (hmoved : ev.mask = .movedTo → ∀ source, s.pendingMoves.get ev.cookie = some source →
      ∀ p, source <+: p → s.Settled p → s.Due rest p ∨ s.Lists ev p) :
    ((s.pop rest).handleNamed order ev (dir ++ [name])).WatchInv := by
  have htarget : ∀ p, s.Lists ev p → dir ++ [name] <+: p := by
    rintro p ⟨c, a, hann, ha, hpre⟩
    obtain rfl : dir = a := Option.some.inj (hknown.symm.trans ha)
    obtain rfl : name = c := Option.some.inj (hname.symm.trans hann.name)
    exact hpre
  have hpop := h.pop hqueue
  -- a new directory, or one that was moved in
  have hwalk : ∀ sent : List FsEvent,
      ({ if ev.isDir then (s.pop rest).addWatchRecursive order (dir ++ [name]) else s.pop rest with
        sent := sent } : WatchedRoot).WatchInv := by
    intro sent
    refine WatchInv.congr (s := if ev.isDir then
      (s.pop rest).addWatchRecursive order (dir ++ [name]) else s.pop rest) ?_ rfl rfl rfl
    split
    · exact hpop.walk order htarget
    · next hfile => exact hpop.watchInv (not_lists_of_file (Bool.eq_false_iff.mpr hfile))
  have hquiet : ev.mask ≠ .create → ev.mask ≠ .movedTo → (s.pop rest).WatchInv :=
    fun hcreate hmovedTo => h.pop_quiet hqueue (not_lists hcreate hmovedTo)
  unfold WatchedRoot.handleNamed
  cases hmask : ev.mask with
  | create =>
    simp only
    have hsent := hwalk
    split
    · next hdir =>
      simp only [hdir, if_true] at hsent
      exact hsent _
    · next hfile =>
      exact h.pop_quiet hqueue (not_lists_of_file (Bool.eq_false_iff.mpr hfile))
  | movedTo =>
    simp only
    cases hpending : (s.pop rest).pendingMoves.get ev.cookie with
    | none => exact hwalk _
    | some source =>
      have hdone := h.movedTo order hqueue hname hknown (hmoved hmask source hpending)
      exact hdone.congr rfl rfl rfl
  | movedFrom => exact (hquiet (by simp [hmask]) (by simp [hmask])).congr rfl rfl rfl
  | delete => exact (hquiet (by simp [hmask]) (by simp [hmask])).congr rfl rfl rfl
  | closeWrite => exact (hquiet (by simp [hmask]) (by simp [hmask])).congr rfl rfl rfl
  | deleteSelf => exact hquiet (by simp [hmask]) (by simp [hmask])
  | moveSelf => exact hquiet (by simp [hmask]) (by simp [hmask])
  | ignored => exact hquiet (by simp [hmask]) (by simp [hmask])

/-- An event that the watcher skips: it has no name, or its descriptor is not in the map. -/
theorem WatchInv.pop_skipped (h : s.WatchInv) {rest : List InotifyEvent}
    (hqueue : s.inotify.queue = ev :: rest)
    (hskip : ev.name = none ∨ s.wdMap.get ev.wd = none) : (s.pop rest).WatchInv := by
  refine h.pop_quiet hqueue ?_
  rintro p ⟨c, dir, hann, hdir, -⟩
  cases hskip with
  | inl hnone =>
    rw [hann.name] at hnone
    cases hnone
  | inr hnone =>
    rw [hdir] at hnone
    cases hnone

theorem WatchInv.handle (h : s.WatchInv) {order : HashOrder} (hcond : s.Rewatched (.handle order))
    (hstep : s.step (.handle order) = some s') : s'.WatchInv := by
  unfold WatchedRoot.step at hstep
  cases hqueue : s.inotify.queue with
  | nil => simp [hqueue] at hstep
  | cons ev rest =>
    simp only [hqueue, Option.some.injEq] at hstep
    obtain ⟨hself, hmoved⟩ := hcond ev rest hqueue
    have hs' : (s.pop rest).handleEvent order ev = s' := hstep
    rw [← hs']
    have hpop : ev.mask ≠ .create → ev.mask ≠ .movedTo → (s.pop rest).WatchInv :=
      fun hcreate hmovedTo => h.pop_quiet hqueue (not_lists hcreate hmovedTo)
    have hgone : ev.mask = .ignored ∨ ev.mask = .deleteSelf →
        ∀ num, s.inotify.watches.get num ≠ some ev.wd :=
      h.base.gone ev (hqueue ▸ List.mem_cons_self)
    unfold handleEvent
    cases hmask : ev.mask with
    | ignored => exact (hpop (by simp [hmask]) (by simp [hmask])).erase_gone (hgone (.inl hmask))
    | moveSelf =>
      have hquiet := hpop (by simp [hmask]) (by simp [hmask])
      simp only
      split
      · exact hquiet.dropWatch (hself hmask)
      · exact hquiet
    | deleteSelf =>
      have hquiet := hpop (by simp [hmask]) (by simp [hmask])
      simp only
      split
      · exact hquiet.dropWatch fun p n _ hw => absurd hw (hgone (.inr hmask) n.num)
      · exact hquiet
    | create | closeWrite | delete | movedFrom | movedTo =>
      simp only
      split
      · next name dir hname hknown => exact h.handleNamed order hqueue hname hknown hmoved
      · next hskip =>
        -- one of the two lookups failed
        refine h.pop_skipped hqueue ?_
        cases hname : ev.name with
        | none => exact .inl rfl
        | some name =>
          refine .inr (Option.eq_none_iff_forall_ne_some.mpr fun dir hknown => ?_)
          exact hskip name dir hname hknown

theorem disk_foldl_watchDir (dirs : List PathBuf) (s : WatchedRoot) :
    (dirs.foldl watchDir s).disk = s.disk := by
  induction dirs generalizing s with
  | nil => rfl
  | cons p dirs ih =>
    rw [List.foldl_cons, ih, watchDir]
    split <;> rfl

theorem disk_addWatchRecursive (order : HashOrder) (s : WatchedRoot) (path : PathBuf) :
    (s.addWatchRecursive order path).disk = s.disk :=
  disk_foldl_watchDir _ s

theorem disk_dropStale (s : WatchedRoot) (path : PathBuf) : (s.dropStale path).disk = s.disk := by
  have hfold : ∀ (wds : List Nat) (t : WatchedRoot),
      (wds.foldl WatchedRoot.dropWatch t).disk = t.disk := by
    intro wds
    induction wds with
    | nil => exact fun _ => rfl
    | cons wd wds ih => exact fun t => ih (t.dropWatch wd)
  exact hfold _ s

theorem disk_handleNamed (order : HashOrder) (s : WatchedRoot) (ev : InotifyEvent)
    (rel : PathBuf) : (s.handleNamed order ev rel).disk = s.disk := by
  have hwalk : ∀ t : WatchedRoot, t.disk = s.disk →
      (if ev.isDir then t.addWatchRecursive order rel else t).disk = s.disk := by
    intro t ht
    split
    · rw [disk_addWatchRecursive, ht]
    · exact ht
  have hstale : ∀ (t : WatchedRoot) (source : PathBuf), t.disk = s.disk →
      (if (t.disk.get source).isNone then t.dropStale source else t).disk = s.disk := by
    intro t source ht
    split
    · rw [disk_dropStale, ht]
    · exact ht
  unfold WatchedRoot.handleNamed
  cases ev.mask with
  | movedTo =>
    simp only
    split
    · exact hwalk _ (hstale { s with
        pendingMoves := s.pendingMoves.erase ev.cookie
        wdMap := rewriteWdMapForRename s.wdMap _ rel } _ rfl)
    · exact hwalk s rfl
  | create =>
    simp only
    split
    · exact disk_addWatchRecursive order s rel
    · rfl
  | closeWrite | delete | deleteSelf | moveSelf | movedFrom | ignored => rfl

/-- The watcher does not touch the entries. -/
theorem disk_handle {order : HashOrder} (hstep : s.step (.handle order) = some s') :
    s'.disk = s.disk := by
  unfold WatchedRoot.step at hstep
  cases hqueue : s.inotify.queue with
  | nil => simp [hqueue] at hstep
  | cons ev rest =>
    simp only [hqueue, Option.some.injEq] at hstep
    rw [← hstep]
    unfold handleEvent
    split
    · rfl
    · split <;> rfl
    · split <;> rfl
    · split
      · exact disk_handleNamed order _ ev _
      · rfl

/-- What one step keeps. -/
theorem inv_step {step : WatchStep} (h : s.WatchInv) (hcond : s.Rewatched step)
    (hstep : s.step step = some s') : s'.WatchInv := by
  cases step with
  | user op => exact h.user hstep
  | handle order => exact h.handle hcond hstep
  | expire cookie =>
    simp only [WatchedRoot.step, Option.map_eq_some_iff] at hstep
    obtain ⟨rel, -, rfl⟩ := hstep
    exact h.congr rfl rfl rfl

/-! ## Whole runs -/

theorem Base.empty {disk : Disk} (hdisk : disk.Valid) :
    Base ⟨disk, ⟨.empty, 1, []⟩, .empty, .empty, [], 1⟩ where
  valid := hdisk
  own a b wd ha := by cases ha
  live num wd hw := by cases hw
  known num wd hw := by cases hw
  below num wd hw := by cases hw
  queued ev hev := absurd hev List.not_mem_nil
  gone ev hev := absurd hev List.not_mem_nil

theorem WatchInv.start (order : HashOrder) {disk : Disk} (hdisk : disk.Valid) :
    (WatchedRoot.start order disk).WatchInv := by
  obtain ⟨hbase, hgrows, hall⟩ := addWatchRecursive_spec order (Base.empty hdisk) []
  refine ⟨hbase, fun p hdir => .inl (hall p List.nil_prefix ?_)⟩
  have hsame : (WatchedRoot.start order disk).disk = disk := hgrows.disk
  rwa [hsame] at hdir

/-- Every directory is watched, and the map has for each live descriptor the current path of
    its directory. -/
structure MapComplete (s : WatchedRoot) : Prop where
  watched : ∀ p, s.disk.isDir p = true →
    ∃ n wd, s.disk.get p = some n ∧ s.inotify.watches.get n.num = some wd
  current : ∀ num wd, s.inotify.watches.get num = some wd →
    ∃ p n, s.disk.get p = some n ∧ n.num = num ∧ s.wdMap.get wd = some p

theorem WatchInv.mapComplete (h : s.WatchInv) (hqueue : s.inotify.queue = []) :
    s.MapComplete := by
  have hsettled : ∀ p, s.disk.isDir p = true → s.Settled p := by
    intro p hdir
    obtain hsettled | hdue := h.tracked p hdir
    · exact hsettled
    · obtain ⟨ev, hev, -⟩ := hdue
      rw [hqueue] at hev
      exact absurd hev List.not_mem_nil
  constructor
  · intro p hdir
    obtain ⟨n, wd, hget, -, hw, -⟩ := hsettled p hdir
    exact ⟨n, wd, hget, hw⟩
  · intro num wd hw
    obtain ⟨p, n, hget, hn, rfl⟩ := h.base.live num wd hw
    obtain ⟨m, wd', hm, -, hw', hknown⟩ := hsettled p (Disk.isDir_iff.mpr ⟨n, hget, hn⟩)
    obtain rfl : n = m := Option.some.inj (hget.symm.trans hm)
    obtain rfl : wd = wd' := Option.some.inj (hw.symm.trans hw')
    exact ⟨p, n, hget, rfl, hknown⟩

/-- In a run whose steps are all taken when `Rewatched` holds, the map is complete and correct
    whenever no event is left. -/
theorem watch_map_complete (order : HashOrder) {disk : Disk} (hdisk : disk.Valid)
    {steps : List WatchStep} {s : WatchedRoot}
    (hsteps : Run.StepsMeet step Rewatched (start order disk) steps)
    (hrun : Run.runFrom step (start order disk) steps = some s) :
    Run.Always step (fun t => t.inotify.queue = [] → t.MapComplete) (start order disk) steps := by
  have hinv := Run.always_of_stepsMeet (P := WatchInv) (fun _ _ _ h hcond hstep =>
    inv_step h hcond hstep) (WatchInv.start order hdisk) hsteps hrun
  exact fun bs t hbs ht hqueue => (hinv bs t hbs ht).mapComplete hqueue

/-! ## Two orders of the events of a rename -/

/-- A root with the one directory `a`. -/
def oneDir : Disk :=
  (FinMap.empty.insert [] ⟨1, true⟩).insert (PathBuf.ofNames ["a"]) ⟨2, true⟩

/-- `a` is renamed to `b`; the events arrive in the order of the list. -/
def renameToB (events : List InotifyEvent) : WatchStep :=
  .user (.renameDir (PathBuf.ofNames ["a"]) (PathBuf.ofNames ["b"]) events)

def movedFromA : InotifyEvent := ⟨1, .movedFrom, true, 1, some (.normal "a")⟩

def movedToB : InotifyEvent := ⟨1, .movedTo, true, 1, some (.normal "b")⟩

def moveSelfA : InotifyEvent := ⟨2, .moveSelf, false, 0, none⟩

def handleNext : WatchStep := .handle .sorted

theorem oneDir_valid : oneDir.Valid := by
  have hroot : Disk.Valid (FinMap.empty.insert [] ⟨1, true⟩) := by
    refine ⟨rfl, fun p q m n hp hq _ => ?_⟩
    rw [FinMap.get_insert] at hp hq
    split at hp
    · next hp' =>
      split at hq
      · next hq' => rw [hp', hq']
      · cases hq
    · cases hp
  refine hroot.insert (by decide) fun q m hq => ?_
  rw [FinMap.get_insert] at hq
  split at hq
  · cases hq
    decide
  · cases hq

/-- The directory itself gets its event last: its watch, which the second half of the move has
    kept, is then dropped for good. -/
theorem rename_loses_watch :
    oneDir.Valid ∧ ∃ s, Run.runFrom step (start .sorted oneDir)
        [renameToB [movedFromA, movedToB, moveSelfA], handleNext, handleNext, handleNext,
          handleNext] = some s ∧
      s.inotify.queue = [] ∧ s.disk.isDir (PathBuf.ofNames ["b"]) = true ∧ ¬ s.MapComplete := by
  have hdone : (Run.runFrom step (start .sorted oneDir)
      [renameToB [movedFromA, movedToB, moveSelfA], handleNext, handleNext, handleNext,
        handleNext]).map (fun s => (s.inotify.queue, s.disk.get (PathBuf.ofNames ["b"]),
          s.inotify.watches.get 2)) = some ([], some ⟨2, true⟩, none) := by decide +kernel
  obtain ⟨s, hs, hstate⟩ := Option.map_eq_some_iff.mp hdone
  simp only [Prod.mk.injEq] at hstate
  obtain ⟨hqueue, hget, hw⟩ := hstate
  have hdir : s.disk.isDir (PathBuf.ofNames ["b"]) = true :=
    Disk.isDir_iff.mpr ⟨_, hget, rfl⟩
  refine ⟨oneDir_valid, s, hs, hqueue, hdir, fun hcomplete => ?_⟩
  obtain ⟨n, wd, hn, hwatch⟩ := hcomplete.watched _ hdir
  rw [hget] at hn
  cases hn
  rw [hw] at hwatch
  cases hwatch

/-- Before the events of the rename are handled, with the event of the directory first. -/
theorem rewatched_moveSelf {s : WatchedRoot} (h : s.WatchInv)
    (hqueue : s.inotify.queue = [moveSelfA, movedFromA, movedToB])
    (hroot : s.disk.get [] = some ⟨1, true⟩) (hwroot : s.inotify.watches.get 1 = some 1)
    (hb : s.disk.get (PathBuf.ofNames ["b"]) = some ⟨2, true⟩)
    (hwb : s.inotify.watches.get 2 = some 2) : s.Rewatched handleNext := by
  intro ev rest hev
  rw [hqueue] at hev
  cases hev
  refine ⟨fun _ p n hget hw => ?_, fun hmask => by cases hmask⟩
  have hp : p = PathBuf.ofNames ["b"] :=
    h.base.valid.distinct p _ n _ hget hb (h.base.own _ _ 2 hw hwb)
  exact ⟨movedToB, by simp, [], .normal "b", ⟨1, true⟩, hp ▸ List.prefix_refl _, hroot, rfl, hwroot,
    ⟨rfl, rfl, .inr rfl⟩⟩

/-- A step that handles any other event. -/
theorem rewatched_of_mask {s : WatchedRoot} {rest : List InotifyEvent}
    (hqueue : s.inotify.queue = ev :: rest) (hself : ev.mask ≠ .moveSelf)
    (hto : ev.mask ≠ .movedTo) : s.Rewatched handleNext := by
  intro ev' rest' hev
  rw [hqueue] at hev
  cases hev
  exact ⟨fun hmask => absurd hmask hself, fun hmask => absurd hmask hto⟩

/-- What a run computes, read off its result. -/
theorem view_of_run {β : Type} (f : WatchedRoot → β) {v : β} {steps : List WatchStep}
    (hs : Run.runFrom step s steps = some s')
    (hview : (Run.runFrom step s steps).map f = some v) : f s' = v := by
  rw [hs, Option.map_some] at hview
  exact Option.some.inj hview

/-- The run of `rename_loses_watch` with the event of the directory first. -/
theorem watch_map_complete_renamed :
    Run.Always step (fun t => t.inotify.queue = [] → t.MapComplete) (start .sorted oneDir)
      [renameToB [moveSelfA, movedFromA, movedToB], handleNext, handleNext, handleNext,
        handleNext] := by
  have hruns : (Run.runFrom step (start .sorted oneDir)
      [renameToB [moveSelfA, movedFromA, movedToB], handleNext, handleNext, handleNext,
        handleNext]).isSome = true := by decide +kernel
  obtain ⟨s, hs⟩ := Option.isSome_iff_exists.mp hruns
  refine watch_map_complete .sorted oneDir_valid ?_ hs
  obtain ⟨s₁, h₁, hs⟩ := Run.runFrom_cons.mp hs
  obtain ⟨s₂, h₂, hs⟩ := Run.runFrom_cons.mp hs
  obtain ⟨s₃, h₃, hs⟩ := Run.runFrom_cons.mp hs
  obtain ⟨s₄, h₄, hs⟩ := Run.runFrom_cons.mp hs
  obtain ⟨s₅, h₅, -⟩ := Run.runFrom_cons.mp hs
  have hto₁ := Run.runFrom_cons.mpr ⟨s₁, h₁, Run.runFrom_nil s₁⟩
  have hto₂ := Run.runFrom_append.mpr ⟨s₁, hto₁,
    Run.runFrom_cons.mpr ⟨s₂, h₂, Run.runFrom_nil s₂⟩⟩
  have hto₃ := Run.runFrom_append.mpr ⟨s₂, hto₂,
    Run.runFrom_cons.mpr ⟨s₃, h₃, Run.runFrom_nil s₃⟩⟩
  have hto₄ := Run.runFrom_append.mpr ⟨s₃, hto₃,
    Run.runFrom_cons.mpr ⟨s₄, h₄, Run.runFrom_nil s₄⟩⟩
  -- the event of the directory: its new parent will list it
  have hq₁ : s₁.inotify.queue = [moveSelfA, movedFromA, movedToB] :=
    view_of_run (fun s => s.inotify.queue) hto₁ (by decide +kernel)
  have hmeets₀ : (start .sorted oneDir).Rewatched
      (renameToB [moveSelfA, movedFromA, movedToB]) := trivial
  have hinv₁ : s₁.WatchInv := inv_step (WatchInv.start .sorted oneDir_valid) hmeets₀ h₁
  have hmeets₁ : s₁.Rewatched handleNext :=
    rewatched_moveSelf hinv₁ hq₁
      (view_of_run (fun s => s.disk.get []) hto₁ (by decide +kernel))
      (view_of_run (fun s => s.inotify.watches.get 1) hto₁ (by decide +kernel))
      (view_of_run (fun s => s.disk.get (PathBuf.ofNames ["b"])) hto₁ (by decide +kernel))
      (view_of_run (fun s => s.inotify.watches.get 2) hto₁ (by decide +kernel))
  have hq₂ : s₂.inotify.queue = [movedFromA, movedToB, Inotify.ignoredEvent 2] :=
    view_of_run (fun s => s.inotify.queue) hto₂ (by decide +kernel)
  have hmeets₂ : s₂.Rewatched handleNext := rewatched_of_mask hq₂ (by decide) (by decide)
  -- the second half of the move: nothing is left below `a`
  have hmeets₃ : s₃.Rewatched handleNext := by
    have hq₃ : s₃.inotify.queue = [movedToB, Inotify.ignoredEvent 2] :=
      view_of_run (fun s => s.inotify.queue) hto₃ (by decide +kernel)
    have hpending : s₃.pendingMoves.get 1 = some (PathBuf.ofNames ["a"]) :=
      view_of_run (fun s => s.pendingMoves.get 1) hto₃ (by decide +kernel)
    have hdisk : s₃.disk = oneDir.move (PathBuf.ofNames ["a"]) (PathBuf.ofNames ["b"]) := by
      rw [disk_handle h₃, disk_handle h₂]
      have hrename := view_of_run (fun s => s.disk) hto₁ rfl
      exact hrename
    intro ev rest hev
    rw [hq₃] at hev
    cases hev
    refine ⟨fun hmask => absurd hmask (by decide), fun _ source hsource p hpre hsettled => ?_⟩
    have hfrom : source = PathBuf.ofNames ["a"] :=
      (Option.some.inj (hpending.symm.trans hsource)).symm
    rw [hfrom] at hpre
    obtain ⟨n, wd, hget, -⟩ := hsettled
    have hother : ¬ PathBuf.ofNames ["b"] <+: p := by
      intro hb
      have heq := List.prefix_of_prefix_length_le hb hpre (le_refl _)
      exact absurd heq (by decide)
    rw [hdisk, Disk.get_move, if_neg hother, if_pos hpre] at hget
    cases hget
  have hq₄ : s₄.inotify.queue = [Inotify.ignoredEvent 2] :=
    view_of_run (fun s => s.inotify.queue) hto₄ (by decide +kernel)
  have hmeets₄ : s₄.Rewatched handleNext := rewatched_of_mask hq₄ (by decide) (by decide)
  have hlast : Run.StepsMeet step Rewatched s₅ [] := fun bs a t hpre => by simp at hpre
  exact (Run.stepsMeet_cons h₁).mpr ⟨hmeets₀, (Run.stepsMeet_cons h₂).mpr ⟨hmeets₁,
    (Run.stepsMeet_cons h₃).mpr ⟨hmeets₂, (Run.stepsMeet_cons h₄).mpr ⟨hmeets₃,
      (Run.stepsMeet_cons h₅).mpr ⟨hmeets₄, hlast⟩⟩⟩⟩⟩

end WatchedRoot

end ByteHive
