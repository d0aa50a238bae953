import ByteHive.Spec.Transfer
import ByteHive.Spec.WatchMap

/-!
# What the watcher reports

Entries appear below the root while the watcher works through its events: directories are
made, files are written, trees are moved in. The watcher watches what it finds in a new
directory but reports the directory alone, and streaming a directory sends nothing below
it. So an entry is reported exactly when its own event arrives: its parent has to be
watched when it appears, and a tree that is moved in must have nothing below its top.

## Key results

- `carries_streamMessages_iff`: streaming a path carries this path and no other
- `told_handle`: handling an event neither adds nor loses an entry that is or will be reported
- `contents_reported_iff`: when everything that appeared in a run is reported
-/

namespace ByteHive

/-! ## What streaming a path carries -/

/-- The path that the engine streams for the event. -/
def FsEvent.streamed : FsEvent → Option PathBuf
  | .changed p => some p
  | .writeComplete p => some p
  | .deleted _ => none
  | .renamed _ _ => none

/-- The message carries the file or directory at `q`, or starts to. -/
def Message.Carries (m : Message) (q : PathBuf) : Prop :=
  (∃ b, m = .bundle b ∧ ∃ fd ∈ b.files, fd.metadata.relPath = q) ∨
    ∃ md total stamp, m = .largeFileStart md total stamp ∧ md.relPath = q

theorem relPath_ofNode (h : Host) (p : PathBuf) (n : FileNode Content) :
    (FileMetadata.ofNode h p n).relPath = p := by
  cases n <;> rfl

/-- Streaming one path carries this path only, and only when it is there. -/
theorem carries_streamMessages_iff {h : Host} (hread : ∀ p, h.fails (.read p) = false) {t : Tree}
    (stamp : PathBuf → Nat → Option Nat) (nextBundleId : Nat) {p q : PathBuf} :
    (∃ m ∈ streamMessages h t [p] stamp nextBundleId, m.Carries q) ↔
      p = q ∧ (t.get q).isSome = true := by
  have hemits : Emits h t stamp [p] [] (streamMessages h t [p] stamp nextBundleId) :=
    emits_streamMessages hread (List.nodup_singleton p) nextBundleId
  constructor
  · intro hcarried
    obtain ⟨m, hm, hcarries⟩ := hcarried
    obtain ⟨b, rfl, fd, hfd, hpath⟩ | ⟨md, total, action, rfl, hpath⟩ := hcarries
    · obtain ⟨r, hr, n, hn, -, hentry⟩ := hemits.bundled b hm fd hfd
      rw [hentry] at hpath
      obtain rfl : r = q := (relPath_ofNode h r n).symm.trans hpath
      exact ⟨(List.mem_singleton.mp hr).symm, by rw [hn]; rfl⟩
    · -- a start is among the messages about its own path
      have habout : Message.largeFileStart md total action ∈
          about q (streamMessages h t [p] stamp nextBundleId) :=
        List.mem_filter.mpr ⟨hm, by simp [Message.subject, hpath]⟩
      rw [hemits.large q] at habout
      split at habout
      · next hq =>
        refine ⟨(List.mem_singleton.mp hq).symm, ?_⟩
        cases hget : t.get q with
        | none => simp [largeMessages, hget] at habout
        | some n => rfl
      · exact absurd habout List.not_mem_nil
  · rintro ⟨rfl, hp⟩
    obtain ⟨n, hn⟩ := Option.isSome_iff_exists.mp hp
    cases hlarge : isLarge n with
    | false =>
      obtain hcur | ⟨b, hb, hfd⟩ := hemits.small p (by simp) n hn hlarge
      · exact absurd hcur List.not_mem_nil
      · exact ⟨_, hb, .inl ⟨b, rfl, _, hfd, relPath_ofNode h p n⟩⟩
    | true =>
      cases n with
      | dir modifiedMs => cases hlarge
      | file c modifiedMs =>
        have hlen : largeFileThreshold ≤ c.length := of_decide_eq_true hlarge
        have hstart : Message.largeFileStart (.ofNode h p (.file c modifiedMs))
            (totalChunks c.length) (stamp p modifiedMs) ∈
              about p (streamMessages h t [p] stamp nextBundleId) := by
          rw [hemits.large p, if_pos (by simp), largeMessages, hn]
          simp only [hlen, if_true]
          exact List.mem_cons_self
        exact ⟨_, (List.mem_filter.mp hstart).1, .inr ⟨_, _, _, rfl, relPath_ofNode h p _⟩⟩

namespace WatchedRoot

/-! ## Roots that only grow -/

/-- Steps that let entries appear, and those of the watcher. -/
def Appears : WatchStep → Prop
  | .user (.rmdir _ _) => False
  | .user (.renameDir _ _ _) => False
  | _ => True

/-- Handling the event reports the entry that it is about. -/
def Reports (ev : InotifyEvent) : Prop :=
  ev.mask = .closeWrite ∨ ev.mask = .movedTo ∨ (ev.mask = .create ∧ ev.isDir = true)

/-- The event will report `q`. -/
def Tells (s : WatchedRoot) (ev : InotifyEvent) (q : PathBuf) : Prop :=
  Reports ev ∧ ∃ a c, s.wdMap.get ev.wd = some a ∧ ev.name = some c ∧ q = a ++ [c]

/-- `q` is reported or will be. -/
def Told (s : WatchedRoot) (q : PathBuf) : Prop :=
  (∃ ev ∈ s.sent, ev.streamed = some q) ∨ ∃ ev ∈ s.inotify.queue, s.Tells ev q

/-- Every entry that was not there at first is reported or will be. -/
def AllTold (first : Disk) (s : WatchedRoot) : Prop :=
  ∀ q n, s.disk.get q = some n → first.get q = none → s.Told q

/-- Every watched directory is known by its path. -/
def AllKnown (s : WatchedRoot) : Prop :=
  ∀ p n wd, s.disk.get p = some n → s.inotify.watches.get n.num = some wd →
    s.wdMap.get wd = some p

/-- The event is about an entry of a directory that is watched and known. -/
def About (s : WatchedRoot) (ev : InotifyEvent) : Prop :=
  (ev.mask = .create ∨ ev.mask = .closeWrite ∨ ev.mask = .movedTo) ∧
    ∃ a n c, s.disk.get a = some n ∧ s.inotify.watches.get n.num = some ev.wd ∧
      s.wdMap.get ev.wd = some a ∧ ev.name = some c ∧ (s.disk.get (a ++ [c])).isSome = true

/-- What holds while entries only appear. -/
structure Growing (first : Disk) (s : WatchedRoot) : Prop where
  base : s.Base
  known : s.AllKnown
  moves : ∀ cookie, s.pendingMoves.get cookie = none
  events : ∀ ev ∈ s.inotify.queue, s.About ev
  sent : ∀ ev ∈ s.sent, ∀ q, ev.streamed = some q → (s.disk.get q).isSome = true
  kept : ∀ q n, first.get q = some n → s.disk.get q = some n

/-- The directory at `p` is watched. -/
def Watched (s : WatchedRoot) (p : PathBuf) : Prop :=
  ∃ n wd, s.disk.get p = some n ∧ s.inotify.watches.get n.num = some wd

/-- An entry appears in a watched directory, and nothing appears below it along with it. -/
def Announced (s : WatchedRoot) : WatchStep → Prop
  | .user (.mkdir p _) => s.Watched p.dropLast
  | .user (.writeFile p _) => s.Watched p.dropLast
  | .user (.moveIn p sub) => s.Watched p.dropLast ∧ sub.nothingBelow [] = true
  | _ => True

variable {first : Disk} {s s' : WatchedRoot} {p q : PathBuf} {ev : InotifyEvent}
  {events : List InotifyEvent}

/-- What is reported or will be is there. -/
theorem Growing.exists_of_told (h : s.Growing first) (htold : s.Told q) :
    (s.disk.get q).isSome = true := by
  obtain ⟨ev, hev, hstreamed⟩ | ⟨ev, hev, -, a, c, hknown, hname, rfl⟩ := htold
  · exact h.sent ev hev q hstreamed
  · obtain ⟨-, b, n, d, -, -, hknown', hname', hsome⟩ := h.events ev hev
    obtain rfl : b = a := Option.some.inj (hknown'.symm.trans hknown)
    obtain rfl : d = c := Option.some.inj (hname'.symm.trans hname)
    exact hsome

/-! ## Entries that appear -/

/-- The disk may grow, and events about a new entry `p` may come in. -/
structure Appeared (s s' : WatchedRoot) (p : PathBuf) (events : List InotifyEvent) : Prop where
  valid : s'.disk.Valid
  vacant : s.disk.vacant p = true
  here : (s'.disk.get p).isSome = true
  hold : ∀ q n, s.disk.get q = some n → s'.disk.get q = some n
  queue : s'.inotify.queue = s.inotify.queue ++ events
  watches : s'.inotify.watches = s.inotify.watches
  nextWd : s'.inotify.nextWd = s.inotify.nextWd
  wdMap : s'.wdMap = s.wdMap
  pendingMoves : s'.pendingMoves = s.pendingMoves
  sent : s'.sent = s.sent
  /-- All of them are from the watch of the directory above. -/
  about : ∀ ev ∈ events, (ev.mask = .create ∨ ev.mask = .closeWrite ∨ ev.mask = .movedTo) ∧
    ev.name = p.getLast? ∧ ∃ n, s.disk.get p.dropLast = some n ∧
      s.inotify.watches.get n.num = some ev.wd
  /-- One of them reports the entry. -/
  told : s.Watched p.dropLast → ∃ ev ∈ events, Reports ev

/-- The events of `p` are about `p`. -/
theorem Appeared.path (h : Appeared s s' p events) (hknown : s.AllKnown) (hev : ev ∈ events) :
    ∃ a c n, p = a ++ [c] ∧ s.disk.get a = some n ∧ s.inotify.watches.get n.num = some ev.wd ∧
      s.wdMap.get ev.wd = some a ∧ ev.name = some c := by
  obtain ⟨-, hname, n, hn, hw⟩ := h.about ev hev
  obtain ⟨hp, -, -⟩ := Disk.vacant_iff.mp h.vacant
  obtain ⟨c, hlast⟩ := Option.isSome_iff_exists.mp (List.getLast?_isSome.mpr hp)
  have hsplit : p.dropLast ++ [c] = p := List.dropLast_append_getLast? c hlast
  exact ⟨p.dropLast, c, n, hsplit.symm, hn, hw, hknown _ n ev.wd hn hw, hname.trans hlast⟩

theorem Appeared.growing (h : Appeared s s' p events) (hs : s.Growing first) :
    s'.Growing first := by
  constructor
  · constructor
    · exact h.valid
    · rw [h.watches]
      exact hs.base.own
    · intro num wd hw
      rw [h.watches] at hw
      obtain ⟨q, n, hq, hdir, hnum⟩ := hs.base.live num wd hw
      exact ⟨q, n, h.hold q n hq, hdir, hnum⟩
    · intro num wd hw
      rw [h.watches] at hw
      rw [h.wdMap]
      exact hs.base.known num wd hw
    · intro num wd hw
      rw [h.watches] at hw
      rw [h.nextWd]
      exact hs.base.below num wd hw
    · intro ev hev
      rw [h.queue] at hev
      rw [h.nextWd]
      cases List.mem_append.mp hev with
      | inl hold => exact hs.base.queued ev hold
      | inr hnew =>
        obtain ⟨-, -, n, -, hw⟩ := h.about ev hnew
        exact hs.base.below n.num ev.wd hw
    · intro ev hev hmask
      rw [h.queue] at hev
      rw [h.watches]
      cases List.mem_append.mp hev with
      | inl hold => exact hs.base.gone ev hold hmask
      | inr hnew =>
        obtain ⟨hkind, -⟩ := h.about ev hnew
        obtain hmask | hmask := hmask <;> simp [hmask] at hkind
  · intro q n wd hq hw
    rw [h.watches] at hw
    rw [h.wdMap]
    -- a watched directory was there before
    obtain ⟨r, m, hr, -, hnum⟩ := hs.base.live n.num wd hw
    have hqr : r = q := h.valid.distinct r q m n (h.hold r m hr) hq hnum
    rw [hqr] at hr
    exact hs.known q m wd hr (by rw [hnum]; exact hw)
  · rw [h.pendingMoves]
    exact hs.moves
  · intro ev hev
    rw [h.queue] at hev
    unfold About
    rw [h.watches, h.wdMap]
    cases List.mem_append.mp hev with
    | inl hold =>
      obtain ⟨hkind, a, n, c, ha, hw, hknown, hname, hsome⟩ := hs.events ev hold
      obtain ⟨m, hm⟩ := Option.isSome_iff_exists.mp hsome
      exact ⟨hkind, a, n, c, h.hold a n ha, hw, hknown, hname, by rw [h.hold _ m hm]; rfl⟩
    | inr hnew =>
      obtain ⟨a, c, n, rfl, ha, hw, hknown, hname⟩ := h.path hs.known hnew
      exact ⟨(h.about ev hnew).1, a, n, c, h.hold a n ha, hw, hknown, hname, h.here⟩
  · intro ev hev q hstreamed
    rw [h.sent] at hev
    obtain ⟨n, hn⟩ := Option.isSome_iff_exists.mp (hs.sent ev hev q hstreamed)
    rw [h.hold q n hn]
    rfl
  · exact fun q n hq => h.hold q n (hs.kept q n hq)

/-- Besides what was told before, `p` is told, if its directory is watched. -/
theorem Appeared.told_iff (h : Appeared s s' p events) (hs : s.Growing first) :
    s'.Told q ↔ s.Told q ∨ (q = p ∧ s.Watched p.dropLast) := by
  have htells : ∀ ev, s'.Tells ev q ↔ s.Tells ev q := by
    intro ev
    unfold Tells
    rw [h.wdMap]
  unfold Told
  rw [h.sent, h.queue]
  constructor
  · intro htold
    obtain hsent | ⟨ev, hev, htell⟩ := htold
    · exact .inl (.inl hsent)
    · cases List.mem_append.mp hev with
      | inl hold => exact .inl (.inr ⟨ev, hold, (htells ev).mp htell⟩)
      | inr hnew =>
        obtain ⟨-, -, n, hn, hw⟩ := h.about ev hnew
        obtain ⟨-, a, c, hknown, hname, rfl⟩ := (htells ev).mp htell
        obtain ⟨b, d, -, rfl, -, -, hknown', hname'⟩ := h.path hs.known hnew
        obtain rfl : b = a := Option.some.inj (hknown'.symm.trans hknown)
        obtain rfl : d = c := Option.some.inj (hname'.symm.trans hname)
        exact .inr ⟨rfl, n, ev.wd, hn, hw⟩
  · intro htold
    obtain (hsent | ⟨ev, hev, htell⟩) | ⟨rfl, hwatched⟩ := htold
    · exact .inl hsent
    · exact .inr ⟨ev, List.mem_append_left _ hev, (htells ev).mpr htell⟩
    · obtain ⟨ev, hev, hreports⟩ := h.told hwatched
      obtain ⟨a, c, -, hq, -, -, hknown, hname⟩ := h.path hs.known hev
      exact .inr ⟨ev, List.mem_append_right _ hev,
        (htells ev).mpr ⟨hreports, a, c, hknown, hname, hq⟩⟩

/-- All is told after the step exactly if it was before, the new entry's directory is watched and
    nothing came along with the entry. -/
theorem Appeared.allTold_iff (h : Appeared s s' p events) (hs : s.Growing first) :
    s'.AllTold first ↔ s.AllTold first ∧ s.Watched p.dropLast ∧
      ∀ q n, s'.disk.get q = some n → s.disk.get q = none → q = p := by
  obtain ⟨-, -, hfree⟩ := Disk.vacant_iff.mp h.vacant
  -- what is new in this step is not told before it
  have hunknown : ∀ q, s.disk.get q = none → first.get q = none ∧ ¬ s.Told q := by
    intro q hq
    constructor
    · cases hf : first.get q with
      | none => rfl
      | some n =>
        rw [hs.kept q n hf] at hq
        cases hq
    · intro htold
      have hsome := hs.exists_of_told htold
      rw [hq] at hsome
      cases hsome
  constructor
  · intro hall
    refine ⟨fun q n hq hf => ?_, ?_, fun q n hq hqs => ?_⟩
    · cases (h.told_iff hs).mp (hall q n (h.hold q n hq) hf) with
      | inl htold => exact htold
      | inr hnew =>
        rw [hnew.1, hfree] at hq
        cases hq
    · obtain ⟨n, hn⟩ := Option.isSome_iff_exists.mp h.here
      cases (h.told_iff hs).mp (hall p n hn (hunknown p hfree).1) with
      | inl htold => exact absurd htold (hunknown p hfree).2
      | inr hnew => exact hnew.2
    · cases (h.told_iff hs).mp (hall q n hq (hunknown q hqs).1) with
      | inl htold => exact absurd htold (hunknown q hqs).2
      | inr hnew => exact hnew.1
  · rintro ⟨hall, hwatched, htop⟩ q n hq hf
    refine (h.told_iff hs).mpr ?_
    cases hqs : s.disk.get q with
    | some m => exact .inl (hall q m hqs hf)
    | none => exact .inr ⟨htop q n hq hqs, hwatched⟩

theorem appeared_insert (hs : s.Growing first) {n : Inode} (hvacant : s.disk.vacant p = true)
    (hunused : s.disk.unused n.num = true)
    (habout : ∀ ev ∈ events, (ev.mask = .create ∨ ev.mask = .closeWrite ∨ ev.mask = .movedTo) ∧
      ev.name = p.getLast? ∧ ∃ m, s.disk.get p.dropLast = some m ∧
        s.inotify.watches.get m.num = some ev.wd)
    (htold : s.Watched p.dropLast → ∃ ev ∈ events, Reports ev) :
    Appeared s ({ s with disk := s.disk.insert p n }.notify events) p events where
  valid := hs.base.valid.insert (Disk.vacant_iff.mp hvacant).1 (Disk.unused_iff.mp hunused)
  vacant := hvacant
  here := by
    show ((s.disk.insert p n).get p).isSome = true
    rw [FinMap.get_insert, if_pos rfl]
    rfl
  hold q m hq := by
    show (s.disk.insert p n).get q = some m
    rw [FinMap.get_insert, if_neg, hq]
    rintro rfl
    rw [(Disk.vacant_iff.mp hvacant).2.2] at hq
    cases hq
  queue := rfl
  watches := rfl
  nextWd := rfl
  wdMap := rfl
  pendingMoves := rfl
  sent := rfl
  about := habout
  told := htold

/-- A directory or a file that is made comes alone. -/
theorem newEntry_allTold_iff (hs : s.Growing first) {n : Inode} (hvacant : s.disk.vacant p = true)
    (hunused : s.disk.unused n.num = true)
    (habout : ∀ ev ∈ events, (ev.mask = .create ∨ ev.mask = .closeWrite ∨ ev.mask = .movedTo) ∧
      ev.name = p.getLast? ∧ ∃ m, s.disk.get p.dropLast = some m ∧
        s.inotify.watches.get m.num = some ev.wd)
    (htold : s.Watched p.dropLast → ∃ ev ∈ events, Reports ev) :
    ({ s with disk := s.disk.insert p n }.notify events).Growing first ∧
      (({ s with disk := s.disk.insert p n }.notify events).AllTold first ↔
        s.AllTold first ∧ s.Watched p.dropLast) := by
  have happeared := appeared_insert hs hvacant hunused habout htold
  have halone : ∀ q m, (s.disk.insert p n).get q = some m → s.disk.get q = none → q = p := by
    intro q m hq hnone
    rw [FinMap.get_insert] at hq
    split at hq
    · next heq => exact heq
    · rw [hnone] at hq
      cases hq
  refine ⟨happeared.growing hs, (happeared.allTold_iff hs).trans ?_⟩
  exact ⟨fun h => ⟨h.1, h.2.1⟩, fun h => ⟨h.1, h.2, halone⟩⟩

theorem mkdir_allTold_iff (hs : s.Growing first) {num : Nat}
    (hop : s.userOp (.mkdir p num) = some s') :
    s'.Growing first ∧ (s'.AllTold first ↔ s.AllTold first ∧ s.Watched p.dropLast) := by
  rw [userOp, Option.ite_none_right_eq_some, Bool.and_eq_true] at hop
  obtain ⟨⟨hvacant, hunused⟩, hop⟩ := hop
  cases hop
  refine newEntry_allTold_iff hs hvacant hunused (fun ev hev => ?_) fun hwatched => ?_
  · obtain ⟨m, wd, hm, hw, rfl⟩ := mem_entryEvent.mp hev
    exact ⟨.inl rfl, rfl, m, hm, hw⟩
  · obtain ⟨m, wd, hm, hw⟩ := hwatched
    exact ⟨_, mem_entryEvent.mpr ⟨m, wd, hm, hw, rfl⟩, .inr (.inr ⟨rfl, rfl⟩)⟩

theorem writeFile_allTold_iff (hs : s.Growing first) {num : Nat}
    (hop : s.userOp (.writeFile p num) = some s') :
    s'.Growing first ∧ (s'.AllTold first ↔ s.AllTold first ∧ s.Watched p.dropLast) := by
  rw [userOp, Option.ite_none_right_eq_some, Bool.and_eq_true] at hop
  obtain ⟨⟨hvacant, hunused⟩, hop⟩ := hop
  cases hop
  refine newEntry_allTold_iff hs hvacant hunused (fun ev hev => ?_) fun hwatched => ?_
  · cases List.mem_append.mp hev with
    | inl hcreate =>
      obtain ⟨m, wd, hm, hw, rfl⟩ := mem_entryEvent.mp hcreate
      exact ⟨.inl rfl, rfl, m, hm, hw⟩
    | inr hclose =>
      obtain ⟨m, wd, hm, hw, rfl⟩ := mem_entryEvent.mp hclose
      exact ⟨.inr (.inl rfl), rfl, m, hm, hw⟩
  · obtain ⟨m, wd, hm, hw⟩ := hwatched
    exact ⟨_, List.mem_append_right _ (mem_entryEvent.mpr ⟨m, wd, hm, hw, rfl⟩), .inl rfl⟩

theorem moveIn_allTold_iff (hs : s.Growing first) {sub : Disk}
    (hop : s.userOp (.moveIn p sub) = some s') :
    s'.Growing first ∧ (s'.AllTold first ↔
      s.AllTold first ∧ s.Watched p.dropLast ∧ sub.nothingBelow [] = true) := by
  obtain ⟨hvacant, hclear, htop, -, hvalid, rfl⟩ := moveIn_cases hs.base.valid hop
  have hsub : ∀ r, (s.disk.graft p sub).get (p ++ r) = sub.get r := by
    intro r
    rw [Disk.get_graft, if_pos (List.prefix_append p r), List.drop_left]
  have happeared : Appeared s ({ s with
      disk := s.disk.graft p sub
      nextCookie := s.nextCookie + 1 }.notify
        (s.inotify.entryEvent s.disk p .movedTo (sub.isDir []) s.nextCookie)) p
      (s.inotify.entryEvent s.disk p .movedTo (sub.isDir []) s.nextCookie) :=
    { valid := hvalid
      vacant := hvacant
      here := by
        have hget := hsub []
        rw [List.append_nil] at hget
        show ((s.disk.graft p sub).get p).isSome = true
        rw [hget]
        exact htop
      hold := fun q m hq => by
        show (s.disk.graft p sub).get q = some m
        rw [Disk.get_graft, if_neg (hclear q m hq), hq]
      queue := rfl
      watches := rfl
      nextWd := rfl
      wdMap := rfl
      pendingMoves := rfl
      sent := rfl
      about := fun ev hev => by
        obtain ⟨m, wd, hm, hw, rfl⟩ := mem_entryEvent.mp hev
        exact ⟨.inr (.inr rfl), rfl, m, hm, hw⟩
      told := fun hwatched => by
        obtain ⟨m, wd, hm, hw⟩ := hwatched
        exact ⟨_, mem_entryEvent.mpr ⟨m, wd, hm, hw, rfl⟩, .inr (.inl rfl)⟩ }
  refine ⟨happeared.growing hs, (happeared.allTold_iff hs).trans ?_⟩
  refine and_congr_right fun _ => and_congr_right fun _ => ?_
  rw [Disk.nothingBelow_iff]
  constructor
  · intro halone r m hr _
    have hnone : s.disk.get (p ++ r) = none := by
      cases hget : s.disk.get (p ++ r) with
      | none => rfl
      | some m' => exact absurd (List.prefix_append p r) (hclear _ m' hget)
    have heq := halone (p ++ r) m ((hsub r).trans hr) hnone
    exact List.append_cancel_left (heq.trans (List.append_nil p).symm)
  · intro hnone q m hq hold
    have hget : (s.disk.graft p sub).get q = some m := hq
    rw [Disk.get_graft] at hget
    split at hget
    · next hpq =>
      obtain ⟨r, rfl⟩ := hpq
      rw [List.drop_left] at hget
      rw [hnone r m hget List.nil_prefix, List.append_nil]
    · rw [hold] at hget
      cases hget

/-! ## Events that are handled -/

theorem allKnown_watchDir (h : s.Base) (hknown : s.AllKnown) (hdir : s.disk.isDir p = true) :
    (s.watchDir p).AllKnown := by
  obtain ⟨hbase, hgrows, hsettled⟩ := watchDir_spec h hdir
  obtain ⟨n, hget, -⟩ := Disk.isDir_iff.mp hdir
  -- the other inodes have the watches that they had
  have hwatches : ∀ num, num ≠ n.num →
      (s.watchDir p).inotify.watches.get num = s.inotify.watches.get num := by
    intro num hne
    unfold watchDir
    simp only [hget]
    cases add_spec s.inotify n.num with
    | inl hold => rw [hold.2]
    | inr hnew =>
      rw [hnew.2.2]
      show (s.inotify.watches.insert n.num s.inotify.nextWd).get num = _
      rw [FinMap.get_insert, if_neg hne]
  intro q m wd hq hw
  rw [hgrows.disk] at hq
  by_cases hnum : m.num = n.num
  · obtain ⟨m', wd', hm', -, hw', hmap⟩ := hsettled
    have hqp : q = p := h.valid.distinct q p m n hq hget hnum
    rw [hgrows.disk, ← hqp, hq] at hm'
    obtain rfl : m = m' := Option.some.inj hm'
    obtain rfl : wd = wd' := Option.some.inj (hw.symm.trans hw')
    rw [hmap, hqp]
  · rw [hwatches m.num hnum] at hw
    obtain ⟨r, m', hr, hmdir, hm'⟩ := h.live m.num wd hw
    have hrq : r = q := h.valid.distinct r q m' m hr hq hm'
    obtain rfl : m' = m := Option.some.inj (hr.symm.trans (hrq ▸ hq))
    have hbefore : s.Settled q := ⟨m', wd, hq, hmdir, hw, hknown q m' wd hq hw⟩
    obtain ⟨k, wd', hk, -, hw', hmap⟩ := hgrows.settled q hbefore
    rw [hgrows.disk, hq] at hk
    obtain rfl : m' = k := Option.some.inj hk
    rw [hwatches m'.num hnum] at hw'
    obtain rfl : wd = wd' := Option.some.inj (hw.symm.trans hw')
    exact hmap

theorem allKnown_walk (order : HashOrder) (h : s.Base) (hknown : s.AllKnown) (path : PathBuf) :
    (s.addWatchRecursive order path).AllKnown := by
  have hfold : ∀ (dirs : List PathBuf) (t : WatchedRoot), t.Base → t.AllKnown →
      (∀ p ∈ dirs, t.disk.isDir p = true) → (dirs.foldl watchDir t).AllKnown := by
    intro dirs
    induction dirs with
    | nil => exact fun t _ ht _ => ht
    | cons p dirs ih =>
      intro t hbase ht hdirs
      have hp := hdirs p (by simp)
      obtain ⟨hbase', hgrows, -⟩ := watchDir_spec hbase hp
      refine ih (t.watchDir p) hbase' (allKnown_watchDir hbase ht hp) fun q hq => ?_
      rw [hgrows.disk]
      exact hdirs q (List.mem_cons_of_mem p hq)
  refine hfold _ s h hknown fun p hp => ?_
  exact (Disk.mem_dirsBelow.mp ((order.mem_toList _ p).mp hp)).2

/-- What an event leaves behind: the entries and the rest of the queue, more watches, and what it
    sends. -/
structure Handled (s s' : WatchedRoot) (rest : List InotifyEvent) (sent : List FsEvent) :
    Prop where
  base : s'.Base
  known : s'.AllKnown
  disk : s'.disk = s.disk
  queue : s'.inotify.queue = rest
  settled : ∀ p, s.Settled p → s'.Settled p
  watches : ∀ num wd, s.inotify.watches.get num = some wd →
    s'.inotify.watches.get num = some wd
  pendingMoves : s'.pendingMoves = s.pendingMoves
  sent : s'.sent = s.sent ++ sent

theorem base_pop (h : s.Base) {rest : List InotifyEvent} (hqueue : s.inotify.queue = ev :: rest) :
    (s.pop rest).Base :=
  { h with
    queued := fun ev' hev' => h.queued ev' (hqueue ▸ List.mem_cons_of_mem ev hev')
    gone := fun ev' hev' => h.gone ev' (hqueue ▸ List.mem_cons_of_mem ev hev') }

theorem sent_foldl_watchDir (dirs : List PathBuf) (s : WatchedRoot) :
    (dirs.foldl watchDir s).sent = s.sent ∧
      (dirs.foldl watchDir s).pendingMoves = s.pendingMoves := by
  induction dirs generalizing s with
  | nil => exact ⟨rfl, rfl⟩
  | cons p dirs ih =>
    obtain ⟨hsent, hmoves⟩ := ih (s.watchDir p)
    have hone : (s.watchDir p).sent = s.sent ∧ (s.watchDir p).pendingMoves = s.pendingMoves := by
      unfold watchDir
      split <;> exact ⟨rfl, rfl⟩
    exact ⟨hsent.trans hone.1, hmoves.trans hone.2⟩

/-- With or without a walk through the new place. -/
theorem handled_walk (order : HashOrder) (h : s.Base) (hknown : s.AllKnown)
    {rest : List InotifyEvent} (hqueue : s.inotify.queue = ev :: rest) (walks : Bool)
    (path : PathBuf) (sent : List FsEvent) :
    Handled s { if walks then (s.pop rest).addWatchRecursive order path else s.pop rest with
      sent := (if walks then (s.pop rest).addWatchRecursive order path else s.pop rest).sent ++
        sent } rest sent := by
  have hbase := base_pop h hqueue
  cases walks with
  | false => exact ⟨{ hbase with }, hknown, rfl, rfl, fun _ hp => hp, fun _ _ hw => hw, rfl, rfl⟩
  | true =>
    obtain ⟨hwalked, hgrows, -⟩ := addWatchRecursive_spec order hbase path
    have hall := allKnown_walk order hbase hknown path
    obtain ⟨hsent, hmoves⟩ := sent_foldl_watchDir
      (order.toList ((s.pop rest).disk.dirsBelow path)) (s.pop rest)
    simp only [if_true]
    refine ⟨{ hwalked with }, hall, hgrows.disk, hgrows.queue, hgrows.settled, hgrows.watches,
      hmoves, ?_⟩
    exact congrArg (· ++ sent) hsent

/-- An event about an entry sends the entry, unless it is the creation of a file. -/
theorem handled_of_about (order : HashOrder) (h : s.Growing first) {rest : List InotifyEvent}
    (hqueue : s.inotify.queue = ev :: rest) :
    ∃ a c sent, s.wdMap.get ev.wd = some a ∧ ev.name = some c ∧
      Handled s ((s.pop rest).handleEvent order ev) rest sent ∧
      ∀ q, (∃ e ∈ sent, e.streamed = some q) ↔ Reports ev ∧ q = a ++ [c] := by
  obtain ⟨hkind, a, n, c, -, -, hknown, hname, -⟩ := h.events ev (hqueue ▸ List.mem_cons_self)
  have hlookup : (s.pop rest).wdMap.get ev.wd = some a := hknown
  have hnopending : (s.pop rest).pendingMoves.get ev.cookie = none := h.moves ev.cookie
  have hone : ∀ e : FsEvent, e.streamed = some (a ++ [c]) → Reports ev →
      ∀ q, (∃ e' ∈ [e], e'.streamed = some q) ↔ Reports ev ∧ q = a ++ [c] := by
    intro e he hreports q
    simp only [List.mem_singleton, exists_eq_left, he, Option.some.injEq]
    exact ⟨fun heq => ⟨hreports, heq.symm⟩, fun hq => hq.2.symm⟩
  refine ⟨a, c, ?_⟩
  unfold handleEvent
  obtain hmask | hmask | hmask := hkind
  · simp only [hmask, hname, hlookup, handleNamed]
    cases hdir : ev.isDir with
    | true =>
      refine ⟨_, hknown, trivial, handled_walk order h.base h.known hqueue true (a ++ [c])
        [.changed (a ++ [c])], hone _ rfl (.inr (.inr ⟨hmask, hdir⟩))⟩
    | false =>
      have hquiet := handled_walk order h.base h.known hqueue false (a ++ [c]) []
      simp only [Bool.false_eq_true, if_false, List.append_nil] at hquiet
      refine ⟨[], hknown, trivial, hquiet, fun q => ?_⟩
      simp [Reports, hmask, hdir]
  · simp only [hmask, hname, hlookup, handleNamed]
    exact ⟨_, hknown, trivial, handled_walk order h.base h.known hqueue false (a ++ [c])
      [.writeComplete (a ++ [c])], hone _ rfl (.inl hmask)⟩
  · simp only [hmask, hname, hlookup, handleNamed, hnopending]
    exact ⟨_, hknown, trivial, handled_walk order h.base h.known hqueue ev.isDir (a ++ [c])
      [.writeComplete (a ++ [c])], hone _ rfl (.inr (.inl hmask))⟩

/-- Handling an event neither adds nor loses what is reported or will be. -/
theorem told_handle {order : HashOrder} (h : s.Growing first)
    (hstep : s.step (.handle order) = some s') :
    s'.Growing first ∧ ∀ q, s'.Told q ↔ s.Told q := by
  unfold WatchedRoot.step at hstep
  cases hqueue : s.inotify.queue with
  | nil => simp [hqueue] at hstep
  | cons ev rest =>
    simp only [hqueue, Option.some.injEq] at hstep
    have hs' : (s.pop rest).handleEvent order ev = s' := hstep
    obtain ⟨a, c, sent, hknown, hname, hhandled, hsends⟩ := handled_of_about order h hqueue
    rw [hs'] at hhandled
    -- the events that are left look their descriptors up as before
    have hmap : ∀ e ∈ rest, s'.wdMap.get e.wd = s.wdMap.get e.wd := by
      intro e he
      obtain ⟨-, b, n, d, hb, hw, hmapped, -⟩ := h.events e (hqueue ▸ List.mem_cons_of_mem ev he)
      rw [hmapped]
      exact hhandled.known b n e.wd (hhandled.disk ▸ hb) (hhandled.watches n.num e.wd hw)
    have htells : ∀ e ∈ rest, ∀ q, s'.Tells e q ↔ s.Tells e q := by
      intro e he q
      unfold Tells
      rw [hmap e he]
    have hhead : ∀ q, s.Tells ev q ↔ Reports ev ∧ q = a ++ [c] := by
      intro q
      constructor
      · rintro ⟨hreports, b, d, hb, hd, rfl⟩
        obtain rfl : a = b := Option.some.inj (hknown.symm.trans hb)
        obtain rfl : c = d := Option.some.inj (hname.symm.trans hd)
        exact ⟨hreports, rfl⟩
      · rintro ⟨hreports, hq⟩
        exact ⟨hreports, a, c, hknown, hname, hq⟩
    have hgrowing : s'.Growing first := by
      refine ⟨hhandled.base, hhandled.known, ?_, fun e he => ?_, fun e he q hstreamed => ?_, ?_⟩
      · rw [hhandled.pendingMoves]
        exact h.moves
      · rw [hhandled.queue] at he
        obtain ⟨hkind, b, n, d, hb, hw, hmapped, hd, hsome⟩ :=
          h.events e (hqueue ▸ List.mem_cons_of_mem ev he)
        refine ⟨hkind, b, n, d, hhandled.disk ▸ hb, hhandled.watches n.num e.wd hw, ?_, hd, ?_⟩
        · rw [hmap e he, hmapped]
        · rw [hhandled.disk]
          exact hsome
      · rw [hhandled.disk]
        rw [hhandled.sent] at he
        cases List.mem_append.mp he with
        | inl hold => exact h.sent e hold q hstreamed
        | inr hnew =>
          have htell := (hhead q).mpr ((hsends q).mp ⟨e, hnew, hstreamed⟩)
          exact h.exists_of_told (.inr ⟨ev, hqueue ▸ List.mem_cons_self, htell⟩)
      · rw [hhandled.disk]
        exact h.kept
    refine ⟨hgrowing, fun q => ?_⟩
    unfold Told
    rw [hhandled.sent, hhandled.queue, hqueue]
    constructor
    · rintro (⟨e, he, hstreamed⟩ | ⟨e, he, htell⟩)
      · cases List.mem_append.mp he with
        | inl hold => exact .inl ⟨e, hold, hstreamed⟩
        | inr hnew =>
          exact .inr ⟨ev, List.mem_cons_self, (hhead q).mpr ((hsends q).mp ⟨e, hnew, hstreamed⟩)⟩
      · exact .inr ⟨e, List.mem_cons_of_mem ev he, (htells e he q).mp htell⟩
    · rintro (⟨e, he, hstreamed⟩ | ⟨e, he, htell⟩)
      · exact .inl ⟨e, List.mem_append_left sent he, hstreamed⟩
      · cases List.mem_cons.mp he with
        | inl heq =>
          obtain ⟨e', he', hstreamed⟩ := (hsends q).mpr ((hhead q).mp (heq ▸ htell))
          exact .inl ⟨e', List.mem_append_right s.sent he', hstreamed⟩
        | inr hrest => exact .inr ⟨e, hrest, (htells e hrest q).mpr htell⟩

/-- What one step keeps and asks for. -/
theorem step_allTold_iff {step : WatchStep} (happears : Appears step) (h : s.Growing first)
    (hstep : s.step step = some s') :
    s'.Growing first ∧ (s'.AllTold first ↔ s.AllTold first ∧ s.Announced step) := by
  cases step with
  | user op =>
    cases op with
    | mkdir p num => exact mkdir_allTold_iff h hstep
    | writeFile p num => exact writeFile_allTold_iff h hstep
    | moveIn p sub => exact moveIn_allTold_iff h hstep
    | rmdir p events => exact absurd happears id
    | renameDir source target events => exact absurd happears id
  | handle order =>
    obtain ⟨hgrowing, htold⟩ := told_handle h hstep
    refine ⟨hgrowing, ?_⟩
    unfold AllTold
    rw [disk_handle hstep]
    simp only [htold]
    exact ⟨fun hall => ⟨hall, trivial⟩, fun hall => hall.1⟩
  | expire cookie =>
    -- no move is open
    simp [WatchedRoot.step, h.moves cookie] at hstep

/-! ## Whole runs -/

theorem growing_start (order : HashOrder) {disk : Disk} (hdisk : disk.Valid) :
    (start order disk).Growing disk := by
  have hinv := WatchInv.start order hdisk
  have hsame : (start order disk).disk = disk := disk_addWatchRecursive _ _ _
  have hqueue : (start order disk).inotify.queue = [] := by
    have hgrows := (addWatchRecursive_spec order (Base.empty hdisk) []).2.1
    exact hgrows.queue
  obtain ⟨hsent, hmoves⟩ := sent_foldl_watchDir (order.toList (disk.dirsBelow []))
    ⟨disk, ⟨.empty, 1, []⟩, .empty, .empty, [], 1⟩
  constructor
  · exact hinv.base
  · refine allKnown_walk order (Base.empty hdisk) (fun p n wd _ hw => ?_) []
    cases hw
  · intro cookie
    exact congrArg (FinMap.get · cookie) hmoves
  · intro ev hev
    rw [hqueue] at hev
    exact absurd hev List.not_mem_nil
  · intro ev hev
    have hnone : (start order disk).sent = [] := hsent
    rw [hnone] at hev
    exact absurd hev List.not_mem_nil
  · intro q n hq
    rw [hsame]
    exact hq

/-- After a run in which entries appear at will, and in which all events are handled, each entry
    that appeared is carried by the messages for some reported path exactly if every entry
    appeared in a directory that was already watched and came with nothing below it. -/
theorem contents_reported_iff (order : HashOrder) {disk : Disk} (hdisk : disk.Valid)
    {steps : List WatchStep} (happears : ∀ a ∈ steps, Appears a) {s : WatchedRoot}
    (hrun : Run.runFrom step (start order disk) steps = some s) (hqueue : s.inotify.queue = [])
    {h : Host} (hread : ∀ p, h.fails (.read p) = false) {t : Tree}
    (hsame : ∀ q, t.pathExists q = (s.disk.get q).isSome) (stamp : PathBuf → Nat → Option Nat)
    (nextBundleId : Nat) :
    (∀ q n, s.disk.get q = some n → disk.get q = none → ∃ ev ∈ s.sent, ∃ p,
      ev.streamed = some p ∧ ∃ m ∈ streamMessages h t [p] stamp nextBundleId, m.Carries q) ↔
    Run.StepsMeet step Announced (start order disk) steps := by
  have hstart : (start order disk).AllTold disk := by
    intro q n hq hnone
    rw [show (start order disk).disk = disk from disk_addWatchRecursive _ _ _, hnone] at hq
    cases hq
  obtain ⟨-, hfinal⟩ := Run.final_iff_stepsMeet (I := Growing disk) (P := AllTold disk)
    (K := Appears) (c := Announced) (fun _ _ _ ha hI hstep => step_allTold_iff ha hI hstep)
    happears (growing_start order hdisk) hrun
  rw [show Run.StepsMeet step Announced (start order disk) steps ↔ s.AllTold disk from
    ⟨fun hmeets => hfinal.mpr ⟨hstart, hmeets⟩, fun hall => (hfinal.mp hall).2⟩]
  simp only [carries_streamMessages_iff hread]
  refine forall_congr' fun q => forall_congr' fun n => imp_congr_right fun hq =>
    imp_congr_right fun hnone => ?_
  -- the root is not new, so the engine's tree has an entry for `q`
  have hentry : (t.get q).isSome = true := by
    have hne : q ≠ [] := by
      rintro rfl
      obtain ⟨m, hm, -⟩ := Disk.isDir_iff.mp hdisk.root
      rw [hm] at hnone
      cases hnone
    have hexists := hsame q
    rw [hq, FileTree.pathExists, decide_eq_false hne, Bool.false_or] at hexists
    exact hexists
  constructor
  · rintro ⟨ev, hev, p, hstreamed, rfl, -⟩
    exact .inl ⟨ev, hev, hstreamed⟩
  · rintro (⟨ev, hev, hstreamed⟩ | ⟨ev, hev, -⟩)
    · exact ⟨ev, hev, q, hstreamed, rfl, hentry⟩
    · rw [hqueue] at hev
      exact absurd hev List.not_mem_nil

/-- A root with nothing in it. -/
def emptyRoot : Disk := FinMap.empty.insert [] ⟨1, true⟩

/-- A directory with the one file `x`. -/
def dirWithX : Disk :=
  (FinMap.empty.insert [] ⟨2, true⟩).insert (PathBuf.ofNames ["x"]) ⟨3, false⟩

theorem emptyRoot_valid : emptyRoot.Valid := by
  refine ⟨rfl, fun p q m n hp hq _ => ?_⟩
  rw [emptyRoot, FinMap.get_insert] at hp hq
  split at hp
  · next hp' =>
    split at hq
    · next hq' => rw [hp', hq']
    · cases hq
  · cases hp

/-- The file `x` is written below the root. -/
theorem contents_reported_file :
    ∃ t s, (FileTree.empty : Tree).write (PathBuf.ofNames ["x"]) [] 1 = some t ∧
      Run.runFrom step (start .sorted emptyRoot)
        [.user (.writeFile (PathBuf.ofNames ["x"]) 2), handleNext, handleNext] = some s ∧
      ((∀ q n, s.disk.get q = some n → emptyRoot.get q = none → ∃ ev ∈ s.sent, ∃ p,
          ev.streamed = some p ∧ ∃ m ∈ streamMessages (.reliable (fun _ => 0) 0) t [p]
            (fun _ _ => none) 0, m.Carries q) ↔
        Run.StepsMeet step Announced (start .sorted emptyRoot)
          [.user (.writeFile (PathBuf.ofNames ["x"]) 2), handleNext, handleNext]) := by
  obtain ⟨t, ht⟩ := Option.isSome_iff_exists.mp (show ((FileTree.empty : Tree).write
    (PathBuf.ofNames ["x"]) [] 1).isSome = true by decide +kernel)
  have hruns : (Run.runFrom step (start .sorted emptyRoot)
      [.user (.writeFile (PathBuf.ofNames ["x"]) 2), handleNext, handleNext]).isSome = true := by
    decide +kernel
  obtain ⟨s, hs⟩ := Option.isSome_iff_exists.mp hruns
  have hdisk : s.disk = emptyRoot.insert (PathBuf.ofNames ["x"]) ⟨2, false⟩ := by
    obtain ⟨s₁, h₁, hrest⟩ := Run.runFrom_cons.mp hs
    obtain ⟨s₂, h₂, hrest⟩ := Run.runFrom_cons.mp hrest
    obtain ⟨s₃, h₃, hrest⟩ := Run.runFrom_cons.mp hrest
    obtain rfl : s₃ = s := Option.some.inj hrest
    have hwrite := view_of_run (fun s => s.disk)
      (Run.runFrom_cons.mpr ⟨s₁, h₁, Run.runFrom_nil s₁⟩) rfl
    rw [disk_handle h₃, disk_handle h₂]
    exact hwrite
  refine ⟨t, s, ht, hs, contents_reported_iff .sorted emptyRoot_valid ?_ hs
    (view_of_run (fun s => s.inotify.queue) hs (by decide +kernel)) (fun _ => rfl) (fun q => ?_)
    _ _⟩
  · intro a ha
    simp only [List.mem_cons, List.not_mem_nil, or_false] at ha
    obtain rfl | rfl | rfl := ha <;> trivial
  · rw [hdisk, FileTree.pathExists, FileTree.get_write ht, emptyRoot, FinMap.get_insert,
      FinMap.get_insert]
    by_cases hx : q = PathBuf.ofNames ["x"]
    · simp [hx]
    · rw [if_neg hx, if_neg hx]
      by_cases hnil : q = [] <;> simp [hnil]

/-- A directory that is moved in is reported, the file in it is not. -/
theorem moved_in_file_unreported :
    ∃ s, Run.runFrom step (start .sorted emptyRoot)
        [.user (.moveIn (PathBuf.ofNames ["d"]) dirWithX), handleNext] = some s ∧
      s.inotify.queue = [] ∧ s.disk.get (PathBuf.ofNames ["d", "x"]) = some ⟨3, false⟩ ∧
      ∀ ev ∈ s.sent, ∀ p, ev.streamed = some p → ∀ t : Tree,
        ∀ m ∈ streamMessages (.reliable (fun _ => 0) 0) t [p] (fun _ _ => none) 0,
          ¬ m.Carries (PathBuf.ofNames ["d", "x"]) := by
  have hruns : (Run.runFrom step (start .sorted emptyRoot)
      [.user (.moveIn (PathBuf.ofNames ["d"]) dirWithX), handleNext]).isSome = true := by
    decide +kernel
  obtain ⟨s, hs⟩ := Option.isSome_iff_exists.mp hruns
  have hsent : s.sent = [.writeComplete (PathBuf.ofNames ["d"])] :=
    view_of_run (fun s => s.sent) hs (by decide +kernel)
  refine ⟨s, hs, view_of_run (fun s => s.inotify.queue) hs (by decide +kernel),
    view_of_run (fun s => s.disk.get (PathBuf.ofNames ["d", "x"])) hs (by decide +kernel), ?_⟩
  intro ev hev p hstreamed t m hm hcarries
  rw [hsent, List.mem_singleton] at hev
  rw [hev] at hstreamed
  cases hstreamed
  have hsame := (carries_streamMessages_iff (fun _ => rfl) _ _).mp ⟨m, hm, hcarries⟩
  exact absurd hsame.1 (by decide)

end WatchedRoot

end ByteHive
