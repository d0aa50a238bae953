import ByteHive.Native.Session

/-!
# What `send_paths` puts on the wire

`Emits` describes the messages for a list of paths without the loop of the bundler: every
small file and every directory is in some bundle, every large file has its start, its
chunks and its end in this order, and nothing else is sent. Bundles may come in any order
and the messages of different large files may be mixed.

Key results:
- `emits_streamMessages`: one thread of the sender
- `emits_sendPaths`: all threads, in every order in which their messages leave
-/

namespace ByteHive

/-! ## Nodes on the wire -/

/-- What a peer can tell about a node: a directory, or the digest of the content. -/
def digest {α : Type} (blake3 : Content → α) : FileNode Content → Option α
  | .dir _ => none
  | .file c _ => some (blake3 c)

/-- What a path holds: nothing, a directory or a file with a digest. With `id` for the digest
    this is the content. -/
def look {α : Type} (blake3 : Content → α) (t : Tree) (p : PathBuf) : Option (Option α) :=
  (t.get p).map (digest blake3)

/-- Sent in chunks. -/
def isLarge : FileNode Content → Bool
  | .dir _ => false
  | .file c _ => decide (largeFileThreshold ≤ c.length)

/-- The entry of a small node in a bundle. -/
def wireFile (h : Host) (stamp : PathBuf → Nat → Option Nat) (p : PathBuf)
    (n : FileNode Content) : FileData where
  metadata := .ofNode h p n
  content := match n with
    | .dir _ => []
    | .file c _ => c
  actionMs := stamp p n.mtime

/-- The chunks of a large file and its end. -/
def wireChunks (h : Host) (p : PathBuf) (c : Content) (k : Nat) : List Message :=
  (((fileChunks c).drop k).map fun x => .largeFileChunk p x.1 x.2) ++ [.largeFileEnd p (h.blake3 c)]

/-- The messages of a large file. -/
def wireLarge (h : Host) (stamp : PathBuf → Nat → Option Nat) (p : PathBuf) (c : Content)
    (modifiedMs : Nat) : List Message :=
  .largeFileStart (.ofNode h p (.file c modifiedMs)) (totalChunks c.length) (stamp p modifiedMs) ::
    wireChunks h p c 0

theorem wireLarge_eq (h : Host) (stamp : PathBuf → Nat → Option Nat) (p : PathBuf) (c : Content)
    (m : Nat) :
    wireLarge h stamp p c m =
      [.largeFileStart (.ofNode h p (.file c m)) (totalChunks c.length) (stamp p m)] ++
        (((fileChunks c).map fun x => .largeFileChunk p x.1 x.2) ++
          [.largeFileEnd p (h.blake3 c)]) := by
  rw [wireLarge, wireChunks, List.drop_zero, List.singleton_append]

/-- The large file that a message is about. -/
def Message.subject : Message → Option PathBuf
  | .largeFileStart md _ _ => some md.relPath
  | .largeFileChunk p _ _ => some p
  | .largeFileEnd p _ => some p
  | _ => none

/-- The messages about the large file `p`, in order. -/
def about (p : PathBuf) (ms : List Message) : List Message :=
  ms.filter fun m => decide (m.subject = some p)

@[simp] theorem about_nil (p : PathBuf) : about p [] = [] := rfl

@[simp] theorem about_append (p : PathBuf) (ms ms' : List Message) :
    about p (ms ++ ms') = about p ms ++ about p ms' := List.filter_append ..

theorem about_cons_of_subject {p : PathBuf} {m : Message} (h : m.subject = some p)
    (ms : List Message) : about p (m :: ms) = m :: about p ms := by
  simp [about, h]

theorem about_cons_of_ne {p : PathBuf} {m : Message} (h : m.subject ≠ some p)
    (ms : List Message) : about p (m :: ms) = about p ms := by
  simp [about, h]

theorem subject_wireChunks {h : Host} {p : PathBuf} {c : Content} {k : Nat} {m : Message}
    (hm : m ∈ wireChunks h p c k) : m.subject = some p := by
  rcases List.mem_append.mp hm with hm | hm
  · obtain ⟨x, -, rfl⟩ := List.mem_map.mp hm
    rfl
  · rw [List.mem_singleton.mp hm]
    rfl

theorem subject_wireLarge {h : Host} {stamp : PathBuf → Nat → Option Nat} {p : PathBuf}
    {c : Content} {k : Nat} {m : Message} (hm : m ∈ wireLarge h stamp p c k) :
    m.subject = some p := by
  rcases List.mem_cons.mp hm with rfl | hm
  · rfl
  · exact subject_wireChunks hm

theorem about_wireLarge (h : Host) (stamp : PathBuf → Nat → Option Nat) (p q : PathBuf)
    (c : Content) (k : Nat) :
    about q (wireLarge h stamp p c k) = if p = q then wireLarge h stamp p c k else [] := by
  split
  · next hpq =>
    subst hpq
    exact List.filter_eq_self.mpr fun m hm => by simp [subject_wireLarge hm]
  · next hpq =>
    exact List.filter_eq_nil_iff.mpr fun m hm => by simp [subject_wireLarge hm, hpq]

/-! ## The messages for a list of paths -/

section

variable (h : Host) (t : Tree) (stamp : PathBuf → Nat → Option Nat)

/-- The messages about `p` that its node on disk calls for. -/
def largeMessages (p : PathBuf) : List Message :=
  match t.get p with
  | some (.file c m) => if largeFileThreshold ≤ c.length then wireLarge h stamp p c m else []
  | _ => []

/-- The entry is that of a small node at a path in `ps`. -/
def IsSmallEntry (ps : List PathBuf) (fd : FileData) : Prop :=
  ∃ p ∈ ps, ∃ n, t.get p = some n ∧ isLarge n = false ∧ fd = wireFile h stamp p n

/-- The messages `ms`, together with the entries in `cur` that are still to be bundled,
    carry the paths in `ps`. -/
structure Emits (ps : List PathBuf) (cur : List FileData) (ms : List Message) : Prop where
  collected : ∀ fd ∈ cur, IsSmallEntry h t stamp ps fd
  bundled : ∀ b, .bundle b ∈ ms → ∀ fd ∈ b.files, IsSmallEntry h t stamp ps fd
  /-- There are no other messages. -/
  kinds : ∀ m ∈ ms, (∃ b, m = .bundle b) ∨ ∃ p, m.subject = some p
  small : ∀ p ∈ ps, ∀ n, t.get p = some n → isLarge n = false →
    wireFile h stamp p n ∈ cur ∨ ∃ b, .bundle b ∈ ms ∧ wireFile h stamp p n ∈ b.files
  large : ∀ p, about p ms = if p ∈ ps then largeMessages h t stamp p else []

variable {h t stamp}

theorem IsSmallEntry.mono {ps ps' : List PathBuf} {fd : FileData}
    (hfd : IsSmallEntry h t stamp ps fd) (hps : ∀ p ∈ ps, p ∈ ps') :
    IsSmallEntry h t stamp ps' fd := by
  obtain ⟨p, hp, hrest⟩ := hfd
  exact ⟨p, hps p hp, hrest⟩

theorem emits_nil : Emits h t stamp [] [] [] where
  collected := by simp
  bundled := by simp
  kinds := by simp
  small := by simp
  large := by simp

/-- `flush_bundle`. -/
theorem Emits.flush {ps : List PathBuf} {s : BundlerRun} (hs : Emits h t stamp ps s.cur s.sent) :
    Emits h t stamp ps s.flushBundle.cur s.flushBundle.sent := by
  unfold BundlerRun.flushBundle
  split
  · exact hs
  · refine ⟨by simp, ?_, ?_, ?_, ?_⟩
    · intro b hb fd hfd
      rcases List.mem_append.mp hb with hb | hb
      · exact hs.bundled b hb fd hfd
      · obtain rfl := Message.bundle.inj (List.mem_singleton.mp hb)
        exact hs.collected fd hfd
    · intro m hm
      rcases List.mem_append.mp hm with hm | hm
      · exact hs.kinds m hm
      · exact .inl ⟨_, List.mem_singleton.mp hm⟩
    · intro p hp n hn hl
      right
      rcases hs.small p hp n hn hl with hc | ⟨b, hb, hfd⟩
      · exact ⟨⟨s.cur, s.nextBundleId⟩, by simp, hc⟩
      · exact ⟨b, List.mem_append_left _ hb, hfd⟩
    · intro p
      rw [about_append, hs.large p, about_cons_of_ne (by simp [Message.subject])]
      simp

theorem flushBundle_engine (s : BundlerRun) : s.flushBundle.engine = s.engine := by
  unfold BundlerRun.flushBundle
  split <;> rfl

/-- A path that is gone calls for nothing. -/
theorem Emits.gone {ps : List PathBuf} {cur : List FileData} {ms : List Message}
    (hs : Emits h t stamp ps cur ms) {p : PathBuf} (hp : p ∉ ps) (hn : t.get p = none) :
    Emits h t stamp (ps ++ [p]) cur ms where
  collected fd hfd := (hs.collected fd hfd).mono fun _ => List.mem_append_left _
  bundled b hb fd hfd := (hs.bundled b hb fd hfd).mono fun _ => List.mem_append_left _
  kinds := hs.kinds
  small q hq n hqn hl := by
    rcases List.mem_append.mp hq with hq | hq
    · exact hs.small q hq n hqn hl
    · rw [List.mem_singleton.mp hq, hn] at hqn
      cases hqn
  large q := by
    rw [hs.large q]
    by_cases hqp : q = p
    · subst hqp
      simp [hp, largeMessages, hn]
    · simp [hqp]

/-- A small node is collected. -/
theorem Emits.collect {ps : List PathBuf} {cur : List FileData} {ms : List Message}
    (hs : Emits h t stamp ps cur ms) {p : PathBuf} {n : FileNode Content} (hp : p ∉ ps)
    (hn : t.get p = some n) (hl : isLarge n = false) :
    Emits h t stamp (ps ++ [p]) (cur ++ [wireFile h stamp p n]) ms where
  collected fd hfd := by
    rcases List.mem_append.mp hfd with hfd | hfd
    · exact (hs.collected fd hfd).mono fun _ => List.mem_append_left _
    · exact ⟨p, by simp, n, hn, hl, List.mem_singleton.mp hfd⟩
  bundled b hb fd hfd := (hs.bundled b hb fd hfd).mono fun _ => List.mem_append_left _
  kinds := hs.kinds
  small q hq n' hqn hl' := by
    rcases List.mem_append.mp hq with hq | hq
    · exact (hs.small q hq n' hqn hl').imp_left (List.mem_append_left _)
    · obtain rfl := List.mem_singleton.mp hq
      obtain rfl := Option.some.inj (hn.symm.trans hqn)
      exact .inl (by simp)
  large q := by
    rw [hs.large q]
    by_cases hqp : q = p
    · subst hqp
      cases n with
      | dir m => simp [hp, largeMessages, hn]
      | file c m =>
        simp only [isLarge, decide_eq_false_iff_not] at hl
        simp [hp, largeMessages, hn, hl]
    · simp [hqp]

/-- A large file is sent at once. -/
theorem Emits.send {ps : List PathBuf} {cur : List FileData} {ms : List Message}
    (hs : Emits h t stamp ps cur ms) {p : PathBuf} {c : Content} {m : Nat} (hp : p ∉ ps)
    (hn : t.get p = some (.file c m)) (hl : largeFileThreshold ≤ c.length) :
    Emits h t stamp (ps ++ [p]) cur (ms ++ wireLarge h stamp p c m) where
  collected fd hfd := (hs.collected fd hfd).mono fun _ => List.mem_append_left _
  bundled b hb fd hfd := by
    rcases List.mem_append.mp hb with hb | hb
    · exact (hs.bundled b hb fd hfd).mono fun _ => List.mem_append_left _
    · exact absurd (subject_wireLarge hb) (by simp [Message.subject])
  kinds m' hm' := by
    rcases List.mem_append.mp hm' with hm' | hm'
    · exact hs.kinds m' hm'
    · exact .inr ⟨p, subject_wireLarge hm'⟩
  small q hq n' hqn hl' := by
    rcases List.mem_append.mp hq with hq | hq
    · rcases hs.small q hq n' hqn hl' with hc | ⟨b, hb, hfd⟩
      · exact .inl hc
      · exact .inr ⟨b, List.mem_append_left _ hb, hfd⟩
    · obtain rfl := List.mem_singleton.mp hq
      obtain rfl := Option.some.inj (hn.symm.trans hqn)
      simp [isLarge, hl] at hl'
  large q := by
    rw [about_append, hs.large q, about_wireLarge]
    by_cases hqp : q = p
    · subst hqp
      simp [hp, largeMessages, hn, hl]
    · simp [hqp, Ne.symm hqp]

/-- One round of the loop of `stream_messages`. -/
theorem Emits.streamPath {ps : List PathBuf} {s : BundlerRun}
    (hs : Emits h t stamp ps s.cur s.sent) (hengine : s.engine = none)
    (hread : ∀ p, h.fails (.read p) = false) {p : PathBuf} (hp : p ∉ ps) :
    Emits h t stamp (ps ++ [p]) (s.streamPath h t stamp p).cur (s.streamPath h t stamp p).sent ∧
      (s.streamPath h t stamp p).engine = none := by
  have hseq : ∀ s' : BundlerRun, s'.engine = none → s'.changeSequence p = (0, s') := by
    intro s' hs'
    simp [BundlerRun.changeSequence, hs']
  have hfengine : s.flushBundle.engine = none := (flushBundle_engine s).trans hengine
  unfold BundlerRun.streamPath
  split
  · next hn => exact ⟨hs.gone hp hn, hengine⟩
  · next m hn =>
    simp only [hseq s hengine]
    exact ⟨hs.collect hp hn rfl, hengine⟩
  · next c m hn =>
    split
    · next hl =>
      simp only [BundlerRun.streamLargeFile, hread, Bool.false_eq_true, if_false,
        hseq _ hfengine]
      refine ⟨?_, hfengine⟩
      have hsend := hs.flush.send hp hn hl
      rw [wireLarge_eq, ← List.append_assoc, ← List.append_assoc] at hsend
      exact hsend
    · next hl =>
      simp only [hread, Bool.false_eq_true, if_false]
      have hsmall : isLarge (.file c m) = false := by simpa [isLarge] using hl
      split
      · simp only [hseq _ hfengine]
        exact ⟨hs.flush.collect hp hn hsmall, hfengine⟩
      · simp only [hseq s hengine]
        exact ⟨hs.collect hp hn hsmall, hengine⟩

/-- `stream_messages` sends what its paths call for. -/
theorem emits_streamMessages (hread : ∀ p, h.fails (.read p) = false) {ps : List PathBuf}
    (hps : ps.Nodup) (nextBundleId : Nat) :
    Emits h t stamp ps [] (streamMessages h t ps stamp nextBundleId) := by
  have hloop : Emits h t stamp ps
        (ps.foldl (BundlerRun.streamPath h t stamp) ⟨[], 0, [], nextBundleId, none⟩).cur
        (ps.foldl (BundlerRun.streamPath h t stamp) ⟨[], 0, [], nextBundleId, none⟩).sent ∧
      (ps.foldl (BundlerRun.streamPath h t stamp) ⟨[], 0, [], nextBundleId, none⟩).engine = none := by
    induction ps using List.reverseRecOn with
    | nil => exact ⟨emits_nil, rfl⟩
    | append_singleton ps p ih =>
      obtain ⟨hnodup, -, hdisj⟩ := List.nodup_append.mp hps
      have hp : p ∉ ps := fun hmem => hdisj p hmem p (by simp) rfl
      obtain ⟨hemits, hengine⟩ := ih hnodup
      rw [List.foldl_append]
      exact hemits.streamPath hengine hread hp
  have hflush := hloop.1.flush
  have hcur : ∀ s : BundlerRun, s.flushBundle.cur = [] := by
    intro s
    unfold BundlerRun.flushBundle
    split <;> simp_all
  rw [hcur] at hflush
  exact hflush

end

/-! ## Several threads -/

theorem takeFrom_eq_some {α : Type} {ls ls' : List (List α)} {i : Nat} {a : α}
    (hr : takeFrom ls i = some (a, ls')) :
    ∃ pre l post, ls = pre ++ (a :: l) :: post ∧ ls' = pre ++ l :: post := by
  induction ls generalizing i ls' with
  | nil => simp [takeFrom] at hr
  | cons l ls ih =>
    cases i with
    | zero =>
      cases l with
      | nil => simp [takeFrom] at hr
      | cons b l =>
        simp only [takeFrom, Option.some.injEq, Prod.mk.injEq] at hr
        obtain ⟨rfl, rfl⟩ := hr
        exact ⟨[], l, ls, rfl, rfl⟩
    | succ i =>
      simp only [takeFrom, Option.map_eq_some_iff, Prod.mk.injEq] at hr
      obtain ⟨⟨b, ls''⟩, hb, rfl, rfl⟩ := hr
      obtain ⟨pre, l', post, rfl, rfl⟩ := ih hb
      exact ⟨l :: pre, l', post, rfl, rfl⟩

/-- Mixing loses nothing and adds nothing. -/
theorem mem_interleave {α : Type} {ls : List (List α)} {schedule : List Nat} {a : α} :
    a ∈ interleave ls schedule ↔ ∃ l ∈ ls, a ∈ l := by
  induction schedule generalizing ls with
  | nil => simp [interleave, List.mem_flatten]
  | cons i schedule ih =>
    unfold interleave
    split
    · next r hr =>
      obtain ⟨pre, l, post, rfl, hls'⟩ := takeFrom_eq_some hr
      rw [List.mem_cons, ih, hls']
      simp only [List.mem_append, List.mem_cons]
      grind
    · exact ih

/-- When all elements that satisfy `f` are in one list, mixing keeps their order. -/
theorem filter_interleave {α : Type} (f : α → Bool) {ls : List (List α)} (schedule : List Nat)
    (hone : ls.Pairwise fun l l' => l.filter f = [] ∨ l'.filter f = []) :
    (interleave ls schedule).filter f = (ls.map (List.filter f)).flatten := by
  induction schedule generalizing ls with
  | nil => rw [interleave, List.filter_flatten]
  | cons i schedule ih =>
    unfold interleave
    split
    · next r hr =>
      obtain ⟨pre, l, post, rfl, hls'⟩ := takeFrom_eq_some hr
      simp only [hls']
      have hl : (r.1 :: l).filter f = [] → l.filter f = [] := by
        simp only [List.filter_eq_nil_iff, List.mem_cons]
        exact fun hall a ha => hall a (.inr ha)
      have htail : (pre ++ l :: post).Pairwise fun l l' => l.filter f = [] ∨ l'.filter f = [] := by
        rw [List.pairwise_append, List.pairwise_cons] at hone ⊢
        obtain ⟨h₁, ⟨h₂, h₃⟩, h₄⟩ := hone
        refine ⟨h₁, ⟨fun l' hl' => (h₂ l' hl').imp_left hl, h₃⟩, fun l' hl' b hb => ?_⟩
        rcases List.mem_cons.mp hb with rfl | hb
        · exact (h₄ l' hl' _ (by simp)).imp_right hl
        · exact h₄ l' hl' b (by simp [hb])
      by_cases ha : f r.1 = true
      · -- The list of the next element is the one, so the lists before it have none.
        have hpre : (pre.map (List.filter f)).flatten = [] := by
          rw [List.flatten_eq_nil_iff]
          intro l' hl'
          obtain ⟨l'', hl'', rfl⟩ := List.mem_map.mp hl'
          have := (List.pairwise_append.mp hone).2.2 l'' hl'' (r.1 :: l) (by simp)
          simpa [ha] using this
        rw [List.filter_cons_of_pos ha, ih htail]
        simp [hpre, ha]
      · rw [List.filter_cons_of_neg ha, ih htail]
        simp [ha]
    · exact ih hone

theorem flatten_toChunks {α : Type} (n : Nat) (xs : List α) : (xs.toChunks n).flatten = xs := by
  have hgo : ∀ (xs : List α) (acc : Array α) (acc' : Array (List α)),
      (List.toChunks.go n xs acc acc').flatten = acc'.toList.flatten ++ acc.toList ++ xs := by
    intro xs
    induction xs with
    | nil => simp [List.toChunks.go]
    | cons x xs ih =>
      intro acc acc'
      unfold List.toChunks.go
      split <;> simp [ih]
  unfold List.toChunks
  split
  · rfl
  · simp
  · simp [hgo]

/-- `send_paths` sends what its paths call for, whatever the order in which its threads come
    to send. -/
theorem emits_sendPaths {h : Host} (hread : ∀ p, h.fails (.read p) = false) (e : SyncEngine)
    {ps : List PathBuf} (hps : ps.Nodup) (schedule : List Nat) :
    Emits h e.tree e.wireActionStamp ps [] (e.sendPaths h ps schedule) := by
  unfold SyncEngine.sendPaths
  generalize (ps.length + readThreads - 1) / readThreads = size
  have hflat := flatten_toChunks size ps
  generalize ps.toChunks size = shares at hflat
  rw [← hflat, List.nodup_flatten] at hps
  obtain ⟨hnodup, hdisj⟩ := hps
  have hshare : ∀ share ∈ shares, Emits h e.tree e.wireActionStamp share []
      (streamMessages h e.tree share e.wireActionStamp 0) :=
    fun share hs => emits_streamMessages hread (hnodup share hs) 0
  have hmem : ∀ m, m ∈ interleave (shares.map fun share =>
      streamMessages h e.tree share e.wireActionStamp 0) schedule ↔
        ∃ share ∈ shares, m ∈ streamMessages h e.tree share e.wireActionStamp 0 := by
    intro m
    rw [mem_interleave]
    simp
  have hps : ∀ p, p ∈ ps ↔ ∃ share ∈ shares, p ∈ share := by
    intro p
    rw [← hflat, List.mem_flatten]
  refine ⟨by simp, ?_, ?_, ?_, ?_⟩
  · intro b hb fd hfd
    obtain ⟨share, hs, hb⟩ := (hmem _).mp hb
    exact ((hshare share hs).bundled b hb fd hfd).mono fun p hp => (hps p).mpr ⟨share, hs, hp⟩
  · intro m hm
    obtain ⟨share, hs, hm⟩ := (hmem _).mp hm
    exact (hshare share hs).kinds m hm
  · intro p hp n hn hl
    obtain ⟨share, hs, hp⟩ := (hps p).mp hp
    rcases (hshare share hs).small p hp n hn hl with hc | ⟨b, hb, hfd⟩
    · cases hc
    · exact .inr ⟨b, (hmem _).mpr ⟨share, hs, hb⟩, hfd⟩
  · intro p
    have hlarge : ∀ share ∈ shares, about p (streamMessages h e.tree share e.wireActionStamp 0) =
        if p ∈ share then largeMessages h e.tree e.wireActionStamp p else [] :=
      fun share hs => (hshare share hs).large p
    -- Only one share has the path.
    have hone : (shares.map fun share => streamMessages h e.tree share e.wireActionStamp 0).Pairwise
        fun l l' => about p l = [] ∨ about p l' = [] := by
      rw [List.pairwise_map]
      refine hdisj.imp_of_mem fun {s s'} hs hs' hd => ?_
      rw [hlarge s hs, hlarge s' hs']
      by_cases hp : p ∈ s
      · exact .inr (by simp [show p ∉ s' from fun hp' => hd hp hp'])
      · exact .inl (by simp [hp])
    rw [about, filter_interleave _ schedule hone, List.map_map]
    show (shares.map fun share => about p _).flatten = _
    rw [List.map_congr_left hlarge]
    clear hmem hone hshare hlarge
    subst hflat
    induction shares with
    | nil => simp
    | cons s shares ih =>
      have hs : p ∈ s → ∀ s' ∈ shares, p ∉ s' :=
        fun hp s' hs' hp' => (List.pairwise_cons.mp hdisj).1 s' hs' hp hp'
      rw [List.map_cons, List.flatten_cons, ih (fun s' hs' => hnodup s' (by simp [hs']))
        (List.pairwise_cons.mp hdisj).2 (by simp [List.mem_flatten])]
      by_cases hp : p ∈ s
      · have hno : p ∉ shares.flatten := by
          rw [List.mem_flatten]
          rintro ⟨s', hs', hp'⟩
          exact hs hp s' hs' hp'
        simp [hp, hno]
      · simp [hp]

end ByteHive
