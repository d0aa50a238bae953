import ByteHive.Native.BatchRequests
import ByteHive.Spec.InternalFolder

/-!
# Several copies in one request

`handle_batch_copy` makes its copies one after the other, each in the tree that the ones before it
have left, and goes on when one fails. Whatever happens, it only adds: nothing that was there is
changed, and what is new is on the way to a target or below it.
-/

namespace ByteHive.FileBrowser

open FileTree

variable {t t' t'' : RootTree}

/-! ## Adding -/

/-- What was there is there, and what is new is at these places. -/
structure OnlyAdds (places : List String → Prop) (t t' : RootTree) : Prop where
  keeps : ∀ q n, t.get q = some n → t'.get q = some n
  only : ∀ q, t'.get q ≠ t.get q → places q

namespace OnlyAdds

variable {places places' : List String → Prop}

theorem refl (places : List String → Prop) (t : RootTree) : OnlyAdds places t t :=
  ⟨fun _ _ h => h, fun _ h => absurd rfl h⟩

theorem trans (h : OnlyAdds places t t') (h' : OnlyAdds places t' t'') :
    OnlyAdds places t t'' := by
  refine ⟨fun q n hq => h'.keeps q n (h.keeps q n hq), fun q hq => ?_⟩
  by_cases hsame : t'.get q = t.get q
  · exact h'.only q (hsame ▸ hq)
  · exact h.only q hsame

theorem mono (h : OnlyAdds places t t') (hp : ∀ q, places q → places' q) :
    OnlyAdds places' t t' :=
  ⟨h.keeps, fun q hq => hp q (h.only q hq)⟩

/-- Data that was there is there. -/
theorem dataAt_eq (h : OnlyAdds places t t') {p : List String} {d : Option Content}
    (hd : dataAt t p = some d) : dataAt t' p = some d := by
  cases hp : t.get p with
  | some n => rw [← hd, dataAt_congr ((h.keeps p n hp).trans hp.symm)]
  | none =>
    -- Without an entry there is data at the root only.
    by_cases hroot : p = []
    · subst hroot
      rw [← hd]
      simp [dataAt, isDir]
    · rw [dataAt_eq_none hroot hp] at hd
      cases hd

theorem createDirAll {now : Nat} {p : List String} (h : t.createDirAll now p = some t') :
    OnlyAdds (fun q => q <+: p) t t' := by
  refine ⟨fun q n hq => ?_, fun q hq => ?_⟩
  · rw [get_createDirAll h, hq]
    simp
  · rw [get_createDirAll h] at hq
    by_contra hout
    exact hq (if_neg fun hway => hout hway.2.1)

end OnlyAdds

/-! ## One copy -/

section

variable {ls : DirListing Content} {now limit : Nat} {f g : BrowserPath}

theorem copyEntries_frame {src dst q : List String}
    {copyDir : RootTree → List String → List String → CopyEnd Content} {cs : List String}
    (hentry : ∀ s s' c, (copyEntry copyDir now src dst s c).Leaves s' → s'.get q = s.get q)
    (h : (copyEntries copyDir now src dst cs t).Leaves t') : t'.get q = t.get q := by
  induction cs generalizing t with
  | nil =>
    obtain hdone | hfailed := h
    · cases hdone
      rfl
    · cases hfailed
  | cons c cs ih =>
    rw [copyEntries] at h
    split at h
    · next t₁ hdone => exact (ih h).trans (hentry t t₁ c (.inl hdone))
    · next hstop =>
      obtain hdone | hfailed := h
      · exact absurd hdone (hstop t')
      · exact hentry t t' c (.inr hfailed)

theorem copyFile_frame {src dst q : List String} (h : (copyFile now t src dst).Leaves t')
    (hq : Apart q dst) : t'.get q = t.get q := by
  obtain hdone | hfailed := h
  · obtain ⟨data, -, hwrite⟩ := copyFile_eq_done hdone
    rw [get_write hwrite, if_neg]
    intro heq
    exact hq.1 (heq ▸ List.prefix_rfl)
  · rw [copyFile] at hfailed
    split at hfailed
    · cases hfailed
      rfl
    · split at hfailed
      · cases hfailed
        rfl
      · cases hfailed

/-- A copy of a directory changes nothing beside its target, also where it fails. -/
theorem copyDirAll_leaves_frame {src dst q : List String}
    (h : (copyDirAll ls now limit t src dst).Leaves t') (hq : Apart q dst) :
    t'.get q = t.get q := by
  induction limit generalizing t t' src dst with
  | zero => obtain h | h := h <;> cases h
  | succ limit ih =>
    rw [copyDirAll] at h
    split at h
    · obtain h | h := h
      · cases h
      · cases h
        rfl
    · next t₁ hmake =>
      have hmade : t₁.get q = t.get q := by
        rw [get_createDirAll hmake, if_neg fun hway => hq.1 hway.2.1]
      split at h
      · refine (copyEntries_frame (fun s s' c hentry => ?_) h).trans hmade
        have hapart : Apart q (dst ++ [c]) := (hq.symm.append [c]).symm
        rw [copyEntry] at hentry
        split at hentry
        · exact ih hentry hapart
        · exact copyFile_frame hentry hapart
      · obtain h | h := h
        · cases h
        · cases h
          exact hmade

/-- At the place, on the way to it or below it. -/
def Near (p q : List String) : Prop := q <+: p ∨ p <+: q

/-- A copy that is accepted only adds, near its target. -/
theorem acceptedCopy_adds (hto : g.existsIn t = false)
    (h : (acceptedCopy ls now limit t f g).Leaves t') : OnlyAdds (Near g.names) t t' := by
  refine ⟨acceptedCopy_keeps hto h, fun q hq => ?_⟩
  by_contra hnear
  have hapart : Apart q g.names := not_or.mp hnear
  apply hq
  rw [acceptedCopy] at h
  split at h
  · exact copyDirAll_leaves_frame h hapart
  · split at h
    · obtain h | h := h
      · cases h
      · cases h
        rfl
    · exact copyFile_frame h hapart

/-- A copy that ends well has copied exactly. -/
theorem acceptedCopy_copied (hto : g.existsIn t = false)
    (h : acceptedCopy ls now limit t f g = .done t') : CopiedTo t t' f.names g.names := by
  rw [acceptedCopy] at h
  split at h
  · next hdir =>
    obtain ⟨-, t₁, -, hmake, -⟩ := copyDirAll_eq_done h
    have hway := (createDirAll_isSome_iff now).mp (by rw [hmake]; rfl)
    have hapart : Apart f.names g.names := by
      refine ⟨fun hbelow => ?_, (target_not_above hto).2 hdir⟩
      -- Into itself a directory is copied without end.
      rw [copyDirAll_endless hto hdir hbelow hway] at h
      cases h
    exact copyDirAll_copied h hapart (get_target_eq_none hto (hway _ List.prefix_rfl))
  · split at h
    · cases h
    · next hslash =>
      refine copyFile_copied h (get_target_eq_none hto ?_)
      rw [BrowserPath.existsIn, if_neg hslash, pathExists, Bool.or_eq_false_iff] at hto
      rw [isFile]
      cases hget : t.get g.names with
      | none => rfl
      | some n => simp [hget] at hto

/-- Near the target of a job. -/
def NearTarget (job : String × String) (q : List String) : Prop :=
  ∃ g, resolvePath job.2 = .ok g ∧ Near g.names q

/-- A job is done: its target was free, and what was in the source is there now. -/
structure JobDone (t t' : RootTree) (job : String × String) : Prop where
  free : ∀ g, resolvePath job.2 = .ok g → t.get g.names = none
  there : ∀ g, resolvePath job.2 = .ok g → (t'.get g.names).isSome = true
  same : ∃ f g, resolvePath job.1 = .ok f ∧ resolvePath job.2 = .ok g ∧
    ∀ r d, dataAt t (f.names ++ r) = some d → dataAt t' (g.names ++ r) = some d

/-- The copy of one turn, when the directory of the target has been made. -/
theorem copyTo_spec {dot : Bool} (hfrom : f.existsIn t = true) (hto : g.existsIn t = false)
    (h : (copyTo ls now limit t f g dot).Leaves t') :
    OnlyAdds (Near g.names) t t' ∧
      (copyTo ls now limit t f g dot = .done t' → t.get g.names = none ∧
        (t'.get g.names).isSome = true ∧ CopiedTo t t' f.names g.names) := by
  have hcases : copyTo ls now limit t f g dot = .failed t ∨
      copyTo ls now limit t f g dot = acceptedCopy ls now limit t f g := by
    rw [copyTo, acceptedCopy]
    split
    · split
      · exact .inl rfl
      · exact .inr rfl
    · exact .inr rfl
  obtain hfailed | haccepted := hcases
  · rw [hfailed] at h ⊢
    obtain h | h := h
    · cases h
    · cases h
      refine ⟨OnlyAdds.refl _ t, fun hdone => ?_⟩
      cases hdone
  · rw [haccepted] at h ⊢
    refine ⟨acceptedCopy_adds hto h, fun hdone => ?_⟩
    have hcopied := acceptedCopy_copied hto hdone
    have hsource : dataAt t f.names ≠ none := by
      rw [BrowserPath.existsIn] at hfrom
      intro hnone
      rw [dataAt] at hnone
      split at hfrom <;> split at hnone
      · cases hnone
      · contradiction
      · cases hnone
      · next hdir =>
        rw [pathExists, Bool.or_eq_true] at hfrom
        rw [isDir, Bool.or_eq_true, not_or] at hdir
        obtain ⟨n, hn⟩ := Option.isSome_iff_exists.mp (hfrom.resolve_left hdir.1)
        cases n with
        | dir m => exact hdir.2 (by simp [hn, FileNode.isDir])
        | file d m => simp [FileTree.read, hn] at hnone
    have hsame := hcopied.same []
    rw [List.append_nil, List.append_nil] at hsame
    have hne : g.names ≠ [] := by
      intro hnil
      rw [BrowserPath.existsIn, hnil] at hto
      split at hto <;> simp [isDir, pathExists] at hto
    refine ⟨?_, ?_, hcopied⟩
    · -- Otherwise the target was a file, and nothing is copied to a file.
      have hfile : t.isFile g.names = false := by
        by_contra hfile
        rw [Bool.not_eq_false] at hfile
        rw [acceptedCopy] at hdone
        split at hdone
        · obtain ⟨-, t₁, -, hmake, -⟩ := copyDirAll_eq_done hdone
          have hway := (createDirAll_isSome_iff now).mp (by rw [hmake]; rfl) g.names
            List.prefix_rfl
          rw [hfile] at hway
          cases hway
        · split at hdone
          · cases hdone
          · next hslash =>
            rw [BrowserPath.existsIn, if_neg hslash, pathExists, Bool.or_eq_false_iff] at hto
            rw [isFile] at hfile
            cases hget : t.get g.names with
            | none => simp [hget] at hfile
            | some n => simp [hget] at hto
      simpa using get_target_eq_none hto hfile []
    · cases hget : t'.get g.names with
      | none => exact absurd (hsame.symm.trans (dataAt_eq_none hne hget)) hsource
      | some n => rfl

theorem existsIn_congr {p : BrowserPath} (h : t'.get p.names = t.get p.names) :
    p.existsIn t' = p.existsIn t := by
  rw [BrowserPath.existsIn, BrowserPath.existsIn, isDir, isDir, pathExists, pathExists, h]

/-- Making the directory of a target makes neither the target nor the source go away. -/
theorem parent_made {t₁ : RootTree} (hfrom : f.existsIn t = true) (hto : g.existsIn t = false)
    (h : (if t.pathExists g.names.dropLast then some t
      else t.createDirAll now g.names.dropLast) = some t₁) :
    OnlyAdds (Near g.names) t t₁ ∧ f.existsIn t₁ = true ∧ g.existsIn t₁ = false := by
  have hne : g.names ≠ [] := by
    intro hnil
    rw [BrowserPath.existsIn, hnil] at hto
    split at hto <;> simp [isDir, pathExists] at hto
  split at h
  · cases h
    exact ⟨OnlyAdds.refl _ t, hfrom, hto⟩
  · have hadds := OnlyAdds.createDirAll h
    refine ⟨hadds.mono fun q hq => .inl (hq.trans (List.dropLast_prefix _)), ?_, ?_⟩
    · -- What is there keeps its entry.
      by_cases hroot : f.names = []
      · rw [BrowserPath.existsIn, hroot]
        split <;> simp [isDir, pathExists]
      · have hget : t₁.get f.names = t.get f.names := by
          cases hn : t.get f.names with
          | some n => exact hadds.keeps _ n hn
          | none =>
            rw [BrowserPath.existsIn] at hfrom
            split at hfrom <;> simp [isDir, pathExists, hroot, hn] at hfrom
        rw [existsIn_congr hget, hfrom]
    · have hget : t₁.get g.names = t.get g.names := by
        rw [get_createDirAll h, if_neg fun hway => not_prefix_dropLast hne hway.2.1]
      rw [existsIn_congr hget, hto]

theorem copyOne_spec {job : String × String} {failure : Option CopyFailure}
    (h : copyOne ls now limit t job = some (failure, t')) :
    OnlyAdds (NearTarget job) t t' ∧ (failure = none → JobDone t t' job) := by
  have hfailed : ∀ e : CopyFailure, some (some e, t) = some (failure, t') →
      OnlyAdds (NearTarget job) t t' ∧ (failure = none → JobDone t t' job) := by
    intro e he
    cases he
    refine ⟨OnlyAdds.refl _ t, fun hnone => ?_⟩
    cases hnone
  rw [copyOne.eq_def] at h
  split at h
  · exact hfailed _ h
  · exact hfailed _ h
  · next f g hf hg =>
    have hnear : ∀ q, Near g.names q → NearTarget job q := fun q hq => ⟨g, hg, hq⟩
    have honly : ∀ g', resolvePath job.2 = .ok g' → g' = g := by
      intro g' hg'
      rw [hg] at hg'
      cases hg'
      rfl
    split at h
    · exact hfailed _ h
    · next hfrom =>
      split at h
      · exact hfailed _ h
      · next hto =>
        rw [Bool.not_eq_true', Bool.not_eq_false] at hfrom
        rw [Bool.not_eq_true] at hto
        dsimp only at h
        split at h
        · exact hfailed _ h
        · next t₁ hparent =>
          obtain ⟨hmade, hfrom₁, hto₁⟩ := parent_made hfrom hto hparent
          split at h
          · next t₂ hdone =>
            cases h
            obtain ⟨hadds, hcopied⟩ := copyTo_spec hfrom₁ hto₁ (.inl hdone)
            obtain ⟨hfree, hthere, hcopied⟩ := hcopied hdone
            refine ⟨(hmade.trans hadds).mono hnear, fun _ => ?_⟩
            constructor
            · intro g' hg'
              rw [honly g' hg']
              cases hget : t.get g.names with
              | none => rfl
              | some n => rw [hmade.keeps _ n hget] at hfree; cases hfree
            · intro g' hg'
              rwa [honly g' hg']
            · refine ⟨f, g, hf, hg, fun r d hd => ?_⟩
              rw [hcopied.same r]
              exact hmade.dataAt_eq hd
          · next t₂ hfail =>
            cases h
            obtain ⟨hadds, -⟩ := copyTo_spec hfrom₁ hto₁ (.inr hfail)
            refine ⟨(hmade.trans hadds).mono hnear, fun hnone => ?_⟩
            cases hnone
          · cases h

/-! ## All copies -/

/-- What is promised of a job that was done before something else was added. -/
theorem JobDone.later {places : List String → Prop} {job : String × String}
    (h : JobDone t t' job) (hadds : OnlyAdds places t' t'') : JobDone t t'' job where
  free := h.free
  there g hg := by
    obtain ⟨n, hn⟩ := Option.isSome_iff_exists.mp (h.there g hg)
    rw [hadds.keeps _ n hn]
    rfl
  same := by
    obtain ⟨f, g, hf, hg, hsame⟩ := h.same
    exact ⟨f, g, hf, hg, fun r d hd => hadds.dataAt_eq (hsame r d hd)⟩

theorem JobDone.earlier {places : List String → Prop} {job : String × String}
    (h : JobDone t' t'' job) (hadds : OnlyAdds places t t') : JobDone t t'' job where
  free g hg := by
    cases hget : t.get g.names with
    | none => rfl
    | some n =>
      have hfree := h.free g hg
      rw [hadds.keeps _ n hget] at hfree
      cases hfree
  there := h.there
  same := by
    obtain ⟨f, g, hf, hg, hsame⟩ := h.same
    exact ⟨f, g, hf, hg, fun r d hd => hsame r d (hadds.dataAt_eq hd)⟩

/-- Two jobs lead to different places. -/
def OtherTarget (job job' : String × String) : Prop :=
  ∀ g g', resolvePath job.2 = .ok g → resolvePath job'.2 = .ok g' → g.names ≠ g'.names

/-- What the loop does with a list of jobs. -/
structure JobsDone (t t' : RootTree) (jobs copied : List (String × String))
    (failed : List ((String × String) × CopyFailure)) : Prop where
  adds : OnlyAdds (fun q => ∃ job ∈ jobs, NearTarget job q) t t'
  done : ∀ job ∈ copied, JobDone t t' job
  targets : copied.Pairwise OtherTarget
  copied_sublist : copied.Sublist jobs
  failed_sublist : (failed.map (·.1)).Sublist jobs
  all : (copied ++ failed.map (·.1)).Perm jobs

theorem copyEach_spec {jobs copied : List (String × String)}
    {failed : List ((String × String) × CopyFailure)}
    (h : copyEach ls now limit t jobs = some (copied, failed, t')) :
    JobsDone t t' jobs copied failed := by
  induction jobs generalizing t t' copied failed with
  | nil =>
    cases h
    refine ⟨OnlyAdds.refl _ _, fun job hjob => ?_, .nil, .slnil, .slnil, .nil⟩
    cases hjob
  | cons job jobs ih =>
    rw [copyEach] at h
    obtain ⟨⟨failure, t₁⟩, hone, h⟩ := Option.bind_eq_some_iff.mp h
    obtain ⟨⟨copied₁, failed₁, t₂⟩, hrest, h⟩ := Option.bind_eq_some_iff.mp h
    obtain ⟨hadds, hdone⟩ := copyOne_spec hone
    have hadds := hadds.mono fun q hq => (⟨job, by simp, hq⟩ : ∃ j ∈ job :: jobs, NearTarget j q)
    have hrest := ih hrest
    have hadds' : OnlyAdds (fun q => ∃ j ∈ job :: jobs, NearTarget j q) t₁ t₂ := by
      refine hrest.adds.mono fun q hq => ?_
      obtain ⟨j, hj, hq⟩ := hq
      exact ⟨j, by simp [hj], hq⟩
    cases failure with
    | none =>
      cases h
      have hdone := hdone rfl
      refine ⟨hadds.trans hadds', ?_, ?_, hrest.copied_sublist.cons_cons job,
        hrest.failed_sublist.cons job, hrest.all.cons job⟩
      · intro j hj
        obtain rfl | hj := List.mem_cons.mp hj
        · exact hdone.later hrest.adds
        · exact (hrest.done j hj).earlier hadds
      · -- The target of a later job is free when it is done, so it is another one.
        refine List.pairwise_cons.mpr ⟨fun j hj g g' hg hg' heq => ?_, hrest.targets⟩
        have hthere := hdone.there g hg
        rw [heq, (hrest.done j hj).free g' hg'] at hthere
        cases hthere
    | some failure =>
      cases h
      refine ⟨hadds.trans hadds', fun j hj => (hrest.done j hj).earlier hadds, hrest.targets,
        hrest.copied_sublist.cons job, hrest.failed_sublist.cons_cons job, ?_⟩
      exact List.perm_middle.trans (hrest.all.cons job)

/-- Before the first copy there is at most a new folder. -/
theorem batchJobs_grown (now : Nat) (t : RootTree) (body : Json) :
    Grown now t (batchJobs now t body).2 := by
  have hsame : Grown now t t := ⟨Within.refl _ _ now t, fun _ => rfl⟩
  rw [batchJobs]
  split
  · split <;> exact hsame
  · split
    · exact hsame
    · split
      · exact hsame
      · split
        · exact hsame
        · dsimp only
          split
          · exact hsame
          · split
            · split <;> exact hsame
            · next p _ _ =>
              have hgrown := makeTargetDir_grown t now p
                (endsInDot ((body.text "dest_dir").getD ""))
              split
              · next heq =>
                rw [heq] at hgrown
                exact hgrown
              · next heq =>
                rw [heq] at hgrown
                exact hgrown

theorem batchJobs_ne_copied (now : Nat) (t : RootTree) (body : Json)
    (copied : List (String × String)) (failed : List ((String × String) × CopyFailure))
    (t' : RootTree) : batchJobs now t body ≠ (.error (.copied copied failed), t') := by
  intro h
  rw [batchJobs] at h
  split at h
  · split at h <;> cases h
  · split at h
    · cases h
    · split at h
      · cases h
      · split at h
        · cases h
        · dsimp only at h
          split at h
          · cases h
          · split at h
            · split at h <;> cases h
            · split at h <;> cases h

/-- A request for several copies changes nothing that was there. Each of its jobs is reported as
    copied or as failed, both in the order of the request; those reported as copied lead to
    different places that were free, each with all that the source had held, and what else is new
    is near the target of a job. -/
theorem batch_copy_only_adds (ls : DirListing Content) (now limit : Nat) (t : RootTree)
    (body : Option Json) {reply : BatchReply} {t' : RootTree}
    (h : handleBatchCopy ls now limit t body = some (reply, t')) :
    (∀ q n, t.get q = some n → t'.get q = some n) ∧
    ∀ copied failed, reply = .copied copied failed →
      ∃ b jobs t₀, body = some b ∧ batchJobs now t b = (.ok jobs, t₀) ∧
        JobsDone t₀ t' jobs copied failed := by
  rw [handleBatchCopy.eq_def] at h
  split at h
  · cases h
    refine ⟨fun q n hq => hq, fun copied failed hreply => ?_⟩
    cases hreply
  · next b =>
    have hgrown := batchJobs_grown now t b
    have hkeeps : ∀ q n, t.get q = some n → (batchJobs now t b).2.get q = some n :=
      fun q n hq => hgrown.within.keeps q n hq not_false
    split at h
    · next failure t₀ hjobs =>
      rw [hjobs] at hkeeps
      cases h
      refine ⟨hkeeps, fun copied failed hreply => ?_⟩
      -- What keeps a request from being begun is not a report of copies.
      subst hreply
      exact absurd hjobs (batchJobs_ne_copied now t b copied failed t')
    · next jobs t₀ hjobs =>
      rw [hjobs] at hkeeps
      split at h
      · cases h
        refine ⟨hkeeps, fun copied failed hreply => ?_⟩
        cases hreply
      · obtain ⟨⟨copied, failed, t₁⟩, heach, hreply⟩ := Option.map_eq_some_iff.mp h
        cases hreply
        have hdone := copyEach_spec heach
        refine ⟨fun q n hq => hdone.adds.keeps q n (hkeeps q n hq), ?_⟩
        intro copied' failed' hreply
        cases hreply
        exact ⟨b, jobs, t₀, rfl, hjobs, hdone⟩

end

/-- A root with one file. -/
def oneFile : RootTree := (FileTree.empty.write ["a"] [1] 0).getD .empty

/-- A copy into a new folder, and one to where something is. -/
def twoCopies : Json :=
  .obj [("copies", .arr [.obj [("from", .str "a"), ("to", .str "b/c")],
    .obj [("from", .str "a"), ("to", .str "a")]])]

theorem batch_copy_only_adds_two :
    ∃ t', handleBatchCopy .byName 7 3 oneFile (some twoCopies) =
        some (.copied [("a", "b/c")] [(("a", "a"), .destinationExists)], t') ∧
      t'.read ["b", "c"] = some [1] ∧ ∀ q n, oneFile.get q = some n → t'.get q = some n := by
  have hany : (handleBatchCopy .byName 7 3 oneFile (some twoCopies)).any (fun r =>
      decide (r.1 = .copied [("a", "b/c")] [(("a", "a"), .destinationExists)] ∧
        r.2.read ["b", "c"] = some [1])) = true := by
    decide +kernel
  obtain ⟨⟨reply, t'⟩, hr, heq⟩ := (Option.any_eq_true _ _).mp hany
  obtain ⟨rfl, hread⟩ := of_decide_eq_true heq
  exact ⟨t', hr, hread, (batch_copy_only_adds .byName 7 3 oneFile (some twoCopies) hr).1⟩

end ByteHive.FileBrowser
