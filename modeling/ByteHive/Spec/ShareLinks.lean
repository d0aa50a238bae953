import ByteHive.ForStd.Since
import ByteHive.Native.ShareLinks

/-!
# What a share link gives, and to whom

A link gives its file or folder exactly as long as it has been made and since then neither been
deleted by somebody who may nor been collected after its expiry, and only with its password. It
counts how often it did.
-/

namespace ByteHive

open FileBrowser TextLines Run

/-! ## Passwords -/

theorem utf8Bytes_inj {a b : String} : utf8Bytes a = utf8Bytes b ↔ a = b := by
  constructor
  · intro h
    exact String.toByteArray_inj.mp (ByteArray.ext (Array.toList_inj.mp h))
  · rintro rfl
    rfl

theorem or_xor_eq_zero {d x y : UInt8} : d ||| x ^^^ y = 0 ↔ d = 0 ∧ x = y := by
  constructor
  · intro h
    obtain ⟨hd, hxy⟩ := UInt8.or_eq_zero_iff.mp h
    exact ⟨hd, UInt8.xor_eq_zero_iff.mp hxy⟩
  · rintro ⟨rfl, rfl⟩
    simp

/-- The fold finds every difference. -/
theorem foldl_diff_eq_zero {as bs : List UInt8} (hlen : as.length = bs.length) (d : UInt8) :
    (as.zip bs).foldl (fun diff x => diff ||| x.1 ^^^ x.2) d = 0 ↔ d = 0 ∧ as = bs := by
  induction as generalizing bs d with
  | nil =>
    obtain rfl := List.length_eq_zero_iff.mp hlen.symm
    simp
  | cons a as ih =>
    cases bs with
    | nil => cases hlen
    | cons b bs =>
      rw [List.zip_cons_cons, List.foldl_cons, ih (Nat.succ.inj hlen), or_xor_eq_zero,
        List.cons.injEq, and_assoc]

theorem constantEq_iff {a b : String} : constantEq a b = true ↔ a = b := by
  rw [constantEq, Bool.and_eq_true, decide_eq_true_eq, decide_eq_true_eq, ← utf8Bytes_inj]
  constructor
  · rintro ⟨hlen, hfold⟩
    exact ((foldl_diff_eq_zero hlen 0).mp hfold).2
  · intro h
    have hlen := congrArg List.length h
    exact ⟨hlen, (foldl_diff_eq_zero hlen 0).mpr ⟨rfl, h⟩⟩

namespace ShareState

variable {host : ShareHost} {σ σ' : ShareState} {ev : Nat × ShareEvent}

/-! ## What a step gives and takes -/

/-- The links that a step makes. -/
def granted (host : ShareHost) (σ : ShareState) (ev : Nat × ShareEvent) : List ShareLink :=
  match ev.2 with
  | .create user body token =>
    match σ.handleCreateShare host ev.1 user body token with
    | some (.created link, _) => [link]
    | _ => []
  | .createEach user body tokens =>
    match σ.handleBatchShare host ev.1 user body tokens with
    | some (.createdEach links _, _) => links
    | _ => []
  | _ => []

/-- A step that ends a link: it is deleted by who made it or by an admin, or collected after it has
    expired. -/
def Ends (s : ShareLink) (ev : Nat × ShareEvent) : Prop :=
  match ev.2 with
  | .delete user role query =>
    param query "token" = some s.token ∧ (role = "admin" ∨ s.createdBy = user)
  | .gc => s.isExpiredAt ev.1 = true
  | _ => False

instance (s : ShareLink) (ev : Nat × ShareEvent) : Decidable (Ends s ev) := by
  unfold Ends
  split <;> infer_instance

/-- A link has been made in a run, and nothing has ended it since. -/
def Holds (host : ShareHost) (disk : Option RootTree) (evs : List (Nat × ShareEvent))
    (s : ShareLink) : Prop :=
  Since (step host) (fun σ ev => s ∈ granted host σ ev) (Ends s) (init disk) evs

/-- The tokens of all links that are made in a run are different. -/
def FreshTokens (host : ShareHost) (disk : Option RootTree) (evs : List (Nat × ShareEvent)) :
    Prop :=
  ((given (step host) (granted host) (init disk) evs).map (·.token)).Nodup

/-- The reply is the file or folder. -/
def isServed : ShareReply → Bool
  | .served _ => true
  | _ => false

/-- A request with this token is given the file or folder. -/
def serves (host : ShareHost) (σ : ShareState) (token : String) (ev : Nat × ShareEvent) : Bool :=
  match ev.2 with
  | .access tok post body =>
    decide (tok = token) && isServed (σ.handleShareAccess host ev.1 tok post body).1
  | _ => false

/-! ## One step -/

/-- Every link is kept under its token. -/
def Keyed (σ : ShareState) : Prop := ∀ token s, σ.shares.get token = some s → s.token = token

/-- What a step leaves of a link. -/
def after (host : ShareHost) (σ : ShareState) (token : String) (ev : Nat × ShareEvent)
    (s : ShareLink) : Option ShareLink :=
  if Ends s ev then none
  else some { s with downloadCount := s.downloadCount + (serves host σ token ev).toNat }

theorem after_eq_some {token : String} {s : ShareLink} (hends : ¬Ends s ev)
    (hserves : serves host σ token ev = false) : after host σ token ev s = some s := by
  rw [after, if_neg hends, hserves]
  rfl

theorem handleCreateShare_cases {now : Nat} {user token : String} {body : Option Json}
    {reply : ShareReply} {shares : FinMap String ShareLink}
    (h : σ.handleCreateShare host now user body token = some (reply, shares)) :
    (∃ link, reply = .created link ∧ shares = σ.shares.insert link.token link) ∨
      ((∀ link, reply ≠ .created link) ∧ shares = σ.shares) := by
  rw [handleCreateShare.eq_def] at h
  have hsame : ∀ r : ShareReply, (∀ link, r ≠ .created link) →
      some (r, σ.shares) = some (reply, shares) →
      (∃ link, reply = .created link ∧ shares = σ.shares.insert link.token link) ∨
        ((∀ link, reply ≠ .created link) ∧ shares = σ.shares) := by
    intro r hr heq
    cases heq
    exact .inr ⟨hr, rfl⟩
  split at h
  · exact hsame _ (by simp) h
  · split at h
    · exact hsame _ (by simp) h
    · split at h
      · exact hsame _ (by simp) h
      · split at h
        · exact hsame _ (by simp) h
        · split at h
          · exact hsame _ (by simp) h
          · obtain ⟨link, -, heq⟩ := Option.map_eq_some_iff.mp h
            cases heq
            exact .inl ⟨link, rfl, rfl⟩

theorem handleBatchShare_cases {now : Nat} {user : String} {body : Option Json}
    {tokens : Nat → String} {reply : ShareReply} {shares : FinMap String ShareLink}
    (h : σ.handleBatchShare host now user body tokens = some (reply, shares)) :
    (∃ links failed, reply = .createdEach links failed ∧ shares = insertAll σ.shares links) ∨
      ((∀ links failed, reply ≠ .createdEach links failed) ∧ shares = σ.shares) := by
  rw [handleBatchShare.eq_def] at h
  have hsame : ∀ r : ShareReply, (∀ links failed, r ≠ .createdEach links failed) →
      some (r, σ.shares) = some (reply, shares) →
      (∃ links failed, reply = .createdEach links failed ∧ shares = insertAll σ.shares links) ∨
        ((∀ links failed, reply ≠ .createdEach links failed) ∧ shares = σ.shares) := by
    intro r hr heq
    cases heq
    exact .inr ⟨hr, rfl⟩
  split at h
  · exact hsame _ (by simp) h
  · split at h
    · exact hsame _ (by simp) h
    · split at h
      · exact hsame _ (by simp) h
      · split at h
        · exact hsame _ (by simp) h
        · split at h
          · exact hsame _ (by simp) h
          · obtain ⟨links, -, heq⟩ := Option.map_eq_some_iff.mp h
            cases heq
            exact .inl ⟨links.1, links.2, rfl, rfl⟩

theorem get_insertAll_of_notMem {links : List ShareLink} {shares : FinMap String ShareLink}
    {token : String} (h : ∀ s ∈ links, s.token ≠ token) :
    (insertAll shares links).get token = shares.get token := by
  induction links generalizing shares with
  | nil => rfl
  | cons link links ih =>
    rw [insertAll, List.foldl_cons]
    refine (ih fun s hs => h s (by simp [hs])).trans ?_
    rw [FinMap.get_insert, if_neg (Ne.symm (h link (by simp)))]

theorem get_insertAll_of_mem {links : List ShareLink} {shares : FinMap String ShareLink}
    {s : ShareLink} (hnodup : (links.map (·.token)).Nodup) (hs : s ∈ links) :
    (insertAll shares links).get s.token = some s := by
  induction links generalizing shares with
  | nil => cases hs
  | cons link links ih =>
    rw [List.map_cons, List.nodup_cons] at hnodup
    rw [insertAll, List.foldl_cons]
    rcases List.mem_cons.mp hs with rfl | hs
    · refine (get_insertAll_of_notMem fun x hx heq => ?_).trans ?_
      · exact hnodup.1 (List.mem_map.mpr ⟨x, hx, heq⟩)
      · rw [FinMap.get_insert, if_pos rfl]
    · exact ih hnodup.2 hs

theorem after_of_ends {token : String} {s : ShareLink} (h : Ends s ev) :
    after host σ token ev s = none := if_pos h

/-- A link is as before where nothing ends it and it is not used. -/
theorem bind_after {token : String} (hends : ∀ s, σ.shares.get token = some s → ¬Ends s ev)
    (hserves : serves host σ token ev = false) :
    (σ.shares.get token).bind (after host σ token ev) = σ.shares.get token := by
  cases hget : σ.shares.get token with
  | none => rfl
  | some s => exact after_eq_some (hends s hget) hserves

theorem handleDeleteShare_get (hkey : Keyed σ) (now : Nat) (user role : String) (query : Text)
    (token : String) :
    (σ.handleDeleteShare user role query).2.get token =
      (σ.shares.get token).bind (after host σ token (now, .delete user role query)) := by
  -- Only a request that names the token can end the link.
  have hother : param query "token" ≠ some token →
      (σ.shares.get token).bind (after host σ token (now, .delete user role query)) =
        σ.shares.get token := by
    intro hne
    apply bind_after _ rfl
    intro s hs hends
    rw [← hkey token s hs] at hne
    exact hne hends.1
  rw [handleDeleteShare]
  cases hq : param query "token" with
  | none => exact (hother (by simp [hq])).symm
  | some tok =>
    dsimp only
    by_cases htok : tok = token
    · subst htok
      cases hget : σ.shares.get tok with
      | none =>
        show σ.shares.get tok = none
        exact hget
      | some s =>
        have hends : Ends s (now, .delete user role query) ↔
            role = "admin" ∨ s.createdBy = user := by
          show param query "token" = some s.token ∧ _ ↔ _
          rw [hq, hkey tok s hget]
          simp
        dsimp only
        split
        · next hnot =>
          have hkeeps : ¬Ends s (now, .delete user role query) := by
            rw [hends]
            exact not_or.mpr hnot
          rw [Option.bind_some, after_eq_some hkeeps rfl]
          exact hget
        · next hmay =>
          have hgone : Ends s (now, .delete user role query) := by
            rw [hends]
            by_contra hnot
            exact hmay (not_or.mp hnot)
          rw [Option.bind_some, after_of_ends hgone]
          simp
    · rw [hother (by simp [hq, htok])]
      cases hget : σ.shares.get tok with
      | none => rfl
      | some s =>
        dsimp only
        split
        · rfl
        · rw [FinMap.get_erase, if_neg fun heq => htok heq.symm]

theorem handleShareAccess_cases (host : ShareHost) (now : Nat) (token : String) (post : Bool)
    (body : Option Json) :
    (isServed (σ.handleShareAccess host now token post body).1 = true ∧
      ∃ s, σ.shares.get token = some s ∧ (σ.handleShareAccess host now token post body).2 =
        σ.shares.insert token { s with downloadCount := s.downloadCount + 1 }) ∨
    (isServed (σ.handleShareAccess host now token post body).1 = false ∧
      (σ.handleShareAccess host now token post body).2 = σ.shares) := by
  rw [handleShareAccess]
  split
  · exact .inr ⟨rfl, rfl⟩
  · split
    · exact .inr ⟨rfl, rfl⟩
    · next s hs =>
      split
      · next page hpage =>
        -- The page that asks for the password is not the file.
        refine .inr ⟨?_, rfl⟩
        rw [passwordGate] at hpage
        split at hpage
        · split at hpage
          · split at hpage <;> cases hpage
            rfl
          · cases hpage
            rfl
        · cases hpage
      · split
        · exact .inr ⟨rfl, rfl⟩
        · split
          · exact .inr ⟨rfl, rfl⟩
          · exact .inl ⟨rfl, s, (Option.filter_eq_some_iff.mp hs).1, rfl⟩

theorem handleShareAccess_get (now : Nat) (tok : String) (post : Bool) (body : Option Json)
    (token : String) :
    (σ.handleShareAccess host now tok post body).2.get token =
      (σ.shares.get token).bind (after host σ token (now, .access tok post body)) := by
  have hends : ∀ s : ShareLink, ¬Ends s (now, .access tok post body) := fun s h => h
  have hserves : serves host σ token (now, .access tok post body) =
      (decide (tok = token) && isServed (σ.handleShareAccess host now tok post body).1) := rfl
  rcases handleShareAccess_cases host now tok post body with
    ⟨hserved, s, hs, hshares⟩ | ⟨hserved, hshares⟩
  · rw [hshares, FinMap.get_insert]
    by_cases htok : token = tok
    · subst htok
      rw [if_pos rfl, hs, Option.bind_some, after, if_neg (hends s), hserves, hserved]
      simp
    · rw [if_neg htok, bind_after fun s _ => hends s]
      rw [hserves, decide_eq_false fun heq => htok heq.symm, Bool.false_and]
  · rw [hshares, bind_after fun s _ => hends s]
    rw [hserves, hserved, Bool.and_false]

/-- A step enters the links that it makes, or makes none and does to each what `after` says. -/
theorem step_cases (h : step host σ ev = some σ') :
    (σ'.shares = insertAll σ.shares (granted host σ ev) ∧ (∀ s, ¬Ends s ev) ∧
      ∀ token, serves host σ token ev = false) ∨
    (granted host σ ev = [] ∧ (Keyed σ → ∀ token,
      σ'.shares.get token = (σ.shares.get token).bind (after host σ token ev))) := by
  obtain ⟨now, ev⟩ := ev
  cases ev with
  | create user body token =>
    obtain ⟨⟨reply, shares⟩, hcreate, hσ'⟩ := Option.map_eq_some_iff.mp h
    subst hσ'
    refine .inl ⟨?_, fun s hends => hends, fun _ => rfl⟩
    show shares = insertAll σ.shares (granted host σ (now, .create user body token))
    rw [granted]
    dsimp only
    rw [hcreate]
    rcases handleCreateShare_cases hcreate with ⟨link, rfl, rfl⟩ | ⟨hnone, rfl⟩
    · rfl
    · split
      · next link _ heq =>
        cases heq
        exact absurd rfl (hnone link)
      · rfl
  | createEach user body tokens =>
    obtain ⟨⟨reply, shares⟩, hcreate, hσ'⟩ := Option.map_eq_some_iff.mp h
    subst hσ'
    refine .inl ⟨?_, fun s hends => hends, fun _ => rfl⟩
    show shares = insertAll σ.shares (granted host σ (now, .createEach user body tokens))
    rw [granted]
    dsimp only
    rw [hcreate]
    rcases handleBatchShare_cases hcreate with ⟨links, failed, rfl, rfl⟩ | ⟨hnone, rfl⟩
    · rfl
    · split
      · next links failed _ heq =>
        cases heq
        exact absurd rfl (hnone links failed)
      · rfl
  | delete user role query =>
    cases h
    exact .inr ⟨rfl, fun hkey => handleDeleteShare_get hkey now user role query⟩
  | access token post body =>
    cases h
    exact .inr ⟨rfl, fun _ => handleShareAccess_get now token post body⟩
  | gc =>
    cases h
    refine .inr ⟨rfl, fun _ token => ?_⟩
    show (σ.unexpired now).get token = _
    rw [unexpired, FinMap.get_filter]
    cases σ.shares.get token with
    | none => rfl
    | some s =>
      cases hexp : s.isExpiredAt now with
      | true =>
        rw [Option.bind_some, after_of_ends (show Ends s (now, .gc) from hexp)]
        simp [hexp]
      | false =>
        have hkeeps : ¬Ends s (now, .gc) := by
          show ¬s.isExpiredAt now = true
          simp [hexp]
        rw [Option.bind_some, after_eq_some hkeeps rfl]
        simp [hexp]
  | change disk =>
    cases h
    exact .inl ⟨rfl, fun s hends => hends, fun _ => rfl⟩
  | switch running =>
    cases h
    exact .inl ⟨rfl, fun s hends => hends, fun _ => rfl⟩

/-- What is true of every link when it is made. -/
structure Fresh (s : ShareLink) : Prop where
  unused : s.downloadCount = 0
  gate : s.passwordProtected = s.passwordHash.isSome

theorem linkFor_fresh {now : Nat} {t : RootTree} {p : BrowserPath} {rel user token : String}
    {body : Json} {s : ShareLink} (h : linkFor host now t p rel user token body = some s) :
    Fresh s := by
  obtain ⟨share, -, hs⟩ := Option.bind_eq_some_iff.mp h
  cases hs
  exact ⟨rfl, by simp⟩

theorem shareEach_fresh {now : Nat} {user : String} {body : Json} {disk : Option RootTree}
    {tokens : Nat → String} {rels : List String} {links : List ShareLink}
    {failed : List (String × ShareFailure)}
    (h : shareEach host now user body disk tokens rels = some (links, failed)) :
    ∀ s ∈ links, Fresh s := by
  induction rels generalizing tokens links failed with
  | nil =>
    cases h
    intro s hs
    cases hs
  | cons rel rels ih =>
    rw [shareEach] at h
    obtain ⟨⟨links₁, failed₁⟩, hrest, h⟩ := Option.bind_eq_some_iff.mp h
    have hfresh := ih hrest
    dsimp only at h
    split at h
    · cases h
      exact hfresh
    · split at h
      · cases h
        exact hfresh
      · obtain ⟨link, hlink, h⟩ := Option.bind_eq_some_iff.mp h
        cases h
        intro s hs
        rcases List.mem_cons.mp hs with rfl | hs
        · exact linkFor_fresh hlink
        · exact hfresh s hs

theorem granted_fresh {s : ShareLink} (hs : s ∈ granted host σ ev) : Fresh s := by
  obtain ⟨now, ev⟩ := ev
  rw [granted.eq_def] at hs
  dsimp only at hs
  split at hs
  · next user body token =>
    split at hs
    · next link _ hcreate =>
      obtain rfl := List.mem_singleton.mp hs
      rw [handleCreateShare.eq_def] at hcreate
      split at hcreate
      · cases hcreate
      · split at hcreate
        · cases hcreate
        · split at hcreate
          · cases hcreate
          · split at hcreate
            · cases hcreate
            · split at hcreate
              · cases hcreate
              · obtain ⟨link, hlink, heq⟩ := Option.map_eq_some_iff.mp hcreate
                cases heq
                exact linkFor_fresh hlink
    · cases hs
  · next user body tokens =>
    split at hs
    · next links failed _ hcreate =>
      rw [handleBatchShare.eq_def] at hcreate
      split at hcreate
      · cases hcreate
      · split at hcreate
        · cases hcreate
        · split at hcreate
          · cases hcreate
          · split at hcreate
            · cases hcreate
            · split at hcreate
              · cases hcreate
              · obtain ⟨r, heach, heq⟩ := Option.map_eq_some_iff.mp hcreate
                cases heq
                exact shareEach_fresh heach s hs
    · cases hs
  · cases hs

/-! ## Runs -/

section

variable {disk : Option RootTree} {evs : List (Nat × ShareEvent)}

/-- The times at which a token has given its file or folder. -/
def servedAt (host : ShareHost) (disk : Option RootTree) (evs : List (Nat × ShareEvent))
    (token : String) : List Nat :=
  given (step host) (fun σ ev => if serves host σ token ev then [ev.1] else []) (init disk) evs

/-- A link with the number of times it has been used. -/
def used (host : ShareHost) (disk : Option RootTree) (evs : List (Nat × ShareEvent))
    (s : ShareLink) : ShareLink :=
  { s with downloadCount := (servedAt host disk evs s.token).length }

/-- The tokens of the links that have been made. -/
def madeTokens (host : ShareHost) (disk : Option RootTree) (evs : List (Nat × ShareEvent)) :
    List String :=
  (given (step host) (granted host) (init disk) evs).map (·.token)

theorem Holds.token_mem {s : ShareLink} (h : Holds host disk evs s) :
    s.token ∈ madeTokens host disk evs :=
  List.mem_map.mpr ⟨s, mem_given_of_since h, rfl⟩

theorem serves_get {token : String} (h : serves host σ token ev = true) :
    ∃ s, σ.shares.get token = some s := by
  obtain ⟨now, ev⟩ := ev
  cases ev with
  | access tok post body =>
    obtain ⟨htok, hserved⟩ := Bool.and_eq_true_iff.mp h
    rw [← of_decide_eq_true htok]
    rcases handleShareAccess_cases host now tok post body with
      ⟨-, s, hs, -⟩ | ⟨hnot, -⟩
    · exact ⟨s, hs⟩
    · rw [hserved] at hnot
      cases hnot
  | _ => cases h

/-- What the links are after a run. -/
structure Kept (host : ShareHost) (disk : Option RootTree) (evs : List (Nat × ShareEvent))
    (σ : ShareState) : Prop where
  get_iff : ∀ token x, σ.shares.get token = some x ↔
    ∃ s, Holds host disk evs s ∧ s.token = token ∧ x = used host disk evs s
  unmade : ∀ token, token ∉ madeTokens host disk evs → servedAt host disk evs token = []

theorem Kept.keyed (h : Kept host disk evs σ) : Keyed σ := by
  intro token x hx
  obtain ⟨s, -, rfl, rfl⟩ := (h.get_iff token x).mp hx
  rfl

theorem ends_used {s : ShareLink} : Ends (used host disk evs s) ev ↔ Ends s ev := by
  obtain ⟨now, ev⟩ := ev
  cases ev <;> exact Iff.rfl

theorem kept_nil : Kept host disk [] (init disk) := by
  refine ⟨fun token x => ⟨fun h => ?_, fun h => ?_⟩, fun _ _ => rfl⟩
  · cases h
  · obtain ⟨s, hs, -⟩ := h
    exact absurd hs not_since_nil

/-- One more step. -/
theorem Kept.concat (hkept : Kept host disk evs σ)
    (hrun : runFrom (step host) (init disk) evs = some σ) (hstep : step host σ ev = some σ')
    (hfresh : FreshTokens host disk (evs ++ [ev])) : Kept host disk (evs ++ [ev]) σ' := by
  have hmade : madeTokens host disk (evs ++ [ev]) =
      madeTokens host disk evs ++ (granted host σ ev).map (·.token) := by
    rw [madeTokens, given_concat hrun, List.map_append]
    rfl
  have htimes : ∀ token, servedAt host disk (evs ++ [ev]) token =
      servedAt host disk evs token ++ if serves host σ token ev then [ev.1] else [] := by
    intro token
    exact given_concat hrun
  have hholds : ∀ s, Holds host disk (evs ++ [ev]) s ↔
      s ∈ granted host σ ev ∨ (Holds host disk evs s ∧ ¬Ends s ev) := fun s =>
    since_concat hrun
  have hnodup : (madeTokens host disk evs ++ (granted host σ ev).map (·.token)).Nodup :=
    hmade ▸ hfresh
  obtain ⟨-, hnew, hapart⟩ := List.nodup_append.mp hnodup
  -- A token that has not been given out yet gives nothing.
  have hunmade : ∀ token, token ∉ madeTokens host disk evs → serves host σ token ev = false := by
    intro token htoken
    by_contra hserves
    obtain ⟨x, hx⟩ := serves_get ((Bool.not_eq_false _).mp hserves)
    obtain ⟨s, hs, rfl, -⟩ := (hkept.get_iff token x).mp hx
    exact htoken hs.token_mem
  refine ⟨fun token x => ?_, fun token htoken => ?_⟩
  · rcases step_cases hstep with ⟨hshares, hends, hserves⟩ | ⟨hnone, hget⟩
    · have hused : ∀ s, used host disk (evs ++ [ev]) s = used host disk evs s := by
        intro s
        rw [used, used, htimes, hserves]
        simp
      rw [hshares]
      by_cases hmine : ∃ s ∈ granted host σ ev, s.token = token
      · obtain ⟨s, hs, rfl⟩ := hmine
        have hnotmade : s.token ∉ madeTokens host disk evs := fun hmem =>
          hapart _ hmem _ (List.mem_map.mpr ⟨s, hs, rfl⟩) rfl
        have hnotused : used host disk evs s = s := by
          rw [used, hkept.unmade _ hnotmade, List.length_nil, ← (granted_fresh hs).unused]
        rw [get_insertAll_of_mem hnew hs]
        constructor
        · intro hx
          obtain rfl : s = x := Option.some.inj hx
          exact ⟨s, (hholds s).mpr (.inl hs), rfl, by rw [hused, hnotused]⟩
        · rintro ⟨s', hs', htoken, rfl⟩
          rcases (hholds s').mp hs' with hs' | ⟨hs', -⟩
          · obtain rfl : s' = s := List.inj_on_of_nodup_map hnew hs' hs htoken
            rw [hused, hnotused]
          · exact absurd (htoken ▸ hs'.token_mem) hnotmade
      · rw [get_insertAll_of_notMem fun s hs htoken => hmine ⟨s, hs, htoken⟩, hkept.get_iff]
        constructor
        · rintro ⟨s, hs, htoken, rfl⟩
          exact ⟨s, (hholds s).mpr (.inr ⟨hs, hends s⟩), htoken, (hused s).symm⟩
        · rintro ⟨s, hs, htoken, rfl⟩
          rcases (hholds s).mp hs with hs | ⟨hs, -⟩
          · exact absurd ⟨s, hs, htoken⟩ hmine
          · exact ⟨s, hs, htoken, hused s⟩
    · have hholds' : ∀ s, Holds host disk (evs ++ [ev]) s ↔ Holds host disk evs s ∧ ¬Ends s ev := by
        intro s
        rw [hholds, hnone]
        simp
      have hafter : ∀ s, ¬Ends s ev → after host σ s.token ev (used host disk evs s) =
          some (used host disk (evs ++ [ev]) s) := by
        intro s hkeeps
        rw [after, if_neg fun h => hkeeps (ends_used.mp h), used, used, htimes]
        cases serves host σ s.token ev <;> simp
      rw [hget hkept.keyed, Option.bind_eq_some_iff]
      constructor
      · rintro ⟨y, hy, hx⟩
        obtain ⟨s, hs, rfl, rfl⟩ := (hkept.get_iff token y).mp hy
        by_cases hends : Ends s ev
        · rw [after_of_ends (ends_used.mpr hends)] at hx
          cases hx
        · rw [hafter s hends] at hx
          cases hx
          exact ⟨s, (hholds' s).mpr ⟨hs, hends⟩, rfl, rfl⟩
      · rintro ⟨s, hs, rfl, rfl⟩
        obtain ⟨hs, hends⟩ := (hholds' s).mp hs
        exact ⟨_, (hkept.get_iff _ _).mpr ⟨s, hs, rfl, rfl⟩, hafter s hends⟩
  · rw [hmade, List.mem_append, not_or] at htoken
    rw [htimes, hkept.unmade token htoken.1, hunmade token htoken.1]
    rfl

theorem FreshTokens.of_append
    (hrun : runFrom (step host) (init disk) evs = some σ)
    (h : FreshTokens host disk (evs ++ [ev])) : FreshTokens host disk evs := by
  rw [FreshTokens, given_concat hrun, List.map_append] at h
  exact (List.nodup_append.mp h).1

/-- The links after a run are those that hold, each with its uses. -/
theorem kept_run (hrun : runFrom (step host) (init disk) evs = some σ)
    (hfresh : FreshTokens host disk evs) : Kept host disk evs σ := by
  induction evs using List.reverseRecOn generalizing σ with
  | nil =>
    cases hrun
    exact kept_nil
  | append_singleton evs ev ih =>
    obtain ⟨σ₁, hrun₁, hstep⟩ := runFrom_concat.mp hrun
    exact (ih hrun₁ (FreshTokens.of_append hrun₁ hfresh)).concat hrun₁ hstep hfresh

end

/-! ## What is given -/

/-- The password that a request has is the one of the link. -/
def Unlocks (host : ShareHost) (s : ShareLink) (post : Bool) (body : Option Json) : Prop :=
  ∀ hash, s.passwordHash = some hash → post = true ∧
    hash = hashPassword host.sha256 ((body.bind (·.text "password")).getD "")

theorem passwordGate_eq_none {s : ShareLink} (hgate : s.passwordProtected = s.passwordHash.isSome)
    (token : String) (post : Bool) (body : Option Json) :
    passwordGate host s token post body = none ↔ Unlocks host s post body := by
  rw [passwordGate, Unlocks, hgate, ShareLink.checkPassword]
  cases s.passwordHash with
  | none => simp
  | some hash =>
    cases post with
    | false => simp
    | true => simp [constantEq_iff]

theorem holds_fresh {disk : Option RootTree} {evs : List (Nat × ShareEvent)} {s : ShareLink}
    (h : Holds host disk evs s) : Fresh s := by
  obtain ⟨pre, a, post, t, -, -, hs, -⟩ := h
  exact granted_fresh hs

/-- When requests for a token are given its file or folder. -/
theorem handleShareAccess_served {now : Nat} {token : String} {post : Bool} {body : Option Json}
    {what : BrowseReply} :
    (σ.handleShareAccess host now token post body).1 = .served what ↔
      σ.running = true ∧ ∃ s, σ.shares.get token = some s ∧ s.isExpiredAt now = false ∧
        passwordGate host s token post body = none ∧
        ∃ p t, resolveIn σ.disk s.path = .ok (p, t) ∧ p.existsIn t = true ∧
          what = sharedContent host t p := by
  rw [handleShareAccess]
  cases hrunning : σ.running with
  | false => simp
  | true =>
    cases hget : σ.shares.get token with
    | none => simp
    | some s =>
      cases hexp : s.isExpiredAt now with
      | true => simp [Option.filter, hexp]
      | false =>
        cases hgate : passwordGate host s token post body with
        | some page =>
          have hpage : ∀ w, page ≠ .served w := by
            intro w heq
            subst heq
            rw [passwordGate] at hgate
            split at hgate
            · split at hgate
              · split at hgate <;> cases hgate
              · cases hgate
            · cases hgate
          simp [Option.filter, hexp, hgate, hpage]
        | none =>
          cases hres : resolveIn σ.disk s.path with
          | error e => simp [Option.filter, hexp, hgate, hres]
          | ok found =>
            obtain ⟨p, t⟩ := found
            cases hexists : p.existsIn t with
            | false => simp [Option.filter, hexp, hgate, hres, hexists]
            | true =>
              have hcomm : sharedContent host t p = what ↔ what = sharedContent host t p := eq_comm
              simp [Option.filter, hexp, hgate, hres, hexists, hcomm]

theorem isServed_iff {reply : ShareReply} :
    isServed reply = true ↔ ∃ what, reply = .served what := by
  cases reply <;> simp [isServed]

/-- A root with one file. -/
def sharedRoot : RootTree := (FileTree.empty.write ["a"] [1] 0).getD .empty

/-- The digest of a text is the text, and everything is put into archives. -/
def openShareHost : ShareHost where
  sha256 := id
  checks := true
  zip := ⟨fun _ => true, true, fun _ => true, fun _ => true⟩
  listing := .byName

/-- The password of the link. -/
def sharePassword : Json := .obj [("password", .str "p")]

/-- A link with a password is made and used. -/
def shareRun : List (Nat × ShareEvent) :=
  [(1, .switch true),
    (2, .create "ann" (some (.obj [("path", .str "a"), ("password", .str "p")])) "t"),
    (3, .access "t" true (some sharePassword))]

theorem shareRun_fresh : FreshTokens openShareHost (some sharedRoot) shareRun := by
  unfold FreshTokens
  decide +kernel

/-- A request is given a file or folder exactly while the app runs, for the token of a link that
    has been made and has since neither been deleted by its maker or an admin nor been collected,
    that has not expired, with its password if it has one, and where something is at its path. -/
theorem share_served_iff (host : ShareHost) (disk : Option RootTree)
    (evs : List (Nat × ShareEvent)) {σ : ShareState}
    (hrun : runFrom (step host) (init disk) evs = some σ) (hfresh : FreshTokens host disk evs)
    (now : Nat) (token : String) (post : Bool) (body : Option Json) (what : BrowseReply) :
    (σ.handleShareAccess host now token post body).1 = .served what ↔
      σ.running = true ∧ ∃ s, Holds host disk evs s ∧ s.token = token ∧
        s.isExpiredAt now = false ∧ Unlocks host s post body ∧
        ∃ p t, resolveIn σ.disk s.path = .ok (p, t) ∧ p.existsIn t = true ∧
          what = sharedContent host t p := by
  have hkept := kept_run hrun hfresh
  rw [handleShareAccess_served]
  refine and_congr_right fun _ => ⟨?_, ?_⟩
  · rintro ⟨x, hx, hexp, hgate, hwhat⟩
    obtain ⟨s, hs, htoken, rfl⟩ := (hkept.get_iff token x).mp hx
    refine ⟨s, hs, htoken, hexp, ?_, hwhat⟩
    exact (passwordGate_eq_none (holds_fresh hs).gate token post body).mp hgate
  · rintro ⟨s, hs, htoken, hexp, hunlocks, hwhat⟩
    refine ⟨used host disk evs s, (hkept.get_iff token _).mpr ⟨s, hs, htoken, rfl⟩, hexp, ?_, hwhat⟩
    exact (passwordGate_eq_none (holds_fresh hs).gate token post body).mpr hunlocks

theorem share_served_iff_shareRun :
    ∃ σ what, runFrom (step openShareHost) (init (some sharedRoot)) shareRun = some σ ∧
      (σ.handleShareAccess openShareHost 4 "t" true (some sharePassword)).1 = .served what ∧
      ∃ s, Holds openShareHost (some sharedRoot) shareRun s ∧ s.token = "t" := by
  have hany : (runFrom (step openShareHost) (init (some sharedRoot)) shareRun).any (fun σ =>
      isServed (σ.handleShareAccess openShareHost 4 "t" true (some sharePassword)).1) = true := by
    decide +kernel
  obtain ⟨σ, hrun, hserved⟩ := (Option.any_eq_true _ _).mp hany
  obtain ⟨what, hwhat⟩ := isServed_iff.mp hserved
  obtain ⟨-, s, hs, htoken, -⟩ :=
    (share_served_iff openShareHost (some sharedRoot) shareRun hrun shareRun_fresh 4 "t" true
      (some sharePassword) what).mp hwhat
  exact ⟨σ, what, hrun, hwhat, s, hs, htoken⟩

/-- After a run every link that is kept holds, and its number of downloads is the number of
    requests that have been given its file or folder. -/
theorem share_download_count (host : ShareHost) (disk : Option RootTree)
    (evs : List (Nat × ShareEvent)) {σ : ShareState}
    (hrun : runFrom (step host) (init disk) evs = some σ) (hfresh : FreshTokens host disk evs)
    {token : String} {x : ShareLink} (hx : σ.shares.get token = some x) :
    x.downloadCount = (servedAt host disk evs token).length ∧
      ∃ s, Holds host disk evs s ∧ s.token = token ∧
        x = { s with downloadCount := x.downloadCount } := by
  obtain ⟨s, hs, rfl, rfl⟩ := ((kept_run hrun hfresh).get_iff token x).mp hx
  exact ⟨rfl, s, hs, rfl, rfl⟩

theorem share_download_count_shareRun :
    ∃ σ x, runFrom (step openShareHost) (init (some sharedRoot)) shareRun = some σ ∧
      σ.shares.get "t" = some x ∧ x.downloadCount = 1 ∧
      x.downloadCount = (servedAt openShareHost (some sharedRoot) shareRun "t").length := by
  have hany : (runFrom (step openShareHost) (init (some sharedRoot)) shareRun).any (fun σ =>
      (σ.shares.get "t").any fun x => decide (x.downloadCount = 1)) = true := by
    decide +kernel
  obtain ⟨σ, hrun, hget⟩ := (Option.any_eq_true _ _).mp hany
  obtain ⟨x, hx, hcount⟩ := (Option.any_eq_true _ _).mp hget
  exact ⟨σ, x, hrun, hx, of_decide_eq_true hcount,
    (share_download_count openShareHost (some sharedRoot) shareRun hrun shareRun_fresh hx).1⟩

end ShareState

end ByteHive
