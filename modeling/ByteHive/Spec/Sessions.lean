import ByteHive.ForStd.Run
import ByteHive.Native.HttpAuth

/-!
# Sessions that are over stay over

A session is over once its expiry lies in the past, once it is logged out or once its user
is removed. Requests are let in on valid sessions only, but an expired one is still stored,
and a refresh gives it a new expiry without a look at the old one. The middlewares refresh
the token they find first, which need not be the one that let the request in.

## Key results

- `authenticatedBy_iff`: the session that lets a request in
- `safe_step_iff`: one call revives no session exactly if it refreshes no expired one
- `sessions_stay_over_iff`: the same for whole runs
-/

namespace ByteHive

namespace RequestTokens

/-- The token whose session lets the request in. -/
def authenticatedBy (s : UserStore) (nowMs : Nat) (r : RequestTokens) : Option String :=
  match r.cookie.bind (s.validate nowMs) with
  | some _ => r.cookie
  | none => (r.bearer.or r.query).filter fun tok => (s.validate nowMs tok).isSome

/-- A request has a session's context exactly if the session of one of its tokens lets it in. -/
theorem authenticatedBy_iff {s : UserStore} {nowMs : Nat} {r : RequestTokens} :
    (∃ ctx, (r.resolveAuthContext s nowMs).1 = some ctx ∧ ctx.method = .session) ↔
      (r.authenticatedBy s nowMs).isSome = true := by
  unfold resolveAuthContext authenticatedBy
  cases hcookie : r.cookie.bind (s.validate nowMs) with
  | some x =>
    have hsome : r.cookie.isSome = true := by
      cases hc : r.cookie with
      | none => simp [hc] at hcookie
      | some c => rfl
    simp [UserStore.sessionContext, hsome]
  | none =>
    cases htok : r.bearer.or r.query with
    | none => simp
    | some tok =>
      simp only
      unfold UserStore.authenticateCredential
      cases hvalid : s.validate nowMs tok with
      | some x => simp [UserStore.sessionContext, Option.filter_some, hvalid]
      | none =>
        simp only [Option.filter_some, hvalid, Option.isSome_none, Bool.false_eq_true, if_false,
          Option.isSome_none, iff_false, not_exists, not_and]
        intro ctx hctx
        -- an API key or the admin token
        split at hctx
        · cases hctx
          simp [AuthContext.forApiKey]
        · split at hctx
          · cases hctx
            simp [AuthContext.adminToken]
          · cases hctx

end RequestTokens

/-! ## What a call does to the sessions -/

namespace UserStore

/-- Every session was there before; where `allowed` does not hold it is as it was. -/
def Renewed (allowed : String → Prop) (s s' : UserStore) : Prop :=
  ∀ tok x', s'.sessions.get tok = some x' →
    ∃ x, s.sessions.get tok = some x ∧ (x' = x ∨ allowed tok)

variable {s s' : UserStore} {nowMs : Nat} {allowed : String → Prop}

theorem Renewed.refl (s : UserStore) : Renewed allowed s s :=
  fun _ x' hx' => ⟨x', hx', .inl rfl⟩

theorem Renewed.trans {s₁ s₂ s₃ : UserStore} (h : Renewed allowed s₁ s₂)
    (h' : Renewed allowed s₂ s₃) : Renewed allowed s₁ s₃ := by
  intro tok x₃ hx₃
  obtain ⟨x₂, hx₂, heq₃⟩ := h' tok x₃ hx₃
  obtain ⟨x₁, hx₁, heq₂⟩ := h tok x₂ hx₂
  refine ⟨x₁, hx₁, ?_⟩
  cases heq₃ with
  | inl heq₃ => exact heq₂.imp_left heq₃.trans
  | inr hallowed => exact .inr hallowed

theorem get_refresh (s : UserStore) (nowMs : Nat) (token tok : String) :
    (s.refresh nowMs token).sessions.get tok =
      if tok = token then
        (s.sessions.get token).map fun x => { x with expiresMs := nowMs + s.sessionTtlMs }
      else s.sessions.get tok := by
  unfold refresh
  split
  · next x hget =>
    show (s.sessions.insert token _).get tok = _
    rw [FinMap.get_insert, hget, Option.map_some]
  · next hget =>
    split
    · next heq =>
      rw [heq, hget]
      rfl
    · rfl

theorem renewed_refresh {token : String} (h : allowed token) :
    Renewed allowed s (s.refresh nowMs token) := by
  intro tok x' hx'
  rw [get_refresh] at hx'
  split at hx'
  · next heq =>
    obtain ⟨x, hx, -⟩ := Option.map_eq_some_iff.mp hx'
    exact ⟨x, heq ▸ hx, .inr (heq ▸ h)⟩
  · exact ⟨x', hx', .inl rfl⟩

/-- Sessions that a filter leaves are as they were. -/
theorem renewed_of_filter {p : String → LoginSession → Bool}
    (h : s'.sessions = s.sessions.filter p) : Renewed allowed s s' := by
  intro tok x' hx'
  rw [h, FinMap.get_filter] at hx'
  exact ⟨x', (Option.filter_eq_some_iff.mp hx').1, .inl rfl⟩

theorem validate_eq_some {token : String} {x : LoginSession} :
    s.validate nowMs token = some x ↔ s.sessions.get token = some x ∧ nowMs ≤ x.expiresMs := by
  unfold validate
  rw [Option.filter_eq_some_iff]
  simp

theorem renewed_authenticateCredential
    (hvalid : ∀ tok x, s.sessions.get tok = some x → nowMs ≤ x.expiresMs → allowed tok)
    (credential : String) :
    Renewed allowed s (s.authenticateCredential nowMs credential).2 := by
  unfold authenticateCredential
  cases hx : s.validate nowMs credential with
  | some x =>
    obtain ⟨hget, hle⟩ := validate_eq_some.mp hx
    exact renewed_refresh (hvalid credential x hget hle)
  | none =>
    simp only
    split
    · exact Renewed.refl s
    · split <;> exact Renewed.refl s

theorem renewed_resolveAuthContext
    (hvalid : ∀ tok x, s.sessions.get tok = some x → nowMs ≤ x.expiresMs → allowed tok)
    (r : RequestTokens) : Renewed allowed s (r.resolveAuthContext s nowMs).2 := by
  unfold RequestTokens.resolveAuthContext
  split
  · exact Renewed.refl s
  · split
    · exact renewed_authenticateCredential hvalid _
    · exact Renewed.refl s

/-- A refresh leaves every stored token stored. -/
theorem isSome_get_refresh (token tok : String) :
    ((s.refresh nowMs token).sessions.get tok).isSome = (s.sessions.get tok).isSome := by
  rw [get_refresh]
  split
  · next heq => rw [heq, Option.isSome_map]
  · rfl

theorem isSome_get_resolveAuthContext (r : RequestTokens) (tok : String) :
    ((r.resolveAuthContext s nowMs).2.sessions.get tok).isSome = (s.sessions.get tok).isSome := by
  unfold RequestTokens.resolveAuthContext authenticateCredential
  split
  · rfl
  · split
    · split
      · exact isSome_get_refresh _ tok
      · split
        · rfl
        · split <;> rfl
    · rfl

/-- Removing a user leaves the sessions of the others. -/
theorem sessions_removeUser {username : String} (h : s.removeUser username = .ok s') :
    s'.sessions = s.sessions.filter fun _ x => decide (x.username ≠ username) := by
  unfold removeUser retainUsers at h
  simp only at h
  split at h
  · cases h
  · cases h
    rfl

/-- A user can be removed exactly if there is one of that name. -/
theorem removeUser_isOk (s : UserStore) (username : String) :
    (∃ s', s.removeUser username = .ok s') ↔
      (s.users.any fun u => decide (u.username = username)) = true := by
  unfold removeUser retainUsers
  simp only
  rw [List.any_eq_true]
  split
  · next hlength =>
    have hall := List.length_filter_eq_length_iff.mp hlength
    constructor
    · intro h
      obtain ⟨s', hs'⟩ := h
      cases hs'
    · intro h
      obtain ⟨u, hu, hname⟩ := h
      have := hall u hu
      simp_all
  · next hlength =>
    refine ⟨fun _ => ?_, fun _ => ⟨_, rfl⟩⟩
    by_contra hnone
    apply hlength
    apply List.length_filter_eq_length_iff.mpr
    intro u hu
    simp only [decide_eq_true_eq]
    intro hname
    exact hnone ⟨u, hu, by simpa using hname⟩

end UserStore

/-! ## Runs of calls -/

/-- The store with the time of the last call, the tokens drawn so far and the tokens of the
    sessions that are over. -/
structure SessionRun where
  store : UserStore
  clock : Nat
  issued : Finset String
  ended : Finset String

namespace SessionRun

/-- A logout ends the session it names, the removal of a user all of that user's. -/
def endedBy (s : UserStore) : SessionCall → String → LoginSession → Bool
  | .logout token, tok, _ => decide (tok = token)
  | .removeUser username, _, x =>
    decide (x.username = username) && s.users.any fun u => decide (u.username = username)
  | _, _, _ => false

/-- The sessions that are over with a call: those it finds expired, and those it ends. -/
def ends (s : UserStore) (nowMs : Nat) (call : SessionCall) : Finset String :=
  s.sessions.keys.filter fun tok =>
    (s.sessions.get tok).any fun x => decide (x.expiresMs < nowMs) || endedBy s call tok x

/-- The token that a login draws for its session. -/
def drawn : SessionCall → Finset String
  | .login _ _ token => {token}
  | _ => ∅

/-- A call at a time that is no earlier than the last one; a login draws a new token. -/
def step (argon2 : Argon2) (s : SessionRun) (ev : Nat × SessionCall) : Option SessionRun :=
  if s.clock ≤ ev.1 ∧ Disjoint (drawn ev.2) s.issued then
    some
      { store := s.store.sessionCall argon2 ev.1 ev.2
        clock := ev.1
        issued := s.issued ∪ drawn ev.2
        ended := s.ended ∪ ends s.store ev.1 ev.2 }
  else none

/-- No request is let in any more on a session that is over. -/
def Safe (s : SessionRun) : Prop :=
  ∀ nowMs, s.clock ≤ nowMs → ∀ (r : RequestTokens) tok,
    r.authenticatedBy s.store nowMs = some tok → tok ∉ s.ended

/-- The token that the middleware of a request refreshes. -/
def requestRefreshes (s : UserStore) (nowMs : Nat) (admin : Bool) (r : RequestTokens) :
    Option String :=
  if s.needsSetup then none
  else
    match (r.resolveAuthContext s nowMs).1 with
    | some ctx =>
      if ctx.method = .session ∧ (admin = true → ctx.isAdmin = true) then r.extractBearerOrCookie
      else none
    | none => none

/-- The token that the call refreshes, unless it is one that the call has found valid. -/
def refreshes (s : UserStore) (nowMs : Nat) : SessionCall → Option String
  | .refresh token => some token
  | .request admin r => requestRefreshes s nowMs admin r
  | _ => none

/-- The call refreshes no expired session. -/
def RefreshesValid (s : SessionRun) (ev : Nat × SessionCall) : Prop :=
  ∀ tok x, refreshes s.store ev.1 ev.2 = some tok → s.store.sessions.get tok = some x →
    ev.1 ≤ x.expiresMs

/-! ## One call -/

variable {argon2 : Argon2} {s s' : SessionRun} {nowMs : Nat} {call : SessionCall}

theorem sessionCall_request_of_needsSetup {store : UserStore} (h : store.needsSetup = true)
    (admin : Bool) (r : RequestTokens) :
    store.sessionCall argon2 nowMs (.request admin r) = store := by
  cases admin with
  | false =>
    show (r.authMiddleware store nowMs).2 = _
    rw [RequestTokens.authMiddleware, if_pos h]
  | true =>
    show (r.adminMiddleware store nowMs).2 = _
    rw [RequestTokens.adminMiddleware, if_pos h]

open UserStore in
/-- A request leaves the store of `resolveAuthContext`, with the token of its middleware
    refreshed. -/
theorem sessionCall_request (store : UserStore) (nowMs : Nat) (admin : Bool) (r : RequestTokens)
    (hsetup : store.needsSetup = false) :
    store.sessionCall argon2 nowMs (.request admin r) =
      (requestRefreshes store nowMs admin r).elim (r.resolveAuthContext store nowMs).2
        ((r.resolveAuthContext store nowMs).2.refresh nowMs) := by
  unfold requestRefreshes
  rcases hres : r.resolveAuthContext store nowMs with ⟨ctx, st⟩
  cases admin with
  | false =>
    show (r.authMiddleware store nowMs).2 = _
    unfold RequestTokens.authMiddleware RequestTokens.refreshFor
    rw [hres]
    cases ctx with
    | none => simp [hsetup]
    | some ctx =>
      by_cases hmethod : ctx.method = .session
      · cases htok : r.extractBearerOrCookie <;> simp [hsetup, hmethod]
      · simp [hsetup, hmethod]
  | true =>
    show (r.adminMiddleware store nowMs).2 = _
    unfold RequestTokens.adminMiddleware RequestTokens.refreshFor
    rw [hres]
    cases ctx with
    | none => simp [hsetup]
    | some ctx =>
      by_cases hadmin : ctx.isAdmin = true
      · by_cases hmethod : ctx.method = .session
        · cases htok : r.extractBearerOrCookie <;> simp [hsetup, hmethod, hadmin]
        · simp [hsetup, hmethod, hadmin]
      · simp [hsetup, hadmin]

open UserStore in
/-- Whatever a call other than a login does, a session that it renews was valid, or is the one
    that the call refreshes. -/
theorem renewed_sessionCall (store : UserStore) (nowMs : Nat)
    (hlogin : ∀ username password token, call ≠ .login username password token) :
    Renewed (fun tok => (∃ x, store.sessions.get tok = some x ∧ nowMs ≤ x.expiresMs) ∨
      refreshes store nowMs call = some tok) store (store.sessionCall argon2 nowMs call) := by
  have hvalid : ∀ tok x, store.sessions.get tok = some x → nowMs ≤ x.expiresMs →
      (∃ x, store.sessions.get tok = some x ∧ nowMs ≤ x.expiresMs) ∨
        refreshes store nowMs call = some tok :=
    fun tok x hget hle => .inl ⟨x, hget, hle⟩
  cases call with
  | login username password token => exact absurd rfl (hlogin username password token)
  | validate token => exact Renewed.refl store
  | refresh token => exact renewed_refresh (.inr rfl)
  | logout token =>
    intro tok x' hx'
    have hget : (store.sessions.erase token).get tok = some x' := hx'
    rw [FinMap.get_erase] at hget
    split at hget
    · cases hget
    · exact ⟨x', hget, .inl rfl⟩
  | removeUser username =>
    show Renewed _ store ((store.removeUser username).toOption.getD store)
    cases heq : store.removeUser username with
    | error e => exact Renewed.refl store
    | ok st => exact renewed_of_filter (sessions_removeUser heq)
  | gc => exact renewed_of_filter rfl
  | authenticate credential => exact renewed_authenticateCredential hvalid credential
  | request admin r =>
    by_cases hsetup : store.needsSetup = true
    · rw [sessionCall_request_of_needsSetup hsetup]
      exact Renewed.refl store
    · rw [sessionCall_request store nowMs admin r (by simpa using hsetup)]
      have hresolve := renewed_resolveAuthContext hvalid r
      cases htok : requestRefreshes store nowMs admin r with
      | none => exact hresolve
      | some tok => exact hresolve.trans (renewed_refresh (.inr htok))

/-- The session that a call refreshes is valid after it. -/
theorem get_sessionCall_of_refreshes {store : UserStore} {tok : String} {x : LoginSession}
    (h : refreshes store nowMs call = some tok) (hx : store.sessions.get tok = some x) :
    ∃ x', (store.sessionCall argon2 nowMs call).sessions.get tok = some x' ∧
      nowMs ≤ x'.expiresMs := by
  have hrefresh : ∀ st : UserStore, (st.sessions.get tok).isSome = true →
      ∃ x', (st.refresh nowMs tok).sessions.get tok = some x' ∧ nowMs ≤ x'.expiresMs := by
    intro st hst
    obtain ⟨y, hy⟩ := Option.isSome_iff_exists.mp hst
    rw [UserStore.get_refresh, if_pos rfl, hy]
    exact ⟨_, rfl, Nat.le_add_right _ _⟩
  have hsome : (store.sessions.get tok).isSome = true := by rw [hx]; rfl
  cases call with
  | refresh token =>
    obtain rfl : token = tok := Option.some.inj h
    exact hrefresh store hsome
  | request admin r =>
    have htok : requestRefreshes store nowMs admin r = some tok := h
    have hsetup : store.needsSetup = false := by
      by_contra hne
      rw [requestRefreshes, if_pos (by simpa using hne)] at htok
      cases htok
    rw [sessionCall_request store nowMs admin r hsetup, htok]
    apply hrefresh
    rw [UserStore.isSome_get_resolveAuthContext]
    exact hsome
  | login | validate | logout | removeUser | gc | authenticate => cases h

/-! ## What the runs keep -/

/-- A session that is over has expired, or it is not stored. -/
def DeadStay (s : SessionRun) : Prop :=
  ∀ tok ∈ s.ended, ∀ x, s.store.sessions.get tok = some x → x.expiresMs < s.clock

/-- No request is let in on a session that is over exactly if those that are stored have
    expired: a session that has not lets in a request with its cookie. -/
theorem safe_iff : Safe s ↔ DeadStay s := by
  constructor
  · intro h tok hover x hx
    by_contra hle
    have hvalid : s.store.validate s.clock tok = some x :=
      UserStore.validate_eq_some.mpr ⟨hx, Nat.le_of_not_lt hle⟩
    apply h s.clock le_rfl ⟨some tok, none, none⟩ tok _ hover
    rw [RequestTokens.authenticatedBy, Option.bind_some, hvalid]
  · intro h nowMs hclock r tok hauth hover
    have hvalid : (s.store.validate nowMs tok).isSome = true := by
      unfold RequestTokens.authenticatedBy at hauth
      split at hauth
      · next x hbind =>
        rw [hauth, Option.bind_some] at hbind
        rw [hbind]
        rfl
      · exact (Option.filter_eq_some_iff.mp hauth).2
    obtain ⟨x, hx⟩ := Option.isSome_iff_exists.mp hvalid
    obtain ⟨hget, hle⟩ := UserStore.validate_eq_some.mp hx
    have := h tok hover x hget
    omega

/-- Every token that is stored, or whose session is over, was drawn. -/
def Drawn (s : SessionRun) : Prop :=
  s.ended ⊆ s.issued ∧ s.store.sessions.keys ⊆ s.issued

theorem mem_ends {store : UserStore} {tok : String} :
    tok ∈ ends store nowMs call ↔ ∃ x, store.sessions.get tok = some x ∧
      (x.expiresMs < nowMs ∨ endedBy store call tok x = true) := by
  unfold ends
  rw [Finset.mem_filter, Option.any_eq_true]
  simp only [Bool.or_eq_true, decide_eq_true_eq]
  constructor
  · intro h
    exact h.2
  · intro h
    obtain ⟨x, hx, hends⟩ := h
    exact ⟨FinMap.mem_keys_of_get hx, x, hx, hends⟩

/-- A session that a call ends is not stored after it. -/
theorem get_of_endedBy {store : UserStore} {tok : String} {x : LoginSession}
    (hx : store.sessions.get tok = some x) (h : endedBy store call tok x = true) :
    (store.sessionCall argon2 nowMs call).sessions.get tok = none := by
  cases call with
  | logout token =>
    have heq : tok = token := of_decide_eq_true h
    show (store.sessions.erase token).get tok = none
    rw [FinMap.get_erase, if_pos heq]
  | removeUser username =>
    obtain ⟨hname, hany⟩ := Bool.and_eq_true_iff.mp h
    obtain ⟨st, hst⟩ := (UserStore.removeUser_isOk store username).mpr hany
    show ((store.removeUser username).toOption.getD store).sessions.get tok = none
    rw [hst]
    show st.sessions.get tok = none
    rw [UserStore.sessions_removeUser hst, FinMap.get_filter, hx, Option.filter_some]
    simp [of_decide_eq_true hname]
  | login | validate | refresh | gc | authenticate | request => cases h

/-- A login stores a session under the token drawn for it, and no other. -/
theorem get_login {store : UserStore} {username password token tok : String} {x : LoginSession}
    (hne : tok ≠ token)
    (hx : (store.sessionCall argon2 nowMs (.login username password token)).sessions.get tok =
      some x) : store.sessions.get tok = some x := by
  have hget : (store.login argon2 nowMs token username password).2.sessions.get tok = some x := hx
  unfold UserStore.login at hget
  split at hget
  · exact hget
  · split at hget
    · rw [FinMap.get_insert, if_neg hne] at hget
      exact hget
    · exact hget

theorem step_eq_some {ev : Nat × SessionCall} (h : step argon2 s ev = some s') :
    s.clock ≤ ev.1 ∧ s' =
      { store := s.store.sessionCall argon2 ev.1 ev.2
        clock := ev.1
        issued := s.issued ∪ drawn ev.2
        ended := s.ended ∪ ends s.store ev.1 ev.2 } ∧ Disjoint (drawn ev.2) s.issued := by
  unfold step at h
  split at h
  · next hguard => exact ⟨hguard.1, (Option.some.inj h).symm, hguard.2⟩
  · cases h

/-- Where a stored session has come from: it was stored before, and renewed only if it was valid
    or refreshed, or its token is drawn by this call. -/
theorem get_sessionCall {store : UserStore} {tok : String} {x' : LoginSession}
    (hx' : (store.sessionCall argon2 nowMs call).sessions.get tok = some x') :
    tok ∈ drawn call ∨ ∃ x, store.sessions.get tok = some x ∧
      (x' = x ∨ nowMs ≤ x.expiresMs ∨ refreshes store nowMs call = some tok) := by
  by_cases hlogin : ∃ username password token, call = .login username password token
  · obtain ⟨username, password, token, rfl⟩ := hlogin
    by_cases heq : tok = token
    · exact .inl (Finset.mem_singleton.mpr heq)
    · exact .inr ⟨x', get_login heq hx', .inl rfl⟩
  · have hother : ∀ username password token, call ≠ .login username password token :=
      fun username password token heq => hlogin ⟨username, password, token, heq⟩
    have hrenewed : UserStore.Renewed _ store (store.sessionCall argon2 nowMs call) :=
      renewed_sessionCall store nowMs hother
    obtain ⟨x, hx, heq⟩ := hrenewed tok x' hx'
    refine .inr ⟨x, hx, heq.imp_right fun h => h.imp_left fun hvalid => ?_⟩
    obtain ⟨y, hy, hle⟩ := hvalid
    obtain rfl : x = y := Option.some.inj (hx.symm.trans hy)
    exact hle

theorem drawn_step {ev : Nat × SessionCall} (h : step argon2 s ev = some s') (hs : Drawn s) :
    Drawn s' := by
  obtain ⟨-, rfl, -⟩ := step_eq_some h
  obtain ⟨hover, hkeys⟩ := hs
  constructor
  · intro tok htok
    apply Finset.mem_union_left
    cases Finset.mem_union.mp htok with
    | inl hold => exact hover hold
    | inr hends =>
      obtain ⟨x, hx, -⟩ := mem_ends.mp hends
      exact hkeys (FinMap.mem_keys_of_get hx)
  · intro tok htok
    obtain ⟨x', hx'⟩ := Option.isSome_iff_exists.mp ((FinMap.mem_keys _ tok).mp htok)
    cases get_sessionCall hx' with
    | inl hdrawn => exact Finset.mem_union_right _ hdrawn
    | inr hold =>
      obtain ⟨x, hx, -⟩ := hold
      exact Finset.mem_union_left _ (hkeys (FinMap.mem_keys_of_get hx))

/-- One call revives no session that is over exactly if it refreshes no expired one. -/
theorem safe_step_iff {ev : Nat × SessionCall} (hdrawn : Drawn s) (hsafe : Safe s)
    (h : step argon2 s ev = some s') : Safe s' ↔ RefreshesValid s ev := by
  obtain ⟨hclock, rfl, hfresh⟩ := step_eq_some h
  rw [safe_iff] at hsafe ⊢
  constructor
  · intro hdead tok x hrefresh hx
    by_contra hle
    obtain ⟨x', hx', hvalid⟩ :
        ∃ x', (s.store.sessionCall argon2 ev.1 ev.2).sessions.get tok = some x' ∧
          ev.1 ≤ x'.expiresMs := get_sessionCall_of_refreshes hrefresh hx
    have hover : tok ∈ ends s.store ev.1 ev.2 :=
      mem_ends.mpr ⟨x, hx, .inl (Nat.lt_of_not_le hle)⟩
    have hexpired : x'.expiresMs < ev.1 := hdead tok (Finset.mem_union_right _ hover) x' hx'
    omega
  · intro hvalid tok htok x' hx'
    show x'.expiresMs < ev.1
    have htok : tok ∈ s.ended ∨ tok ∈ ends s.store ev.1 ev.2 := Finset.mem_union.mp htok
    have hissued : tok ∈ s.issued := by
      cases htok with
      | inl hold => exact hdrawn.1 hold
      | inr hends =>
        obtain ⟨x, hx, -⟩ := mem_ends.mp hends
        exact hdrawn.2 (FinMap.mem_keys_of_get hx)
    obtain hnew | ⟨x, hx, heq⟩ := get_sessionCall hx'
    · exact absurd hissued (Finset.disjoint_left.mp hfresh hnew)
    · -- the session had expired: nothing but a refresh of it gives it a new expiry
      have hexpired : x.expiresMs < ev.1 := by
        cases htok with
        | inl hold =>
          have := hsafe tok hold x hx
          omega
        | inr hends =>
          obtain ⟨y, hy, hends⟩ := mem_ends.mp hends
          obtain rfl : x = y := Option.some.inj (hx.symm.trans hy)
          cases hends with
          | inl hexpired => exact hexpired
          | inr hended =>
            rw [get_of_endedBy hx hended] at hx'
            cases hx'
      obtain rfl | hle | hrefresh := heq
      · exact hexpired
      · omega
      · have := hvalid tok x hrefresh hx
        omega

/-! ## Whole runs -/

/-- A store as it is opened: nobody is logged in. -/
def start (users : List UserEntry) (groups : List Group) (apiKeys : List ApiKey)
    (adminToken : String) : SessionRun :=
  ⟨.new users groups apiKeys adminToken, 0, ∅, ∅⟩

/-- Sessions that are over stay over throughout a run exactly if no call of it refreshes an
    expired session. -/
theorem sessions_stay_over_iff (users : List UserEntry) (groups : List Group)
    (apiKeys : List ApiKey) (adminToken : String) {calls : List (Nat × SessionCall)}
    {s' : SessionRun}
    (h : Run.runFrom (step argon2) (start users groups apiKeys adminToken) calls = some s') :
    Run.Always (step argon2) Safe (start users groups apiKeys adminToken) calls ↔
      Run.StepsMeet (step argon2) RefreshesValid (start users groups apiKeys adminToken) calls := by
  have hdrawn : Drawn (start users groups apiKeys adminToken) :=
    ⟨Finset.Subset.refl _, Finset.Subset.refl _⟩
  have hsafe : Safe (start users groups apiKeys adminToken) :=
    fun _ _ _ tok _ hover => absurd hover (Finset.notMem_empty tok)
  exact Run.always_iff_stepsMeet (fun _ _ _ hs hstep => drawn_step hstep hs)
    (fun _ _ _ hs hsafe hstep => safe_step_iff hs hsafe hstep) hdrawn hsafe h

/-- Password hashes of one password. -/
def onePassword : Argon2 where
  hash _ _ := "$argon2id$v=19$m=19456,t=2,p=1$c2FsdA$aGFzaA"
  verify stored password :=
    if stored = "$argon2id$v=19$m=19456,t=2,p=1$c2FsdA$aGFzaA" then
      some (decide (password = "open sesame"))
    else none

def ana : UserEntry := ⟨"ana", "$argon2id$v=19$m=19456,t=2,p=1$c2FsdA$aGFzaA", "Ana"⟩

/-- Ana logs in with her browser, and an hour later with a script. When the browser's session
    has expired, one request comes with both tokens. -/
def twoLogins : List (Nat × SessionCall) :=
  [(0, .login "ana" "open sesame" "browser"), (3600000, .login "ana" "open sesame" "script"),
    (28800001, .request false ⟨some "browser", some "script", none⟩)]

/-- The browser's session is over, and the next request with its cookie is let in on it: the
    last call was let in on the script's session and has refreshed the browser's. -/
theorem expired_session_revived :
    ∃ s', Run.runFrom (step onePassword) (start [ana] [] [] "") twoLogins = some s' ∧
      "browser" ∈ s'.ended ∧ s'.clock ≤ 28800002 ∧
      (⟨some "browser", none, none⟩ : RequestTokens).authenticatedBy s'.store 28800002 =
        some "browser" := by
  have hrun : (Run.runFrom (step onePassword) (start [ana] [] [] "") twoLogins).any (fun s =>
      decide ("browser" ∈ s.ended) && (decide (s.clock ≤ 28800002) &&
        decide ((⟨some "browser", none, none⟩ : RequestTokens).authenticatedBy s.store 28800002 =
          some "browser"))) = true := by
    decide +kernel
  obtain ⟨s', hs', hlet⟩ := (Option.any_eq_true _ _).mp hrun
  simp only [Bool.and_eq_true, decide_eq_true_eq] at hlet
  exact ⟨s', hs', hlet⟩

/-- Without the last call all is well. -/
theorem sessions_stay_over_two_logins :
    ∃ s', Run.runFrom (step onePassword) (start [ana] [] [] "") (twoLogins.take 2) = some s' ∧
      Run.Always (step onePassword) Safe (start [ana] [] [] "") (twoLogins.take 2) := by
  have hrun : (Run.runFrom (step onePassword) (start [ana] [] [] "")
      (twoLogins.take 2)).isSome = true := by
    decide +kernel
  obtain ⟨s', hs'⟩ := Option.isSome_iff_exists.mp hrun
  refine ⟨s', hs', (sessions_stay_over_iff [ana] [] [] "" hs').mpr ?_⟩
  -- a login refreshes nothing
  intro bs ev s hpre _ tok x hrefresh
  have hmem : ev ∈ twoLogins.take 2 := hpre.subset (by simp)
  have hev : ev = (0, .login "ana" "open sesame" "browser") ∨
      ev = (3600000, .login "ana" "open sesame" "script") := by
    simpa [twoLogins] using hmem
  cases hev with
  | inl heq =>
    rw [heq] at hrefresh
    cases hrefresh
  | inr heq =>
    rw [heq] at hrefresh
    cases hrefresh

end SessionRun

end ByteHive
