import ByteHive.Native.WebRequests

/-!
# What headers cannot do

Whatever headers a client sends, the file browser sees the role of who the request is from, and
calls a handler that changes something only for who may write. A request with the token of a link
gets to the handler of links and to no other.
-/

namespace ByteHive

open TextLines

/-! ## Headers -/

namespace HeaderMap

variable {headers : HeaderMap} {name other : String} {value : Option Text}

theorem passedOn_insert_self : (headers.insert name value).passedOn name = value := by
  have hnone : (headers.filter fun kv => kv.1 ≠ name).filterMap
      (fun kv => if kv.1 = name then kv.2 else none) = [] := by
    rw [List.filterMap_eq_nil_iff]
    intro kv hkv
    have hne := (List.mem_filter.mp hkv).2
    rw [if_neg (of_decide_eq_true hne)]
  rw [passedOn, insert, List.filterMap_append, hnone, List.nil_append]
  cases value <;> simp

theorem passedOn_insert_of_ne (h : name ≠ other) :
    (headers.insert name value).passedOn other = headers.passedOn other := by
  have hsame : (headers.filter fun kv => kv.1 ≠ name).filterMap
      (fun kv => if kv.1 = other then kv.2 else none) =
        headers.filterMap fun kv => if kv.1 = other then kv.2 else none := by
    rw [List.filterMap_filter]
    congr 1
    funext kv
    by_cases hkv : kv.1 = name
    · have hother : ¬name = other := h
      simp [hkv, hother]
    · simp [hkv]
  rw [passedOn, passedOn, insert, List.filterMap_append, hsame]
  have hlast : [(name, value)].filterMap
      (fun kv : String × Option Text => if kv.1 = other then kv.2 else none) = [] := by
    simp [h]
  rw [hlast, List.append_nil]

end HeaderMap

/-- Only what can be seen in ASCII, and tabs. -/
def VisibleAscii (s : String) : Prop := ∀ c ∈ s.toList, (' ' ≤ c ∧ c ≤ '~') ∨ c = '\t'

instance (s : String) : Decidable (VisibleAscii s) :=
  List.decidableBAll (fun c => (' ' ≤ c ∧ c ≤ '~') ∨ c = '\t') s.toList

/-- `parse::<HeaderValue>` takes what is visible ASCII, and `to_str` gives it back. -/
def TakesAscii (parse : String → Option (Option Text)) : Prop :=
  ∀ s, VisibleAscii s → parse s = some (some s.toList)

variable {parse : String → Option (Option Text)} {headers : HeaderMap} {ctx : AuthContext}

theorem visibleAscii_roleOf (ctx : AuthContext) : VisibleAscii (roleOf ctx) := by
  rw [roleOf]
  split
  · decide
  · split <;> decide

/-- The role is the one of the context. -/
theorem passedOn_role (hparse : TakesAscii parse) :
    (injectAuthContext parse headers ctx).passedOn "x-bytehive-role" =
      some (roleOf ctx).toList := by
  rw [injectAuthContext, hparse _ (visibleAscii_roleOf ctx)]
  exact HeaderMap.passedOn_insert_self

/-- So is the user, if the name can be written into a header. -/
theorem passedOn_user (hparse : TakesAscii parse) (hname : VisibleAscii ctx.username) :
    (injectAuthContext parse headers ctx).passedOn "x-bytehive-user" =
      some ctx.username.toList := by
  rw [injectAuthContext, hparse _ (visibleAscii_roleOf ctx), hparse _ hname]
  dsimp only
  rw [HeaderMap.passedOn_insert_of_ne (by decide)]
  exact HeaderMap.passedOn_insert_self

/-! ## Routes -/

/-- The handler changes files, the trash or the links. -/
def BrowserRoute.changes : BrowserRoute → Bool
  | .upload | .mkdir | .delete | .batchDelete _ | .rename | .createShare _ | .batchShare _
  | .deleteShare _ _ | .write | .copy | .batchCopy | .trashRestore _ | .trashPurgeEntry _
  | .trashEmpty | .trashPurgeExpired => true
  | _ => false

/-- The user that a handler is given. -/
def BrowserRoute.user? : BrowserRoute → Option Text
  | .batchDelete user => some user
  | .createShare user => some user
  | .batchShare user => some user
  | .deleteShare user _ => some user
  | _ => none

/-- The role that a handler is given. -/
def BrowserRoute.role? : BrowserRoute → Option Text
  | .listShares role => some role
  | .deleteShare _ role => some role
  | _ => none

/-- What a route has to do with the user and the role of a request. -/
structure RouteFits (user role : Text) (route : BrowserRoute) : Prop where
  changes : route.changes = true → role ≠ "readonly".toList
  user : ∀ u, route.user? = some u → u = user
  role : ∀ r, route.role? = some r → r = role

section

variable {method path sub : String} {user role : Text} {route : BrowserRoute}

theorem routeFits_gated (huser : ∀ u, route.user? = some u → u = user)
    (hrole : ∀ r, route.role? = some r → r = role) : RouteFits user role (gated role route) := by
  rw [gated]
  split
  · refine ⟨fun h => ?_, fun u h => ?_, fun r h => ?_⟩ <;> cases h
  · next hrole' => exact ⟨fun _ => hrole', huser, hrole⟩

theorem routeFits_plain (hchanges : route.changes = false) (huser : route.user? = none)
    (hrole : ∀ r, route.role? = some r → r = role) : RouteFits user role route := by
  refine ⟨fun h => ?_, fun u h => ?_, hrole⟩
  · rw [hchanges] at h
    cases h
  · rw [huser] at h
    cases h

/-- Every handler that changes something is behind the gate. -/
theorem routeFits_browserHandler : RouteFits user role (browserHandler method sub user role) := by
  rw [browserHandler.eq_def]
  split
  case h_23 =>
    -- The paths in the trash have no literals, and are told apart by guards.
    dsimp only
    split
    · exact routeFits_gated (by simp [BrowserRoute.user?]) (by simp [BrowserRoute.role?])
    · split
      · exact routeFits_gated (by simp [BrowserRoute.user?]) (by simp [BrowserRoute.role?])
      · split
        · exact routeFits_gated (by simp [BrowserRoute.user?]) (by simp [BrowserRoute.role?])
        · split
          · exact routeFits_gated (by simp [BrowserRoute.user?]) (by simp [BrowserRoute.role?])
          · exact routeFits_plain rfl rfl (by simp [BrowserRoute.role?])
  -- A handler below a literal only reads, or it is behind the gate.
  all_goals
    first
    | exact routeFits_plain rfl rfl (by simp [BrowserRoute.role?])
    | exact routeFits_gated (by simp [BrowserRoute.user?]) (by simp [BrowserRoute.role?])

theorem routeFits_browserRoute :
    RouteFits ((headers.passedOn "x-bytehive-user").getD [])
      ((headers.passedOn "x-bytehive-role").getD []) (browserRoute method path headers) := by
  rw [browserRoute]
  dsimp only
  split
  · exact routeFits_plain rfl rfl (by simp [BrowserRoute.role?])
  · split
    · exact routeFits_plain rfl rfl (by simp [BrowserRoute.role?])
    · split
      · exact routeFits_plain rfl rfl (by simp [BrowserRoute.role?])
      · exact routeFits_browserHandler

end

theorem roleOf_eq_readonly (ctx : AuthContext) :
    roleOf ctx = "readonly" ↔ ctx.canWrite = false := by
  have hadmin : ctx.isAdmin = true → ctx.canWrite = true := by
    intro h
    obtain ⟨g, hg, heq⟩ := List.any_eq_true.mp h
    exact List.any_eq_true.mpr ⟨g, hg, by simp [heq]⟩
  rw [roleOf]
  cases hwrite : ctx.canWrite with
  | true => split <;> simp
  | false =>
    have hnot : ctx.isAdmin = false := by
      by_contra h
      rw [hadmin ((Bool.not_eq_false _).mp h)] at hwrite
      cases hwrite
    simp [hnot]

/-- Whatever method, path, query and headers a client sends, a handler of the file browser that
    changes something is called only if the credentials of the request are those of somebody who may
    write. A handler is given the role of that context, and its user, if the name is visible
    ASCII. -/
theorem changes_only_authorised (hparse : TakesAscii parse) (s : UserStore) (nowMs : Nat)
    (req : WebRequest) {route : BrowserRoute} {s' : UserStore}
    (h : proxyRequest parse s nowMs req = (.routed route, s')) :
    ∃ ctx, req.tokens.authMiddleware s nowMs = (.admitted ctx, s') ∧
      (route.changes = true → ctx.canWrite = true) ∧
      (∀ role, route.role? = some role → role = (roleOf ctx).toList) ∧
      (VisibleAscii ctx.username →
        ∀ user, route.user? = some user → user = ctx.username.toList) := by
  rw [proxyRequest] at h
  split at h
  · next ctx t hauth =>
    obtain ⟨hroute, rfl⟩ := Prod.mk.inj h
    obtain rfl := WebAnswer.routed.inj hroute
    set headers := injectAuthContext parse req.headers ctx with hheaders
    have hfits : RouteFits ((headers.passedOn "x-bytehive-user").getD [])
        ((headers.passedOn "x-bytehive-role").getD [])
        (browserRoute req.method req.path headers) :=
      routeFits_browserRoute
    obtain ⟨hchanges, huser, hrole⟩ := hfits
    -- What the gate looks at is not the client's header but the one written over it.
    rw [hheaders, passedOn_role hparse, Option.getD_some] at hchanges hrole
    refine ⟨ctx, hauth, fun hc => ?_, hrole, fun hname user hu => ?_⟩
    · by_contra hwrite
      rw [Bool.not_eq_true] at hwrite
      apply hchanges hc
      rw [(roleOf_eq_readonly ctx).mpr hwrite]
    · rw [huser user hu, hheaders, passedOn_user hparse hname, Option.getD_some]
  · cases h

/-- Ana's session is the cookie of a request that calls itself an administrator's. -/
def sharedByAna : WebRequest where
  method := "POST"
  path := "/api/filebrowser/share"
  query := []
  headers := [("cookie", some "theme=dark; cc_session=t1".toList),
    ("x-bytehive-user", some "root".toList), ("x-bytehive-role", some "admin".toList)]

def anaLoggedIn : UserStore :=
  { UserStore.new [⟨"ana", "", "Ana"⟩] [⟨groupUser, "", ["ana"]⟩] [] "" with
    sessions := FinMap.empty.insert "t1" ⟨"t1", "ana", "Ana", 1000⟩ }

/-- The link is made as Ana's. -/
theorem changes_only_authorised_sharedByAna :
    ∃ ctx s', sharedByAna.tokens.authMiddleware anaLoggedIn 0 = (.admitted ctx, s') ∧
      ctx.canWrite = true ∧
      (VisibleAscii ctx.username → "ana".toList = ctx.username.toList) := by
  obtain ⟨ctx, hauth, hwrite, -, huser⟩ := changes_only_authorised (fun _ _ => rfl) anaLoggedIn 0
    sharedByAna (Prod.ext (show (proxyRequest (fun s => some (some s.toList)) anaLoggedIn 0
      sharedByAna).1 = .routed (.createShare "ana".toList) by decide +kernel) rfl)
  exact ⟨ctx, _, hauth, hwrite rfl, fun hname => huser hname _ rfl⟩

/-- A request with the token of a link is for the link, whatever it says of its user. -/
theorem shareRequest_eq (req : WebRequest) (token : Text) :
    shareRequest req token = .shareAccess (token.rdropWhile (· = '/')) := by
  have hpath : (String.ofList ("/api/filebrowser/s/".toList ++ token)).toList =
      "/api/filebrowser".toList ++ ("/s/".toList ++ token) := by
    simp
  rw [shareRequest, browserRoute, hpath]
  simp [stripPrefix]

end ByteHive
