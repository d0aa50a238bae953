import ByteHive.ForStd.Since
import ByteHive.Native.KnownServers

/-!
# Trust on first use

Once the fingerprint of a server has been written down, sessions with that address are trusted with
this fingerprint only, through all sessions with other servers, until the file is changed by
somebody else, cannot be read or cannot be written.
-/

namespace ByteHive

open Run KnownServers

variable {c : ServersToml} {file file' : Option String} {a f : String}

/-! ## The list -/

/-- A pin holds for its address and leaves the others alone. -/
theorem getFingerprint_pin (addr fingerprint : String) (nowMs : Nat) (servers : List KnownServer)
    (b : String) :
    getFingerprint (pin addr fingerprint nowMs servers) b =
      if b = addr then some fingerprint else getFingerprint servers b := by
  induction servers with
  | nil =>
    by_cases hb : b = addr
    · simp [pin, getFingerprint, hb]
    · have hb' : ¬addr = b := fun heq => hb heq.symm
      simp [pin, getFingerprint, hb, hb']
  | cons s servers ih =>
    rw [pin]
    by_cases hs : s.addr = addr
    · rw [if_pos hs]
      by_cases hb : b = addr
      · simp [getFingerprint, hs, hb]
      · have hb' : ¬s.addr = b := fun heq => hb (heq.symm.trans hs)
        simp [getFingerprint, hb, hb']
    · rw [if_neg hs]
      by_cases hsb : s.addr = b
      · have hb : ¬b = addr := fun heq => hs (hsb.trans heq)
        simp [getFingerprint, hsb, hb]
      · have hskip : ∀ l, getFingerprint (s :: l) b = getFingerprint l b := by
          intro l
          simp [getFingerprint, hsb]
        rw [hskip, hskip, ih]

/-- A save that ends well is read again, if the list can be printed. -/
theorem loadOrCreate_save (hc : c.Lawful) {servers : List KnownServer}
    (hprint : (c.toStringPretty servers).isSome = true) :
    loadOrCreate c (save c file servers .saved) = servers := by
  obtain ⟨text, htext⟩ := Option.isSome_iff_exists.mp hprint
  rw [save, htext, loadOrCreate]
  dsimp only
  rw [Option.bind_some, hc servers text htext]
  rfl

/-! ## One event -/

/-- The fingerprint that the file has for an address. -/
def pinned (c : ServersToml) (file : Option String) (a : String) : Option String :=
  getFingerprint (loadOrCreate c file) a

/-- A session writes down the fingerprint of a server that the file has not known. -/
def PinsNow (c : ServersToml) (a f : String) (file : Option String) : TrustEvent → Prop
  | .contact s =>
    s.addr = a ∧ s.cert = some f ∧ getFingerprint (s.known c file) a = none ∧ s.save = .saved ∧
      (c.toStringPretty (pin a f s.nowMs (s.known c file))).isSome = true
  | .change _ => False

/-- The file is changed by somebody else, cannot be read or cannot be written. -/
def Disturbs : TrustEvent → Prop
  | .contact s => s.unreadable = true ∨ s.save ≠ .saved
  | .change _ => True

instance (ev : TrustEvent) : Decidable (Disturbs ev) := by
  unfold Disturbs
  split <;> infer_instance

theorem pinned_of_pinsNow (hc : c.Lawful) {ev : TrustEvent} (h : PinsNow c a f file ev)
    (hstep : trustStep c file ev = some file') : pinned c file' a = some f := by
  cases ev with
  | change left => exact h.elim
  | contact s =>
    obtain ⟨haddr, hcert, hnew, hsave, hprint⟩ := h
    obtain rfl := Option.some.inj hstep
    rw [← haddr] at hnew hprint ⊢
    rw [checkServer, hcert]
    dsimp only
    rw [hnew, hsave, pinned, loadOrCreate_save hc hprint, getFingerprint_pin, if_pos rfl]

/-- An event that disturbs nothing keeps what is pinned. -/
theorem pinned_of_undisturbed (hc : c.Lawful) {ev : TrustEvent} (hev : ¬Disturbs ev)
    (hpinned : pinned c file a = some f) (hstep : trustStep c file ev = some file') :
    pinned c file' a = some f := by
  cases ev with
  | change left => exact absurd trivial hev
  | contact s =>
    obtain ⟨hread, hsave⟩ := not_or.mp hev
    rw [Bool.not_eq_true] at hread
    rw [not_not] at hsave
    have hknown : s.known c file = loadOrCreate c file := by
      rw [ServerContact.known, hread]
      rfl
    obtain rfl := Option.some.inj hstep
    rw [checkServer]
    split
    · exact hpinned
    · next fingerprint _ =>
      split
      · next hnew =>
        rw [hsave]
        cases hprint : c.toStringPretty (pin s.addr fingerprint s.nowMs (s.known c file)) with
        | none =>
          rw [save, hprint]
          exact hpinned
        | some text =>
          -- Another server has been pinned.
          have hother : ¬a = s.addr := by
            rintro rfl
            rw [hknown] at hnew
            rw [pinned, hnew] at hpinned
            cases hpinned
          rw [pinned, loadOrCreate_save hc (by rw [hprint]; rfl), getFingerprint_pin,
            if_neg hother, hknown]
          exact hpinned
      · split
        · exact hpinned
        · split <;> exact hpinned

/-! ## Runs -/

theorem pinned_run (hc : c.Lawful) {evs : List TrustEvent} {σ : Option String}
    (hrun : runFrom (trustStep c) file evs = some σ)
    (hsince : Since (trustStep c) (PinsNow c a f) Disturbs file evs) :
    pinned c σ a = some f := by
  induction evs using List.reverseRecOn generalizing σ with
  | nil => exact absurd hsince not_since_nil
  | append_singleton evs ev ih =>
    obtain ⟨τ, hrun', hstep⟩ := runFrom_concat.mp hrun
    -- The last event pins the server, or it was pinned before and this one disturbs nothing.
    rcases (since_concat hrun').mp hsince with hpins | ⟨hsince, hev⟩
    · exact pinned_of_pinsNow hc hpins hstep
    · exact pinned_of_undisturbed hc hev (ih hrun' hsince) hstep

/-- After a session that has written down the fingerprint of a server, and as long as nothing has
    disturbed the file since, a session with this address is trusted exactly if the server presents
    this certificate or none, and it does not change the file. -/
theorem trusted_iff_pinned (c : ServersToml) (hc : c.Lawful) (file : Option String)
    (evs : List TrustEvent) {σ : Option String}
    (hrun : runFrom (trustStep c) file evs = some σ) {a f : String}
    (hsince : Since (trustStep c) (PinsNow c a f) Disturbs file evs) (s : ServerContact)
    (haddr : s.addr = a) (hread : s.unreadable = false) :
    ((checkServer c σ s).1 = .trusted ↔ s.cert = none ∨ s.cert = some f) ∧
      (checkServer c σ s).2 = σ := by
  have hpinned := pinned_run hc hrun hsince
  have hknown : getFingerprint (s.known c σ) s.addr = some f := by
    rw [ServerContact.known, hread, haddr]
    exact hpinned
  rw [checkServer]
  cases hcert : s.cert with
  | none => exact ⟨⟨fun _ => .inl rfl, fun _ => rfl⟩, rfl⟩
  | some fingerprint =>
    dsimp only
    rw [hknown]
    dsimp only
    by_cases hsame : f = fingerprint
    · rw [if_pos hsame, hsame]
      exact ⟨⟨fun _ => .inr rfl, fun _ => rfl⟩, rfl⟩
    · rw [if_neg hsame]
      have hother : ¬(some fingerprint = none ∨ some fingerprint = some f) := by
        rintro (h | h)
        · cases h
        · exact hsame (Option.some.inj h).symm
      split
      · refine ⟨⟨fun h => ?_, fun h => absurd h hother⟩, rfl⟩
        cases h
      · refine ⟨⟨fun h => ?_, fun h => absurd h hother⟩, rfl⟩
        cases h

/-- A crate that knows one list only. -/
def oneServerToml : ServersToml where
  fromStr text := if text = "a f" then some [⟨"a", "f", 0⟩] else none
  toStringPretty servers := if servers = [⟨"a", "f", 0⟩] then some "a f" else none

theorem oneServerToml_lawful : oneServerToml.Lawful := by
  intro servers text h
  unfold oneServerToml at h ⊢
  dsimp only at h ⊢
  split at h
  · next hservers =>
    obtain rfl := Option.some.inj h
    rw [if_pos rfl, hservers]
  · cases h

/-- A server is met for the first time, then one that presents no certificate. -/
def twoContacts : List TrustEvent :=
  [.contact ⟨"a", some "f", 0, false, .saved⟩, .contact ⟨"b", none, 1, false, .saved⟩]

theorem trusted_iff_pinned_twoContacts :
    runFrom (trustStep oneServerToml) none twoContacts = some (some "a f") ∧
      (checkServer oneServerToml (some "a f") ⟨"a", some "f", 2, false, .saved⟩).1 = .trusted ∧
      (checkServer oneServerToml (some "a f") ⟨"a", some "g", 2, false, .saved⟩).1 ≠ .trusted := by
  have hrun : runFrom (trustStep oneServerToml) none twoContacts = some (some "a f") := by
    decide +kernel
  have hsince : Since (trustStep oneServerToml) (PinsNow oneServerToml "a" "f") Disturbs none
      twoContacts := by
    refine ⟨[], _, _, none, rfl, rfl, ⟨rfl, rfl, rfl, rfl, by decide +kernel⟩, ?_⟩
    intro ev hev
    rw [List.mem_singleton.mp hev]
    decide
  have hiff := trusted_iff_pinned oneServerToml oneServerToml_lawful none twoContacts hrun hsince
  refine ⟨hrun, (hiff _ rfl rfl).1.mpr (.inr rfl), fun h => ?_⟩
  have hcert := (hiff _ rfl rfl).1.mp h
  simp at hcert

end ByteHive
