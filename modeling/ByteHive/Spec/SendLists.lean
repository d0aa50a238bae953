import ByteHive.Native.Manifest

/-!
# The two send lists

Each peer computes what to send from its own manifest and the other's. A path whose entries
differ is sent by the peer with the newer entry, by the server when both are equally old, and
by the only peer that has it. So the two lists share no path, and what they leave out is equal
already.

## Key results

- `mem_computeSendList_iff`: one peer sends what differs and the other does not send
- `sendLists_complementary`: exchanging the lists makes the manifests equal
-/

namespace ByteHive

/-- The content hash that the manifest has for a path. -/
def Manifest.hashAt (m : Manifest) (p : PathBuf) : Option Hash :=
  (m.files.get p).map (·.hash)

/-- The manifest with the entries of `other` for the paths that were sent. -/
def Manifest.receive (m other : Manifest) (sent : List PathBuf) : Manifest :=
  { m with files := .ofKeys (m.files.keys ∪ other.files.keys) fun p =>
      if p ∈ sent then other.files.get p else m.files.get p }

theorem Manifest.get_receive (m other : Manifest) (sent : List PathBuf) (p : PathBuf) :
    (m.receive other sent).files.get p =
      if p ∈ sent then other.files.get p else m.files.get p := by
  refine FinMap.get_ofKeys_of_support (fun q hq => ?_) p
  rw [Finset.mem_union]
  split at hq
  · exact .inr ((other.files.mem_keys q).mpr hq)
  · exact .inl ((m.files.mem_keys q).mpr hq)

/-- What differs is sent by one of the two peers, and by one only. -/
theorem mem_computeSendList_iff {h h' : Host} {server client : Manifest} {p : PathBuf} :
    p ∈ computeSendList h server client true ↔
      server.hashAt p ≠ client.hashAt p ∧ p ∉ computeSendList h' client server false := by
  rw [mem_computeSendList, mem_computeSendList]
  unfold Manifest.hashAt
  cases hs : server.files.get p with
  | none => cases hc : client.files.get p <;> simp [sendsOver]
  | some sm =>
    cases hc : client.files.get p with
    | none => simp [sendsOver]
    | some cm =>
      by_cases hhash : sm.hash = cm.hash
      · simp [sendsOver, hhash]
      · have hhash' : cm.hash ≠ sm.hash := Ne.symm hhash
        -- the newer entry is sent, the server's one of two equally old ones
        simp only [sendsOver, Option.some.injEq, exists_eq_left', hhash, hhash', ne_eq,
          not_false_eq_true, decide_true, Bool.true_and, Bool.and_true, Bool.and_false,
          Bool.or_false, Bool.or_eq_true, decide_eq_true_eq, Option.map_some, true_and]
        omega

/-- A path that both have with one hash, or that none has, is in neither list. -/
theorem not_mem_computeSendList {h : Host} {locl remote : Manifest} {isServer : Bool} {p : PathBuf}
    (heq : locl.hashAt p = remote.hashAt p) : p ∉ computeSendList h locl remote isServer := by
  rw [mem_computeSendList]
  rintro ⟨lm, hlm, hsends⟩
  unfold Manifest.hashAt at heq
  rw [hlm, Option.map_some] at heq
  obtain ⟨rm, hrm, hhash⟩ := Option.map_eq_some_iff.mp heq.symm
  simp [sendsOver, hrm, hhash] at hsends

/-- After the exchange the two manifests have the same hash for every path. -/
theorem hashAt_receive_eq {h h' : Host} {server client : Manifest} (p : PathBuf) :
    (server.receive client (computeSendList h' client server false)).hashAt p =
      (client.receive server (computeSendList h server client true)).hashAt p := by
  show Option.map _ ((Manifest.receive _ _ _).files.get p) =
    Option.map _ ((Manifest.receive _ _ _).files.get p)
  rw [Manifest.get_receive, Manifest.get_receive]
  have hsplit : p ∈ computeSendList h server client true ↔
      server.hashAt p ≠ client.hashAt p ∧ p ∉ computeSendList h' client server false :=
    mem_computeSendList_iff
  by_cases hs : p ∈ computeSendList h server client true
  · have hc := (hsplit.mp hs).2
    rw [if_pos hs, if_neg hc]
  · by_cases hc : p ∈ computeSendList h' client server false
    · rw [if_neg hs, if_pos hc]
    · rw [if_neg hs, if_neg hc]
      by_contra hne
      exact hs (hsplit.mpr ⟨hne, hc⟩)

/-- Every path that differs is in exactly one of the two lists and no other path is in any; after
    the exchange the hashes are equal everywhere, and there is nothing more to send. -/
theorem sendLists_complementary (h h' : Host) (server client : Manifest) :
    let toClient := computeSendList h server client true
    let toServer := computeSendList h' client server false
    let server' := server.receive client toServer
    let client' := client.receive server toClient
    (∀ p, server.hashAt p ≠ client.hashAt p → Xor (p ∈ toClient) (p ∈ toServer)) ∧
    (∀ p, server.hashAt p = client.hashAt p → p ∉ toClient ∧ p ∉ toServer) ∧
    (∀ p, server'.hashAt p = client'.hashAt p) ∧
    (∀ h₁ h₂ : Host, computeSendList h₁ server' client' true = [] ∧
      computeSendList h₂ client' server' false = []) := by
  intro toClient toServer server' client'
  have hequal : ∀ p, server'.hashAt p = client'.hashAt p := fun p => hashAt_receive_eq p
  refine ⟨fun p hne => ?_, fun p heq => ?_, hequal, fun h₁ h₂ => ?_⟩
  · have hsplit : p ∈ toClient ↔ server.hashAt p ≠ client.hashAt p ∧ p ∉ toServer :=
      mem_computeSendList_iff
    by_cases hc : p ∈ toServer
    · exact .inr ⟨hc, fun hs => (hsplit.mp hs).2 hc⟩
    · exact .inl ⟨hsplit.mpr ⟨hne, hc⟩, hc⟩
  · exact ⟨not_mem_computeSendList heq, not_mem_computeSendList heq.symm⟩
  · constructor
    · exact List.eq_nil_iff_forall_not_mem.mpr fun p => not_mem_computeSendList (hequal p)
    · exact List.eq_nil_iff_forall_not_mem.mpr fun p => not_mem_computeSendList (hequal p).symm

end ByteHive
