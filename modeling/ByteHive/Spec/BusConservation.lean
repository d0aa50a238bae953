import Mathlib.Data.List.Nodup
import ByteHive.ForStd.Run
import ByteHive.Native.BusDelivery

/-!
# What becomes of a message on the bus

A message that was published is received, queued, counted as dropped, or still to be offered by
the call that publishes it (`Conserved`), for every subscription that the bus has. `gc` asks for
the token, which `into_iter` drops: it takes a subscription from the bus whose iterator is still
read. Without such a step every run conserves the messages, and only without it
(`conserved_iff`).
-/

namespace ByteHive.MessageBus

/-! ## Counting -/

/-- All that came to the subscription and is not lost. -/
def Sub.items (sub : Sub) : List Published := sub.received ++ sub.queue

/-- What was received, queued or dropped. -/
def Sub.total (sub : Sub) : Nat := sub.received.length + sub.queue.length + sub.dropped

/-- The messages on matching topics that were published since the subscription. -/
def BusState.published (s : BusState) (sub : Sub) : Nat :=
  (s.log.drop sub.since).countP fun call => topicMatches sub.pattern call.msg.topic

/-- The calls of `publish` that have not come to the subscription. -/
def BusState.inFlight (s : BusState) (i : Nat) : Nat :=
  s.log.countP fun call => decide (i ∈ call.pending)

/-- A thread's messages come in the order of their numbers, and none twice. -/
def InOrder (items : List Published) : Prop :=
  items.Pairwise fun a b => a.publisher = b.publisher → a.msg.id < b.msg.id

/-- The bus has the subscription, and no message is lost or comes out of order. -/
structure Conserved (s : BusState) (i : Nat) (sub : Sub) : Prop where
  inBus : i ∈ s.inBus
  balance : s.published sub = sub.total + s.inFlight i
  ordered : InOrder sub.received

/-- Of every subscription whose consumer exists. -/
def AllConserved (s : BusState) : Prop :=
  ∀ i sub, s.subs[i]? = some sub → sub.consumer.present = true → Conserved s i sub

/-- No call of `publish` is on its way between two calls. -/
theorem inFlight_eq_zero {s : BusState} (h : s.unlocked = true) (i : Nat) : s.inFlight i = 0 := by
  rw [BusState.inFlight, List.countP_eq_zero]
  intro call hcall
  have hempty := List.all_eq_true.mp h call hcall
  rw [List.isEmpty_iff] at hempty
  simp [hempty]

/-! ## One subscription -/

theorem Sub.act_items {sub sub' : Sub} {act : ConsumerAct} (h : sub.act act = some sub') :
    sub'.items.Sublist sub.items ∧ sub'.since = sub.since ∧ sub'.pattern = sub.pattern ∧
      sub'.capacity = sub.capacity ∧ sub'.queue.length ≤ sub.queue.length := by
  cases act <;> simp only [Sub.act] at h
  case receive =>
    split at h
    · cases h
    · next p rest hqueue =>
      split at h
      · cases h
        refine ⟨?_, rfl, rfl, rfl, ?_⟩
        · simp [Sub.items, hqueue]
        · simp [hqueue]
      · cases h
  case drop =>
    split at h
    · cases h
      refine ⟨?_, rfl, rfl, rfl, Nat.zero_le _⟩
      simp [Sub.items]
    · cases h
  all_goals
    split at h
    · cases h
      exact ⟨List.Sublist.refl _, rfl, rfl, rfl, Nat.le_refl _⟩
    · cases h

/-- While there is a consumer nothing it does loses a message. -/
theorem Sub.act_total {sub sub' : Sub} {act : ConsumerAct} (h : sub.act act = some sub')
    (hpresent : sub'.consumer.present = true) :
    sub.consumer.present = true ∧ sub'.total = sub.total := by
  cases act <;> simp only [Sub.act] at h
  case receive =>
    split at h
    · cases h
    · next p rest hqueue =>
      split at h
      · cases h
        refine ⟨hpresent, ?_⟩
        simp only [Sub.total, hqueue, List.length_append, List.length_cons, List.length_nil]
        omega
      · cases h
  case intoIter =>
    split at h
    · next hreceiver =>
      cases h
      rw [hreceiver.1]
      exact ⟨rfl, rfl⟩
    · cases h
  case drop =>
    split at h
    · cases h
      simp only at hpresent
      split at hpresent <;> cases hpresent
    · cases h
  case dropToken =>
    split at h
    · cases h
      cases hpresent
    · cases h
  all_goals
    split at h
    · cases h
      exact ⟨hpresent, rfl⟩
    · cases h

@[simp] theorem Sub.offer_consumer (sub : Sub) (p : Published) :
    (sub.offer p).consumer = sub.consumer := by
  rw [Sub.offer]
  repeat' split
  all_goals rfl

@[simp] theorem Sub.offer_since (sub : Sub) (p : Published) : (sub.offer p).since = sub.since := by
  rw [Sub.offer]
  repeat' split
  all_goals rfl

@[simp] theorem Sub.offer_pattern (sub : Sub) (p : Published) :
    (sub.offer p).pattern = sub.pattern := by
  rw [Sub.offer]
  repeat' split
  all_goals rfl

/-- The message comes last, if it comes at all. -/
theorem Sub.offer_items {sub : Sub} (hqueue : sub.queue.length ≤ sub.capacity) (p : Published) :
    ((sub.offer p).items = sub.items ∨ (sub.offer p).items = sub.items ++ [p]) ∧
      (sub.offer p).queue.length ≤ (sub.offer p).capacity := by
  rw [Sub.offer]
  split
  · exact ⟨Or.inl rfl, hqueue⟩
  · split
    · next hzero =>
      have hnil : sub.queue = [] := List.length_eq_zero_iff.mp (by omega)
      split
      · exact ⟨Or.inr (by simp [Sub.items, hnil]), hqueue⟩
      · exact ⟨Or.inl rfl, hqueue⟩
    · split
      · next hroom =>
        refine ⟨Or.inr (by simp [Sub.items]), ?_⟩
        simp only [List.length_append, List.length_singleton]
        omega
      · exact ⟨Or.inl rfl, hqueue⟩

/-- What is offered to a consumer is received, queued or counted as dropped. -/
theorem Sub.offer_total {sub : Sub} (hpresent : sub.consumer.present = true) (p : Published) :
    (sub.offer p).total = sub.total + 1 := by
  rw [Sub.offer, hpresent]
  simp only [Bool.not_true, Bool.false_eq_true, if_false]
  repeat' split
  all_goals
    simp only [Sub.total, List.length_append, List.length_singleton]
    omega

/-! ## What every step keeps -/

/-- A subscription as it can be after a number of calls and numbers. -/
structure SubValid (calls nextId : Nat) (sub : Sub) : Prop where
  since_le : sub.since ≤ calls
  queue_le : sub.queue.length ≤ sub.capacity
  items_lt : ∀ p ∈ sub.items, p.msg.id < nextId
  ordered : InOrder sub.items

/-- What a subscription has of a thread is older than this message. -/
def Ahead (thread : Nat) (msg : BusMessage) (sub : Sub) : Prop :=
  ∀ p ∈ sub.items, p.publisher = thread → p.msg.id < msg.id

structure BusInv (s : BusState) : Prop where
  bus_nodup : s.inBus.Nodup
  bus_lt : ∀ i ∈ s.inBus, i < s.subs.length
  subs_valid : ∀ (i : Nat) sub, s.subs[i]? = some sub → SubValid s.log.length s.nextId sub
  pending_nodup : ∀ call ∈ s.log, call.pending.Nodup
  /-- Of the calls of a thread only the last is on its way. -/
  sequential : s.log.Pairwise fun a b => a.publisher = b.publisher → a.pending = []
  call_lt : ∀ call ∈ s.log, call.msg.id < s.nextId
  call_ahead : ∀ call ∈ s.log, ∀ i ∈ call.pending, ∀ sub, s.subs[i]? = some sub →
    Ahead call.publisher call.msg sub
  numbered_idle : ∀ thread msg, s.numbered thread = some msg → ∀ call ∈ s.log,
    call.publisher = thread → call.pending = []
  numbered_lt : ∀ thread msg, s.numbered thread = some msg → msg.id < s.nextId
  numbered_ahead : ∀ thread msg, s.numbered thread = some msg → ∀ (i : Nat) sub, s.subs[i]? = some sub →
    Ahead thread msg sub

theorem BusInv.new : BusInv .new := by
  constructor <;> simp [BusState.new]

theorem SubValid.mono {calls calls' nextId nextId' : Nat} {sub : Sub}
    (h : SubValid calls nextId sub) (hcalls : calls ≤ calls') (hid : nextId ≤ nextId') :
    SubValid calls' nextId' sub :=
  ⟨Nat.le_trans h.since_le hcalls, h.queue_le, fun p hp => Nat.lt_of_lt_of_le (h.items_lt p hp) hid,
    h.ordered⟩

theorem getElem?_set_cases {α : Type} {l : List α} {i k : Nat} {a b : α}
    (h : (l.set i a)[k]? = some b) : k = i ∧ b = a ∨ k ≠ i ∧ l[k]? = some b := by
  rw [List.getElem?_set] at h
  split at h
  · next heq =>
    split at h
    · exact Or.inl ⟨heq.symm, (Option.some.inj h).symm⟩
    · cases h
  · next hne => exact Or.inr ⟨fun heq => hne heq.symm, h⟩

section

variable {s s' : BusState}

theorem BusInv.subscribe (h : BusInv s) {pattern : String} {queue : Nat}
    (hstep : step s (.subscribe pattern queue) = some s') : BusInv s' := by
  rw [step] at hstep
  split at hstep
  case isFalse => cases hstep
  case isTrue hunlocked =>
    cases hstep
    have hidle : ∀ call ∈ s.log, call.pending = [] := by
      intro call hcall
      simpa using List.all_eq_true.mp hunlocked call hcall
    have hsub : ∀ (i : Nat) sub, (s.subs ++
        [⟨pattern, queue, [], 0, .receiver, false, [], s.log.length⟩])[i]? = some sub →
        s.subs[i]? = some sub ∨ sub = ⟨pattern, queue, [], 0, .receiver, false, [], s.log.length⟩ := by
      intro i sub hi
      rw [List.getElem?_append] at hi
      split at hi
      · exact Or.inl hi
      · exact Or.inr (List.mem_singleton.mp (List.mem_of_getElem? hi))
    refine { h with
      bus_nodup := ?_, bus_lt := ?_, subs_valid := ?_, call_ahead := ?_, numbered_ahead := ?_ }
    · refine List.nodup_append.mpr ⟨h.bus_nodup, List.nodup_singleton _, ?_⟩
      intro i hi j hj
      rw [List.mem_singleton.mp hj]
      exact Nat.ne_of_lt (h.bus_lt i hi)
    · intro i hi
      rw [List.length_append, List.length_singleton]
      obtain hi | hi := List.mem_append.mp hi
      · exact Nat.lt_succ_of_lt (h.bus_lt i hi)
      · rw [List.mem_singleton.mp hi]
        exact Nat.lt_succ_self _
    · intro i sub hi
      obtain hi | rfl := hsub i sub hi
      · exact h.subs_valid i sub hi
      · exact ⟨Nat.le_refl _, Nat.zero_le _, by simp [Sub.items], by simp [Sub.items, InOrder]⟩
    · intro call hcall i hi
      rw [hidle call hcall] at hi
      cases hi
    · intro thread msg hmsg i sub hi
      obtain hi | rfl := hsub i sub hi
      · exact h.numbered_ahead thread msg hmsg i sub hi
      · simp [Ahead, Sub.items]

theorem BusInv.publish (h : BusInv s) {thread : Nat} {source topic payload : String}
    (hstep : step s (.publish thread source topic payload) = some s') : BusInv s' := by
  rw [step] at hstep
  split at hstep
  case isFalse => cases hstep
  case isTrue hidle =>
    cases hstep
    simp only [BusState.idle, Bool.and_eq_true, List.all_eq_true, decide_eq_true_eq] at hidle
    have hnumbered : ∀ other msg,
        Function.update s.numbered thread (some ⟨s.nextId, source, topic, payload⟩) other = some msg →
        other = thread ∧ msg = ⟨s.nextId, source, topic, payload⟩ ∨ s.numbered other = some msg := by
      intro other msg hmsg
      rw [Function.update_apply] at hmsg
      split at hmsg
      · next heq => exact Or.inl ⟨heq, (Option.some.inj hmsg).symm⟩
      · exact Or.inr hmsg
    refine { h with
      subs_valid := ?_, call_lt := ?_, numbered_idle := ?_, numbered_lt := ?_, numbered_ahead := ?_ }
    · intro i sub hi
      exact (h.subs_valid i sub hi).mono (Nat.le_refl _) (Nat.le_succ _)
    · exact fun call hcall => Nat.lt_succ_of_lt (h.call_lt call hcall)
    · intro other msg hmsg call hcall heq
      obtain ⟨rfl, -⟩ | hmsg := hnumbered other msg hmsg
      · exact hidle.2 call hcall heq
      · exact h.numbered_idle other msg hmsg call hcall heq
    · intro other msg hmsg
      obtain ⟨-, rfl⟩ | hmsg := hnumbered other msg hmsg
      · exact Nat.lt_succ_self _
      · exact Nat.lt_succ_of_lt (h.numbered_lt other msg hmsg)
    · intro other msg hmsg i sub hi p hp heq
      obtain ⟨-, rfl⟩ | hmsg := hnumbered other msg hmsg
      · exact (h.subs_valid i sub hi).items_lt p hp
      · exact h.numbered_ahead other msg hmsg i sub hi p hp heq

theorem BusInv.readLock (h : BusInv s) {thread : Nat}
    (hstep : step s (.readLock thread) = some s') : BusInv s' := by
  rw [step] at hstep
  split at hstep
  case h_1 => cases hstep
  case h_2 msg hmsg =>
    cases hstep
    have hnumbered : ∀ other m, Function.update s.numbered thread none other = some m →
        other ≠ thread ∧ s.numbered other = some m := by
      intro other m hm
      rw [Function.update_apply] at hm
      split at hm
      · cases hm
      · next hne => exact ⟨hne, hm⟩
    refine { h with
      subs_valid := ?_, pending_nodup := ?_, sequential := ?_, call_lt := ?_, call_ahead := ?_,
      numbered_idle := ?_, numbered_lt := ?_, numbered_ahead := ?_ }
    · intro i sub hi
      rw [List.length_append]
      exact (h.subs_valid i sub hi).mono (Nat.le_add_right _ _) (Nat.le_refl _)
    · intro call hcall
      obtain hcall | hcall := List.mem_append.mp hcall
      · exact h.pending_nodup call hcall
      · rw [List.mem_singleton.mp hcall]
        exact h.bus_nodup.filter _
    · refine List.pairwise_append.mpr ⟨h.sequential, List.pairwise_singleton _ _, ?_⟩
      intro call hcall last hlast heq
      rw [List.mem_singleton.mp hlast] at heq
      exact h.numbered_idle thread msg hmsg call hcall heq
    · intro call hcall
      obtain hcall | hcall := List.mem_append.mp hcall
      · exact h.call_lt call hcall
      · rw [List.mem_singleton.mp hcall]
        exact h.numbered_lt thread msg hmsg
    · intro call hcall i hi sub hsub
      obtain hcall | hcall := List.mem_append.mp hcall
      · exact h.call_ahead call hcall i hi sub hsub
      · rw [List.mem_singleton.mp hcall]
        exact h.numbered_ahead thread msg hmsg i sub hsub
    · intro other m hm call hcall heq
      obtain ⟨hne, hm⟩ := hnumbered other m hm
      obtain hcall | hcall := List.mem_append.mp hcall
      · exact h.numbered_idle other m hm call hcall heq
      · rw [List.mem_singleton.mp hcall] at heq
        exact absurd heq.symm hne
    · exact fun other m hm => h.numbered_lt other m (hnumbered other m hm).2
    · exact fun other m hm => h.numbered_ahead other m (hnumbered other m hm).2

/-- Where a call is on its way, no other message of its thread is. -/
theorem BusInv.eq_of_pending (h : BusInv s) {j k : Nat} {a b : Publication} (hj : s.log[j]? = some a)
    (hk : s.log[k]? = some b) (hthread : a.publisher = b.publisher) (ha : a.pending ≠ [])
    (hb : b.pending ≠ []) : j = k := by
  have hlt : ∀ {j k : Nat} {a b : Publication}, s.log[j]? = some a → s.log[k]? = some b →
      a.publisher = b.publisher → a.pending ≠ [] → ¬j < k := by
    intro j k a b hj hk hthread ha hjk
    obtain ⟨hjlt, rfl⟩ := List.getElem?_eq_some_iff.mp hj
    obtain ⟨hklt, rfl⟩ := List.getElem?_eq_some_iff.mp hk
    exact ha (List.pairwise_iff_getElem.mp h.sequential j k hjlt hklt hjk hthread)
  have h₁ := hlt hj hk hthread ha
  have h₂ := hlt hk hj hthread.symm hb
  omega

/-- What an offer is taken in. -/
theorem step_offer {call i : Nat} (hstep : step s (.offer call i) = some s') :
    ∃ pub sub, s.log[call]? = some pub ∧ s.subs[i]? = some sub ∧ i ∈ pub.pending ∧
      s' = { s with
        log := s.log.set call { pub with pending := pub.pending.erase i }
        subs := s.subs.set i (sub.offer pub.toPublished) } := by
  rw [step] at hstep
  split at hstep
  · next pub sub hpub hsub =>
    split at hstep
    · next hmem =>
      cases hstep
      exact ⟨pub, sub, hpub, hsub, hmem, rfl⟩
    · cases hstep
  · cases hstep

theorem step_consume {i : Nat} {act : ConsumerAct} (hstep : step s (.consume i act) = some s') :
    ∃ sub sub', s.subs[i]? = some sub ∧ sub.act act = some sub' ∧
      s' = { s with subs := s.subs.set i sub' } := by
  rw [step] at hstep
  split at hstep
  · cases hstep
  · next sub hsub =>
    obtain ⟨sub', hact, rfl⟩ := Option.map_eq_some_iff.mp hstep
    exact ⟨sub, sub', hsub, hact, rfl⟩

theorem BusInv.offer (h : BusInv s) {call i : Nat} (hstep : step s (.offer call i) = some s') :
    BusInv s' := by
  obtain ⟨pub, sub, hpub, hsub, hmem, rfl⟩ := step_offer hstep
  have hpubmem := List.mem_of_getElem? hpub
  have hvalid := h.subs_valid i sub hsub
  obtain ⟨hitems, hqueue⟩ := Sub.offer_items hvalid.queue_le pub.toPublished
  have hahead := h.call_ahead pub hpubmem i hmem sub hsub
  -- every call is what it was, with fewer subscribers to come to
  have hcalls : ∀ (k : Nat) c, (s.log.set call { pub with pending := pub.pending.erase i })[k]? =
      some c → ∃ c₀, s.log[k]? = some c₀ ∧ c.toPublished = c₀.toPublished ∧
        c.pending.Sublist c₀.pending ∧ (k = call → i ∉ c.pending) := by
    intro k c hk
    obtain ⟨rfl, rfl⟩ | ⟨hne, hk⟩ := getElem?_set_cases hk
    · refine ⟨pub, hpub, rfl, List.erase_sublist, fun _ hin => ?_⟩
      exact (h.pending_nodup pub hpubmem).not_mem_erase hin
    · exact ⟨c, hk, rfl, List.Sublist.refl _, fun heq => absurd heq hne⟩
  have hmemcalls : ∀ c ∈ s.log.set call { pub with pending := pub.pending.erase i },
      ∃ c₀ ∈ s.log, c.toPublished = c₀.toPublished ∧ c.pending.Sublist c₀.pending := by
    intro c hc
    obtain ⟨k, hk⟩ := List.mem_iff_getElem?.mp hc
    obtain ⟨c₀, hk₀, hmsg, hsublist, -⟩ := hcalls k c hk
    exact ⟨c₀, List.mem_of_getElem? hk₀, hmsg, hsublist⟩
  -- what comes last is newer than what was there, and older than the next number
  have hnew : ∀ p ∈ (sub.offer pub.toPublished).items, p ∈ sub.items ∨ p = pub.toPublished := by
    intro p hp
    obtain heq | heq := hitems
    · exact Or.inl (heq ▸ hp)
    · rw [heq, List.mem_append, List.mem_singleton] at hp
      exact hp
  refine { h with
    bus_lt := ?_, subs_valid := ?_, pending_nodup := ?_, sequential := ?_, call_lt := ?_,
    call_ahead := ?_, numbered_idle := ?_, numbered_ahead := ?_ }
  · intro k hk
    rw [List.length_set]
    exact h.bus_lt k hk
  · intro k sub₁ hk
    rw [List.length_set]
    obtain ⟨rfl, rfl⟩ | ⟨-, hk⟩ := getElem?_set_cases hk
    · refine ⟨by rw [Sub.offer_since]; exact hvalid.since_le, hqueue, ?_, ?_⟩
      · intro p hp
        obtain hp | rfl := hnew p hp
        · exact hvalid.items_lt p hp
        · exact h.call_lt pub hpubmem
      · obtain heq | heq := hitems
        · rw [heq]
          exact hvalid.ordered
        · rw [heq]
          refine List.pairwise_append.mpr ⟨hvalid.ordered, List.pairwise_singleton _ _, ?_⟩
          intro p hp q hq heq
          rw [List.mem_singleton.mp hq] at heq ⊢
          exact hahead p hp heq
    · exact h.subs_valid k sub₁ hk
  · intro c hc
    obtain ⟨c₀, hc₀, -, hsublist⟩ := hmemcalls c hc
    exact (h.pending_nodup c₀ hc₀).sublist hsublist
  · rw [List.pairwise_iff_getElem]
    intro j k hj hk hjk heq
    obtain ⟨a, ha, hamsg, hasub, -⟩ := hcalls j _ (List.getElem?_eq_getElem hj)
    obtain ⟨b, hb, hbmsg, -⟩ := hcalls k _ (List.getElem?_eq_getElem hk)
    obtain ⟨hjlt, rfl⟩ := List.getElem?_eq_some_iff.mp ha
    obtain ⟨hklt, rfl⟩ := List.getElem?_eq_some_iff.mp hb
    rw [hamsg, hbmsg] at heq
    have hnil := List.pairwise_iff_getElem.mp h.sequential j k hjlt hklt hjk heq
    rw [hnil] at hasub
    exact List.sublist_nil.mp hasub
  · intro c hc
    obtain ⟨c₀, hc₀, hmsg, -⟩ := hmemcalls c hc
    rw [hmsg]
    exact h.call_lt c₀ hc₀
  · intro c hc k hk sub₁ hsub₁ p hp hthread
    obtain ⟨j, hj⟩ := List.mem_iff_getElem?.mp hc
    obtain ⟨c₀, hj₀, hmsg, hsublist, hgone⟩ := hcalls j c hj
    rw [hmsg] at hthread ⊢
    have hk₀ := hsublist.subset hk
    obtain ⟨rfl, rfl⟩ | ⟨-, hsub₁⟩ := getElem?_set_cases hsub₁
    · obtain hp | rfl := hnew p hp
      · exact h.call_ahead c₀ (List.mem_of_getElem? hj₀) k hk₀ sub hsub p hp hthread
      · -- another call of the same thread would be this one
        have hcall := h.eq_of_pending hj₀ hpub hthread.symm (List.ne_nil_of_mem hk₀)
          (List.ne_nil_of_mem hmem)
        exact absurd hk (hgone hcall)
    · exact h.call_ahead c₀ (List.mem_of_getElem? hj₀) k hk₀ sub₁ hsub₁ p hp hthread
  · intro thread msg hmsg c hc heq
    obtain ⟨c₀, hc₀, hpubmsg, hsublist⟩ := hmemcalls c hc
    rw [hpubmsg] at heq
    rw [h.numbered_idle thread msg hmsg c₀ hc₀ heq] at hsublist
    exact List.sublist_nil.mp hsublist
  · intro thread msg hmsg k sub₁ hsub₁ p hp hthread
    obtain ⟨rfl, rfl⟩ | ⟨-, hsub₁⟩ := getElem?_set_cases hsub₁
    · obtain hp | rfl := hnew p hp
      · exact h.numbered_ahead thread msg hmsg k sub hsub p hp hthread
      · rw [h.numbered_idle thread msg hmsg pub hpubmem hthread] at hmem
        cases hmem
    · exact h.numbered_ahead thread msg hmsg k sub₁ hsub₁ p hp hthread

theorem BusInv.consume (h : BusInv s) {i : Nat} {act : ConsumerAct}
    (hstep : step s (.consume i act) = some s') : BusInv s' := by
  obtain ⟨sub, sub', hsub, hact, rfl⟩ := step_consume hstep
  obtain ⟨hitems, hsince, -, hcapacity, hqueue⟩ := Sub.act_items hact
  have hvalid := h.subs_valid i sub hsub
  refine { h with bus_lt := ?_, subs_valid := ?_, call_ahead := ?_, numbered_ahead := ?_ }
  · intro k hk
    rw [List.length_set]
    exact h.bus_lt k hk
  · intro k sub₁ hk
    obtain ⟨rfl, rfl⟩ | ⟨-, hk⟩ := getElem?_set_cases hk
    · refine ⟨by rw [hsince]; exact hvalid.since_le, ?_, ?_, ?_⟩
      · rw [hcapacity]
        exact Nat.le_trans hqueue hvalid.queue_le
      · exact fun p hp => hvalid.items_lt p (hitems.subset hp)
      · exact hvalid.ordered.sublist hitems
    · exact h.subs_valid k sub₁ hk
  · intro call hcall k hk sub₁ hsub₁ p hp
    obtain ⟨rfl, rfl⟩ | ⟨-, hsub₁⟩ := getElem?_set_cases hsub₁
    · exact h.call_ahead call hcall k hk sub hsub p (hitems.subset hp)
    · exact h.call_ahead call hcall k hk sub₁ hsub₁ p hp
  · intro thread msg hmsg k sub₁ hsub₁ p hp
    obtain ⟨rfl, rfl⟩ | ⟨-, hsub₁⟩ := getElem?_set_cases hsub₁
    · exact h.numbered_ahead thread msg hmsg k sub hsub p (hitems.subset hp)
    · exact h.numbered_ahead thread msg hmsg k sub₁ hsub₁ p hp

theorem step_gc (hstep : step s .gc = some s') :
    s' = { s with
      inBus := s.inBus.filter fun i => (s.subs[i]?).any fun sub => sub.consumer.tokenAlive } := by
  rw [step] at hstep
  split at hstep
  · cases hstep
    rfl
  · cases hstep

theorem BusInv.step (h : BusInv s) {e : BusEvent} (hstep : MessageBus.step s e = some s') :
    BusInv s' := by
  cases e with
  | subscribe => exact h.subscribe hstep
  | publish => exact h.publish hstep
  | readLock => exact h.readLock hstep
  | offer => exact h.offer hstep
  | consume => exact h.consume hstep
  | gc =>
    rw [step_gc hstep]
    exact { h with
      bus_nodup := h.bus_nodup.filter _
      bus_lt := fun i hi => h.bus_lt i (List.mem_of_mem_filter hi) }

/-! ## The balance -/

/-- The balance depends on the messages of the log only. -/
theorem published_eq_of_map (hlog : s'.log.map (·.toPublished) = s.log.map (·.toPublished))
    {sub sub' : Sub} (hsince : sub'.since = sub.since) (hpattern : sub'.pattern = sub.pattern) :
    s'.published sub' = s.published sub := by
  have hcount : ∀ t : BusState, t.published sub =
      ((t.log.map (·.toPublished)).drop sub.since).countP
        fun p => topicMatches sub.pattern p.msg.topic := by
    intro t
    rw [← List.map_drop, List.countP_map]
    rfl
  have hsame : s'.published sub' = s'.published sub := by
    rw [BusState.published, BusState.published, hsince, hpattern]
  rw [hsame, hcount, hcount, hlog]

/-- A step that keeps a subscription in the bus, and what it counts in balance. -/
theorem Conserved.of_items {i : Nat} {sub : Sub} (hinv : BusInv s) (hsub : s.subs[i]? = some sub)
    (hbus : i ∈ s.inBus) (hbalance : s.published sub = sub.total + s.inFlight i) :
    Conserved s i sub :=
  ⟨hbus, hbalance, (hinv.subs_valid i sub hsub).ordered.sublist (List.sublist_append_left _ _)⟩

theorem AllConserved.subscribe (h : AllConserved s) (hinv : BusInv s) {pattern : String}
    {queue : Nat} (hstep : MessageBus.step s (.subscribe pattern queue) = some s') :
    AllConserved s' := by
  have hinv' := hinv.subscribe hstep
  rw [MessageBus.step] at hstep
  split at hstep
  case isFalse => cases hstep
  case isTrue hunlocked =>
    cases hstep
    intro i sub hi hpresent
    have hsub := hi
    rw [List.getElem?_append] at hi
    split at hi
    · have hold := h i sub hi hpresent
      exact .of_items hinv' hsub (List.mem_append_left _ hold.inBus) hold.balance
    · next hge =>
      obtain rfl := List.mem_singleton.mp (List.mem_of_getElem? hi)
      have hlen : i = s.subs.length := by
        have hlt := (List.getElem?_eq_some_iff.mp hi).1
        rw [List.length_singleton] at hlt
        omega
      refine .of_items hinv' hsub (by simp [hlen]) ?_
      have hflight := inFlight_eq_zero hunlocked i
      simp only [BusState.published, BusState.inFlight, List.drop_length, List.countP_nil] at hflight ⊢
      rw [hflight]
      rfl

theorem AllConserved.publish (h : AllConserved s) {thread : Nat} {source topic payload : String}
    (hstep : MessageBus.step s (.publish thread source topic payload) = some s') :
    AllConserved s' := by
  rw [MessageBus.step] at hstep
  split at hstep
  · cases hstep
    intro i sub hi hpresent
    obtain ⟨hbus, hbalance, hordered⟩ := h i sub hi hpresent
    exact ⟨hbus, hbalance, hordered⟩
  · cases hstep

/-- A new call counts for the subscriptions it is to come to. -/
theorem AllConserved.readLock (h : AllConserved s) (hinv : BusInv s) {thread : Nat}
    (hstep : MessageBus.step s (.readLock thread) = some s') : AllConserved s' := by
  have hinv' := hinv.readLock hstep
  rw [MessageBus.step] at hstep
  split at hstep
  case h_1 => cases hstep
  case h_2 msg hmsg =>
    cases hstep
    intro i sub hi hpresent
    obtain ⟨hbus, hbalance, -⟩ := h i sub hi hpresent
    refine .of_items hinv' hi hbus ?_
    have hsince := (hinv.subs_valid i sub hi).since_le
    simp only [BusState.published, BusState.inFlight] at hbalance ⊢
    rw [List.drop_append_of_le_length hsince, List.countP_append, List.countP_append, hbalance,
      List.countP_singleton, List.countP_singleton]
    have hpending : decide (i ∈ s.inBus.filter fun k =>
        (s.subs[k]?).any fun sub => topicMatches sub.pattern msg.topic) =
        topicMatches sub.pattern msg.topic := by
      rw [Bool.eq_iff_iff, decide_eq_true_eq, List.mem_filter]
      have hi' : s.subs[i]? = some sub := hi
      rw [hi']
      exact ⟨fun hmem => hmem.2, fun hmatch => ⟨hbus, hmatch⟩⟩
    rw [hpending, Nat.add_assoc]

theorem map_set_of_eq {α γ : Type} {f : α → γ} {l : List α} {k : Nat} {a b : α}
    (h : l[k]? = some a) (hf : f b = f a) : (l.set k b).map f = l.map f := by
  refine List.ext_getElem? fun j => ?_
  rw [List.getElem?_map, List.getElem?_map, List.getElem?_set]
  split
  · next heq =>
    subst heq
    rw [if_pos (List.getElem?_eq_some_iff.mp h).1, h]
    simp [hf]
  · rfl

/-- The call that comes to a subscription is no longer on its way to it. -/
theorem inFlight_offer (hinv : BusInv s) {call i : Nat} {pub : Publication}
    (hpub : s.log[call]? = some pub) (hmem : i ∈ pub.pending) (k : Nat) :
    s.inFlight k = (s.log.set call { pub with pending := pub.pending.erase i }).countP
      (fun c => decide (k ∈ c.pending)) + if k = i then 1 else 0 := by
  obtain ⟨hlt, hget⟩ := List.getElem?_eq_some_iff.mp hpub
  have hnodup := hinv.pending_nodup pub (List.mem_of_getElem? hpub)
  rw [BusState.inFlight, List.countP_set hlt, hget]
  simp only [decide_eq_true_eq]
  obtain rfl | hne := eq_or_ne k i
  · have hpos : 0 < s.log.countP fun c => decide (k ∈ c.pending) :=
      List.countP_pos_iff.mpr ⟨pub, List.mem_of_getElem? hpub, by simpa using hmem⟩
    rw [if_pos hmem, if_neg hnodup.not_mem_erase, if_pos rfl]
    omega
  · have hsame : k ∈ pub.pending.erase i ↔ k ∈ pub.pending := List.mem_erase_of_ne hne
    simp only [hsame, hne, if_false]
    split
    · next hk =>
      have hpos : 0 < s.log.countP fun c => decide (k ∈ c.pending) :=
        List.countP_pos_iff.mpr ⟨pub, List.mem_of_getElem? hpub, by simpa using hk⟩
      omega
    · omega

theorem AllConserved.offer (h : AllConserved s) (hinv : BusInv s) {call i : Nat}
    (hstep : MessageBus.step s (.offer call i) = some s') : AllConserved s' := by
  have hinv' := hinv.offer hstep
  obtain ⟨pub, sub, hpub, hsub, hmem, rfl⟩ := step_offer hstep
  have hlog : (s.log.set call { pub with pending := pub.pending.erase i }).map (·.toPublished) =
      s.log.map (·.toPublished) := map_set_of_eq hpub rfl
  have hflight := inFlight_offer hinv hpub hmem
  intro k sub₁ hk hpresent
  obtain ⟨rfl, rfl⟩ | ⟨hne, hk₀⟩ := getElem?_set_cases hk
  · rw [Sub.offer_consumer] at hpresent
    obtain ⟨hbus, hbalance, -⟩ := h k sub hsub hpresent
    refine .of_items hinv' hk hbus ?_
    rw [published_eq_of_map hlog (sub.offer_since _) (sub.offer_pattern _), hbalance, hflight k,
      if_pos rfl, Sub.offer_total hpresent]
    simp only [BusState.inFlight]
    omega
  · obtain ⟨hbus, hbalance, -⟩ := h k sub₁ hk₀ hpresent
    refine .of_items hinv' hk hbus ?_
    rw [published_eq_of_map hlog rfl rfl, hbalance, hflight k, if_neg hne]
    rfl

theorem AllConserved.consume (h : AllConserved s) (hinv : BusInv s) {i : Nat} {act : ConsumerAct}
    (hstep : MessageBus.step s (.consume i act) = some s') : AllConserved s' := by
  have hinv' := hinv.consume hstep
  obtain ⟨sub, sub', hsub, hact, rfl⟩ := step_consume hstep
  obtain ⟨-, hsince, hpattern, -⟩ := Sub.act_items hact
  intro k sub₁ hk hpresent
  obtain ⟨rfl, rfl⟩ | ⟨-, hk₀⟩ := getElem?_set_cases hk
  · obtain ⟨hpresent₀, htotal⟩ := Sub.act_total hact hpresent
    obtain ⟨hbus, hbalance, -⟩ := h k sub hsub hpresent₀
    refine .of_items hinv' hk hbus ?_
    have hpublished : s.published sub₁ = s.published sub :=
      published_eq_of_map rfl hsince hpattern
    rw [hbalance, ← htotal] at hpublished
    exact hpublished
  · obtain ⟨hbus, hbalance, hordered⟩ := h k sub₁ hk₀ hpresent
    exact ⟨hbus, hbalance, hordered⟩

/-- `gc` keeps the subscriptions whose token is alive. -/
theorem allConserved_gc_iff (h : AllConserved s) (hstep : MessageBus.step s .gc = some s') :
    AllConserved s' ↔ ∀ i ∈ s.inBus, ∀ sub, s.subs[i]? = some sub → sub.consumer ≠ .iterator := by
  rw [step_gc hstep]
  constructor
  · intro h' i hi sub hsub hiter
    have hkept := (h' i sub hsub (by rw [hiter]; rfl)).inBus
    simp only [List.mem_filter, hsub, Option.any_some, hiter] at hkept
    exact absurd hkept.2 (by decide)
  · intro hno i sub hsub hpresent
    obtain ⟨hbus, hbalance, hordered⟩ := h i sub hsub hpresent
    refine ⟨List.mem_filter.mpr ⟨hbus, ?_⟩, hbalance, hordered⟩
    have hsub' : s.subs[i]? = some sub := hsub
    rw [hsub']
    have hiter := hno i hbus sub hsub
    cases hconsumer : sub.consumer with
    | receiver => simp [hconsumer, Consumer.tokenAlive]
    | iterator => exact absurd hconsumer hiter
    | closing => simp [hconsumer, Consumer.tokenAlive]
    | gone =>
      rw [hconsumer] at hpresent
      cases hpresent

end

/-! ## Runs -/

/-- No call of `gc` while the bus has a subscription that is read by an iterator. -/
def KeepsIterators (s : BusState) : BusEvent → Prop
  | .gc => ∀ i ∈ s.inBus, ∀ sub, s.subs[i]? = some sub → sub.consumer ≠ .iterator
  | _ => True

theorem allConserved_step_iff {s s' : BusState} {e : BusEvent} (hinv : BusInv s)
    (h : AllConserved s) (hstep : step s e = some s') : AllConserved s' ↔ KeepsIterators s e := by
  cases e with
  | subscribe => exact iff_of_true (h.subscribe hinv hstep) trivial
  | publish => exact iff_of_true (h.publish hstep) trivial
  | readLock => exact iff_of_true (h.readLock hinv hstep) trivial
  | offer => exact iff_of_true (h.offer hinv hstep) trivial
  | consume => exact iff_of_true (h.consume hinv hstep) trivial
  | gc => exact allConserved_gc_iff h hstep

/-- The messages are conserved in every state of a run exactly when none of its `gc` steps meets
    an iterator. -/
theorem conserved_iff {events : List BusEvent} {s : BusState}
    (hrun : Run.runFrom step .new events = some s) :
    Run.Always step AllConserved .new events ↔ Run.StepsMeet step KeepsIterators .new events := by
  have hnew : AllConserved .new := by
    intro i sub hi
    simp [BusState.new] at hi
  exact Run.always_iff_stepsMeet (I := BusInv) (fun _ _ _ hinv ht => hinv.step ht)
    (fun _ _ _ hinv hall ht => allConserved_step_iff hinv hall ht) BusInv.new hnew hrun

/-- A message is published, received by iterating, and the consumer dropped before `gc`. -/
def iteratedRun : List BusEvent :=
  [.subscribe "*" 1, .publish 0 "core" "app.started" "", .readLock 0, .offer 0 0,
    .consume 0 .intoIter, .consume 0 .receive, .consume 0 .drop, .gc]

theorem iteratedRun_conserved :
    ∃ s, Run.runFrom step .new iteratedRun = some s ∧
      (Run.Always step AllConserved .new iteratedRun ↔
        Run.StepsMeet step KeepsIterators .new iteratedRun) :=
  ⟨_, rfl, @conserved_iff iteratedRun _ rfl⟩

/-- `gc` while an iterator is read: the next message does not come. -/
theorem iterator_collected :
    ¬∀ events s, Run.runFrom step .new events = some s → Run.Always step AllConserved .new events := by
  intro h
  have hall := h [.subscribe "*" 1, .consume 0 .intoIter, .gc, .publish 0 "core" "app.started" "",
    .readLock 0] _ rfl _ _ List.prefix_rfl rfl
  have hbalance := (hall 0 _ rfl rfl).balance
  exact absurd hbalance (by decide +kernel)

end ByteHive.MessageBus
