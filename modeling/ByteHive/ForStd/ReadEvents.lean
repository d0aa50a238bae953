/-!
# Reading from a source that may be slow

A source hands over what it has: each read gets a piece of the data, or a timeout, or an
error, and an empty read where the source is closed. `fill` is the loop that reads into a
buffer until it is full. What it has read and what is still to come are together what was
there before: `fill_spec`.
-/

universe u

/-- What the source does at the next read. -/
inductive ReadEvent (β : Type u) where
  | data (bs : List β)
  | timeout
  | fail
deriving DecidableEq, Repr

/-- How a loop of reads ends. -/
inductive FillEnd where
  | full
  | timeout
  /-- A read returned nothing. -/
  | closed
  | failed
deriving DecidableEq, Repr

namespace ReadEvent

variable {β : Type u}

/-- All data that is to come. -/
def payload : List (ReadEvent β) → List β
  | [] => []
  | .data bs :: evs => bs ++ payload evs
  | .timeout :: evs => payload evs
  | .fail :: evs => payload evs

/-- The number of timeouts to come. -/
def timeouts : List (ReadEvent β) → Nat
  | [] => 0
  | .data _ :: evs => timeouts evs
  | .timeout :: evs => timeouts evs + 1
  | .fail :: evs => timeouts evs

/-- Every read gets data or a timeout. -/
def Steady (evs : List (ReadEvent β)) : Prop :=
  ∀ ev ∈ evs, ev = .timeout ∨ ∃ bs, bs ≠ [] ∧ ev = .data bs

theorem Steady.tail {ev : ReadEvent β} {evs : List (ReadEvent β)} (h : Steady (ev :: evs)) :
    Steady evs := fun ev' hev' => h ev' (List.mem_cons_of_mem _ hev')

/-- `bs` written into `buf` from position `pos` on. -/
def overwrite (buf : List β) (pos : Nat) (bs : List β) : List β :=
  buf.take pos ++ bs ++ buf.drop (pos + bs.length)

theorem length_overwrite {buf bs : List β} {pos : Nat} (h : pos + bs.length ≤ buf.length) :
    (overwrite buf pos bs).length = buf.length := by
  rw [overwrite, List.length_append, List.length_append, List.length_take, List.length_drop]
  omega

theorem take_overwrite {buf bs : List β} {pos : Nat} (h : pos + bs.length ≤ buf.length) :
    (overwrite buf pos bs).take (pos + bs.length) = buf.take pos ++ bs := by
  have hlen : (buf.take pos ++ bs).length = pos + bs.length := by
    rw [List.length_append, List.length_take]
    omega
  rw [overwrite, ← hlen, List.take_left]

/-- Reads into `buf` from position `pos` until position `len` is reached. Returns how the loop
    ends, the buffer, the position and the reads to come; of a piece that does not fit the
    rest is left for the next read. -/
def fill (len : Nat) (buf : List β) (pos : Nat) :
    List (ReadEvent β) → FillEnd × List β × Nat × List (ReadEvent β)
  | [] => if len ≤ pos then (.full, buf, pos, []) else (.closed, buf, pos, [])
  | ev :: evs =>
    if len ≤ pos then (.full, buf, pos, ev :: evs)
    else
      match ev with
      | .timeout => (.timeout, buf, pos, evs)
      | .fail => (.failed, buf, pos, evs)
      | .data bs =>
        if bs = [] ∨ buf.length ≤ pos then (.closed, buf, pos, evs)
        else if bs.length ≤ buf.length - pos then
          fill len (overwrite buf pos bs) (pos + bs.length) evs
        else
          (.full, overwrite buf pos (bs.take (buf.length - pos)), buf.length,
            .data (bs.drop (buf.length - pos)) :: evs)

@[simp] theorem fill_of_le {len pos : Nat} (h : len ≤ pos) (buf : List β)
    (evs : List (ReadEvent β)) : fill len buf pos evs = (.full, buf, pos, evs) := by
  cases evs with
  | nil => exact if_pos h
  | cons ev evs => exact if_pos h

theorem fill_nil {len pos : Nat} (h : ¬ len ≤ pos) (buf : List β) :
    fill len buf pos [] = (.closed, buf, pos, []) := if_neg h

theorem fill_timeout {len pos : Nat} (h : ¬ len ≤ pos) (buf : List β)
    (evs : List (ReadEvent β)) :
    fill len buf pos (.timeout :: evs) = (.timeout, buf, pos, evs) := if_neg h

theorem fill_data {len pos : Nat} {buf bs : List β} (h : ¬ len ≤ pos)
    (hroom : ¬ (bs = [] ∨ buf.length ≤ pos)) (hfits : bs.length ≤ buf.length - pos)
    (evs : List (ReadEvent β)) :
    fill len buf pos (.data bs :: evs)
      = fill len (overwrite buf pos bs) (pos + bs.length) evs := by
  rw [fill.eq_def]
  simp only [if_neg h, if_neg hroom, if_pos hfits]

theorem fill_long {len pos : Nat} {buf bs : List β} (h : ¬ len ≤ pos)
    (hroom : ¬ (bs = [] ∨ buf.length ≤ pos)) (hfits : ¬ bs.length ≤ buf.length - pos)
    (evs : List (ReadEvent β)) :
    fill len buf pos (.data bs :: evs)
      = (.full, overwrite buf pos (bs.take (buf.length - pos)), buf.length,
          .data (bs.drop (buf.length - pos)) :: evs) := by
  rw [fill.eq_def]
  simp only [if_neg h, if_neg hroom, if_neg hfits]

/-- Where a loop of reads stands. -/
structure Filled (len : Nat) (buf : List β) (pos : Nat) (evs : List (ReadEvent β)) (r : FillEnd)
    (buf' : List β) (pos' : Nat) (evs' : List (ReadEvent β)) : Prop where
  length : buf'.length = len
  pos_le : pos' ≤ len
  steady : Steady evs'
  /-- No byte is lost and none is read twice. -/
  bytes : buf'.take pos' ++ payload evs' = buf.take pos ++ payload evs
  full : r = .full → pos' = len ∧ timeouts evs' = timeouts evs
  timeout : r = .timeout → timeouts evs = timeouts evs' + 1
  closed : r = .closed → pos' < len ∧ evs' = [] ∧ timeouts evs = 0
  not_failed : r ≠ .failed

section Spec

variable {len pos : Nat} {buf bs : List β} {evs : List (ReadEvent β)}

theorem Filled.of_le (hlen : buf.length = len) (hpos : pos ≤ len) (hevs : Steady evs)
    (hle : len ≤ pos) : Filled len buf pos evs .full buf pos evs where
  length := hlen
  pos_le := hpos
  steady := hevs
  bytes := rfl
  full _ := ⟨by omega, rfl⟩
  timeout h := by cases h
  closed h := by cases h
  not_failed h := by cases h

theorem Filled.of_closed (hlen : buf.length = len) (hlt : pos < len) (hevs : Steady evs)
    (hend : evs = []) : Filled len buf pos evs .closed buf pos evs where
  length := hlen
  pos_le := Nat.le_of_lt hlt
  steady := hevs
  bytes := rfl
  full h := by cases h
  timeout h := by cases h
  closed _ := by subst hend; exact ⟨hlt, rfl, rfl⟩
  not_failed h := by cases h

theorem Filled.of_timeout (hlen : buf.length = len) (hpos : pos ≤ len) (hevs : Steady evs) :
    Filled len buf pos (.timeout :: evs) .timeout buf pos evs where
  length := hlen
  pos_le := hpos
  steady := hevs
  bytes := rfl
  full h := by cases h
  timeout _ := rfl
  closed h := by cases h
  not_failed h := by cases h

/-- A piece that fits is behind the loop that goes on after it. -/
theorem Filled.of_data {r : FillEnd} {buf' : List β} {pos' : Nat} {evs' : List (ReadEvent β)}
    (hwithin : pos + bs.length ≤ buf.length)
    (h : Filled len (overwrite buf pos bs) (pos + bs.length) evs r buf' pos' evs') :
    Filled len buf pos (.data bs :: evs) r buf' pos' evs' where
  length := h.length
  pos_le := h.pos_le
  steady := h.steady
  bytes := by rw [h.bytes, take_overwrite hwithin, payload, List.append_assoc]
  full := h.full
  timeout := h.timeout
  closed := h.closed
  not_failed := h.not_failed

/-- Of a piece that is longer than the buffer the rest is read later. -/
theorem Filled.of_long (hlen : buf.length = len) (hpos : pos ≤ len) (hevs : Steady evs)
    (hlong : buf.length - pos < bs.length) :
    Filled len buf pos (.data bs :: evs) .full (overwrite buf pos (bs.take (buf.length - pos)))
      buf.length (.data (bs.drop (buf.length - pos)) :: evs) := by
  have htake : (bs.take (buf.length - pos)).length = buf.length - pos := by
    rw [List.length_take]
    omega
  have hend : pos + (bs.take (buf.length - pos)).length = buf.length := by omega
  have hlen' := length_overwrite (Nat.le_of_eq hend)
  have hall : (overwrite buf pos (bs.take (buf.length - pos))).take buf.length
      = buf.take pos ++ bs.take (buf.length - pos) := by
    have h := take_overwrite (Nat.le_of_eq hend)
    rw [hend] at h
    exact h
  constructor
  case length => exact hlen'.trans hlen
  case pos_le => omega
  case steady =>
    intro ev hev
    cases hev with
    | head => exact .inr ⟨_, fun hnil => by
        have h := congrArg List.length hnil
        rw [List.length_drop, List.length_nil] at h
        omega, rfl⟩
    | tail _ hev => exact hevs ev hev
  case bytes =>
    rw [hall, payload, payload, List.append_assoc, ← List.append_assoc (bs.take _),
      List.take_append_drop]
  case full => exact fun _ => ⟨hlen, rfl⟩
  case timeout => exact fun h => by cases h
  case closed => exact fun h => by cases h
  case not_failed => exact fun h => by cases h

/-- A loop of reads from a source that gets data or timeouts. -/
theorem fill_spec (hlen : buf.length = len) (hpos : pos ≤ len) (hevs : Steady evs) :
    ∃ r buf' pos' evs', fill len buf pos evs = (r, buf', pos', evs') ∧
      Filled len buf pos evs r buf' pos' evs' := by
  induction evs generalizing buf pos with
  | nil =>
    by_cases hle : len ≤ pos
    · exact ⟨_, _, _, _, fill_of_le hle buf [], .of_le hlen hpos hevs hle⟩
    · exact ⟨_, _, _, _, fill_nil hle buf, .of_closed hlen (by omega) hevs rfl⟩
  | cons ev evs ih =>
    by_cases hle : len ≤ pos
    · exact ⟨_, _, _, _, fill_of_le hle buf _, .of_le hlen hpos hevs hle⟩
    · cases hevs ev (List.mem_cons_self ..) with
      | inl htimeout =>
        subst htimeout
        exact ⟨_, _, _, _, fill_timeout hle buf evs, .of_timeout hlen hpos hevs.tail⟩
      | inr hdata =>
        obtain ⟨bs, hbs, rfl⟩ := hdata
        have hroom : ¬ (bs = [] ∨ buf.length ≤ pos) := by
          intro h
          cases h with
          | inl h => exact hbs h
          | inr h => omega
        by_cases hfits : bs.length ≤ buf.length - pos
        · have hwithin : pos + bs.length ≤ buf.length := by omega
          have hpos' : pos + bs.length ≤ len := by omega
          obtain ⟨r, buf', pos', evs', hfill, hf⟩ :=
            ih ((length_overwrite hwithin).trans hlen) hpos' hevs.tail
          exact ⟨r, buf', pos', evs', (fill_data hle hroom hfits evs).trans hfill,
            .of_data hwithin hf⟩
        · exact ⟨_, _, _, _, fill_long hle hroom hfits evs,
            .of_long hlen hpos hevs.tail (by omega)⟩

end Spec

end ReadEvent
