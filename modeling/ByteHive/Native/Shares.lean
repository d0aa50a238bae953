import ByteHive.Native.Trash

/-!
# Settings with an expiry (`filebrowser/src/app.rs`, `handlers.rs`, `share.rs`)

The number of days after which the trash is purged, as the file browser takes it from the
configuration, and the time at which a share link expires. Of a share only its expiry is here.
-/

namespace ByteHive

/-- `filesync_trash_expiry_days` of `FileBrowserApp`: a TOML integer, converted by `as u64`. -/
def filesyncTrashExpiryDays (setting : Option Int64) : Option Nat :=
  setting.map fun v => v.toUInt64.toNat

structure Share where
  expiresMs : Option Nat
deriving DecidableEq, Repr

/-- The share that `handle_create_share` and `handle_batch_share` make: it expires at
    `now_ms() + h * 3600 * 1000`. -/
def createShare (checks : Bool) (expiresHours : Option Nat) (nowMs : Nat) : Option Share :=
  match expiresHours with
  | none => some ⟨none⟩
  | some h => do
    let secs ← mulU64 checks h 3600
    let ms ← mulU64 checks secs 1000
    let expiresMs ← addU64 checks nowMs ms
    return ⟨some expiresMs⟩

/-- `is_expired_at` -/
def Share.isExpiredAt (s : Share) (now : Nat) : Bool :=
  (s.expiresMs.map fun e => decide (e < now)).getD false

end ByteHive
