import Mathlib.Data.Option.Basic

/-! # A key with a deadline

One key of Redis and the commands a lock is made of. Each takes effect at one
moment; a key is gone once that moment is past its deadline.
-/

namespace ExpiringKey

structure Entry (α : Type) where
  value : α
  expireAt : Nat
  deriving DecidableEq

variable {α : Type} (now : Nat) (key : Option (Entry α))

/-- The entry that commands still see. -/
def live : Option (Entry α) := key.filter fun e => now ≤ e.expireAt

/-- `GET` -/
def get : Option α := (live now key).map (·.value)

/-- `SET key value PX ttlMs NX`, which answers `OK` if it wrote. -/
def setNx (value : α) (ttlMs : Nat) : Option (Entry α) × Bool :=
  match live now key with
  | some e => (some e, false)
  | none => (some ⟨value, now + ttlMs⟩, true)

/-- `PEXPIRE key ttlMs` -/
def pexpire (ttlMs : Nat) : Option (Entry α) := (live now key).map fun e => { e with expireAt := now + ttlMs }

/-- Compare and delete, as one script. -/
def deleteIf (own : α → Bool) : Option (Entry α) := (live now key).filter fun e => !own e.value

variable {now key}

theorem live_eq_some {e : Entry α} : live now key = some e ↔ key = some e ∧ now ≤ e.expireAt := by
  simp [live, Option.filter_eq_some_iff]

@[simp] theorem live_live : live now (live now key) = live now key := by
  simp [live, Option.filter_filter]

theorem get_eq_some {value : α} : get now key = some value ↔ ∃ e, live now key = some e ∧ e.value = value := by
  simp [get]

/-- A lock is taken only where there is none. -/
theorem setNx_ok {value : α} {ttlMs : Nat} : (setNx now key value ttlMs).2 = true ↔ live now key = none := by
  unfold setNx
  cases live now key <;> simp

theorem setNx_held {e : Entry α} (held : live now key = some e) (value : α) (ttlMs : Nat) :
    setNx now key value ttlMs = (some e, false) := by
  simp [setNx, held]

theorem setNx_free (free : live now key = none) (value : α) (ttlMs : Nat) :
    setNx now key value ttlMs = (some ⟨value, now + ttlMs⟩, true) := by
  simp [setNx, free]

/-- A deadline that was just set is not over. -/
theorem live_fresh (value : α) (ttlMs : Nat) : live now (some ⟨value, now + ttlMs⟩) = some ⟨value, now + ttlMs⟩ :=
  live_eq_some.mpr ⟨rfl, Nat.le_add_right _ _⟩

/-- Only the deadline of a key changes. -/
theorem get_pexpire (ttlMs : Nat) : get now (pexpire now key ttlMs) = get now key := by
  unfold get pexpire
  cases live now key with
  | none => rfl
  | some e => rw [Option.map_some, live_fresh, Option.map_some, Option.map_some]

/-- Setting a key that exists changes nothing about it. -/
theorem live_setNx_held {e : Entry α} (held : live now key = some e) (value : α) (ttlMs : Nat) :
    live now (setNx now key value ttlMs).1 = some e := by
  rw [setNx_held held, ← held, live_live]

theorem get_setNx_ok {value : α} {ttlMs : Nat} (ok : (setNx now key value ttlMs).2 = true) :
    get now (setNx now key value ttlMs).1 = some value := by
  rw [setNx_free (setNx_ok.mp ok), get, live_fresh]
  rfl

theorem deleteIf_keeps {e : Entry α} (held : live now key = some e) {own : α → Bool} (other : own e.value = false) :
    deleteIf now key own = some e := by
  simp [deleteIf, held, other]

end ExpiringKey
