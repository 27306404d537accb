import BetterBullBoard.Lib.JsMap

/-! # Timeouts

The timers of an event loop. An armed timer fires once, at any time from its due
time on, with what it was armed with.
-/

structure Timeout (τ : Type) where
  callback : τ
  due : Nat
  deriving Repr, DecidableEq

structure Timeouts (τ : Type) where
  elapsed : Nat
  next : Nat
  armed : List (Nat × Timeout τ)
  fresh : ∀ id t, JsMap.get id armed = some t → id < next

namespace Timeouts

variable {τ : Type} {l l' : Timeouts τ} {id id' : Nat} {callback callback' : τ}

theorem fresh_set {armed : List (Nat × Timeout τ)} {next : Nat} {t : Timeout τ}
    (fresh : ∀ id t, JsMap.get id armed = some t → id < next) (id : Nat) (t' : Timeout τ)
    (found : JsMap.get id (JsMap.set next t armed) = some t') : id < next + 1 := by
  rw [JsMap.get_set] at found
  split at found
  · omega
  · exact Nat.lt_succ_of_lt (fresh id t' found)

theorem fresh_delete {armed : List (Nat × Timeout τ)} {next gone : Nat}
    (fresh : ∀ id t, JsMap.get id armed = some t → id < next) (id : Nat) (t : Timeout τ)
    (found : JsMap.get id (JsMap.delete gone armed) = some t) : id < next := by
  rw [JsMap.get_delete] at found
  split at found
  · cases found
  · exact fresh id t found

def start : Timeouts τ := ⟨0, 0, [], nofun⟩

/-- A delay below 1 or above the largest 32-bit number counts as 1. -/
def delay (wait : Int) : Nat := if 1 ≤ wait ∧ wait ≤ 2147483647 then wait.toNat else 1

theorem cast_delay {wait : Int} (positive : 1 ≤ wait) (short : wait ≤ 2147483647) : (delay wait : Int) = wait := by
  rw [delay, if_pos ⟨positive, short⟩]
  omega

/-- With the handle of the timer. -/
def setTimeout (callback : τ) (wait : Int) (l : Timeouts τ) : Nat × Timeouts τ where
  fst := l.next
  snd := { l with
    next := l.next + 1
    armed := JsMap.set l.next ⟨callback, l.elapsed + delay wait⟩ l.armed
    fresh := fresh_set l.fresh }

def pass (ms : Nat) (l : Timeouts τ) : Timeouts τ := { l with elapsed := l.elapsed + ms }

def disarm (id : Nat) (l : Timeouts τ) : Timeouts τ :=
  { l with armed := JsMap.delete id l.armed, fresh := fresh_delete l.fresh }

def fire (id : Nat) (l : Timeouts τ) : Option (τ × Timeouts τ) :=
  match JsMap.get id l.armed with
  | none => none
  | some t => if t.due ≤ l.elapsed then some (t.callback, l.disarm id) else none

def Armed (l : Timeouts τ) (id : Nat) (callback : τ) : Prop := ∃ due, JsMap.get id l.armed = some ⟨callback, due⟩

theorem Armed.unique (armed : l.Armed id callback) (armed' : l.Armed id callback') : callback = callback' := by
  obtain ⟨due, found⟩ := armed
  obtain ⟨due', found'⟩ := armed'
  exact congrArg Timeout.callback (Option.some.inj (found.symm.trans found'))

theorem armed_setTimeout {wait : Int} : (l.setTimeout callback wait).2.Armed id callback' ↔
    (id = l.next ∧ callback' = callback) ∨ l.Armed id callback' := by
  simp only [Armed, setTimeout, JsMap.get_set]
  constructor
  · rintro ⟨due, found⟩
    split at found
    · simp_all
    · exact .inr ⟨due, found⟩
  · rintro (⟨rfl, rfl⟩ | ⟨due, found⟩)
    · exact ⟨_, if_pos rfl⟩
    · have := l.fresh id _ found
      exact ⟨due, by rw [if_neg (by omega)]; exact found⟩

theorem fire_eq_some (fired : l.fire id = some (callback, l')) :
    ∃ due, JsMap.get id l.armed = some ⟨callback, due⟩ ∧ due ≤ l.elapsed ∧ l' = l.disarm id := by
  rw [fire] at fired
  split at fired
  · cases fired
  · rename_i t found
    split at fired
    · rename_i due
      obtain ⟨rfl, rfl⟩ := Prod.mk.inj (Option.some.inj fired)
      exact ⟨t.due, found, due, rfl⟩
    · cases fired

/-- Only an armed timer fires, and the others stay armed. -/
theorem armed_of_fire (fired : l.fire id = some (callback, l')) :
    l.Armed id callback ∧ ∀ id' callback', l'.Armed id' callback' ↔ id' ≠ id ∧ l.Armed id' callback' := by
  obtain ⟨due, found, -, rfl⟩ := fire_eq_some fired
  refine ⟨⟨due, found⟩, fun id' callback' => ?_⟩
  simp only [Armed, disarm, JsMap.get_delete]
  by_cases same : id = id'
  · simp [same]
  · simp [same, Ne.symm same]

end Timeouts
