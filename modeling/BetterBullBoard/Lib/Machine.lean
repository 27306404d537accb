import Mathlib.Data.List.Chain

/-! # Runs of step machines

A machine is a partial step function: every source of nondeterminism (which
party moves, what the environment answers) is part of the action. A run keeps
each transition it takes, so a property of runs can speak about the state in
which a step was taken.
-/

namespace Machine

variable {σ α : Type}

/-- One step of a run: the state it leaves, the action, the state it reaches. -/
structure Transition (σ α : Type) where
  pre : σ
  act : α
  post : σ

/-- A run from one state to another through exactly these transitions. -/
inductive Run (step : σ → α → Option σ) : σ → List (Transition σ α) → σ → Prop where
  | done (s) : Run step s [] s
  | next {s a s' ts t} : step s a = some s' → Run step s' ts t →
      Run step s (⟨s, a, s'⟩ :: ts) t

/-- The run performing `acts` in order, when every action is enabled in turn. -/
def perform (step : σ → α → Option σ) : σ → List α → Option (List (Transition σ α) × σ)
  | s, [] => some ([], s)
  | s, a :: acts =>
      match step s a with
      | none => none
      | some s' => (perform step s' acts).map fun r => (⟨s, a, s'⟩ :: r.1, r.2)

/-- Every state a run passes through, the first one included. -/
def states (s : σ) (ts : List (Transition σ α)) : List σ :=
  s :: ts.map (·.post)

variable {step : σ → α → Option σ}

theorem perform_run {s acts ts t} (h : perform step s acts = some (ts, t)) : Run step s ts t := by
  induction acts generalizing s ts with
  | nil =>
      obtain ⟨rfl, rfl⟩ := Prod.mk.inj (Option.some.inj h)
      exact .done s
  | cons a acts ih =>
      simp only [perform] at h
      cases enabled : step s a with
      | none => simp [enabled] at h
      | some s' =>
          simp only [enabled, Option.map_eq_some_iff] at h
          obtain ⟨⟨rest, last⟩, hr, he⟩ := h
          obtain ⟨rfl, rfl⟩ := Prod.mk.inj he
          exact .next enabled (ih hr)

/-- What is read off a performed run holds of a run. -/
theorem run_of_perform {s acts} {p : List (Transition σ α) × σ → Bool} (h : (perform step s acts).any p = true) :
    ∃ ts t, Run step s ts t ∧ p (ts, t) = true := by
  cases performed : perform step s acts with
  | none => simp [performed] at h
  | some r =>
      rw [performed] at h
      exact ⟨r.1, r.2, perform_run performed, h⟩

theorem perform_acts {s acts ts t} (h : perform step s acts = some (ts, t)) : ts.map (·.act) = acts := by
  induction acts generalizing s ts with
  | nil =>
      obtain ⟨rfl, -⟩ := Prod.mk.inj (Option.some.inj h)
      rfl
  | cons a acts ih =>
      simp only [perform] at h
      cases enabled : step s a with
      | none => simp [enabled] at h
      | some s' =>
          simp only [enabled, Option.map_eq_some_iff] at h
          obtain ⟨⟨rest, last⟩, hr, he⟩ := h
          obtain ⟨rfl, rfl⟩ := Prod.mk.inj he
          rw [List.map_cons, ih hr]

namespace Run

theorem append {s ts t us u} (first : Run step s ts t) (second : Run step t us u) :
    Run step s (ts ++ us) u := by
  induction first with
  | done => exact second
  | next enabled _ ih => exact .next enabled (ih second)

theorem split {s xs ys t} (run : Run step s (xs ++ ys) t) : ∃ u, Run step s xs u ∧ Run step u ys t := by
  induction xs generalizing s with
  | nil => exact ⟨s, .done s, run⟩
  | cons x xs ih =>
      cases run with
      | next enabled rest =>
          obtain ⟨u, first, second⟩ := ih rest
          exact ⟨u, .next enabled first, second⟩

/-- An invariant kept by every step holds where a run ends. -/
theorem invariant {I : σ → Prop} (keep : ∀ s a s', I s → step s a = some s' → I s')
    {s ts t} (run : Run step s ts t) (start : I s) : I t := by
  induction run with
  | done => exact start
  | next enabled _ ih => exact ih (keep _ _ _ start enabled)

/-- Every transition of a run leaves a state satisfying the invariant. -/
theorem invariant_pre {I : σ → Prop} (keep : ∀ s a s', I s → step s a = some s' → I s')
    {s ts t} (run : Run step s ts t) (start : I s) :
    ∀ x ∈ ts, I x.pre ∧ step x.pre x.act = some x.post := by
  induction run with
  | done => simp
  | next enabled _ ih =>
      intro x hx
      rcases List.mem_cons.mp hx with rfl | hx
      · exact ⟨start, enabled⟩
      · exact ih (keep _ _ _ start enabled) x hx

/-- An invariant kept by every step that meets a guard holds in every state of a
    run whose steps all meet it. -/
theorem guarded {I : σ → Prop} {G : σ → α → Prop}
    (keep : ∀ s a s', I s → G s a → step s a = some s' → I s')
    {s ts t} (run : Run step s ts t) (start : I s) (guards : ∀ x ∈ ts, G x.pre x.act) :
    ∀ x ∈ states s ts, I x := by
  induction run with
  | done =>
      intro x hx
      obtain rfl := List.mem_singleton.mp hx
      exact start
  | next enabled _ ih =>
      simp only [List.forall_mem_cons] at guards
      have next := keep _ _ _ start guards.1 enabled
      simp only [states, List.map_cons, List.forall_mem_cons] at ih ⊢
      exact ⟨start, ih next guards.2⟩

/-- Every step of such a run is taken in a state with the invariant. -/
theorem guarded_pre {I : σ → Prop} {G : σ → α → Prop}
    (keep : ∀ s a s', I s → G s a → step s a = some s' → I s')
    {s ts t} (run : Run step s ts t) (start : I s) (guards : ∀ x ∈ ts, G x.pre x.act) :
    ∀ x ∈ ts, I x.pre ∧ step x.pre x.act = some x.post := by
  induction run with
  | done => simp
  | next enabled _ ih =>
      simp only [List.forall_mem_cons] at guards ⊢
      exact ⟨⟨start, enabled⟩, ih (keep _ _ _ start guards.1 enabled) guards.2⟩

theorem last_mem {s ts t} (run : Run step s ts t) : t ∈ states s ts := by
  induction run with
  | done => exact List.mem_singleton_self _
  | next enabled _ ih => exact List.mem_cons_of_mem _ ih

theorem enabled {s ts t} (run : Run step s ts t) : ∀ x ∈ ts, step x.pre x.act = some x.post :=
  fun x hx => (run.invariant_pre (I := fun _ => True) (fun _ _ _ _ _ => trivial) trivial x hx).2

/-- After one of its transitions the run goes on to its end. -/
theorem after {s ts t x} (run : Run step s ts t) (hx : x ∈ ts) : ∃ us, Run step x.post us t := by
  obtain ⟨before, later, rfl⟩ := List.append_of_mem hx
  obtain ⟨u, -, rest⟩ := run.split
  cases rest with
  | next _ rest => exact ⟨later, rest⟩

/-- A transitive relation between earlier and later states of a run is decided
    step by step. -/
theorem pairwise_iff {R : σ → σ → Prop} (trans : ∀ a b c, R a b → R b c → R a c)
    {s ts t} (run : Run step s ts t) :
    (states s ts).Pairwise R ↔ ∀ x ∈ ts, R x.pre x.post := by
  have : IsTrans σ R := ⟨trans⟩
  rw [← List.isChain_iff_pairwise]
  induction run with
  | done => simp [states]
  | next enabled _ ih =>
      simp only [states, List.map_cons, List.isChain_cons_cons, List.forall_mem_cons] at ih ⊢
      exact and_congr_right fun _ => ih

end Run

/-- A state some run from `init` ends in. -/
def Reachable (step : σ → α → Option σ) (init s : σ) : Prop :=
  ∃ ts, Run step init ts s

theorem Reachable.invariant {I : σ → Prop} {init s : σ} (reach : Reachable step init s)
    (keep : ∀ s a s', I s → step s a = some s' → I s') (start : I init) : I s := by
  obtain ⟨ts, run⟩ := reach
  exact run.invariant keep start

end Machine
