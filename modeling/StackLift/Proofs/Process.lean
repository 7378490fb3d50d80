/-!
Deterministic processes that keep a record of what they do, and when two of them
behave alike.

A process steps from state to state until it finishes with a result, or gets
stuck. Two processes have the same runs when neither gets stuck, each does what
the other does in the same order, and both finish with the same result or both
run forever. Main statement: to show this it is enough to follow the steps of
one process with steps of the other, as long as the followed process does not
take infinitely many steps in a row that the other one answers with none.
-/

namespace StackLift

/-- What one step leads to. -/
inductive Progress (σ ρ : Type) where
  | running (s : σ)
  | finished (r : ρ)
  | stuck

structure Process (ε ρ : Type) where
  State : Type
  start : State
  step : State → Progress State ρ
  /-- What was done so far, the latest event first. -/
  history : State → List ε

namespace Process

variable {ε ρ : Type}

/-- A number of steps from one state to another. -/
inductive Steps (p : Process ε ρ) : Nat → p.State → p.State → Prop
  | zero (s : p.State) : Steps p 0 s s
  | succ {n : Nat} {s t u : p.State} (steps : Steps p n s t) (last : p.step t = .running u) :
      Steps p (n + 1) s u

/-- The process comes to the state. -/
def Reaches (p : Process ε ρ) (s : p.State) : Prop := ∃ n, p.Steps n p.start s

/-- The process does the given events first, the latest of them listed first. -/
def Performs (p : Process ε ρ) (h : List ε) : Prop := ∃ s, p.Reaches s ∧ h <:+ p.history s

/-- The process does the given events and then finishes. -/
def Finishes (p : Process ε ρ) (h : List ε) (r : ρ) : Prop :=
  ∃ s, p.Reaches s ∧ p.step s = .finished r ∧ p.history s = h

/-- The process runs forever. -/
def Diverges (p : Process ε ρ) : Prop := ∀ s, p.Reaches s → ∃ t, p.step s = .running t

/-- The process never gets stuck. -/
def Safe (p : Process ε ρ) : Prop := ∀ s, p.Reaches s → p.step s ≠ .stuck

/-- A step does not forget what was done. -/
def Recording (p : Process ε ρ) : Prop :=
  ∀ {s t : p.State}, p.step s = .running t → p.history s <:+ p.history t

structure SameRuns (p q : Process ε ρ) : Prop where
  left_safe : p.Safe
  right_safe : q.Safe
  performs : ∀ h, p.Performs h ↔ q.Performs h
  finishes : ∀ h r, p.Finishes h r ↔ q.Finishes h r
  diverges : p.Diverges ↔ q.Diverges

theorem SameRuns.refl {p : Process ε ρ} (safe : p.Safe) : p.SameRuns p :=
  ⟨safe, safe, fun _ => Iff.rfl, fun _ _ => Iff.rfl, Iff.rfl⟩

theorem SameRuns.trans {p q r : Process ε ρ} (h : p.SameRuns q) (h' : q.SameRuns r) :
    p.SameRuns r where
  left_safe := h.left_safe
  right_safe := h'.right_safe
  performs e := (h.performs e).trans (h'.performs e)
  finishes e r := (h.finishes e r).trans (h'.finishes e r)
  diverges := h.diverges.trans h'.diverges

/-! ### Steps -/

section

variable {p : Process ε ρ}

theorem Steps.one {s t : p.State} (h : p.step s = .running t) : p.Steps 1 s t := .succ (.zero s) h

theorem Steps.trans {m n : Nat} {s t u : p.State} (h : p.Steps m s t) (h' : p.Steps n t u) :
    p.Steps (m + n) s u := by
  induction h' with
  | zero => exact h
  | succ _ last ih => exact .succ (ih h) last

theorem Steps.det {n : Nat} {s t u : p.State} (h : p.Steps n s t) (h' : p.Steps n s u) :
    t = u := by
  induction h generalizing u with
  | zero => cases h'; rfl
  | succ _ last ih =>
      cases h' with
      | succ steps last' =>
          obtain rfl := ih steps
          rw [last] at last'
          cases last'
          rfl

/-- What every step keeps is kept by every run. -/
theorem Steps.keeps {P : p.State → Prop}
    (kept : ∀ {s t : p.State}, P s → p.step s = .running t → P t) {n : Nat} {s t : p.State}
    (h : p.Steps n s t) (first : P s) : P t := by
  induction h with
  | zero => exact first
  | succ _ last ih => exact kept (ih first) last

/-- A longer run goes on where a shorter one has come to. -/
theorem Steps.split {m n : Nat} {s t : p.State} (h : p.Steps n s t) (le : m ≤ n) :
    ∃ u, p.Steps m s u ∧ p.Steps (n - m) u t := by
  induction h with
  | zero =>
      obtain rfl : m = 0 := Nat.le_zero.mp le
      exact ⟨_, .zero _, .zero _⟩
  | @succ n s t u steps last ih =>
      rcases Nat.lt_or_ge n m with lt | ge
      · obtain rfl : m = n + 1 := by omega
        refine ⟨u, .succ steps last, ?_⟩
        rw [Nat.sub_self]
        exact .zero u
      · obtain ⟨v, first, rest⟩ := ih ge
        refine ⟨v, first, ?_⟩
        rw [Nat.succ_sub ge]
        exact .succ rest last

/-- A run cannot be longer than one that has come to a halt. -/
theorem Steps.le_of_halt {m n : Nat} {s t u : p.State} (h : p.Steps m s t)
    (halt : ∀ v, p.step t ≠ .running v) (h' : p.Steps n s u) : n ≤ m := by
  refine Nat.le_of_not_lt fun lt => ?_
  obtain ⟨v, first, -⟩ := h'.split (m := m + 1) lt
  cases first with
  | succ steps last =>
      obtain rfl := steps.det h
      exact halt v last

theorem Steps.history_suffix (recording : p.Recording) {n : Nat} {s t : p.State}
    (h : p.Steps n s t) : p.history s <:+ p.history t := by
  induction h with
  | zero => exact List.suffix_refl _
  | succ _ last ih => exact ih.trans (recording last)

theorem Reaches.step {s t : p.State} (h : p.Reaches s) (last : p.step s = .running t) :
    p.Reaches t := by
  obtain ⟨n, steps⟩ := h
  exact ⟨n + 1, .succ steps last⟩

/-- What holds at the start and is kept by every step holds wherever the process comes. -/
theorem Reaches.invariant {P : p.State → Prop} (first : P p.start)
    (kept : ∀ {s t : p.State}, p.Reaches s → P s → p.step s = .running t → P t) {s : p.State}
    (reaches : p.Reaches s) : P s := by
  obtain ⟨n, steps⟩ := reaches
  generalize start : p.start = s₀ at steps
  induction steps with
  | zero => exact start ▸ first
  | succ steps last ih => exact kept ⟨_, start ▸ steps⟩ (ih start) last

/-- A safe process runs forever when it does not finish. -/
theorem diverges_iff_of_safe (safe : p.Safe) :
    p.Diverges ↔ ∀ h r, ¬p.Finishes h r := by
  constructor
  · rintro forever h r ⟨s, reaches, hstep, -⟩
    obtain ⟨t, ht⟩ := forever s reaches
    rw [hstep] at ht
    cases ht
  · intro never s reaches
    cases hstep : p.step s with
    | running t => exact ⟨t, rfl⟩
    | finished r => exact absurd ⟨s, reaches, hstep, rfl⟩ (never (p.history s) r)
    | stuck => exact absurd hstep (safe s reaches)

end

/-! ### Simulation -/

/-- How the second process follows the first. Steps that it answers with no step
of its own make the rank smaller. -/
structure Simulation (p q : Process ε ρ) where
  Rel : p.State → q.State → Prop
  rank : p.State → Nat
  start : Rel p.start q.start
  history : ∀ {s t}, Rel s t → p.history s = q.history t
  safe : ∀ {s t}, Rel s t → p.step s ≠ .stuck
  running : ∀ {s s' t}, Rel s t → p.step s = .running s' →
    ∃ n t', q.Steps n t t' ∧ Rel s' t' ∧ (n = 0 → rank s' < rank s)
  finished : ∀ {s t r}, Rel s t → p.step s = .finished r →
    ∃ n t', q.Steps n t t' ∧ q.step t' = .finished r ∧ q.history t' = q.history t

namespace Simulation

variable {p q : Process ε ρ} (sim : Simulation p q)

include sim

theorem follow {n : Nat} {s : p.State} (h : p.Steps n p.start s) :
    ∃ t, q.Reaches t ∧ sim.Rel s t := by
  generalize heq : p.start = first at h
  induction h with
  | zero => exact ⟨q.start, ⟨0, .zero _⟩, heq ▸ sim.start⟩
  | succ _ last ih =>
      obtain ⟨t, ⟨m, before⟩, rel⟩ := ih heq
      obtain ⟨k, t', after, rel', -⟩ := sim.running rel last
      exact ⟨t', ⟨m + k, before.trans after⟩, rel'⟩

/-- The first process can be run until the second one has taken at least a given
number of steps, or until both are about to finish. -/
theorem catchUp (n : Nat) :
    (∃ m s t, n ≤ m ∧ p.Reaches s ∧ q.Steps m q.start t ∧ sim.Rel s t) ∨
      ∃ m s t t' r, p.Reaches s ∧ sim.Rel s t ∧ p.step s = .finished r ∧
        q.Steps m q.start t' ∧ q.step t' = .finished r ∧ q.history t' = q.history t := by
  induction n with
  | zero => exact Or.inl ⟨0, p.start, q.start, Nat.le_refl 0, ⟨0, .zero _⟩, .zero _, sim.start⟩
  | succ n ih =>
      rcases ih with ⟨m, s, t, le, reaches, steps, rel⟩ | done
      · -- The first process goes on until the second one moves; the rank bounds how long.
        induction hrank : sim.rank s using Nat.strongRecOn generalizing s with
        | _ rank next =>
            cases hstep : p.step s with
            | stuck => exact absurd hstep (sim.safe rel)
            | finished r =>
                obtain ⟨k, t', after, hfin, hist⟩ := sim.finished rel hstep
                exact Or.inr ⟨m + k, s, t, t', r, reaches, rel, hstep, steps.trans after, hfin,
                  hist⟩
            | running s' =>
                obtain ⟨k, t', after, rel', smaller⟩ := sim.running rel hstep
                cases k with
                | zero =>
                    cases after
                    have lt : sim.rank s' < rank := hrank ▸ smaller rfl
                    exact next (sim.rank s') lt s' (reaches.step hstep) rel' rfl
                | succ k =>
                    exact Or.inl ⟨m + (k + 1), s', t', by omega, reaches.step hstep,
                      steps.trans after, rel'⟩
      · exact Or.inr done

/-- Where the second process cannot go on, the first one finishes, with the same
history. -/
theorem finished_of_not_running {t : q.State} (reaches : q.Reaches t)
    (halt : ∀ u, q.step t ≠ .running u) :
    ∃ r, q.step t = .finished r ∧ p.Finishes (q.history t) r := by
  obtain ⟨n, steps⟩ := reaches
  rcases sim.catchUp (n + 1) with
    ⟨m, s, t', le, -, longer, -⟩ | ⟨m, s, t', fin, r, reaches, rel, hstep, run, hfin, hist⟩
  · have := steps.le_of_halt halt longer
    omega
  · have below := steps.le_of_halt halt run
    have above := run.le_of_halt (by simp [hfin]) steps
    obtain rfl : m = n := Nat.le_antisymm below above
    obtain rfl := steps.det run
    refine ⟨r, hfin, s, reaches, hstep, ?_⟩
    rw [hist, sim.history rel]

theorem right_safe : q.Safe := by
  intro t reaches stuck
  obtain ⟨r, hfin, -⟩ := sim.finished_of_not_running reaches (by simp [stuck])
  rw [stuck] at hfin
  cases hfin

theorem left_safe : p.Safe := by
  rintro s ⟨n, steps⟩
  obtain ⟨t, -, rel⟩ := sim.follow steps
  exact sim.safe rel

theorem performs_iff (recording : q.Recording) (h : List ε) : p.Performs h ↔ q.Performs h := by
  constructor
  · rintro ⟨s, ⟨n, steps⟩, suffix⟩
    obtain ⟨t, reaches, rel⟩ := sim.follow steps
    exact ⟨t, reaches, sim.history rel ▸ suffix⟩
  · rintro ⟨t, ⟨n, steps⟩, suffix⟩
    rcases sim.catchUp n with ⟨m, s, t', le, reaches, longer, rel⟩ | done
    · obtain ⟨u, first, rest⟩ := longer.split le
      obtain rfl := first.det steps
      refine ⟨s, reaches, ?_⟩
      rw [sim.history rel]
      exact suffix.trans (rest.history_suffix recording)
    · obtain ⟨m, s, t', fin, r, reaches, rel, -, run, hfin, hist⟩ := done
      refine ⟨s, reaches, ?_⟩
      rw [sim.history rel, ← hist]
      -- The second process stops at `fin`, so it has not come further than that.
      have le := run.le_of_halt (by simp [hfin]) steps
      obtain ⟨u, first, rest⟩ := run.split le
      obtain rfl := first.det steps
      exact suffix.trans (rest.history_suffix recording)

theorem finishes_iff (h : List ε) (r : ρ) : p.Finishes h r ↔ q.Finishes h r := by
  constructor
  · rintro ⟨s, ⟨n, steps⟩, hstep, rfl⟩
    obtain ⟨t, ⟨m, before⟩, rel⟩ := sim.follow steps
    obtain ⟨k, t', after, hfin, hist⟩ := sim.finished rel hstep
    exact ⟨t', ⟨m + k, before.trans after⟩, hfin, by rw [hist, sim.history rel]⟩
  · rintro ⟨t, reaches, hstep, rfl⟩
    obtain ⟨r', hfin, done⟩ := sim.finished_of_not_running reaches (by simp [hstep])
    rw [hstep] at hfin
    cases hfin
    exact done

/-- Processes of which one follows the other have the same runs. -/
theorem sameRuns (recording : q.Recording) : p.SameRuns q where
  left_safe := sim.left_safe
  right_safe := sim.right_safe
  performs := sim.performs_iff recording
  finishes := sim.finishes_iff
  diverges := by
    rw [diverges_iff_of_safe sim.left_safe, diverges_iff_of_safe sim.right_safe]
    simp only [sim.finishes_iff]

end Simulation

end Process

end StackLift
