import StackLift.Graph.Lemmas
import StackLift.Proofs.Process

/-!
Running a graph. What the operations compute is left open: an interpretation
gives the result of an operation on operands, which may depend on all that was
done before, and says which results count as true for a branch.

A block is run statement by statement. An edge to a block makes all phis of the
block take their inputs along that edge at once, from the values before the edge
was taken. What can be observed is which operations are done on which operands,
which way the branches go, and what is returned.
-/

namespace StackLift

/-- An operation with its operands left blank: what is done, not to what. -/
def Op.form (op : Op) : Op := op.mapOperands fun _ => ⟨0⟩

@[simp] theorem Op.form_mapOperands (f : ValueId → ValueId) (op : Op) :
    (op.mapOperands f).form = op.form := by
  rw [form, mapOperands_comp]
  rfl

inductive Event (V : Type) where
  /-- An operation was done on operands and gave a result. -/
  | op (form : Op) (args : List V) (result : V)
  /-- A branch was taken, for a test that held or did not. -/
  | branch (held : Bool)
deriving DecidableEq

structure Interp (V : Type) where
  /-- The result of an operation, given all that was done before. -/
  result : List (Event V) → Op → List V → V
  /-- Does a test hold. -/
  holds : V → Bool

/-- The two ways to return. -/
inductive Exit where
  | ret
  | nonLocalRet
deriving DecidableEq

/-- The values computed so far. -/
abbrev Env (V : Type) := ValueId → Option V

namespace Env

variable {V : Type}

def set (env : Env V) (v : ValueId) (a : V) : Env V := fun u => if u = v then some a else env u

/-- The values of operands, if all of them were computed. -/
def all? (env : Env V) : List ValueId → Option (List V)
  | [] => some []
  | v :: rest =>
    match env v, env.all? rest with
    | some a, some as => some (a :: as)
    | _, _ => none

theorem set_self (env : Env V) (v : ValueId) (a : V) : env.set v a v = some a := if_pos rfl

theorem set_of_ne (env : Env V) {u v : ValueId} (a : V) (h : u ≠ v) : env.set v a u = env u :=
  if_neg h

theorem all?_map_congr {env env' : Env V} (f : ValueId → ValueId) {vs : List ValueId}
    (h : ∀ v ∈ vs, env' (f v) = env v) : env'.all? (vs.map f) = env.all? vs := by
  induction vs with
  | nil => rfl
  | cons v vs ih =>
      have rest := ih fun u hu => h u (List.mem_cons_of_mem v hu)
      rw [List.map_cons, all?, all?, h v List.mem_cons_self, rest]

end Env

/-- The input that a phi takes along the edge from `pred`. -/
def Phi.read {V : Type} (p : Phi) (pred : BlockId) (env : Env V) : Option V :=
  (p.inputs.lookup pred).bind env

/-- The values after the phis of a block took their inputs along an edge. -/
def Block.readPhis {V : Type} (block : Block) (pred : BlockId) (env : Env V) : Env V := fun v =>
  match block.phis.find? (·.value = v) with
  | some p => p.read pred env
  | none => env v

/-- Where a run of a graph is. -/
structure Config (V : Type) where
  block : BlockId
  /-- The number of statements of the block that were run. -/
  index : Nat
  env : Env V
  history : List (Event V)

namespace Config

variable {V : Type}

/-- Runs a statement. -/
def perform (c : Config V) (I : Interp V) (s : Stmt) : Progress (Config V) (Exit × V) :=
  match c.env.all? s.op.operands with
  | some args =>
    let result := I.result c.history s.op.form args
    .running { c with
      index := c.index + 1
      env := c.env.set s.value result
      history := .op s.op.form args result :: c.history }
  | none => .stuck

/-- Takes an edge. -/
def goto (c : Config V) (g : Graph) (b : BlockId) : Progress (Config V) (Exit × V) :=
  match g.block? b with
  | some block =>
    if block.phis.all fun p => (p.read c.block c.env).isSome then
      .running { c with block := b, index := 0, env := block.readPhis c.block c.env }
    else .stuck
  | none => .stuck

/-- Notes which way a branch goes. -/
def noteBranch (c : Config V) (held : Bool) : Config V :=
  { c with history := .branch held :: c.history }

/-- Leaves a block. -/
def leave (c : Config V) (g : Graph) (I : Interp V) : Terminator → Progress (Config V) (Exit × V)
  | .goto target => c.goto g target
  | .branch cond yes no =>
    match c.env cond with
    | some v => (c.noteBranch (I.holds v)).goto g (if I.holds v then yes else no)
    | none => .stuck
  | .ret value =>
    match c.env value with
    | some v => .finished (.ret, v)
    | none => .stuck
  | .nonLocalRet value =>
    match c.env value with
    | some v => .finished (.nonLocalRet, v)
    | none => .stuck

def step (g : Graph) (I : Interp V) (c : Config V) : Progress (Config V) (Exit × V) :=
  match g.block? c.block with
  | some block =>
    match block.stmts[c.index]? with
    | some s => c.perform I s
    | none =>
      match block.terminator with
      | some t => c.leave g I t
      | none => .stuck
  | none => .stuck

end Config

/-- The run of a graph from its entry. -/
def Graph.process {V : Type} (g : Graph) (I : Interp V) : Process (Event V) (Exit × V) where
  State := Config V
  start := { block := g.entry, index := 0, env := fun _ => none, history := [] }
  step := Config.step g I
  history := Config.history

namespace Config

variable {V : Type} {g : Graph} {I : Interp V} {c c' : Config V}

theorem goto_eq_running_iff {b : BlockId} :
    c.goto g b = .running c' ↔
      ∃ block, g.block? b = some block ∧ (∀ p ∈ block.phis, (p.read c.block c.env).isSome) ∧
        c' = { c with block := b, index := 0, env := block.readPhis c.block c.env } := by
  rw [goto]
  cases g.block? b with
  | none => simp
  | some block =>
      simp only [Option.some.injEq, exists_eq_left', List.all_eq_true]
      split
      · rename_i all
        simp only [Progress.running.injEq]
        exact ⟨fun h => ⟨all, h.symm⟩, fun h => h.2.symm⟩
      · rename_i notAll
        simp [notAll]

theorem goto_ne_finished {b : BlockId} {r : Exit × V} : c.goto g b ≠ .finished r := by
  rw [goto]
  split
  · split <;> simp
  · simp

/-- The ways in which a run goes on. -/
theorem step_eq_running (h : c.step g I = .running c') :
    ∃ block, g.block? c.block = some block ∧
      ((∃ s, block.stmts[c.index]? = some s ∧ c.perform I s = .running c') ∨
        block.stmts[c.index]? = none ∧
          ((∃ b, block.terminator = some (.goto b) ∧ c.goto g b = .running c') ∨
            ∃ cond yes no v, block.terminator = some (.branch cond yes no) ∧
              c.env cond = some v ∧
              (c.noteBranch (I.holds v)).goto g (if I.holds v then yes else no) =
                .running c')) := by
  rw [step] at h
  split at h
  · rename_i block live
    refine ⟨block, live, ?_⟩
    split at h
    · rename_i s hs
      exact Or.inl ⟨s, hs, h⟩
    · rename_i hs
      refine Or.inr ⟨hs, ?_⟩
      split at h
      · rename_i t ht
        cases t with
        | goto b => exact Or.inl ⟨b, ht, h⟩
        | branch cond yes no =>
            rw [leave] at h
            split at h
            · rename_i v hv
              exact Or.inr ⟨cond, yes, no, v, ht, hv, h⟩
            · cases h
        | ret v =>
            rw [leave] at h
            split at h <;> cases h
        | nonLocalRet v =>
            rw [leave] at h
            split at h <;> cases h
      · cases h
  · cases h

/-- The ways in which a run ends. -/
theorem step_eq_finished {r : Exit × V} (h : c.step g I = .finished r) :
    ∃ block, g.block? c.block = some block ∧ block.stmts[c.index]? = none ∧
      ∃ t v, block.terminator = some t ∧ t.operands = [v] ∧ c.env v = some r.2 ∧
        (t = .ret v ∧ r.1 = .ret ∨ t = .nonLocalRet v ∧ r.1 = .nonLocalRet) := by
  rw [step] at h
  split at h
  · rename_i block live
    refine ⟨block, live, ?_⟩
    split at h
    · rw [perform] at h
      split at h <;> cases h
    · rename_i hs
      refine ⟨hs, ?_⟩
      split at h
      · rename_i t ht
        cases t with
        | goto b => exact absurd h goto_ne_finished
        | branch cond yes no =>
            rw [leave] at h
            split at h
            · exact absurd h goto_ne_finished
            · cases h
        | ret v =>
            rw [leave] at h
            split at h
            · rename_i a ha
              cases h
              exact ⟨_, v, ht, rfl, ha, Or.inl ⟨rfl, rfl⟩⟩
            · cases h
        | nonLocalRet v =>
            rw [leave] at h
            split at h
            · rename_i a ha
              cases h
              exact ⟨_, v, ht, rfl, ha, Or.inr ⟨rfl, rfl⟩⟩
            · cases h
      · cases h
  · cases h

theorem perform_eq_running_iff {s : Stmt} :
    c.perform I s = .running c' ↔
      ∃ args, c.env.all? s.op.operands = some args ∧
        c' = { c with
          index := c.index + 1
          env := c.env.set s.value (I.result c.history s.op.form args)
          history := .op s.op.form args (I.result c.history s.op.form args) :: c.history } := by
  rw [perform]
  cases c.env.all? s.op.operands with
  | none => simp
  | some args => simp [eq_comm]

end Config

theorem Graph.recording_process {V : Type} (g : Graph) (I : Interp V) :
    (g.process I).Recording := by
  intro c c' h
  obtain ⟨block, -, ⟨s, -, hs⟩ | ⟨-, ⟨b, -, hb⟩ | ⟨cond, yes, no, v, -, -, hb⟩⟩⟩ :=
    Config.step_eq_running h
  · obtain ⟨args, -, rfl⟩ := Config.perform_eq_running_iff.mp hs
    exact List.suffix_cons _ _
  · obtain ⟨target, -, -, rfl⟩ := Config.goto_eq_running_iff.mp hb
    exact List.suffix_refl _
  · obtain ⟨target, -, -, rfl⟩ := Config.goto_eq_running_iff.mp hb
    exact List.suffix_cons _ _

end StackLift
