import StackLift.Proofs.Assignment
import StackLift.Proofs.Graph.Part

/-!
Single steps of a run. A step runs a statement or takes an edge (`Graph.Move`). Where every value is
defined once, a step changes only what is defined where it leads to (`Assigned.env_eq`), and
what was computed stays.
-/

namespace StackLift

variable {V : Type}

/-- Where a run is. -/
def Config.point (c : Config V) : Point := ⟨c.block, c.index⟩

namespace Graph

variable {g : Graph} {I : Interp V} {c c' : Config V} {v : ValueId} {b : BlockId} {n : Nat}

/-- What one step does: it runs a statement, or takes an edge. -/
inductive Move (g : Graph) (I : Interp V) (c c' : Config V) : Prop
  | stmt {s : Stmt} {args : List V} (stmt : g.StmtAt c.block c.index s)
      (values : s.op.operands.map c.env = args.map some) (block : c'.block = c.block)
      (index : c'.index = c.index + 1)
      (env : c'.env = c.env.set s.value (I.result c.history s.op.form args))
  | edge {source target : Block} (live : g.block? c.block = some source)
      (past : source.stmts.length ≤ c.index) (succ : c'.block ∈ source.successors)
      (live' : g.block? c'.block = some target) (index : c'.index = 0)
      (reads : ∀ p ∈ target.phis, (p.read c.block c.env).isSome)
      (env : c'.env = target.readPhis c.block c.env)

theorem move_of_step (h : c.step g I = .running c') : g.Move I c c' := by
  obtain ⟨source, live, ⟨s, get, performed⟩ | ⟨none, left⟩⟩ := Config.step_eq_running h
  · obtain ⟨args, values, rfl⟩ := Config.perform_eq_running_iff.mp performed
    exact .stmt ⟨source, live, get⟩ (Env.all?_eq_some.mp values) rfl rfl rfl
  · have past := List.getElem?_eq_none_iff.mp none
    rcases left with ⟨b, last, goto⟩ | ⟨cond, yes, no, v, last, -, goto⟩
    · obtain ⟨target, live', reads, rfl⟩ := Config.goto_eq_running_iff.mp goto
      have succ : b ∈ source.successors := by simp [Block.successors, last, Terminator.successors]
      exact .edge live past succ live' rfl reads rfl
    · obtain ⟨target, live', reads, rfl⟩ := Config.goto_eq_running_iff.mp goto
      refine .edge live past ?_ live' rfl reads rfl
      simp only [Block.successors, last, Terminator.successors]
      split <;> simp

/-- Inside of a block control comes from the point before. -/
theorem Move.point_eq (move : g.Move I c c') (there : c'.point = ⟨b, n + 1⟩) :
    c.point = ⟨b, n⟩ := by
  cases move with
  | stmt _ _ block index _ =>
      rw [Config.point, block, index, Point.mk.injEq] at there
      rw [Config.point, Point.mk.injEq]
      exact ⟨there.1, Nat.succ.inj there.2⟩
  | edge _ _ _ _ index _ _ =>
      rw [Config.point, index, Point.mk.injEq] at there
      cases there.2

/-- The start of a block is reached along an edge. -/
theorem Move.edge_of_arrives (move : g.Move I c c') (arrives : c'.point = ⟨b, 0⟩) :
    ∃ source target, g.block? c.block = some source ∧ source.stmts.length ≤ c.index ∧
      b ∈ g.successorsOf c.block ∧ g.block? b = some target ∧
      c'.env = target.readPhis c.block c.env := by
  rw [Config.point, Point.mk.injEq] at arrives
  cases move with
  | stmt _ _ _ index _ => exact absurd (index.symm.trans arrives.2) (Nat.succ_ne_zero _)
  | edge live past succ live' _ _ env =>
      rw [arrives.1] at succ live'
      exact ⟨_, _, live, past, by rwa [successorsOf_eq live], live', env⟩

/-- A step changes only what is defined where it leads to. -/
theorem Move.env_eq (move : g.Move I c c') (other : ¬g.DefinedAt v c'.point) :
    c'.env v = c.env v := by
  cases move with
  | stmt stmt _ block index env =>
      obtain ⟨source, live, get⟩ := stmt
      rw [env]
      refine Env.set_of_ne _ _ ?_
      rintro rfl
      rw [Config.point, block, index] at other
      exact other (.stmt live get rfl)
  | @edge _ target _ _ _ live' index _ env =>
      rw [env, Block.readPhis]
      cases found : target.phis.find? (·.value = v) with
      | none => rfl
      | some p =>
          rw [Config.point, index] at other
          have value : p.value = v := by simpa using List.find?_some found
          exact absurd (.phi live' (List.mem_of_find?_eq_some found) value) other

theorem StmtAt.definedAt {s : Stmt} (stmt : g.StmtAt b n s) : g.DefinedAt s.value ⟨b, n + 1⟩ := by
  obtain ⟨block, live, get⟩ := stmt
  exact .stmt live get rfl

/-- A step from a statement runs it. -/
theorem StmtAt.of_step {s : Stmt} (stmt : g.StmtAt b n s) (here : c.point = ⟨b, n⟩)
    (h : c.step g I = .running c') :
    ∃ args, s.op.operands.map c.env = args.map some ∧ c'.point = ⟨b, n + 1⟩ ∧
      c'.env = c.env.set s.value (I.result c.history s.op.form args) := by
  rw [Config.point, Point.mk.injEq] at here
  rw [stmt.step_eq here.1 here.2] at h
  obtain ⟨args, values, rfl⟩ := Config.perform_eq_running_iff.mp h
  refine ⟨args, Env.all?_eq_some.mp values, ?_, rfl⟩
  rw [Config.point, Point.mk.injEq]
  exact ⟨here.1, congrArg (· + 1) here.2⟩

section

variable (assigned : g.Assigned)

include assigned

/-- The value that a phi has after an edge. -/
theorem Assigned.env_phi {target : Block} (live : g.block? b = some target) {p : Phi}
    (mem : p ∈ target.phis) (pred : BlockId) (env : Env V) :
    target.readPhis pred env p.value = p.read pred env := by
  rw [Block.readPhis, find?_phi_of_mem (assigned.phis live) mem]

/-- A value that is defined elsewhere is kept. -/
theorem Assigned.env_eq (move : g.Move I c c') {p : Point} (defined : g.DefinedAt v p)
    (other : c'.point ≠ p) : c'.env v = c.env v :=
  move.env_eq fun here => other (assigned.single here defined)

/-- What is defined where a step leads to has a value then. -/
theorem Assigned.isSome_of_definedAt (move : g.Move I c c') (defined : g.DefinedAt v c'.point) :
    (c'.env v).isSome := by
  cases move with
  | @stmt s args stmt _ block index env =>
      rw [Config.point, block, index] at defined
      obtain ⟨source, live, get⟩ := stmt
      obtain ⟨source', live', s', get', value⟩ := definedAt_succ.mp defined
      have same : source' = source := Option.some.inj (live'.symm.trans live)
      have same' : s' = s := Option.some.inj (get'.symm.trans (same ▸ get))
      rw [env, ← value, same', Env.set_self]
      rfl
  | @edge _ target _ _ _ live' index reads env =>
      rw [Config.point, index] at defined
      obtain ⟨target', live, p, mem, value⟩ := definedAt_zero.mp defined
      have same : target' = target := Option.some.inj (live.symm.trans live')
      rw [env, ← value, assigned.env_phi live' (same ▸ mem)]
      exact reads p (same ▸ mem)

/-- A value that was computed stays. -/
theorem Assigned.isSome_of_move (move : g.Move I c c') (some : (c.env v).isSome) :
    (c'.env v).isSome := by
  by_cases defined : g.DefinedAt v c'.point
  · exact assigned.isSome_of_definedAt move defined
  · rw [move.env_eq defined]
    exact some

theorem Assigned.isSome_of_steps {n : Nat} (run : (g.process I).Steps n c c')
    (some : (c.env v).isSome) : (c'.env v).isSome :=
  run.keeps (P := fun c : Config V => (c.env v).isSome)
    (fun some last => assigned.isSome_of_move (move_of_step last) some) some

end

end Graph

end StackLift
