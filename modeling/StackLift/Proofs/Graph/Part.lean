import StackLift.Proofs.Graph.CleanupRuns

/-!
Parts of a graph and how control goes through them: a statement, the last statements of a block
with its end (`Graph.Tail`), and an edge with what it gives to the phis (`Graph.Carries`).
-/

namespace StackLift

variable {V : Type}

theorem Env.all?_eq_some {env : Env V} {vs : List ValueId} {as : List V} :
    env.all? vs = some as ↔ vs.map env = as.map some := by
  induction vs generalizing as with
  | nil =>
      rw [all?, List.map_nil, eq_comm (a := []), List.map_eq_nil_iff, Option.some.injEq]
      exact eq_comm
  | cons v vs ih =>
      rw [all?]
      cases as with
      | nil => split <;> simp
      | cons a as =>
          rw [List.map_cons, List.map_cons, List.cons.injEq, ← ih]
          split
          · rename_i b bs hb hbs
            simp [hb, hbs]
          · rename_i none
            simp only [reduceCtorEq, false_iff, not_and]
            exact fun here rest => none a as here rest

theorem Env.map_cons_eq {env : Env V} {v : ValueId} {vs : List ValueId} {args : List V}
    (values : (v :: vs).map env = args.map some) :
    ∃ x xs, args = x :: xs ∧ env v = some x ∧ vs.map env = xs.map some := by
  cases args with
  | nil => cases values
  | cons x xs =>
      obtain ⟨head, tail⟩ := List.cons.inj values
      exact ⟨x, xs, rfl, head, tail⟩

theorem Env.exists_map_eq {env : Env V} {vs : List ValueId} (some : ∀ v ∈ vs, (env v).isSome) :
    ∃ xs : List V, vs.map env = xs.map Option.some := by
  induction vs with
  | nil => exact ⟨[], rfl⟩
  | cons v vs ih =>
      obtain ⟨here, rest⟩ := List.forall_mem_cons.mp some
      obtain ⟨x, value⟩ := Option.isSome_iff_exists.mp here
      obtain ⟨xs, values⟩ := ih rest
      exact ⟨x :: xs, by rw [List.map_cons, List.map_cons, value, values]⟩

theorem Env.map_nil_eq {env : Env V} {args : List V} (values : [].map env = args.map some) :
    args = [] :=
  List.map_eq_nil_iff.mp values.symm

/-- Along the edge from `b`, the phis of a block are given the values `slots`, in order and
no others. -/
def Graph.Carries (g : Graph) (b target : BlockId) (slots : List ValueId) : Prop :=
  ∃ block, g.block? target = some block ∧ block.phis.map (·.inputs.lookup b) = slots.map some

/-- Control that goes along an edge brings the values that the edge carries. -/
theorem Graph.Carries.goto {g : Graph} {c : Config V} {target : BlockId} {slots : List ValueId}
    {xs : List V} (carries : g.Carries c.block target slots)
    (distinct : ∀ {block : Block}, g.block? target = some block →
      (block.phis.map (·.value)).Nodup)
    (values : slots.map c.env = xs.map some) :
    ∃ block env, g.block? target = some block ∧
      c.goto g target = .running { c with block := target, index := 0, env } ∧
      block.phis.map (fun p => env p.value) = xs.map some := by
  obtain ⟨block, live, inputs⟩ := carries
  have reads : block.phis.map (fun p => p.read c.block c.env) = xs.map some := by
    have each : (fun p : Phi => p.read c.block c.env) =
        (fun input => Option.bind input c.env) ∘ fun p => p.inputs.lookup c.block := rfl
    rw [each, ← List.map_map, inputs, List.map_map, ← values]
    rfl
  refine ⟨block, block.readPhis c.block c.env, live,
    Config.goto_eq_running_iff.mpr ⟨block, live, fun p mem => ?_, rfl⟩, ?_⟩
  · have read : p.read c.block c.env ∈ xs.map some := reads ▸ List.mem_map_of_mem mem
    obtain ⟨x, -, value⟩ := List.mem_map.mp read
    rw [← value]
    rfl
  · rw [← reads]
    refine List.map_congr_left fun p mem => ?_
    rw [Block.readPhis, Graph.find?_phi_of_mem (distinct live) mem]

namespace Graph

variable {g : Graph} {b : BlockId} {n : Nat} {t : Terminator} {c : Config V}

/-- The statement of a block at an index. -/
def StmtAt (g : Graph) (b : BlockId) (n : Nat) (s : Stmt) : Prop :=
  ∃ block, g.block? b = some block ∧ block.stmts[n]? = some s

/-- From an index on, a block has the given statements and then ends with `t`. -/
def Tail (g : Graph) (b : BlockId) (n : Nat) (stmts : List Stmt) (t : Terminator) : Prop :=
  ∃ block, g.block? b = some block ∧ block.stmts.drop n = stmts ∧ block.terminator = some t

theorem Tail.uncons {s : Stmt} {rest : List Stmt} (tail : g.Tail b n (s :: rest) t) :
    g.StmtAt b n s ∧ g.Tail b (n + 1) rest t := by
  obtain ⟨block, live, drop, last⟩ := tail
  refine ⟨⟨block, live, ?_⟩, block, live, ?_, last⟩
  · rw [← List.head?_drop, drop]
    rfl
  · rw [← List.drop_drop, drop]
    rfl

theorem Tail.mem_successorsOf {stmts : List Stmt} {target : BlockId} (tail : g.Tail b n stmts t)
    (mem : target ∈ t.successors) : target ∈ g.successorsOf b := by
  obtain ⟨block, live, -, last⟩ := tail
  rw [successorsOf_eq live, Block.successors, last]
  exact mem

/-! ### Running a part of a graph -/

/-- A run, every step of which is taken in one of the blocks. -/
inductive StepsIn (g : Graph) (I : Interp V) (blocks : List BlockId) : Config V → Config V → Prop
  | refl (c : Config V) : StepsIn g I blocks c c
  | step {c c' c'' : Config V} (inside : c.block ∈ blocks) (steps : c.step g I = .running c')
      (rest : StepsIn g I blocks c' c'') : StepsIn g I blocks c c''

variable {I : Interp V}

theorem StepsIn.mono {blocks blocks' : List BlockId} {c c' : Config V}
    (run : g.StepsIn I blocks c c') (sub : blocks ⊆ blocks') : g.StepsIn I blocks' c c' := by
  induction run with
  | refl c => exact .refl c
  | step inside steps _ ih => exact .step (sub inside) steps ih

theorem StepsIn.trans {blocks : List BlockId} {c c' c'' : Config V}
    (run : g.StepsIn I blocks c c') (run' : g.StepsIn I blocks c' c'') :
    g.StepsIn I blocks c c'' := by
  induction run with
  | refl => exact run'
  | step inside steps _ ih => exact .step inside steps (ih run')

theorem StepsIn.single {c c' : Config V} (block : c.block = b) (steps : c.step g I = .running c') :
    g.StepsIn I [b] c c' :=
  .step (List.mem_singleton.mpr block) steps (.refl _)

theorem StmtAt.step_eq {s : Stmt} (stmt : g.StmtAt b n s) (block : c.block = b)
    (index : c.index = n) : c.step g I = c.perform I s := by
  obtain ⟨found, live, get⟩ := stmt
  rw [Config.step, block, live]
  simp only [index, get]

/-- Runs the statement that comes next. -/
theorem StmtAt.run {s : Stmt} {args : List V} (stmt : g.StmtAt b n s) (block : c.block = b)
    (index : c.index = n) (values : s.op.operands.map c.env = args.map some) (I : Interp V) :
    ∃ c' r, r = I.result c.history s.op.form args ∧ c.step g I = .running c' ∧ c'.block = b ∧
      c'.index = n + 1 ∧ c'.env = c.env.set s.value r ∧
      c'.history = .op s.op.form args r :: c.history := by
  have step := stmt.step_eq (I := I) block index
  rw [Config.perform, Env.all?_eq_some.mpr values] at step
  exact ⟨_, _, rfl, step, block, congrArg (· + 1) index, rfl, rfl⟩

theorem Tail.step_eq (tail : g.Tail b n [] t) (block : c.block = b) (index : c.index = n) :
    c.step g I = c.leave g I t := by
  obtain ⟨found, live, drop, last⟩ := tail
  have past : found.stmts[c.index]? = none := by
    rw [index]
    exact List.getElem?_eq_none (List.drop_eq_nil_iff.mp drop)
  rw [Config.step, block, live]
  simp only [past, last]

/-- Control is at the start of a block, whose phis have the values, in order. -/
def Arrives (g : Graph) (b : BlockId) (xs : List V) (c : Config V) : Prop :=
  c.block = b ∧ c.index = 0 ∧
    ∃ block, g.block? b = some block ∧ block.phis.map (fun p => c.env p.value) = xs.map some

/-- No two phis of a block define the same value. -/
def DistinctPhis (g : Graph) : Prop :=
  ∀ {b : BlockId} {block : Block}, g.block? b = some block → (block.phis.map (·.value)).Nodup

theorem Tail.branch {cond : ValueId} {yes no : BlockId} {r : V}
    (tail : g.Tail b n [] (.branch cond yes no)) (block : c.block = b) (index : c.index = n)
    (answer : c.env cond = some r) :
    c.step g I = (c.noteBranch (I.holds r)).goto g (if I.holds r then yes else no) := by
  rw [tail.step_eq block index, Config.leave, answer]

/-- Control that goes along an edge brings the values that the edge carries. -/
theorem Carries.arrive {target : BlockId} {slots : List ValueId} {xs : List V}
    (carries : g.Carries b target slots) (distinct : g.DistinctPhis) (block : c.block = b)
    (values : slots.map c.env = xs.map some) :
    ∃ c', c.goto g target = .running c' ∧ g.Arrives target xs c' := by
  rw [← block] at carries
  obtain ⟨found, env, live, goto, held⟩ := carries.goto (fun live => distinct live) values
  exact ⟨_, goto, rfl, rfl, found, live, held⟩

/-- An edge to a block without phis changes no value. -/
theorem Carries.goto_nil {target : BlockId} (carries : g.Carries b target []) :
    c.goto g target = .running { c with block := target, index := 0 } := by
  obtain ⟨found, live, inputs⟩ := carries
  have none : found.phis = [] := List.map_eq_nil_iff.mp inputs
  have same : found.readPhis c.block c.env = c.env := by
    funext v
    rw [Block.readPhis, none]
    rfl
  refine Config.goto_eq_running_iff.mpr ⟨found, live, by simp [none], ?_⟩
  rw [same]

end Graph

end StackLift
