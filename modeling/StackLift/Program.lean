import StackLift.Lower.Unit

/-!
Programs: a root unit with the units that its promises and closures run, and
those that these run in turn. Main definition: `CodeUnit.compileAll`.

A unit of the pool is compiled once, for the reference to it that comes last
among those waiting: as a promise or as a function. At most one unit for each
entry of the pool is compiled besides the root.
-/

namespace StackLift

/-- A unit of a program: the root, or a code entry of the pool. -/
inductive UnitRef where
  | root
  | pool (index : PoolIndex)
deriving DecidableEq

namespace UnitRef

def text : UnitRef → String
  | .root => "root unit"
  | .pool index => "unit #" ++ index.toNat.repr

/-- The root comes first, then the units of the pool by their index. -/
def precedes : UnitRef → UnitRef → Bool
  | .root, .root => false
  | .root, .pool _ => true
  | .pool _, .root => false
  | .pool i, .pool j => i.toNat < j.toNat

end UnitRef

structure ProgramError where
  unit : UnitRef
  error : CompileError
deriving DecidableEq

def ProgramError.message (e : ProgramError) : String := e.unit.text ++ ": " ++ e.error.message

/-- A unit that waits to be compiled. -/
structure Job where
  ref : UnitRef
  unit : CodeUnit
  kind : UnitKind

/-- Compiled units in the order of their references. -/
abbrev Program := List (UnitRef × Graph)

namespace Program

def contains (p : Program) (r : UnitRef) : Bool := p.any (·.1 = r)

def insert (r : UnitRef) (g : Graph) : Program → Program
  | [] => [(r, g)]
  | (r', g') :: rest =>
    if r.precedes r' then (r, g) :: (r', g') :: rest else (r', g') :: insert r g rest

theorem mem_insert {p : Program} {r : UnitRef} {g : Graph} {x : UnitRef × Graph} :
    x ∈ p.insert r g ↔ x = (r, g) ∨ x ∈ p := by
  induction p with
  | nil => simp [insert]
  | cons head rest ih =>
      obtain ⟨r', g'⟩ := head
      rw [insert]
      split
      · exact List.mem_cons
      · rw [List.mem_cons, ih, List.mem_cons]
        constructor
        · rintro (h | h | h)
          · exact Or.inr (Or.inl h)
          · exact Or.inl h
          · exact Or.inr (Or.inr h)
        · rintro (h | h | h)
          · exact Or.inr (Or.inl h)
          · exact Or.inl h
          · exact Or.inr (Or.inr h)

theorem contains_iff {p : Program} {r : UnitRef} :
    p.contains r = true ↔ ∃ g, (r, g) ∈ p := by
  rw [contains, List.any_eq_true]
  constructor
  · rintro ⟨⟨r', g⟩, mem, h⟩
    exact ⟨g, of_decide_eq_true h ▸ mem⟩
  · rintro ⟨g, mem⟩
    exact ⟨(r, g), mem, decide_eq_true rfl⟩

end Program

/-- The nested unit that an operation refers to, and what it is run as. -/
def Op.nested? : Op → Option (PoolIndex × UnitKind)
  | .mkPromise code => some (code, .promise)
  | .mkClosure code => some (code, .function)
  | _ => none

/-- The jobs for the units that a graph refers to, in statement order. -/
def Graph.jobs (g : Graph) (pool : Pool) : List Job :=
  g.stmts.filterMap fun (_, s) => do
    let (code, kind) ← s.op.nested?
    let unit ← (pool.code code).toOption
    return { ref := .pool code, unit, kind }

/-- Compiles waiting units, the one added last first, until none waits that was
not compiled. The first argument bounds the number of units compiled. -/
def compileJobs (pool : Pool) (options : Options) :
    Nat → List Job → Program → Except ProgramError Program
  | 0, _, done => .ok done
  | bound + 1, jobs, done =>
    match jobs.dropWhile (done.contains ·.ref) with
    | [] => .ok done
    | job :: rest =>
      match job.unit.compile pool { options with unitKind := job.kind } with
      | .error error => .error ⟨job.ref, error⟩
      | .ok g =>
        compileJobs pool options bound ((g.jobs pool).reverse ++ rest) (done.insert job.ref g)

/-- Compiles a root unit and every unit that it leads to. -/
def CodeUnit.compileAll (root : CodeUnit) (pool : Pool) (options : Options) :
    Except ProgramError Program :=
  compileJobs pool options (pool.size + 1) [⟨.root, root, options.unitKind⟩] []

end StackLift
