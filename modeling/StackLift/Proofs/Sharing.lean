import StackLift.Bytecode.Pool

/-!
What a pool holds after any constants were added to it, and what its indices find. The equality by
which constants are shared is that of numbers on reals: it is not reflexive, since a NaN equals
nothing, and it does not tell the two zeros apart. Main statements: while fewer than 2³² constants
are stored, indices stay valid, equal constants share an index and code never does
(`adds_share_constants`); an added constant is found unchanged, unless it is a zero and the zero of
the other sign was there before (`add_keeps_constant_iff`).
-/

namespace StackLift

theorem Double.isNaN_of_isZero {x : Double} (zero : x.isZero = true) : x.isNaN = false := by
  rw [isZero, beq_iff_eq] at zero
  rw [isNaN, zero]
  rfl

theorem Double.numEq_iff {x y : Double} : x.numEq y = true ↔
    (x = y ∧ x.isNaN = false) ∨ x.isZero = true ∧ y.isZero = true := by
  obtain ⟨bits⟩ := x
  obtain ⟨bits'⟩ := y
  simp only [numEq, Bool.and_eq_true, Bool.not_eq_true', Bool.or_eq_true, beq_iff_eq, mk.injEq]
  constructor
  · rintro ⟨⟨number, -⟩, same | zeros⟩
    · exact .inl ⟨same, number⟩
    · exact .inr zeros
  · rintro (⟨rfl, number⟩ | zeros)
    · exact ⟨⟨number, number⟩, .inl rfl⟩
    · exact ⟨⟨isNaN_of_isZero zeros.1, isNaN_of_isZero zeros.2⟩, .inr zeros⟩

namespace Constant

variable {a b : Constant}

/-- Constants are equal if they are the same and no NaN, or if both are zeros. -/
theorem equal_iff : a.equal b = true ↔
    (a = b ∧ ∀ x, a = .real x → x.isNaN = false) ∨
      ∃ x y, a = .real x ∧ b = .real y ∧ x.isZero = true ∧ y.isZero = true := by
  unfold equal
  split
  · rename_i x y
    simp [Double.numEq_iff]
  · rename_i notReals
    rw [beq_iff_eq]
    constructor
    · rintro rfl
      exact .inl ⟨rfl, fun x real => (notReals x x real real).elim⟩
    · rintro (⟨same, -⟩ | ⟨x, y, real, real', -⟩)
      · exact same
      · exact (notReals x y real real').elim

theorem equal_symm (equal : a.equal b = true) : b.equal a = true := by
  rcases equal_iff.mp equal with ⟨rfl, -⟩ | ⟨x, y, rfl, rfl, zero, zero'⟩
  · exact equal
  · exact equal_iff.mpr (.inr ⟨y, x, rfl, rfl, zero', zero⟩)

theorem isCode_eq_of_equal (equal : a.equal b = true) : a.isCode = b.isCode := by
  rcases equal_iff.mp equal with ⟨rfl, -⟩ | ⟨x, y, rfl, rfl, -⟩
  · rfl
  · rfl

end Constant

/-- A call that adds a constant to a pool. -/
inductive AddCall where
  | constant (c : Constant)
  | symbol (name : String)
  | expr (e : Expr)
  | code (unit : CodeUnit)
deriving DecidableEq

/-- The constant that is added. -/
def AddCall.added : AddCall → Constant
  | .constant c => c
  | .symbol name => .symbol name
  | .expr e => .expr e
  | .code unit => .code unit

namespace Pool

/-- The index that a call gets, and the pool after it. -/
def answer (p : Pool) : AddCall → PoolIndex × Pool
  | .constant c => p.add c
  | .symbol name => p.addSymbol name
  | .expr e => p.addExpr e
  | .code unit => p.addCode unit

/-- The pool after calls. -/
def after (p : Pool) : List AddCall → Pool
  | [] => p
  | call :: rest => (p.answer call).2.after rest

/-- The indices that calls get. -/
def indices (p : Pool) : List AddCall → List PoolIndex
  | [] => []
  | call :: rest => (p.answer call).1 :: (p.answer call).2.indices rest

/-- The first place where an entry equals a constant. -/
def IsFirst (p : Pool) (c : Constant) (n : Nat) : Prop :=
  (∃ d, p.entries[n]? = some d ∧ d.equal c = true) ∧
    ∀ m d, m < n → p.entries[m]? = some d → d.equal c = false

/-- A constant is stored anew: it is code, or no entry equals it. -/
def Stores (p : Pool) (c : Constant) : Prop :=
  c.isCode = true ∨ ∀ d ∈ p.entries, d.equal c = false

/-- Adding a constant finds the first entry equal to it or stores the constant at the end. -/
structure Adds (p : Pool) (c : Constant) (i : PoolIndex) (q : Pool) : Prop where
  shared : ∀ n, c.isCode = false → p.IsFirst c n → i.toNat = n ∧ q = p
  stored : p.Stores c → i.toNat = p.size ∧ q.entries = p.entries ++ [c]

/-- A look-up finds the payloads of one kind of constants, and tells why it finds none. -/
structure Finds {α : Type} (p : Pool) (look : PoolIndex → Except BytecodeError α)
    (kind : ConstantKind) (wrap : α → Constant) : Prop where
  succeeds : ∀ i, (∃ x, look i = .ok x) ↔ ∃ c, p.entries[i.toNat]? = some c ∧ c.kind = kind
  found : ∀ i x, look i = .ok x ↔ p.entries[i.toNat]? = some (wrap x)
  refused : ∀ i e, look i = .error e ↔ (p.size ≤ i.toNat ∧ e = .outOfRange i p.size) ∨
    ∃ c, p.entries[i.toNat]? = some c ∧ c.kind ≠ kind ∧ e = .wrongKind i kind c.kind

variable {p : Pool} {c : Constant} {calls : List AddCall}

/-! ### One call -/

theorem answer_eq_add (p : Pool) (call : AddCall) : p.answer call = p.add call.added := by
  cases call <;> rfl

theorem IsFirst.lt {n : Nat} (first : p.IsFirst c n) : n < p.size := by
  obtain ⟨⟨d, get, -⟩, -⟩ := first
  exact (List.getElem?_eq_some_iff.mp get).1

theorem IsFirst.unique {m n : Nat} (first : p.IsFirst c m) (first' : p.IsFirst c n) : m = n := by
  obtain ⟨⟨d, get, equal⟩, before⟩ := first
  obtain ⟨⟨d', get', equal'⟩, before'⟩ := first'
  rcases Nat.lt_trichotomy m n with lt | same | lt
  · exact absurd equal (by simp [before' m d lt get])
  · exact same
  · exact absurd equal' (by simp [before n d' lt get'])

theorem IsFirst.not_stores {n : Nat} (first : p.IsFirst c n) (plain : c.isCode = false) :
    ¬p.Stores c := by
  obtain ⟨⟨d, get, equal⟩, -⟩ := first
  rintro (code | unequal)
  · simp [plain] at code
  · simp [unequal d (List.mem_of_getElem? get)] at equal

theorem isFirst_of_findIdx? {n : Nat} (found : p.entries.findIdx? (·.equal c) = some n) :
    p.IsFirst c n := by
  obtain ⟨lt, equal, before⟩ := List.findIdx?_eq_some_iff_getElem.mp found
  refine ⟨⟨_, List.getElem?_eq_getElem lt, equal⟩, fun m d less get => ?_⟩
  obtain ⟨lt', rfl⟩ := List.getElem?_eq_some_iff.mp get
  simpa using before m less

/-- All that adding a constant can do: an entry is found, or the constant is stored. -/
theorem add_cases (p : Pool) (c : Constant) :
    (∃ n, c.isCode = false ∧ p.IsFirst c n ∧ p.add c = (.ofNat n, p)) ∨
      p.Stores c ∧ p.add c = (.ofNat p.size, ⟨p.entries ++ [c]⟩) := by
  cases found : p.find? c with
  | some n =>
      refine .inl ⟨n, ?_⟩
      have added := add_of_find?_eq_some found
      rw [find?] at found
      split at found
      · cases found
      · rename_i plain
        exact ⟨by simpa using plain, isFirst_of_findIdx? found, added⟩
  | none =>
      refine .inr ⟨?_, add_of_find?_eq_none found⟩
      rw [find?] at found
      split at found
      · rename_i code
        exact .inl code
      · exact .inr (List.findIdx?_eq_none_iff.mp found)

theorem entries_prefix_add (p : Pool) (c : Constant) : p.entries <+: (p.add c).2.entries := by
  rcases add_cases p c with ⟨n, -, -, added⟩ | ⟨-, added⟩
  · simp [added]
  · simp [added]

theorem adds_add (small : (p.add c).2.size < UInt32.size) :
    p.Adds c (p.add c).1 (p.add c).2 := by
  have le : p.size ≤ (p.add c).2.size := (entries_prefix_add p c).length_le
  rcases add_cases p c with ⟨n, plain, first, added⟩ | ⟨stores, added⟩
  · rw [added]
    have index : (PoolIndex.ofNat n).toNat = n := PoolIndex.toNat_ofNat (by have := first.lt; omega)
    exact ⟨fun m _ first' => ⟨index.trans (first.unique first'), rfl⟩,
      fun stores => absurd stores (first.not_stores plain)⟩
  · rw [added]
    have index : (PoolIndex.ofNat p.size).toNat = p.size := PoolIndex.toNat_ofNat (by omega)
    exact ⟨fun m plain first => absurd stores (first.not_stores plain), fun _ => ⟨index, rfl⟩⟩

/-- The index of an added constant finds an entry, which is the constant or was there before and
equals it. -/
theorem exists_entry_add (small : (p.add c).2.size < UInt32.size) :
    ∃ d, (p.add c).2.entries[(p.add c).1.toNat]? = some d ∧
      (p.Stores c ∧ d = c ∨ c.isCode = false ∧ d.equal c = true ∧
        p.entries[(p.add c).1.toNat]? = some d) := by
  have adds := adds_add small
  rcases add_cases p c with ⟨n, plain, first, -⟩ | ⟨stores, -⟩
  · obtain ⟨index, same⟩ := adds.shared n plain first
    obtain ⟨⟨d, get, equal⟩, -⟩ := first
    rw [same, index]
    exact ⟨d, get, .inr ⟨plain, equal, get⟩⟩
  · obtain ⟨index, entries⟩ := adds.stored stores
    refine ⟨c, ?_, .inl ⟨stores, rfl⟩⟩
    rw [index, entries, size, List.getElem?_concat_length]

/-! ### Calls in turn -/

theorem after_append (p : Pool) (before later : List AddCall) :
    p.after (before ++ later) = (p.after before).after later := by
  induction before generalizing p with
  | nil => rfl
  | cons call rest ih => exact ih (p.answer call).2

theorem entries_prefix_after (p : Pool) (calls : List AddCall) :
    p.entries <+: (p.after calls).entries := by
  induction calls generalizing p with
  | nil => exact List.prefix_refl _
  | cons call rest ih =>
      have step : p.entries <+: (p.answer call).2.entries := by
        rw [answer_eq_add]
        exact entries_prefix_add p call.added
      exact step.trans (ih (p.answer call).2)

theorem size_le_after (p : Pool) (calls : List AddCall) : p.size ≤ (p.after calls).size :=
  (entries_prefix_after p calls).length_le

/-- What is found once is found for ever. -/
theorem entry_after {n : Nat} {d : Constant} (get : p.entries[n]? = some d) (calls : List AddCall) :
    (p.after calls).entries[n]? = some d := by
  obtain ⟨rest, entries⟩ := entries_prefix_after p calls
  rw [← entries, List.getElem?_append_left (List.getElem?_eq_some_iff.mp get).1]
  exact get

/-- No entry equals a later one, unless it is code. -/
def Distinct (p : Pool) : Prop :=
  p.entries.Pairwise fun d e => e.isCode = false → d.equal e = false

theorem Distinct.add (distinct : p.Distinct) (c : Constant) : (p.add c).2.Distinct := by
  rcases add_cases p c with ⟨n, -, -, added⟩ | ⟨stores, added⟩
  · rw [added]
    exact distinct
  · rw [added]
    refine List.pairwise_append.mpr ⟨distinct, List.pairwise_singleton _ _, fun d mem e last => ?_⟩
    rw [List.mem_singleton.mp last]
    rcases stores with code | unequal
    · exact fun plain => by simp [plain] at code
    · exact fun _ => unequal d mem

theorem distinct_after (distinct : p.Distinct) (calls : List AddCall) :
    (p.after calls).Distinct := by
  induction calls generalizing p with
  | nil => exact distinct
  | cons call rest ih =>
      refine ih ?_
      rw [answer_eq_add]
      exact distinct.add call.added

theorem Distinct.eq_of_equal (distinct : p.Distinct) {m n : Nat} {d e : Constant}
    (get : p.entries[m]? = some d) (get' : p.entries[n]? = some e) (plain : d.isCode = false)
    (equal : d.equal e = true) : m = n := by
  obtain ⟨lt, rfl⟩ := List.getElem?_eq_some_iff.mp get
  obtain ⟨lt', rfl⟩ := List.getElem?_eq_some_iff.mp get'
  have apart := List.pairwise_iff_getElem.mp distinct
  rcases Nat.lt_trichotomy m n with less | same | less
  · have unequal := apart m n lt lt' less (Constant.isCode_eq_of_equal equal ▸ plain)
    simp [equal] at unequal
  · exact same
  · have unequal := apart n m lt' lt less plain
    simp [Constant.equal_symm equal] at unequal

/-! ### Indices that calls get -/

theorem size_add_lt {call : AddCall} (small : (p.after (call :: calls)).size < UInt32.size) :
    (p.add call.added).2.size < UInt32.size := by
  rw [← answer_eq_add]
  exact Nat.lt_of_le_of_lt (size_le_after (p.answer call).2 calls) small

theorem lt_size_of_mem_indices {i : PoolIndex} (small : (p.after calls).size < UInt32.size)
    (mem : i ∈ p.indices calls) : i.toNat < (p.after calls).size := by
  induction calls generalizing p with
  | nil => cases mem
  | cons call rest ih =>
      rcases List.mem_cons.mp mem with rfl | mem
      · obtain ⟨d, get, -⟩ := exists_entry_add (size_add_lt small)
        rw [← answer_eq_add] at get
        exact (List.getElem?_eq_some_iff.mp (entry_after get rest)).1
      · exact ih small mem

/-- No later call gets the index of a unit. -/
theorem not_mem_indices_of_code {i : PoolIndex} {d : Constant}
    (get : p.entries[i.toNat]? = some d) (code : d.isCode = true)
    (small : (p.after calls).size < UInt32.size) : i ∉ p.indices calls := by
  induction calls generalizing p with
  | nil => exact List.not_mem_nil
  | cons call rest ih =>
      intro mem
      rcases List.mem_cons.mp mem with rfl | mem
      · have adds := adds_add (size_add_lt small)
        rw [answer_eq_add] at get
        rcases add_cases p call.added with ⟨n, plain, first, -⟩ | ⟨stores, -⟩
        · obtain ⟨index, -⟩ := adds.shared n plain first
          obtain ⟨⟨e, get', equal⟩, -⟩ := first
          rw [index, get'] at get
          cases get
          simp [Constant.isCode_eq_of_equal equal, plain] at code
        · have lt := (List.getElem?_eq_some_iff.mp get).1
          rw [(adds.stored stores).1] at lt
          exact Nat.lt_irrefl _ lt
      · exact ih (entry_after get [call]) small mem

/-! ### Typed look-ups -/

section

variable {α : Type} {look : PoolIndex → Except BytecodeError α}
  {view : PoolIndex → Constant → Except BytecodeError α} {kind : ConstantKind} {wrap : α → Constant}
  (looks : ∀ i, look i = p.get i >>= view i) (wraps : ∀ c, c.kind = kind ↔ ∃ x, c = wrap x)
  (views : ∀ i x, view i (wrap x) = .ok x)
  (refuses : ∀ i c, c.kind ≠ kind → view i c = .error (.wrongKind i kind c.kind))

include looks wraps views refuses

/-- A look-up that views what it finds, and refuses all but one kind of constants. -/
theorem look_cases (i : PoolIndex) :
    (p.size ≤ i.toNat ∧ p.entries[i.toNat]? = none ∧ look i = .error (.outOfRange i p.size)) ∨
    (¬p.size ≤ i.toNat ∧ ∃ x, p.entries[i.toNat]? = some (wrap x) ∧ look i = .ok x) ∨
    ¬p.size ≤ i.toNat ∧ ∃ c, p.entries[i.toNat]? = some c ∧ c.kind ≠ kind ∧
      look i = .error (.wrongKind i kind c.kind) := by
  rw [looks]
  cases get : p.entries[i.toNat]? with
  | none =>
      refine .inl ⟨List.getElem?_eq_none_iff.mp get, rfl, ?_⟩
      rw [Pool.get, get]
      rfl
  | some c =>
      have inside : ¬p.size ≤ i.toNat := Nat.not_le.mpr (List.getElem?_eq_some_iff.mp get).1
      rw [get_eq_ok_iff.mpr get]
      by_cases same : c.kind = kind
      · obtain ⟨x, rfl⟩ := (wraps c).mp same
        exact .inr (.inl ⟨inside, x, rfl, views i x⟩)
      · exact .inr (.inr ⟨inside, c, rfl, same, refuses i c same⟩)

theorem finds_of_view : p.Finds look kind wrap := by
  have kinds : ∀ x, (wrap x).kind = kind := fun x => (wraps _).mpr ⟨x, rfl⟩
  have injective : ∀ x y, wrap x = wrap y ↔ x = y := fun x y =>
    ⟨fun same => Except.ok.inj ((views ⟨0⟩ x).symm.trans (same ▸ views ⟨0⟩ y)), congrArg wrap⟩
  refine ⟨fun i => ?_, fun i x => ?_, fun i e => ?_⟩
  · rcases look_cases looks wraps views refuses i with ⟨-, get, result⟩ | ⟨-, x, get, result⟩ |
      ⟨-, c, get, ne, result⟩
    · simp [get, result]
    · simp [get, result, kinds]
    · simp [get, result, ne]
  · rcases look_cases looks wraps views refuses i with ⟨-, get, result⟩ | ⟨-, y, get, result⟩ |
      ⟨-, c, get, ne, result⟩
    · simp [get, result]
    · simp [get, result, injective]
    · have other : c ≠ wrap x := fun same => ne (same ▸ kinds x)
      simp [get, result, other]
  · rcases look_cases looks wraps views refuses i with ⟨outside, get, result⟩ |
      ⟨inside, x, get, result⟩ | ⟨inside, c, get, ne, result⟩
    · simp [get, result, outside, @eq_comm _ e]
    · simp [get, result, inside, kinds]
    · simp [get, result, inside, ne, @eq_comm _ e]

end

theorem finds_symbol (p : Pool) : p.Finds p.symbol .symbol .symbol := by
  refine finds_of_view (fun i => rfl) (fun c => ?_) (fun i name => rfl) fun i c ne => ?_
  · cases c <;> simp [Constant.kind]
  · cases c with
    | symbol name => exact absurd rfl ne
    | _ => rfl

theorem finds_expr (p : Pool) : p.Finds p.expr .expr .expr := by
  refine finds_of_view (fun i => rfl) (fun c => ?_) (fun i e => rfl) fun i c ne => ?_
  · cases c <;> simp [Constant.kind]
  · cases c with
    | expr e => exact absurd rfl ne
    | _ => rfl

theorem finds_code (p : Pool) : p.Finds p.code .code .code := by
  refine finds_of_view (fun i => rfl) (fun c => ?_) (fun i unit => rfl) fun i c ne => ?_
  · cases c <;> simp [Constant.kind]
  · cases c with
    | code unit => exact absurd rfl ne
    | _ => rfl

theorem finds_strings (p : Pool) : p.Finds p.strings .strings .strings := by
  refine finds_of_view (fun i => rfl) (fun c => ?_) (fun i values => rfl) fun i c ne => ?_
  · cases c <;> simp [Constant.kind]
  · cases c with
    | strings values => exact absurd rfl ne
    | _ => rfl

theorem finds_labelTable (p : Pool) : p.Finds p.labelTable .labelTable .labelTable := by
  refine finds_of_view (fun i => rfl) (fun c => ?_) (fun i labels => rfl) fun i c ne => ?_
  · cases c <;> simp [Constant.kind]
  · cases c with
    | labelTable labels => exact absurd rfl ne
    | _ => rfl

end Pool

open Pool

/-- Constants are shared, and what indices find stays. Whatever was added to an empty pool, each
call gets the first entry equal to its constant, or stores the constant where none is equal and where it
is code; its index finds the same entry ever after. So no two indices find equal constants, code
apart, and the index of a unit is got by no other call. Each typed look-up finds the constants of
its kind and reports the others. -/
theorem adds_share_constants (calls : List AddCall)
    (small : (Pool.after {} calls).size < UInt32.size) :
    (∀ before call later p i q, calls = before ++ call :: later → Pool.after {} before = p →
      p.answer call = (i, q) →
      p.Adds call.added i q ∧
      (∃ entry, q.get i = .ok entry ∧ (Pool.after {} calls).get i = .ok entry) ∧
      (call.added.isCode = true → i ∉ Pool.indices {} before ∧ i ∉ q.indices later)) ∧
    (∀ i j c d, (Pool.after {} calls).get i = .ok c → (Pool.after {} calls).get j = .ok d →
      c.isCode = false → c.equal d = true → i = j) ∧
    (Pool.after {} calls).Finds (Pool.after {} calls).symbol .symbol .symbol ∧
    (Pool.after {} calls).Finds (Pool.after {} calls).expr .expr .expr ∧
    (Pool.after {} calls).Finds (Pool.after {} calls).code .code .code ∧
    (Pool.after {} calls).Finds (Pool.after {} calls).strings .strings .strings ∧
    (Pool.after {} calls).Finds (Pool.after {} calls).labelTable .labelTable .labelTable := by
  refine ⟨?_, fun i j c d get get' plain equal => ?_, finds_symbol _, finds_expr _, finds_code _,
    finds_strings _, finds_labelTable _⟩
  · rintro before call later p i q rfl rfl answers
    have whole : Pool.after {} (before ++ call :: later) = q.after later := by
      rw [after_append, after, answers]
    rw [whole] at small ⊢
    have smaller : q.size < UInt32.size := Nat.lt_of_le_of_lt (size_le_after q later) small
    rw [answer_eq_add] at answers
    have added : ((Pool.after {} before).add call.added).2.size < UInt32.size := by rwa [answers]
    have adds : (Pool.after {} before).Adds call.added i q := by
      have adds := adds_add added
      rwa [answers] at adds
    obtain ⟨d, get, -⟩ := exists_entry_add added
    rw [answers] at get
    refine ⟨adds, ⟨d, get_eq_ok_iff.mpr get, get_eq_ok_iff.mpr (entry_after get later)⟩,
      fun code => ?_⟩
    obtain ⟨index, entries⟩ := adds.stored (.inl code)
    have less : (Pool.after {} before).size < q.size := by simp [size, entries]
    refine ⟨fun mem => ?_, ?_⟩
    · have lt := lt_size_of_mem_indices (Nat.lt_trans less smaller) mem
      exact Nat.ne_of_lt lt index
    · refine not_mem_indices_of_code (d := call.added) ?_ code small
      rw [index, entries, size, List.getElem?_concat_length]
  · have distinct : (Pool.after {} calls).Distinct := distinct_after List.Pairwise.nil calls
    exact PoolIndex.toNat_inj
      (distinct.eq_of_equal (get_eq_ok_iff.mp get) (get_eq_ok_iff.mp get') plain equal)

def zero : Constant := .real ⟨0⟩

def negativeZero : Constant := .real ⟨0x8000000000000000⟩

def notANumber : Constant := .real ⟨0x7ff8000000000000⟩

/-- Code is stored twice and so is a NaN; the two zeros are stored once. -/
def mixedAdds : List AddCall :=
  [.code ⟨none, [], []⟩, .constant zero, .code ⟨none, [], []⟩, .constant negativeZero,
    .constant notANumber, .constant notANumber, .symbol "x"]

/-- The second unit gets an index of its own, although the same unit was there. -/
theorem adds_share_constants_mixedAdds : (Pool.after {} mixedAdds).size < UInt32.size ∧
    ∃ i q, (Pool.after {} (mixedAdds.take 2)).answer (.code ⟨none, [], []⟩) = (i, q) ∧
      i ∉ Pool.indices {} (mixedAdds.take 2) ∧ i ∉ q.indices (mixedAdds.drop 3) := by
  have small : (Pool.after {} mixedAdds).size < UInt32.size := by decide
  obtain ⟨steps, -⟩ := adds_share_constants mixedAdds small
  refine ⟨small, _, _, rfl, ?_⟩
  exact (steps (mixedAdds.take 2) (.code ⟨none, [], []⟩) (mixedAdds.drop 3) _ _ _
    rfl rfl rfl).2.2 rfl

namespace Pool

/-- A constant is a zero, and the pool holds the zero of the other sign. -/
def HoldsOtherZero (p : Pool) (c : Constant) : Prop :=
  ∃ x y, c = .real x ∧ .real y ∈ p.entries ∧ x.isZero = true ∧ y.isZero = true ∧ x ≠ y

variable {p : Pool} {c : Constant}

theorem Stores.not_holdsOtherZero (stores : p.Stores c) : ¬p.HoldsOtherZero c := by
  rintro ⟨x, y, rfl, mem, zero, zero', -⟩
  rcases stores with code | unequal
  · cases code
  · have equal := Constant.equal_iff.mpr (.inr ⟨y, x, rfl, rfl, zero', zero⟩)
    simp [unequal _ mem] at equal

theorem Distinct.not_holdsOtherZero {n : Nat} (distinct : p.Distinct)
    (get : p.entries[n]? = some c) : ¬p.HoldsOtherZero c := by
  rintro ⟨x, y, rfl, mem, zero, zero', ne⟩
  obtain ⟨m, get'⟩ := List.getElem?_of_mem mem
  have equal := Constant.equal_iff.mpr (.inr ⟨x, y, rfl, rfl, zero, zero'⟩)
  obtain rfl := distinct.eq_of_equal get get' rfl equal
  exact ne (Constant.real.inj (Option.some.inj (get.symm.trans get')))

end Pool

/-- An added constant is found unchanged, bit for bit, unless it is a zero and the pool held the
zero of the other sign: then that zero is found. -/
theorem add_keeps_constant_iff (calls : List AddCall) (c : Constant)
    (small : ((Pool.after {} calls).add c).2.size < UInt32.size) :
    ∃ d, ((Pool.after {} calls).add c).2.get ((Pool.after {} calls).add c).1 = .ok d ∧
      d.kind = c.kind ∧ (d = c ↔ ¬(Pool.after {} calls).HoldsOtherZero c) ∧
      (d ≠ c → ∃ x y, c = .real x ∧ d = .real y ∧ x.isZero = true ∧ y.isZero = true) := by
  have distinct : (Pool.after {} calls).Distinct := distinct_after List.Pairwise.nil calls
  obtain ⟨d, get, how⟩ := exists_entry_add small
  have zeros : d ≠ c → ∃ x y, c = .real x ∧ d = .real y ∧ x.isZero = true ∧ y.isZero = true ∧
      d ∈ (Pool.after {} calls).entries := by
    intro ne
    rcases how with ⟨-, same⟩ | ⟨-, equal, before⟩
    · exact absurd same ne
    · rcases Constant.equal_iff.mp equal with ⟨same, -⟩ | ⟨y, x, isReal, isReal', zero', zero⟩
      · exact absurd same ne
      · exact ⟨x, y, isReal', isReal, zero, zero', List.mem_of_getElem? before⟩
  refine ⟨d, get_eq_ok_iff.mpr get, ?_, ⟨?_, fun none => ?_⟩, fun ne => ?_⟩
  · rcases how with ⟨-, rfl⟩ | ⟨-, equal, -⟩
    · rfl
    · exact Constant.kind_eq_of_equal equal
  · rintro rfl
    rcases how with ⟨stores, -⟩ | ⟨-, -, before⟩
    · exact stores.not_holdsOtherZero
    · exact distinct.not_holdsOtherZero before
  · refine Decidable.byContradiction fun ne => none ?_
    obtain ⟨x, y, rfl, rfl, zero, zero', mem⟩ := zeros ne
    exact ⟨x, y, rfl, mem, zero, zero', fun same => ne (same ▸ rfl)⟩
  · obtain ⟨x, y, isReal, isReal', zero, zero', -⟩ := zeros ne
    exact ⟨x, y, isReal, isReal', zero, zero'⟩

/-- A NaN is kept, although it does not equal the one that was there. -/
theorem add_keeps_constant_iff_notANumber :
    ((Pool.after {} [.constant zero, .constant notANumber]).add notANumber).2.size < UInt32.size ∧
    ((Pool.after {} [.constant zero, .constant notANumber]).add notANumber).2.get
      ((Pool.after {} [.constant zero, .constant notANumber]).add notANumber).1 =
        .ok notANumber := by
  have small : ((Pool.after {} [.constant zero, .constant notANumber]).add notANumber).2.size <
      UInt32.size := by decide
  obtain ⟨d, get, -, keeps, -⟩ := add_keeps_constant_iff _ notANumber small
  refine ⟨small, get.trans (congrArg _ (keeps.mpr ?_))⟩
  rintro ⟨x, y, isReal, -, isZero, -⟩
  cases isReal
  cases isZero

/-- The negative zero is found as the other one. -/
theorem negativeZero_shares_zero :
    ((Pool.after {} [.constant zero]).add negativeZero).2.get
      ((Pool.after {} [.constant zero]).add negativeZero).1 = .ok zero ∧ zero ≠ negativeZero :=
  ⟨rfl, by decide⟩

end StackLift
