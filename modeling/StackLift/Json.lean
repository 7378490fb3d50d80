/-!
JSON values, and the readers that the bytecode format is built from.

A number without a fraction is an `int`; a number written with a fraction keeps
its digits as `decimal mantissa exponent`, worth `mantissa / 10 ^ exponent`, and
no reader below accepts one. The members of an object keep their order, and a
look-up finds the first member of that name.
-/

namespace StackLift

inductive Json where
  | null
  | bool (b : Bool)
  | int (n : Int)
  | decimal (mantissa : Int) (exponent : Nat)
  | str (s : String)
  | arr (items : List Json)
  | obj (members : List (String × Json))

namespace Json

def ofOption {α : Type} (write : α → Json) : Option α → Json
  | none => .null
  | some a => write a

def ofList {α : Type} (write : α → Json) (items : List α) : Json :=
  .arr (items.map write)

def ofUInt32 (n : UInt32) : Json := .int n.toNat

def ofInt32 (n : Int32) : Json := .int n.toInt

/-- A variant with a payload is an object whose only member is named for it. -/
def tagged (tag : String) (payload : Json) : Json := .obj [(tag, payload)]

def null? : Json → Option Unit
  | .null => some ()
  | _ => none

def bool? : Json → Option Bool
  | .bool b => some b
  | _ => none

def str? : Json → Option String
  | .str s => some s
  | _ => none

/-- An integer of 32 bits without sign. -/
def uint32? : Json → Option UInt32
  | .int n => if 0 ≤ n ∧ n < 4294967296 then some (UInt32.ofNat n.toNat) else none
  | _ => none

/-- An integer of 32 bits with sign. -/
def int32? : Json → Option Int32
  | .int n => if -2147483648 ≤ n ∧ n < 2147483648 then some (Int32.ofInt n) else none
  | _ => none

/-- `null` reads as absent, and anything else by `read`. -/
def nullable? {α : Type} (read : Json → Option α) : Json → Option (Option α)
  | .null => some none
  | j => (read j).map some

def list? {α : Type} (read : Json → Option α) : Json → Option (List α)
  | .arr items => items.mapM read
  | _ => none

/-- The first member of that name; anything but an object has no members. -/
def member? (key : String) : Json → Option Json
  | .obj members => members.lookup key
  | _ => none

/-- A member that has to be there. -/
def field? {α : Type} (key : String) (read : Json → Option α) (j : Json) : Option α :=
  (j.member? key).bind read

/-- A member of an object that may be missing, which then counts as `null`. -/
def optionalField? {α : Type} (key : String) (read : Json → Option α) :
    Json → Option (Option α)
  | .obj members => nullable? read ((members.lookup key).getD .null)
  | _ => none

@[simp] theorem bool?_bool (b : Bool) : (Json.bool b).bool? = some b := rfl

@[simp] theorem str?_str (s : String) : (Json.str s).str? = some s := rfl

@[simp] theorem uint32?_ofUInt32 (n : UInt32) : (ofUInt32 n).uint32? = some n := by
  have bound := n.toNat_lt
  simp [ofUInt32, uint32?]
  omega

@[simp] theorem int32?_ofInt32 (n : Int32) : (ofInt32 n).int32? = some n := by
  have low := n.le_toInt
  have high := n.toInt_lt
  simp [ofInt32, int32?]
  omega

@[simp] theorem nullable?_null {α : Type} (read : Json → Option α) :
    nullable? read .null = some none := rfl

theorem nullable?_ofOption {α : Type} {read : Json → Option α} {write : α → Json}
    (back : ∀ a, read (write a) = some a) (live : ∀ a, write a ≠ .null) (o : Option α) :
    nullable? read (ofOption write o) = some o := by
  cases o with
  | none => rfl
  | some a =>
      have := live a
      have := back a
      simp only [ofOption]
      cases h : write a <;> simp_all [nullable?]

theorem list?_ofList {α : Type} {read : Json → Option α} {write : α → Json}
    (back : ∀ a, read (write a) = some a) (items : List α) :
    list? read (ofList write items) = some items := by
  simp only [list?, ofList]
  induction items with
  | nil => rfl
  | cons a items ih => simp [back, ih]

end Json

end StackLift
