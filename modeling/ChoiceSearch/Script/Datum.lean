import ChoiceSearch.Env
import ChoiceSearch.Program

/-!
# The data of scripts

Scripts compute with data of their own (`Datum`), and hand data to the search
under a native type (`Native`). A variable or an item is found only under the
type it was stored with; a datum stored as such has the type `any`.
-/

namespace ChoiceSearch.Script

/-- A datum of a script. -/
inductive Datum (R : Type) where
  /-- The unit. -/
  | unit
  /-- A truth value. -/
  | bool (b : Bool)
  /-- An integer of 64 bits. -/
  | int (i : Int64)
  /-- A scalar. -/
  | float (x : R)
  /-- A text. -/
  | str (s : String)
  /-- A list. -/
  | list (items : List (Datum R))

instance {R : Type} : Inhabited (Datum R) := ⟨.unit⟩

/-- The types under which data are stored. -/
inductive NativeType where
  /-- The unit type. -/
  | unit
  /-- Truth values. -/
  | bool
  /-- Integers of 64 bits. -/
  | int
  /-- Scalars. -/
  | float
  /-- Texts. -/
  | str
  /-- Lists of integers. -/
  | ints
  /-- Data of scripts. -/
  | any
deriving DecidableEq, Repr, Inhabited

/-- The name of a type in an error. -/
def NativeType.name : NativeType → String
  | .unit => "()"
  | .bool => "bool"
  | .int => "i64"
  | .float => "f64"
  | .str => "alloc::string::String"
  | .ints => "alloc::vec::Vec<i64>"
  | .any => "any"

/-- A datum under its native type. -/
inductive Native (R : Type) where
  /-- The unit. -/
  | unit
  /-- A truth value. -/
  | bool (b : Bool)
  /-- An integer. -/
  | int (i : Int64)
  /-- A scalar. -/
  | float (x : R)
  /-- A text. -/
  | str (s : String)
  /-- A list of integers. -/
  | ints (is : List Int64)
  /-- A datum of a script. -/
  | any (d : Datum R)

namespace Datum

variable {R : Type}

/-- Whether a datum is the true truth value. -/
def isTrue : Datum R → Bool
  | .bool b => b
  | _ => false

/-- The integer that a datum is. -/
def int? : Datum R → Option Int64
  | .int i => some i
  | _ => none

variable [Scalar R]

/-- The scalar that a datum denotes; zero if it is not a number. -/
def toScalar : Datum R → R
  | .float x => x
  | .int i => Scalar.ofInt i.toInt
  | _ => Scalar.zero

mutual

/-- Whether two data are equal: of the same kind and with equal contents, where
scalars are compared as numbers. -/
def same : Datum R → Datum R → Bool
  | .unit, .unit => true
  | .bool a, .bool b => a == b
  | .int a, .int b => a == b
  | .float a, .float b => Scalar.same a b
  | .str a, .str b => a == b
  | .list as, .list bs => sameAll as bs
  | _, _ => false

/-- Whether two lists of data are equal. -/
def sameAll : List (Datum R) → List (Datum R) → Bool
  | [], [] => true
  | a :: as, b :: bs => same a b && sameAll as bs
  | _, _ => false

end

instance : BEq (Datum R) := ⟨same⟩

end Datum

namespace Native

variable {R : Type}

/-- The type of a native datum. -/
def type : Native R → NativeType
  | .unit => .unit
  | .bool _ => .bool
  | .int _ => .int
  | .float _ => .float
  | .str _ => .str
  | .ints _ => .ints
  | .any _ => .any

/-- The datum that scripts see. -/
def toDatum : Native R → Datum R
  | .unit => .unit
  | .bool b => .bool b
  | .int i => .int i
  | .float x => .float x
  | .str s => .str s
  | .ints is => .list (is.map .int)
  | .any d => d

/-- A datum under a type. One that does not belong to the type stays as it is. -/
def ofDatum [Scalar R] : NativeType → Datum R → Native R
  | .unit, .unit => .unit
  | .bool, .bool b => .bool b
  | .int, .int i => .int i
  | .float, .float x => .float x
  | .float, .int i => .float (Scalar.ofInt i.toInt)
  | .str, .str s => .str s
  | .ints, .list items => .ints (items.filterMap Datum.int?)
  | _, d => .any d

/-- The tag made of a datum: an integer, a text or a truth value is a tag of its
own type, and anything else is the unit tag. -/
def ofTag : Datum R → Native R
  | .int i => .int i
  | .str s => .str s
  | .bool b => .bool b
  | _ => .unit

end Native

/-- The variable of the given name, which has to be stored under the given type. -/
def typedVar {R : Type} (env : Env (Native R) R) (name : String) (type : NativeType) :
    Except (Error R) (Native R) :=
  match env.get? name with
  | none => .error (.unboundVariable name)
  | some n => if n.type == type then .ok n else .error (.variableType name type.name)

/-- A value of a program as a datum. -/
def datumOf {R : Type} : Value (Native R) R → Datum R
  | .data d => d.toDatum
  | _ => .unit

end ChoiceSearch.Script
