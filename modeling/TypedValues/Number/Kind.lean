import TypedValues.Number.Real64

/-!
Component kinds of numeric types: eight integral kinds with their bounds, and two real kinds with the
binary format their values are rounded to.
-/

namespace TypedValues

inductive IntKind where
  | int8 | uint8 | int16 | uint16 | int32 | uint32 | int64 | uint64
  deriving DecidableEq

namespace IntKind

/-- Every kind, in the order in which the builtin types are declared. -/
def all : List IntKind := [int8, uint8, int16, uint16, int32, uint32, int64, uint64]

def bounds : IntKind → Int × Int
  | int8 => (-128, 127)
  | uint8 => (0, 255)
  | int16 => (-32768, 32767)
  | uint16 => (0, 65535)
  | int32 => (-2147483648, 2147483647)
  | uint32 => (0, 4294967295)
  | int64 => (-9223372036854775808, 9223372036854775807)
  | uint64 => (0, 18446744073709551615)

def contains (k : IntKind) (z : Int) : Bool := k.bounds.1 ≤ z && z ≤ k.bounds.2

def name : IntKind → String
  | int8 => "int8"
  | uint8 => "uint8"
  | int16 => "int16"
  | uint16 => "uint16"
  | int32 => "int32"
  | uint32 => "uint32"
  | int64 => "int64"
  | uint64 => "uint64"

/-- Ending of the builtin vector types' names. -/
def suffix : IntKind → String
  | int8 => "s8"
  | uint8 => "u8"
  | int16 => "s16"
  | uint16 => "u16"
  | int32 => "s32"
  | uint32 => "u32"
  | int64 => "s64"
  | uint64 => "u64"

end IntKind

inductive RealKind where
  | single | double
  deriving DecidableEq

namespace RealKind

def all : List RealKind := [single, double]

def name : RealKind → String
  | single => "float"
  | double => "double"

def suffix : RealKind → String
  | single => "f"
  | double => "d"

def format : RealKind → Binary.Format
  | single => Binary.single
  | double => Binary.double

def quantize : RealKind → Real64 → Real64
  | single, v => v.toFormat Binary.single
  | double, v => v

def largest (k : RealKind) : Real64 := .ofUnits false k.format.largest

end RealKind

end TypedValues
