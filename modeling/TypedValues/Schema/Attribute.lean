import TypedValues.Error

/-!
Attributes of types: the vocabulary of each kind, and what the attributes say about a type. The
bounds `min` and `max` narrow the range of a numeric type, `decimals` fixes the places of its texts.
-/

namespace TypedValues

namespace Definition

def attribute? (d : Definition) (key : String) : Option Attribute :=
  d.attributes.find? (·.name == key)

def literal? (d : Definition) (key : String) : Option Literal :=
  match d.attribute? key with
  | some ⟨_, .literal l⟩ => some l
  | _ => none

def shownName (d : Definition) : String :=
  ((d.literal? "ui_name").bind Literal.asText?).getD d.name

def nativeType? (d : Definition) : Option String :=
  (d.attribute? "native_type").map fun a =>
    match a.value with
    | .literal (.text s) => s
    | .literal l => l.shown
    | .symbol p => p.text

def intRange? (d : Definition) : Option (Int × Int) :=
  match d.shape with
  | .integral kind _ =>
    some (((d.literal? "min").bind Literal.asInt?).getD kind.bounds.1,
      ((d.literal? "max").bind Literal.asInt?).getD kind.bounds.2)
  | _ => none

def realRange? (d : Definition) : Option (Real64 × Real64) :=
  match d.shape with
  | .real kind _ =>
    some (((d.literal? "min").bind Literal.asReal?).getD kind.largest.neg,
      ((d.literal? "max").bind Literal.asReal?).getD kind.largest)
  | _ => none

def decimals? (d : Definition) : Option Nat :=
  match (d.literal? "decimals").bind Literal.asInt? with
  | some z => if IntKind.uint64.contains z then some z.toNat else none
  | none => none

/-- A bound is an integer of an integral type's kind, or any finite number for a real type. -/
def boundFault? (shape : Shape) (key : String) (literal : Option Literal) : Option SchemaCause :=
  match shape, literal with
  | .integral kind _, some (.int z) =>
    if kind.contains z then none else some (.attributeOutside key z kind)
  | .integral .., _ => some (.attributeExpects key "an integer")
  | .real .., some (.int _) => none
  | .real .., some (.real v) => if v.isFinite then none else some (.attributeNotFinite key)
  | .real .., _ => some (.attributeExpects key "a number")
  | shape, _ => some (.unknownAttribute key shape.kind)

/-- What is wrong with an attribute on a type of this shape. -/
def attributeFault? (shape : Shape) (a : Attribute) : Option SchemaCause :=
  let literal := match a.value with
    | .literal l => some l
    | .symbol _ => none
  match a.name with
  | "ui_name" =>
    match literal with
    | some (.text _) => none
    | _ => some (.attributeExpects "ui_name" "a string")
  | "native_type" =>
    match a.value with
    | .literal (.text _) | .symbol _ => none
    | .literal _ => some (.attributeExpects "native_type" "a string or a symbol")
  | "min" => boundFault? shape "min" literal
  | "max" => boundFault? shape "max" literal
  | "decimals" =>
    match shape, literal with
    | .real .., some (.int z) =>
      if 0 ≤ z ∧ z ≤ maxDecimals then none
      else some (.attributeExpects "decimals" s!"an integer in 0..={maxDecimals}")
    | .real .., _ => some (.attributeExpects "decimals" s!"an integer in 0..={maxDecimals}")
    | shape, _ => some (.unknownAttribute "decimals" shape.kind)
  | key => some (.unknownAttribute key shape.kind)

def checkAttribute (d : Definition) (a : Attribute) : Except Error Unit :=
  match attributeFault? d.shape a with
  | some cause => .error (.schemaAt d.path cause)
  | none => .ok ()

/-- Integers are compared as such, all other bounds as reals. -/
def ordered (shape : Shape) (min max : Literal) : Bool :=
  match shape with
  | .integral .. =>
    match min.asInt?, max.asInt? with
    | some lo, some hi => lo ≤ hi
    | lo, _ => lo.isNone
  | _ =>
    match min.asReal?, max.asReal? with
    | some lo, some hi => lo.le hi
    | lo, _ => lo.isNone

/-- The bounds as they would be with `a` among the attributes. -/
def rangeFault? (d : Definition) (a : Attribute) : Option SchemaCause :=
  let literal := match a.value with
    | .literal l => some l
    | .symbol _ => none
  let bounds := match a.name with
    | "min" => (literal, d.literal? "max")
    | "max" => (d.literal? "min", literal)
    | _ => (none, none)
  match bounds with
  | (some min, some max) => if ordered d.shape min max then none else some (.minAboveMax min max)
  | _ => none

/-- Stores an attribute that fits the kind, is new, and keeps the range in order. -/
def addAttribute (d : Definition) (a : Attribute) : Except Error Definition := do
  d.checkAttribute a
  if (d.attribute? a.name).isSome then throw (.schemaAt d.path (.attributeRepeated a.name))
  if let some cause := d.rangeFault? a then throw (.schemaAt d.path cause)
  return { d with attributes := d.attributes ++ [a] }

end Definition

namespace Ty

def intRange? (t : Ty) : Option (Int × Int) := t.definition.intRange?

def realRange? (t : Ty) : Option (Real64 × Real64) := t.definition.realRange?

end Ty

end TypedValues
