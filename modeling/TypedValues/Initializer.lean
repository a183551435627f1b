import TypedValues.Error

/-!
Initializers: the input from which values are constructed and assigned. An initializer is a single
operand, or a list of initializers that may carry member names.
-/

namespace TypedValues

/-- A typed producer of values, told apart from others by its number. The outcome is what an evaluation gives, and it
is one fixed answer: a host is assumed to answer alike each time, as staging may evaluate an expression several times
in one call. What is proved of refusals, of policies and of how often expressions are evaluated rests on this. -/
structure Expression where
  number : Nat
  declared : Ty
  outcome : Except Error Snapshot

/-- An expression that gives the same constructed value each time. -/
def Expression.constant (number : Nat) (value : Snapshot) : Except Error Expression :=
  match value.content with
  | some _ => .ok ⟨number, value.type, .ok value⟩
  | none => .error (.dataAt value.type.path .constantUnconstructed)

inductive Operand where
  | literal (l : Literal)
  | value (v : Snapshot)
  | item (r : ItemRef)
  | expression (e : Expression)

mutual

inductive Initializer where
  | operand (o : Operand)
  | list (entries : List InitEntry)

structure InitEntry where
  name : Option String
  initializer : Initializer

end

def hasNames (entries : List InitEntry) : Bool := entries.any (·.name.isSome)

def Operand.offer : Operand → Offer
  | literal l => .literal l
  | value v => .value v.type.path
  | item r => .itemInput r.path
  | expression e => .expression e.declared.path

def Initializer.offer : Initializer → Offer
  | operand o => o.offer
  | list entries => .list entries.length

/-- What a value is staged from: an operand that stands for the whole value, or entries. -/
inductive Input where
  | whole (o : Operand)
  | entries (entries : List InitEntry)

mutual

/-- Removes the brackets around a list that is the only entry of a list. -/
def peel : List InitEntry → List InitEntry
  | [e] => peelEntry e
  | entries => entries

def peelEntry : InitEntry → List InitEntry
  | ⟨none, i⟩ => peelOnly i
  | e => [e]

def peelOnly : Initializer → List InitEntry
  | .list inner => peel inner
  | .operand o => [⟨none, .operand o⟩]

end

def Input.ofList (entries : List InitEntry) : Input := .entries (peel entries)

def Initializer.input : Initializer → Input
  | operand o => .whole o
  | list entries => .ofList entries

end TypedValues
