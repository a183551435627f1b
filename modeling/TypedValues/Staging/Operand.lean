import TypedValues.Attempt
import TypedValues.Initializer
import TypedValues.Staging.Literal

/-!
Staging from operands: literals, typed values, enum items and expressions. A value is copied where
its type is compatible with the target; an optional wraps it, a variant takes it as the alternative
of its type.
-/

namespace TypedValues

/-- Copies content of type `source` into a value of type `t`, whatever its range. -/
def stageTyped (t source : Ty) (content : Content Ty) (offer : Offer) :
    Except Error (Content Ty) :=
  if source.compatible t then .ok content
  else match t.shape with
    | .optional (some inner) =>
      if source.compatible inner then .ok (.optional (some ⟨inner, content⟩))
      else .error (.incompatible t.path offer)
    | .variant alternatives =>
      match alternatives.findIdx? (·.compatible source) with
      | some i =>
        match alternatives[i]? with
        | some alternative => .ok (.variant i ⟨alternative, content⟩)
        | none => .error (.incompatible t.path offer)
      | none => .error (.incompatible t.path offer)
    | _ => .error (.incompatible t.path offer)

/-- An operand that is not constructed breaks the protocol. -/
def stageSnapshot (t : Ty) (v : Snapshot) : Attempt Error (Content Ty) :=
  match v.content with
  | none => Attempt.violate v.type.path .unconstructedOperand
  | some content => stageTyped t v.type content (.type v.type.path)

def evaluate (e : Expression) : Attempt Error Snapshot := do
  Attempt.emit (.evaluated e.number)
  e.outcome

def stageOperand (t : Ty) : Operand → Attempt Error (Content Ty)
  | .literal l => stageLiteral t l
  | .value v => stageSnapshot t v
  | .item r => stageTyped t r.type (.item r.index) (.item r.path)
  | .expression e => do stageSnapshot t (← evaluate e)

/-- Whether a lone operand stands for the whole value, and not for its first member or element. -/
def standsForWhole (t : Ty) (o : Operand) : Bool :=
  match t.shape with
  | .struct .. | .array _ =>
    match o with
    | .literal (.list _) => true
    | .literal _ => false
    | .value v => v.type.compatible t
    | .item _ => false
    | .expression e => e.declared.compatible t
  | _ => true

end TypedValues
