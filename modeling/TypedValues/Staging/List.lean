import TypedValues.Staging.Operand

/-!
Staging from initializer lists. No entries ask for the default. A lone entry may stand for the whole
value; several entries are components, members or elements. An optional passes a list on to its
inner type, and a variant takes the first alternative that accepts it.
-/

namespace TypedValues

def componentLiterals (t : Ty) : List InitEntry → Except Error (List Literal)
  | [] => .ok []
  | ⟨_, .operand (.literal l)⟩ :: rest => return l :: (← componentLiterals t rest)
  | ⟨_, i⟩ :: _ => .error (.incompatible t.path i.offer)

/-- Stages elements in order, with their events; an error tells the position it arose at. -/
def attemptElements {σ α : Type} (stage : σ → Attempt Error α) (i : Nat) :
    List σ → Attempt Error (List α)
  | [] => pure []
  | s :: rest => do
    let a ← (stage s).under (.element i)
    return a :: (← attemptElements stage (i + 1) rest)

def stageComponents (t : Ty) (n : Nat) (entries : List InitEntry) :
    Except Error (Content Ty) :=
  if entries.length = n ∧ !hasNames entries then do
    stageLiteral t (.list (← componentLiterals t entries))
  else .error (.dataAt t.path (.notSingle entries.length))

/-- No entries, and a lone operand that stands for the whole value, need no look at the shape. -/
def settled? (t : Ty) (entries : List InitEntry) : Option (Attempt Error (Content Ty)) :=
  match entries with
  | [] => some (defaultContent t)
  | [⟨none, .operand o⟩] => if standsForWhole t o then some (stageOperand t o) else none
  | _ => none

mutual

def stage (t : Ty) (input : Input) : Attempt Error (Content Ty) :=
  match input with
  | .whole o => stageOperand t o
  | .entries entries =>
    match settled? t entries with
    | some settled => settled
    | none =>
      match t with
      | ⟨_, _, _, .integral _ n, _, _⟩ => stageComponents t n entries
      | ⟨_, _, _, .real _ n, _, _⟩ => stageComponents t n entries
      | ⟨_, _, _, .optional (some inner), _, _⟩ =>
        return .optional (some ⟨inner, ← stage inner (.entries entries)⟩)
      | ⟨_, _, _, .variant alternatives, _, _⟩ => do
        match ← stageAlternatives alternatives 0 (.entries entries) with
        | some content => return content
        | none => Attempt.fail (.dataAt t.path (.noAlternativeForList entries.length))
      | ⟨_, _, _, .struct _ members, _, _⟩ => do
        let slots ← memberSlots t members (entries.map fun e => (e.name, e.initializer))
        return .struct (← stageMembers members slots)
      | ⟨_, _, _, .array (some element), _, _⟩ =>
        if hasNames entries then Attempt.fail (.dataAt t.path (.notSingle entries.length))
        else return .array (← attemptElements
          (fun e => return ⟨element, ← stage element e.initializer.input⟩) 0 entries)
      | _ => Attempt.fail (.dataAt t.path (.notSingle entries.length))
termination_by structural t

/-- The first alternative that accepts the input, with the events of those before it. -/
def stageAlternatives (alternatives : List Ty) (i : Nat) (input : Input) :
    Attempt Error (Option (Content Ty)) :=
  match alternatives with
  | [] => pure none
  | t :: rest => do
    match ← (stage t input).trial with
    | some content => return some (.variant i ⟨t, content⟩)
    | none => stageAlternatives rest (i + 1) input
termination_by structural alternatives

def stageMembers (members : List Member) (slots : List (Option Initializer)) :
    Attempt Error (List (Node Ty)) :=
  match members with
  | [] => pure []
  | ⟨symbol, type, default⟩ :: rest => do
    let node ← Attempt.under (.member symbol.path) (match slots.head?.join with
      | some i => return ⟨type, ← stage type i.input⟩
      | none => Member.defaultNode ⟨symbol, type, default⟩)
    return node :: (← stageMembers rest slots.tail)
termination_by structural members

end

section

variable {t : Ty} {es : List InitEntry}

theorem settled?_eq_some {x : Attempt Error (Content Ty)} (h : settled? t es = some x) :
    (es = [] ∧ x = liftM (defaultContent t)) ∨
      ∃ o, es = [⟨none, .operand o⟩] ∧ standsForWhole t o = true ∧ x = stageOperand t o := by
  unfold settled? at h
  split at h
  next => cases h; exact .inl ⟨rfl, rfl⟩
  next o =>
    split at h
    next hwhole => cases h; exact .inr ⟨o, rfl, hwhole, rfl⟩
    next => cases h
  next => cases h

theorem stage_whole (t : Ty) (o : Operand) : stage t (.whole o) = stageOperand t o := by
  rw [stage.eq_def]

theorem stage_nil (t : Ty) : stage t (.entries []) = liftM (defaultContent t) := by
  rw [stage.eq_def]
  rfl

theorem stage_lone {o : Operand} (h : standsForWhole t o = true) :
    stage t (.entries [⟨none, .operand o⟩]) = stageOperand t o := by
  rw [stage.eq_def]
  simp only [settled?, h, if_true]

end

section

variable {t : Ty} {es : List InitEntry} (h : settled? t es = none)

include h

theorem stage_variant {us : List Ty} (hs : t.shape = .variant us) : stage t (.entries es) = (do
    match ← stageAlternatives us 0 (.entries es) with
    | some content => return content
    | none => Attempt.fail (.dataAt t.path (.noAlternativeForList es.length))) := by
  rcases t with ⟨_, _, _, _, _, _⟩
  cases hs
  rw [stage.eq_def]
  simp only [h]

theorem stage_struct {base : Option Ty} {members : List Member} (hs : t.shape = .struct base members) :
    stage t (.entries es) = (do
      let slots ← memberSlots t members (es.map fun e => (e.name, e.initializer))
      return .struct (← stageMembers members slots)) := by
  rcases t with ⟨_, _, _, _, _, _⟩
  cases hs
  rw [stage.eq_def]
  simp only [h]

end

/-- What staging for a type comes to, by what it is staged from. -/
inductive StageCase (t : Ty) : Input → Attempt Error (Content Ty) → Prop where
  | whole (o : Operand) : StageCase t (.whole o) (stageOperand t o)
  | default : StageCase t (.entries []) (liftM (defaultContent t))
  | lone {o : Operand} (h : standsForWhole t o = true) :
      StageCase t (.entries [⟨none, .operand o⟩]) (stageOperand t o)
  | components {n : Nat} (hs : t.shape.components? = some n) (es : List InitEntry) :
      StageCase t (.entries es) (liftM (stageComponents t n es))
  | optional {u : Ty} (hs : t.shape = .optional (some u)) (es : List InitEntry) :
      StageCase t (.entries es) (do return .optional (some ⟨u, ← stage u (.entries es)⟩))
  | variant {us : List Ty} (hs : t.shape = .variant us) (es : List InitEntry) : StageCase t (.entries es) (do
      match ← stageAlternatives us 0 (.entries es) with
      | some content => return content
      | none => Attempt.fail (.dataAt t.path (.noAlternativeForList es.length)))
  | struct {base : Option Ty} {members : List Member} (hs : t.shape = .struct base members) (es : List InitEntry) :
      StageCase t (.entries es) (do
        let slots ← memberSlots t members (es.map fun e => (e.name, e.initializer))
        return .struct (← stageMembers members slots))
  | array {u : Ty} (hs : t.shape = .array (some u)) {es : List InitEntry} (hnames : hasNames es = false) :
      StageCase t (.entries es) (do
        return .array (← attemptElements (fun e => return ⟨u, ← stage u e.initializer.input⟩) 0 es))
  | refused (es : List InitEntry) :
      StageCase t (.entries es) (Attempt.fail (.dataAt t.path (.notSingle es.length)))

theorem stage_cases (t : Ty) (input : Input) : StageCase t input (stage t input) := by
  cases input with
  | whole o =>
    rw [stage_whole]
    exact .whole o
  | entries es =>
    cases h : settled? t es with
    | some x =>
      rcases settled?_eq_some h with ⟨rfl, -⟩ | ⟨o, rfl, hwhole, -⟩
      · rw [stage_nil]
        exact .default
      · rw [stage_lone hwhole]
        exact .lone hwhole
    | none =>
      rcases t with ⟨_, _, _, shape, _, _⟩
      rw [stage.eq_def]
      simp only [h]
      cases shape with
      | bool | string | enum => exact .refused es
      | integral | real => exact .components rfl es
      | optional argument =>
        cases argument with
        | none => exact .refused es
        | some u => exact .optional rfl es
      | variant us => exact .variant rfl es
      | struct base members => exact .struct rfl es
      | array argument =>
        cases argument with
        | none => exact .refused es
        | some u =>
          cases hnames : hasNames es with
          | true => exact .refused es
          | false => exact .array rfl hnames

def stageList (t : Ty) (entries : List InitEntry) : Attempt Error (Content Ty) :=
  stage t (.ofList entries)

/-- Stages new content for a value that holds `current`. A variant keeps its active alternative if
that one accepts the list. -/
def restage {α : Type} (t : Ty) (current : Content α) (entries : List InitEntry) :
    Attempt Error (Content Ty) :=
  match t.shape, current with
  | .variant alternatives, .variant active _ =>
    match alternatives[active]? with
    | some alternative => do
      match ← (stageList alternative entries).trial with
      | some content => return .variant active ⟨alternative, content⟩
      | none => stageList t entries
    | none => stageList t entries
  | _, _ => stageList t entries

end TypedValues
