import TypedValues.Proofs.Candor
import TypedValues.Proofs.Alias
import TypedValues.Proofs.Lossless

/-! The contract policy. A call of a host, which reads a part of a value or changes it, is run from one
session under either policy. The runs part only at a violation, where one of them panics; the other one
ends in an error and leaves the session alone. The error is the violation itself, unless a variant on
the way from a list hides it. -/

namespace TypedValues

theorem Edit.firstFault_commit (e : Edit) (cell : Cell) (current : Option (Content Cell)) (s : Signals) :
    firstFault (e.commit cell current s).events = none := by
  have notified (called : List Observer) : firstFault (notifications called) = none := by
    induction called with
    | nil => rfl
    | cons o rest ih => exact ih
  have announced (event : Event) (hevent : event.fault? = none) (s : Signals) :
      firstFault (announce cell event s) = none := by
    rw [announce, firstFault, List.findSome?_cons, hevent]
    exact notified _
  cases e with
  | install | keep => rfl
  | insert | remove => exact announced _ rfl _
  | replace content =>
    cases current with
    | none => rfl
    | some old =>
      simp only [commit, firstFault_append, notified, Option.none_or]
      split
      · exact announced _ rfl _
      · rfl

theorem Holder.firstFault_commit (v : Value) (location : Location) (e : Edit) (s : Signals) :
    firstFault (v.commit location e s).events = none := by
  unfold commit
  split
  · exact e.firstFault_commit _ _ _
  · rfl
  · simp only
    split
    · rfl
    · exact e.firstFault_commit _ _ _

/-- What a host can read off a part of a live value. -/
inductive Query : Type → Type
  | asBool : Query Bool
  | asInt : Query Int
  | asInts : Query (List Int)
  | asReal : Query Real64
  | asReals : Query (List Real64)
  | asText : Query String
  | enumItem : Query ItemRef
  | members : Query (List (Node Cell))
  | optionalValue : Query (Option (Node Cell))
  | variantIndex : Query Nat
  | variantValue : Query (Node Cell)
  | elements : Query (List (Node Cell))
  | isEqual (other : Value) : Query Bool
  | tryClone : Query Snapshot
  | document : Query Document
  | uiText : Query String
  /-- The part itself, to observe it or to take it as an operand. -/
  | part : Query Value

variable {β : Type}

def Query.ask (v : Value) : Query β → Attempt Error β
  | .asBool => v.asBool
  | .asInt => v.asInt
  | .asInts => v.asInts
  | .asReal => v.asReal
  | .asReals => v.asReals
  | .asText => v.asText
  | .enumItem => v.enumItem
  | .members => v.members
  | .optionalValue => v.optionalValue
  | .variantIndex => v.variantIndex
  | .variantValue => v.variantValue
  | .elements => v.elements
  | .isEqual other => v.isEqual other
  | .tryClone => v.tryClone
  | .document => do encode v.type (← v.snapshot.constructed)
  | .uiText => do UiText.write v.type (← v.snapshot.constructed)
  | .part => pure v

theorem Query.ask_candid (v : Value) (q : Query β) : (q.ask v).Candid .plain := by
  cases q with
  | asBool | asInt | asInts | asReal | asReals | asText | enumItem | variantIndex =>
    refine v.constructed_candid.bind fun c _ => ?_
    split
    · exact Attempt.candid_pure _
    · exact v.unsupported_candid _
  | members => exact v.members_candid
  | optionalValue => exact v.optionalValue_candid
  | variantValue => exact v.variantValue_candid
  | elements => exact v.elements_candid
  | isEqual other => exact v.isEqual_candid other
  | tryClone => exact v.constructed_candid.bind fun _ _ => Attempt.candid_pure _
  | document =>
    exact v.snapshot.constructed_candid.bind fun c _ =>
      Attempt.candid_of_agrees (encode_mirrors (.refl v.type) c)
  | uiText =>
    exact v.snapshot.constructed_candid.bind fun c _ =>
      Attempt.candid_of_agrees (UiText.write_agrees (.refl v.type) c)
  | part => exact Attempt.candid_pure _

inductive Call : Type → Type 1
  | read {β : Type} (q : Query β) : Call β
  | change (c : Change) : Call (Option Nat)

namespace Call

def lists : Call β → Bool
  | read _ => false
  | change c => c.lists

def operands : Call β → List Operand
  | read _ => []
  | change c => c.operands

end Call

namespace Session

def withPolicy (s : Session) (policy : Policy) : Session := { s with policy }

/-- Reads the part of a value that a walk from it arrives at. -/
def inspect (label : String) (walk : List Access) (q : Query β) : Action Stray β := do
  let s ← Action.get
  match s.values.get? label with
  | none => Action.fail .noValue
  | some v => (do (q.ask (← v.followAll walk)).toStray : Attempt Stray β)

theorem run_inspect_of_none {s : Session} {label : String} (h : s.values.get? label = none)
    (walk : List Access) (q : Query β) : (inspect label walk q).run s = (s, ⟨[], .error .noValue⟩) := by
  simp only [inspect, bind, Action.bind, Action.get, h]
  rfl

theorem run_inspect {s : Session} {label : String} {v : Value} (h : s.values.get? label = some v)
    (walk : List Access) (q : Query β) : (inspect label walk q).run s =
      (s, (v.followAll walk >>= fun target => (q.ask target).toStray).run s.policy) := by
  simp only [inspect, bind, Action.bind, Action.get, h]
  rfl

/-- The session after a call under the policy, and what came of it. -/
def call (s : Session) (label : String) (walk : List Access) (policy : Policy) :
    Call β → Session × Result Stray β
  | .read q => (inspect label walk q).run (s.withPolicy policy)
  | .change c => (change label walk c).run (s.withPolicy policy)

/-- The walk leads to a part whose type is a variant or has one in it. -/
def Chooses (s : Session) (label : String) (walk : List Access) : Prop :=
  ∃ location target, (s.withPolicy .report).Reaches label walk location target ∧ target.type.Chooses

/-- How the two runs of a call go together: what the policy decides, and what comes of a violation where
it does not panic. -/
structure Contract (s : Session) (label : String) (walk : List Access) (x : Call β) : Prop where
  reports : ∀ e, (s.call label walk .report x).2.outcome ≠ .panic e
  panics : ∀ e, (s.call label walk .panic x).2.outcome = .panic e ↔
    firstFault (s.call label walk .report x).2.trace = some e
  agrees : (∀ e, (s.call label walk .panic x).2.outcome ≠ .panic e) →
    (s.call label walk .panic x).2 = (s.call label walk .report x).2 ∧
    (s.call label walk .panic x).1 = (s.call label walk .report x).1.withPolicy .panic
  unchanged : ∀ e, (s.call label walk .panic x).2.outcome = .panic e →
    (s.call label walk .panic x).1 = s.withPolicy .panic ∧
    (s.call label walk .report x).1 = s.withPolicy .report
  /-- Only a choice among the alternatives for a list can put another error in the place of the violation. -/
  surfaces : ∀ e, (s.call label walk .panic x).2.outcome = .panic e →
    ∃ r, (s.call label walk .report x).2.outcome = .error (.error r) ∧
      (r = e ∨ (x.lists ∧ s.Chooses label walk) ∧ r.Hides)
  /-- A protocol error is a violation that panics, unless an expression of the host gave it. -/
  honest : ∀ path v, (s.call label walk .report x).2.outcome = .error (.error (.state path v)) →
    (s.call label walk .panic x).2.outcome = .panic (.state path v) ∨
      ∃ y, .expression y ∈ x.operands ∧ y.outcome = .error (.state path v)

/-- Where no list is chosen for and the host gives no protocol errors, panics and protocol errors are the
same. -/
theorem Contract.panics_iff {s : Session} {label : String} {walk : List Access} {x : Call β}
    (h : s.Contract label walk x) (hchoice : x.lists → ¬ s.Chooses label walk)
    (hhost : ∀ y, .expression y ∈ x.operands → ∀ path v, y.outcome ≠ .error (.state path v))
    (path : Path) (v : Violation) :
    (s.call label walk .panic x).2.outcome = .panic (.state path v) ↔
      (s.call label walk .report x).2.outcome = .error (.error (.state path v)) := by
  constructor
  · intro hpanic
    obtain ⟨r, hr, rfl | ⟨⟨hlists, hchooses⟩, -⟩⟩ := h.surfaces _ hpanic
    · exact hr
    · exact absurd hchooses (hchoice hlists)
  · intro herror
    rcases h.honest path v herror with hpanic | ⟨y, hy, hout⟩
    · exact hpanic
    · exact absurd hout (hhost y hy path v)

-- A call prepares in an attempt all of it that can fail, and carries it out then.
section

variable {s : Session} {label : String} {walk : List Access} {x : Call β} {γ : Type}

def finish (s : Session) (carry : γ → Session × List Event × β) (r : Result Stray γ) :
    Session × Result Stray β :=
  match r with
  | ⟨trace, .ok a⟩ => ((carry a).1, ⟨trace ++ (carry a).2.1, .ok (carry a).2.2⟩)
  | ⟨trace, .error e⟩ => (s, ⟨trace, .error e⟩)
  | ⟨trace, .panic e⟩ => (s, ⟨trace, .panic e⟩)

variable {carry : γ → Session × List Event × β} {r : Result Stray γ}

theorem finish_panics {e : Error} : (s.finish carry r).2.outcome = .panic e ↔ r.outcome = .panic e := by
  rcases r with ⟨trace, a | e' | e'⟩ <;> simp [finish]

theorem finish_fails {e : Stray} : (s.finish carry r).2.outcome = .error e ↔ r.outcome = .error e := by
  rcases r with ⟨trace, a | e' | e'⟩ <;> simp [finish]

theorem finish_unchanged (h : ∀ a, r.outcome ≠ .ok a) : (s.finish carry r).1 = s := by
  rcases r with ⟨trace, a | e | e⟩
  · exact absurd rfl (h a)
  · rfl
  · rfl

theorem firstFault_finish (hcarry : ∀ a, firstFault (carry a).2.1 = none) :
    firstFault (s.finish carry r).2.trace = firstFault r.trace := by
  rcases r with ⟨trace, a | e | e⟩
  · rw [finish, firstFault_append, hcarry, Option.or_none]
  · rfl
  · rfl

/-- What is candid in its preparation keeps the contract. -/
theorem contract_of_candid (carry : γ → Session × List Event × β) {c : Charge}
    {prepared : Attempt Stray γ} (hprepared : prepared.Candid c) (hcarry : ∀ a, firstFault (carry a).2.1 = none)
    (hcall : ∀ policy, s.call label walk policy x =
      ((s.finish carry (prepared.run policy)).1.withPolicy policy, (s.finish carry (prepared.run policy)).2))
    (hinstead : ∀ e, c.instead e → (x.lists ∧ s.Chooses label walk) ∧ e.Hides)
    (hhost : ∀ e, c.host e → ∃ y, .expression y ∈ x.operands ∧ y.outcome = .error e) :
    s.Contract label walk x := by
  have hpanics (e : Error) : (s.call label walk .panic x).2.outcome = .panic e ↔
      firstFault (prepared.run .report).trace = some e := by
    rw [hcall, finish_panics, hprepared.toHalts.panics_iff]
  have hsurfaces {e : Error} (he : (s.call label walk .panic x).2.outcome = .panic e) :
      ∃ r, (prepared.run .report).outcome = .error (.error r) ∧ (r = e ∨ c.instead r) := by
    obtain ⟨stray, hstray, r, hr, hrest⟩ := hprepared.surfaces e ((hpanics e).1 he)
    cases stray with
    | error r' => exact ⟨r', hstray, Option.some.inj hr ▸ hrest⟩
    | emptyOptional | noValue => cases hr
  refine ⟨?_, ?_, ?_, ?_, ?_, ?_⟩
  · intro e he
    rw [hcall, finish_panics] at he
    exact hprepared.reports e he
  · intro e
    rw [hpanics, hcall, firstFault_finish hcarry]
  · intro hnone
    have hunfaulted : firstFault (prepared.run .report).trace = none := by
      cases hfault : firstFault (prepared.run .report).trace with
      | none => rfl
      | some e => exact absurd ((hpanics e).2 hfault) (hnone e)
    rw [hcall, hcall, hprepared.agrees hunfaulted]
    exact ⟨rfl, rfl⟩
  · intro e he
    obtain ⟨r, hr, -⟩ := hsurfaces he
    rw [hcall, finish_panics] at he
    rw [hcall, hcall]
    refine ⟨congrArg (withPolicy · .panic) (finish_unchanged fun a ha => ?_),
      congrArg (withPolicy · .report) (finish_unchanged fun a ha => ?_)⟩
    · cases ha.symm.trans he
    · cases ha.symm.trans hr
  · intro e he
    obtain ⟨r, hr, hrest⟩ := hsurfaces he
    refine ⟨r, ?_, hrest.imp id (hinstead r)⟩
    rw [hcall]
    exact finish_fails.2 hr
  · intro path v he
    rw [hcall, finish_fails] at he
    rcases hprepared.honest _ path v he rfl with hfault | hfault
    · exact .inl ((hpanics _).2 hfault)
    · exact .inr (hhost _ hfault)

end

/-- All of a change that can fail is candid; a choice is one among the parts of the target. -/
theorem prepare_candid (v : Value) (walk : List Access) (c : Change) :
    (prepare v walk c).Candid (c.charge (∃ location target,
      ((v.reachAll walk).run .report).outcome = .ok (location, target) ∧ target.type.Chooses)) := by
  refine ((v.reachAll_candid walk).mono (c.plain_covers _)).bind fun p hp => ?_
  refine Attempt.Candid.bind (.toStray ?_) fun _ _ => Attempt.candid_pure _
  refine (p.2.stageChange_candid c).mono ⟨fun _ h => h, fun _ h => h, fun e he => ?_⟩
  exact ⟨⟨he.1.1, p.1, p.2, hp, he.1.2⟩, he.2⟩

def carryOut (s : Session) (label : String) (v : Value) (p : Location × Edit × Option Nat) :
    Session × List Event × Option Nat :=
  let done := v.commit p.1 p.2.1 s.signals
  ({ s with signals := done.signals, values := s.values.put label done.tree }, done.events, p.2.2)

/-- Every call keeps the contract, in every session. -/
theorem policy_contract (s : Session) (label : String) (walk : List Access) (x : Call β) :
    s.Contract label walk x := by
  cases hv : s.values.get? label with
  | none =>
    have hmissing (policy : Policy) :
        s.call label walk policy x = (s.withPolicy policy, ⟨[], .error .noValue⟩) := by
      cases x with
      | read q => exact run_inspect_of_none (s := s.withPolicy policy) hv walk q
      | change c => exact run_change_of_none (s := s.withPolicy policy) hv walk c
    have hfails : (Attempt.fail .noValue : Attempt Stray β).Candid .plain :=
      Attempt.candid_fail fun _ _ h => by cases h
    exact contract_of_candid (fun a => (s, [], a)) hfails (fun _ => rfl) hmissing
      (fun _ h => h.elim) fun _ h => h.elim
  | some v =>
    cases x with
    | read q =>
      have hcandid : (v.followAll walk >>= fun target => (q.ask target).toStray).Candid .plain :=
        (v.followAll_candid walk).bind fun target _ => (q.ask_candid target).toStray
      refine contract_of_candid (fun a => (s, [], a)) hcandid (fun _ => rfl) (fun policy => ?_)
        (fun _ h => h.elim) fun _ h => h.elim
      have hpolicy : (s.withPolicy policy).policy = policy := rfl
      rw [call, run_inspect (s := s.withPolicy policy) hv, hpolicy]
      rcases (v.followAll walk >>= fun target => (q.ask target).toStray).run policy with ⟨trace, a | e | e⟩
      · rw [finish, List.append_nil]
      · rfl
      · rfl
    | change c =>
      refine contract_of_candid (s.carryOut label v) (prepare_candid v walk c)
        (fun p => v.firstFault_commit _ _ _) (fun policy => ?_) (fun e he => ?_) fun _ h => h
      · have hpolicy : (s.withPolicy policy).policy = policy := rfl
        rw [call, run_change (s := s.withPolicy policy) hv, hpolicy]
        rcases (prepare v walk c).run policy with ⟨trace, ⟨location, edit, position⟩ | e | e⟩
        · rfl
        · rfl
        · rfl
      · obtain ⟨⟨hlists, location, target, hreach, hchooses⟩, hhides⟩ := he
        exact ⟨⟨hlists, location, target, ⟨v, hv, hreach⟩, hchooses⟩, hhides⟩

-- What is hidden: a socket takes a lamp or a flag, and a list names the flag of a lamp with one that is not
-- constructed. For a lamp, the same list gives the violation.
def socket : Definition :=
  { Definition.fresh "socket" (.variant []) with shape := .variant [lampType, boolType] }

def socketType : Ty := socket.withIdentity lit.nextIdentity

def loose : Session :=
  let known := ((sealType "socket" socket "socket").run lit).1
  ((known.create "flag" boolType).create "socket" socketType).create "lamp" lampType

theorem loose_reachable : loose.Reachable := by
  have hlamp {s : Session} (h : s.types.get? "lamp" = some lampType) : s.Knows lampType := .kept h
  have hbool {s : Session} (h : s.space.type? 0 = some boolType) : s.Knows boolType := .registered h
  have hsocket {s : Session} (h : s.types.get? "socket" = some socketType) : s.Knows socketType := .kept h
  have hbuilds : lit.Builds socket := by
    refine builds_template "socket" (.variant []) rfl [lampType, boolType] (fun t ht => ?_) rfl
    rcases List.mem_cons.1 ht with rfl | ht
    · exact hlamp rfl
    · rw [List.mem_singleton.1 ht]
      exact hbool rfl
  have hknown := lit_reachable.sealType hbuilds "socket"
  have hflag := hknown.step (.store (.blank (hbool rfl)) "flag")
  have hempty := hflag.step (.store (.blank (hsocket rfl)) "socket")
  exact hempty.step (.store (.blank (hlamp rfl)) "lamp")

def switched : Call (Option Nat) :=
  .change (.construct [⟨some "on", .operand (.value ⟨boolType, none⟩)⟩])

/-- One run panics with a violation, and the other one ends in an error that does not tell of it. -/
theorem violation_hidden : loose.Reachable ∧ loose.Has ⟨boolType, none⟩ ∧
    (loose.call "socket" [] .panic switched).2.outcome = .panic (.state boolType.path .unconstructedOperand) ∧
    (loose.call "socket" [] .report switched).2.outcome =
      .error (.error (.dataAt socketType.path (.noAlternativeForList 1))) ∧
    (loose.call "lamp" [] .report switched).2.outcome =
      .error (.error (.state boolType.path .unconstructedOperand)) := by
  have hflag : loose.values.get? "flag" = some ⟨⟨boolType, 2⟩, none⟩ := by rfl
  exact ⟨loose_reachable, .part (a := ⟨⟨boolType, 2⟩, none⟩) ⟨"flag", _, [], hflag, rfl⟩, rfl, rfl, rfl⟩

end Session

end TypedValues
