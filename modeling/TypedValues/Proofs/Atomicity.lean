import TypedValues.Proofs.Reachable

/-! Changes are atomic. Everything that can fail comes before the session is touched: walking to the
target and staging the edit leave events in the log but call no observer, at any depth and also where
the error of an alternative is dropped. What comes after cannot fail. -/

namespace TypedValues

variable {α : Type} [HasType α]

theorem stageSnapshot_quiet (t : Ty) (v : Snapshot) : (stageSnapshot t v).Quiet := by
  unfold stageSnapshot
  split
  · exact Attempt.quiet_violate _ _
  · exact Attempt.quiet_ofExcept _

theorem stageOperand_quiet (t : Ty) (o : Operand) : (stageOperand t o).Quiet := by
  cases o with
  | literal l => exact Attempt.quiet_ofExcept _
  | value v => exact stageSnapshot_quiet t v
  | item r => exact Attempt.quiet_ofExcept _
  | expression e =>
    refine Attempt.Quiet.bind (.bind (Attempt.quiet_record ?_) fun _ => Attempt.quiet_ofExcept _)
      fun v => stageSnapshot_quiet t v
    simp [Event.observer?]

theorem attemptElements_quiet {σ τ : Type} {f : σ → Attempt Error τ} {i : Nat} {xs : List σ}
    (h : ∀ x ∈ xs, (f x).Quiet) : (attemptElements f i xs).Quiet := by
  induction xs generalizing i with
  | nil => exact Attempt.quiet_pure _
  | cons x xs ih =>
    rw [List.forall_mem_cons] at h
    exact (h.1.mapError _).bind fun y => (ih h.2).bind fun ys => Attempt.quiet_pure _

theorem stageAlternatives_quiet {alternatives : List Ty} {i : Nat} {input : Input}
    (h : ∀ u ∈ alternatives, (stage u input).Quiet) :
    (stageAlternatives alternatives i input).Quiet := by
  induction alternatives generalizing i with
  | nil => exact Attempt.quiet_pure _
  | cons u rest ih =>
    rw [List.forall_mem_cons] at h
    rw [stageAlternatives]
    apply h.1.trial.bind
    intro found
    cases found with
    | some c => exact Attempt.quiet_pure _
    | none => exact ih h.2

theorem stageMembers_quiet {ms : List Member} {slots : List (Option Initializer)}
    (h : ∀ m ∈ ms, ∀ input, (stage m.type input).Quiet) : (stageMembers ms slots).Quiet := by
  induction ms generalizing slots with
  | nil => exact Attempt.quiet_pure _
  | cons m ms ih =>
    simp only [List.forall_mem_cons] at h
    rcases m with ⟨symbol, type, default⟩
    rw [stageMembers]
    refine Attempt.Quiet.bind (.mapError ?_ _) fun n => (ih h.2).bind fun ns => Attempt.quiet_pure _
    split
    · exact (h.1 _).bind fun c => Attempt.quiet_pure _
    · exact Attempt.quiet_ofExcept _

theorem stage_quiet (t : Ty) (input : Input) : (stage t input).Quiet := by
  induction t using Ty.inductOn generalizing input with
  | step t ih =>
    have hcase := stage_cases t input
    generalize stage t input = x at hcase ⊢
    cases hcase with
    | whole | lone => exact stageOperand_quiet t _
    | default => exact Attempt.quiet_ofExcept _
    | components => exact Attempt.quiet_ofExcept _
    | optional hs => exact (ih _ (Ty.component_optional hs) _).bind fun c => Attempt.quiet_pure _
    | variant hs =>
      refine (stageAlternatives_quiet fun u hu => ih u (Ty.component_variant hs hu) _).bind fun found => ?_
      cases found with
      | none => exact Attempt.quiet_fail _
      | some c => exact Attempt.quiet_pure _
    | struct hs =>
      exact (Attempt.quiet_ofExcept _).bind fun slots =>
        (stageMembers_quiet fun m hm input => ih _ (Ty.component_struct hs hm) input).bind fun ns =>
          Attempt.quiet_pure _
    | array hs =>
      refine (attemptElements_quiet fun e _ => ?_).bind fun ns => Attempt.quiet_pure _
      exact (ih _ (Ty.component_array hs) _).bind fun c => Attempt.quiet_pure _
    | refused => exact Attempt.quiet_fail _

theorem restage_quiet {β : Type} (t : Ty) (current : Content β) (es : List InitEntry) :
    (restage t current es).Quiet := by
  unfold restage
  split
  · split
    · apply (stage_quiet _ _).trial.bind
      intro found
      cases found with
      | some c => exact Attempt.quiet_pure _
      | none => exact stage_quiet _ _
    · exact stage_quiet _ _
  · exact stage_quiet _ _

theorem ignoredFields_quiet (t : Ty) (ms : List Member) (fields : List Field) :
    ∀ e ∈ ignoredFields t ms fields, e.observer? = none := by
  induction fields with
  | nil => simp [ignoredFields]
  | cons f rest ih =>
    rw [ignoredFields]
    split
    · exact ih
    · exact List.forall_mem_cons.2 ⟨rfl, ih⟩

theorem decodeAlternative_quiet {t : Ty} {alternatives : List Ty} {i : Nat} {d : Document}
    (h : ∀ u ∈ alternatives, (decode u d).Quiet) :
    (decodeAlternative t alternatives i d).Quiet := by
  induction alternatives generalizing i with
  | nil => rw [decodeAlternative]; exact Attempt.quiet_fail _
  | cons a rest ih =>
    rw [List.forall_mem_cons] at h
    cases i with
    | zero => rw [decodeAlternative]; exact h.1.bind fun c => Attempt.quiet_pure _
    | succ i => rw [decodeAlternative]; exact ih h.2

theorem decodeMembers_quiet {ms : List Member} {fields : List Field}
    (h : ∀ m ∈ ms, ∀ d, (decode m.type d).Quiet) : (decodeMembers ms fields).Quiet := by
  induction ms with
  | nil => exact Attempt.quiet_pure _
  | cons m ms ih =>
    simp only [List.forall_mem_cons] at h
    rcases m with ⟨symbol, type, default⟩
    rw [decodeMembers]
    refine Attempt.Quiet.bind (.mapError ?_ _) fun n => (ih h.2).bind fun ns => Attempt.quiet_pure _
    split
    · exact (h.1 _).bind fun c => Attempt.quiet_pure _
    · exact Attempt.quiet_ofExcept _

theorem decode_quiet (t : Ty) (d : Document) : (decode t d).Quiet := by
  induction t using Ty.inductOn generalizing d with
  | step t ih =>
    have hcase := decode_cases t d
    generalize decode t d = x at hcase ⊢
    cases hcase with
    | scalar | item | unexpected => exact Attempt.quiet_ofExcept _
    | null => exact Attempt.quiet_pure _
    | optional hs => exact (ih _ (Ty.component_optional hs) _).bind fun c => Attempt.quiet_pure _
    | variant hs =>
      exact (Attempt.quiet_ofExcept _).bind fun _ =>
        (decodeAlternative_quiet fun u hu => ih u (Ty.component_variant hs hu) _).bind fun n => Attempt.quiet_pure _
    | struct hs =>
      exact (Attempt.quiet_record (ignoredFields_quiet _ _ _)).bind fun _ =>
        (decodeMembers_quiet fun m hm d => ih _ (Ty.component_struct hs hm) d).bind fun ns => Attempt.quiet_pure _
    | array hs =>
      refine (attemptElements_quiet fun d _ => ?_).bind fun ns => Attempt.quiet_pure _
      exact (ih _ (Ty.component_array hs) d).bind fun c => Attempt.quiet_pure _
    | uninstantiated => exact Attempt.quiet_fail _

namespace Holder

variable {P : Event → Prop}

theorem memberIndex_emits (h : Holder α) (name : String) : (h.memberIndex name).Emits P := by
  unfold memberIndex
  split
  · exact Attempt.emits_fail _
  · split
    · exact Attempt.emits_pure _
    · exact Attempt.emits_fail _

section

variable (hP : ∀ path v, P (.violation path v))

include hP

theorem constructed_emits (h : Holder α) : h.constructed.Emits P := by
  unfold constructed
  split
  · exact Attempt.emits_pure _
  · exact Attempt.emits_violate (hP _ _)

theorem elements_emits (h : Holder α) : h.elements.Emits P := by
  apply (h.constructed_emits hP).bind
  intro c
  split
  · exact Attempt.emits_pure _
  · exact Attempt.emits_fail _

theorem element_emits (h : Holder α) (i : Nat) : (h.element i).Emits P := by
  apply (h.elements_emits hP).bind
  intro es
  split
  · exact Attempt.emits_pure _
  · exact Attempt.emits_fail _

theorem member_emits (h : Holder α) (i : Nat) : (h.member i).Emits P := by
  apply Attempt.Emits.bind ((h.constructed_emits hP).bind fun c => ?_)
  intro ms
  · split
    · exact Attempt.emits_pure _
    · exact Attempt.emits_fail _
  · split
    · exact Attempt.emits_pure _
    · exact Attempt.emits_fail _

theorem optionalValue_emits (h : Holder α) : h.optionalValue.Emits P := by
  apply (h.constructed_emits hP).bind
  intro c
  split
  · exact Attempt.emits_pure _
  · exact Attempt.emits_fail _

theorem variantValue_emits (h : Holder α) : h.variantValue.Emits P := by
  apply (h.constructed_emits hP).bind
  intro c
  split
  · exact Attempt.emits_pure _
  · exact Attempt.emits_fail _

theorem locate_emits (h : Holder α) (s : Selector) : (h.locate s).Emits P := by
  induction s generalizing h with
  | nil => exact Attempt.emits_pure _
  | cons step rest ih =>
    refine Attempt.Emits.bind ?_ fun p => (ih p.2.holder).bind fun q => Attempt.emits_pure _
    refine (h.constructed_emits hP).bind fun c => (Attempt.emits_ofExcept _).bind fun _ => ?_
    split
    · exact Attempt.emits_pure _
    · exact Attempt.emits_fail _

theorem locateKind_emits (h : Holder α) (s : Selector) (kind : Kind) :
    (h.locateKind s kind).Emits P := by
  refine (h.locate_emits hP s).bind fun p => Attempt.Emits.bind ?_ fun _ => Attempt.emits_pure _
  unfold checkKind
  split
  · exact Attempt.emits_pure _
  · exact Attempt.emits_fail _

theorem reach_emits (h : Holder α) (a : Access) : (h.reach a).Emits P := by
  cases a with
  | select s => exact (h.locate_emits hP s).mapError _
  | selectKind s kind => exact (h.locateKind_emits hP s kind).mapError _
  | member i => exact ((h.member_emits hP i).mapError _).bind fun n => Attempt.emits_pure _
  | name n =>
    exact ((h.memberIndex_emits n).mapError _).bind fun i =>
      ((h.member_emits hP i).mapError _).bind fun n => Attempt.emits_pure _
  | optional =>
    apply ((h.optionalValue_emits hP).mapError _).bind
    intro inner
    split
    · exact Attempt.emits_pure _
    · exact Attempt.emits_fail _
  | variant => exact ((h.variantValue_emits hP).mapError _).bind fun n => Attempt.emits_pure _
  | element i => exact ((h.element_emits hP i).mapError _).bind fun n => Attempt.emits_pure _

theorem reachAll_emits (h : Holder α) (walk : List Access) : (h.reachAll walk).Emits P := by
  induction walk generalizing h with
  | nil => exact Attempt.emits_pure _
  | cons a rest ih =>
    exact (h.reach_emits hP a).bind fun p => (ih p.2).bind fun q => Attempt.emits_pure _

end

theorem constructed_quiet (h : Holder α) : h.constructed.Quiet := h.constructed_emits fun _ _ => rfl

theorem elements_quiet (h : Holder α) : h.elements.Quiet := h.elements_emits fun _ _ => rfl

theorem reachAll_quiet (h : Holder α) (walk : List Access) : (h.reachAll walk).Quiet :=
  h.reachAll_emits (fun _ _ => rfl) walk

theorem ensureUnconstructed_quiet (h : Holder α) : h.ensureUnconstructed.Quiet := by
  unfold ensureUnconstructed
  split
  · exact Attempt.quiet_violate _ _
  · exact Attempt.quiet_pure _

theorem stageCopy_quiet (h : Holder α) (other : Snapshot) : (h.stageCopy other).Quiet := by
  unfold stageCopy
  split
  · exact Attempt.quiet_violate _ _
  · split
    · exact Attempt.quiet_pure _
    · exact Attempt.quiet_fail _

theorem stageInsert_quiet (h : Holder α) (index : Nat) : (h.stageInsert index).Quiet := by
  apply h.elements_quiet.bind
  intro es
  have element : (do
      let element ← h.elementType .insertDefault
      return .insert index ⟨element, ← defaultContent element⟩ : Attempt Error Edit).Quiet := by
    refine Attempt.Quiet.bind ?_ fun u => (Attempt.quiet_ofExcept _).bind fun c =>
      Attempt.quiet_pure _
    unfold elementType
    split
    · exact Attempt.quiet_pure _
    · exact Attempt.quiet_fail _
  simp only
  split
  · exact (Attempt.quiet_fail _).bind fun _ => element
  · exact element

theorem stageAlternative_quiet (h : Holder α) (index : Nat) : (h.stageAlternative index).Quiet := by
  apply h.constructed_quiet.bind
  intro c
  split
  · split
    · exact Attempt.quiet_pure _
    · split
      · exact (Attempt.quiet_ofExcept _).bind fun c => Attempt.quiet_pure _
      · exact Attempt.quiet_fail _
  · exact Attempt.quiet_fail _

theorem stageChange_quiet (h : Holder α) (c : Change) : (h.stageChange c).Quiet := by
  cases c with
  | construct es =>
    exact h.ensureUnconstructed_quiet.bind fun _ => (stage_quiet _ _).bind fun c =>
      Attempt.quiet_pure _
  | copyConstruct v =>
    exact h.ensureUnconstructed_quiet.bind fun _ => (h.stageCopy_quiet v).bind fun c =>
      Attempt.quiet_pure _
  | assign es =>
    exact h.constructed_quiet.bind fun current => (restage_quiet _ current _).bind fun c =>
      Attempt.quiet_pure _
  | copyAssign v =>
    exact h.constructed_quiet.bind fun _ => (h.stageCopy_quiet v).bind fun c => Attempt.quiet_pure _
  | deserialize d =>
    exact h.constructed_quiet.bind fun _ => (decode_quiet _ d).bind fun c => Attempt.quiet_pure _
  | parseUi text =>
    exact h.constructed_quiet.bind fun _ => (Attempt.quiet_ofExcept _).bind fun c =>
      Attempt.quiet_pure _
  | pushDefault =>
    exact h.elements_quiet.bind fun es => (h.stageInsert_quiet _).bind fun e => Attempt.quiet_pure _
  | insertDefault index => exact (h.stageInsert_quiet index).bind fun e => Attempt.quiet_pure _
  | remove index =>
    apply h.elements_quiet.bind
    intro es
    simp only
    split
    · exact (Attempt.quiet_fail _).bind fun _ => Attempt.quiet_pure _
    · exact Attempt.quiet_pure _
  | setActiveAlternative index =>
    exact (h.stageAlternative_quiet index).bind fun e => Attempt.quiet_pure _

end Holder

/-- Going on from an attempt: either it gave nothing, and its trace is all that is left of it, or the
rest runs in the same session. -/
theorem Action.attempt_bind_cases {ε β γ : Type} (x : Attempt ε β) (f : β → Action ε γ)
    (s : Session) :
    (((liftM x >>= f : Action ε γ).run s).1 = s ∧
      ((liftM x >>= f : Action ε γ).run s).2.trace = (x.run s.policy).trace ∧
      (∀ c, ((liftM x >>= f : Action ε γ).run s).2.outcome ≠ .ok c) ∧
      ∀ b, (x.run s.policy).outcome ≠ .ok b) ∨
    ∃ b, (x.run s.policy).outcome = .ok b ∧ (liftM x >>= f : Action ε γ).run s =
      (((f b).run s).1, ⟨(x.run s.policy).trace ++ ((f b).run s).2.trace, ((f b).run s).2.outcome⟩) := by
  have hbind : (liftM x >>= f : Action ε γ) = (Action.attempt x).bind f := rfl
  rcases h : x.run s.policy with ⟨trace, b | e | e⟩ <;>
    simp [hbind, Action.bind, Action.attempt, h]

namespace Session

theorem run_renew_true (s : Session) : ((renew true).run s).1 = { s with
    space := .withBuiltins s.nextIdentity
    nextIdentity := s.nextIdentity + Namespace.builtins.length } := rfl

theorem addScope_cases (s : Session) (parent : ScopeId) (name : String) (label : Option String) :
    ((addScope parent name label).run s).1 = s ∨
    ∃ id space, s.space.addScope parent name = .ok (id, space) ∧
      ((addScope parent name label).run s).1 = { s with space, scopes := s.scopes.keep label id } := by
  rcases Action.attempt_bind_cases (Attempt.ofExcept (s.space.addScope parent name)) (fun p => do
      Action.set { s with space := p.2, scopes := s.scopes.keep label p.1 }
      return p.1 : _ → Action Error ScopeId) s with ⟨hs, -⟩ | ⟨⟨id, space⟩, hadd, hs⟩
  · exact .inl hs
  · exact .inr ⟨id, space, Attempt.ofExcept_eq_ok.1 hadd, congrArg Prod.fst hs⟩

/-- The definition leaves its table, whatever comes of it. -/
theorem addType_cases (s : Session) (draft : String) (d : Definition) (scope : ScopeId) (label : Option String) :
    (((addType draft d scope label).run s).1 = s.dropDraft draft ∧
      ∀ t, ((addType draft d scope label).run s).2.outcome ≠ .ok t) ∨
    ∃ t space, ((s.space.addType scope d s.nextIdentity).run s.policy).outcome = .ok (t, space) ∧
      ((addType draft d scope label).run s).1 = { s.dropDraft draft with
        space, nextIdentity := s.nextIdentity + 1, types := s.types.keep label t } ∧
      ((addType draft d scope label).run s).2.outcome = .ok t := by
  rcases Action.attempt_bind_cases (s.space.addType scope d s.nextIdentity) (fun p => do
      Action.set { s.dropDraft draft with
        space := p.2, nextIdentity := s.nextIdentity + 1, types := s.types.keep label p.1 }
      return p.1 : _ → Action Error Ty) (s.dropDraft draft) with ⟨hs, -, hfail, -⟩ | ⟨⟨t, space⟩, hadd, hs⟩
  · exact .inl ⟨hs, hfail⟩
  · exact .inr ⟨t, space, hadd, congrArg Prod.fst hs, congrArg (·.2.outcome) hs⟩

theorem sealType_cases (s : Session) (draft : String) (d : Definition) (label : String) :
    (((sealType draft d label).run s).1 = s.dropDraft draft ∧
      ∀ t, ((sealType draft d label).run s).2.outcome ≠ .ok t) ∨
    ∃ t, d.sealed s.nextIdentity = .ok t ∧
      ((sealType draft d label).run s).1 = { s.dropDraft draft with
        nextIdentity := s.nextIdentity + 1, types := s.types.put label t } ∧
      ((sealType draft d label).run s).2.outcome = .ok t := by
  rcases Action.attempt_bind_cases (Attempt.ofExcept (d.sealed s.nextIdentity)) (fun t => do
      Action.set { s.dropDraft draft with
        nextIdentity := s.nextIdentity + 1, types := s.types.put label t }
      return t : _ → Action Error Ty) (s.dropDraft draft) with ⟨hs, -, hfail, -⟩ | ⟨t, hseal, hs⟩
  · exact .inl ⟨hs, hfail⟩
  · exact .inr ⟨t, Attempt.ofExcept_eq_ok.1 hseal, congrArg Prod.fst hs, congrArg (·.2.outcome) hs⟩

def called (trace : List Event) : List Observer := trace.filterMap Event.observer?

theorem called_of_quiet {trace : List Event} (h : ∀ e ∈ trace, e.observer? = none) :
    called trace = [] := List.filterMap_eq_nil_iff.2 h

theorem called_append (t₁ t₂ : List Event) : called (t₁ ++ t₂) = called t₁ ++ called t₂ :=
  List.filterMap_append

theorem run_change_of_none {s : Session} {label : String} (h : s.values.get? label = none)
    (walk : List Access) (c : Change) :
    (change label walk c).run s = (s, ⟨[], .error .noValue⟩) := by
  simp only [change, bind, Action.bind, Action.get, h]
  rfl

theorem run_change_of_some {s : Session} {label : String} {v : Value}
    (h : s.values.get? label = some v) (walk : List Access) (c : Change) :
    (change label walk c).run s =
      (liftM (v.reachAll walk) >>= fun p => liftM (p.2.stageChange c).toStray >>= fun r => do
        let done := v.commit p.1 r.1 s.signals
        Action.set { s with signals := done.signals, values := s.values.put label done.tree }
        Action.record done.events
        return r.2 : Action Stray (Option Nat)).run s := by
  simp only [change, bind, Action.bind, Action.get, h]
  rfl

/-- All of a change that can fail: its target is reached and its edit staged. -/
def prepare (v : Value) (walk : List Access) (c : Change) : Attempt Stray (Location × Edit × Option Nat) := do
  let (location, target) ← v.reachAll walk
  let (edit, position) ← (target.stageChange c).toStray
  return (location, edit, position)

/-- A change is prepared, and then carried out if nothing was in its way. -/
theorem run_change {s : Session} {label : String} {v : Value} (h : s.values.get? label = some v)
    (walk : List Access) (c : Change) : (change label walk c).run s =
      match (prepare v walk c).run s.policy with
      | ⟨trace, .ok (location, edit, position)⟩ =>
        let done := v.commit location edit s.signals
        ({ s with signals := done.signals, values := s.values.put label done.tree },
          ⟨trace ++ done.events, .ok position⟩)
      | ⟨trace, .error e⟩ => (s, ⟨trace, .error e⟩)
      | ⟨trace, .panic e⟩ => (s, ⟨trace, .panic e⟩) := by
  have hbind {β γ : Type} (x : Attempt Stray β) (f : β → Action Stray γ) :
      (liftM x >>= f : Action Stray γ) = (Action.attempt x).bind f := rfl
  rw [run_change_of_some h, prepare, Attempt.run_bind]
  simp only [hbind, Action.bind, Action.attempt, Result.andThen]
  rcases hreach : (v.reachAll walk).run s.policy with ⟨trace, ⟨location, target⟩ | e | e⟩
  · rcases hstage : (target.stageChange c).toStray.run s.policy with ⟨trace', ⟨edit, position⟩ | e | e⟩
    · simp only [hstage, Attempt.run_bind, Result.andThen, Attempt.run_pure]
      refine Prod.ext rfl ?_
      -- the commit records its events last, and setting the session leaves none
      have hlast : trace ++ (trace' ++ ([] ++ ((v.commit location edit s.signals).events ++ []))) =
          trace ++ (trace' ++ []) ++ (v.commit location edit s.signals).events := by simp
      exact congrArg (fun t => (⟨t, .ok position⟩ : Result Stray _)) hlast
    · simp only [hstage, Attempt.run_bind, Result.andThen]
    · simp only [hstage, Attempt.run_bind, Result.andThen]
  · rfl
  · rfl

/-- What a change does to the session: nothing, with no observer called and no position given, or all
of it, after its target was reached and its edit staged. When these succeed, so does the change. -/
theorem change_cases (s : Session) (label : String) (walk : List Access) (c : Change) :
    (((change label walk c).run s).1 = s ∧ called ((change label walk c).run s).2.trace = [] ∧
      (∀ position, ((change label walk c).run s).2.outcome ≠ .ok position) ∧
      ∀ v location target, s.values.get? label = some v →
        ((v.reachAll walk).run s.policy).outcome = .ok (location, target) →
        ∀ r, ((target.stageChange c).run s.policy).outcome ≠ .ok r) ∨
    ∃ v location target edit position, s.values.get? label = some v ∧
      ((v.reachAll walk).run s.policy).outcome = .ok (location, target) ∧
      ((target.stageChange c).run s.policy).outcome = .ok (edit, position) ∧
      ((change label walk c).run s).1 = { s with
        signals := (v.commit location edit s.signals).signals
        values := s.values.put label (v.commit location edit s.signals).tree } ∧
      called ((change label walk c).run s).2.trace =
        called (v.commit location edit s.signals).events ∧
      ((change label walk c).run s).2.outcome = .ok position := by
  cases hv : s.values.get? label with
  | none =>
    rw [run_change_of_none hv]
    exact .inl ⟨rfl, rfl, by simp, by simp⟩
  | some v =>
    rw [run_change_of_some hv]
    have hwalk := called_of_quiet (v.reachAll_quiet walk s.policy)
    rcases Action.attempt_bind_cases (v.reachAll walk) _ s with
      ⟨hs, htrace, hfail, hstray⟩ | ⟨⟨location, target⟩, hreach, hrun⟩
    · refine .inl ⟨hs, by rw [htrace, hwalk], hfail, fun u location target hu hreach => ?_⟩
      obtain rfl := Option.some.inj hu
      exact absurd hreach (hstray _)
    · rw [hrun]
      simp only [called_append, hwalk, List.nil_append]
      have hstage : called ((target.stageChange c).toStray.run s.policy).trace = [] :=
        called_of_quiet ((target.stageChange_quiet c).mapError _ s.policy)
      rcases Action.attempt_bind_cases (target.stageChange c).toStray _ s with
        ⟨hs, htrace, hfail, hrefused⟩ | ⟨⟨edit, position⟩, hedit, hrun⟩
      · refine .inl ⟨hs, by rw [htrace, hstage], hfail, fun u location' target' hu hreach' r hr => ?_⟩
        obtain rfl := Option.some.inj hu
        cases hreach.symm.trans hreach'
        exact absurd (Result.mapError_eq_ok.2 hr) (hrefused r)
      · refine .inr ⟨v, location, target, edit, position, rfl, hreach, Result.mapError_eq_ok.1 hedit, ?_⟩
        rw [hrun]
        refine ⟨rfl, ?_, rfl⟩
        -- the commit records its events last, and setting the session leaves none
        have hlast : ∀ events : List Event, called (events ++ []) = called events := by simp
        rw [called_append, hstage, List.nil_append]
        exact hlast _

/-- A change that gives an error or a panic leaves the session as it was, with all content, signals,
observers and parents, and calls no observer. -/
theorem change_atomic {s : Session} {label : String} {walk : List Access} {c : Change}
    (hfail : ∀ position, ((change label walk c).run s).2.outcome ≠ .ok position) :
    ((change label walk c).run s).1 = s ∧
      ∀ o, .notified o ∉ ((change label walk c).run s).2.trace := by
  rcases change_cases s label walk c with ⟨hs, hquiet, -⟩ | ⟨v, location, target, edit, position, h⟩
  · refine ⟨hs, fun o ho => ?_⟩
    have hcalled : o ∈ called ((change label walk c).run s).2.trace :=
      List.mem_filterMap.2 ⟨_, ho, rfl⟩
    rw [hquiet] at hcalled
    cases hcalled
  · exact absurd h.2.2.2.2.2 (hfail position)

/-- A text is refused for the flag of the lamp, which leaves the lamp as it was. -/
theorem change_atomic_lit : lit.Reachable ∧
    (∃ e, ((change "desk" [] (.set (.list [.text "on"]))).run lit).2.outcome = .error e) ∧
    ((change "desk" [] (.set (.list [.text "on"]))).run lit).1 = lit := by
  have herror : ∃ e, ((change "desk" [] (.set (.list [.text "on"]))).run lit).2.outcome = .error e :=
    ⟨_, rfl⟩
  refine ⟨lit_reachable, herror, (change_atomic fun position hok => ?_).1⟩
  obtain ⟨e, he⟩ := herror
  rw [hok] at he
  cases he

end Session

end TypedValues
