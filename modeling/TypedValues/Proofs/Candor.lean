import TypedValues.Proofs.Policy
import TypedValues.Proofs.Acceptance
import TypedValues.Proofs.Matching

/-! Whatever is asked of a value tells of violations. Reading it passes them on; and what a list is rejected
with is the violation of one of its operands, unless a variant stands between them: its alternatives are
tried in turn and their errors dropped, so that it has an error of its own to give. -/

namespace TypedValues

/-- The error that a variant gives when no alternative accepts a list. -/
def Error.Hides : Error → Prop
  | .data _ (.noAlternativeForList _) _ => True
  | _ => False

theorem Error.Hides.within {e : Error} (h : e.Hides) (site : Site) : (e.within site).Hides := by
  cases e with
  | data subject cause sites => cases cause <;> exact h
  | _ => exact h.elim

/-- The type is a variant, or one of its parts is. -/
inductive Ty.Chooses : Ty → Prop
  | variant {t : Ty} {alternatives : List Ty} (h : t.shape = .variant alternatives) : Chooses t
  | component {t u : Ty} (hu : u ∈ t.shape.components) (h : Chooses u) : Chooses t

/-- What staging from the operands may raise; only a choice gives another error for a violation. -/
def Charge.staging (os : List Operand) (choice : Prop) : Charge where
  own e := ∃ o ∈ os, o.fault? = some e
  host e := ∃ x, .expression x ∈ os ∧ x.outcome = .error e
  instead e := choice ∧ e.Hides
  within _ site h := ⟨h.1, h.2.within site⟩
  apart _ _ h := h.2

theorem Charge.staging_covers {os os' : List Operand} {p q : Prop} (hos : ∀ o ∈ os, o ∈ os') (hpq : p → q) :
    (staging os p).Covers (staging os' q) where
  own := fun _ ⟨o, ho, he⟩ => ⟨o, hos o ho, he⟩
  host := fun _ ⟨x, hx, he⟩ => ⟨x, hos _ hx, he⟩
  instead := fun _ ⟨h, he⟩ => ⟨hpq h, he⟩

theorem Holder.fault?_of_none {v : Snapshot} (h : v.content = none) :
    v.fault? = some (.state v.type.path .unconstructedOperand) := by
  rw [fault?, isConstructed, h]
  rfl

theorem stageSnapshot_candid {c : Charge} (t : Ty) {v : Snapshot} (h : ∀ e, v.fault? = some e → c.own e) :
    (stageSnapshot t v).Candid c := by
  unfold stageSnapshot
  split
  next hc => exact Attempt.candid_violate (h _ (Holder.fault?_of_none hc))
  next content hc =>
    exact Attempt.candid_of_agrees (stageTyped_agrees Content.congruence_matches (.refl t)
      (Ty.compatible_refl _) rfl _ (.type v.type.path))

theorem evaluate_candid {c : Charge} {x : Expression} (h : ∀ e, x.outcome = .error e → c.host e) :
    (evaluate x).Candid c :=
  (Attempt.candid_record rfl).bind fun _ _ => Attempt.candid_ofExcept fun _ _ hx => h _ hx

theorem evaluate_eq_ok {x : Expression} {p : Policy} {v : Snapshot}
    (h : ((evaluate x).run p).outcome = .ok v) : x.outcome = .ok v := by
  obtain ⟨_, -, h⟩ := Attempt.bind_eq_ok.1 h
  exact Attempt.ofExcept_eq_ok.1 h

theorem stageOperand_candid (t : Ty) {os : List Operand} {o : Operand} (ho : o ∈ os) (choice : Prop) :
    (stageOperand t o).Candid (.staging os choice) := by
  cases o with
  | literal l => exact Attempt.candid_of_agrees (stageLiteral_agrees (.refl t) l)
  | item r =>
    exact Attempt.candid_of_agrees (stageTyped_agrees Content.congruence_matches (.refl t)
      (Ty.compatible_refl _) rfl _ (.item r.path))
  | value v => exact stageSnapshot_candid t fun e he => ⟨_, ho, he⟩
  | expression x =>
    refine Attempt.Candid.bind (evaluate_candid fun e he => ⟨x, ho, he⟩) fun v hv =>
      stageSnapshot_candid t fun e he => ?_
    refine ⟨_, ho, ?_⟩
    rw [Operand.fault?, evaluate_eq_ok hv]
    exact he

theorem stageOperand_faulted (t : Ty) {o : Operand} {e : Error} (h : o.fault? = some e) :
    ((stageOperand t o).run .report).outcome = .error e := by
  have hsnapshot {v : Snapshot} (hv : v.fault? = some e) :
      ((stageSnapshot t v).run .report).outcome = .error e := by
    rw [Holder.fault?] at hv
    split at hv
    next => cases hv
    next hc =>
      have hnone : v.content = none := by simpa [Holder.isConstructed] using hc
      cases hv
      rw [stageSnapshot, hnone]
      rfl
  cases o with
  | literal | item => cases h
  | value v => exact hsnapshot h
  | expression x =>
    rw [Operand.fault?] at h
    split at h
    next v hv =>
      have hevaluate : ((evaluate x).run .report).outcome = .ok v :=
        Attempt.bind_eq_ok.2 ⟨(), rfl, Attempt.ofExcept_eq_ok.2 hv⟩
      exact (Attempt.report_bind hevaluate _).1.trans (hsnapshot h)
    next => cases h

section

variable {c : Charge}

theorem memberSlots_candid {σ : Type} (t : Ty) (ms : List Member) (es : List (Option String × σ)) :
    (liftM (memberSlots t ms es) : Attempt Error _).Candid c :=
  Attempt.candid_of_agrees (memberSlots_agrees_self t t (List.forall₂_same.2 fun m _ => .refl m) es)

theorem stageComponents_candid (t : Ty) (n : Nat) (es : List InitEntry) :
    (liftM (stageComponents t n es) : Attempt Error _).Candid c :=
  Attempt.candid_of_agrees (stageComponents_agrees Operand.interchange_matches (.refl t) n
    (InitEntry.AllMatch.refl es).related)

theorem attemptElements_candid {σ τ : Type} {f : σ → Attempt Error τ} {i : Nat} {xs : List σ}
    (h : ∀ x ∈ xs, (f x).Candid c) : (attemptElements f i xs).Candid c := by
  induction xs generalizing i with
  | nil => exact Attempt.candid_pure _
  | cons x xs ih =>
    rw [List.forall_mem_cons] at h
    exact (h.1.under _).bind fun _ _ => (ih h.2).bind fun _ _ => Attempt.candid_pure _

theorem stageMembers_candid {ms : List Member} {slots : List (Option Initializer)}
    (h : ∀ m ∈ ms, ∀ i, some i ∈ slots → (stage m.type i.input).Candid c) :
    (stageMembers ms slots).Candid c := by
  induction ms generalizing slots with
  | nil => exact Attempt.candid_pure _
  | cons m ms ih =>
    simp only [List.forall_mem_cons] at h
    rcases m with ⟨symbol, type, default⟩
    rw [stageMembers]
    refine Attempt.Candid.bind (.under ?_ _) fun _ _ =>
      (ih fun m hm i hi => h.2 m hm i (List.mem_of_mem_tail hi)).bind fun _ _ => Attempt.candid_pure _
    split
    next i hi =>
      refine (h.1 i ?_).bind fun _ _ => Attempt.candid_pure _
      rw [Option.join_eq_some_iff] at hi
      exact List.mem_of_mem_head? hi
    next => exact Attempt.candid_of_agrees (defaultNode_agrees (.refl ⟨symbol, type, default⟩))

/-- Alternatives that a violation spoils are passed over, and what spoils one of them spoils all that
come after it. -/
theorem stageAlternatives_drops {alternatives : List Ty} {i : Nat} {input : Input}
    (h : ∀ u ∈ alternatives, (stage u input).Candid c)
    (hown : ∀ e, c.own e → ∃ o ∈ input.operands, o.fault? = some e) :
    (stageAlternatives alternatives i input).Drops c := by
  induction alternatives generalizing i with
  | nil => exact Attempt.drops_pure _
  | cons u rest ih =>
    rw [List.forall_mem_cons] at h
    rw [stageAlternatives]
    refine h.1.trial.orElse (fun found => ?_) fun e he => ?_
    · cases found with
      | some content => exact Attempt.drops_pure _
      | none => exact ih h.2
    · obtain ⟨o, ho, hfault⟩ := hown e (h.1.trial (δ := Error) |>.blames e he)
      obtain ⟨found, hfound⟩ := (ih (i := i + 1) h.2).found
      cases found with
      | none => exact hfound
      | some content =>
        have haccepted := stageAlternatives_accepts (fun u _ => stage_accepts u input) .report _ hfound rfl
        cases hfault.symm.trans (haccepted o ho)

end

/-- Staging passes every violation on, except through a choice. -/
theorem stage_candid (t : Ty) (input : Input) : (stage t input).Candid (.staging input.operands t.Chooses) := by
  induction t using Ty.inductOn generalizing input with
  | step t ih =>
    have part {u : Ty} (hu : u ∈ t.shape.components) {os : List Operand} {input : Input}
        (hinput : ∀ o ∈ input.operands, o ∈ os) : (stage u input).Candid (.staging os t.Chooses) :=
      (ih u hu input).mono (Charge.staging_covers hinput (.component hu))
    have hcase := stage_cases t input
    generalize stage t input = x at hcase ⊢
    cases hcase with
    | whole | lone => exact stageOperand_candid t List.mem_cons_self _
    | default => exact Attempt.candid_of_agrees (defaultContent_agrees (.refl t))
    | components => exact stageComponents_candid _ _ _
    | optional hs => exact (part (Ty.component_optional hs) fun o ho => ho).bind fun _ _ => Attempt.candid_pure _
    | variant hs es =>
      have hdrops : (stageAlternatives _ 0 (.entries es)).Drops (.staging (Input.entries es).operands t.Chooses) :=
        stageAlternatives_drops (fun u hu => part (Ty.component_variant hs hu) fun o ho => ho) fun e he => he
      refine hdrops.orFail (fun found => ?_) fun e _ => ⟨_, rfl, _, rfl, .inr ⟨.variant hs, trivial⟩⟩
      cases found with
      | some content => exact Attempt.candid_pure _
      | none => exact Attempt.candid_refuse (by simp [Error.dataAt, Error.category])
    | struct hs es =>
      have hentries := Input.forall_operands_entries.1 fun o (ho : o ∈ (Input.entries es).operands) => ho
      refine (memberSlots_candid _ _ _).bind fun slots hslots =>
        (stageMembers_candid fun m hm i hi => ?_).bind fun _ _ => Attempt.candid_pure _
      obtain ⟨e, he, rfl⟩ := memberSlots_entry (Attempt.ofExcept_eq_ok.1 hslots) hi
      exact part (Ty.component_struct hs hm) (hentries e he)
    | @array _ hs es =>
      have hentries := Input.forall_operands_entries.1 fun o (ho : o ∈ (Input.entries es).operands) => ho
      refine (attemptElements_candid fun e he => ?_).bind fun _ _ => Attempt.candid_pure _
      exact (part (Ty.component_array hs) (hentries e he)).bind fun _ _ => Attempt.candid_pure _
    | refused => exact Attempt.candid_refuse (by simp [Error.dataAt, Error.category])

theorem stageList_candid (t : Ty) (es : List InitEntry) :
    (stageList t es).Candid (.staging (InitEntry.operandsAll es) t.Chooses) := by
  have hstage := stage_candid t (.ofList es)
  rwa [Input.operands_ofList] at hstage

/-- A variant rejects a list for the violation of an operand in it, or with the error of its own. -/
theorem stage_variant_faulted {t : Ty} {alternatives : List Ty} (hs : t.shape = .variant alternatives)
    {es : List InitEntry} {o : Operand} (ho : o ∈ InitEntry.operandsAll es) {e : Error} (he : o.fault? = some e) :
    ∃ r, ((stage t (.entries es)).run .report).outcome = .error r ∧ (r = e ∨ r.Hides) := by
  cases hsettled : settled? t es with
  | some x =>
    rcases settled?_eq_some hsettled with ⟨rfl, -⟩ | ⟨o', rfl, hwhole, -⟩
    · cases ho
    · obtain rfl : o = o' := by
        simpa [InitEntry.operandsAll, InitEntry.operands, Initializer.operands] using ho
      rw [stage_lone hwhole]
      exact ⟨e, stageOperand_faulted t he, .inl rfl⟩
  | none =>
    rw [stage_variant hsettled hs]
    have hdrops : (stageAlternatives alternatives 0 (.entries es)).Drops
        (.staging (Input.entries es).operands True) :=
      stageAlternatives_drops (fun u _ => (stage_candid u (.entries es)).mono
        (Charge.staging_covers (fun o ho => ho) fun _ => trivial)) fun e he => he
    obtain ⟨found, hfound⟩ := hdrops.found
    cases found with
    | none => exact ⟨_, (Attempt.report_bind hfound _).1, .inr trivial⟩
    | some content =>
      have haccepted := stageAlternatives_accepts (fun u _ => stage_accepts u (.entries es)) .report _ hfound rfl
      cases he.symm.trans (haccepted o ho)

/-- Assigning from a list drops the errors of the active alternative as well. -/
theorem restage_candid {β : Type} (t : Ty) (current : Content β) (es : List InitEntry) :
    (restage t current es).Candid (.staging (InitEntry.operandsAll es) t.Chooses) := by
  unfold restage
  split
  next alternatives active _ hs =>
    split
    next alternative halternative =>
      have hu := Ty.component_variant hs (List.mem_of_getElem? halternative)
      have hactive := (stageList_candid alternative es).mono
        (Charge.staging_covers (fun o ho => ho) (Ty.Chooses.component hu))
      refine hactive.trial.orFail (fun found => ?_) fun e he => ?_
      · cases found with
        | some content => exact Attempt.candid_pure _
        | none => exact stageList_candid t es
      · obtain ⟨o, ho, hfault⟩ := hactive.trial (δ := Error) |>.blames e he
        rw [← operandsAll_peel] at ho
        obtain ⟨r, hr, hrest⟩ := stage_variant_faulted hs ho hfault
        exact ⟨r, hr, r, rfl, hrest.imp id fun h => ⟨.variant hs, h⟩⟩
    next => exact stageList_candid t es
  next => exact stageList_candid t es

section

variable {c : Charge}

theorem firstFault_ignoredFields (t : Ty) (ms : List Member) (fields : List Field) :
    firstFault (ignoredFields t ms fields) = none := by
  induction fields with
  | nil => rfl
  | cons f rest ih =>
    rw [ignoredFields]
    split
    · exact ih
    · exact ih

theorem decodeAlternative_candid {t : Ty} {alternatives : List Ty} {i : Nat} {d : Document}
    (h : ∀ u ∈ alternatives, (decode u d).Candid c) : (decodeAlternative t alternatives i d).Candid c := by
  induction alternatives generalizing i with
  | nil =>
    rw [decodeAlternative]
    exact Attempt.candid_refuse (by simp [Error.dataAt, Error.category])
  | cons a rest ih =>
    rw [List.forall_mem_cons] at h
    cases i with
    | zero => rw [decodeAlternative]; exact h.1.bind fun _ _ => Attempt.candid_pure _
    | succ i => rw [decodeAlternative]; exact ih h.2

theorem decodeMembers_candid {ms : List Member} {fields : List Field}
    (h : ∀ m ∈ ms, ∀ d, (decode m.type d).Candid c) : (decodeMembers ms fields).Candid c := by
  induction ms with
  | nil => exact Attempt.candid_pure _
  | cons m ms ih =>
    simp only [List.forall_mem_cons] at h
    rcases m with ⟨symbol, type, default⟩
    rw [decodeMembers]
    refine Attempt.Candid.bind (.under ?_ _) fun _ _ => (ih h.2).bind fun _ _ => Attempt.candid_pure _
    split
    · exact (h.1 _).bind fun _ _ => Attempt.candid_pure _
    · exact Attempt.candid_of_agrees (defaultNode_agrees (.refl ⟨symbol, type, default⟩))

theorem decode_candid (t : Ty) (d : Document) : (decode t d).Candid c := by
  induction t using Ty.inductOn generalizing d with
  | step t ih =>
    have hcase := decode_cases t d
    generalize decode t d = x at hcase ⊢
    cases hcase with
    | scalar hs d => exact Attempt.candid_of_agrees (decodeScalar_agrees (.refl t) d)
    | item hs d => exact Attempt.candid_of_agrees (decodeItem_agrees t t _ d)
    | null => exact Attempt.candid_pure _
    | optional hs => exact (ih _ (Ty.component_optional hs) _).bind fun _ _ => Attempt.candid_pure _
    | variant hs fields =>
      exact (Attempt.candid_of_agrees (variantFields_agrees t t _ fields)).bind fun _ _ =>
        (decodeAlternative_candid fun u hu => ih u (Ty.component_variant hs hu) _).bind fun _ _ =>
          Attempt.candid_pure _
    | struct hs fields =>
      exact (Attempt.candid_record (firstFault_ignoredFields _ _ _)).bind fun _ _ =>
        (decodeMembers_candid fun m hm d => ih _ (Ty.component_struct hs hm) d).bind fun _ _ =>
          Attempt.candid_pure _
    | array hs =>
      refine (attemptElements_candid fun d _ => ?_).bind fun _ _ => Attempt.candid_pure _
      exact (ih _ (Ty.component_array hs) d).bind fun _ _ => Attempt.candid_pure _
    | uninstantiated => exact Attempt.candid_refuse (by simp [Error.schemaAt, Error.category])
    | unexpected => exact Attempt.candid_refuse (by simp [Error.dataAt, Error.category])

end

variable {α : Type} [HasType α]

section

variable {c : Charge}

theorem stepFrom_candid (t : Ty) (content : Content α) (s : Step) :
    (liftM (stepFrom t content s) : Attempt Error (Node α)).Candid c := by
  have refused (t : Ty) (fault : StepFault) (s : Step) :
      (liftM (.error (.dataAt t.path (.step s fault)) : Except Error (Node α)) : Attempt Error _).Candid c :=
    Attempt.candid_refuse (by simp [Error.dataAt, Error.category])
  fun_induction stepFrom t content s with
  | case1 _ _ _ _ ih => exact ih
  | _ => first | exact Attempt.candid_pure _ | exact refused ..

end

namespace Holder

theorem unsupported_candid {β : Type} {c : Charge} (h : Holder α) (operation : Operation) :
    (h.unsupported operation : Attempt Error β).Candid c :=
  Attempt.candid_refuse (by simp [Error.category])

theorem refuse_candid {β : Type} {c : Charge} (h : Holder α) (cause : DataCause) :
    (h.refuse cause : Attempt Error β).Candid c :=
  Attempt.candid_refuse (by simp [Error.dataAt, Error.category])

theorem constructed_candid (h : Holder α) : h.constructed.Candid .plain := by
  unfold constructed
  split
  · exact Attempt.candid_pure _
  · exact Attempt.candid_violate trivial

theorem members_candid (h : Holder α) : h.members.Candid .plain := by
  refine h.constructed_candid.bind fun c _ => ?_
  split
  · exact Attempt.candid_pure _
  · exact h.unsupported_candid _

theorem member_candid (h : Holder α) (i : Nat) : (h.member i).Candid .plain := by
  refine h.members_candid.bind fun ms _ => ?_
  split
  · exact Attempt.candid_pure _
  · exact h.refuse_candid _

theorem memberIndex_candid (h : Holder α) (name : String) : (h.memberIndex name).Candid .plain := by
  unfold memberIndex
  split
  · exact h.unsupported_candid _
  · split
    · exact Attempt.candid_pure _
    · exact h.refuse_candid _

theorem optionalValue_candid (h : Holder α) : h.optionalValue.Candid .plain := by
  refine h.constructed_candid.bind fun c _ => ?_
  split
  · exact Attempt.candid_pure _
  · exact h.unsupported_candid _

theorem variantValue_candid (h : Holder α) : h.variantValue.Candid .plain := by
  refine h.constructed_candid.bind fun c _ => ?_
  split
  · exact Attempt.candid_pure _
  · exact h.unsupported_candid _

theorem elements_candid (h : Holder α) : h.elements.Candid .plain := by
  refine h.constructed_candid.bind fun c _ => ?_
  split
  · exact Attempt.candid_pure _
  · exact h.unsupported_candid _

theorem element_candid (h : Holder α) (i : Nat) : (h.element i).Candid .plain := by
  refine h.elements_candid.bind fun es _ => ?_
  split
  · exact Attempt.candid_pure _
  · exact h.refuse_candid _

theorem isEqual_candid {β : Type} [HasType β] (h : Holder α) (other : Holder β) :
    (h.isEqual other).Candid .plain := by
  refine h.constructed_candid.bind fun c _ => ?_
  split
  · exact Attempt.candid_violate trivial
  · split
    · exact Attempt.candid_pure _
    · exact Attempt.candid_refuse (by simp [Error.category])

theorem select_candid (h : Holder α) (s : Selector) : (h.select s).Candid .plain := by
  induction s generalizing h with
  | nil => exact Attempt.candid_pure _
  | cons step rest ih =>
    refine Attempt.Candid.bind ?_ fun n _ => ih n.holder
    exact h.constructed_candid.bind fun c _ => stepFrom_candid _ c step

theorem slot_candid (h : Holder α) (s : Step) : (h.slot s).Candid .plain := by
  refine h.constructed_candid.bind fun c _ => (stepFrom_candid _ c s).bind fun _ _ => ?_
  split
  · exact Attempt.candid_pure _
  · exact h.refuse_candid _

theorem locate_candid (h : Holder α) (s : Selector) : (h.locate s).Candid .plain := by
  induction s generalizing h with
  | nil => exact Attempt.candid_pure _
  | cons step rest ih =>
    exact (h.slot_candid step).bind fun p _ => (ih p.2.holder).bind fun _ _ => Attempt.candid_pure _

theorem checkKind_candid (h : Holder α) (s : Selector) (kind : Kind) :
    (h.checkKind s kind).Candid .plain := by
  unfold checkKind
  split
  · exact Attempt.candid_pure _
  · exact h.refuse_candid _

theorem follow_candid (h : Holder α) (a : Access) : (h.follow a).Candid .plain := by
  cases a with
  | select s => exact (h.select_candid s).toStray
  | selectKind s kind =>
    exact Attempt.Candid.toStray ((h.select_candid s).bind fun found _ =>
      (found.checkKind_candid s kind).bind fun _ _ => Attempt.candid_pure _)
  | member i => exact (h.member_candid i).toStray.bind fun _ _ => Attempt.candid_pure _
  | name n =>
    refine Attempt.Candid.bind (.toStray ?_) fun _ _ => Attempt.candid_pure _
    exact (h.memberIndex_candid n).bind fun i _ => h.member_candid i
  | optional =>
    refine h.optionalValue_candid.toStray.bind fun inner _ => ?_
    split
    · exact Attempt.candid_pure _
    · exact Attempt.candid_fail fun _ _ h => by cases h
  | variant => exact h.variantValue_candid.toStray.bind fun _ _ => Attempt.candid_pure _
  | element i => exact (h.element_candid i).toStray.bind fun _ _ => Attempt.candid_pure _

theorem followAll_candid (h : Holder α) (walk : List Access) : (h.followAll walk).Candid .plain := by
  induction walk generalizing h with
  | nil => exact Attempt.candid_pure _
  | cons a rest ih => exact (h.follow_candid a).bind fun found _ => ih found

theorem reach_candid (h : Holder α) (a : Access) : (h.reach a).Candid .plain := by
  cases a with
  | select s => exact (h.locate_candid s).toStray
  | selectKind s kind =>
    exact Attempt.Candid.toStray ((h.locate_candid s).bind fun p _ =>
      (p.2.checkKind_candid s kind).bind fun _ _ => Attempt.candid_pure _)
  | member i => exact (h.member_candid i).toStray.bind fun _ _ => Attempt.candid_pure _
  | name n =>
    exact (h.memberIndex_candid n).toStray.bind fun i _ =>
      (h.member_candid i).toStray.bind fun _ _ => Attempt.candid_pure _
  | optional =>
    refine h.optionalValue_candid.toStray.bind fun inner _ => ?_
    split
    · exact Attempt.candid_pure _
    · exact Attempt.candid_fail fun _ _ h => by cases h
  | variant => exact h.variantValue_candid.toStray.bind fun _ _ => Attempt.candid_pure _
  | element i => exact (h.element_candid i).toStray.bind fun _ _ => Attempt.candid_pure _

theorem reachAll_candid (h : Holder α) (walk : List Access) : (h.reachAll walk).Candid .plain := by
  induction walk generalizing h with
  | nil => exact Attempt.candid_pure _
  | cons a rest ih =>
    exact (h.reach_candid a).bind fun p _ => (ih p.2).bind fun _ _ => Attempt.candid_pure _

end Holder

def Change.lists : Change → Bool
  | construct _ | assign _ => true
  | _ => false

/-- What a change may raise: any violation as it is; where it takes a list, a choice may hide it. -/
def Change.charge (c : Change) (choice : Prop) : Charge where
  own _ := True
  host e := ∃ x, .expression x ∈ c.operands ∧ x.outcome = .error e
  instead e := (c.lists ∧ choice) ∧ e.Hides
  within _ site h := ⟨h.1, h.2.within site⟩
  apart _ _ h := h.2

theorem Change.plain_covers (c : Change) (choice : Prop) : Charge.plain.Covers (c.charge choice) :=
  Charge.plain_covers fun _ => trivial

theorem Change.staging_covers {c : Change} {es : List InitEntry} (hops : c.operands = InitEntry.operandsAll es)
    (hlists : c.lists = true) (choice : Prop) :
    (Charge.staging (InitEntry.operandsAll es) choice).Covers (c.charge choice) where
  own _ _ := trivial
  host := fun _ ⟨x, hx, he⟩ => ⟨x, by rwa [hops], he⟩
  instead := fun _ ⟨h, he⟩ => ⟨⟨hlists, h⟩, he⟩

namespace Holder

theorem ensureUnconstructed_candid (h : Holder α) : h.ensureUnconstructed.Candid .plain := by
  unfold ensureUnconstructed
  split
  · exact Attempt.candid_violate trivial
  · exact Attempt.candid_pure _

theorem stageCopy_candid (h : Holder α) (other : Snapshot) : (h.stageCopy other).Candid .plain := by
  unfold stageCopy
  split
  · exact Attempt.candid_violate trivial
  · split
    · exact Attempt.candid_pure _
    · exact Attempt.candid_refuse (by simp [Error.category])

theorem defaultContent_candid {c : Charge} (t : Ty) :
    (liftM (defaultContent t) : Attempt Error _).Candid c :=
  Attempt.candid_of_agrees (defaultContent_agrees (.refl t))

theorem stageInsert_candid (h : Holder α) (index : Nat) : (h.stageInsert index).Candid .plain := by
  refine h.elements_candid.bind fun es _ => ?_
  have element : (do
      let element ← h.elementType .insertDefault
      return .insert index ⟨element, ← defaultContent element⟩ : Attempt Error Edit).Candid .plain := by
    refine Attempt.Candid.bind ?_ fun u _ => (defaultContent_candid u).bind fun _ _ => Attempt.candid_pure _
    unfold elementType
    split
    · exact Attempt.candid_pure _
    · exact h.unsupported_candid _
  simp only
  split
  · exact (h.refuse_candid _).bind fun _ _ => element
  · exact element

theorem stageAlternative_candid (h : Holder α) (index : Nat) : (h.stageAlternative index).Candid .plain := by
  refine h.constructed_candid.bind fun c _ => ?_
  split
  · split
    · exact Attempt.candid_pure _
    · split
      · exact (defaultContent_candid _).bind fun _ _ => Attempt.candid_pure _
      · exact h.refuse_candid _
  · exact h.unsupported_candid _

theorem stageChange_candid (h : Holder α) (c : Change) : (h.stageChange c).Candid (c.charge h.type.Chooses) := by
  have hplain := c.plain_covers h.type.Chooses
  cases c with
  | construct es =>
    exact (h.ensureUnconstructed_candid.mono hplain).bind fun _ _ =>
      ((stageList_candid _ es).mono (Change.staging_covers rfl rfl _)).bind fun _ _ => Attempt.candid_pure _
  | copyConstruct v =>
    exact Attempt.Candid.mono (h.ensureUnconstructed_candid.bind fun _ _ =>
      (h.stageCopy_candid v).bind fun _ _ => Attempt.candid_pure _) hplain
  | assign es =>
    exact (h.constructed_candid.mono hplain).bind fun current _ =>
      ((restage_candid _ current es).mono (Change.staging_covers rfl rfl _)).bind fun _ _ => Attempt.candid_pure _
  | copyAssign v =>
    exact Attempt.Candid.mono (h.constructed_candid.bind fun _ _ =>
      (h.stageCopy_candid v).bind fun _ _ => Attempt.candid_pure _) hplain
  | deserialize d =>
    exact (h.constructed_candid.mono hplain).bind fun _ _ =>
      (decode_candid _ d).bind fun _ _ => Attempt.candid_pure _
  | parseUi text =>
    exact (h.constructed_candid.mono hplain).bind fun _ _ =>
      (Attempt.candid_of_agrees (UiText.read_agrees (.refl _) text)).bind fun _ _ => Attempt.candid_pure _
  | pushDefault =>
    exact Attempt.Candid.mono (h.elements_candid.bind fun es _ =>
      (h.stageInsert_candid _).bind fun _ _ => Attempt.candid_pure _) hplain
  | insertDefault index =>
    exact Attempt.Candid.mono ((h.stageInsert_candid index).bind fun _ _ => Attempt.candid_pure _) hplain
  | remove index =>
    refine (h.elements_candid.mono hplain).bind fun es _ => ?_
    simp only
    split
    · exact (h.refuse_candid _).bind fun _ _ => Attempt.candid_pure _
    · exact Attempt.candid_pure _
  | setActiveAlternative index =>
    exact Attempt.Candid.mono ((h.stageAlternative_candid index).bind fun _ _ => Attempt.candid_pure _) hplain

end Holder

end TypedValues
