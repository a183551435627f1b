import TypedValues.Proofs.Staging

/-! What acceptance means. A list that was accepted has been looked at as a whole: every operand in it,
at any depth, was constructed. -/

namespace TypedValues

/-- The violation that taking the value as an operand comes to. -/
def Holder.fault? (v : Snapshot) : Option Error :=
  if v.isConstructed then none else some (.state v.type.path .unconstructedOperand)

def Operand.fault? : Operand → Option Error
  | .value v => v.fault?
  | .expression e =>
    match e.outcome with
    | .ok v => v.fault?
    | .error _ => none
  | _ => none

theorem stageSnapshot_accepts (t : Ty) (v : Snapshot) :
    (stageSnapshot t v).Ensures fun _ => v.fault? = none := by
  unfold stageSnapshot
  split
  next => exact Attempt.ensures_violate _ _
  next c hc =>
    refine Attempt.ensures_ofExcept fun _ _ => ?_
    rw [Holder.fault?, Holder.isConstructed, hc]
    rfl

theorem stageOperand_accepts (t : Ty) (o : Operand) :
    (stageOperand t o).Ensures fun _ => o.fault? = none := by
  cases o with
  | literal l => exact Attempt.ensures_ofExcept fun _ _ => rfl
  | item r => exact Attempt.ensures_ofExcept fun _ _ => rfl
  | value v => exact stageSnapshot_accepts t v
  | expression e =>
    have hevaluate : (evaluate e).Ensures fun v => e.outcome = .ok v :=
      (Attempt.ensures_true _).bind fun _ _ => Attempt.ensures_ofExcept fun v hv => hv
    refine hevaluate.bind fun v hv => ?_
    intro p c hc
    rw [Operand.fault?, hv]
    exact stageSnapshot_accepts t v p c hc

theorem componentLiterals_accepts {t : Ty} {es : List InitEntry} {ls : List Literal}
    (h : componentLiterals t es = .ok ls) : ∀ o ∈ InitEntry.operandsAll es, ∃ l, o = .literal l := by
  induction es generalizing ls with
  | nil => exact fun o ho => by cases ho
  | cons e es ih =>
    rcases e with ⟨name, (_ | _ | _ | _) | _⟩
    case operand.literal l =>
      obtain ⟨rest, hrest, -⟩ := Except.bind_eq_ok.1 h
      intro o ho
      simp only [InitEntry.operandsAll, InitEntry.operands, Initializer.operands, List.cons_append,
        List.nil_append, List.mem_cons] at ho
      rcases ho with rfl | ho
      · exact ⟨l, rfl⟩
      · exact ih hrest o ho
    all_goals cases h

/-- Every initializer gets a slot, and slots that are taken stay so. -/
theorem placeAll_places {σ : Type} {names : List String} {slots filled : List (Option σ)} {cursor : Nat}
    {entries : List (Option String × σ)} (h : placeAll names slots cursor entries = .ok filled) :
    filled.length = slots.length ∧ (∀ s, some s ∈ slots → some s ∈ filled) ∧
      ∀ e ∈ entries, some e.2 ∈ filled := by
  induction entries generalizing slots cursor with
  | nil =>
    cases h
    exact ⟨rfl, fun _ hs => hs, fun e he => by cases he⟩
  | cons e rest ih =>
    rcases e with ⟨name, x⟩
    rw [placeAll, Except.bind_eq_ok] at h
    obtain ⟨i, -, h⟩ := h
    split at h
    next => cases h
    next => cases h
    next hfree =>
      obtain ⟨hlength, hkept, hplaced⟩ := ih h
      refine ⟨hlength.trans (List.length_set ..), fun s hs => hkept s ?_, ?_⟩
      · obtain ⟨j, hj⟩ := List.mem_iff_getElem?.1 hs
        have hne : i ≠ j := by
          rintro rfl
          cases hfree.symm.trans hj
        exact List.mem_of_getElem? ((List.getElem?_set_ne hne).trans hj)
      · have hlt := (List.getElem?_eq_some_iff.1 hfree).1
        exact List.forall_mem_cons.2 ⟨hkept x (List.mem_set hlt (some x)), hplaced⟩

theorem memberSlots_places {σ : Type} {t : Ty} {ms : List Member} {entries : List (Option String × σ)}
    {slots : List (Option σ)} (h : memberSlots t ms entries = .ok slots) :
    slots.length = ms.length ∧ ∀ e ∈ entries, some e.2 ∈ slots := by
  unfold memberSlots at h
  split at h
  next filled hfilled =>
    cases h
    obtain ⟨hlength, -, hplaced⟩ := placeAll_places hfilled
    exact ⟨hlength.trans List.length_replicate, hplaced⟩
  next => cases h

theorem attemptElements_accepts {σ τ : Type} {f : σ → Attempt Error τ} {P : σ → Prop} {i : Nat}
    {xs : List σ} (h : ∀ x ∈ xs, (f x).Ensures fun _ => P x) :
    (attemptElements f i xs).Ensures fun _ => ∀ x ∈ xs, P x := by
  induction xs generalizing i with
  | nil => exact Attempt.ensures_pure (by simp)
  | cons x xs ih =>
    rw [List.forall_mem_cons] at h
    refine (h.1.under _).bind fun _ hx => (ih h.2).bind fun _ hxs => Attempt.ensures_pure ?_
    exact List.forall_mem_cons.2 ⟨hx, hxs⟩

theorem stageAlternatives_accepts {alternatives : List Ty} {i : Nat} {input : Input} {P : Prop}
    (h : ∀ u ∈ alternatives, (stage u input).Ensures fun _ => P) :
    (stageAlternatives alternatives i input).Ensures fun found => found.isSome → P := by
  induction alternatives generalizing i with
  | nil => exact Attempt.ensures_pure (by simp)
  | cons u rest ih =>
    rw [List.forall_mem_cons] at h
    rw [stageAlternatives]
    refine h.1.trial.bind fun found hfound => ?_
    cases found with
    | some c => exact Attempt.ensures_pure fun _ => hfound c rfl
    | none => exact ih h.2

theorem stageMembers_accepts {ms : List Member} {slots : List (Option Initializer)}
    {P : Initializer → Prop} (hlength : slots.length = ms.length)
    (h : ∀ m ∈ ms, ∀ i, some i ∈ slots → (stage m.type i.input).Ensures fun _ => P i) :
    (stageMembers ms slots).Ensures fun _ => ∀ i, some i ∈ slots → P i := by
  induction ms generalizing slots with
  | nil =>
    obtain rfl := List.length_eq_zero_iff.1 hlength
    exact Attempt.ensures_pure (by simp)
  | cons m ms ih =>
    rcases slots with _ | ⟨slot, slots⟩
    · cases hlength
    simp only [List.forall_mem_cons] at h
    rcases m with ⟨symbol, type, default⟩
    rw [stageMembers]
    refine Attempt.Ensures.bind (P := fun _ => ∀ i, slot = some i → P i) (.under ?_ _) fun _ hslot =>
      (ih (Nat.succ.inj hlength) fun m hm i hi => h.2 m hm i (List.mem_cons_of_mem _ hi)).bind
        fun _ hslots => Attempt.ensures_pure fun i hi => ?_
    · cases slot with
      | none => exact Attempt.ensures_ofExcept fun _ _ i hi => by cases hi
      | some i =>
        refine (h.1 i List.mem_cons_self).bind fun c hc => Attempt.ensures_pure ?_
        rintro j ⟨⟩
        exact hc
    · rcases List.mem_cons.1 hi with heq | hi
      · exact hslot i heq.symm
      · exact hslots i hi

section

variable {t : Ty} {es : List InitEntry} {P : Operand → Prop}

/-- Components are literals, if they are staged at all. -/
theorem stageComponents_accepts {n : Nat} {c : Content Ty} (h : stageComponents t n es = .ok c) :
    ∀ o ∈ (Input.entries es).operands, ∃ l, o = .literal l := by
  unfold stageComponents at h
  split at h
  next =>
    obtain ⟨ls, hls, -⟩ := Except.bind_eq_ok.1 h
    exact componentLiterals_accepts hls
  next => cases h

theorem stage_variant_accepts {us : List Ty} {input : Input} {Q : Prop} (e : Error)
    (h : ∀ u ∈ us, (stage u input).Ensures fun _ => Q) : (do
      match ← stageAlternatives us 0 input with
      | some content => return content
      | none => Attempt.fail e : Attempt Error (Content Ty)).Ensures fun _ => Q := by
  refine (stageAlternatives_accepts h).bind fun found hfound => ?_
  cases found with
  | none => exact Attempt.ensures_fail _
  | some c => exact Attempt.ensures_pure (hfound rfl)

theorem stage_struct_accepts {members : List Member}
    (h : ∀ m ∈ members, ∀ i : Initializer, (stage m.type i.input).Ensures fun _ => ∀ o ∈ i.input.operands, P o) : (do
      let slots ← memberSlots t members (es.map fun e => (e.name, e.initializer))
      return .struct (← stageMembers members slots) : Attempt Error (Content Ty)).Ensures fun _ =>
        ∀ o ∈ (Input.entries es).operands, P o := by
  refine (Attempt.ensures_ofExcept fun _ hslots => hslots).bind fun slots hslots => ?_
  obtain ⟨hlength, hplaced⟩ := memberSlots_places hslots
  refine (stageMembers_accepts (P := fun i => ∀ o ∈ i.input.operands, P o) hlength fun m hm i _ => h m hm i).bind
    fun _ hslot => Attempt.ensures_pure (Input.forall_operands_entries.2 fun e he => ?_)
  exact hslot _ (hplaced _ (List.mem_map_of_mem he))

end

/-- What an operand satisfies where it is staged, and passes on from a component to the type around it,
holds of every operand of an input that is accepted. -/
theorem stage_each {Q : Ty → Operand → Prop} (hliteral : ∀ t l, Q t (.literal l))
    (hoperand : ∀ t o, (stageOperand t o).Ensures fun _ => Q t o)
    (hcomponent : ∀ t, ∀ u ∈ t.shape.components, ∀ o, Q u o → Q t o) (t : Ty) (input : Input) :
    (stage t input).Ensures fun _ => ∀ o ∈ input.operands, Q t o := by
  induction t using Ty.inductOn generalizing input with
  | step t ih =>
    have part {u : Ty} (hu : u ∈ t.shape.components) (input : Input) :
        (stage u input).Ensures fun _ => ∀ o ∈ input.operands, Q t o :=
      fun p c hc o ho => hcomponent t u hu o (ih u hu input p c hc o ho)
    have single (o : Operand) : (stageOperand t o).Ensures fun _ => ∀ o' ∈ [o], Q t o' :=
      fun p c hc o' ho' => List.mem_singleton.1 ho' ▸ hoperand t o p c hc
    have hcase := stage_cases t input
    generalize stage t input = x at hcase ⊢
    cases hcase with
    | whole o => exact single o
    | default => exact Attempt.ensures_ofExcept fun _ _ o ho => by cases ho
    | @lone o => exact single o
    | components hs es =>
      refine Attempt.ensures_ofExcept fun c hc o ho => ?_
      obtain ⟨l, rfl⟩ := stageComponents_accepts hc o ho
      exact hliteral t l
    | optional hs es => exact (part (Ty.component_optional hs) _).bind fun _ h => Attempt.ensures_pure h
    | variant hs es => exact stage_variant_accepts _ fun u hu => part (Ty.component_variant hs hu) _
    | struct hs es => exact stage_struct_accepts fun m hm i => part (Ty.component_struct hs hm) i.input
    | array hs hnames =>
      refine (attemptElements_accepts (P := fun e => ∀ o ∈ e.initializer.input.operands, Q t o) fun e _ => ?_).bind
        fun _ h => Attempt.ensures_pure (Input.forall_operands_entries.2 h)
      exact (part (Ty.component_array hs) _).bind fun _ h => Attempt.ensures_pure h
    | refused es => exact Attempt.ensures_fail _

theorem stage_accepts (t : Ty) (input : Input) :
    (stage t input).Ensures fun _ => ∀ o ∈ input.operands, o.fault? = none :=
  stage_each (Q := fun _ o => o.fault? = none) (fun _ _ => rfl) stageOperand_accepts (fun _ _ _ _ h => h) t input

end TypedValues
