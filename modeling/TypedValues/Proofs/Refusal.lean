import TypedValues.Proofs.Contract
import TypedValues.Proofs.Reassignment

/-! Lists that are refused. Nothing in a list is passed over: however deep an operand is, and whatever was
tried and dropped on the way to it, the list is accepted only if that operand was staged. So one operand
that nothing can be staged from has the whole list refused. -/

namespace TypedValues

/-- Nothing can be staged from the operand: it is without content, or evaluating it gives an error or a value
without content. -/
inductive Operand.Spoilt : Operand → Prop where
  | value {v : Snapshot} (h : v.content = none) : Spoilt (.value v)
  | failing {x : Expression} {e : Error} (h : x.outcome = .error e) : Spoilt (.expression x)
  | blank {x : Expression} {v : Snapshot} (h : x.outcome = .ok v) (hv : v.content = none) : Spoilt (.expression x)

theorem stageOperand_unspoilt (t : Ty) (o : Operand) : (stageOperand t o).Ensures fun _ => ¬ o.Spoilt := by
  intro p c hc hspoilt
  have haccepted := stageOperand_accepts t o p c hc
  cases hspoilt with
  | value h => cases (Holder.fault?_of_none h).symm.trans haccepted
  | blank h hv =>
    rw [Operand.fault?, h] at haccepted
    cases (Holder.fault?_of_none hv).symm.trans haccepted
  | failing h =>
    obtain ⟨v, hv, -⟩ := Attempt.bind_eq_ok.1 hc
    cases h.symm.trans (evaluate_eq_ok hv)

theorem stageList_unspoilt (t : Ty) (es : List InitEntry) :
    (stageList t es).Ensures fun _ => ∀ o ∈ InitEntry.operandsAll es, ¬ o.Spoilt := by
  rw [← Input.operands_ofList]
  exact stage_each (Q := fun _ o => ¬ o.Spoilt) (fun _ _ h => by cases h) stageOperand_unspoilt
    (fun _ _ _ _ h => h) t (.ofList es)

/-- The active alternative and the whole variant look at all of the list. -/
theorem restage_unspoilt {α : Type} (t : Ty) (current : Content α) (es : List InitEntry) :
    (restage t current es).Ensures fun _ => ∀ o ∈ InitEntry.operandsAll es, ¬ o.Spoilt := by
  intro p d hd
  rcases restage_cases hd with hall | ⟨us, i, u, c, -, -, halone, -⟩
  · exact stageList_unspoilt t es p d hall
  · exact stageList_unspoilt u es p c halone

namespace Holder

variable {α : Type} [HasType α]

theorem stageCopy_unspoilt (v : Holder α) (w : Snapshot) :
    (v.stageCopy w).Ensures fun _ => ¬ (Operand.value w).Spoilt := by
  unfold stageCopy
  split
  next => exact Attempt.ensures_violate _ _
  next content hcontent =>
    rintro _ _ _ (h | _ | _)
    cases hcontent.symm.trans h

/-- A change that is staged has made use of all that it was given. -/
theorem stageChange_unspoilt (v : Holder α) (c : Change) :
    (v.stageChange c).Ensures fun _ => ∀ o ∈ c.operands, ¬ o.Spoilt := by
  cases c with
  | construct es =>
    exact (Attempt.ensures_true _).bind fun _ _ => (stageList_unspoilt _ es).bind fun _ h =>
      Attempt.ensures_pure h
  | assign es =>
    exact (Attempt.ensures_true _).bind fun current _ => (restage_unspoilt _ current es).bind fun _ h =>
      Attempt.ensures_pure h
  | copyConstruct w | copyAssign w =>
    exact (Attempt.ensures_true _).bind fun _ _ => (v.stageCopy_unspoilt w).bind fun _ h =>
      Attempt.ensures_pure (List.forall_mem_singleton.2 h)
  | _ => exact fun _ _ _ o ho => by cases ho

end Holder

namespace Session

variable {s : Session} {label : String} {walk : List Access} {c : Change}

/-- Where violations are reported, a change that does not succeed ends in an error and leaves the session as
it was. -/
theorem change_fails (hpolicy : s.policy = .report)
    (h : ∀ position, ((change label walk c).run s).2.outcome ≠ .ok position) :
    ∃ e, ((change label walk c).run s).2.outcome = .error e ∧ ((change label walk c).run s).1 = s := by
  cases hroot : s.values.get? label with
  | none =>
    rw [run_change_of_none hroot]
    exact ⟨_, rfl, rfl⟩
  | some root =>
    have hreports := (prepare_candid root walk c).reports
    rw [run_change hroot] at h ⊢
    rw [← hpolicy] at hreports
    rcases hrun : (prepare root walk c).run s.policy with ⟨trace, ⟨location, edit, position⟩ | e | e⟩
    · rw [hrun] at h
      exact absurd rfl (h position)
    · exact ⟨e, rfl, rfl⟩
    · rw [hrun] at hreports
      exact absurd rfl (hreports e)

/-- A change that is given an operand from which nothing can be staged, anywhere in its list, is refused by
every value in every state. -/
theorem spoilt_refused (hpolicy : s.policy = .report) {o : Operand} (ho : o ∈ c.operands)
    (hspoilt : o.Spoilt) :
    ∃ e, ((change label walk c).run s).2.outcome = .error e ∧ ((change label walk c).run s).1 = s := by
  refine change_fails hpolicy fun position hok => ?_
  rcases change_cases s label walk c with ⟨-, -, hfail, -⟩ | ⟨v, location, target, edit, _, -, -, hstage, -⟩
  · exact hfail position hok
  · exact target.stageChange_unspoilt c s.policy _ hstage o ho hspoilt

def muddled : List InitEntry :=
  [⟨none, .list [⟨some "on", .list [⟨none, .operand (.expression ⟨1, boolType, .ok ⟨boolType, none⟩⟩)⟩]⟩]⟩]

/-- The lamp in the outlet is tried first, then the alternatives of the outlet; all errors are dropped, and
the list is refused still. -/
theorem spoilt_refused_plugged : plugged.Reachable ∧ plugged.policy = .report ∧
    plugged.Reaches "plug" [] [] plug.holder ∧ (∃ o ∈ (Change.assign muddled).operands, o.Spoilt) ∧
    ((change "plug" [] (.assign muddled)).run plugged).2.outcome =
      .error (.error (.dataAt outletType.path (.noAlternativeForList 1))) ∧
    ((change "plug" [] (.assign muddled)).run plugged).1 = plugged := by
  have hmem : .expression ⟨1, boolType, .ok ⟨boolType, none⟩⟩ ∈ (Change.assign muddled).operands :=
    List.mem_cons_self
  have hspoilt : (Operand.expression ⟨1, boolType, .ok ⟨boolType, none⟩⟩).Spoilt := .blank rfl rfl
  have hplug : plugged.Reaches "plug" [] [] plug.holder := ⟨_, by rfl, by rfl⟩
  obtain ⟨-, -, hsession⟩ := spoilt_refused (s := plugged) rfl hmem hspoilt
  exact ⟨plugged_reachable, rfl, hplug, ⟨_, hmem, hspoilt⟩, by rfl, hsession⟩

end Session

end TypedValues
