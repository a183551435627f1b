import TypedValues.Proofs.Reassignment

/-! Calls that come to the same. Changes that stage the same edit leave the same session, call the same
observers and end alike, so how the edit was staged does not show: lists that all types stage alike may stand
for each other. A value is copied by a call of its own, or as the only initializer of a list; for a variant
the list is given to the active alternative first, which never takes a value of the variant's own type. -/

namespace TypedValues

variable {K : Set Ty} {next : Nat}

/-- What no component of the type takes is staged for a value as if it held nothing. -/
theorem restage_gives {α : Type} {t : Ty} {es : List InitEntry} {c : Content Ty} (h : (stageList t es).Gives c)
    (hrefused : ∀ u ∈ t.shape.components, ∀ p, ∃ e, ((stageList u es).run p).outcome = .error e)
    (current : Content α) : (restage t current es).Gives c := by
  unfold restage
  split
  next us i n hs =>
    split
    next u hu =>
      intro p
      obtain ⟨e, he⟩ := hrefused u (by rw [hs]; exact List.mem_of_getElem? hu) p
      refine Attempt.bind_eq_ok.2 ⟨none, ?_, h p⟩
      simp only [Attempt.trial, Result.trial, he]
    next => exact h
  next => exact h

def InitEntry.lone (o : Operand) : List InitEntry := [⟨none, .operand o⟩]

theorem stageList_lone_whole {t : Ty} {o : Operand} (h : standsForWhole t o = true) :
    stageList t (InitEntry.lone o) = stageOperand t o := by
  rw [stageList, InitEntry.lone, Input.ofList, peel, peelEntry, peelOnly, stage_lone h]

section

variable (hK : Catalog K next) {t : Ty} (ht : t ∈ K) {w : Snapshot} (hw : w.Typed K) {c : Content Ty}
  (hc : w.content = some c) (hcompat : w.type.compatible t = true)

include hK ht hw hc hcompat

theorem stageList_lone : (stageList t (InitEntry.lone (.value w))).Gives c := by
  have hwhole : standsForWhole t (.value w) = true :=
    standsForWhole_of_compatible hK ht (o := .value w) hw (fun e he => by cases he) rfl hcompat
  rw [stageList_lone_whole hwhole, stageOperand, stageSnapshot, hc]
  exact Attempt.gives_ofExcept (stageTyped_of_compatible hcompat c _)

theorem stageList_lone_refused {u : Ty} (hu : u ∈ t.shape.components) (p : Policy) :
    ∃ e, ((stageList u (InitEntry.lone (.value w))).run p).outcome = .error e := by
  have hoperands : (Input.ofList (InitEntry.lone (.value w))).operands = [.value w] := by
    rw [Input.operands_ofList]
    rfl
  have htyped : ∀ o ∈ (Input.ofList (InitEntry.lone (.value w))).operands, o.Typed K := by
    rw [hoperands]
    exact fun o ho => List.mem_singleton.1 ho ▸ hw
  have hfault : ∀ o ∈ (Input.ofList (InitEntry.lone (.value w))).operands, o.fault? = none := by
    rw [hoperands]
    intro o ho
    rw [List.mem_singleton.1 ho, Operand.fault?, Holder.fault?, Holder.isConstructed, hc]
    rfl
  have hmem : .value w ∈ (Input.ofList (InitEntry.lone (.value w))).operands := by
    rw [hoperands]
    exact List.mem_singleton_self _
  rcases hrun : ((stageList u (InitEntry.lone (.value w))).run p).outcome with d | e | e
  · exact absurd hrun (component_refuses hK ht hu _ htyped hmem rfl hcompat p d)
  · exact ⟨e, rfl⟩
  · exact absurd hrun (stage_ne_panic hfault p e)

end

/-- The two ways to copy `w` into a value that is in the state for it: by a call of its own, and as the only
initializer of a list. -/
inductive Change.CopyRoutes {α : Type} (w : Snapshot) (v : Holder α) : Change → Change → Prop where
  | construct (h : v.isConstructed = false) :
      CopyRoutes w v (.copyConstruct w) (.construct (InitEntry.lone (.value w)))
  | assign (h : v.isConstructed = true) : CopyRoutes w v (.copyAssign w) (.assign (InitEntry.lone (.value w)))

theorem Change.CopyRoutes.copies {α : Type} {w : Snapshot} {v : Holder α} {c c' : Change}
    (h : CopyRoutes w v c c') : c.Copies w v := by
  cases h with
  | construct h => exact .construct h
  | assign h => exact .assign h

theorem Holder.stageChange_routes {α : Type} [HasType α] {v : Holder α} (hK : Catalog K next) (hv : v.type ∈ K)
    {w : Snapshot} (hw : w.Typed K) {content : Content Ty} (hcontent : w.content = some content)
    (hcompat : v.type.compatible w.type = true) {c c' : Change} (h : Change.CopyRoutes w v c c') :
    ∃ edit, (v.stageChange c).Gives (edit, none) ∧ (v.stageChange c').Gives (edit, none) := by
  have hcopy := stageCopy_gives (h := v) hcontent hcompat
  have hlist := stageList_lone hK hv hw hcontent (Ty.compatible_symm hcompat)
  cases h with
  | construct h =>
    have hfree := ensureUnconstructed_gives h
    exact ⟨.install content, hfree.bind (hcopy.bind (Attempt.gives_pure _)),
      hfree.bind (hlist.bind (Attempt.gives_pure _))⟩
  | assign h =>
    obtain ⟨before, hbefore⟩ := Option.isSome_iff_exists.1 h
    have hconstructed := constructed_gives hbefore
    have hagain := restage_gives hlist (fun u hu p =>
      stageList_lone_refused hK hv hw hcontent (Ty.compatible_symm hcompat) hu p) before
    exact ⟨.replace content, hconstructed.bind (hcopy.bind (Attempt.gives_pure _)),
      hconstructed.bind (hagain.bind (Attempt.gives_pure _))⟩

namespace Session

variable {s : Session} {label : String} {walk : List Access} {location : Location} {c c' : Change}

/-- The runs leave one session, call the same observers in the same order, and end alike: with the same
answer, or with errors of one category, or with a panic. -/
structure Alike (r r' : Session × Result Stray (Option Nat)) : Prop where
  session : r.1 = r'.1
  called : called r.2.trace = called r'.2.trace
  outcome : Outcome.Agrees Eq r.2.outcome r'.2.outcome

theorem Alike.refl (r : Session × Result Stray (Option Nat)) : Alike r r := ⟨rfl, rfl, .refl _⟩

/-- What a change leaves, once its target is reached, is told by the edit that was staged. -/
theorem leaves_change {root target : Value} (hroot : s.values.get? label = some root)
    (hreach : ((root.reachAll walk).run s.policy).outcome = .ok (location, target)) :
    (((change label walk c).run s).1, called ((change label walk c).run s).2.trace) =
      match ((target.stageChange c).run s.policy).outcome with
      | .ok (edit, _) =>
        let done := root.commit location edit s.signals
        ({ s with signals := done.signals, values := s.values.put label done.tree }, called done.events)
      | _ => (s, []) := by
  rcases change_cases s label walk c with ⟨hs, hcalled, -, hrefused⟩ |
    ⟨root', location', target', edit, position, hroot', hreach', hstage, hs, hcalled, -⟩
  · rcases hstage : ((target.stageChange c).run s.policy).outcome with r | e | e
    · exact absurd hstage (hrefused _ _ _ hroot hreach r)
    · exact Prod.ext hs hcalled
    · exact Prod.ext hs hcalled
  · cases hroot.symm.trans hroot'
    cases hreach.symm.trans hreach'
    rw [hstage]
    exact Prod.ext hs hcalled

/-- Where staging comes to the same, so does the change. -/
theorem change_alike (h : ∀ location target, s.Reaches label walk location target →
      Outcome.Agrees Eq ((target.stageChange c).run s.policy).outcome
        ((target.stageChange c').run s.policy).outcome) :
    Alike ((change label walk c).run s) ((change label walk c').run s) := by
  cases hroot : s.values.get? label with
  | none =>
    rw [run_change_of_none hroot, run_change_of_none hroot]
    exact .refl _
  | some root =>
    rcases hreach : (root.reachAll walk).run s.policy with ⟨trace, ⟨location, target⟩ | e | e⟩
    case ok =>
      have hreach' : ((root.reachAll walk).run s.policy).outcome = .ok (location, target) := by rw [hreach]
      have hstage := h location target ⟨root, hroot, hreach'⟩
      have hleaves : (((change label walk c).run s).1, called ((change label walk c).run s).2.trace) =
          (((change label walk c').run s).1, called ((change label walk c').run s).2.trace) := by
        rw [leaves_change hroot hreach', leaves_change hroot hreach']
        generalize ((target.stageChange c).run s.policy).outcome = o,
          ((target.stageChange c').run s.policy).outcome = o' at hstage
        cases hstage with
        | ok h => rw [h]
        | error | panic => rfl
      have hends : Outcome.Agrees Eq ((change label walk c).run s).2.outcome
          ((change label walk c').run s).2.outcome := by
        rw [outcome_change hroot hreach', outcome_change hroot hreach']
        generalize ((target.stageChange c).run s.policy).outcome = o,
          ((target.stageChange c').run s.policy).outcome = o' at hstage
        cases hstage with
        | ok h => exact .ok (congrArg Prod.snd h)
        | error h => exact .error h
        | panic e e' => exact .panic e e'
      obtain ⟨hsession, hcalled⟩ := Prod.mk.inj hleaves
      exact ⟨hsession, hcalled, hends⟩
    -- a walk that fails ends both runs before anything is staged
    all_goals
      rw [run_change hroot, run_change hroot]
      simp only [prepare, Attempt.run_bind, Result.andThen, hreach]
      exact .refl _

/-- It makes no difference which of the lists a value is made from, or is assigned. -/
structure ListsAlike (s : Session) (es es' : List InitEntry) : Prop where
  construct : ∀ label walk,
    Alike ((change label walk (.construct es)).run s) ((change label walk (.construct es')).run s)
  assign : ∀ label walk,
    Alike ((change label walk (.assign es)).run s) ((change label walk (.assign es')).run s)

theorem Invariant.type_of_reaches (hK : s.Invariant K) {v : Value} (hv : s.Reaches label walk location v) :
    v.type ∈ K := (hK.typed_of_reaches hv).type

theorem listsAlike_of_agrees (hK : s.Invariant K) {es es' : List InitEntry}
    (h : ∀ t ∈ K, Attempt.Agrees Eq (stageList t es) (stageList t es')) : s.ListsAlike es es' := by
  refine ⟨fun label walk => change_alike fun location target hv => ?_,
    fun label walk => change_alike fun location target hv => ?_⟩
  · have hstage := h target.type (hK.type_of_reaches hv)
    exact (Attempt.Agrees.refl target.ensureUnconstructed).bind (S := Eq) (fun _ _ _ => hstage.bind
      fun c d hcd => .pure (by rw [hcd])) s.policy
  · have hcomponents (u : Ty) (hu : u ∈ target.type.shape.components) :=
      h u (hK.sound.catalog.component_mem (hK.type_of_reaches hv) hu)
    refine (Attempt.Agrees.refl target.constructed).bind (S := Eq) (fun current _ hcurrent => ?_) s.policy
    subst hcurrent
    have hsame : current.Matches current := rfl
    have hstage := restage_congr Content.congruence_eq (.refl target.type) hsame
      (h target.type (hK.type_of_reaches hv)) hcomponents
    exact hstage.bind fun c d hcd => .pure (by rw [hcd])

/-- A copy and an assignment or construction from the value alone succeed alike, leave the same session, in
which the target is equal to what it was made from, and call the same observers. -/
theorem copy_routes_agree (hs : s.Reachable) {w : Snapshot} (hw : s.Has w) (hwc : w.isConstructed = true)
    {v : Value} (hv : s.Reaches label walk location v) (hcompat : v.type.compatible w.type = true)
    (hc : Change.CopyRoutes w v c c') :
    ((change label walk c).run s).2.outcome = .ok none ∧ ((change label walk c').run s).2.outcome = .ok none ∧
      Alike ((change label walk c).run s) ((change label walk c').run s) ∧
      ∃ v', ((change label walk c').run s).1.At label location v' ∧ v'.label = v.label ∧
        (v'.isEqual w).Gives true := by
  obtain ⟨K, hK⟩ := hs.invariant
  have htype := hK.type_of_reaches hv
  obtain ⟨root, hroot, hreach⟩ := hv
  obtain ⟨content, hcontent⟩ := Option.isSome_iff_exists.1 hwc
  obtain ⟨edit, hgives, hgives'⟩ :=
    Holder.stageChange_routes hK.sound.catalog htype (hK.sound.has hw) hcontent hcompat hc
  have halike : Alike ((change label walk c).run s) ((change label walk c').run s) := by
    apply change_alike
    rintro _ target ⟨root', hroot', hreach'⟩
    cases hroot'.symm.trans hroot
    cases hreach'.symm.trans hreach
    rw [hgives, hgives']
    exact .refl _
  obtain ⟨hok, root', v', hroot', hpart', hrest⟩ := change_copies hs hw hcontent hroot hreach hcompat hc.copies
  refine ⟨hok, ?_, halike, v', ⟨root', by rw [← halike.session]; exact hroot', hpart'⟩, hrest⟩
  rw [outcome_change hroot hreach, hgives']

/-- A second outlet, which holds a text. -/
def spareOutlet : Node Cell := ⟨⟨outletType, 6⟩, .variant 1 ⟨⟨stringType, 7⟩, .text "dim"⟩⟩

def spared : Session :=
  ((change "spare" [] (.construct [⟨none, .operand (.literal (.text "dim"))⟩])).run
    (plugged.create "spare" outletType)).1

theorem spared_reachable : spared.Reachable := by
  have houtlet : plugged.types.get? "outlet" = some outletType := by rfl
  refine plugged_reachable.make (.kept houtlet) "spare" _ fun o ho => ?_
  obtain rfl := List.mem_singleton.1 ho
  trivial

/-- The outlet with the lamp becomes like the second one. The lamp does not take an outlet, so the list goes
to the outlet itself. -/
theorem copy_routes_agree_spared : spared.Reachable ∧ spared.Has spareOutlet.holder.snapshot ∧
    spared.Reaches "plug" [] [] plug.holder ∧ ∃ t,
      ((change "plug" [] (.copyAssign spareOutlet.holder.snapshot)).run spared).1 = t ∧
      ((change "plug" [] (.assign (InitEntry.lone (.value spareOutlet.holder.snapshot)))).run spared).1 = t ∧
      called ((change "plug" [] (.copyAssign spareOutlet.holder.snapshot)).run spared).2.trace =
        [⟨3, "watch"⟩] ∧
      called ((change "plug" [] (.assign (InitEntry.lone (.value spareOutlet.holder.snapshot)))).run spared).2.trace =
        [⟨3, "watch"⟩] := by
  have hplug : spared.Reaches "plug" [] [] plug.holder := ⟨_, by rfl, by rfl⟩
  have hspare : spared.values.get? "spare" = some spareOutlet.holder := by rfl
  have hhas : spared.Has spareOutlet.holder.snapshot := .part ⟨"spare", _, [], hspare, rfl⟩
  obtain ⟨-, -, halike, -⟩ := copy_routes_agree spared_reachable hhas rfl hplug (Ty.compatible_refl _)
    (.assign rfl)
  have hcalled : called ((change "plug" [] (.copyAssign spareOutlet.holder.snapshot)).run spared).2.trace =
      [⟨3, "watch"⟩] := by decide +kernel
  exact ⟨spared_reachable, hhas, hplug, _, rfl, halike.session.symm, hcalled, halike.called ▸ hcalled⟩

end Session

end TypedValues
