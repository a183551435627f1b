import TypedValues.Proofs.Alternatives
import TypedValues.Proofs.Walks

/-! Assigning twice. A value that took a list takes it again and stays as it is. For a variant the second
assignment starts from another alternative than the first one may have started from: the one that the list
led to. By itself this alternative takes the list as it did inside the variant, or not at all, because an
operand of the variant's own type is too large for any part of one of its alternatives. -/

namespace TypedValues

/-- The operands are the same, but an expression may give another value, equal to the one before and of the
type that the expression declares. -/
inductive Operand.Repeats : Operand → Operand → Prop where
  | literal (l : Literal) : Repeats (.literal l) (.literal l)
  | value (v : Snapshot) : Repeats (.value v) (.value v)
  | item (r : ItemRef) : Repeats (.item r) (.item r)
  | expression {e e' : Expression} {v w : Snapshot} (declared : e'.declared = e.declared)
      (first : e.outcome = .ok v) (second : e'.outcome = .ok w)
      (type : v.type.compatible e.declared = true) (equal : (v.isEqual w).Gives true) :
      Repeats (.expression e) (.expression e')

theorem evaluate_gives {e : Expression} {v : Snapshot} (h : e.outcome = .ok v) : (evaluate e).Gives v :=
  (Attempt.gives_record _).bind (Attempt.gives_ofExcept h)

theorem Operand.interchange_repeats : Interchange Set.univ Content.Matches Repeats where
  component _ _ := Set.mem_univ _
  congruence := Content.congruence_matches
  literal h l := by cases h <;> simp
  whole h t u _ htu := by
    cases h with
    | literal | value | item => exact standsForWhole_of_matches htu (.same _)
    | @expression e e' _ _ declared =>
      have hsame : standsForWhole u (.expression e') = standsForWhole u (.expression e) := by
        simp only [standsForWhole, declared]
      rw [hsame]
      exact standsForWhole_of_matches htu (.same _)
  stages h t u _ htu := by
    cases h with
    | literal | value | item => exact stageOperand_agrees htu (.same _)
    | @expression e e' v w _ first second _ equal =>
      obtain ⟨c, d, hc, hd, htypes, hequal⟩ := Holder.isEqual_gives_true.1 equal
      have hvw : v.Matches w := by
        refine ⟨htypes, ?_⟩
        rw [hc, hd]
        exact .some ((Content.equals_iff c d).1 hequal).2
      rw [stageOperand, stageOperand]
      refine Attempt.Agrees.bind (R := fun a b => a = v ∧ b = w)
        (.of_gives (evaluate_gives first) (evaluate_gives second) ⟨rfl, rfl⟩) ?_
      rintro _ _ ⟨rfl, rfl⟩
      exact stageSnapshot_agrees Content.congruence_matches htu hvw.type hvw.content

/-- The value that an operand stands for, unless it is a literal. -/
def Operand.value? : Operand → Option Snapshot
  | .literal _ => none
  | .value v => some v
  | .item r => some ⟨r.type, some (.item r.index)⟩
  | .expression e =>
    match e.outcome with
    | .ok v => some v
    | .error _ => none

/-- An expression gives values of the type that it declares. -/
def Operand.Declared (o : Operand) : Prop :=
  ∀ e, o = .expression e → ∀ v, e.outcome = .ok v → v.type.compatible e.declared = true

variable {K : Set Ty} {next : Nat}

theorem Operand.Typed.value {o : Operand} (h : o.Typed K) {v : Snapshot} (hv : o.value? = some v) :
    v.Typed K := by
  cases o with
  | literal => cases hv
  | value => cases hv; exact h
  | item r =>
    cases hv
    refine ⟨h.type, fun c hc => ?_⟩
    cases hc
    exact .leaf h.fits rfl
  | expression e =>
    rw [Operand.value?] at hv
    split at hv
    next hw => cases hv; exact h _ hw
    next => cases hv

theorem stageTyped_of_compatible {t a : Ty} (h : a.compatible t = true) (c : Content Ty) (offer : Offer) :
    stageTyped t a c offer = .ok c := if_pos h

theorem stageSnapshot_eq_ok {t : Ty} {v : Snapshot} {p : Policy} {d : Content Ty}
    (h : ((stageSnapshot t v).run p).outcome = .ok d) :
    ∃ c offer, v.content = some c ∧ stageTyped t v.type c offer = .ok d := by
  unfold stageSnapshot at h
  split at h
  next => exact absurd h Attempt.not_violate_ok
  next c hc => exact ⟨c, _, hc, Attempt.ofExcept_eq_ok.1 h⟩

/-- Unless it is a literal, an operand is staged as the value that it stands for. -/
theorem stageOperand_eq_ok {t : Ty} {o : Operand} (ho : ∀ l, o ≠ .literal l) {p : Policy} {d : Content Ty}
    (h : ((stageOperand t o).run p).outcome = .ok d) :
    ∃ v c offer, o.value? = some v ∧ v.content = some c ∧ stageTyped t v.type c offer = .ok d := by
  cases o with
  | literal l => exact absurd rfl (ho l)
  | value v =>
    obtain ⟨c, offer, hc, hd⟩ := stageSnapshot_eq_ok h
    exact ⟨v, c, offer, rfl, hc, hd⟩
  | item r => exact ⟨_, _, _, rfl, rfl, Attempt.ofExcept_eq_ok.1 h⟩
  | expression e =>
    obtain ⟨v, hv, h⟩ := Attempt.bind_eq_ok.1 h
    obtain ⟨c, offer, hc, hd⟩ := stageSnapshot_eq_ok h
    refine ⟨v, c, offer, ?_, hc, hd⟩
    rw [Operand.value?, evaluate_eq_ok hv]

theorem Operand.Repeats.declared {o o' : Operand} (h : o.Repeats o') : o.Declared := by
  rintro e rfl v hv
  cases h with
  | expression _ first _ type =>
    cases first.symm.trans hv
    exact type

mutual

theorem Initializer.Related.operands {R : Operand → Operand → Prop} :
    ∀ {i i' : Initializer}, i.Related R i' → List.Forall₂ R i.operands i'.operands
  | .operand _, _, .operand h => .cons h .nil
  | .list _, _, .list h => InitEntry.AllRelated.operands h

theorem InitEntry.AllRelated.operands {R : Operand → Operand → Prop} :
    ∀ {es es' : List InitEntry}, InitEntry.AllRelated R es es' →
      List.Forall₂ R (InitEntry.operandsAll es) (InitEntry.operandsAll es')
  | [], _, .nil => .nil
  | ⟨_, _⟩ :: _, _, .cons h rest =>
    List.rel_append (Initializer.Related.operands h) (InitEntry.AllRelated.operands rest)

end

theorem Ty.sizeOf_resolved : ∀ t : Ty, sizeOf t.resolved ≤ sizeOf t
  | ⟨_, _, _, _, _, none⟩ => le_rfl
  | ⟨_, _, _, _, _, some source⟩ => by
    have := sizeOf_resolved source
    simp only [resolved, Ty.mk.sizeOf_spec, Option.some.sizeOf_spec]
    omega

/-- A component is smaller than the source of the type, whatever aliases lie in between. -/
theorem Catalog.sizeOf_component (hK : Catalog K next) {t u : Ty} (ht : t ∈ K)
    (hu : u ∈ t.shape.components) : sizeOf u < sizeOf t.resolved := by
  apply Ty.sizeOf_component
  rw [← Shape.components_core, ← (hK.resolved ht).2, Shape.components_core]
  exact hu

/-- A type that takes an input is at least as large as the source of each value in it. -/
theorem stage_bounds (hK : Catalog K next) {t : Ty} (ht : t ∈ K) {input : Input}
    (ho : ∀ o ∈ input.operands, o.Typed K) : (stage t input).Ensures fun _ =>
      ∀ o ∈ input.operands, ∀ v, o.value? = some v → sizeOf v.type.resolved ≤ sizeOf t := by
  let Q (t : Ty) (o : Operand) : Prop :=
    t ∈ K → o.Typed K → ∀ v, o.value? = some v → sizeOf v.type.resolved ≤ sizeOf t
  have taken {a b : Ty} (ha : a ∈ K) (hb : b ∈ K) (h : a.compatible b = true) :
      sizeOf a.resolved ≤ sizeOf b := by
    rw [hK.resolved_eq ha hb h]
    exact b.sizeOf_resolved
  have operand (t : Ty) (o : Operand) : (stageOperand t o).Ensures fun _ => Q t o := by
    intro p d hd ht ho v hv
    have hliteral (l : Literal) : o ≠ .literal l := by
      rintro rfl
      cases hv
    obtain ⟨w, c, offer, hw, -, hstaged⟩ := stageOperand_eq_ok hliteral hd
    cases hv.symm.trans hw
    have hvt := (ho.value hv).type
    have part {u : Ty} (hu : u ∈ t.shape.components) (h : v.type.compatible u = true) :
        sizeOf v.type.resolved ≤ sizeOf t :=
      (taken hvt (hK.component_mem ht hu) h).trans (Ty.sizeOf_component hu).le
    rcases stageTyped_cases hstaged with ⟨h, -⟩ | ⟨u, hs, h, -⟩ | ⟨us, i, u, hs, hu, h, -⟩
    · exact taken hvt ht h
    · exact part (by rw [hs]; exact List.mem_cons_self) h
    · exact part (by rw [hs]; exact List.mem_of_getElem? hu) h
  have component (t u : Ty) (hu : u ∈ t.shape.components) (o : Operand) (h : Q u o) : Q t o :=
    fun ht ho v hv => (h (hK.component_mem ht hu) ho v hv).trans (Ty.sizeOf_component hu).le
  have literal (t : Ty) (l : Literal) : Q t (.literal l) := fun _ _ v hv => by cases hv
  intro p c hc o hmem
  exact stage_each literal operand component t input p c hc o hmem ht (ho o hmem)

/-- No component takes an input with a value of the type itself. -/
theorem component_refuses (hK : Catalog K next) {t u : Ty} (ht : t ∈ K) (hu : u ∈ t.shape.components)
    (input : Input) (ho : ∀ o ∈ input.operands, o.Typed K) {o : Operand} (hmem : o ∈ input.operands)
    {v : Snapshot} (hv : o.value? = some v) (hcompat : v.type.compatible t = true) (p : Policy)
    (c : Content Ty) : ((stage u input).run p).outcome ≠ .ok c := by
  intro hc
  have hle := stage_bounds hK (hK.component_mem ht hu) ho p c hc o hmem v hv
  have hlt := hK.sizeOf_component ht hu
  rw [hK.resolved_eq ((ho o hmem).value hv).type ht hcompat] at hle
  omega

theorem standsForWhole_of_compatible (hK : Catalog K next) {u : Ty} (hu : u ∈ K) {o : Operand}
    (ho : o.Typed K) (hdeclared : o.Declared) {v : Snapshot} (hv : o.value? = some v)
    (hcompat : v.type.compatible u = true) : standsForWhole u o = true := by
  unfold standsForWhole
  cases o with
  | literal => cases hv
  | value => cases hv; split <;> first | exact hcompat | rfl
  | item r =>
    cases hv
    -- a struct or an array is compatible with no enumeration
    have hfits := hK.fits ho.type hu hcompat ho.fits
    cases hfits with
    | item hs => rw [hs]
  | expression e =>
    rw [Operand.value?] at hv
    split at hv
    next w hw =>
      cases hv
      have := Ty.compatible_trans (Ty.compatible_symm (hdeclared e rfl v hw)) hcompat
      split <;> first | exact this | rfl
    next => cases hv

section

variable {t u : Ty} {us : List Ty} {i : Nat} {n : Node Ty} {c : Content Ty} {p : Policy}

theorem stage_lone_operand {o : Operand} (ho : ∀ l, o ≠ .literal l) (hwhole : standsForWhole t o = true)
    (h : ((stage t (.entries [⟨none, .operand o⟩])).run p).outcome = .ok c) :
    ∃ v d offer, o.value? = some v ∧ v.content = some d ∧ stageTyped t v.type d offer = .ok c := by
  rw [stage_lone hwhole] at h
  exact stageOperand_eq_ok ho h

variable (hK : Catalog K next) (ht : t ∈ K) (hs : t.shape = .variant us) (hu : us[i]? = some u)

include hs hu in
theorem literal_alone {l : Literal}
    (h : ((stage t (.entries [⟨none, .operand (.literal l)⟩])).run p).outcome = .ok (.variant i n))
    (halone : ((stage u (.entries [⟨none, .operand (.literal l)⟩])).run p).outcome = .ok c) : n = ⟨u, c⟩ := by
  rw [stage_lone_literal (standsForWhole_variant hs _), stageLiteral_variant_eq_ok hs] at h
  obtain ⟨inner, rfl, hinner⟩ := h.inner hu
  cases hwhole : standsForWhole u (.literal l) with
  | true => cases hinner.symm.trans ((stage_lone_literal hwhole p c).1 halone); rfl
  | false => exact absurd hinner (stageLiteral_of_part hwhole _)

include hK ht hs hu in
/-- The value of an operand is of the variant's type or of the alternative's. One of the variant's type is too
large for the alternative. -/
theorem operand_alone {o : Operand} (ho : ∀ l, o ≠ .literal l) (htyped : o.Typed K) (hdeclared : o.Declared)
    (h : ((stage t (.entries [⟨none, .operand o⟩])).run p).outcome = .ok (.variant i n))
    (halone : ((stage u (.entries [⟨none, .operand o⟩])).run p).outcome = .ok c) : n = ⟨u, c⟩ := by
  have hcomponent := Ty.component_variant hs (List.mem_of_getElem? hu)
  obtain ⟨v, content, offer, hv, hcontent, hstaged⟩ := stage_lone_operand ho (standsForWhole_variant hs _) h
  rcases stageTyped_cases hstaged with ⟨hcompat, -⟩ | ⟨w, hs', -⟩ | ⟨us', j, w, hs', hw, hcompat, heq⟩
  · have hoperands : (Input.entries [⟨none, .operand o⟩]).operands = [o] := rfl
    refine absurd halone (component_refuses hK ht hcomponent _ ?_ ?_ hv hcompat p c)
    · simpa [hoperands] using htyped
    · simp [hoperands]
  · cases hs.symm.trans hs'
  · cases heq
    cases hs.symm.trans hs'
    cases hu.symm.trans hw
    have hwhole := standsForWhole_of_compatible hK (hK.component_mem ht hcomponent) htyped hdeclared hv hcompat
    obtain ⟨v', content', offer', hv', hcontent', hstaged'⟩ := stage_lone_operand ho hwhole halone
    cases hv.symm.trans hv'
    cases hcontent.symm.trans hcontent'
    cases hstaged'.symm.trans (stageTyped_of_compatible hcompat _ _)
    rfl

include hK ht hs hu in
/-- If a variant takes entries as one of its alternatives, and this one takes them by itself, it makes the
same of them. -/
theorem alternative_alone {es : List InitEntry} (ho : ∀ o ∈ InitEntry.operandsAll es, o.Typed K ∧ o.Declared)
    (h : ((stage t (.entries es)).run p).outcome = .ok (.variant i n))
    (halone : ((stage u (.entries es)).run p).outcome = .ok c) : n = ⟨u, c⟩ := by
  have haccepts := stage_accepts t (.entries es) p _ h
  cases hsettled : settled? t es with
  | none =>
    obtain ⟨inner, rfl, hinner⟩ := ((stage_variant_eq_ok_iff hs hsettled haccepts).1 h).inner hu
    cases halone.symm.trans hinner
    rfl
  | some x =>
    rcases settled?_eq_some hsettled with ⟨rfl, -⟩ | ⟨o, rfl, -⟩
    · rw [stage_nil_eq_ok] at halone
      rw [stage_nil_eq_ok, defaultContent_variant hs] at h
      obtain ⟨w, inner, hw, hinner, heq⟩ := h
      cases heq
      cases hu.symm.trans hw
      cases halone.symm.trans hinner
      rfl
    · obtain ⟨htyped, hdeclared⟩ := ho o (by simp [InitEntry.operandsAll, InitEntry.operands, Initializer.operands])
      by_cases hliteral : ∃ l, o = .literal l
      · obtain ⟨l, rfl⟩ := hliteral
        exact literal_alone hs hu h halone
      · exact operand_alone hK ht hs hu (not_exists.1 hliteral) htyped hdeclared h halone

end

theorem restage_cases {α : Type} {t : Ty} {current : Content α} {es : List InitEntry} {p : Policy}
    {d : Content Ty} (h : ((restage t current es).run p).outcome = .ok d) :
    ((stageList t es).run p).outcome = .ok d ∨
      ∃ us i u c, t.shape = .variant us ∧ us[i]? = some u ∧ ((stageList u es).run p).outcome = .ok c ∧
        d = .variant i ⟨u, c⟩ := by
  unfold restage at h
  split at h
  next us i n hs =>
    split at h
    next u hu =>
      obtain ⟨found, hfound, h⟩ := Attempt.bind_eq_ok.1 h
      cases found with
      | some c => cases h; exact .inr ⟨us, i, u, c, hs, hu, Result.trial_eq_some.1 hfound, rfl⟩
      | none => exact .inl h
    next => exact .inl h
  next => exact .inl h

theorem restage_variant {α : Type} {t u : Ty} {us : List Ty} (hs : t.shape = .variant us) {i : Nat}
    (hu : us[i]? = some u) (n : Node α) (es : List InitEntry) :
    restage t (.variant i n) es = ((stageList u es).trial >>= fun found =>
      match found with
      | some content => pure (.variant i ⟨u, content⟩)
      | none => stageList t es) := by
  unfold restage
  rw [hs]
  simp only
  rewrite [hu]
  rfl

theorem restage_of_other {α : Type} {t : Ty} (h : ∀ us, t.shape ≠ .variant us) (current : Content α)
    (es : List InitEntry) : restage t current es = stageList t es := by
  unfold restage
  split
  next us _ _ hs => exact absurd hs (h us)
  next => rfl

/-- What a list was staged to for a value, it is staged to again for a value that matches this. -/
theorem restage_again (hK : Catalog K next) {t : Ty} (ht : t ∈ K) {α β : Type} {before : Content α}
    {after : Content β} {es : List InitEntry} (ho : ∀ o ∈ InitEntry.operandsAll es, o.Typed K)
    (hdeclared : ∀ o ∈ InitEntry.operandsAll es, o.Declared) {p : Policy} {d : Content Ty}
    (h : ((restage t before es).run p).outcome = .ok d) (hafter : d.Matches after) :
    ((restage t after es).run p).outcome = .ok d := by
  by_cases hvariant : ∃ us, t.shape = .variant us
  · obtain ⟨us, hs⟩ := hvariant
    cases (restage_typed hK ht before ho p d h).fits with
    | @variant _ u us' i n hs' hu =>
      cases hs.symm.trans hs'
      obtain ⟨m, rfl⟩ := hafter.variant_right
      rw [restage_variant hs hu, Attempt.bind_eq_ok]
      rcases restage_cases h with hall | ⟨us', j, w, c, hs', hw, halone, heq⟩
      · have hpeeled : ∀ o ∈ InitEntry.operandsAll (peel es), o.Typed K ∧ o.Declared := by
          intro o hmem
          rw [operandsAll_peel] at hmem
          exact ⟨ho o hmem, hdeclared o hmem⟩
        rcases halone : ((stageList u es).run p).outcome with c | e | e
        · obtain rfl := alternative_alone hK ht hs hu hpeeled hall halone
          exact ⟨some c, Result.trial_eq_some.2 halone, rfl⟩
        · exact ⟨none, by simp only [Attempt.trial, Result.trial, halone], hall⟩
        · exact absurd halone (stage_ne_panic (stage_accepts t _ p _ hall) p e)
      · cases heq
        cases hs.symm.trans hs'
        cases hu.symm.trans hw
        exact ⟨some c, Result.trial_eq_some.2 halone, rfl⟩
    | _ => simp_all
  · rw [restage_of_other (not_exists.1 hvariant)] at h ⊢
    exact h

/-- The same holds of a list whose expressions are evaluated anew. -/
theorem restage_repeats (hK : Catalog K next) {t : Ty} (ht : t ∈ K) {α β : Type} {before : Content α}
    {after : Content β} {es es' : List InitEntry} (hes : InitEntry.AllRelated Operand.Repeats es es')
    (ho : ∀ o ∈ InitEntry.operandsAll es, o.Typed K) {p : Policy} {d : Content Ty}
    (h : ((restage t before es).run p).outcome = .ok d) (hafter : d.Matches after) :
    ∃ e, ((restage t after es').run p).outcome = .ok e ∧ d.Matches e := by
  have hdeclared : ∀ o ∈ InitEntry.operandsAll es, o.Declared := by
    intro o hmem
    obtain ⟨_, -, hrepeat⟩ := forall₂_exists_left hes.operands.flip hmem
    exact hrepeat.declared
  have hrelated := restage_related Operand.interchange_repeats (Set.mem_univ t) (.refl t) (d := after) rfl hes p
  rw [restage_again hK ht ho hdeclared h hafter] at hrelated
  generalize ((restage t after es').run p).outcome = outcome at hrelated
  cases hrelated with
  | ok hde => exact ⟨_, rfl, hde⟩

theorem Table.put_put {α : Type} (t : Table α) (label : String) (a b : α) :
    (t.put label a).put label b = t.put label b := by
  simp [put, erase]

namespace Session

variable {s : Session} {K : Set Ty} {label : String} {walk : List Access} {location : Location}

theorem stageChange_assign {α : Type} [HasType α] {m : Node α} {es : List InitEntry} {p : Policy}
    {r : Edit × Option Nat} : ((m.holder.stageChange (.assign es)).run p).outcome = .ok r ↔
      ∃ d, ((restage m.type m.content es).run p).outcome = .ok d ∧ r = (.replace d, none) := by
  have hassign : m.holder.stageChange (.assign es) =
      (do return (.replace (← restage m.type m.content es), none)) := rfl
  rw [hassign, Attempt.bind_eq_ok]
  simp only [Attempt.run_pure, Outcome.ok.injEq, eq_comm]

/-- What a change does that is staged to replace the content of a node. Content that is there already stays, and
no observer is called. -/
theorem replace_run (h : s.Invariant K) {n m : Node Cell} (hroot : s.values.get? label = some n.holder)
    (hreach : ((n.holder.reachAll walk).run s.policy).outcome = .ok (location, m.holder)) {c : Change}
    {d : Content Ty} (hstage : ((m.holder.stageChange c).run s.policy).outcome = .ok (.replace d, none))
    (hstaged : d.Typed K m.type) :
    ((change label walk c).run s).2.outcome = .ok none ∧
      ∃ after : Content Cell, after.equals d = true ∧ n.get? location = some m ∧
        ((change label walk c).run s).1.values = s.values.put label (n.set location ⟨m.label, after⟩).holder ∧
        ((change label walk c).run s).1.policy = s.policy ∧
        (m.content.equals d = true →
          after = m.content ∧ called ((change label walk c).run s).2.trace = []) := by
  rcases change_cases s label walk c with ⟨-, -, -, hrefused⟩ |
    ⟨root, location', target, edit, position, hroot', hreach', hstage', hs, hcalled, hok⟩
  · exact absurd hstage (hrefused _ _ _ hroot hreach _)
  cases hroot.symm.trans hroot'
  cases hreach.symm.trans hreach'
  cases hstage.symm.trans hstage'
  have hpart := Holder.reachAll_ensures _ _ _ _ hreach
  have hget := Node.get?_of_part? hpart
  have hcontent := ((h.sound.values label _ hroot).part? hpart).content m.content rfl
  have hmerge := (hcontent.alike h.sound.catalog hstaged).merges m.label.signal s.signals
  refine ⟨hok, (m.content.merge m.label.signal d s.signals).tree, hmerge.equal, hget, ?_, ?_, fun hequal => ?_⟩
  · rw [hs, Holder.commit_node hget rfl]
  · rw [hs]
  · have hchanged := hmerge.changed
    rw [hequal] at hchanged
    have hsame := hmerge.same hchanged
    refine ⟨hsame, ?_⟩
    rw [hcalled, Holder.commit_node hget rfl]
    have hevents : ((Edit.replace d).commit m.label (some m.content) s.signals).events =
        notifications (m.content.merge m.label.signal d s.signals).called := by
      simp [Edit.commit, hchanged]
    rw [hevents, called_notifications, hmerge.called, hsame,
      Content.changedBelow_of_equals hcontent.fits.equals_self]
    rfl

theorem assign_run (h : s.Invariant K) {n m : Node Cell} (hroot : s.values.get? label = some n.holder)
    (hreach : ((n.holder.reachAll walk).run s.policy).outcome = .ok (location, m.holder))
    {es : List InitEntry} (ho : ∀ o ∈ InitEntry.operandsAll es, o.Typed K) {d : Content Ty}
    (hd : ((restage m.type m.content es).run s.policy).outcome = .ok d) :
    ((change label walk (.assign es)).run s).2.outcome = .ok none ∧
      ∃ after : Content Cell, after.equals d = true ∧ n.get? location = some m ∧
        ((change label walk (.assign es)).run s).1.values =
          s.values.put label (n.set location ⟨m.label, after⟩).holder ∧
        ((change label walk (.assign es)).run s).1.policy = s.policy ∧
        (m.content.equals d = true →
          after = m.content ∧ called ((change label walk (.assign es)).run s).2.trace = []) := by
  have htyped := (h.sound.values label _ hroot).part? (Holder.reachAll_ensures _ _ _ _ hreach)
  have hstaged := restage_typed h.sound.catalog htyped.type m.content ho _ _ hd
  exact replace_run h hroot hreach (stageChange_assign.2 ⟨d, hd, rfl⟩) hstaged

/-- An assignment that succeeded succeeds again, with expressions evaluated anew; nothing changes by it, and
no observer is called. -/
theorem assign_idempotent (hs : s.Reachable) {v : Value} (hv : s.Reaches label walk location v)
    (hc : v.isConstructed = true) {es es' : List InitEntry}
    (hrepeats : InitEntry.AllRelated Operand.Repeats es es') (ho : ∀ o ∈ InitEntry.operandsAll es, s.Offers o)
    (hok : ((change label walk (.assign es)).run s).2.outcome = .ok none) {t : Session}
    (ht : ((change label walk (.assign es)).run s).1 = t)
    (ho' : ∀ o ∈ InitEntry.operandsAll es', s.Offers o ∨ t.Offers o) :
    ((change label walk (.assign es')).run t).2.outcome = .ok none ∧
      called ((change label walk (.assign es')).run t).2.trace = [] ∧
      ((change label walk (.assign es')).run t).1.values = t.values ∧
      ∃ w, t.Reaches label walk location w ∧ w.label = v.label ∧
        ((change label walk (.assign es')).run t).1.Reaches label walk location w := by
  obtain ⟨K, hK⟩ := hs.invariant
  have hadvances := change_advances hK (c := .assign es) ho label walk
  rw [ht] at hadvances
  have htyped : ∀ o ∈ InitEntry.operandsAll es, o.Typed K := fun o hmem => hK.sound.offers (ho o hmem)
  have htyped' : ∀ o ∈ InitEntry.operandsAll es', o.Typed K := fun o hmem =>
    (ho' o hmem).elim hK.sound.offers hadvances.invariant.sound.offers
  obtain ⟨root, hroot, hreach⟩ := hv
  have hpart := Holder.reachAll_ensures _ _ _ _ hreach
  have hmem := ((hK.sound.values label _ hroot).part? hpart).type
  rcases Holder.part?_cases hpart with ⟨-, rfl, hnone⟩ | ⟨n, m, rfl, rfl, -⟩
  · rw [Holder.isConstructed, hnone] at hc
    cases hc
  rw [outcome_change hroot hreach] at hok
  rcases hstage : ((m.holder.stageChange (.assign es)).run s.policy).outcome with ⟨edit, position⟩ | e | e <;>
    rw [hstage] at hok
  case error | panic => cases hok
  obtain ⟨d, hd, -⟩ := stageChange_assign.1 hstage
  obtain ⟨-, after, hequal, -, hvalues, hpolicy, -⟩ := assign_run hK hroot hreach htyped hd
  rw [ht] at hvalues hpolicy
  obtain ⟨hnumber, hmatches⟩ := (Content.equals_iff after d).1 hequal
  -- the walk leads to the value again, which now holds what the list is staged to
  have hroot' : t.values.get? label = some (n.set location ⟨m.label, after⟩).holder := by
    rw [hvalues, Table.get?_put, if_pos rfl]
  have hreach' : (((n.set location ⟨m.label, after⟩).holder.reachAll walk).run t.policy).outcome =
      .ok (location, (⟨m.label, after⟩ : Node Cell).holder) := by
    rw [hpolicy]
    exact Holder.reachAll_set hreach rfl
  obtain ⟨d', hd', hdd'⟩ :=
    restage_repeats hK.sound.catalog hmem hrepeats htyped hd (Content.Matches.symm hmatches)
  rw [← hpolicy] at hd'
  obtain ⟨hok', after', -, hget', hvalues', hpolicy', hstays⟩ :=
    assign_run hadvances.invariant hroot' hreach' htyped' hd'
  obtain ⟨hafter, hquiet⟩ := hstays ((Content.equals_iff after d').2 ⟨hnumber, hmatches.trans hdd'⟩)
  have hplace : (n.set location ⟨m.label, after⟩).set location ⟨m.label, after'⟩ =
      n.set location ⟨m.label, after⟩ := by
    rw [hafter]
    exact Node.set_get? hget'
  have hvalues'' : ((change label walk (.assign es')).run t).1.values = t.values := by
    rw [hvalues', hplace, hvalues, Table.put_put]
  refine ⟨hok', hquiet, hvalues'', _, ⟨_, hroot', hreach'⟩, rfl, _, by rw [hvalues'']; exact hroot', ?_⟩
  rw [hpolicy']
  exact hreach'

/-- An outlet with a lamp is observed, and there is a note to fill in for the lamp. -/
def plug : Node Cell := ⟨⟨outletType, 2⟩, .variant 0 ⟨⟨lampType, 3⟩, .struct [⟨⟨boolType, 4⟩, .bool false⟩]⟩⟩

def plugged : Session :=
  let wired := ((change "plug" [] (.construct [])).run (shaded.create "plug" outletType)).1
  ((change "note" [] (.construct [⟨none, .operand (.literal (.text "dim"))⟩])).run
    ((wired.subscribe plug.holder "watch").create "note" stringType)).1

theorem plugged_reachable : plugged.Reachable := by
  have houtlet : shaded.types.get? "outlet" = some outletType := by rfl
  have hwired := shaded_reachable.make (.kept houtlet) "plug" (.construct []) fun o ho => by cases ho
  have hplug : ((change "plug" [] (.construct [])).run (shaded.create "plug" outletType)).1.values.get? "plug" =
      some plug.holder := by rfl
  have hwatched := hwired.step (.subscribe ⟨"plug", _, [], hplug, rfl⟩ "watch")
  have hstring : Namespace.type? (((change "plug" [] (.construct [])).run
      (shaded.create "plug" outletType)).1.subscribe plug.holder "watch").space 1 = some stringType := by rfl
  refine hwatched.make (.registered hstring) "note" _ fun o ho => ?_
  obtain rfl := List.mem_singleton.1 ho
  trivial

def dimmed (number : Nat) : List InitEntry :=
  [⟨none, .operand (.expression ⟨number, stringType, .ok ⟨stringType, some (.text "dim")⟩⟩)⟩]

/-- The lamp does not take the text, so the outlet takes it as its second alternative and calls its observer;
the second time it starts from there, and nobody is called. -/
theorem assign_idempotent_plugged : plugged.Reachable ∧ plugged.Reaches "plug" [] [] plug.holder ∧
    InitEntry.AllRelated Operand.Repeats (dimmed 1) (dimmed 2) ∧ ∃ t,
      ((change "plug" [] (.assign (dimmed 1))).run plugged).1 = t ∧
      ((change "plug" [] (.assign (dimmed 1))).run plugged).2.outcome = .ok none ∧
      called ((change "plug" [] (.assign (dimmed 1))).run plugged).2.trace = [⟨3, "watch"⟩] ∧
      ((change "plug" [] (.assign (dimmed 2))).run t).2.outcome = .ok none ∧
      called ((change "plug" [] (.assign (dimmed 2))).run t).2.trace = [] := by
  have hplug : plugged.Reaches "plug" [] [] plug.holder := ⟨_, by rfl, by rfl⟩
  have hrepeats : InitEntry.AllRelated Operand.Repeats (dimmed 1) (dimmed 2) :=
    .cons (.operand (.expression rfl rfl rfl (Ty.compatible_refl _)
      (Holder.isEqual_gives_true.2 ⟨_, _, rfl, rfl, Ty.compatible_refl _, by decide⟩))) .nil
  have hnote : plugged.values.get? "note" = some ⟨⟨stringType, 5⟩, some (.text "dim")⟩ := by rfl
  have hoffers (number : Nat) : ∀ o ∈ InitEntry.operandsAll (dimmed number), plugged.Offers o := by
    intro o ho
    obtain rfl := List.mem_singleton.1 ho
    rintro v ⟨⟩
    exact .part ⟨"note", _, [], hnote, rfl⟩
  have hok : ((change "plug" [] (.assign (dimmed 1))).run plugged).2.outcome = .ok none := by rfl
  obtain ⟨hagain, hquiet, -⟩ := assign_idempotent plugged_reachable hplug rfl hrepeats (hoffers 1) hok rfl
    fun o ho => .inl (hoffers 2 o ho)
  exact ⟨plugged_reachable, hplug, hrepeats, _, rfl, hok, by decide +kernel, hagain, hquiet⟩

end Session

end TypedValues
