import TypedValues.Proofs.Matching
import TypedValues.Proofs.Equality
import TypedValues.Proofs.Registry

/-! Aliases are transparent. Values of a type and of an alias of it change alike, are written alike, and
can be copied and compared; and wherever a value or an item is an operand, one of either type will do. -/

namespace TypedValues

/-- The changes are the same but for operands that match. -/
inductive Change.Matches : Change → Change → Prop where
  | construct {es es' : List InitEntry} (h : InitEntry.AllMatch es es') :
      Matches (.construct es) (.construct es')
  | assign {es es' : List InitEntry} (h : InitEntry.AllMatch es es') : Matches (.assign es) (.assign es')
  | copyConstruct {v w : Snapshot} (h : v.Matches w) : Matches (.copyConstruct v) (.copyConstruct w)
  | copyAssign {v w : Snapshot} (h : v.Matches w) : Matches (.copyAssign v) (.copyAssign w)
  | deserialize (d : Document) : Matches (.deserialize d) (.deserialize d)
  | parseUi (text : String) : Matches (.parseUi text) (.parseUi text)
  | pushDefault : Matches .pushDefault .pushDefault
  | insertDefault (index : Nat) : Matches (.insertDefault index) (.insertDefault index)
  | remove (index : Nat) : Matches (.remove index) (.remove index)
  | setActiveAlternative (index : Nat) :
      Matches (.setActiveAlternative index) (.setActiveAlternative index)

theorem Change.Matches.refl (c : Change) : c.Matches c := by
  cases c with
  | construct es => exact .construct (.refl es)
  | assign es => exact .assign (.refl es)
  | copyConstruct v => exact .copyConstruct (.refl v)
  | copyAssign v => exact .copyAssign (.refl v)
  | deserialize d => exact .deserialize d
  | parseUi text => exact .parseUi text
  | pushDefault => exact .pushDefault
  | insertDefault index => exact .insertDefault index
  | remove index => exact .remove index
  | setActiveAlternative index => exact .setActiveAlternative index

inductive Edit.Matches : Edit → Edit → Prop where
  | install {c d : Content Ty} (h : c.Matches d) : Matches (.install c) (.install d)
  | replace {c d : Content Ty} (h : c.Matches d) : Matches (.replace c) (.replace d)
  | insert (index : Nat) {n m : Node Ty} (h : n.content.Matches m.content) :
      Matches (.insert index n) (.insert index m)
  | remove (index : Nat) : Matches (.remove index) (.remove index)
  | keep : Matches .keep .keep

namespace Holder

variable {α β : Type} [HasType α] [HasType β] {a : Holder α} {b : Holder β}

theorem constructed_agrees (hab : a.Matches b) :
    Attempt.Agrees Content.Matches a.constructed b.constructed := by
  obtain ⟨-, hcontent⟩ := hab
  rcases a with ⟨l, c⟩
  rcases b with ⟨m, d⟩
  cases hcontent with
  | none => exact .violate _ _ _ _
  | some hcd => exact .pure hcd

theorem ensureUnconstructed_agrees (hab : a.Matches b) :
    Attempt.Agrees (fun _ _ => True) a.ensureUnconstructed b.ensureUnconstructed := by
  obtain ⟨-, hcontent⟩ := hab
  rcases a with ⟨l, c⟩
  rcases b with ⟨m, d⟩
  cases hcontent with
  | none => exact .pure trivial
  | some hcd => exact .violate _ _ _ _

theorem stageCopy_agrees (h : a.type.Mirrors b.type) {v w : Snapshot} (hvw : v.Matches w) :
    Attempt.Agrees Content.Matches (a.stageCopy v) (b.stageCopy w) := by
  obtain ⟨htype, hcontent⟩ := hvw
  rcases v with ⟨l, c⟩
  rcases w with ⟨m, d⟩
  cases hcontent with
  | none => exact .violate _ _ _ _
  | some hcd =>
    simp only [stageCopy, Ty.compatible_congr h.compatible htype]
    split
    · exact .pure hcd
    · exact .fail rfl

theorem elements_agrees (hab : a.Matches b) :
    Attempt.Agrees (fun ns ms => ns.length = ms.length) a.elements b.elements := by
  refine (constructed_agrees hab).bind fun c d hcd => ?_
  split
  next ns =>
    obtain ⟨ms, rfl, hlength⟩ := hcd.array_right
    exact .pure hlength
  next hother =>
    split
    next ms =>
      obtain ⟨ns, rfl, -⟩ := hcd.symm.array_right
      exact absurd rfl (hother ns)
    next => exact .fail rfl

theorem elementType_agrees (h : a.type.Mirrors b.type) (o : Operation) :
    Attempt.Agrees Eq (a.elementType o) (b.elementType o) := by
  unfold elementType
  rcases h.shapes with ⟨-, hs⟩ | ⟨base, ms, ns, ht, hu, -⟩
  · rw [hs]
    split
    · exact .pure rfl
    · exact .fail rfl
  · rw [ht, hu]
    exact .fail rfl

theorem refuse_agrees {γ δ : Type} {R : γ → δ → Prop} (cause : DataCause) :
    Attempt.Agrees R (a.refuse cause) (b.refuse cause) := .fail rfl

theorem stageInsert_agrees (h : a.type.Mirrors b.type) (hab : a.Matches b) (index : Nat) :
    Attempt.Agrees Edit.Matches (a.stageInsert index) (b.stageInsert index) := by
  have element : Attempt.Agrees Edit.Matches
      (do
        let element ← a.elementType .insertDefault
        return .insert index ⟨element, ← defaultContent element⟩)
      (do
        let element ← b.elementType .insertDefault
        return .insert index ⟨element, ← defaultContent element⟩) := by
    refine (elementType_agrees h _).bind fun t u htu => htu ▸ ?_
    exact (Attempt.Agrees.refl _).bind fun c d hcd => .pure (.insert index (.of_eq hcd))
  refine (elements_agrees hab).bind fun ns ms hlength => ?_
  simp only [hlength]
  split
  · exact (refuse_agrees (R := Eq) _).bind fun _ _ _ => element
  · exact element

theorem stageAlternative_agrees (h : a.type.Mirrors b.type) (hab : a.Matches b) (index : Nat) :
    Attempt.Agrees Edit.Matches (a.stageAlternative index) (b.stageAlternative index) := by
  have harguments : a.type.shape.arguments = b.type.shape.arguments := by
    rw [← Shape.arguments_core, h.core, Shape.arguments_core]
  refine (constructed_agrees hab).bind fun c d hcd => ?_
  split
  next active n =>
    obtain ⟨m, rfl⟩ := hcd.variant_right
    simp only [harguments]
    split
    · exact .pure .keep
    · split
      next alternative _ =>
        exact (Attempt.Agrees.refl _).bind fun c d hcd => .pure (.replace (.of_eq (by rw [hcd])))
      next => exact .fail rfl
  next hother =>
    split
    next active m =>
      obtain ⟨n, rfl⟩ := hcd.symm.variant_right
      exact absurd rfl (hother active n)
    next => exact .fail rfl

theorem stageChange_agrees (h : a.type.Mirrors b.type) (hab : a.Matches b) {c c' : Change}
    (hc : c.Matches c') :
    Attempt.Agrees (fun r q => r.1.Matches q.1 ∧ r.2 = q.2) (a.stageChange c) (b.stageChange c') := by
  have replaces {x y : Attempt Error (Content Ty)} (hxy : Attempt.Agrees Content.Matches x y) :
      Attempt.Agrees (fun r q => r.1.Matches q.1 ∧ r.2 = q.2)
        (do let _ ← a.constructed
            return (.replace (← x), none) : Attempt Error (Edit × Option Nat))
        (do let _ ← b.constructed
            return (.replace (← y), none) : Attempt Error (Edit × Option Nat)) :=
    (constructed_agrees hab).bind fun _ _ _ => hxy.bind fun _ _ hcd => .pure ⟨.replace hcd, rfl⟩
  cases hc with
  | construct hes =>
    exact (ensureUnconstructed_agrees hab).bind fun _ _ _ => (stageList_agrees h hes).bind fun _ _ hcd =>
      .pure ⟨.install hcd, rfl⟩
  | copyConstruct hvw =>
    exact (ensureUnconstructed_agrees hab).bind fun _ _ _ => (stageCopy_agrees h hvw).bind fun _ _ hcd =>
      .pure ⟨.install hcd, rfl⟩
  | assign hes =>
    exact (constructed_agrees hab).bind fun _ _ hcurrent =>
      (restage_agrees h hcurrent hes).bind fun _ _ hcd => .pure ⟨.replace hcd, rfl⟩
  | copyAssign hvw => exact replaces (stageCopy_agrees h hvw)
  | deserialize d => exact replaces ((decode_agrees h d).mono fun _ _ => .of_eq)
  | parseUi text => exact replaces (.ofExcept ((UiText.read_agrees h text).mono fun _ _ => .of_eq))
  | pushDefault =>
    refine (elements_agrees hab).bind fun ns ms hlength => ?_
    simp only [hlength]
    exact (stageInsert_agrees h hab _).bind fun _ _ hedit => .pure ⟨hedit, rfl⟩
  | insertDefault index => exact (stageInsert_agrees h hab index).bind fun _ _ hedit => .pure ⟨hedit, rfl⟩
  | remove index =>
    refine (elements_agrees hab).bind fun ns ms hlength => ?_
    simp only [hlength]
    split
    · exact (refuse_agrees (R := Eq) _).bind fun _ _ _ => .pure ⟨.remove index, rfl⟩
    · exact .pure ⟨.remove index, rfl⟩
  | setActiveAlternative index =>
    exact (stageAlternative_agrees h hab index).bind fun _ _ hedit => .pure ⟨hedit, rfl⟩

end Holder

/-- Content of types that mirror each other is written as one document. -/
theorem encode_mirrors {t u : Ty} (h : t.Mirrors u) (c : Content Ty) :
    Except.Agrees Eq (encode t c) (encode u c) := by
  induction c using Content.inductOn generalizing t u with
  | step c ih =>
    exact (Content.Parallel.refl c).encode_agrees Document.congruence_eq h.core
      (List.forall₂_same.2 fun n hn => ih n hn (.refl n.type))

namespace Edit

/-- What an edit makes of content, up to labels and the sign of zero. -/
def result : Edit → Option (Content Unit) → Option (Content Unit)
  | install c, _ | replace c, _ => some c.normal
  | insert i n, some (.array ns) => some (.array (ns.insertIdx i n.normal))
  | remove i, some (.array ns) => some (.array (ns.eraseIdx i))
  | _, current => current

theorem Matches.result_eq {e e' : Edit} (h : e.Matches e') : e.result = e'.result := by
  cases h with
  | install h | replace h => funext current; exact congrArg some h
  | insert index h =>
    funext current
    rcases current with _ | _ | _ | _ | _ | _ | _ | _ | _ | ns <;> try rfl
    rw [result, result, Node.normal_inj.2 h]
  | remove | keep => rfl

theorem commit_result {K : Set Ty} {next : Nat} (hK : Catalog K next) {e : Edit} {cell : Cell}
    {before : Content Cell} {s : Signals} (happlies : e.Applies (some before))
    (hbefore : before.Typed K cell.type) (he : e.Typed K cell.type) (hcell : cell.signal < s.all.size) :
    ∃ after, (e.commit cell (some before) s).tree = some after ∧
      some after.normal = e.result (some before.normal) := by
  cases e with
  | install c => cases happlies
  | replace staged =>
    obtain ⟨after, htree, hcarried⟩ := commit_carried hK happlies hbefore he hcell
    exact ⟨after, htree, congrArg some ((Content.equals_iff _ _).1 (hcarried.replaced staged rfl)).2⟩
  | insert i n =>
    obtain ⟨ns, heq, -⟩ := happlies
    cases heq
    have hnode : (n.plant cell.signal s).1.normal = n.normal := by
      conv_rhs => rw [← n.relabel_plant cell.signal s]
      rw [Node.normal_inj, Node.content_relabel, Content.normal_relabel]
    refine ⟨_, rfl, ?_⟩
    simp only [Content.normal, result, Node.normalAll_eq, List.map_insertIdx, hnode]
  | remove i =>
    obtain ⟨ns, heq, -⟩ := happlies
    cases heq
    refine ⟨_, rfl, ?_⟩
    simp only [Content.normal, result, Node.normalAll_eq, List.eraseIdx_map]
  | keep => exact ⟨before, rfl, rfl⟩

end Edit

namespace Session

variable {s : Session} {K : Set Ty} {label : String} {walk : List Access} {root target : Value}
  {location : Location} {c : Change}

/-- Once its target is reached, a change ends as the staging of its edit does. -/
theorem outcome_change (hroot : s.values.get? label = some root)
    (hreach : ((root.reachAll walk).run s.policy).outcome = .ok (location, target)) :
    ((change label walk c).run s).2.outcome =
      match ((target.stageChange c).run s.policy).outcome with
      | .ok (_, position) => .ok position
      | .error e => .error (.error e)
      | .panic e => .panic e := by
  rw [run_change hroot, prepare, Attempt.run_bind, Result.andThen_of_ok hreach]
  rcases hstage : (target.stageChange c).run s.policy with ⟨trace, ⟨edit, position⟩ | e | e⟩ <;>
    simp only [Attempt.run_bind, Attempt.toStray, Attempt.mapError, hstage, Result.mapError,
      Result.andThen, Attempt.run_pure]

theorem staged_of_change (hroot : s.values.get? label = some root)
    (hreach : ((root.reachAll walk).run s.policy).outcome = .ok (location, target)) {position : Option Nat}
    (hok : ((change label walk c).run s).2.outcome = .ok position) :
    ∃ edit, ((target.stageChange c).run s.policy).outcome = .ok (edit, position) := by
  rw [outcome_change hroot hreach] at hok
  split at hok
  next edit position' hstage =>
    cases hok
    exact ⟨edit, hstage⟩
  next => cases hok
  next => cases hok

theorem change_result (h : s.Invariant K) (hc : ∀ o ∈ c.operands, s.Offers o)
    (hroot : s.values.get? label = some root)
    (hreach : ((root.reachAll walk).run s.policy).outcome = .ok (location, target)) {edit : Edit}
    {position : Option Nat} (hstage : ((target.stageChange c).run s.policy).outcome = .ok (edit, position)) :
    ∃ root' after, ((change label walk c).run s).1.values.get? label = some root' ∧
      root'.part? location = some ⟨target.label, some after⟩ ∧ after.NanFree ∧
      some after.normal = edit.result (target.content.map Content.normal) := by
  obtain ⟨hcarried, hpart, -⟩ := change_carried h hc hroot hreach hstage
  have hafter : ((change label walk c).run s).1.values.get? label =
      some (root.commit location edit s.signals).tree := by
    rcases change_cases s label walk c with ⟨-, -, -, hrefused⟩ |
      ⟨root', location', target', edit', position', hroot', hreach', hstage', hs, -⟩
    · exact absurd hstage (hrefused root location target hroot hreach _)
    · cases hroot'.symm.trans hroot
      cases hreach'.symm.trans hreach
      cases hstage'.symm.trans hstage
      rw [hs, Table.get?_put, if_pos rfl]
  have hfree {after : Content Cell}
      (h : (root.commit location edit s.signals).tree.part? location = some ⟨target.label, some after⟩) :
      after.NanFree := ((hcarried.typed.part? h).content after rfl).fits.nanFree
  obtain ⟨happlies, -⟩ := target.stageChange_applies c _ _ hstage
  rcases Holder.part?_cases hpart with ⟨rfl, rfl, hnone⟩ | ⟨n, old, rfl, rfl, hold⟩
  · rw [hnone] at happlies ⊢
    cases edit with
    | install staged =>
      obtain ⟨after, htree, hrelabel⟩ := Holder.commit_install target staged s.signals
      have hpart' : (target.commit [] (.install staged) s.signals).tree.part? [] =
          some ⟨target.label, some after⟩ := by rw [htree, Holder.part?_nil]
      refine ⟨_, after, hafter, hpart', hfree hpart', ?_⟩
      rw [Edit.result, ← hrelabel, Content.normal_relabel]
    | replace | keep => cases happlies
    | insert | remove => obtain ⟨_, heq, -⟩ := happlies; cases heq
  · have htyped := (h.sound.values label _ hroot).part? hpart
    have hcell := (h.wired.tree label _ hroot).holds.bound _ (Holder.part?_label_mem hpart)
    have hedit := Holder.stageChange_typed h.sound.catalog htyped
      (fun o ho => h.sound.offers (hc o ho)) _ _ hstage
    obtain ⟨after, htree, hresult⟩ := Edit.commit_result h.sound.catalog happlies
      (htyped.content old.content rfl) hedit hcell
    have hpart' : (n.holder.commit location edit s.signals).tree.part? location =
        some ⟨old.label, some after⟩ := by
      rw [Holder.commit_node hold htree, Node.part?_holder, Node.get?_set hold]
      rfl
    exact ⟨_, after, hafter, hpart', hfree hpart', hresult⟩

/-- A walk from the value under the label arrives at the part. -/
def Reaches (s : Session) (label : String) (walk : List Access) (location : Location) (a : Value) : Prop :=
  ∃ root, s.values.get? label = some root ∧ ((root.reachAll walk).run s.policy).outcome = .ok (location, a)

theorem Reaches.inj {s : Session} {label : String} {walk : List Access} {location : Location} {a b : Value}
    (ha : s.Reaches label walk location a) (hb : s.Reaches label walk location b) : a = b := by
  obtain ⟨root, hroot, hreach⟩ := ha
  obtain ⟨root', hroot', hreach'⟩ := hb
  cases hroot.symm.trans hroot'
  exact congrArg Prod.snd (Outcome.ok.inj (hreach.symm.trans hreach'))

theorem Invariant.typed_of_reaches {K : Set Ty} {s : Session} (hK : s.Invariant K) {label : String}
    {walk : List Access} {location : Location} {a : Value} (ha : s.Reaches label walk location a) : a.Typed K := by
  obtain ⟨root, hroot, hreach⟩ := ha
  exact (hK.sound.values label _ hroot).part? (Holder.reachAll_ensures _ _ _ _ hreach)

theorem Reaches.node {s : Session} {label : String} {walk : List Access} {location : Location} {a : Value}
    (ha : s.Reaches label walk location a) (hc : a.isConstructed = true) : ∃ n m : Node Cell, a = m.holder ∧
      s.values.get? label = some n.holder ∧
      ((n.holder.reachAll walk).run s.policy).outcome = .ok (location, m.holder) := by
  obtain ⟨root, hroot, hreach⟩ := ha
  rcases Holder.part?_cases (Holder.reachAll_ensures _ _ _ _ hreach) with ⟨-, rfl, hnone⟩ | ⟨n, m, rfl, rfl, -⟩
  · rw [Holder.isConstructed, hnone] at hc
    cases hc
  · exact ⟨n, m, rfl, hroot, hreach⟩

def At (s : Session) (label : String) (location : Location) (a : Value) : Prop :=
  ∃ root, s.values.get? label = some root ∧ root.part? location = some a

/-- From `s`, an alias of `t` is sealed as `u`, in a scope or in none, with no attribute added. -/
inductive Aliases (s : Session) (t u : Ty) : Session → Prop where
  | sealed {name draft label : String}
      (h : ((sealType draft (t.aliasNamed name) label).run s).2.outcome = .ok u) :
      Aliases s t u ((sealType draft (t.aliasNamed name) label).run s).1
  | registered {name draft : String} {scope : ScopeId} {label : Option String}
      (h : ((addType draft (t.aliasNamed name) scope label).run s).2.outcome = .ok u) :
      Aliases s t u ((addType draft (t.aliasNamed name) scope label).run s).1

def Crosses (t u a b : Ty) : Prop := a = t ∧ b = u ∨ a = u ∧ b = t

/-- Nothing but names and texts tells `u` from `t`. -/
structure Transparent (s : Session) (t u : Ty) : Prop where
  value {a b : Ty} (h : Crosses t u a b) (c : Content Ty) :
    Operand.Matches (.value ⟨a, some c⟩) (.value ⟨b, some c⟩)
  item {a b : Ty} (h : Crosses t u a b) (i : Nat) : Operand.Matches (.item ⟨a, i⟩) (.item ⟨b, i⟩)
  changes {label label' : String} {walk walk' : List Access} {location location' : Location} {a b : Value}
    (ha : s.Reaches label walk location a) (hb : s.Reaches label' walk' location' b)
    (htypes : a.type = b.type ∨ Crosses t u a.type b.type)
    (hcontents : Option.Rel Content.Matches a.content b.content) {c c' : Change} (hc : c.Matches c')
    (ho : ∀ o ∈ c.operands, s.Offers o) (ho' : ∀ o ∈ c'.operands, s.Offers o) :
    Outcome.Agrees Eq ((change label walk c).run s).2.outcome ((change label' walk' c').run s).2.outcome ∧
      ∀ position, ((change label walk c).run s).2.outcome = .ok position → ∃ a' b',
        ((change label walk c).run s).1.At label location a' ∧ a'.label = a.label ∧
        ((change label' walk' c').run s).1.At label' location' b' ∧ b'.label = b.label ∧
        (a'.isEqual b').Gives true
  copies {v : Snapshot} (hv : s.Has v) (hvc : v.isConstructed = true) {label : String} {walk : List Access}
    {location : Location} {w : Value} (hw : s.Reaches label walk location w)
    (htypes : Crosses t u v.type w.type) {c : Change} (hc : c.Copies v w) :
    ((change label walk c).run s).2.outcome = .ok none ∧ ∃ w',
      ((change label walk c).run s).1.At label location w' ∧ w'.label = w.label ∧ (w'.isEqual v).Gives true
  compares {v w : Snapshot} (hv : v.isConstructed = true) (hw : w.isConstructed = true)
    (htypes : Crosses t u v.type w.type) : ∃ b, (v.isEqual w).Gives b
  written (c : Content Ty) : Except.Agrees Eq (encode t c) (encode u c)
  shown (c : Content Ty) : Except.Agrees Eq (UiText.write t c) (UiText.write u c)

variable {t u : Ty} {r x : Session}

theorem Aliases.mirrors (h : s.Aliases t u r) : t.Mirrors u := by
  cases h with
  | @sealed name draft label h =>
    rcases sealType_cases s draft (t.aliasNamed name) label with ⟨-, hfail⟩ | ⟨v, hseal, -, hok⟩
    · exact absurd h (hfail u)
    · obtain rfl : v = u := Outcome.ok.inj (hok.symm.trans h)
      obtain ⟨-, rfl⟩ := Namespace.sealed_eq_ok hseal
      exact Ty.mirrors_of_alias t name (t.aliasNamed name) rfl rfl rfl _
  | @registered name draft scope label h =>
    rcases addType_cases s draft (t.aliasNamed name) scope label with ⟨-, hfail⟩ | ⟨v, space, hadd, -, hok⟩
    · exact absurd h (hfail u)
    · obtain rfl : v = u := Outcome.ok.inj (hok.symm.trans h)
      obtain ⟨base, -, -, -, rfl, -⟩ := Namespace.addType_eq_ok hadd
      exact Ty.mirrors_of_alias t name ((t.aliasNamed name).register scope base s.space.types.size)
        (Shape.core_relink _ _) rfl rfl _

theorem Aliases.step (h : s.Aliases t u r) (ht : s.Knows t) : Step s r := by
  cases h with
  | sealed => exact .sealType (.aliasOf ht _) _ _
  | registered => exact .addType (.aliasOf ht _) _ _ _

/-- Matching changes of matching targets end alike, and what they leave there is equal. -/
theorem change_matches (hs : s.Reachable) {label label' : String} {walk walk' : List Access}
    {location location' : Location} {a b : Value} (ha : s.Reaches label walk location a)
    (hb : s.Reaches label' walk' location' b) (h : a.type.Mirrors b.type)
    (hcontents : Option.Rel Content.Matches a.content b.content) {c c' : Change} (hc : c.Matches c')
    (ho : ∀ o ∈ c.operands, s.Offers o) (ho' : ∀ o ∈ c'.operands, s.Offers o) :
    Outcome.Agrees Eq ((change label walk c).run s).2.outcome ((change label' walk' c').run s).2.outcome ∧
      ∀ position, ((change label walk c).run s).2.outcome = .ok position → ∃ a' b',
        ((change label walk c).run s).1.At label location a' ∧ a'.label = a.label ∧
        ((change label' walk' c').run s).1.At label' location' b' ∧ b'.label = b.label ∧
        (a'.isEqual b').Gives true := by
  obtain ⟨K, hK⟩ := hs.invariant
  obtain ⟨root, hroot, hreach⟩ := ha
  obtain ⟨root', hroot', hreach'⟩ := hb
  have hstaged := Holder.stageChange_agrees h ⟨h.compatible, hcontents⟩ hc s.policy
  rw [outcome_change hroot hreach, outcome_change hroot' hreach']
  generalize hx : ((a.stageChange c).run s.policy).outcome = x,
    hy : ((b.stageChange c').run s.policy).outcome = y at hstaged
  cases hstaged with
  | error he => exact ⟨.error he, by simp⟩
  | panic e e' => exact ⟨.panic e e', by simp⟩
  | @ok p q hpq =>
    obtain ⟨hedit, hposition⟩ := hpq
    refine ⟨.ok hposition, fun _ _ => ?_⟩
    obtain ⟨root₁, d, hroot₁, hpart, hfree, hresult⟩ := change_result hK ho hroot hreach hx
    obtain ⟨root₂, d', hroot₂, hpart', -, hresult'⟩ := change_result hK ho' hroot' hreach' hy
    refine ⟨_, _, ⟨root₁, hroot₁, hpart⟩, rfl, ⟨root₂, hroot₂, hpart'⟩, rfl, ?_⟩
    refine Holder.isEqual_gives_true.2 ⟨d, d', rfl, rfl, h.compatible, (Content.equals_iff d d').2 ⟨hfree, ?_⟩⟩
    have hbefore : a.content.map Content.normal = b.content.map Content.normal := by
      generalize a.content = before, b.content = before' at hcontents
      cases hcontents with
      | none => rfl
      | some hmatch => exact congrArg some hmatch
    rw [← hedit.result_eq, ← hbefore, ← hresult] at hresult'
    exact (Option.some.inj hresult').symm

theorem Crosses.mirrors (h : t.Mirrors u) {a b : Ty} (hab : Crosses t u a b) : a.Mirrors b := by
  rcases hab with ⟨rfl, rfl⟩ | ⟨rfl, rfl⟩
  · exact h
  · exact h.symm

/-- An alias is transparent, in every later state of the session. -/
theorem alias_transparent (hs : s.Reachable) (ht : s.Knows t) (hu : s.Aliases t u r) (hx : Run r x) :
    x.Transparent t u := by
  have hreachable : x.Reachable := (hs.step (hu.step ht)).trans hx
  have hmirrors := hu.mirrors
  constructor
  case value => exact fun h c => .value ⟨(h.mirrors hmirrors).compatible, .some rfl⟩
  case item => exact fun h i => .item (h.mirrors hmirrors).compatible rfl
  case changes =>
    intro label label' walk walk' location location' a b ha hb htypes hcontents c c' hc ho ho'
    have h : a.type.Mirrors b.type := by
      rcases htypes with heq | htypes
      · exact heq ▸ .refl _
      · exact htypes.mirrors hmirrors
    exact change_matches hreachable ha hb h hcontents hc ho ho'
  case copies =>
    rintro v hv hvc label walk location w ⟨root, hroot, hreach⟩ htypes c hc
    obtain ⟨content, hcontent⟩ := Option.isSome_iff_exists.1 hvc
    obtain ⟨hok, root', w', hroot', hpart, hrest⟩ := change_copies hreachable hv hcontent hroot hreach
      (Ty.compatible_symm (htypes.mirrors hmirrors).compatible) hc
    exact ⟨hok, w', ⟨root', hroot', hpart⟩, hrest⟩
  case compares =>
    intro v w hv hw htypes
    obtain ⟨c, hc⟩ := Option.isSome_iff_exists.1 hv
    obtain ⟨d, hd⟩ := Option.isSome_iff_exists.1 hw
    exact ⟨_, Holder.isEqual_gives hc hd (htypes.mirrors hmirrors).compatible⟩
  case written => exact fun c => encode_mirrors hmirrors c
  case shown => exact fun c => UiText.write_agrees hmirrors c

/-- A lamp and a fixture are made alike, and they are equal. -/
theorem alias_transparent_lit : lit.Reachable ∧ lit.Knows lampType ∧
    lit.Aliases lampType fixtureType fitted ∧ Run fitted furnished ∧
    ((change "shelf" [] (.construct [])).run furnished).2.outcome = .ok none ∧ ∃ a b,
      ((change "shelf" [] (.construct [])).run furnished).1.At "shelf" [] a ∧ a.type = lampType ∧
      ((change "spare" [] (.construct [])).run furnished).1.At "spare" [] b ∧ b.type = fixtureType ∧
      (a.isEqual b).Gives true := by
  have hkept : lit.types.get? "lamp" = some lampType := by rfl
  have hlamp : lit.Knows lampType := .kept hkept
  have halias : lit.Aliases lampType fixtureType fitted := .sealed (by rfl)
  have hlamp' : fitted.types.get? "lamp" = some lampType := by rfl
  have hfixture : (fitted.create "shelf" lampType).types.get? "fixture" = some fixtureType := by rfl
  have hrun : Run fitted furnished :=
    (Relation.ReflTransGen.refl.tail (.store (.blank (.kept hlamp')) "shelf")).tail
      (.store (.blank (.kept hfixture)) "spare")
  have hlaws := alias_transparent lit_reachable hlamp halias hrun
  have hshelf : furnished.Reaches "shelf" [] [] ⟨⟨lampType, 2⟩, none⟩ := ⟨_, by rfl, by rfl⟩
  have hspare : furnished.Reaches "spare" [] [] ⟨⟨fixtureType, 3⟩, none⟩ := ⟨_, by rfl, by rfl⟩
  have hok : ((change "shelf" [] (.construct [])).run furnished).2.outcome = .ok none := by rfl
  obtain ⟨-, hequal⟩ := hlaws.changes hshelf hspare (.inr (.inl ⟨rfl, rfl⟩)) .none (.refl (.construct []))
    (fun o ho => by cases ho) (fun o ho => by cases ho)
  obtain ⟨a, b, ha, halabel, hb, hblabel, heq⟩ := hequal none hok
  exact ⟨lit_reachable, hlamp, halias, hrun, hok, a, b, ha, congrArg Cell.type halabel, hb,
    congrArg Cell.type hblabel, heq⟩

end Session

end TypedValues
