import TypedValues.Proofs.Soundness
import TypedValues.Proofs.Wiring

/-! What holds in every session that a host can reach: it is sound over a catalog and wired, and on the
way no node in use has changed its type or lost its content. -/

namespace TypedValues.Session

variable {K L : Set Ty} {s t : Session}

structure Invariant (K : Set Ty) (s : Session) : Prop where
  sound : s.Sound K
  wired : s.Wired

/-- The invariant holds on, over a catalog that may have grown. -/
structure Advances (K L : Set Ty) (s t : Session) : Prop where
  grows : K ⊆ L
  invariant : t.Invariant L
  persists : s.Persists t

theorem Invariant.advances_self (h : s.Invariant K) : Advances K K s s :=
  ⟨subset_rfl, h, .refl s⟩

theorem Advances.trans {M : Set Ty} {u : Session} (h : Advances K L s t) (h' : Advances L M t u) :
    Advances K M s u :=
  ⟨h.grows.trans h'.grows, h'.invariant, h.persists.trans h'.persists⟩

/-- Steps that leave the values alone. -/
theorem Invariant.of_values (h : s.Invariant K) (hKL : K ⊆ L) (hsound : t.Sound L)
    (hvalues : t.values = s.values) (hsignals : t.signals = s.signals) : Advances K L s t := by
  have hext : s.signals.Extends t.signals := hsignals ▸ (Signals.Grows.refl _).toExtends
  exact ⟨hKL, ⟨hsound, h.wired.of_values hvalues hext (hsignals ▸ h.wired.observers)⟩,
    .of_values hvalues hext⟩

theorem get?_put_cases {α : Type} {t : Table α} {label other : String} {a b : α}
    (h : (t.put label a).get? other = some b) : b = a ∨ t.get? other = some b := by
  rw [Table.get?_put] at h
  split at h
  · cases h; exact .inl rfl
  · exact .inr h

theorem get?_keep_cases {α : Type} {t : Table α} {label : Option String} {other : String} {a b : α}
    (h : (t.keep label a).get? other = some b) : b = a ∨ t.get? other = some b := by
  rw [Table.get?_keep] at h
  split at h
  · cases h; exact .inl rfl
  · exact .inr h

theorem Sound.mono (h : s.Sound K) (hKL : K ⊆ L) {next : Nat} (hL : Catalog L next) :
    ({ s with nextIdentity := next } : Session).Sound L := by
  refine ⟨hL, h.space.mono hKL, fun l t ht => hKL (h.types l t ht),
    fun l d hd => (h.drafts l d hd).mono hKL, fun l v hv => ⟨hKL (h.values l v hv).type, fun c hc => ?_⟩⟩
  have hcontent := (h.values l v hv).content c hc
  exact ⟨hcontent.fits, fun x hx => hKL (hcontent.labels x hx), hcontent.ranged⟩

theorem Sound.extend (h : s.Sound K) {e : Definition} (he : e.Valid K) (hfault : e.fault? = none)
    (hpath : e.path.Valid) : ({ s with nextIdentity := s.nextIdentity + 1 } : Session).Sound
      (insert (e.withIdentity s.nextIdentity) K) :=
  h.mono (Set.subset_insert _ K) (h.catalog.extend he hfault hpath)

theorem Sound.dropDraft (h : s.Sound K) (draft : String) : (s.dropDraft draft).Sound K :=
  ⟨h.catalog, h.space, h.types, fun l d hd => h.drafts l d (Table.get?_of_erase hd), h.values⟩

theorem Sound.putDraft (h : s.Sound K) {d : Definition} (hd : d.Sound K) (label : String) :
    (s.putDraft label d).Sound K := by
  refine ⟨h.catalog, h.space, h.types, fun l e he => ?_, h.values⟩
  rcases get?_put_cases he with rfl | he
  · exact hd
  · exact h.drafts l e he

theorem Sound.putType (h : s.Sound K) {t : Ty} (ht : t ∈ K) (label : String) :
    ({ s with types := s.types.put label t } : Session).Sound K := by
  refine ⟨h.catalog, h.space, fun l u hu => ?_, h.drafts, h.values⟩
  rcases get?_put_cases hu with rfl | hu
  · exact ht
  · exact h.types l u hu

/-- The types that a call may seal: what the host builds, as it is or put into a scope, and the builtin types. -/
inductive Seals (s : Session) : Ty → Prop where
  | alone {d : Definition} (hd : s.Builds d) (identity : Nat) : Seals s (d.withIdentity identity)
  | registered {d : Definition} (hd : s.Builds d) (scope : ScopeId) (parent : Path) (id : TypeId) (identity : Nat) :
      Seals s ((d.register scope parent id).withIdentity identity)
  | builtin {t : Ty} (ht : Namespace.Files Namespace.builtins t) : Seals s t

/-- After the call, over a catalog in which all that is new was sealed by it. -/
def Grows (K : Set Ty) (s t : Session) : Prop := ∃ L, Advances K L s t ∧ ∀ u ∈ L, u ∈ K ∨ s.Seals u

theorem Grows.same (h : Advances K K s t) : Grows K s t := ⟨K, h, fun _ hu => .inl hu⟩

theorem renew_advances (h : s.Invariant K) (withBuiltins : Bool) : Grows K s ((renew withBuiltins).run s).1 := by
  have hs := h.sound
  cases withBuiltins with
  | true =>
    obtain ⟨L, hKL, hL, hspace, hnew⟩ := Namespace.sound_withBuiltins hs.catalog
    have hgrown := hs.mono hKL hL
    rw [run_renew_true]
    exact ⟨L, h.of_values hKL ⟨hL, hspace, hgrown.types, hgrown.drafts, hgrown.values⟩ rfl rfl,
      fun u hu => (hnew u hu).imp_right .builtin⟩
  | false =>
    exact .same (h.of_values subset_rfl
      ⟨hs.catalog, Namespace.sound_empty, hs.types, hs.drafts, hs.values⟩ rfl rfl)

theorem addScope_advances (h : s.Invariant K) (parent : ScopeId) (name : String)
    (label : Option String) : Advances K K s ((addScope parent name label).run s).1 := by
  rcases addScope_cases s parent name label with hs | ⟨id, space, hadd, hs⟩
  · rw [hs]; exact h.advances_self
  · rw [hs]
    have hspace := h.sound.space.addScope hadd
    exact h.of_values subset_rfl
      ⟨h.sound.catalog, hspace, h.sound.types, h.sound.drafts, h.sound.values⟩ rfl rfl

theorem addType_advances (h : s.Invariant K) {d : Definition} (hd : s.Builds d) (draft : String)
    (scope : ScopeId) (label : Option String) : Grows K s ((addType draft d scope label).run s).1 := by
  have hdrop := h.sound.dropDraft draft
  rcases addType_cases s draft d scope label with ⟨hs, -⟩ | ⟨t, space, hadd, hs, -⟩
  · rw [hs]; exact .same (h.of_values subset_rfl hdrop rfl rfl)
  · obtain ⟨base, e, rfl, he, hfault, hpath, heq⟩ :=
      Namespace.addType_ensures h.sound.space (h.sound.builds hd).toValid scope s.nextIdentity _ _ hadd
    cases heq
    rw [hs]
    have hnew := hdrop.extend he hfault hpath
    have hspace := hnew.space.insert scope (Set.mem_insert _ K)
    refine ⟨_, h.of_values (Set.subset_insert _ K)
      ⟨hnew.catalog, hspace, fun l u hu => ?_, hnew.drafts, hnew.values⟩ rfl rfl, ?_⟩
    · rcases get?_keep_cases hu with rfl | hu
      · exact Set.mem_insert _ K
      · exact hnew.types l u hu
    · rintro u (rfl | hu)
      · exact .inr (.registered hd scope base _ _)
      · exact .inl hu

theorem sealType_advances (h : s.Invariant K) {d : Definition} (hd : s.Builds d)
    (draft label : String) : Grows K s ((sealType draft d label).run s).1 := by
  have hdrop := h.sound.dropDraft draft
  rcases sealType_cases s draft d label with ⟨hs, -⟩ | ⟨t, hseal, hs, -⟩
  · rw [hs]; exact .same (h.of_values subset_rfl hdrop rfl rfl)
  · have hsound := h.sound.builds hd
    obtain ⟨hfault, rfl⟩ := Namespace.sealed_eq_ok hseal
    rw [hs]
    -- a definition that is not registered is its own root path's child
    have hpath : d.path.Valid := by
      rw [hsound.path]
      intro name hname
      obtain rfl := List.mem_singleton.1 hname
      exact Definition.name_of_complete hfault
    have hnew := (hdrop.extend hsound.toValid hfault hpath).putType (Set.mem_insert _ K) label
    refine ⟨_, h.of_values (Set.subset_insert _ K) hnew rfl rfl, ?_⟩
    rintro u (rfl | hu)
    · exact .inr (.alone hd _)
    · exact .inl hu

/-- One value is put, all of whose cells come from the value it replaces or are new. -/
theorem Invariant.put (h : s.Invariant K) {label : String} {v : Value} {old : List Cell}
    {signals : Signals} (hv : v.Typed K) (hw : v.Wired signals)
    (hkeeps : s.signals.Keeps old v.cells signals)
    (hold : ∀ c ∈ old, ∃ w, s.values.get? label = some w ∧ c ∈ w.cells)
    (hroot : v.label.signal < s.signals.all.size → ∃ w, s.values.get? label = some w ∧
      w.label = v.label ∧ (w.isConstructed → v.isConstructed)) :
    Advances K K s { s with signals, values := s.values.put label v } := by
  have hs := h.sound
  refine ⟨subset_rfl, ⟨⟨hs.catalog, hs.space, hs.types, hs.drafts, fun l w hw => ?_⟩,
    h.wired.put rfl hw hkeeps hold⟩, .put rfl hkeeps hold hroot⟩
  rcases get?_put_cases hw with rfl | hw
  · exact hv
  · exact hs.values l w hw

theorem store_advances (h : s.Invariant K) {v : Snapshot} (hv : v.Typed K) (label : String) :
    Advances K K s (s.store label v) := by
  rcases v with ⟨type, content⟩
  have hfresh := Signals.Keeps.fresh s.signals type none
  have hlt : s.signals.all.size < (s.signals.fresh none).2.all.size := by
    rw [Signals.size_fresh]; omega
  cases content with
  | none =>
    have hw : Holder.Wired (s.signals.fresh none).2 ⟨⟨type, s.signals.all.size⟩, none⟩ :=
      ⟨s.signals.parent?_fresh none, by simp, hfresh.holds (Signals.holds_nil _)⟩
    exact h.put ⟨hv.type, by simp⟩ hw hfresh (by simp) fun hlt => absurd hlt (lt_irrefl _)
  | some c =>
    obtain ⟨-, hplanted⟩ := c.plant_planted s.signals.all.size (s.signals.fresh none).2
    have hkeeps := hfresh.append hplanted.keeps
    rw [Node.labelsAll_eq, ← Content.labels_eq] at hkeeps
    refine h.put ⟨hv.type, ?_⟩ ⟨?_, ?_, hkeeps.holds (Signals.holds_nil _)⟩
      hkeeps (by simp) fun hlt => absurd hlt (lt_irrefl _)
    · intro d hd
      cases hd
      exact Content.plant_typed (hv.content c rfl) _ _
    · exact (hplanted.keeps.grows.parent _ hlt).trans (s.signals.parent?_fresh none)
    · intro d hd
      cases hd
      exact hplanted.linked hlt

theorem drop_advances (h : s.Invariant K) (label : String) :
    Advances K K s { s with values := s.values.erase label } := by
  have hs := h.sound
  exact ⟨subset_rfl, ⟨⟨hs.catalog, hs.space, hs.types, hs.drafts, fun l v hv =>
    hs.values l v (Table.get?_of_erase hv)⟩, h.wired.drop label⟩, .drop s label⟩

/-- What a change comes to when it is carried out: the edit is carried out where the walk leads. -/
theorem change_carried (h : s.Invariant K) {c : Change} (hc : ∀ o ∈ c.operands, s.Offers o)
    {v target : Value} {walk : List Access} {location : Location} {edit : Edit}
    {position : Option Nat} {label : String} (hv : s.values.get? label = some v)
    (hreach : ((v.reachAll walk).run s.policy).outcome = .ok (location, target))
    (hstage : ((target.stageChange c).run s.policy).outcome = .ok (edit, position)) :
    Holder.Carried K edit v location target s.signals (v.commit location edit s.signals) ∧
      v.part? location = some target ∧ edit.movesElements = c.movesElements := by
  have hpart := Holder.reachAll_ensures v walk _ _ hreach
  have hvt := h.sound.values label v hv
  obtain ⟨happlies, hmoves⟩ := target.stageChange_applies c _ _ hstage
  have hedit := Holder.stageChange_typed h.sound.catalog (hvt.part? hpart)
    (fun o ho => h.sound.offers (hc o ho)) _ _ hstage
  exact ⟨Holder.commit_carried h.sound.catalog hvt (h.wired.tree label v hv) hpart happlies hedit,
    hpart, hmoves⟩

theorem change_advances (h : s.Invariant K) {c : Change} (hc : ∀ o ∈ c.operands, s.Offers o)
    (label : String) (walk : List Access) : Advances K K s ((change label walk c).run s).1 := by
  rcases change_cases s label walk c with ⟨hs, -⟩ | ⟨v, location, target, edit, position, hv, hreach,
    hstage, hs, -⟩
  · rw [hs]; exact h.advances_self
  · obtain ⟨hcarried, -⟩ := change_carried h hc hv hreach hstage
    rw [hs]
    refine h.put hcarried.typed hcarried.wired hcarried.keeps (fun x hx => ⟨v, hv, hx⟩)
      fun _ => ⟨v, hv, hcarried.label.symm, hcarried.constructed⟩

/-- A change takes no value away, and none its content. -/
theorem change_keeps (h : s.Invariant K) {c : Change} (hc : ∀ o ∈ c.operands, s.Offers o)
    (label : String) (walk : List Access) {other : String} {v : Value}
    (hv : s.values.get? other = some v) :
    ∃ w, ((change label walk c).run s).1.values.get? other = some w ∧ w.label = v.label ∧
      (v.isConstructed → w.isConstructed) := by
  rcases change_cases s label walk c with ⟨hs, -⟩ | ⟨u, location, target, edit, position, hu, hreach,
    hstage, hs, -⟩
  · rw [hs]; exact ⟨v, hv, rfl, id⟩
  · obtain ⟨hcarried, -⟩ := change_carried h hc hu hreach hstage
    simp only [hs, Table.get?_put]
    split
    next heq =>
      subst heq
      obtain rfl : u = v := Option.some.inj (hu.symm.trans hv)
      exact ⟨_, rfl, hcarried.label, hcarried.constructed⟩
    next => exact ⟨v, hv, rfl, id⟩

theorem subscribe_advances (h : s.Invariant K) (target : Value) (label : String) :
    Advances K K s (s.subscribe target label) := by
  have hs := h.sound
  have hext := s.signals.extends_subscribe target.label.signal label
  exact ⟨subset_rfl, ⟨⟨hs.catalog, hs.space, hs.types, hs.drafts, hs.values⟩,
    h.wired.of_values rfl hext (h.wired.observers.subscribe _ _)⟩, .of_values rfl hext⟩

theorem unsubscribe_advances (h : s.Invariant K) (target : Value) (observer : ObserverId) :
    Advances K K s (s.unsubscribe target observer).1 := by
  have hs := h.sound
  have hext := s.signals.extends_unsubscribe target.label.signal observer
  exact ⟨subset_rfl, ⟨⟨hs.catalog, hs.space, hs.types, hs.drafts, hs.values⟩,
    h.wired.of_values rfl hext (h.wired.observers.unsubscribe _ _)⟩, .of_values rfl hext⟩

theorem step_advances (h : s.Invariant K) (hst : Step s t) : Grows K s t := by
  have hs := h.sound
  cases hst with
  | policy policy =>
    exact .same (h.of_values subset_rfl ⟨hs.catalog, hs.space, hs.types, hs.drafts, hs.values⟩ rfl rfl)
  | renew withBuiltins => exact renew_advances h withBuiltins
  | addScope parent name label => exact .same (addScope_advances h parent name label)
  | define hd label => exact .same (h.of_values subset_rfl (hs.putDraft (hs.builds hd) label) rfl rfl)
  | addType hd draft scope label => exact addType_advances h hd draft scope label
  | sealType hd draft label => exact sealType_advances h hd draft label
  | keepType ht label => exact .same (h.of_values subset_rfl (hs.putType (hs.knows ht) label) rfl rfl)
  | store hv label => exact .same (store_advances h (hs.has hv) label)
  | drop label => exact .same (drop_advances h label)
  | change hc label walk => exact .same (change_advances h hc label walk)
  | subscribe ht label => exact .same (subscribe_advances h _ label)
  | unsubscribe ht observer => exact .same (unsubscribe_advances h _ observer)

theorem run_advances (h : s.Invariant K) (hst : Run s t) : ∃ L, Advances K L s t := by
  induction hst with
  | refl => exact ⟨K, h.advances_self⟩
  | tail _ hstep ih =>
    obtain ⟨L, hL⟩ := ih
    obtain ⟨M, hM, -⟩ := step_advances hL.invariant hstep
    exact ⟨M, hL.trans hM⟩

theorem catalog_empty : Catalog ∅ 0 := ⟨by simp, by simp, by simp⟩

theorem invariant_initial :
    ∃ K, initial.Invariant K ∧ ∀ t ∈ K, Namespace.Files Namespace.builtins t := by
  obtain ⟨K, -, hK, hspace, hfiled⟩ := Namespace.sound_withBuiltins catalog_empty
  rw [Nat.zero_add] at hK
  refine ⟨K, ⟨⟨hK, hspace, ?_, ?_, ?_⟩, ⟨?_, ?_, ⟨?_, ?_, ?_⟩⟩⟩, fun t ht => (hfiled t ht).resolve_left id⟩
  all_goals simp [initial, Table.get?, Signals.empty, Signals.observers]

theorem Reachable.invariant (h : s.Reachable) : ∃ K, s.Invariant K := by
  obtain ⟨K, hK, -⟩ := invariant_initial
  obtain ⟨L, hL⟩ := run_advances hK h
  exact ⟨L, hL.invariant⟩

/-- Whatever calls were made, live values and copies hold only what their types allow; a call changes
no value's type and takes no content away, and neither does any number of calls to a node that stays. -/
theorem well_typed (hs : s.Reachable) :
    (∀ a, s.Part a → ∀ c, a.content = some c → c.Fits a.type) ∧
    (∀ v, s.Has v → ∀ c, v.content = some c → c.Fits v.type) ∧
    (∀ label walk c, (∀ o ∈ c.operands, s.Offers o) → ∀ other v, s.values.get? other = some v →
      ∃ w, ((change label walk c).run s).1.values.get? other = some w ∧ w.label = v.label ∧
        (v.isConstructed → w.isConstructed)) ∧
    ∀ t, Run s t → ∀ a b, s.Part a → t.Part b → a.label.signal = b.label.signal →
      b.type = a.type ∧ (a.isConstructed → b.isConstructed) := by
  obtain ⟨K, hK⟩ := hs.invariant
  refine ⟨fun a ha c hc => ((hK.sound.part ha).content c hc).fits,
    fun v hv c hc => ((hK.sound.has hv).content c hc).fits,
    fun label walk c hc other v hv => change_keeps hK hc label walk hv,
    fun t ht a b ha hb heq => ?_⟩
  obtain ⟨L, hL⟩ := run_advances hK ht
  obtain ⟨hlabel, hconstructed⟩ := hL.persists.part hK.wired ha hb heq
  exact ⟨congrArg Cell.type hlabel, hconstructed⟩

/-- The lamp fits its type, and its flag keeps its type when the lamp is changed. -/
theorem well_typed_lit : lit.Reachable ∧ deskLamp.content.Fits lampType ∧
    ∀ t, Run lit t → ∀ b, t.Part b → b.label.signal = 1 → b.type = boolType ∧ b.isConstructed := by
  obtain ⟨hfits, -, -, hkeeps⟩ := well_typed lit_reachable
  have hdesk : lit.values.get? "desk" = some deskLamp.holder := by rfl
  refine ⟨lit_reachable, hfits _ ⟨"desk", _, [], hdesk, rfl⟩ _ rfl, fun t ht b hb hsignal => ?_⟩
  obtain ⟨htype, hconstructed⟩ := hkeeps t ht bulb.holder b ⟨"desk", _, [0], hdesk, rfl⟩ hb hsignal.symm
  exact ⟨htype, hconstructed rfl⟩

end TypedValues.Session
