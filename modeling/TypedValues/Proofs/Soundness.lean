import TypedValues.Proofs.Atomicity
import TypedValues.Proofs.Building
import TypedValues.Proofs.Merge

/-! Sessions are sound. The types a session has sealed form a catalog, its definitions are valid over it
and its values are typed over it; every step keeps this, with a catalog that may have grown. -/

namespace TypedValues

namespace Namespace

variable {K L : Set Ty} {next : Nat}

/-- The types of the namespace are in the catalog, and its scopes have valid paths. -/
structure Sound (K : Set Ty) (ns : Namespace) : Prop where
  registered : ∀ id t, ns.type? id = some t → t ∈ K
  scopes : ∀ id p, ns.scopePath? id = some p → p.Valid

theorem Sound.mono {ns : Namespace} (h : ns.Sound K) (hKL : K ⊆ L) : ns.Sound L :=
  ⟨fun id t ht => hKL (h.registered id t ht), h.scopes⟩

theorem sound_empty : empty.Sound K := by
  refine ⟨fun id t ht => by simp [empty, type?] at ht, fun id p hp => ?_⟩
  cases id with
  | zero =>
    cases hp
    exact fun name hname => by cases hname
  | succ id => simp [empty, scopePath?] at hp

theorem Sound.insert {ns : Namespace} (h : ns.Sound K) (scope : ScopeId) {t : Ty} (ht : t ∈ K) :
    (ns.insert scope t).Sound K := by
  refine ⟨?_, ?_⟩
  · intro id u hu
    simp only [Namespace.insert, type?, Array.getElem?_push] at hu
    split at hu
    · cases hu; exact ht
    · exact h.registered id u hu
  · intro id p hp
    refine h.scopes id p ?_
    simp only [Namespace.insert, scopePath?, Array.getElem?_modify] at hp ⊢
    split at hp
    · simpa using hp
    · exact hp

theorem checkedPath_eq_ok {ns : Namespace} {parent p : Path} {name : String}
    (h : ns.checkedPath parent name = .ok p) (hparent : parent.Valid) :
    p = parent.child name ∧ p.Valid := by
  unfold checkedPath at h
  simp only at h
  split at h
  next => cases h
  next hname =>
    split at h
    next => cases h
    next =>
      cases h
      refine ⟨rfl, fun segment hsegment => ?_⟩
      rcases List.mem_append.1 hsegment with hsegment | hsegment
      · exact hparent segment hsegment
      · rw [List.mem_singleton.1 hsegment]; exact hname

theorem checkedScope_eq_ok {ns : Namespace} (hns : ns.Sound K) {scope : ScopeId} {p : Path}
    (h : ns.checkedScope scope = .ok p) : p.Valid := by
  unfold checkedScope at h
  split at h
  next hp => cases h; exact hns.scopes scope _ hp
  next => cases h

theorem Sound.addScope {ns ns' : Namespace} (h : ns.Sound K) {parent id : ScopeId} {name : String}
    (hadd : ns.addScope parent name = .ok (id, ns')) : ns'.Sound K := by
  obtain ⟨base, hbase, hadd⟩ := Except.bind_eq_ok.1 hadd
  obtain ⟨path, hpath, hadd⟩ := Except.bind_eq_ok.1 hadd
  obtain ⟨rfl, hvalid⟩ := checkedPath_eq_ok hpath (checkedScope_eq_ok h hbase)
  cases hadd
  refine ⟨h.registered, fun id p hp => ?_⟩
  simp only [scopePath?, Array.getElem?_push] at hp
  split at hp
  · cases hp; exact hvalid
  · refine h.scopes id p ?_
    simp only [scopePath?, Array.getElem?_modify] at hp ⊢
    split at hp
    · simpa using hp
    · exact hp

/-- A definition stays valid when it is put into a scope, and its path is the scope's with its name. -/
theorem register_valid {d : Definition} (hd : d.Valid K) (scope : ScopeId) (parent : Path)
    (id : TypeId) : (d.register scope parent id).Valid K := by
  have hrelink := Shape.core_relink d.shape (d.symbol.attach (some scope) parent).path
  refine ⟨?_, ?_, hd.taken, hd.shape.of_core_eq hrelink.symm, hd.inherits.relink _,
    hd.annotated.of_core_eq hrelink rfl⟩
  · intro u hu
    refine hd.parts u ?_
    rcases List.mem_append.1 hu with hu | hu
    · rw [Definition.register, ← Shape.parts_core, hrelink, Shape.parts_core] at hu
      exact List.mem_append_left _ hu
    · exact List.mem_append_right _ hu
  · intro source hs
    exact hrelink.trans (hd.source source hs)

theorem register_path {d : Definition} {scope : ScopeId} {parent : Path} {id : TypeId}
    (hparent : parent.Valid) (h : (d.register scope parent id).fault? = none) :
    (d.register scope parent id).path.Valid := by
  intro segment hsegment
  rcases List.mem_append.1 hsegment with hsegment | hsegment
  · exact hparent segment hsegment
  · rw [List.mem_singleton.1 hsegment]; exact Definition.name_of_complete (d := d.register scope parent id) h

theorem sealed_eq_ok {d : Definition} {identity : Nat} {t : Ty} (h : d.sealed identity = .ok t) :
    d.fault? = none ∧ t = d.withIdentity identity := by
  unfold Definition.sealed at h
  split at h
  next => cases h
  next hnone => cases h; exact ⟨hnone, rfl⟩

theorem fault?_register (d : Definition) (scope : ScopeId) (parent : Path) (id : TypeId) :
    (d.register scope parent id).fault? = d.fault? := by
  rcases d with ⟨symbol, i, shape, attributes, aliased⟩
  cases shape <;> rfl

theorem addType_ensures {ns : Namespace} (hns : ns.Sound K) {d : Definition} (hd : d.Valid K)
    (scope : ScopeId) (identity : Nat) : (ns.addType scope d identity).Ensures fun p =>
      ∃ base, ∃ e : Definition, e = d.register scope base ns.types.size ∧ e.Valid K ∧ e.fault? = none ∧
        e.path.Valid ∧ p = (e.withIdentity identity, ns.insert scope (e.withIdentity identity)) := by
  refine (Attempt.ensures_ofExcept fun p hp => checkedScope_eq_ok hns hp).bind fun base hbase => ?_
  refine (Attempt.ensures_true _).bind fun _ _ => ?_
  refine (Attempt.ensures_ofExcept fun t ht => sealed_eq_ok ht).bind fun t ht => ?_
  obtain ⟨hfault, rfl⟩ := ht
  exact (Attempt.ensures_true _).bind fun _ _ => Attempt.ensures_pure
    ⟨base, _, rfl, register_valid hd scope base _, hfault, register_path hbase hfault, rfl⟩

theorem builtins_blank : ∀ d ∈ builtins, ∃ name shape, d = .fresh name shape ∧ shape.Blank := by
  intro d hd
  rcases List.mem_append.1 hd with hd | hd
  · simp only [List.mem_cons, List.not_mem_nil, or_false] at hd
    rcases hd with rfl | rfl
    · exact ⟨_, _, rfl, rfl⟩
    · exact ⟨_, _, rfl, rfl⟩
  · obtain ⟨n, -, hd⟩ := List.mem_flatMap.1 hd
    rcases List.mem_append.1 hd with hd | hd
    · obtain ⟨k, -, rfl⟩ := List.mem_map.1 hd
      exact ⟨_, _, rfl, rfl⟩
    · obtain ⟨k, -, rfl⟩ := List.mem_map.1 hd
      exact ⟨_, _, rfl, rfl⟩

theorem builtins_complete : ∀ d ∈ builtins, d.fault? = none := by
  have hall : (builtins.all fun d => d.fault?.isNone) = true := by decide +kernel
  intro d hd
  exact Option.isNone_iff_eq_none.1 (List.all_eq_true.1 hall d hd)

def Files (ds : List Definition) (t : Ty) : Prop :=
  ∃ d ∈ ds, ∃ id identity, t = (d.register rootScope .root id).withIdentity identity

/-- Filing definitions one after the other seals each under the next identity. -/
theorem Sound.addBuiltins {ns : Namespace} (hns : ns.Sound K) (hK : Catalog K next)
    {ds : List Definition} (hds : ∀ d ∈ ds, (∀ L, d.Sound L) ∧ d.fault? = none) :
    ∃ L, K ⊆ L ∧ Catalog L (next + ds.length) ∧ (ns.addBuiltins next ds).Sound L ∧
      ∀ t ∈ L, t ∈ K ∨ Files ds t := by
  induction ds generalizing ns K next with
  | nil => exact ⟨K, subset_rfl, hK, hns, fun t ht => .inl ht⟩
  | cons d ds ih =>
    rw [List.forall_mem_cons] at hds
    obtain ⟨⟨hd, hfault⟩, hds⟩ := hds
    have hfault : (d.register rootScope .root ns.types.size).fault? = none := by
      rw [fault?_register]; exact hfault
    have hroot : Path.root.Valid := fun name hname => by cases hname
    have hextend := hK.extend (register_valid (hd K).toValid rootScope .root ns.types.size) hfault
      (register_path hroot hfault)
    obtain ⟨L, hKL, hL, hall, hnew⟩ := ih ((hns.mono (Set.subset_insert _ K)).insert rootScope
      (Set.mem_insert _ K)) hextend hds
    refine ⟨L, (Set.subset_insert _ K).trans hKL, ?_, hall, fun t ht => ?_⟩
    · rw [List.length_cons, Nat.add_comm ds.length, ← Nat.add_assoc]
      exact hL
    · rcases hnew t ht with (rfl | ht) | ⟨e, he, hfiled⟩
      · exact .inr ⟨d, List.mem_cons_self, ns.types.size, next, rfl⟩
      · exact .inl ht
      · exact .inr ⟨e, List.mem_cons_of_mem _ he, hfiled⟩

theorem sound_withBuiltins (hK : Catalog K next) :
    ∃ L, K ⊆ L ∧ Catalog L (next + builtins.length) ∧ (withBuiltins next).Sound L ∧
      ∀ t ∈ L, t ∈ K ∨ Files builtins t := by
  refine sound_empty.addBuiltins hK fun d hd => ⟨fun L => ?_, builtins_complete d hd⟩
  obtain ⟨name, shape, rfl, hblank⟩ := builtins_blank d hd
  exact Definition.sound_fresh name hblank

end Namespace

namespace Session

variable {K L : Set Ty} {s : Session}

/-- Everything in the session is over the catalog `K`. -/
structure Sound (K : Set Ty) (s : Session) : Prop where
  catalog : Catalog K s.nextIdentity
  space : s.space.Sound K
  types : ∀ label t, s.types.get? label = some t → t ∈ K
  drafts : ∀ label d, s.drafts.get? label = some d → d.Sound K
  values : ∀ label v, s.values.get? label = some v → v.Typed K

theorem Sound.part (hs : s.Sound K) {a : Value} (ha : s.Part a) : a.Typed K := by
  obtain ⟨label, v, location, hv, ha⟩ := ha
  exact (hs.values label v hv).part? ha

theorem Sound.knows (hs : s.Sound K) {t : Ty} (ht : s.Knows t) : t ∈ K := by
  induction ht with
  | kept h => exact hs.types _ _ h
  | registered h => exact hs.space.registered _ _ h
  | part _ hu ih => exact (hs.catalog.valid _ ih).parts _ hu
  | value ha => exact (hs.part ha).type

theorem Sound.has (hs : s.Sound K) {v : Snapshot} (hv : s.Has v) : v.Typed K := by
  induction hv with
  | blank ht => exact ⟨hs.knows ht, by simp⟩
  | part ha => exact (hs.part ha).snapshot
  | default ht hm hn =>
    exact (hs.catalog.default_suits (hs.knows ht) hm hn).toTyped.holder
  | child _ hn ih => exact ((ih.content _ rfl).child hn).holder

theorem Sound.offers (hs : s.Sound K) {o : Operand} (ho : s.Offers o) : o.Typed K := by
  cases o with
  | literal l => exact trivial
  | value v => exact hs.has ho
  | item r =>
    refine ⟨hs.knows ho.1, ?_⟩
    obtain ⟨i, hi⟩ := Option.isSome_iff_exists.1 ho.2
    obtain ⟨d, hd, hi⟩ := Option.bind_eq_some_iff.1 hi
    have hshape : r.type.shape = .enum d := by
      cases hs : r.type.shape <;> rw [hs] at hd <;> cases hd
      rfl
    exact .item hshape (List.getElem?_eq_some_iff.1 hi).1
  | expression e => exact fun v hv => hs.has (ho v hv)

theorem declare_sound {name : String} {type : Ty} {default : Option Snapshot} {m : Member}
    (htype : type ∈ K) (hdefault : ∀ v, default = some v → v.Typed K)
    (h : Member.declare name type default = .ok m) : (∀ u ∈ m.parts, u ∈ K) ∧
      ∀ n, m.default = some n → m.Holds n := by
  unfold Member.declare at h
  simp only at h
  split at h
  next =>
    cases h
    exact ⟨by simpa [Member.parts] using htype, by simp⟩
  next => cases h
  next found content =>
    have hv := hdefault _ rfl
    split at h
    next hcompat =>
      cases h
      refine ⟨?_, ?_⟩
      · intro u hu
        rcases List.mem_cons.1 hu with rfl | hu
        · exact htype
        · have hnode : (⟨found, content⟩ : Node Ty).Typed K := Node.typed_mk hv.type (hv.content _ rfl)
          exact hnode.labels u (by simpa using hu)
      · intro n hn
        cases hn
        exact ⟨hcompat, (hv.content _ rfl).fits, (hv.content _ rfl).ranged⟩
    next => cases h

theorem Sound.builds (hs : s.Sound K) {d : Definition} (hd : s.Builds d) : d.Sound K := by
  induction hd with
  | kept h => exact hs.drafts _ _ h
  | fresh name h => exact Definition.sound_fresh name h
  | cloneOf ht name => exact Definition.sound_cloneNamed hs.catalog (hs.knows ht) name
  | aliasOf ht name => exact Definition.sound_aliasNamed hs.catalog (hs.knows ht) name
  | annotate _ h ih => exact Definition.addAttribute_sound ih h
  | instantiate _ ha h ih =>
    exact Definition.instantiate_sound ih (fun t ht => hs.knows (ha t ht)) _ _ h
  | item _ h ih => exact Definition.addItem_sound ih h
  | defaultItem _ h ih => exact Definition.setDefaultItem_sound ih h
  | @member _ _ name type default m _ htype hdefault hm h ih =>
    obtain ⟨hparts, hholds⟩ := declare_sound (hs.knows htype) (fun v hv => hs.has (hdefault v hv)) hm
    exact Definition.addMember_sound ih hparts hholds h
  | base _ ht h ih => exact Definition.setBase_sound hs.catalog ih (hs.knows ht) h

end Session

end TypedValues
