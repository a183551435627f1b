import TypedValues.Proofs.Naming

/-! Paths of members. A member remembers its path, and a type remembers its members, those of its bases among them.
Cloning, aliasing and registering put the members that a struct declares itself under its new path, and leave the
inherited ones alone. So every member lies under the struct that declares it, by the path that this struct has now. -/

namespace TypedValues

def Ty.bases : Ty → List Ty
  | ⟨_, _, _, .struct (some base) _, _, _⟩ => base :: base.bases
  | _ => []

def Shape.bases (s : Shape) : List Ty :=
  match s.base? with
  | some base => base :: base.bases
  | none => []

theorem Ty.bases_eq (t : Ty) : t.bases = t.shape.bases := by
  rcases t with ⟨_, _, _, shape, _, _⟩
  cases shape with
  | struct base members => cases base <;> rfl
  | _ => rfl

/-- The members are those that the bases declare, the farthest first, and then those that the struct declares. Each lies
under the path of the one that declares it. -/
structure Definition.Current (d : Definition) : Prop where
  members : d.shape.members = d.shape.bases.reverse.flatMap (·.shape.ownMembers) ++ d.shape.ownMembers
  own : ∀ m ∈ d.shape.ownMembers, m.path = d.path.child m.name
  inherited : ∀ b ∈ d.shape.bases, ∀ m ∈ b.shape.ownMembers, m.path = b.path.child m.name

/-- The members that a struct declares itself lie under its path. -/
def Definition.Linked (d : Definition) : Prop := ∀ m ∈ d.shape.ownMembers, m.path = d.path.child m.name

section

variable {K : Set Ty} {next : Nat}

theorem Definition.Valid.base_mem {d : Definition} (hd : d.Valid K) {b : Ty} (hb : d.shape.base? = some b) :
    b ∈ K := by
  refine hd.parts b (List.mem_append_left _ (List.mem_append_left _ (List.mem_append_right _ ?_)))
  rw [hb]
  exact List.mem_singleton_self b

theorem Catalog.bases_mem (hK : Catalog K next) {t : Ty} (ht : t.definition.Valid K) : ∀ b ∈ t.bases, b ∈ K := by
  fun_induction Ty.bases t with
  | case1 _ _ _ base members _ _ ih =>
    have hbase : base ∈ K := ht.base_mem rfl
    exact List.forall_mem_cons.2 ⟨hbase, ih (hK.valid base hbase).toValid⟩
  | case2 => nofun

/-- The members of a base are in front, so all members are those that the chain of bases declares, and the own ones. -/
theorem Catalog.members_eq (hK : Catalog K next) {t : Ty} (ht : t.definition.Valid K) :
    t.shape.members = t.bases.reverse.flatMap (·.shape.ownMembers) ++ t.shape.ownMembers := by
  fun_induction Ty.bases t with
  | case1 _ _ _ base members _ _ ih =>
    have hfront : base.shape.members <+: members := ht.inherits base rfl
    rw [List.reverse_cons, List.flatMap_append, List.flatMap_singleton, ← ih (hK.valid base (ht.base_mem rfl)).toValid]
    exact List.prefix_iff_eq_append.1 hfront |>.symm
  | case2 t hnone =>
    rcases t with ⟨_, _, _, shape, _, _⟩
    cases shape with
    | struct base members =>
      cases base with
      | none => rfl
      | some base => exact (hnone _ _ _ _ _ _ _ rfl).elim
    | _ => rfl

/-- Over types that are linked, what is linked is current. -/
theorem Catalog.current (hK : Catalog K next) (hlinked : ∀ t ∈ K, t.definition.Linked) {d : Definition}
    (hd : d.Valid K) (h : d.Linked) : d.Current := by
  have hbases : d.shape.bases = (d.withIdentity next).bases := (d.withIdentity next).bases_eq.symm
  refine ⟨?_, h, fun b hb => hlinked b ?_⟩
  · rw [hbases]
    exact hK.members_eq (t := d.withIdentity next) hd
  · rw [hbases] at hb
    exact hK.bases_mem (t := d.withIdentity next) hd b hb

end

/-- Relinking reaches all members that the struct declares, whatever it inherits. -/
theorem Shape.own_relink (s : Shape) (owner : Path) :
    ∀ m ∈ (s.relink owner).ownMembers, m.path = owner.child m.name := by
  cases s with
  | struct base members =>
    intro m hm
    have hcount : (struct base members |>.relink owner).inheritedCount = (struct base members).inheritedCount := rfl
    rw [ownMembers, hcount, relink, Shape.members, List.drop_append, List.drop_take_self, List.nil_append] at hm
    obtain ⟨x, -, rfl⟩ := List.mem_map.1 (List.mem_of_mem_drop hm)
    rfl
  | _ => intro m hm; simp [ownMembers, relink, Shape.members] at hm

namespace Definition

variable {d : Definition}

theorem linked_of_members_eq_nil (h : d.shape.members = []) : d.Linked := by
  intro m hm
  rw [Shape.ownMembers, h, List.drop_nil] at hm
  cases hm

theorem linked_fresh (name : String) {s : Shape} (h : s.Blank) : (fresh name s).Linked := by
  apply linked_of_members_eq_nil
  cases s with
  | struct base members => exact h.2
  | _ => rfl

theorem linked_cloneNamed (t : Ty) (name : String) : (t.cloneNamed name).Linked := Shape.own_relink _ _

theorem linked_aliasNamed (t : Ty) (name : String) : (t.aliasNamed name).Linked := Shape.own_relink _ _

theorem linked_register (d : Definition) (scope : ScopeId) (parent : Path) (id : TypeId) :
    (d.register scope parent id).Linked := Shape.own_relink _ _

/-- Only templates take arguments, and they have no members. -/
theorem instantiated_members {types : List Ty} {s : Shape} (h : d.instantiated types = .ok s) :
    s.members = [] ∨ s = d.shape := by
  unfold instantiated at h
  split at h
  · cases h; exact .inl rfl
  · cases h; exact .inl rfl
  · cases h
  · cases h
  · split at h
    · cases h
    · split at h <;> cases h
      exact .inl rfl
  · cases h; exact .inr rfl

theorem Linked.addMember (hd : d.Linked) {m : Member} {e : Definition} (h : d.addMember m = .ok e) : e.Linked := by
  obtain ⟨base, members, -, -, hs, -, rfl⟩ := addMember_eq_ok h
  intro x hx
  have hown : d.shape.ownMembers = members.drop d.shape.inheritedCount := by rw [Shape.ownMembers, hs]; rfl
  have hcount : (Shape.struct base (members ++ [m.attach d.path])).inheritedCount = d.shape.inheritedCount := by
    rw [hs]; rfl
  rw [Shape.ownMembers, hcount, Shape.members, List.drop_append, ← hown] at hx
  rcases List.mem_append.1 hx with hx | hx
  · exact hd x hx
  · obtain rfl := List.mem_singleton.1 (List.mem_of_mem_drop hx)
    rfl

/-- The members of the base come in front of the own ones, and stay under the base. -/
theorem Linked.setBase (hd : d.Linked) {t : Ty} {e : Definition} (h : d.setBase t = .ok e) : e.Linked := by
  obtain ⟨members, base, inherited, -, hs, ht, -, rfl⟩ := setBase_eq_ok h
  have hown : d.shape.ownMembers = members := by rw [hs]; rfl
  have hcount : (Shape.struct (some t) (inherited ++ members)).inheritedCount = inherited.length :=
    congrArg (·.members.length) ht
  intro x hx
  rw [Shape.ownMembers, hcount, Shape.members, List.drop_left, ← hown] at hx
  exact hd x hx

end Definition

namespace Session

variable {K : Set Ty} {s t : Session}

/-- All types of the catalog and all definitions are linked. -/
structure Linked (K : Set Ty) (s : Session) : Prop where
  types : ∀ t ∈ K, t.definition.Linked
  drafts : ∀ label d, s.drafts.get? label = some d → d.Linked

theorem Linked.builds (h : s.Linked K) {d : Definition} (hd : s.Builds d) : d.Linked := by
  induction hd with
  | kept h' => exact h.drafts _ _ h'
  | fresh name hblank => exact Definition.linked_fresh name hblank
  | cloneOf ht name => exact Definition.linked_cloneNamed _ name
  | aliasOf ht name => exact Definition.linked_aliasNamed _ name
  | annotate _ h' ih =>
    obtain ⟨-, -, -, rfl⟩ := Definition.addAttribute_eq_ok h'
    exact ih
  | instantiate _ _ h' ih =>
    obtain ⟨types, shape, -, -, hshape, rfl⟩ := Definition.instantiate_ensures _ _ _ _ h'
    rcases Definition.instantiated_members hshape with hnil | rfl
    · exact Definition.linked_of_members_eq_nil hnil
    · exact ih
  | item _ h' =>
    obtain ⟨items, -, -, -, -, rfl⟩ := Definition.addItem_eq_ok h'
    exact Definition.linked_of_members_eq_nil rfl
  | defaultItem _ h' =>
    obtain ⟨items, i, -, -, -, rfl⟩ := Definition.setDefaultItem_eq_ok h'
    exact Definition.linked_of_members_eq_nil rfl
  | member _ _ _ _ h' ih => exact ih.addMember h'
  | base _ _ h' ih => exact ih.setBase h'

theorem Linked.seals (h : s.Linked K) {u : Ty} (hu : s.Seals u) : u.definition.Linked := by
  cases hu with
  | alone hd => exact h.builds hd
  | registered hd => exact Definition.linked_register _ _ _ _
  | builtin hfiled =>
    obtain ⟨d, -, id, identity, rfl⟩ := hfiled
    exact Definition.linked_register _ _ _ _

theorem drafts_store (s : Session) (label : String) (v : Snapshot) : (s.store label v).drafts = s.drafts := by
  rcases v with ⟨type, _ | c⟩ <;> rfl

/-- What is under definition after a call was so before it, or is what the call defines. -/
theorem Step.drafts (hst : Step s t) {label : String} {d : Definition} (h : t.drafts.get? label = some d) :
    s.Builds d := by
  cases hst with
  | policy | keepType | drop | subscribe | unsubscribe => exact .kept h
  | renew withBuiltins =>
    cases withBuiltins with
    | false => exact .kept h
    | true =>
      rw [run_renew_true] at h
      exact .kept h
  | addScope parent name label =>
    rcases addScope_cases s parent name label with hs | ⟨id, space, -, hs⟩ <;> rw [hs] at h <;> exact .kept h
  | define hd label =>
    rcases get?_put_cases h with rfl | h
    · exact hd
    · exact .kept h
  | addType hd draft scope label =>
    rcases addType_cases s draft _ scope label with ⟨hs, -⟩ | ⟨u, space, -, hs, -⟩ <;> rw [hs] at h <;>
      exact .kept (Table.get?_of_erase h)
  | sealType hd draft label =>
    rcases sealType_cases s draft _ label with ⟨hs, -⟩ | ⟨u, -, hs, -⟩ <;> rw [hs] at h <;>
      exact .kept (Table.get?_of_erase h)
  | store hv label =>
    rw [drafts_store] at h
    exact .kept h
  | change hc label walk =>
    rcases change_cases s label walk _ with ⟨hs, -⟩ | ⟨v, location, target, edit, position, -, -, -, hs, -⟩ <;>
      rw [hs] at h <;> exact .kept h

theorem step_linked (h : s.Invariant K) (hl : s.Linked K) (hst : Step s t) :
    ∃ L, t.Invariant L ∧ t.Linked L := by
  obtain ⟨L, hL, hnew⟩ := step_advances h hst
  refine ⟨L, hL.invariant, fun u hu => ?_, fun label d hd => hl.builds (hst.drafts hd)⟩
  rcases hnew u hu with hu | hu
  · exact hl.types u hu
  · exact hl.seals hu

theorem Reachable.linked (hs : s.Reachable) : ∃ K, s.Invariant K ∧ s.Linked K := by
  induction hs with
  | refl =>
    obtain ⟨K, hK, hbuiltin⟩ := invariant_initial
    refine ⟨K, hK, fun t ht => ?_, fun label d hd => by cases hd⟩
    obtain ⟨d, -, id, identity, rfl⟩ := hbuiltin t ht
    exact Definition.linked_register _ _ _ _
  | tail _ hst ih =>
    obtain ⟨K, hK, hl⟩ := ih
    exact step_linked hK hl hst

/-- The types that a host has got hold of, and those that its definitions are made of. -/
def Mentions (s : Session) (u : Ty) : Prop := s.Knows u ∨ ∃ d, s.Builds d ∧ u ∈ d.parts

theorem Sound.mentions (hs : s.Sound K) {u : Ty} (hu : s.Mentions u) : u ∈ K := by
  rcases hu with hu | ⟨d, hd, hu⟩
  · exact hs.knows hu
  · exact (hs.builds hd).toValid.parts u hu

/-- Of two sealed types with one identity, the later is what the earlier was. -/
theorem mentions_alike (h : s.Invariant K) (hst : Run s t) {u v : Ty} (hu : s.Mentions u) (hv : t.Mentions v)
    (hid : v.identity = u.identity) : v = u := by
  obtain ⟨L, hL⟩ := run_advances h hst
  exact hL.invariant.sound.catalog.apart v (hL.invariant.sound.mentions hv) u
    (hL.grows (h.sound.mentions hu)) hid

/-- A call on one definition leaves the others alone, and all types, apart from the one that it keeps. -/
structure Spares (s t : Session) (draft : String) (kept : Option String) : Prop where
  drafts : ∀ label, label ≠ draft → t.drafts.get? label = s.drafts.get? label
  types : ∀ label, kept ≠ some label → t.types.get? label = s.types.get? label
  registered : ∀ id u, s.space.type? id = some u → t.space.type? id = some u

theorem spares_putDraft (s : Session) (draft : String) (d : Definition) : s.Spares (s.putDraft draft d) draft none where
  drafts label hne := by rw [putDraft, Table.get?_put, if_neg hne.symm]
  types _ _ := rfl
  registered _ _ h := h

theorem spares_dropDraft (s : Session) (draft : String) (kept : Option String) :
    s.Spares (s.dropDraft draft) draft kept where
  drafts label hne := by rw [dropDraft, Table.get?_erase, if_neg hne.symm]
  types _ _ := rfl
  registered _ _ h := h

theorem Spares.keep {draft : String} {kept : Option String} (h : s.Spares t draft kept) (u : Ty) (next : Nat) :
    s.Spares { t with nextIdentity := next, types := t.types.keep kept u } draft kept where
  drafts := h.drafts
  types label hne := by rw [Table.get?_keep, if_neg hne, h.types label hne]
  registered := h.registered

theorem spares_addType (s : Session) (draft : String) (d : Definition) (scope : ScopeId) (kept : Option String) :
    s.Spares ((addType draft d scope kept).run s).1 draft kept := by
  have hdrop := spares_dropDraft s draft kept
  rcases addType_cases s draft d scope kept with ⟨hs, -⟩ | ⟨u, space, hadd, hs, -⟩
  · rwa [hs]
  · rw [hs]
    obtain ⟨base, -, -, -, -, rfl⟩ := Namespace.addType_eq_ok hadd
    have hkept := hdrop.keep u (s.nextIdentity + 1)
    refine ⟨hkept.drafts, hkept.types, fun id v hv => ?_⟩
    -- the new type takes the next place, which no other has
    have hne : id ≠ s.space.types.size := by
      rintro rfl
      exact absurd hv (by simp [Namespace.type?])
    exact (Namespace.type?_insert id).trans ((if_neg hne).trans hv)

theorem spares_sealType (s : Session) (draft : String) (d : Definition) (label : String) :
    s.Spares ((sealType draft d label).run s).1 draft (some label) := by
  have hdrop := spares_dropDraft s draft (some label)
  rcases sealType_cases s draft d label with ⟨hs, -⟩ | ⟨u, -, hs, -⟩
  · rwa [hs]
  · rw [hs]
    exact hdrop.keep u _

/-- In all sealed types and in all definitions that a host can build, the own members lie under the path that the
definition has, and the inherited ones under that of the struct that declares them. A sealed type stays what it is in
any run, and a call on one definition leaves alone the others, and what is sealed. -/
theorem member_paths_current (hs : s.Reachable) :
    (∀ t, s.Knows t → t.definition.Current) ∧ (∀ d, s.Builds d → d.Current) ∧
    (∀ t, Run s t → ∀ u v, s.Mentions u → t.Mentions v → v.identity = u.identity → v = u) ∧
    ∀ draft d, s.Spares (s.putDraft draft d) draft none ∧
      (∀ scope kept, s.Spares ((addType draft d scope kept).run s).1 draft kept) ∧
      ∀ label, s.Spares ((sealType draft d label).run s).1 draft (some label) := by
  obtain ⟨K, hK, hl⟩ := hs.linked
  have hcatalog := hK.sound.catalog
  refine ⟨fun t ht => ?_, fun d hd => ?_, fun t ht u v hu hv hid => mentions_alike hK ht hu hv hid,
    fun draft d => ⟨spares_putDraft s draft d, spares_addType s draft d, spares_sealType s draft d⟩⟩
  · have hmem := hK.sound.knows ht
    exact hcatalog.current hl.types (hcatalog.valid t hmem).toValid (hl.types t hmem)
  · exact hcatalog.current hl.types (hK.sound.builds hd).toValid (hl.builds hd)

/-- A copy of the sign takes the own members under its name, and leaves the flag to the lamp. -/
theorem member_paths_current_signed : signed.Reachable ∧ signed.Builds (signType.cloneNamed "copy") ∧
    (signType.cloneNamed "copy").Current ∧
    (signType.cloneNamed "copy").shape.members.map (·.path) =
      [lampType.path.child "on", (signType.cloneNamed "copy").path.child "text",
        (signType.cloneNamed "copy").path.child "spare"] := by
  have hsign : signed.types.get? "sign" = some signType := by rfl
  have hcopy : signed.Builds (signType.cloneNamed "copy") := .cloneOf (.kept hsign) "copy"
  exact ⟨signed_reachable, hcopy, (member_paths_current signed_reachable).2.1 _ hcopy, rfl⟩

end Session

end TypedValues
