import TypedValues.Proofs.Invariant
import TypedValues.Proofs.Paths
import TypedValues.Proofs.Registry

/-! Sealed types are well formed. Whatever calls a definition is built with, in any order and with refused
calls among them, the type that it is sealed to has the parts its kind asks for, names that lead back to
what they name, and attributes that its kind knows and that leave a range. -/

namespace TypedValues

/-- The members along the chain of bases, those of the farthest base first. -/
def Ty.lineage : Ty → List Member
  | ⟨_, _, _, .struct (some base) members, _, _⟩ =>
    base.lineage ++ (Shape.struct (some base) members).ownMembers
  | ⟨_, _, _, .struct none members, _, _⟩ => members
  | _ => []

def Ty.memberCount : Ty → Nat
  | ⟨_, _, _, .struct (some base) members, _, _⟩ =>
    base.memberCount + (Shape.struct (some base) members).ownMembers.length
  | ⟨_, _, _, .struct none members, _, _⟩ => members.length
  | _ => 0

theorem Ty.memberCount_eq (t : Ty) : t.memberCount = t.lineage.length := by
  fun_induction Ty.memberCount t with
  | case1 _ _ _ _ _ _ _ ih => rw [lineage, List.length_append, ih]
  | case2 => rw [lineage]
  | case3 t hbase hnone => rw [lineage.eq_3 t hbase hnone]; rfl

/-- Items have valid names, and each is found by its name. -/
structure EnumDef.WellFormed (d : EnumDef) : Prop where
  inhabited : d.items ≠ []
  named : ∀ i ∈ d.items, nameFault? i.name = none
  names : (d.items.map (·.name)).Nodup
  found : ∀ i item, d.items[i]? = some item → d.find? item.name = some i
  default : ∀ i, d.defaultItem = some i → i < d.items.length

structure Ty.WellFormed (t : Ty) : Prop where
  named : nameFault? t.name = none
  components : ∀ n, t.shape.components? = some n → 1 ≤ n ∧ n ≤ 4
  argument : t.kind = .optional ∨ t.kind = .array → ∃ u, t.shape.arguments = [u]
  alternatives : t.kind = .variant → 2 ≤ t.shape.arguments.length ∧
    t.shape.arguments.Pairwise fun a b => a.compatible b = false
  items : ∀ d, t.shape.enum? = some d → d.WellFormed
  /-- The members of a struct are those of the whole chain of bases. -/
  members : t.shape.members = t.lineage ∧ t.shape.members.length = t.memberCount
  memberNamed : ∀ m ∈ t.lineage, nameFault? m.name = none
  memberNames : (t.lineage.map (·.name)).Nodup
  memberFound : ∀ i m, t.lineage[i]? = some m → findMember? t.shape.members m.name = some i
  keys : (t.attributes.map (·.name)).Nodup
  attributes : ∀ a ∈ t.attributes, Definition.attributeFault? t.shape a = none
  range : ∀ kind n, t.shape = .integral kind n → ∃ lo hi, t.intRange? = some (lo, hi) ∧ lo ≤ hi ∧
    kind.contains lo = true ∧ kind.contains hi = true

theorem EnumDef.Valid.wellFormed {d : EnumDef} (h : d.Valid) (hne : d.items ≠ []) : d.WellFormed :=
  ⟨hne, h.named, h.names, fun _ _ hi => findIdx?_of_nodup h.names hi, h.default⟩

section

variable {K : Set Ty} {next : Nat}

/-- The members of a base stand in front, so a struct holds what its chain of bases declares. -/
theorem Catalog.lineage_eq (hK : Catalog K next) {t : Ty} (ht : t.definition.Valid K) :
    t.lineage = t.shape.members := by
  fun_induction Ty.lineage t with
  | case1 _ _ _ base members _ _ ih =>
    have hbase : base ∈ K := ht.parts base (by simp [Ty.definition, Definition.parts, Shape.parts, Shape.base?])
    have hfront : base.shape.members <+: members := ht.inherits base rfl
    rw [ih (hK.valid base hbase).toValid]
    exact (List.prefix_iff_eq_append.1 hfront)
  | case2 => rfl
  | case3 t hbase hnone =>
    rcases t with ⟨_, _, _, shape, _, _⟩
    cases shape with
    | struct base members =>
      cases base with
      | none => exact (hnone _ _ _ _ _ _ rfl).elim
      | some base => exact (hbase _ _ _ _ _ _ _ rfl).elim
    | _ => rfl

/-- What is complete and valid over a catalog is well formed once it is sealed. -/
theorem Catalog.wellFormed (hK : Catalog K next) {t : Ty} (ht : t.definition.Valid K)
    (hcomplete : t.definition.fault? = none) : t.WellFormed := by
  have hlineage := hK.lineage_eq ht
  have hnonempty (hs : t.shape.isTemplate = true) : t.shape.arguments ≠ [] :=
    Definition.arguments_ne_nil hcomplete hs
  refine ⟨Definition.name_of_complete hcomplete, fun n hn => Definition.components_count hcomplete hn, ?_,
    ?_, ?_, ⟨hlineage.symm, by rw [Ty.memberCount_eq, hlineage]⟩, hlineage ▸ ht.shape.named,
    hlineage ▸ ht.shape.names, ?_, ht.annotated.keys, ht.annotated.faultless, fun kind n => ht.annotated.intRange⟩
  · intro hkind
    cases hs : t.shape with
    | optional argument =>
      cases argument with
      | none => exact absurd (by rw [hs]; rfl) (hnonempty (by rw [hs]; rfl))
      | some u => exact ⟨u, rfl⟩
    | array argument =>
      cases argument with
      | none => exact absurd (by rw [hs]; rfl) (hnonempty (by rw [hs]; rfl))
      | some u => exact ⟨u, rfl⟩
    | _ => simp [Ty.kind, hs, Shape.kind] at hkind
  · intro hkind
    cases hs : t.shape with
    | variant us =>
      have hne := hnonempty (by rw [hs]; rfl)
      rw [hs] at hne
      exact ht.shape.alternatives us hs hne
    | _ => simp [Ty.kind, hs, Shape.kind] at hkind
  · intro d hd
    have hs : t.shape = .enum d := by
      cases hs : t.shape <;> rw [hs] at hd <;> cases hd
      rfl
    exact (ht.shape.items d hs).wellFormed (Definition.items_ne_nil hcomplete hs)
  · intro i m hm
    exact findIdx?_of_nodup ht.shape.names (hlineage ▸ hm)

end

/-- A call that builds a definition further. -/
inductive Revision where
  | addAttribute (a : Attribute)
  | instantiate (arguments : List Argument)
  | addItem (i : EnumItem)
  | setDefaultItem (name : String)
  | addMember (name : String) (type : Ty) (default : Option Snapshot)
  | setBase (base : Ty)

namespace Definition

def revise (d : Definition) : Revision → Attempt Error Definition
  | .addAttribute a => d.addAttribute a
  | .instantiate arguments => d.instantiate arguments
  | .addItem i => d.addItem i
  | .setDefaultItem name => d.setDefaultItem name
  | .addMember name type default => do d.addMember (← Member.declare name type default)
  | .setBase base => d.setBase base

/-- The definition after a call; one that is refused leaves it as it was. -/
def revised (policy : Policy) (d : Definition) (r : Revision) : Definition :=
  match ((d.revise r).run policy).outcome with
  | .ok e => e
  | _ => d

end Definition

namespace Session

variable {s : Session} {d e : Definition}

/-- The host has got hold of what the call is given. -/
def Provides (s : Session) : Revision → Prop
  | .instantiate arguments => ∀ t, .type t ∈ arguments → s.Knows t
  | .addMember _ type default => s.Knows type ∧ ∀ v, default = some v → s.Has v
  | .setBase base => s.Knows base
  | _ => True

theorem Builds.revise (hd : s.Builds d) {r : Revision} (hr : s.Provides r)
    (h : ((d.revise r).run s.policy).outcome = .ok e) : s.Builds e := by
  cases r with
  | addAttribute a => exact hd.annotate (Attempt.ofExcept_eq_ok.1 h)
  | instantiate arguments => exact hd.instantiate hr h
  | addItem i => exact hd.item (Attempt.ofExcept_eq_ok.1 h)
  | setDefaultItem name => exact hd.defaultItem (Attempt.ofExcept_eq_ok.1 h)
  | addMember name type default =>
    obtain ⟨m, hm, h⟩ := Attempt.bind_eq_ok.1 h
    exact hd.member hr.1 hr.2 (Attempt.ofExcept_eq_ok.1 hm) (Attempt.ofExcept_eq_ok.1 h)
  | setBase base => exact hd.base hr (Attempt.ofExcept_eq_ok.1 h)

theorem Builds.revised (hd : s.Builds d) {r : Revision} (hr : s.Provides r) :
    s.Builds (d.revised s.policy r) := by
  unfold Definition.revised
  split
  next e h => exact hd.revise hr h
  next => exact hd

theorem Builds.foldl (hd : s.Builds d) {rs : List Revision} (hrs : ∀ r ∈ rs, s.Provides r) :
    s.Builds (rs.foldl (Definition.revised s.policy) d) := by
  induction rs generalizing d with
  | nil => exact hd
  | cons r rs ih =>
    rw [List.forall_mem_cons] at hrs
    exact ih (hd.revised hrs.1) hrs.2

/-- In every session, the sealed types are well formed, and so is whatever a definition is sealed to after
any calls on it, alone or into a scope. -/
theorem sealed_wellFormed (hs : s.Reachable) :
    (∀ t, s.Knows t → t.WellFormed) ∧
      ∀ d, s.Builds d → ∀ rs : List Revision, (∀ r ∈ rs, s.Provides r) →
        (∀ identity t, (rs.foldl (Definition.revised s.policy) d).sealed identity = .ok t → t.WellFormed) ∧
        ∀ policy (ns : Namespace) scope identity t grown,
          ((ns.addType scope (rs.foldl (Definition.revised s.policy) d) identity).run policy).outcome =
            .ok (t, grown) → t.WellFormed := by
  obtain ⟨K, hK⟩ := hs.invariant
  have hcatalog := hK.sound.catalog
  refine ⟨fun t ht => ?_, fun d hd rs hrs => ?_⟩
  · have hvalid := hcatalog.valid t (hK.sound.knows ht)
    exact hcatalog.wellFormed hvalid.toValid hvalid.complete
  · have hvalid := (hK.sound.builds (hd.foldl hrs)).toValid
    refine ⟨fun identity t ht => ?_, fun policy ns scope identity t grown ht => ?_⟩
    · obtain ⟨hcomplete, rfl⟩ := Namespace.sealed_eq_ok ht
      exact hcatalog.wellFormed hvalid hcomplete
    · obtain ⟨base, -, -, hcomplete, rfl, -⟩ := Namespace.addType_eq_ok ht
      exact hcatalog.wellFormed (Namespace.register_valid hvalid scope base _)
        ((Namespace.fault?_register _ scope base _).trans hcomplete)

/-- A second flag of the same name is refused, one of another name is not. -/
theorem sealed_wellFormed_lit : lit.Reachable ∧ lampType.WellFormed ∧
    ∃ t, ([.addMember "on" boolType none, .addMember "dim" boolType none].foldl
      (Definition.revised lit.policy) lamp).sealed 100 = .ok t ∧ t.memberCount = 2 ∧ t.WellFormed := by
  have hkept : lit.types.get? "lamp" = some lampType := by rfl
  have hlamp : lit.Knows lampType := .kept hkept
  have hbool : lit.Knows boolType := .part hlamp (List.mem_of_getElem? (i := 0) rfl)
  have hbuilds : lit.Builds lamp := by
    have hempty : lit.Builds (.fresh "lamp" (.struct none [])) := .fresh "lamp" ⟨rfl, rfl⟩
    have hflag : Member.declare "on" boolType none = .ok ⟨.detached "on", boolType, none⟩ := rfl
    exact hempty.member hbool (fun v hv => by cases hv) hflag rfl
  have hprovides (name : String) : lit.Provides (.addMember name boolType none) :=
    ⟨hbool, fun v hv => by cases hv⟩
  have hall : ∀ r ∈ [.addMember "on" boolType none, .addMember "dim" boolType none], lit.Provides r := by
    simp [hprovides]
  obtain ⟨hknown, hbuilt⟩ := sealed_wellFormed lit_reachable
  obtain ⟨hsealed, -⟩ := hbuilt lamp hbuilds _ hall
  exact ⟨lit_reachable, hknown _ hlamp, _, rfl, rfl, hsealed 100 _ rfl⟩

end Session

end TypedValues
