import TypedValues.Proofs.Tree

/-! When content fits a type: its constructor is the one of the type's kind, numbers are as many as
the type has components and are numbers of its kind, positions exist, and every child has a type
compatible with the one declared for it and fits its own type. The declared type and the child's own
need not be the same, since an alias may stand in for its source on either side. -/

namespace TypedValues

/-- The shape without the place of its members, which is all that aliases do not share. -/
def Shape.core : Shape → Shape
  | .struct base members => .struct base (members.map (·.attach .root))
  | s => s

namespace Shape

theorem core_relink (s : Shape) (owner : Path) : (s.relink owner).core = s.core := by
  cases s with
  | struct base members =>
    have h := List.take_append_drop (struct base members).inheritedCount members
    simp only [relink, core, List.map_append, List.map_map]
    conv_rhs => rw [← h, List.map_append]
    rfl
  | _ => rfl

theorem kind_core (s : Shape) : s.core.kind = s.kind := by cases s <;> rfl

theorem arguments_core (s : Shape) : s.core.arguments = s.arguments := by cases s <;> rfl

theorem enum?_core (s : Shape) : s.core.enum? = s.enum? := by cases s <;> rfl

theorem base?_core (s : Shape) : s.core.base? = s.base? := by cases s <;> rfl

theorem members_core (s : Shape) : s.core.members = s.members.map (·.attach .root) := by
  cases s <;> rfl

theorem map_members_core {β : Type} (s : Shape) (f : Member → β)
    (h : ∀ m : Member, f (m.attach .root) = f m) : s.core.members.map f = s.members.map f := by
  rw [members_core, List.map_map]
  exact List.map_congr_left fun m _ => h m

/-- Only structs lose anything. -/
theorem eq_of_core_eq {s t x : Shape} (h : s.core = t.core) (hs : s = x)
    (hx : x.kind ≠ .struct := by simp [Shape.kind]) : t = x := by
  subst hs
  have ht : t.kind ≠ .struct := by rwa [← kind_core, ← h, kind_core]
  cases s <;> cases t <;> simp_all [core, kind]

theorem exists_struct_of_core_eq {s t : Shape} {base : Option Ty} {members : List Member}
    (h : s.core = t.core) (hs : s = .struct base members) :
    ∃ members', t = .struct base members' ∧ members'.map (·.type) = members.map (·.type) ∧
      members'.map (·.name) = members.map (·.name) := by
  subst hs
  cases t with
  | struct base' members' =>
    simp only [core, struct.injEq] at h
    obtain ⟨rfl, hm⟩ := h
    refine ⟨members', rfl, ?_, ?_⟩
    · simpa [Function.comp_def, Member.attach] using congrArg (List.map (·.type)) hm.symm
    · simpa [Function.comp_def, Member.attach, Member.name, Symbol.attach]
        using congrArg (List.map (·.name)) hm.symm
  | _ => simp [core] at h

end Shape

def Content.kind {α : Type} : Content α → Kind
  | .bool _ => .bool
  | .ints _ => .integral
  | .reals _ => .real
  | .text _ => .string
  | .item _ => .enum
  | .optional _ => .optional
  | .variant .. => .variant
  | .struct _ => .struct
  | .array _ => .array

theorem Content.kind_normal {α : Type} (c : Content α) : c.normal.kind = c.kind := by
  rcases c with _ | _ | _ | _ | _ | (_ | _) | _ | _ | _ <;> rfl

/-- The content is one that a value of the type may hold. -/
inductive Content.Fits {α : Type} [HasType α] : Ty → Content α → Prop where
  | bool {t : Ty} {b : Bool} (shape : t.shape = .bool) : Fits t (.bool b)
  | ints {t : Ty} {kind : IntKind} {n : Nat} {zs : List Int} (shape : t.shape = .integral kind n)
      (length : zs.length = n) (count : 1 ≤ n ∧ n ≤ 4) (bounds : ∀ z ∈ zs, kind.contains z = true) :
      Fits t (.ints zs)
  | reals {t : Ty} {kind : RealKind} {n : Nat} {vs : List Real64} (shape : t.shape = .real kind n)
      (length : vs.length = n) (count : 1 ≤ n ∧ n ≤ 4)
      (fixed : ∀ v ∈ vs, v ≠ .nan ∧ kind.quantize v = v) : Fits t (.reals vs)
  | text {t : Ty} {s : String} (shape : t.shape = .string) : Fits t (.text s)
  | item {t : Ty} {d : EnumDef} {i : Nat} (shape : t.shape = .enum d) (index : i < d.items.length) :
      Fits t (.item i)
  | empty {t argument : Ty} (shape : t.shape = .optional (some argument)) : Fits t (.optional none)
  | some {t argument : Ty} {inner : Node α} (shape : t.shape = .optional (some argument))
      (type : inner.type.compatible argument = true) (below : Fits inner.type inner.content) :
      Fits t (.optional (some inner))
  | variant {t alternative : Ty} {alternatives : List Ty} {i : Nat} {inner : Node α}
      (shape : t.shape = .variant alternatives) (index : alternatives[i]? = .some alternative)
      (type : inner.type.compatible alternative = true) (below : Fits inner.type inner.content) :
      Fits t (.variant i inner)
  | struct {t : Ty} {base : Option Ty} {members : List Member} {ns : List (Node α)}
      (shape : t.shape = .struct base members)
      (types : List.Forall₂ (fun n u => n.type.compatible u = true) ns (members.map (·.type)))
      (below : ∀ n ∈ ns, Fits n.type n.content) : Fits t (.struct ns)
  | array {t element : Ty} {ns : List (Node α)} (shape : t.shape = .array (.some element))
      (types : ∀ n ∈ ns, n.type.compatible element = true)
      (below : ∀ n ∈ ns, Fits n.type n.content) : Fits t (.array ns)

namespace Content

variable {α : Type} [HasType α]

theorem Fits.child {t : Ty} {c : Content α} (h : c.Fits t) {n : Node α} (hn : n ∈ c.children) :
    n.content.Fits n.type := by
  cases h with
  | some _ _ below => obtain rfl := List.mem_singleton.1 hn; exact below
  | variant _ _ _ below => obtain rfl := List.mem_singleton.1 hn; exact below
  | struct _ _ below => exact below n hn
  | array _ _ below => exact below n hn
  | _ => simp [children] at hn

theorem Fits.kind {t : Ty} {c : Content α} (h : c.Fits t) : c.kind = t.kind := by
  cases h <;> simp_all [Ty.kind, Shape.kind, Content.kind]

/-- Aliases of one type hold the same contents. -/
theorem Fits.of_core_eq {t u : Ty} {c : Content α} (h : c.Fits t)
    (hcore : t.shape.core = u.shape.core) : c.Fits u := by
  cases h with
  | bool shape => exact .bool (Shape.eq_of_core_eq hcore shape)
  | ints shape length count bounds =>
    exact .ints (Shape.eq_of_core_eq hcore shape) length count bounds
  | reals shape length count fixed =>
    exact .reals (Shape.eq_of_core_eq hcore shape) length count fixed
  | text shape => exact .text (Shape.eq_of_core_eq hcore shape)
  | item shape index => exact .item (Shape.eq_of_core_eq hcore shape) index
  | empty shape => exact .empty (Shape.eq_of_core_eq hcore shape)
  | some shape type below => exact .some (Shape.eq_of_core_eq hcore shape) type below
  | variant shape index type below =>
    exact .variant (Shape.eq_of_core_eq hcore shape) index type below
  | struct shape types below =>
    obtain ⟨members, hshape, htypes, -⟩ := Shape.exists_struct_of_core_eq hcore shape
    exact .struct hshape (htypes ▸ types) below
  | array shape types below => exact .array (Shape.eq_of_core_eq hcore shape) types below

theorem Fits.nanFree {t : Ty} {c : Content α} (h : c.Fits t) : c.NanFree := by
  induction h with
  | reals _ _ _ fixed =>
    refine .intro (fun vs hvs hnan => ?_) (by simp [children])
    obtain rfl := Content.reals.inj hvs
    exact (fixed _ hnan).1 rfl
  | some _ _ _ ih => exact .intro (by simp) (by simpa [children] using ih)
  | variant _ _ _ _ ih => exact .intro (by simp) (by simpa [children] using ih)
  | struct _ _ _ ih => exact .intro (by simp) ih
  | array _ _ _ ih => exact .intro (by simp) ih
  | _ => exact .intro (by simp) (by simp [children])

theorem Fits.equals_self {t : Ty} {c : Content α} (h : c.Fits t) : c.equals c = true :=
  Content.equals_self.2 h.nanFree

end Content

section

variable {α : Type} [HasType α]

theorem Node.type_relabel (n : Node α) : (n.relabel HasType.type).type = n.type := by
  rcases n with ⟨l, c⟩; rw [Node.relabel]; rfl

namespace Content

theorem Fits.relabel {t : Ty} {c : Content α} (h : c.Fits t) : (c.relabel HasType.type).Fits t := by
  induction h with
  | bool shape => exact .bool shape
  | ints shape length count bounds => exact .ints shape length count bounds
  | reals shape length count fixed => exact .reals shape length count fixed
  | text shape => exact .text shape
  | item shape index => exact .item shape index
  | empty shape => exact .empty shape
  | some shape type _ ih =>
    exact .some shape (by rwa [Node.type_relabel]) (by rwa [Node.content_relabel, Node.type_relabel])
  | variant shape index type _ ih =>
    exact .variant shape index (by rwa [Node.type_relabel]) (by rwa [Node.content_relabel, Node.type_relabel])
  | struct shape types _ ih =>
    rw [Content.relabel, Node.relabelAll_eq]
    refine .struct shape ?_ (List.forall_mem_map.2 fun n hn => ?_)
    · simpa only [List.forall₂_map_left_iff, Node.type_relabel] using types
    · rw [Node.content_relabel, Node.type_relabel]
      exact ih n hn
  | array shape types _ ih =>
    rw [Content.relabel, Node.relabelAll_eq]
    refine .array shape ?_ (List.forall_mem_map.2 fun n hn => ?_)
    · simpa only [List.forall_mem_map, Node.type_relabel] using types
    · rw [Node.content_relabel, Node.type_relabel]
      exact ih n hn

theorem Fits.of_relabel {t : Ty} {c : Content α} (h : (c.relabel HasType.type).Fits t) : c.Fits t := by
  induction c using Content.inductOn generalizing t with
  | step c ih =>
    have below (n : Node α) (hn : n ∈ c.children) (h : (n.relabel HasType.type).content.Fits
        (n.relabel HasType.type).type) : n.content.Fits n.type := by
      rw [Node.content_relabel, Node.type_relabel] at h
      exact ih n hn h
    rcases c with _ | _ | _ | _ | _ | (_ | n) | ⟨i, n⟩ | ns | ns <;>
      simp only [Content.relabel, Node.relabelAll_eq] at h
    case bool => cases h with | bool shape => exact .bool shape
    case ints => cases h with | ints shape length count bounds => exact .ints shape length count bounds
    case reals => cases h with | reals shape length count fixed => exact .reals shape length count fixed
    case text => cases h with | text shape => exact .text shape
    case item => cases h with | item shape index => exact .item shape index
    case optional.none => cases h with | empty shape => exact .empty shape
    case optional.some =>
      cases h with
      | some shape type sub =>
        exact .some shape (by rwa [Node.type_relabel] at type) (below n List.mem_cons_self sub)
    case variant =>
      cases h with
      | variant shape index type sub =>
        exact .variant shape index (by rwa [Node.type_relabel] at type) (below n List.mem_cons_self sub)
    case struct =>
      cases h with
      | struct shape types sub =>
        refine .struct shape ?_ fun n hn => below n hn (List.forall_mem_map.1 sub n hn)
        simpa only [List.forall₂_map_left_iff, Node.type_relabel] using types
    case array =>
      cases h with
      | array shape types sub =>
        refine .array shape ?_ fun n hn => below n hn (List.forall_mem_map.1 sub n hn)
        simpa only [List.forall_mem_map, Node.type_relabel] using types

/-- Whether content fits is read off the types of its nodes. -/
theorem fits_relabel {t : Ty} {c : Content α} : (c.relabel HasType.type).Fits t ↔ c.Fits t :=
  ⟨Fits.of_relabel, Fits.relabel⟩

end Content

end

end TypedValues
