import TypedValues.Proofs.Soundness

/-! What is registered in a namespace. A scope or type lies in the scope that its symbol names, at a path
of its own; the index leads to each of them and to nothing else; and every scope lists its types in the
order of registration. Each call that registers something keeps this, and so do the builtin types, which
are filed without a check. -/

namespace TypedValues

theorem getElem?_modify_map {σ τ : Type} (xs : Array σ) (i j : Nat) {f : σ → σ} {g : σ → τ}
    (h : ∀ x, g (f x) = g x) : (xs.modify i f)[j]?.map g = xs[j]?.map g := by
  rw [Array.getElem?_modify]
  split
  · rw [Option.map_map, Function.comp_def, funext h]
  · rfl

namespace Namespace

/-- A call that registers something. Any definition may be handed over, under either policy. -/
inductive Call where
  | addScope (parent : ScopeId) (name : String)
  | addType (policy : Policy) (scope : ScopeId) (d : Definition) (identity : Nat)

/-- The namespace after a call; one that fails leaves it as it was. -/
def after (ns : Namespace) (c : Call) : Namespace :=
  match c with
  | .addScope parent name =>
    match ns.addScope parent name with
    | .ok (_, grown) => grown
    | .error _ => ns
  | .addType policy scope d identity =>
    match ((ns.addType scope d identity).run policy).outcome with
    | .ok (_, grown) => grown
    | _ => ns

def scopeSymbol? (ns : Namespace) (id : ScopeId) : Option Symbol := ns.scopes[id]?.map (·.symbol)

def typeList? (ns : Namespace) (id : ScopeId) : Option (List TypeId) := ns.scopes[id]?.map (·.types)

/-- The symbol lies in the scope that it names. -/
def Places (ns : Namespace) (x : Symbol) : Prop :=
  ∃ scope base, x.scope = some scope ∧ ns.scopePath? scope = some base ∧ x.path = base.child x.name

/-- Where an entry is. The root scope is no entry. -/
def pathOf? (ns : Namespace) : Entry → Option Path
  | .scope id => if id = rootScope then none else ns.scopePath? id
  | .type id => (ns.type? id).map Ty.path

/-- The numbers of the types in a scope, in the order of registration. -/
def filed (ns : Namespace) (scope : ScopeId) : List TypeId :=
  (List.range ns.types.size).filter fun id => (ns.type? id).bind (·.symbol.scope) == some scope

/-- The scopes, the types, the lists and the index tell of the same registrations. -/
structure Coherent (ns : Namespace) : Prop where
  root : ns.scopeSymbol? rootScope = some .root
  scopes : ∀ id x, ns.scopeSymbol? id = some x → id ≠ rootScope → ns.Places x
  types : ∀ id t, ns.type? id = some t → t.id = some id ∧ ns.Places t.symbol
  lists : ∀ id l, ns.typeList? id = some l → l = ns.filed id
  index : ∀ p e, ns.entry? p = some e ↔ ns.pathOf? e = some p

theorem scopePath?_eq (ns : Namespace) (id : ScopeId) :
    ns.scopePath? id = (ns.scopeSymbol? id).map (·.path) := by
  rw [scopePath?, scopeSymbol?, Option.map_map]; rfl

theorem entry?_cons (scopes : Array Scope) (types : Array Ty) (index : List (Path × Entry))
    (p q : Path) (e : Entry) : entry? ⟨scopes, types, (p, e) :: index⟩ q =
      if p = q then some e else entry? ⟨scopes, types, index⟩ q := by
  unfold entry?
  by_cases h : p = q <;> simp [h]

/-- A new entry at a free path goes into the index. -/
theorem Coherent.index_cons {ns grown : Namespace} (h : ns.Coherent) {p : Path} {e : Entry}
    (hfree : ns.entry? p = none) (hnew : ns.pathOf? e = none)
    (hentry : ∀ q, grown.entry? q = if p = q then some e else ns.entry? q)
    (hself : grown.pathOf? e = some p) (hother : ∀ e', e' ≠ e → grown.pathOf? e' = ns.pathOf? e')
    (q : Path) (e' : Entry) : grown.entry? q = some e' ↔ grown.pathOf? e' = some q := by
  rw [hentry]
  by_cases he : e' = e
  · subst he
    rw [hself]
    split
    next hp => simp [hp]
    next hp => simp [hp, h.index, hnew]
  · rw [hother e' he, ← h.index]
    split
    next hp => simp [← hp, hfree, Ne.symm he]
    next => rfl

theorem Places.mono {ns grown : Namespace} {x : Symbol} (h : ns.Places x)
    (hgrown : ∀ id p, ns.scopePath? id = some p → grown.scopePath? id = some p) : grown.Places x := by
  obtain ⟨scope, base, hscope, hbase, hpath⟩ := h
  exact ⟨scope, base, hscope, hgrown _ _ hbase, hpath⟩

theorem scopeSymbol?_size (ns : Namespace) : ns.scopeSymbol? ns.scopes.size = none := by
  simp [scopeSymbol?]

theorem type?_size (ns : Namespace) : ns.type? ns.types.size = none := by
  simp [type?]

section

variable {ns : Namespace} {scope : ScopeId} {t : Ty}

theorem scopeSymbol?_insert (id : ScopeId) :
    (ns.insert scope t).scopeSymbol? id = ns.scopeSymbol? id :=
  getElem?_modify_map ns.scopes scope id fun _ => rfl

theorem scopePath?_insert (id : ScopeId) : (ns.insert scope t).scopePath? id = ns.scopePath? id := by
  rw [scopePath?_eq, scopeSymbol?_insert, scopePath?_eq]

theorem type?_insert (id : TypeId) :
    (ns.insert scope t).type? id = if id = ns.types.size then some t else ns.type? id := by
  simp only [insert, type?, Array.getElem?_push]

theorem typeList?_insert (id : ScopeId) : (ns.insert scope t).typeList? id =
    if scope = id then (ns.typeList? id).map (· ++ [ns.types.size]) else ns.typeList? id := by
  simp only [insert, typeList?, Array.getElem?_modify]
  split
  · rw [Option.map_map, Option.map_map]; rfl
  · rfl

theorem filed_insert (id : ScopeId) : (ns.insert scope t).filed id =
    ns.filed id ++ if t.symbol.scope = some id then [ns.types.size] else [] := by
  have hsize : (ns.insert scope t).types.size = ns.types.size + 1 := Array.size_push _
  have hold : (List.range ns.types.size).filter
      (fun j => ((ns.insert scope t).type? j).bind (·.symbol.scope) == some id) = ns.filed id := by
    refine List.filter_congr fun j hj => ?_
    rw [type?_insert, if_neg (List.mem_range.1 hj).ne]
  rw [filed, hsize, List.range_succ, List.filter_append, hold, List.filter_singleton, type?_insert, if_pos rfl]
  simp

theorem Coherent.insert (h : ns.Coherent) (hid : t.id = some ns.types.size)
    (hscope : t.symbol.scope = some scope) (ht : ns.Places t.symbol) (hfree : ns.entry? t.path = none) :
    (ns.insert scope t).Coherent := by
  have hplaces {x : Symbol} (hx : ns.Places x) : (ns.insert scope t).Places x :=
    hx.mono fun id p hp => (scopePath?_insert id).trans hp
  refine ⟨(scopeSymbol?_insert _).trans h.root, ?_, ?_, ?_,
    h.index_cons (e := .type ns.types.size) hfree ?_ (fun q => entry?_cons _ _ _ _ _ _) ?_ ?_⟩
  · intro id x hx hid
    rw [scopeSymbol?_insert] at hx
    exact hplaces (h.scopes id x hx hid)
  · intro id u hu
    rw [type?_insert] at hu
    split at hu
    next heq => cases hu; exact ⟨heq ▸ hid, hplaces ht⟩
    next => exact ⟨(h.types id u hu).1, hplaces (h.types id u hu).2⟩
  · intro id l hl
    rw [typeList?_insert] at hl
    rw [filed_insert, hscope]
    split at hl
    next heq =>
      obtain ⟨l, hold, rfl⟩ := Option.map_eq_some_iff.1 hl
      rw [if_pos (congrArg some heq), h.lists id l hold]
    next hne => rw [if_neg (by simpa using hne), List.append_nil, h.lists id l hl]
  · simp [pathOf?, type?_size]
  · simp [pathOf?, type?_insert]
  · intro e he
    cases e with
    | scope id => simp only [pathOf?, scopePath?_insert]
    | type id => simp only [pathOf?, type?_insert]; rw [if_neg fun heq => he (by rw [heq])]

end

def opened (ns : Namespace) (parent : ScopeId) (x : Symbol) : Namespace where
  scopes := (ns.scopes.modify parent fun s => { s with scopes := s.scopes ++ [ns.scopes.size] }).push ⟨x, [], []⟩
  types := ns.types
  index := (x.path, .scope ns.scopes.size) :: ns.index

section

variable {ns : Namespace} {parent : ScopeId} {x : Symbol}

theorem scopeSymbol?_opened (id : ScopeId) : (ns.opened parent x).scopeSymbol? id =
    if id = ns.scopes.size then some x else ns.scopeSymbol? id := by
  simp only [opened, scopeSymbol?, Array.getElem?_push, Array.size_modify]
  split
  · rfl
  · exact getElem?_modify_map ns.scopes parent id fun _ => rfl

theorem typeList?_opened (id : ScopeId) : (ns.opened parent x).typeList? id =
    if id = ns.scopes.size then some [] else ns.typeList? id := by
  simp only [opened, typeList?, Array.getElem?_push, Array.size_modify]
  split
  · rfl
  · exact getElem?_modify_map ns.scopes parent id fun _ => rfl

theorem Coherent.lt_of_places (h : ns.Coherent) {id : TypeId} {t : Ty} (ht : ns.type? id = some t) :
    t.symbol.scope ≠ some ns.scopes.size := by
  obtain ⟨scope, base, hscope, hbase, -⟩ := (h.types id t ht).2
  rintro heq
  rw [hscope] at heq
  cases heq
  simp [scopePath?] at hbase

theorem Coherent.filed_size (h : ns.Coherent) : ns.filed ns.scopes.size = [] := by
  refine List.filter_eq_nil_iff.2 fun id _ => ?_
  cases ht : ns.type? id with
  | none => simp
  | some t => simpa using h.lt_of_places ht

theorem Coherent.opened (h : ns.Coherent) (hx : ns.Places x) (hfree : ns.entry? x.path = none) :
    (ns.opened parent x).Coherent := by
  have hsymbol {id : ScopeId} {y : Symbol} (hy : ns.scopeSymbol? id = some y) :
      (ns.opened parent x).scopeSymbol? id = some y := by
    rw [scopeSymbol?_opened, if_neg, hy]
    rintro rfl
    simp [scopeSymbol?_size] at hy
  have hplaces {y : Symbol} (hy : ns.Places y) : (ns.opened parent x).Places y := by
    refine hy.mono fun id p hp => ?_
    rw [scopePath?_eq, Option.map_eq_some_iff] at hp ⊢
    obtain ⟨y, hy, hp⟩ := hp
    exact ⟨y, hsymbol hy, hp⟩
  have hroot : ns.scopes.size ≠ rootScope := by
    rintro heq
    have hsome := h.root
    rw [← heq, scopeSymbol?_size] at hsome
    cases hsome
  refine ⟨hsymbol h.root, ?_, ?_, ?_,
    h.index_cons (e := .scope ns.scopes.size) hfree ?_ (fun q => entry?_cons _ _ _ _ _ _) ?_ ?_⟩
  · intro id y hy hid
    rw [scopeSymbol?_opened] at hy
    split at hy
    next => cases hy; exact hplaces hx
    next => exact hplaces (h.scopes id y hy hid)
  · intro id t ht
    exact ⟨(h.types id t ht).1, hplaces (h.types id t ht).2⟩
  · intro id l hl
    rw [typeList?_opened] at hl
    split at hl
    next heq => cases hl; subst heq; exact h.filed_size.symm
    next => exact h.lists id l hl
  · simp [pathOf?, scopePath?_eq, scopeSymbol?_size]
  · simp [pathOf?, scopePath?_eq, scopeSymbol?_opened, hroot]
  · intro e he
    cases e with
    | scope id =>
      simp only [pathOf?, scopePath?_eq, scopeSymbol?_opened]
      rw [if_neg (c := id = ns.scopes.size) fun heq => he (by rw [heq])]
    | type id => rfl

end

section

variable {ns grown : Namespace}

theorem scopePath?_of_checkedScope {scope : ScopeId} {p : Path} (h : ns.checkedScope scope = .ok p) :
    ns.scopePath? scope = some p := by
  unfold checkedScope at h
  split at h
  next hp => cases h; exact hp
  next => cases h

theorem entry?_of_checkedPath {parent p : Path} {name : String} (h : ns.checkedPath parent name = .ok p) :
    p = parent.child name ∧ ns.entry? (parent.child name) = none := by
  unfold checkedPath at h
  simp only at h
  split at h
  next => cases h
  next =>
    split at h
    next => cases h
    next hfree =>
      cases h
      exact ⟨rfl, by simpa using hfree⟩

theorem addScope_eq_ok {parent id : ScopeId} {name : String} (h : ns.addScope parent name = .ok (id, grown)) :
    ∃ base, ns.scopePath? parent = some base ∧ ns.entry? (base.child name) = none ∧
      grown = ns.opened parent ⟨name, some parent, base.child name⟩ := by
  obtain ⟨base, hbase, h⟩ := Except.bind_eq_ok.1 h
  obtain ⟨path, hpath, h⟩ := Except.bind_eq_ok.1 h
  obtain ⟨rfl, hfree⟩ := entry?_of_checkedPath hpath
  cases h
  exact ⟨base, scopePath?_of_checkedScope hbase, hfree, rfl⟩

theorem addType_eq_ok {policy : Policy} {scope : ScopeId} {d : Definition} {identity : Nat} {t : Ty}
    (h : ((ns.addType scope d identity).run policy).outcome = .ok (t, grown)) :
    ∃ base, ns.scopePath? scope = some base ∧ ns.entry? (base.child d.name) = none ∧
      d.fault? = none ∧ t = (d.register scope base ns.types.size).withIdentity identity ∧
      grown = ns.insert scope t := by
  obtain ⟨base, hbase, h⟩ := Attempt.bind_eq_ok.1 h
  obtain ⟨path, hpath, h⟩ := Attempt.bind_eq_ok.1 h
  obtain ⟨u, hu, h⟩ := Attempt.bind_eq_ok.1 h
  obtain ⟨hfault, rfl⟩ := sealed_eq_ok (Attempt.ofExcept_eq_ok.1 hu)
  cases h
  exact ⟨base, scopePath?_of_checkedScope (Attempt.ofExcept_eq_ok.1 hbase),
    (entry?_of_checkedPath (Attempt.ofExcept_eq_ok.1 hpath)).2, fault?_register d _ _ _ ▸ hfault, rfl, rfl⟩

/-- A definition is filed in the scope under which it is registered. -/
theorem Coherent.insert_registered (h : ns.Coherent) {scope : ScopeId} {base : Path} {d : Definition}
    (identity : Nat) (hbase : ns.scopePath? scope = some base)
    (hfree : ns.entry? (base.child d.name) = none) :
    (ns.insert scope ((d.register scope base ns.types.size).withIdentity identity)).Coherent :=
  h.insert rfl rfl ⟨scope, base, rfl, hbase, rfl⟩ hfree

theorem Coherent.after (h : ns.Coherent) (c : Call) : (ns.after c).Coherent := by
  cases c with
  | addScope parent name =>
    rw [Namespace.after]
    split
    next id grown hadd =>
      obtain ⟨base, hbase, hfree, rfl⟩ := addScope_eq_ok hadd
      exact h.opened ⟨parent, base, rfl, hbase, rfl⟩ hfree
    next => exact h
  | addType policy scope d identity =>
    rw [Namespace.after]
    split
    next t grown hadd =>
      obtain ⟨base, hbase, hfree, -, rfl, rfl⟩ := addType_eq_ok hadd
      exact h.insert_registered identity hbase hfree
    next => exact h

theorem Coherent.foldl (h : ns.Coherent) (calls : List Call) :
    (calls.foldl Namespace.after ns).Coherent := by
  induction calls generalizing ns with
  | nil => exact h
  | cons c calls ih => exact ih (h.after c)

theorem coherent_empty : empty.Coherent := by
  refine ⟨rfl, fun id x hx hid => ?_, fun id t ht => ?_, fun id l hl => ?_, fun p e => ?_⟩
  · cases id with
    | zero => exact absurd rfl hid
    | succ id => simp [empty, scopeSymbol?] at hx
  · simp [empty, type?] at ht
  · cases id with
    | zero => cases hl; rfl
    | succ id => simp [empty, typeList?] at hl
  · cases e with
    | scope id => cases id <;> simp [empty, entry?, pathOf?, scopePath?, rootScope]
    | type id => simp [empty, entry?, pathOf?, type?]

theorem Coherent.addBuiltins (h : ns.Coherent) {identity : Nat} {ds : List Definition}
    (hnames : (ds.map Definition.name).Nodup)
    (hfree : ∀ d ∈ ds, ns.entry? (Path.root.child d.name) = none) :
    (ns.addBuiltins identity ds).Coherent := by
  induction ds generalizing ns identity with
  | nil => exact h
  | cons d ds ih =>
    rw [List.forall_mem_cons] at hfree
    rw [List.map_cons, List.nodup_cons] at hnames
    have hbase : ns.scopePath? rootScope = some .root := by rw [scopePath?_eq, h.root]; rfl
    refine ih (h.insert_registered identity hbase hfree.1) hnames.2 fun e he => ?_
    have hne : d.name ≠ e.name := fun heq => hnames.1 (heq ▸ List.mem_map_of_mem he)
    have hpath : Path.root.child d.name ≠ Path.root.child e.name := by simpa [Path.child] using hne
    exact (entry?_cons _ _ _ _ _ _).trans ((if_neg hpath).trans (hfree.2 e he))

theorem builtins_nodup : (builtins.map Definition.name).Nodup := by decide +kernel

theorem coherent_withBuiltins (identity : Nat) : (withBuiltins identity).Coherent :=
  coherent_empty.addBuiltins builtins_nodup fun _ _ => rfl

end

def scopePaths (ns : Namespace) : List Path := (ns.scopes.toList.drop 1).map (·.symbol.path)

def typePaths (ns : Namespace) : List Path := ns.types.toList.map Ty.path

/-- What can be asked of a namespace in different ways has one answer. -/
structure Mirrored (ns : Namespace) : Prop where
  root : ns.scopePath? rootScope = some .root ∧ ns.scopeParent? rootScope = none
  scopes : ∀ id x, ns.scopeSymbol? id = some x → id ≠ rootScope → ns.Places x
  types : ∀ t ∈ ns.types, ns.Places t.symbol
  numbered : ∀ id t, ns.type? id = some t ↔ t ∈ ns.types ∧ t.id = some id
  distinct : (ns.scopePaths ++ ns.typePaths).Nodup
  index : ∀ p e, ns.entry? p = some e ↔ ns.pathOf? e = some p
  findType : ∀ p t, ns.findType? p = some t ↔ t ∈ ns.types ∧ t.path = p
  findScope : ∀ p id, ns.findScope? p = some id ↔ ns.scopePath? id = some p
  apart : ∀ p, ns.findType? p = none ∨ ns.findScope? p = none
  filed : ∀ id t scope l, ns.type? id = some t → ns.typeList? scope = some l →
    l.count id = if t.symbol.scope = some scope then 1 else 0
  ordered : ∀ scope l, ns.typeList? scope = some l → l.Pairwise (· < ·) ∧ ∀ id ∈ l, (ns.type? id).isSome

namespace Coherent

variable {ns : Namespace}

theorem mem_types (ns : Namespace) {t : Ty} : t ∈ ns.types ↔ ∃ id, ns.type? id = some t :=
  Array.mem_iff_getElem?

theorem pathOf?_inj (h : ns.Coherent) {e e' : Entry} {p : Path} (he : ns.pathOf? e = some p)
    (he' : ns.pathOf? e' = some p) : e = e' :=
  Option.some.inj (((h.index p e).2 he).symm.trans ((h.index p e').2 he'))

theorem pathOf?_ne_root (h : ns.Coherent) {e : Entry} : ns.pathOf? e ≠ some .root := by
  have hchild {x : Symbol} (hx : ns.Places x) : x.path ≠ .root := by
    obtain ⟨_, base, -, -, hpath⟩ := hx
    simp [hpath, Path.child, Path.root]
  intro hroot
  cases e with
  | scope id =>
    simp only [pathOf?] at hroot
    split at hroot
    · cases hroot
    · next hid =>
      rw [scopePath?_eq] at hroot
      obtain ⟨x, hx, hpath⟩ := Option.map_eq_some_iff.1 hroot
      exact hchild (h.scopes id x hx hid) hpath
  | type id =>
    obtain ⟨t, ht, hpath⟩ := Option.map_eq_some_iff.1 hroot
    exact hchild (h.types id t ht).2 hpath

theorem entry?_root (h : ns.Coherent) : ns.entry? .root = none := by
  cases he : ns.entry? .root with
  | none => rfl
  | some e => exact absurd ((h.index _ _).1 he) h.pathOf?_ne_root

theorem findType?_iff (h : ns.Coherent) {p : Path} {t : Ty} :
    ns.findType? p = some t ↔ t ∈ ns.types ∧ t.path = p := by
  constructor
  · intro ht
    unfold findType? at ht
    split at ht
    next id hid =>
      have hpath := (h.index _ _).1 hid
      simp only [pathOf?, ht, Option.map_some, Option.some.injEq] at hpath
      exact ⟨(mem_types ns).2 ⟨id, ht⟩, hpath⟩
    next => cases ht
  · rintro ⟨ht, rfl⟩
    obtain ⟨id, ht⟩ := (mem_types ns).1 ht
    have hentry : ns.entry? t.path = some (.type id) :=
      (h.index _ _).2 (by simp [pathOf?, ht])
    rw [findType?, hentry]
    exact ht

theorem findScope?_iff (h : ns.Coherent) {p : Path} {id : ScopeId} :
    ns.findScope? p = some id ↔ ns.scopePath? id = some p := by
  have hroot : ns.scopePath? rootScope = some .root := by rw [scopePath?_eq, h.root]; rfl
  rw [findScope?]
  split
  next hp =>
    obtain rfl : p = .root := by
      rcases p with ⟨segments⟩
      simpa [Path.isRoot, Path.root] using hp
    constructor
    · rintro ⟨⟩
      exact hroot
    · intro hid
      by_contra hne
      have hne : id ≠ rootScope := fun heq => hne (by rw [heq])
      exact h.pathOf?_ne_root (e := .scope id) (by rw [pathOf?, if_neg hne, hid])
  next hp =>
    have hiff : ns.entry? p = some (.scope id) ↔ ns.scopePath? id = some p := by
      rw [h.index, pathOf?]
      split
      next hid =>
        refine ⟨nofun, fun hid' => ?_⟩
        rw [hid, hroot] at hid'
        cases hid'
        exact absurd rfl hp
      next => rfl
    rw [← hiff]
    cases ns.entry? p with
    | none => simp
    | some e => cases e <;> simp

theorem nodup_paths (h : ns.Coherent) : (ns.scopePaths ++ ns.typePaths).Nodup := by
  have hscope {i : Nat} {p : Path} (hp : ns.scopePaths[i]? = some p) :
      ns.pathOf? (.scope (i + 1)) = some p := by
    simpa [scopePaths, pathOf?, scopePath?, rootScope, Nat.add_comm] using hp
  have htype {i : Nat} {p : Path} (hp : ns.typePaths[i]? = some p) : ns.pathOf? (.type i) = some p := by
    simpa [typePaths, pathOf?, type?] using hp
  refine List.nodup_append.2 ⟨?_, ?_, fun p hp q hq heq => ?_⟩
  · refine List.nodup_iff_getElem?_ne_getElem?.2 fun i j hij hj heq => ?_
    rw [List.getElem?_eq_getElem hj] at heq
    cases h.pathOf?_inj (hscope heq) (hscope (List.getElem?_eq_getElem hj))
    exact hij.ne rfl
  · refine List.nodup_iff_getElem?_ne_getElem?.2 fun i j hij hj heq => ?_
    rw [List.getElem?_eq_getElem hj] at heq
    cases h.pathOf?_inj (htype heq) (htype (List.getElem?_eq_getElem hj))
    exact hij.ne rfl
  · obtain ⟨i, hi⟩ := List.mem_iff_getElem?.1 hp
    obtain ⟨j, hj⟩ := List.mem_iff_getElem?.1 hq
    cases h.pathOf?_inj (hscope hi) (htype (heq ▸ hj))

theorem filed_count (ns : Namespace) {id : TypeId} {t : Ty} (ht : ns.type? id = some t) (scope : ScopeId) :
    (ns.filed scope).count id = if t.symbol.scope = some scope then 1 else 0 := by
  have hlt : id < ns.types.size := (Array.getElem?_eq_some_iff.1 ht).1
  have hnodup : (ns.filed scope).Nodup := List.nodup_range.filter _
  have hmem : id ∈ ns.filed scope ↔ t.symbol.scope = some scope := by
    simp [filed, hlt, ht]
  rw [hnodup.count]
  simp [hmem]

theorem filed_ordered (ns : Namespace) (scope : ScopeId) :
    (ns.filed scope).Pairwise (· < ·) ∧ ∀ id ∈ ns.filed scope, (ns.type? id).isSome := by
  refine ⟨List.pairwise_lt_range.filter _, fun id hid => ?_⟩
  have hlt : id < ns.types.size := List.mem_range.1 (List.mem_of_mem_filter hid)
  simp [type?, hlt]

theorem mirrored (h : ns.Coherent) : ns.Mirrored where
  root := by
    have hparent : ns.scopeParent? rootScope = (ns.scopeSymbol? rootScope).bind (·.scope) := by
      rw [scopeParent?, scopeSymbol?, Option.bind_map]; rfl
    rw [hparent, scopePath?_eq, h.root]
    exact ⟨rfl, rfl⟩
  scopes := h.scopes
  types t ht := by
    obtain ⟨id, ht⟩ := (mem_types ns).1 ht
    exact (h.types id t ht).2
  numbered id t := by
    refine ⟨fun ht => ⟨(mem_types ns).2 ⟨id, ht⟩, (h.types id t ht).1⟩, ?_⟩
    rintro ⟨ht, hid⟩
    obtain ⟨i, ht⟩ := (mem_types ns).1 ht
    cases hid.symm.trans (h.types i t ht).1
    exact ht
  distinct := h.nodup_paths
  index := h.index
  findType _ _ := h.findType?_iff
  findScope _ _ := h.findScope?_iff
  apart p := by
    by_cases hroot : p.isRoot
    · left
      obtain rfl : p = .root := by
        rcases p with ⟨segments⟩
        simpa [Path.isRoot, Path.root] using hroot
      rw [findType?, h.entry?_root]
    · rw [findType?, findScope?, if_neg hroot]
      cases ns.entry? p with
      | none => exact .inl rfl
      | some e =>
        cases e with
        | scope id => exact .inl rfl
        | type id => exact .inr rfl
  filed id t scope l ht hl := by rw [h.lists scope l hl, filed_count ns ht]
  ordered scope l hl := by rw [h.lists scope l hl]; exact filed_ordered ns scope

end Coherent

/-- Whatever is registered, and whatever is refused on the way, the namespace mirrors it. -/
theorem mirrored_after (calls : List Call) (identity : Nat) :
    (calls.foldl after empty).Mirrored ∧ (calls.foldl after (withBuiltins identity)).Mirrored :=
  ⟨(coherent_empty.foldl calls).mirrored, ((coherent_withBuiltins identity).foldl calls).mirrored⟩

end Namespace

end TypedValues
