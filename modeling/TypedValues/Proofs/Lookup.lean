import TypedValues.Proofs.Paths
import TypedValues.Proofs.Registry
import Mathlib.Data.List.Induction

/-! Looking entries up by name. The text of a path leads to the entry that has the path. A name inside a scope
means the type at the innermost path around the scope at which there is one; this changes only when a type is
registered at a path further inside. -/

namespace TypedValues.Namespace

variable {ns grown : Namespace}

/-- The names along every registered path are valid. -/
def Spelt (ns : Namespace) : Prop := ∀ x ∈ ns.index, x.1.Valid

/-- The texts of the paths tell the entries apart and lead to them. -/
structure Textual (ns : Namespace) : Prop where
  types : ∀ t ∈ ns.types, ns.findType? (Path.parse t.path.text) = some t
  scopes : ∀ id p, ns.scopePath? id = some p → ns.findScope? (Path.parse p.text) = some id
  distinct : ((ns.scopePaths ++ ns.typePaths).map Path.text).Nodup

theorem valid_root : Path.root.Valid := fun _ hname => by cases hname

theorem Spelt.of_entry? (h : ns.Spelt) {p : Path} {e : Entry} (he : ns.entry? p = some e) : p.Valid := by
  obtain ⟨x, hx, -⟩ := Option.map_eq_some_iff.1 he
  have hp : x.1 = p := by simpa using List.find?_some hx
  exact hp ▸ h x (List.mem_of_find?_eq_some hx)

theorem Spelt.of_scopePath? (h : ns.Spelt) (hc : ns.Coherent) {id : ScopeId} {p : Path}
    (hp : ns.scopePath? id = some p) : p.Valid := by
  by_cases hid : id = rootScope
  · rw [hid, scopePath?_eq, hc.root] at hp
    cases hp
    exact valid_root
  · exact h.of_entry? ((hc.index p (.scope id)).2 (by rw [pathOf?, if_neg hid, hp]))

theorem Spelt.cons (h : ns.Spelt) {p : Path} {e : Entry} (hp : p.Valid) (hindex : grown.index = (p, e) :: ns.index) :
    grown.Spelt := by
  rw [Spelt, hindex]
  exact List.forall_mem_cons.2 ⟨hp, h⟩

theorem Spelt.after (h : ns.Spelt) (hc : ns.Coherent) (c : Call) : (ns.after c).Spelt := by
  cases c with
  | addScope parent name =>
    rw [Namespace.after]
    split
    next id grown hadd =>
      obtain ⟨base, hbase, hadd⟩ := Except.bind_eq_ok.1 hadd
      obtain ⟨path, hpath, hadd⟩ := Except.bind_eq_ok.1 hadd
      obtain ⟨rfl, hvalid⟩ := checkedPath_eq_ok hpath (h.of_scopePath? hc (scopePath?_of_checkedScope hbase))
      cases hadd
      exact h.cons hvalid rfl
    next => exact h
  | addType policy scope d identity =>
    rw [Namespace.after]
    split
    next t grown hadd =>
      obtain ⟨base, hbase, -, hfault, rfl, rfl⟩ := addType_eq_ok hadd
      rw [← fault?_register d scope base ns.types.size] at hfault
      exact h.cons (register_path (h.of_scopePath? hc hbase) hfault) rfl
    next => exact h

theorem Spelt.foldl (h : ns.Spelt) (hc : ns.Coherent) (calls : List Call) :
    (calls.foldl Namespace.after ns).Spelt := by
  induction calls generalizing ns with
  | nil => exact h
  | cons c calls ih => exact ih (h.after hc c) (hc.after c)

theorem spelt_empty : empty.Spelt := fun _ hx => by cases hx

theorem Spelt.addBuiltins (h : ns.Spelt) {identity : Nat} {ds : List Definition}
    (hds : ∀ d ∈ ds, d.fault? = none) : (ns.addBuiltins identity ds).Spelt := by
  induction ds generalizing ns identity with
  | nil => exact h
  | cons d ds ih =>
    rw [List.forall_mem_cons] at hds
    have hfault : (d.register rootScope .root ns.types.size).fault? = none := by
      rw [fault?_register]
      exact hds.1
    exact ih (h.cons (register_path valid_root hfault) rfl) hds.2

theorem Spelt.textual (h : ns.Spelt) (hc : ns.Coherent) : ns.Textual := by
  have hentry {p : Path} (hp : p ∈ ns.scopePaths ++ ns.typePaths) : p.Valid := by
    rcases List.mem_append.1 hp with hp | hp
    · obtain ⟨x, hx, rfl⟩ := List.mem_map.1 hp
      obtain ⟨i, hi⟩ := List.mem_iff_getElem?.1 (List.mem_of_mem_drop hx)
      have hpath : ns.scopePath? i = some x.symbol.path := by
        simpa [scopePath?] using congrArg (Option.map (·.symbol.path)) hi
      exact h.of_scopePath? hc hpath
    · obtain ⟨t, ht, rfl⟩ := List.mem_map.1 hp
      obtain ⟨i, hi⟩ := (Coherent.mem_types ns).1 (Array.mem_toList_iff.1 ht)
      exact h.of_entry? ((hc.index _ (.type i)).2 (by rw [pathOf?, hi]; rfl))
  refine ⟨fun t ht => ?_, fun id p hp => ?_, ?_⟩
  · rw [Path.parse_text (hentry (List.mem_append_right _ (List.mem_map_of_mem (Array.mem_toList_iff.2 ht))))]
    exact hc.findType?_iff.2 ⟨ht, rfl⟩
  · rw [Path.parse_text (h.of_scopePath? hc hp)]
    exact hc.findScope?_iff.2 hp
  · exact hc.nodup_paths.map_on fun p hp q hq => Path.text_injective (hentry hp) (hentry hq)

/-- Whatever is registered, each type and scope is found under the text of its path and no two have the same,
and a path of valid names is read back from its text. -/
theorem textual_after (calls : List Call) (identity : Nat) :
    (calls.foldl after empty).Textual ∧ (calls.foldl after (withBuiltins identity)).Textual ∧
      ∀ p : Path, p.Valid → Path.parse p.text = p :=
  ⟨(spelt_empty.foldl coherent_empty calls).textual (coherent_empty.foldl calls),
    ((spelt_empty.addBuiltins builtins_complete).foldl (coherent_withBuiltins identity) calls).textual
      ((coherent_withBuiltins identity).foldl calls), fun _ => Path.parse_text⟩

/-- A lamp in a shed in a yard. -/
def yardCalls : List Call :=
  [.addScope rootScope "yard", .addScope 1 "shed", .addType .report 2 (.fresh "lamp" .bool) 0]

def yard : Namespace := yardCalls.foldl after empty

def shedPath : Path := ⟨["yard", "shed"]⟩

/-- The shed and the lamp are found under their texts. -/
theorem textual_after_yard : shedPath.Valid ∧ Path.parse "yard::shed" = shedPath ∧
    yard.findScope? (Path.parse "yard::shed") = some 2 ∧
    ∃ lamp, yard.type? 0 = some lamp ∧ yard.findType? (Path.parse "yard::shed::lamp") = some lamp := by
  obtain ⟨htextual, -, hparse⟩ := textual_after yardCalls 0
  have hvalid : shedPath.Valid := by
    intro name hname
    simp only [shedPath, List.mem_cons, List.not_mem_nil, or_false] at hname
    rcases hname with rfl | rfl <;> decide
  have hshed : yard.scopePath? 2 = some shedPath := by rfl
  obtain ⟨lamp, hlamp, htext⟩ : ∃ lamp, yard.type? 0 = some lamp ∧ lamp.path.text = "yard::shed::lamp" :=
    ⟨_, by rfl, by rfl⟩
  refine ⟨hvalid, hparse shedPath hvalid, htextual.scopes 2 shedPath hshed, lamp, hlamp, ?_⟩
  rw [← htext]
  exact htextual.types lamp ((Coherent.mem_types yard).2 ⟨0, hlamp⟩)

/-- `outer` is `inner` or a scope around it. -/
def Encloses (ns : Namespace) (outer inner : ScopeId) : Prop :=
  Relation.ReflTransGen (fun i o => ns.scopeParent? i = some o) inner outer

/-- What a name means under a path: the type at the longest prefix of the path, with the name behind it, for
which there is one. -/
def Means (ns : Namespace) (base name : Path) (t : Ty) : Prop :=
  ∃ p : Path, p.segments <+: base.segments ∧ (t ∈ ns.types ∧ t.path = p.append name) ∧
    ∀ q : Path, q.segments <+: base.segments → p.length < q.length → ∀ u ∈ ns.types, u.path ≠ q.append name

/-- Names are resolved from the inside out, and registering changes what they mean only where the new type
comes first. -/
structure Lexical (ns : Namespace) : Prop where
  means : ∀ scope base, ns.scopePath? scope = some base → ∀ name t,
    ns.resolveType? scope name = some t ↔ ns.Means base (Path.parse name) t
  nothing : ∀ scope base, ns.scopePath? scope = some base → ∀ name, ns.resolveType? scope name = none ↔
    ∀ p : Path, p.segments <+: base.segments → ∀ t ∈ ns.types, t.path ≠ p.append (Path.parse name)
  /-- The prefixes are the paths of the scope and of those around it. -/
  around : ∀ scope base, ns.scopePath? scope = some base → ∀ p : Path,
    p.segments <+: base.segments ↔ ∃ outer, ns.Encloses outer scope ∧ ns.scopePath? outer = some p
  /-- The new type lies in the scope, or in one around it, behind the leading names. -/
  addType : ∀ policy target d identity t grown,
    ((ns.addType target d identity).run policy).outcome = .ok (t, grown) → ∀ scope name,
      grown.resolveType? scope name = ns.resolveType? scope name ∨
      grown.resolveType? scope name = some t ∧ ∃ outer p leading, ns.Encloses outer scope ∧
        ns.scopePath? outer = some p ∧ (Path.parse name).parent? = some leading ∧
        ns.scopePath? target = some (p.append leading)
  addScope : ∀ parent name id grown, ns.addScope parent name = .ok (id, grown) →
    ∀ scope, (ns.scopePath? scope).isSome → ∀ name', grown.resolveType? scope name' = ns.resolveType? scope name'

theorem Coherent.findType?_eq_none (h : ns.Coherent) {p : Path} :
    ns.findType? p = none ↔ ∀ t ∈ ns.types, t.path ≠ p := by
  rw [Option.eq_none_iff_forall_ne_some]
  exact forall_congr' fun t => by rw [ne_eq, h.findType?_iff, not_and]

section

variable {name : Path} {inner : List String} {t : Ty}

theorem resolveUnder_cons (s : String) : ns.resolveUnder name (s :: inner) =
    (ns.findType? (Path.append ⟨(s :: inner).reverse⟩ name)).orElse fun _ => ns.resolveUnder name inner := rfl

theorem resolveUnder_eq_none : ns.resolveUnder name inner = none ↔
    ∀ p, p <:+ inner → ns.findType? (Path.append ⟨p.reverse⟩ name) = none := by
  induction inner with
  | nil =>
    refine ⟨fun h p hp => ?_, fun h => h [] (List.suffix_refl _)⟩
    rw [List.suffix_nil.1 hp]
    exact h
  | cons s inner ih =>
    rw [resolveUnder_cons]
    cases hfind : ns.findType? (Path.append ⟨(s :: inner).reverse⟩ name) with
    | some u =>
      refine ⟨fun h => (by cases h), fun h => ?_⟩
      rw [h _ (List.suffix_refl _)] at hfind
      cases hfind
    | none =>
      refine ih.trans ⟨fun h p hp => ?_, fun h p hp => h p (hp.trans (List.suffix_cons s inner))⟩
      rcases List.suffix_cons_iff.1 hp with rfl | hp
      · exact hfind
      · exact h p hp

/-- The longest path that has a type comes first. -/
theorem resolveUnder_eq_some : ns.resolveUnder name inner = some t ↔
    ∃ p, p <:+ inner ∧ ns.findType? (Path.append ⟨p.reverse⟩ name) = some t ∧
      ∀ q, q <:+ inner → p.length < q.length → ns.findType? (Path.append ⟨q.reverse⟩ name) = none := by
  induction inner with
  | nil =>
    constructor
    · refine fun h => ⟨[], List.suffix_refl _, h, fun q hq hlt => ?_⟩
      rw [List.suffix_nil.1 hq] at hlt
      exact absurd hlt (Nat.lt_irrefl _)
    · rintro ⟨p, hp, h, -⟩
      rw [List.suffix_nil.1 hp] at h
      exact h
  | cons s inner ih =>
    have hlonger {p : List String} (hp : p <:+ inner) : p.length < (s :: inner).length :=
      Nat.lt_succ_of_le hp.length_le
    rw [resolveUnder_cons]
    cases hfind : ns.findType? (Path.append ⟨(s :: inner).reverse⟩ name) with
    | some u =>
      constructor
      · refine fun h => ⟨_, List.suffix_refl _, hfind.trans h, fun q hq hlt => ?_⟩
        exact absurd hq.length_le (Nat.not_le.2 hlt)
      · rintro ⟨p, hp, h, hfirst⟩
        rcases List.suffix_cons_iff.1 hp with rfl | hp
        · exact hfind.symm.trans h
        · rw [hfirst _ (List.suffix_refl _) (hlonger hp)] at hfind
          cases hfind
    | none =>
      refine ih.trans ⟨?_, ?_⟩
      · rintro ⟨p, hp, h, hfirst⟩
        refine ⟨p, hp.trans (List.suffix_cons s inner), h, fun q hq hlt => ?_⟩
        rcases List.suffix_cons_iff.1 hq with rfl | hq
        · exact hfind
        · exact hfirst q hq hlt
      · rintro ⟨p, hp, h, hfirst⟩
        rcases List.suffix_cons_iff.1 hp with rfl | hp
        · rw [hfind] at h
          cases h
        · exact ⟨p, hp, h, fun q hq => hfirst q (hq.trans (List.suffix_cons s inner))⟩

/-- One more type changes the outcome only if it is the outcome. -/
theorem resolveUnder_insert (hfind : ∀ q, grown.findType? q = if t.path = q then some t else ns.findType? q) :
    grown.resolveUnder name inner = ns.resolveUnder name inner ∨ grown.resolveUnder name inner = some t ∧
      ∃ p, p <:+ inner ∧ t.path = Path.append ⟨p.reverse⟩ name := by
  induction inner with
  | nil =>
    by_cases hpath : t.path = name
    · exact .inr ⟨(hfind name).trans (if_pos hpath), [], List.suffix_refl _, hpath⟩
    · exact .inl ((hfind name).trans (if_neg hpath))
  | cons s inner ih =>
    rw [resolveUnder_cons, resolveUnder_cons, hfind]
    by_cases hpath : t.path = Path.append ⟨(s :: inner).reverse⟩ name
    · rw [if_pos hpath]
      exact .inr ⟨rfl, _, List.suffix_refl _, hpath⟩
    · rw [if_neg hpath]
      cases ns.findType? (Path.append ⟨(s :: inner).reverse⟩ name) with
      | some u => exact .inl rfl
      | none =>
        refine ih.imp_right fun ⟨h, p, hp, hpath⟩ => ?_
        exact ⟨h, p, hp.trans (List.suffix_cons s inner), hpath⟩

theorem resolveUnder_congr (h : ∀ q, grown.findType? q = ns.findType? q) :
    grown.resolveUnder name inner = ns.resolveUnder name inner := by
  induction inner with
  | nil => exact h name
  | cons s inner ih => rw [resolveUnder_cons, resolveUnder_cons, h, ih]

end

theorem resolveType?_of_scope {scope : ScopeId} {base : Path} (h : ns.scopePath? scope = some base) (name : String) :
    ns.resolveType? scope name = ns.resolveUnder (Path.parse name) base.segments.reverse := by
  rw [resolveType?, h]; rfl

theorem resolveType?_of_none {scope : ScopeId} (h : ns.scopePath? scope = none) (name : String) :
    ns.resolveType? scope name = none := by
  rw [resolveType?, h]; rfl

theorem forall_suffix_reverse {base : Path} {P : Path → Prop} :
    (∀ q, q <:+ base.segments.reverse → P ⟨q.reverse⟩) ↔ ∀ p : Path, p.segments <+: base.segments → P p := by
  constructor
  · intro h p hp
    have hq := h p.segments.reverse (List.reverse_suffix.2 hp)
    rwa [List.reverse_reverse] at hq
  · exact fun h q hq => h ⟨q.reverse⟩ (List.reverse_suffix.1 (by rwa [List.reverse_reverse]))

theorem findType?_opened {parent : ScopeId} {x : Symbol} (hfree : ns.entry? x.path = none) (q : Path) :
    (ns.opened parent x).findType? q = ns.findType? q := by
  have hentry : entry? (ns.opened parent x) q =
      if x.path = q then some (.scope ns.scopes.size) else ns.entry? q := entry?_cons _ _ _ _ _ _
  rw [findType?, findType?, hentry]
  split_ifs with hq
  · rw [← hq, hfree]
  · rfl

namespace Coherent

/-- A scope inside another lies one name further in. -/
theorem scope_cases (h : ns.Coherent) {id : ScopeId} {base : Path} (hbase : ns.scopePath? id = some base) :
    id = rootScope ∧ base = .root ∨ ∃ parent p name, ns.scopeParent? id = some parent ∧
      ns.scopePath? parent = some p ∧ base = p.child name := by
  rw [scopePath?_eq, Option.map_eq_some_iff] at hbase
  obtain ⟨x, hx, rfl⟩ := hbase
  by_cases hid : id = rootScope
  · rw [hid, h.root] at hx
    cases hx
    exact .inl ⟨hid, rfl⟩
  · obtain ⟨parent, p, hparent, hp, hpath⟩ := h.scopes id x hx hid
    refine .inr ⟨parent, p, x.name, ?_, hp, hpath⟩
    have hbind : ns.scopeParent? id = (ns.scopeSymbol? id).bind (·.scope) := by
      rw [scopeParent?, scopeSymbol?, Option.bind_map]; rfl
    rw [hbind, hx]
    exact hparent

theorem enclosing (h : ns.Coherent) {inner : ScopeId} {base p : Path} (hbase : ns.scopePath? inner = some base)
    (hp : p.segments <+: base.segments) : ∃ outer, ns.Encloses outer inner ∧ ns.scopePath? outer = some p := by
  have hself (hsame : p = base) : ∃ outer, ns.Encloses outer inner ∧ ns.scopePath? outer = some p :=
    ⟨inner, .refl, hsame ▸ hbase⟩
  rcases base with ⟨segments⟩
  rcases p with ⟨p⟩
  induction segments using List.reverseRecOn generalizing inner with
  | nil => exact hself (congrArg Path.mk (List.prefix_nil.1 hp))
  | append_singleton segments last ih =>
    rcases List.prefix_concat_iff.1 hp with rfl | hp
    · exact hself rfl
    · rcases h.scope_cases hbase with ⟨-, hroot⟩ | ⟨parent, q, name, hparent, hq, hchild⟩
      · simp [Path.root] at hroot
      · obtain ⟨rfl, -⟩ : segments = q.segments ∧ last = name := by simpa [Path.child] using hchild
        obtain ⟨outer, hencloses, houter⟩ := ih hq hp fun hsame => ⟨parent, .refl, hsame ▸ hq⟩
        exact ⟨outer, .head hparent hencloses, houter⟩

theorem of_encloses (h : ns.Coherent) {outer inner : ScopeId} {base p : Path}
    (hencloses : ns.Encloses outer inner) (hbase : ns.scopePath? inner = some base)
    (hp : ns.scopePath? outer = some p) : p.segments <+: base.segments := by
  induction hencloses using Relation.ReflTransGen.head_induction_on generalizing base with
  | refl =>
    cases hbase.symm.trans hp
    exact List.prefix_refl _
  | head hparent _ ih =>
    rcases h.scope_cases hbase with ⟨rfl, -⟩ | ⟨parent, q, name, hparent', hq, rfl⟩
    · have hroot : ns.scopeParent? rootScope = none := h.mirrored.root.2
      rw [hroot] at hparent
      cases hparent
    · rw [hparent'] at hparent
      cases hparent
      exact (ih hq).trans (List.prefix_append _ _)

theorem findType?_insert (h : ns.Coherent) {scope : ScopeId} {t : Ty} (hgrown : (ns.insert scope t).Coherent)
    (hfree : ns.entry? t.path = none) (q : Path) :
    (ns.insert scope t).findType? q = if t.path = q then some t else ns.findType? q := by
  have hmem {u : Ty} : u ∈ (ns.insert scope t).types ↔ u ∈ ns.types ∨ u = t := Array.mem_push
  refine Option.ext fun u => ?_
  rw [hgrown.findType?_iff, hmem]
  split
  next hq =>
    have hother : u ∈ ns.types → u.path ≠ q := by
      have hnone : ns.findType? t.path = none := by rw [findType?, hfree]
      rw [hq] at hnone
      exact h.findType?_eq_none.1 hnone u
    rw [Option.some.injEq]
    constructor
    · rintro ⟨hu | rfl, hpath⟩
      · exact absurd hpath (hother hu)
      · rfl
    · rintro rfl
      exact ⟨.inr rfl, hq⟩
  next hq =>
    rw [h.findType?_iff]
    constructor
    · rintro ⟨hu | rfl, hpath⟩
      · exact ⟨hu, hpath⟩
      · exact absurd hpath hq
    · rintro ⟨hu, hpath⟩
      exact ⟨.inl hu, hpath⟩

/-- No type is where a scope is, so a name has leading segments and a last one. -/
theorem split_registered (h : ns.Coherent) {base home name : Path} {scope : ScopeId} {last : String} {p : Path}
    (hbase : ns.scopePath? scope = some base) (hp : p.segments <+: base.segments)
    (hfree : ns.entry? (home.child last) = none) (hpath : home.child last = p.append name) :
    ∃ leading, name.parent? = some leading ∧ home = p.append leading := by
  rcases name with ⟨segments⟩
  rcases List.eq_nil_or_concat segments with rfl | ⟨leading, final, rfl⟩
  · obtain ⟨outer, -, houter⟩ := h.enclosing hbase hp
    obtain rfl : home.child last = p := hpath.trans (by simp [Path.append])
    have hne : outer ≠ rootScope := by
      rintro rfl
      rw [scopePath?_eq, h.root] at houter
      simp [Path.child, Symbol.root, Path.root] at houter
    rw [(h.index _ (.scope outer)).2 (by rw [pathOf?, if_neg hne, houter])] at hfree
    cases hfree
  · refine ⟨⟨leading⟩, by simp [Path.parent?], ?_⟩
    rcases home with ⟨home⟩
    have hsegments : home ++ [last] = (p.segments ++ leading) ++ [final] := by
      simpa [Path.child, Path.append] using hpath
    rw [(List.append_inj' hsegments rfl).1]
    rfl

theorem lexical (h : ns.Coherent) : ns.Lexical where
  means scope base hbase name t := by
    rw [resolveType?_of_scope hbase, resolveUnder_eq_some, Means]
    constructor
    · rintro ⟨p, hp, ht, hfirst⟩
      refine ⟨⟨p.reverse⟩, List.reverse_suffix.1 (by rwa [List.reverse_reverse]), h.findType?_iff.1 ht, ?_⟩
      rw [← forall_suffix_reverse (P := fun q => Path.length ⟨p.reverse⟩ < q.length →
        ∀ u ∈ ns.types, u.path ≠ q.append (Path.parse name))]
      intro q hq hlt
      simp only [Path.length, List.length_reverse] at hlt
      exact h.findType?_eq_none.1 (hfirst q hq hlt)
    · rintro ⟨p, hp, ht, hfirst⟩
      refine ⟨p.segments.reverse, List.reverse_suffix.2 hp, ?_, fun q hq hlt => ?_⟩
      · rw [List.reverse_reverse]
        exact h.findType?_iff.2 ht
      · refine h.findType?_eq_none.2 (hfirst ⟨q.reverse⟩ ?_ ?_)
        · exact List.reverse_suffix.1 (by rwa [List.reverse_reverse])
        · simpa [Path.length] using hlt
  nothing scope base hbase name := by
    rw [resolveType?_of_scope hbase, resolveUnder_eq_none,
      forall_suffix_reverse (P := fun p => ns.findType? (p.append (Path.parse name)) = none)]
    exact forall_congr' fun p => imp_congr_right fun _ => h.findType?_eq_none
  around scope base hbase p :=
    ⟨h.enclosing hbase, fun ⟨_, hencloses, hp⟩ => h.of_encloses hencloses hbase hp⟩
  addType policy target d identity t grown hadd scope name := by
    obtain ⟨home, hhome, hfree, -, rfl, rfl⟩ := addType_eq_ok hadd
    have hgrown := h.insert_registered identity hhome hfree
    cases hbase : ns.scopePath? scope with
    | none =>
      left
      rw [resolveType?_of_none hbase, resolveType?_of_none ((scopePath?_insert scope).trans hbase)]
    | some base =>
      rw [resolveType?_of_scope hbase, resolveType?_of_scope ((scopePath?_insert scope).trans hbase)]
      refine (resolveUnder_insert (h.findType?_insert hgrown hfree)).imp_right fun ⟨hsome, p, hp, hpath⟩ => ?_
      have hprefix : p.reverse <+: base.segments := List.reverse_suffix.1 (by rwa [List.reverse_reverse])
      obtain ⟨outer, hencloses, houter⟩ := h.enclosing (p := ⟨p.reverse⟩) hbase hprefix
      obtain ⟨leading, hleading, rfl⟩ := h.split_registered (p := ⟨p.reverse⟩) hbase hprefix hfree hpath
      exact ⟨hsome, outer, _, leading, hencloses, houter, hleading, hhome⟩
  addScope parent name id grown hadd scope hscope name' := by
    obtain ⟨home, hhome, hfree, rfl⟩ := addScope_eq_ok hadd
    obtain ⟨base, hbase⟩ := Option.isSome_iff_exists.1 hscope
    have hsize : scope ≠ ns.scopes.size := by
      rintro rfl
      simp [scopePath?] at hbase
    have hbase' : (ns.opened parent ⟨name, some parent, home.child name⟩).scopePath? scope = some base := by
      rw [scopePath?_eq, scopeSymbol?_opened, if_neg hsize, ← scopePath?_eq, hbase]
    rw [resolveType?_of_scope hbase, resolveType?_of_scope hbase']
    exact resolveUnder_congr (findType?_opened hfree)

end Coherent

/-- Whatever is registered, a name means what is registered nearest to the scope. One more type changes its
meaning only to that type, and only where the type lies behind the scope or one around it; one more scope
changes nothing. -/
theorem lexical_after (calls : List Call) (identity : Nat) :
    (calls.foldl after empty).Lexical ∧ (calls.foldl after (withBuiltins identity)).Lexical :=
  ⟨(coherent_empty.foldl calls).lexical, ((coherent_withBuiltins identity).foldl calls).lexical⟩

/-- A lamp in the yard comes behind that of the shed, and is found where the shed is no part of the way. -/
example : ((yard.after (.addType .report 1 (.fresh "lamp" .string) 1)).resolveType? 2 "lamp").map Ty.kind = some .bool ∧
    ((yard.after (.addType .report 1 (.fresh "lamp" .string) 1)).resolveType? 1 "lamp").map Ty.kind = some .string ∧
    ((yard.after (.addType .report 1 (.fresh "lamp" .string) 1)).resolveType? 1 "shed::lamp").map Ty.kind =
      some .bool := by
  refine ⟨?_, ?_, ?_⟩ <;> rfl

end TypedValues.Namespace
