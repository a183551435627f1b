import TypedValues.Proofs.Candor
import TypedValues.Proofs.Alias

/-! Variants take the first alternative that accepts. Entries are given to every alternative in turn, and a
lone literal, which stands for the whole value, as a literal; so what an alternative accepts is what it would
accept by itself, unless it would take the literal for its first member or element. -/

namespace TypedValues

/-- The first type of the list that accepts is at the position, with the content that it gives. -/
inductive FirstAccepts (accepts : Ty → Content Ty → Prop) : List Ty → Nat → Ty → Content Ty → Prop where
  | here {u : Ty} {c : Content Ty} (h : accepts u c) (rest : List Ty) : FirstAccepts accepts (u :: rest) 0 u c
  | there {u v : Ty} {rest : List Ty} {i : Nat} {c : Content Ty} (hnone : ∀ d, ¬ accepts u d)
      (h : FirstAccepts accepts rest i v c) : FirstAccepts accepts (u :: rest) (i + 1) v c

namespace FirstAccepts

variable {accepts accepts' : Ty → Content Ty → Prop} {us : List Ty} {i : Nat} {u : Ty} {c : Content Ty}

theorem iff_least : FirstAccepts accepts us i u c ↔
    us[i]? = some u ∧ accepts u c ∧ ∀ j < i, ∀ v, us[j]? = some v → ∀ d, ¬ accepts v d := by
  constructor
  · intro h
    induction h with
    | here h rest => exact ⟨rfl, h, fun j hj => absurd hj (Nat.not_lt_zero j)⟩
    | there hnone _ ih =>
      obtain ⟨hi, hc, hleast⟩ := ih
      refine ⟨hi, hc, fun j hj v hv => ?_⟩
      cases j with
      | zero => cases hv; exact hnone
      | succ j => exact hleast j (by omega) v hv
  · rintro ⟨hi, hc, hleast⟩
    induction us generalizing i with
    | nil => cases hi
    | cons w rest ih =>
      cases i with
      | zero => cases hi; exact .here hc rest
      | succ i =>
        refine .there (hleast 0 (Nat.succ_pos i) w rfl) (ih hi fun j hj v hv => ?_)
        exact hleast (j + 1) (by omega) v hv

theorem exists_iff : (∃ i u c, FirstAccepts accepts us i u c) ↔ ∃ u ∈ us, ∃ c, accepts u c := by
  constructor
  · rintro ⟨i, u, c, h⟩
    obtain ⟨hi, hc, -⟩ := iff_least.1 h
    exact ⟨u, List.mem_of_getElem? hi, c, hc⟩
  · intro h
    induction us with
    | nil => obtain ⟨u, hu, -⟩ := h; cases hu
    | cons w rest ih =>
      by_cases hw : ∃ c, accepts w c
      · obtain ⟨c, hc⟩ := hw
        exact ⟨0, w, c, .here hc rest⟩
      · obtain ⟨u, hu, c, hc⟩ := h
        obtain rfl | hu := List.mem_cons.1 hu
        · exact absurd ⟨c, hc⟩ hw
        · obtain ⟨i, v, d, hd⟩ := ih ⟨u, hu, c, hc⟩
          exact ⟨i + 1, v, d, .there (not_exists.1 hw) hd⟩

/-- Accepting less makes no difference as long as the first that accepts more accepts it still. -/
theorem narrow (hle : ∀ v d, accepts v d → accepts' v d)
    (hfirst : ∀ j v d, FirstAccepts accepts' us j v d → accepts v d) :
    FirstAccepts accepts us i u c ↔ FirstAccepts accepts' us i u c := by
  constructor
  · intro h
    obtain ⟨hi, hc, hleast⟩ := iff_least.1 h
    obtain ⟨j, v, d, hj⟩ := exists_iff.2 ⟨u, List.mem_of_getElem? hi, c, hle u c hc⟩
    obtain ⟨hv, -, hbefore⟩ := iff_least.1 hj
    have hij : i ≤ j := Nat.le_of_not_lt fun hlt => hleast j hlt v hv d (hfirst j v d hj)
    exact iff_least.2 ⟨hi, hle u c hc, fun k hk => hbefore k (by omega)⟩
  · intro h
    obtain ⟨hi, -, hleast⟩ := iff_least.1 h
    exact iff_least.2 ⟨hi, hfirst i u c h, fun j hj v hv d hd => hleast j hj v hv d (hle v d hd)⟩

end FirstAccepts

/-- The content takes the first of the alternatives that accepts; they are numbered from `k` on. -/
def Chosen (accepts : Ty → Content Ty → Prop) (us : List Ty) (k : Nat) (c : Content Ty) : Prop :=
  ∃ i u inner, FirstAccepts accepts us i u inner ∧ c = .variant (k + i) ⟨u, inner⟩

namespace Chosen

variable {accepts accepts' : Ty → Content Ty → Prop} {us : List Ty} {k : Nat} {u : Ty} {c d : Content Ty}

theorem not_nil : ¬ Chosen accepts [] k c := by
  rintro ⟨i, u, inner, h, -⟩
  cases h

theorem inner {i : Nat} {n : Node Ty} (h : Chosen accepts us 0 (.variant i n)) (hu : us[i]? = some u) :
    ∃ inner, n = ⟨u, inner⟩ ∧ accepts u inner := by
  obtain ⟨j, v, inner, hfirst, heq⟩ := h
  obtain ⟨hv, hinner, -⟩ := FirstAccepts.iff_least.1 hfirst
  rw [Nat.zero_add] at heq
  cases heq
  cases hu.symm.trans hv
  exact ⟨inner, rfl, hinner⟩

theorem cons_of_accepts (hd : accepts u d) (honly : ∀ e, accepts u e → e = d) :
    Chosen accepts (u :: us) k c ↔ c = .variant k ⟨u, d⟩ := by
  constructor
  · rintro ⟨i, v, inner, h, rfl⟩
    cases h with
    | here h => rw [honly inner h, Nat.add_zero]
    | there hnone => exact absurd hd (hnone d)
  · rintro rfl
    exact ⟨0, u, d, .here hd us, rfl⟩

theorem cons_of_rejects (hnone : ∀ e, ¬ accepts u e) :
    Chosen accepts (u :: us) k c ↔ Chosen accepts us (k + 1) c := by
  constructor
  · rintro ⟨i, v, inner, h, rfl⟩
    cases h with
    | here h => exact absurd h (hnone inner)
    | @there _ _ _ i _ _ h => exact ⟨i, v, inner, h, by rw [Nat.add_assoc, Nat.add_comm 1]⟩
  · rintro ⟨i, v, inner, h, rfl⟩
    exact ⟨i + 1, v, inner, .there hnone h, by rw [Nat.add_assoc, Nat.add_comm 1]⟩

theorem narrow (hle : ∀ v d, accepts v d → accepts' v d)
    (hfirst : ∀ j v d, FirstAccepts accepts' us j v d → accepts v d) :
    Chosen accepts us k c ↔ Chosen accepts' us k c := by
  unfold Chosen
  simp only [FirstAccepts.narrow hle hfirst]

end Chosen

theorem stageAlternativeLiteral_eq_some_iff {us : List Ty} {k : Nat} {l : Literal} {c : Content Ty} :
    stageAlternativeLiteral us k l = some c ↔ Chosen (fun u d => stageLiteral u l = .ok d) us k c := by
  induction us generalizing k with
  | nil =>
    rw [stageAlternativeLiteral]
    exact iff_of_false (by simp) Chosen.not_nil
  | cons u rest ih =>
    rw [stageAlternativeLiteral]
    cases hu : stageLiteral u l with
    | ok d =>
      rw [Chosen.cons_of_accepts hu fun e he => Except.ok.inj (he.symm.trans hu)]
      exact ⟨fun h => (Option.some.inj h).symm, fun h => congrArg some h.symm⟩
    | error e => rw [Chosen.cons_of_rejects fun d hd => by cases hu.symm.trans hd]; exact ih

/-- Where no operand is at fault, staging does not panic. -/
theorem stage_ne_panic {t : Ty} {input : Input} (h : ∀ o ∈ input.operands, o.fault? = none) (p : Policy)
    (e : Error) : ((stage t input).run p).outcome ≠ .panic e := by
  have hcandid := stage_candid t input
  cases p with
  | report => exact hcandid.reports e
  | panic =>
    intro hpanic
    obtain ⟨o, ho, hfault⟩ := hcandid.blames e (hcandid.panics_iff.1 hpanic)
    cases (h o ho).symm.trans hfault

theorem stageAlternatives_eq_some_iff {us : List Ty} {k : Nat} {input : Input} {p : Policy} {c : Content Ty}
    (h : ∀ o ∈ input.operands, o.fault? = none) :
    ((stageAlternatives us k input).run p).outcome = .ok (some c) ↔
      Chosen (fun u d => ((stage u input).run p).outcome = .ok d) us k c := by
  induction us generalizing k with
  | nil =>
    rw [stageAlternatives]
    exact iff_of_false (by simp) Chosen.not_nil
  | cons u rest ih =>
    rw [stageAlternatives, Attempt.bind_eq_ok]
    simp only [Attempt.trial, Result.trial]
    rcases hu : ((stage u input).run p).outcome with d | e | e
    · rw [Chosen.cons_of_accepts hu fun e he => Outcome.ok.inj (he.symm.trans hu)]
      simp only [Outcome.ok.injEq, exists_eq_left', Attempt.run_pure, Option.some.injEq]
      exact eq_comm
    · rw [Chosen.cons_of_rejects fun d hd => by cases hu.symm.trans hd]
      simp only [Outcome.ok.injEq, exists_eq_left', ih]
    · exact absurd hu (stage_ne_panic h p e)

/-- Entries that are not settled are given to the alternatives of a variant in turn. -/
theorem stage_variant_eq_ok_iff {t : Ty} {us : List Ty} (hs : t.shape = .variant us) {es : List InitEntry}
    (hsettled : settled? t es = none) (h : ∀ o ∈ (Input.entries es).operands, o.fault? = none) {p : Policy}
    {c : Content Ty} : ((stage t (.entries es)).run p).outcome = .ok c ↔
      Chosen (fun u d => ((stage u (.entries es)).run p).outcome = .ok d) us 0 c := by
  rw [← stageAlternatives_eq_some_iff h, stage_variant hsettled hs, Attempt.bind_eq_ok]
  constructor
  · rintro ⟨_ | d, hfound, hc⟩
    · exact absurd hc Attempt.not_fail_ok
    · cases hc; exact hfound
  · intro hfound
    exact ⟨some c, hfound, rfl⟩

theorem standsForWhole_variant {t : Ty} {us : List Ty} (hs : t.shape = .variant us) (o : Operand) :
    standsForWhole t o = true := by
  unfold standsForWhole
  rw [hs]

theorem stage_lone_literal {t : Ty} {l : Literal} (h : standsForWhole t (.literal l) = true) (p : Policy)
    (c : Content Ty) : ((stage t (.entries [⟨none, .operand (.literal l)⟩])).run p).outcome = .ok c ↔
      stageLiteral t l = .ok c := by
  rw [stage_lone h, stageOperand]
  exact Attempt.ofExcept_eq_ok

/-- A struct or an array does not take a literal, other than a list, for the whole of itself. -/
theorem stageLiteral_of_part {t : Ty} {l : Literal} (h : standsForWhole t (.literal l) = false)
    (c : Content Ty) : stageLiteral t l ≠ .ok c := by
  rcases t with ⟨_, _, _, shape, _, _⟩
  intro hc
  cases shape with
  | struct base members =>
    cases l with
    | list => cases h
    | _ => cases hc
  | array element =>
    cases l with
    | list => cases h
    | _ => cases element <;> cases hc
  | _ => cases h

theorem stageLiteral_variant_eq_ok {t : Ty} {us : List Ty} (hs : t.shape = .variant us) (l : Literal)
    (c : Content Ty) :
    stageLiteral t l = .ok c ↔ Chosen (fun u d => stageLiteral u l = .ok d) us 0 c := by
  rw [← stageAlternativeLiteral_eq_some_iff, stageLiteral_variant hs]
  cases stageAlternativeLiteral us 0 l <;> simp

theorem settled?_of_many {es : List InitEntry} (h : 2 ≤ es.length) (t : Ty) : settled? t es = none := by
  rcases es with _ | ⟨_, _ | ⟨_, _⟩⟩
  · simp at h
  · simp at h
  · simp only [settled?]

/-- Only a lone entry may be brackets to be removed. -/
theorem peel_of_many {es : List InitEntry} (h : 2 ≤ es.length) : peel es = es := by
  rcases es with _ | ⟨_, _ | ⟨_, _⟩⟩
  · simp at h
  · simp at h
  · rfl

theorem stage_nil_eq_ok (t : Ty) (p : Policy) (c : Content Ty) :
    ((stage t (.entries [])).run p).outcome = .ok c ↔ defaultContent t = .ok c := by
  rw [stage_nil]
  exact Attempt.ofExcept_eq_ok

theorem defaultContent_variant {t : Ty} {us : List Ty} (hs : t.shape = .variant us) (c : Content Ty) :
    defaultContent t = .ok c ↔
      ∃ u inner, us[0]? = some u ∧ defaultContent u = .ok inner ∧ c = .variant 0 ⟨u, inner⟩ := by
  rcases t with ⟨_, _, _, _, _, _⟩
  cases hs
  cases us with
  | nil => simp [defaultContent]
  | cons u rest =>
    rw [defaultContent, Except.bind_eq_ok]
    simp only [Except.pure_eq_ok, List.getElem?_cons_zero, Option.some.injEq]
    constructor
    · rintro ⟨inner, hinner, rfl⟩
      exact ⟨u, inner, rfl, hinner, rfl⟩
    · rintro ⟨_, inner, rfl, hinner, rfl⟩
      exact ⟨inner, hinner, rfl⟩

def InitEntry.Literals (es : List InitEntry) : Prop := ∀ o ∈ InitEntry.operandsAll es, ∃ l, o = .literal l

/-- A variant takes the first alternative that accepts entries of literals, unless it is one that would take a
lone literal for a part of itself. -/
theorem stage_variant_literals {t : Ty} {us : List Ty} (hs : t.shape = .variant us) {es : List InitEntry}
    (hes : InitEntry.Literals es) (hnil : es ≠ []) {p : Policy}
    (hwhole : ∀ l, es = [⟨none, .operand (.literal l)⟩] → ∀ i u d,
      FirstAccepts (fun u d => ((stage u (.entries es)).run p).outcome = .ok d) us i u d →
      standsForWhole u (.literal l) = true) (c : Content Ty) :
    ((stage t (.entries es)).run p).outcome = .ok c ↔
      Chosen (fun u d => ((stage u (.entries es)).run p).outcome = .ok d) us 0 c := by
  have hfault : ∀ o ∈ (Input.entries es).operands, o.fault? = none := by
    intro o ho
    obtain ⟨l, rfl⟩ := hes o ho
    rfl
  cases hsettled : settled? t es with
  | none => exact stage_variant_eq_ok_iff hs hsettled hfault
  | some x =>
    rcases settled?_eq_some hsettled with ⟨rfl, -⟩ | ⟨o, rfl, -⟩
    · exact absurd rfl hnil
    · obtain ⟨l, rfl⟩ := hes o (by simp [InitEntry.operandsAll, InitEntry.operands, Initializer.operands])
      rw [stage_lone_literal (standsForWhole_variant hs _), stageLiteral_variant_eq_ok hs]
      apply Chosen.narrow
      · intro u d hd
        cases hu : standsForWhole u (.literal l) with
        | true => exact (stage_lone_literal hu p d).2 hd
        | false => exact absurd hd (stageLiteral_of_part hu d)
      · intro i u d hfirst
        obtain ⟨-, hd, -⟩ := FirstAccepts.iff_least.1 hfirst
        exact (stage_lone_literal (hwhole l rfl i u d hfirst) p d).1 hd

namespace Session

/-- A new value of the type can be made from the entries, and then holds the content. -/
def Constructs (s : Session) (label : String) (t : Ty) (es : List InitEntry) (c : Content Ty) : Prop :=
  ∃ signal content, ((change label [] (.construct es)).run (s.create label t)).2.outcome = .ok none ∧
    ((change label [] (.construct es)).run (s.create label t)).1.values.get? label =
      some ⟨⟨t, signal⟩, some content⟩ ∧ content.relabel HasType.type = c

theorem create_value (s : Session) (label : String) (t : Ty) :
    ∃ signal, (s.create label t).values.get? label = some ⟨⟨t, signal⟩, none⟩ :=
  ⟨_, by simp only [create, store, Table.get?_put, if_true]; rfl⟩

theorem constructs_iff {s : Session} {label : String} {t : Ty} {es : List InitEntry} {c : Content Ty} :
    s.Constructs label t es c ↔ ((stageList t es).run s.policy).outcome = .ok c := by
  obtain ⟨signal, hvalue⟩ := s.create_value label t
  have hblank : ((⟨⟨t, signal⟩, none⟩ : Value).stageChange (.construct es)) =
      (do return (.install (← stageList t es), none)) := rfl
  have hreach : (((⟨⟨t, signal⟩, none⟩ : Value).reachAll []).run (s.create label t).policy).outcome =
      .ok ([], ⟨⟨t, signal⟩, none⟩) := rfl
  rcases change_cases (s.create label t) label [] (.construct es) with ⟨-, -, hfails, hrefused⟩ |
    ⟨root, location, target, edit, position, hroot, hreach', hstage, hs, -, hok⟩
  · constructor
    · rintro ⟨_, _, hok, -⟩
      exact absurd hok (hfails none)
    · intro hc
      refine absurd (Attempt.bind_eq_ok.2 ⟨c, hc, rfl⟩) (hrefused _ _ _ hvalue hreach (.install c, none))
  · cases hroot.symm.trans hvalue
    cases hreach'.symm.trans hreach
    rw [hblank, Attempt.bind_eq_ok] at hstage
    obtain ⟨d, hd, hedit⟩ := hstage
    cases hedit
    obtain ⟨after, htree, hrelabel⟩ :=
      Holder.commit_install ⟨⟨t, signal⟩, none⟩ d (s.create label t).signals
    have hafter : ((change label [] (.construct es)).run (s.create label t)).1.values.get? label =
        some ⟨⟨t, signal⟩, some after⟩ := by rw [hs, Table.get?_put, if_pos rfl, htree]
    constructor
    · rintro ⟨_, content, -, hget, rfl⟩
      cases hafter.symm.trans hget
      rw [hrelabel]
      exact hd
    · intro hc
      obtain rfl := Outcome.ok.inj (hc.symm.trans hd)
      exact ⟨signal, after, hok, hafter, hrelabel⟩

/-- A variant takes the first of its alternatives that constructs from a list of literals, with the payload
that this one constructs alone; for a lone literal, if this one takes it for the whole of itself. A list that
comes down to no entries asks for the default, which is that of the first alternative. -/
theorem variant_takes_first (s : Session) (label : String) {t : Ty} {us : List Ty}
    (hs : t.shape = .variant us) {es : List InitEntry} (hes : InitEntry.Literals es) :
    (peel es = [] → ∀ c, s.Constructs label t es c ↔
      ∃ u inner, us[0]? = some u ∧ s.Constructs label u es inner ∧ c = .variant 0 ⟨u, inner⟩) ∧
    (peel es ≠ [] →
      (∀ l, peel es = [⟨none, .operand (.literal l)⟩] → ∀ i u d,
        FirstAccepts (fun u d => s.Constructs label u es d) us i u d → standsForWhole u (.literal l) = true) →
      ((∃ c, s.Constructs label t es c) ↔ ∃ u ∈ us, ∃ d, s.Constructs label u es d) ∧
      ∀ c, s.Constructs label t es c ↔ ∃ i u inner, us[i]? = some u ∧ s.Constructs label u es inner ∧
        (∀ j < i, ∀ v, us[j]? = some v → ∀ d, ¬ s.Constructs label v es d) ∧
        c = .variant i ⟨u, inner⟩) := by
  simp only [constructs_iff, stageList, Input.ofList]
  constructor
  · intro hnil c
    rw [hnil]
    simp only [stage_nil_eq_ok]
    exact defaultContent_variant hs c
  · intro hnil hwhole
    have hpeeled : InitEntry.Literals (peel es) := by
      intro o ho
      rw [operandsAll_peel] at ho
      exact hes o ho
    have hchosen := stage_variant_literals hs hpeeled hnil hwhole
    constructor
    · rw [← FirstAccepts.exists_iff]
      simp only [hchosen]
      constructor
      · rintro ⟨_, i, u, inner, h, -⟩
        exact ⟨i, u, inner, h⟩
      · rintro ⟨i, u, inner, h⟩
        exact ⟨_, i, u, inner, h, rfl⟩
    · intro c
      rw [hchosen]
      unfold Chosen
      simp only [FirstAccepts.iff_least, Nat.zero_add, and_assoc]

/-- A shade is a tint, which has no default, or a flag; an outlet takes a lamp or a text. -/
def stringType : Ty :=
  ((Definition.fresh "string" .string).register Namespace.rootScope .root 1).withIdentity 1

def tint : Definition :=
  { Definition.fresh "tint" (.enum .empty) with shape := .enum ⟨[⟨"warm", 0, none⟩], none⟩ }

def tintType : Ty := tint.withIdentity lit.nextIdentity

def shade : Definition :=
  { Definition.fresh "shade" (.variant []) with shape := .variant [tintType, boolType] }

def shadeType : Ty := shade.withIdentity (lit.nextIdentity + 1)

def outlet : Definition :=
  { Definition.fresh "outlet" (.variant []) with shape := .variant [lampType, stringType] }

def outletType : Ty := outlet.withIdentity (lit.nextIdentity + 2)

def tinted : Session := ((sealType "tint" tint "tint").run lit).1

def shaded : Session :=
  ((sealType "outlet" outlet "outlet").run ((sealType "shade" shade "shade").run tinted).1).1

theorem shaded_reachable : shaded.Reachable := by
  have hbool {s : Session} (h : s.space.type? 0 = some boolType) : s.Knows boolType := .registered h
  have hstring {s : Session} (h : s.space.type? 1 = some stringType) : s.Knows stringType := .registered h
  have hempty : lit.Builds (.fresh "tint" (.enum .empty)) := .fresh "tint" rfl
  have htinted : tinted.Reachable := lit_reachable.sealType (hempty.item (i := ⟨"warm", 0, none⟩) rfl) "tint"
  have htint : tinted.types.get? "tint" = some tintType := by rfl
  have hlamp : ((sealType "shade" shade "shade").run tinted).1.types.get? "lamp" = some lampType := by rfl
  have hshade : tinted.Builds shade := by
    refine builds_template "shade" (.variant []) rfl [tintType, boolType] (fun t ht => ?_) rfl
    rcases List.mem_cons.1 ht with rfl | ht
    · exact .kept htint
    · rw [List.mem_singleton.1 ht]
      exact hbool rfl
  refine (htinted.sealType hshade "shade").sealType ?_ "outlet"
  refine builds_template "outlet" (.variant []) rfl [lampType, stringType] (fun t ht => ?_) rfl
  rcases List.mem_cons.1 ht with rfl | ht
  · exact .kept hlamp
  · rw [List.mem_singleton.1 ht]
    exact hstring rfl

/-- A lamp does not take a text for its flag, so the outlet takes it as its second alternative. -/
theorem variant_takes_first_shaded : outletType.shape = .variant [lampType, stringType] ∧
    InitEntry.Literals [⟨none, .operand (.literal (.text "dim"))⟩] ∧
    shaded.Constructs "plug" outletType [⟨none, .operand (.literal (.text "dim"))⟩]
      (.variant 1 ⟨stringType, .text "dim"⟩) := by
  have hliterals : InitEntry.Literals [⟨none, .operand (.literal (.text "dim"))⟩] := by
    intro o ho
    obtain rfl := List.mem_singleton.1 ho
    exact ⟨_, rfl⟩
  have hlamp (d : Content Ty) :
      ¬ shaded.Constructs "plug" lampType [⟨none, .operand (.literal (.text "dim"))⟩] d := by
    rw [constructs_iff]
    intro h
    cases h
  have hstring : shaded.Constructs "plug" stringType [⟨none, .operand (.literal (.text "dim"))⟩]
      (.text "dim") := by
    rw [constructs_iff]
    rfl
  obtain ⟨-, htakes⟩ := variant_takes_first shaded "plug" (t := outletType) rfl hliterals
  refine ⟨rfl, hliterals, ((htakes (by simp [peel, peelEntry, peelOnly]) ?_).2 _).2
    ⟨1, stringType, .text "dim", rfl, hstring, ?_, rfl⟩⟩
  · intro l _ i u d hfirst
    cases hfirst with
    | here h => exact absurd h (hlamp d)
    | there _ hrest =>
      cases hrest with
      | here => rfl
      | there _ hnil => cases hnil
  · intro j hj v hv d
    obtain rfl : j = 0 := by omega
    cases hv
    exact hlamp d

/-- A variant that does not take what one of its alternatives takes: an empty list in brackets asks for the
default of the first alternative, which has none; and a flag by itself is no lamp, though a list of one flag
makes a lamp. -/
theorem alternatives_passed_over : shaded.Reachable ∧
    (shaded.Knows shadeType ∧ shadeType.shape = .variant [tintType, boolType] ∧
      shaded.Constructs "v" boolType [⟨none, .list []⟩] (.bool false) ∧
      ∀ c, ¬ shaded.Constructs "v" shadeType [⟨none, .list []⟩] c) ∧
    shaded.Knows outletType ∧ outletType.shape = .variant [lampType, stringType] ∧
      shaded.Constructs "v" lampType [⟨none, .operand (.literal (.bool true))⟩]
        (.struct [⟨boolType, .bool true⟩]) ∧
      ∀ c, ¬ shaded.Constructs "v" outletType [⟨none, .operand (.literal (.bool true))⟩] c := by
  have hshade : shaded.types.get? "shade" = some shadeType := by rfl
  have houtlet : shaded.types.get? "outlet" = some outletType := by rfl
  simp only [constructs_iff]
  refine ⟨shaded_reachable, ⟨.kept hshade, rfl, rfl, fun c h => ?_⟩, .kept houtlet, rfl, rfl, fun c h => ?_⟩
  · cases h
  · cases h

end Session

end TypedValues
