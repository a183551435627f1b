import TypedValues.Proofs.Lossless

/-! Simple types. Flags, numbers and texts, alone or in optionals and arrays, are read from a document as they are
staged from the literal that the document stands for. An object, which stands for none, is refused wherever it
is. -/

namespace TypedValues

/-- Made of flags, numbers and texts by optionals and arrays alone. -/
inductive Ty.Simple : Ty → Prop where
  | scalar {t : Ty} (h : t.kind ∈ [.bool, .integral, .real, .string]) : Simple t
  | optional {t u : Ty} (hs : t.shape = .optional (some u)) (h : Simple u) : Simple t
  | array {t u : Ty} (hs : t.shape = .array (some u)) (h : Simple u) : Simple t

theorem forall₂_exists_iff {α β γ : Type} {R : α → β → Prop} {S : β → γ → Prop} {as : List α} {cs : List γ} :
    List.Forall₂ (fun a c => ∃ b, R a b ∧ S b c) as cs ↔
      ∃ bs, List.Forall₂ R as bs ∧ List.Forall₂ S bs cs := by
  constructor
  · intro h
    induction h with
    | nil => exact ⟨[], .nil, .nil⟩
    | cons hac _ ih =>
      obtain ⟨b, hab, hbc⟩ := hac
      obtain ⟨bs, has, hbs⟩ := ih
      exact ⟨b :: bs, .cons hab has, .cons hbc hbs⟩
  · rintro ⟨bs, has, hbs⟩
    induction has generalizing cs with
    | nil => cases hbs; exact .nil
    | cons hab _ ih =>
      cases hbs with
      | cons hbc hbs => exact .cons ⟨_, hab, hbc⟩ (ih hbs)

theorem Document.literals?_eq_some {ds : List Document} {ls : List Literal} :
    Document.literals? ds = some ls ↔ List.Forall₂ (fun d l => d.literal? = some l) ds ls := by
  induction ds generalizing ls with
  | nil => simp [literals?, eq_comm]
  | cons d ds ih =>
    rw [literals?, List.forall₂_cons_left_iff]
    simp only [← ih]
    cases d.literal? <;> cases literals? ds <;> simp [eq_comm]

theorem attemptElements_eq_ok {σ τ : Type} {f : σ → Attempt Error τ} {i : Nat} {p : Policy} {xs : List σ}
    {ys : List τ} : ((attemptElements f i xs).run p).outcome = .ok ys ↔
      List.Forall₂ (fun x y => ((f x).run p).outcome = .ok y) xs ys := by
  induction xs generalizing i ys with
  | nil => simp [attemptElements, eq_comm]
  | cons x xs ih =>
    rw [attemptElements, List.forall₂_cons_left_iff]
    simp only [Attempt.bind_eq_ok, Attempt.under_eq_ok, ih, Attempt.run_pure, Outcome.ok.injEq]
    constructor
    · rintro ⟨y, hy, rest, hrest, rfl⟩
      exact ⟨y, rest, hy, hrest, rfl⟩
    · rintro ⟨y, rest, hy, hrest, rfl⟩
      exact ⟨y, hy, rest, hrest, rfl⟩

theorem stageElements_eq_ok_iff {σ τ : Type} {f : σ → Except Error τ} {i : Nat} {xs : List σ} {ys : List τ} :
    stageElements f i xs = .ok ys ↔ List.Forall₂ (fun x y => f x = .ok y) xs ys := by
  refine ⟨stageElements_eq_ok, fun h => ?_⟩
  induction h generalizing i with
  | nil => rfl
  | cons hy _ ih =>
    rw [stageElements]
    exact Except.bind_eq_ok.2 ⟨_, underSite_eq_ok.2 hy, Except.bind_eq_ok.2 ⟨_, ih, rfl⟩⟩

theorem componentsOf_null {τ : Type} {t : Ty} {n : Nat} {component : Literal → Except Error τ}
    (h : ∀ a, component .null ≠ .ok a) (as : List τ) : componentsOf t n component .null ≠ .ok as := by
  unfold componentsOf
  split
  · intro hok
    obtain ⟨a, ha, -⟩ := Except.bind_eq_ok.1 hok
    exact h a ha
  · exact nofun

/-- No flag, number or text is staged from nothing. -/
theorem stageLiteral_null_ne_ok {t : Ty} (h : t.kind ∈ [.bool, .integral, .real, .string]) (c : Content Ty) :
    stageLiteral t .null ≠ .ok c := by
  intro hok
  cases stageLiteral_cases hok with
  | ints hs hzs => exact componentsOf_null (fun z hz => by cases hz) _ hzs
  | reals hs hvs => exact componentsOf_null (fun v hv => by cases hv) _ hvs
  | optional hs hl => exact hl rfl
  | null hs | variant hs => simp [Ty.kind, Shape.kind, hs] at h

theorem decodeScalar_eq_ok {t : Ty} (h : t.kind ∈ [.bool, .integral, .real, .string]) {d : Document}
    {c : Content Ty} : decodeScalar t d = .ok c ↔ ∃ l, d.literal? = some l ∧ stageLiteral t l = .ok c := by
  have refused (what : Expectation) (d : Document) : unexpected t what d ≠ .ok c := nofun
  unfold decodeScalar
  cases d with
  | null => simp [scalarLiteral?, Document.literal?, refused, stageLiteral_null_ne_ok h]
  | _ =>
    simp only [scalarLiteral?]
    cases Document.literal? _ <;> simp [refused]

theorem literal?_eq_null {d : Document} : d.literal? = some .null ↔ d = .null := by
  cases d <;> simp [Document.literal?]

theorem literal?_eq_list {d : Document} {ls : List Literal} :
    d.literal? = some (.list ls) ↔ ∃ ds, d = .array ds ∧ Document.literals? ds = some ls := by
  cases d <;> simp [Document.literal?]

section

variable {t u : Ty} {p : Policy} {c : Content Ty}

theorem decode_array_eq_ok (hs : t.shape = .array (some u)) {d : Document} :
    ((decode t d).run p).outcome = .ok c ↔ ∃ ds ns, d = .array ds ∧
      List.Forall₂ (fun d n => ∃ inner, ((decode u d).run p).outcome = .ok inner ∧ ⟨u, inner⟩ = n) ds ns ∧
      .array ns = c := by
  by_cases hd : ∃ ds, d = .array ds
  · obtain ⟨ds, rfl⟩ := hd
    rw [decode_array hs, Attempt.bind_pure_eq_ok]
    simp only [attemptElements_eq_ok, Attempt.bind_pure_eq_ok, Document.array.injEq, exists_and_left, exists_eq_left']
  · have hkind : d.kind ≠ .array := by
      cases d with
      | array ds => exact absurd ⟨ds, rfl⟩ hd
      | _ => exact nofun
    rw [decode_of_not_array hs hkind]
    refine iff_of_false (fun h => ?_) fun ⟨ds, _, hds, _⟩ => hd ⟨ds, hds⟩
    cases h

theorem stageLiteral_optional_eq_ok (hs : t.shape = .optional (some u)) {l : Literal} (hl : l ≠ .null) :
    stageLiteral t l = .ok c ↔ ∃ inner, stageLiteral u l = .ok inner ∧ .optional (some ⟨u, inner⟩) = c := by
  rw [stageLiteral_optional hs hl, Except.bind_pure_eq_ok]

theorem stageLiteral_array_eq_ok (hs : t.shape = .array (some u)) {l : Literal} :
    stageLiteral t l = .ok c ↔ ∃ ls ns, l = .list ls ∧
      List.Forall₂ (fun l n => ∃ inner, stageLiteral u l = .ok inner ∧ ⟨u, inner⟩ = n) ls ns ∧ .array ns = c := by
  cases l with
  | list ls =>
    rw [stageLiteral_array hs, Except.bind_pure_eq_ok]
    simp only [stageElements_eq_ok_iff, Except.bind_pure_eq_ok, Literal.list.injEq, exists_and_left, exists_eq_left']
  | _ =>
    rcases t with ⟨_, _, _, _, _, _⟩
    cases hs
    refine iff_of_false (fun h => ?_) (by simp)
    cases h

end

/-- What a document is read as for a simple type is what its literal is staged to. -/
theorem decode_simple {t : Ty} (ht : t.Simple) {d : Document} {p : Policy} {c : Content Ty} :
    ((decode t d).run p).outcome = .ok c ↔ ∃ l, d.literal? = some l ∧ stageLiteral t l = .ok c := by
  induction ht generalizing d c with
  | scalar h =>
    rw [decode_scalar h, ← decodeScalar_eq_ok h]
    exact Attempt.ofExcept_eq_ok
  | @optional t u hs _ ih =>
    by_cases hd : d = .null
    · subst hd
      rw [decode_null hs]
      simp [Document.literal?, stageLiteral_null hs]
    · rw [decode_optional hs hd, Attempt.bind_pure_eq_ok]
      simp only [ih]
      constructor
      · rintro ⟨inner, ⟨l, hl, hinner⟩, hc⟩
        have hnull : l ≠ .null := fun h => hd (literal?_eq_null.1 (h ▸ hl))
        exact ⟨l, hl, (stageLiteral_optional_eq_ok hs hnull).2 ⟨inner, hinner, hc⟩⟩
      · rintro ⟨l, hl, hc⟩
        have hnull : l ≠ .null := fun h => hd (literal?_eq_null.1 (h ▸ hl))
        obtain ⟨inner, hinner, hc⟩ := (stageLiteral_optional_eq_ok hs hnull).1 hc
        exact ⟨inner, ⟨l, hl, hinner⟩, hc⟩
  | @array t u hs _ ih =>
    have helement (d : Document) (n : Node Ty) :
        (∃ inner, ((decode u d).run p).outcome = .ok inner ∧ ⟨u, inner⟩ = n) ↔
          ∃ l, d.literal? = some l ∧ ∃ inner, stageLiteral u l = .ok inner ∧ ⟨u, inner⟩ = n := by
      constructor
      · rintro ⟨inner, hinner, hn⟩
        obtain ⟨l, hl, hstaged⟩ := ih.1 hinner
        exact ⟨l, hl, inner, hstaged, hn⟩
      · rintro ⟨l, hl, inner, hstaged, hn⟩
        exact ⟨inner, ih.2 ⟨l, hl, hstaged⟩, hn⟩
    simp only [decode_array_eq_ok hs, stageLiteral_array_eq_ok hs, helement, forall₂_exists_iff]
    constructor
    · rintro ⟨ds, ns, rfl, ⟨ls, hls, hns⟩, hc⟩
      exact ⟨.list ls, literal?_eq_list.2 ⟨ds, rfl, Document.literals?_eq_some.2 hls⟩, ls, ns, rfl, hns, hc⟩
    · rintro ⟨l, hl, ls, ns, rfl, hns, hc⟩
      obtain ⟨ds, rfl, hls⟩ := literal?_eq_list.1 hl
      exact ⟨ds, ns, rfl, ⟨ls, Document.literals?_eq_some.1 hls, hns⟩, hc⟩

namespace Session

/-- Reading a document for a simple type and staging the literal that it stands for succeed together, with equal
content. -/
theorem decode_like_literal {s : Session} (hs : s.Reachable) {t : Ty} (ht : s.Knows t) (hsimple : t.Simple)
    (d : Document) (p : Policy) :
    ((∃ c, ((decode t d).run p).outcome = .ok c) ↔ ∃ l, d.literal? = some l ∧ ∃ e, stageLiteral t l = .ok e) ∧
    ∀ c l e, ((decode t d).run p).outcome = .ok c → d.literal? = some l → stageLiteral t l = .ok e →
      c = e ∧ c.equals e = true := by
  obtain ⟨K, hK⟩ := hs.invariant
  refine ⟨?_, fun c l e hc hl he => ?_⟩
  · simp only [decode_simple hsimple]
    constructor
    · rintro ⟨c, l, hl, hc⟩
      exact ⟨l, hl, c, hc⟩
    · rintro ⟨l, hl, c, hc⟩
      exact ⟨c, l, hl, hc⟩
  · obtain ⟨l', hl', hc'⟩ := (decode_simple hsimple).1 hc
    cases hl.symm.trans hl'
    cases he.symm.trans hc'
    exact ⟨rfl, (stageLiteral_typed hK.sound.catalog (hK.sound.knows ht) he).fits.equals_self⟩

/-- Votes are a row of flags, some of them missing. -/
def votes : Definition := { Definition.fresh "votes" (.array none) with shape := .array (some maybeType) }

def votesType : Ty := votes.withIdentity (Namespace.builtins.length + 2)

def voted : Session := ((sealType "votes" votes "votes").run optionals).1

theorem voted_reachable : voted.Reachable := by
  have hmaybe : optionals.types.get? "maybe" = some maybeType := by rfl
  have hvotes : optionals.Builds votes :=
    builds_template "votes" (.array none) rfl [maybeType] (by simpa using .kept hmaybe) rfl
  exact optionals_reachable.sealType hvotes "votes"

def ballot : Document := .array [.bool true, .null]

theorem decode_like_literal_voted : voted.Reachable ∧ voted.Knows votesType ∧ votesType.Simple ∧
    ∃ c, ((decode votesType ballot).run .report).outcome = .ok c ∧
      stageLiteral votesType (.list [.bool true, .null]) = .ok c ∧
      c = .array [⟨maybeType, .optional (some ⟨boolType, .bool true⟩)⟩, ⟨maybeType, .optional none⟩] ∧
      c.equals c = true := by
  have hvotes : voted.types.get? "votes" = some votesType := by rfl
  have hsimple : votesType.Simple := .array rfl (.optional rfl (.scalar (by decide)))
  obtain ⟨hok, hequal⟩ := decode_like_literal voted_reachable (.kept hvotes) hsimple ballot .report
  have hliteral : ballot.literal? = some (.list [.bool true, .null]) := by rfl
  have hstaged : stageLiteral votesType (.list [.bool true, .null]) = .ok (.array
      [⟨maybeType, .optional (some ⟨boolType, .bool true⟩)⟩, ⟨maybeType, .optional none⟩]) := by rfl
  obtain ⟨c, hc⟩ := hok.2 ⟨_, hliteral, _, hstaged⟩
  obtain ⟨rfl, hself⟩ := hequal _ _ _ hc hliteral hstaged
  exact ⟨voted_reachable, .kept hvotes, hsimple, _, hc, hstaged, rfl, hself⟩

end Session

end TypedValues
