import TypedValues.Proofs.Agreement

/-! The two policies. The same attempt run under either policy goes the same way up to the first
violation, where one run panics with it and the other goes on with an error. `Halts` says so much;
`Candid` also says which errors come out of the run that goes on. -/

namespace TypedValues

def Event.fault? : Event → Option Error
  | .violation path v => some (.state path v)
  | _ => none

def firstFault (trace : List Event) : Option Error := trace.findSome? Event.fault?

@[simp] theorem firstFault_append (t u : List Event) :
    firstFault (t ++ u) = (firstFault t).or (firstFault u) := List.findSome?_append

theorem eq_state_of_firstFault {trace : List Event} {e : Error} (h : firstFault trace = some e) :
    ∃ p v, e = .state p v := by
  obtain ⟨event, -, hevent⟩ := List.exists_of_findSome?_eq_some h
  cases event with
  | violation p v => exact ⟨p, v, (Option.some.inj hevent).symm⟩
  | _ => cases hevent

namespace Result

variable {ε δ α : Type}

theorem mapError_eq_panic {f : ε → δ} {r : Result ε α} {e : Error} :
    (r.mapError f).outcome = .panic e ↔ r.outcome = .panic e := by
  rcases r with ⟨t, a | e' | e'⟩ <;> simp [mapError]

theorem mapError_eq_error {f : ε → δ} {r : Result ε α} {z : δ} :
    (r.mapError f).outcome = .error z ↔ ∃ y, r.outcome = .error y ∧ f y = z := by
  rcases r with ⟨t, a | e' | e'⟩ <;> simp [mapError]

theorem trial_eq_panic {r : Result ε α} {e : Error} :
    (r.trial : Result δ _).outcome = .panic e ↔ r.outcome = .panic e := by
  rcases r with ⟨t, a | e' | e'⟩ <;> simp [trial]

end Result

namespace Attempt

variable {ε δ α β : Type}

/-- The policies part at the first violation, where one run panics with it. -/
structure Halts (x : Attempt ε α) : Prop where
  reports : ∀ e, (x.run .report).outcome ≠ .panic e
  agrees : firstFault (x.run .report).trace = none → x.run .panic = x.run .report
  panics : ∀ e, firstFault (x.run .report).trace = some e → (x.run .panic).outcome = .panic e

theorem halts_of_run_eq {x : Attempt ε α} (h : x.run .panic = x.run .report)
    (hnone : firstFault (x.run .report).trace = none)
    (hreports : ∀ e, (x.run .report).outcome ≠ .panic e) : x.Halts :=
  ⟨hreports, fun _ => h, fun e he => by rw [hnone] at he; cases he⟩

theorem halts_pure (a : α) : (pure a : Attempt ε α).Halts :=
  halts_of_run_eq rfl rfl (by simp)

theorem halts_fail (e : ε) : (fail e : Attempt ε α).Halts :=
  halts_of_run_eq rfl rfl (by simp [fail])

theorem halts_record {events : List Event} (h : firstFault events = none) :
    (record events : Attempt ε Unit).Halts := halts_of_run_eq rfl h (by simp [record])

theorem halts_violate (path : Path) (v : Violation) : (violate path v : Attempt Error α).Halts := by
  refine ⟨by simp [violate], by simp [violate, firstFault, Event.fault?], ?_⟩
  intro e he
  rw [← Option.some.inj he]
  rfl

/-- Where the first part gives a value, the second one decides, and the earlier violation counts. -/
theorem report_bind {x : Attempt ε α} {a : α} (ha : (x.run .report).outcome = .ok a)
    (f : α → Attempt ε β) :
    ((x >>= f).run .report).outcome = ((f a).run .report).outcome ∧
      firstFault ((x >>= f).run .report).trace =
        (firstFault (x.run .report).trace).or (firstFault ((f a).run .report).trace) := by
  rw [run_bind, Result.andThen_of_ok ha, firstFault_append]
  exact ⟨rfl, rfl⟩

/-- After a violation in the first part, the second one does not matter. -/
theorem panics_bind {x : Attempt ε α} {f : α → Attempt ε β} {e : Error}
    (h : (x.run .panic).outcome = .panic e) : ((x >>= f).run .panic).outcome = .panic e := by
  rw [run_bind, Result.andThen_of_panic h]

theorem Halts.bind {x : Attempt ε α} {f : α → Attempt ε β} (hx : x.Halts)
    (hf : ∀ a, (x.run .report).outcome = .ok a → (f a).Halts) : (x >>= f).Halts := by
  obtain ⟨hreports, hagrees, hpanics⟩ := hx
  rcases hr : x.run .report with ⟨trace, a | e | e⟩
  · have hf := hf a (by rw [hr])
    have hrun : (x >>= f).run .report = ⟨trace ++ ((f a).run .report).trace, ((f a).run .report).outcome⟩ := by
      rw [run_bind, hr]; rfl
    rw [hr] at hagrees hpanics
    refine ⟨by rw [hrun]; exact hf.reports, fun hnone => ?_, fun e he => ?_⟩
    · rw [hrun, firstFault_append, Option.or_eq_none_iff] at hnone
      rw [run_bind, run_bind, hagrees hnone.1, hr]
      simp only [Result.andThen, hf.agrees hnone.2]
    · rw [hrun, firstFault_append, Option.or_eq_some_iff] at he
      rcases he with he | ⟨hnone, he⟩
      · exact panics_bind (hpanics e he)
      · rw [run_bind, hagrees hnone]
        exact hf.panics e he
  · have hrun : (x >>= f).run .report = ⟨trace, .error e⟩ := by rw [run_bind, hr]; rfl
    rw [hr] at hagrees hpanics
    refine ⟨by rw [hrun]; simp, fun hnone => ?_, fun e' he => ?_⟩
    · rw [hrun] at hnone
      rw [hrun, run_bind, hagrees hnone]
      rfl
    · rw [hrun] at he
      exact panics_bind (hpanics e' he)
  · exact absurd (by rw [hr]) (hreports e)

theorem Halts.panics_iff {x : Attempt ε α} (hx : x.Halts) {e : Error} :
    (x.run .panic).outcome = .panic e ↔ firstFault (x.run .report).trace = some e := by
  constructor
  · intro he
    cases hfault : firstFault (x.run .report).trace with
    | none => exact absurd (hx.agrees hfault ▸ he) (hx.reports e)
    | some e' =>
      rw [hx.panics e' hfault] at he
      rw [Outcome.panic.inj he]
  · exact hx.panics e

theorem Halts.mapError {x : Attempt ε α} (hx : x.Halts) (f : ε → δ) : (x.mapError f).Halts := by
  refine ⟨fun e he => hx.reports e (Result.mapError_eq_panic.1 he), fun hnone => ?_, fun e he => ?_⟩
  · rw [Attempt.mapError, Result.trace_mapError] at hnone
    exact congrArg (Result.mapError f) (hx.agrees hnone)
  · rw [Attempt.mapError, Result.trace_mapError] at he
    exact Result.mapError_eq_panic.2 (hx.panics e he)

theorem Halts.trial {x : Attempt ε α} (hx : x.Halts) : (x.trial : Attempt δ _).Halts := by
  refine ⟨fun e he => hx.reports e (Result.trial_eq_panic.1 he), fun hnone => ?_, fun e he => ?_⟩
  · rw [Attempt.trial, Result.trace_trial] at hnone
    exact congrArg Result.trial (hx.agrees hnone)
  · rw [Attempt.trial, Result.trace_trial] at he
    exact Result.trial_eq_panic.2 (hx.panics e he)

end Attempt

/-- The errors that an attempt may raise: its violations, protocol errors that the host hands in, and
errors that stand in the place of a violation, which are no protocol errors. -/
structure Charge where
  own : Error → Prop
  host : Error → Prop
  instead : Error → Prop
  within : ∀ e site, instead e → instead (e.within site)
  apart : ∀ p v, ¬ instead (.state p v)

/-- What the first charge allows, the second one does. -/
structure Charge.Covers (c d : Charge) : Prop where
  own : ∀ e, c.own e → d.own e
  host : ∀ e, c.host e → d.host e
  instead : ∀ e, c.instead e → d.instead e

/-- Any violation, which comes out as it is, and no protocol error otherwise. -/
def Charge.plain : Charge := ⟨fun _ => True, fun _ => False, fun _ => False, fun _ _ h => h, fun _ _ h => h⟩

theorem Charge.plain_covers {c : Charge} (h : ∀ e, c.own e) : plain.Covers c :=
  ⟨fun e _ => h e, fun _ he => he.elim, fun _ he => he.elim⟩

namespace Attempt

variable {ε δ α β : Type} [Carries ε] [Carries δ] {c d : Charge}

/-- The run that goes on after a violation ends in the error of the violation, or in one that may stand
in its place; and when it ends in a protocol error, that is its first violation or one of the host. -/
structure Candid (c : Charge) (x : Attempt ε α) : Prop extends x.Halts where
  blames : ∀ e, firstFault (x.run .report).trace = some e → c.own e
  surfaces : ∀ e, firstFault (x.run .report).trace = some e →
    ∃ r, (x.run .report).outcome = .error r ∧ ∃ e', Carries.error? r = some e' ∧ (e' = e ∨ c.instead e')
  honest : ∀ r p v, (x.run .report).outcome = .error r → Carries.error? r = some (.state p v) →
    firstFault (x.run .report).trace = some (.state p v) ∨ c.host (.state p v)

theorem Candid.mono {x : Attempt ε α} (h : x.Candid c) (hcd : c.Covers d) : x.Candid d where
  toHalts := h.toHalts
  blames e he := hcd.own e (h.blames e he)
  surfaces e he := by
    obtain ⟨r, hr, e', he', hinstead⟩ := h.surfaces e he
    exact ⟨r, hr, e', he', hinstead.imp id (hcd.instead e')⟩
  honest r p v hr hv := (h.honest r p v hr hv).imp id (hcd.host _)

/-- A candid attempt that gives a value has broken no rule. -/
theorem Candid.unfaulted {x : Attempt ε α} (h : x.Candid c) {a : α} (ha : (x.run .report).outcome = .ok a) :
    firstFault (x.run .report).trace = none := by
  cases hfault : firstFault (x.run .report).trace with
  | none => rfl
  | some e =>
    obtain ⟨r, hr, -⟩ := h.surfaces e hfault
    rw [ha] at hr
    cases hr

theorem candid_pure (a : α) : (pure a : Attempt ε α).Candid c where
  toHalts := halts_pure a
  blames e he := by cases he
  surfaces e he := by cases he
  honest r p v hr := by simp at hr

theorem candid_fail {e : ε} (h : ∀ p v, Carries.error? e = some (.state p v) → c.host (.state p v)) :
    (fail e : Attempt ε α).Candid c where
  toHalts := halts_fail e
  blames e he := by cases he
  surfaces e he := by cases he
  honest r p v hr hv := by
    simp only [fail, Outcome.error.injEq] at hr
    exact .inr (h p v (hr ▸ hv))

/-- Refusals are no protocol errors. -/
theorem candid_refuse {e : Error} (h : e.category ≠ .state) : (fail e : Attempt Error α).Candid c :=
  candid_fail fun _ _ he => absurd (congrArg Error.category (Option.some.inj he)) h

theorem candid_ofExcept {x : Except Error α} (h : ∀ p v, x = .error (.state p v) → c.host (.state p v)) :
    (liftM x : Attempt Error α).Candid c := by
  cases x with
  | ok a => exact candid_pure a
  | error e => exact candid_fail fun p v hv => h p v (congrArg Except.error (Option.some.inj hv))

/-- What agrees with something raises no protocol error. -/
theorem candid_of_agrees {γ : Type} {R : α → γ → Prop} {x : Except Error α} {y : Except Error γ}
    (h : Except.Agrees R x y) : (liftM x : Attempt Error α).Candid c :=
  candid_ofExcept fun p v hx => absurd hx (h.ne_state p v)

theorem candid_record {events : List Event} (h : firstFault events = none) :
    (record events : Attempt ε Unit).Candid c where
  toHalts := halts_record h
  blames e he := by cases h.symm.trans he
  surfaces e he := by cases h.symm.trans he
  honest r p v hr := by simp [record] at hr

theorem candid_violate {path : Path} {v : Violation} (h : c.own (.state path v)) :
    (violate path v : Attempt Error α).Candid c where
  toHalts := halts_violate path v
  blames e he := by
    rw [← Option.some.inj he]
    exact h
  surfaces e he := ⟨_, rfl, _, rfl, .inl (Option.some.inj he)⟩
  honest r p w hr hv := by
    have he : Error.state path v = r := by simpa [violate] using hr
    subst he
    exact .inl hv

theorem Candid.bind {x : Attempt ε α} {f : α → Attempt ε β} (hx : x.Candid c)
    (hf : ∀ a, (x.run .report).outcome = .ok a → (f a).Candid c) : (x >>= f).Candid c := by
  have hhalts := hx.toHalts.bind fun a ha => (hf a ha).toHalts
  rcases hr : x.run .report with ⟨trace, a | e | e⟩
  · have hf := hf a (by rw [hr])
    have hnone : firstFault trace = none := by
      have hunfaulted := hx.unfaulted (a := a) (by rw [hr])
      rwa [hr] at hunfaulted
    have houtcome : ((x >>= f).run .report).outcome = ((f a).run .report).outcome := by
      rw [run_bind, hr]; rfl
    have hfirst : firstFault ((x >>= f).run .report).trace = firstFault ((f a).run .report).trace := by
      rw [run_bind, hr, Result.andThen, firstFault_append, hnone, Option.none_or]
    exact ⟨hhalts, by rw [hfirst]; exact hf.blames, by rw [hfirst, houtcome]; exact hf.surfaces,
      by rw [hfirst, houtcome]; exact hf.honest⟩
  · have houtcome : ((x >>= f).run .report).outcome = .error e := by rw [run_bind, hr]; rfl
    have hfirst : firstFault ((x >>= f).run .report).trace = firstFault trace := by
      rw [run_bind, hr]; rfl
    refine ⟨hhalts, fun e' he => ?_, fun e' he => ?_, fun r p v hout hv => ?_⟩
    · rw [hfirst] at he
      exact hx.blames e' (by rwa [hr])
    · rw [hfirst] at he
      obtain ⟨r, hout, h⟩ := hx.surfaces e' (by rwa [hr])
      rw [hr] at hout
      cases hout
      exact ⟨e, houtcome, h⟩
    · rw [houtcome] at hout
      cases hout
      have hhonest := hx.honest e p v (by rw [hr]) hv
      rwa [hr, ← hfirst] at hhonest
  · exact absurd (by rw [hr]) (hx.reports e)

/-- Only data errors tell where they were raised. -/
theorem Candid.under {x : Attempt Error α} (hx : x.Candid c) (site : Site) : (x.under site).Candid c := by
  have hfirst : firstFault ((x.under site).run .report).trace = firstFault (x.run .report).trace := by
    rw [Attempt.under, Attempt.mapError, Result.trace_mapError]
  refine ⟨hx.toHalts.mapError _, ?_, ?_, ?_⟩
  · rw [hfirst]
    exact hx.blames
  · intro e he
    rw [hfirst] at he
    obtain ⟨r, hr, e', he', hinstead⟩ := hx.surfaces e he
    obtain rfl := Option.some.inj he'
    refine ⟨r.within site, Result.mapError_eq_error.2 ⟨r, hr, rfl⟩, _, rfl, ?_⟩
    rcases hinstead with rfl | hinstead
    · obtain ⟨p, v, rfl⟩ := eq_state_of_firstFault he
      exact .inl rfl
    · exact .inr (c.within _ site hinstead)
  · intro r p v hr hv
    obtain ⟨e, he, rfl⟩ := Result.mapError_eq_error.1 hr
    rw [hfirst]
    cases e with
    | state q w => exact hx.honest _ p v he hv
    | _ => cases hv

theorem Candid.toStray {x : Attempt Error α} (hx : x.Candid c) : x.toStray.Candid c := by
  have hfirst : firstFault (x.toStray.run .report).trace = firstFault (x.run .report).trace := by
    rw [Attempt.toStray, Attempt.mapError, Result.trace_mapError]
  refine ⟨hx.toHalts.mapError _, ?_, ?_, ?_⟩
  · rw [hfirst]
    exact hx.blames
  · intro e he
    rw [hfirst] at he
    obtain ⟨r, hr, h⟩ := hx.surfaces e he
    exact ⟨.error r, Result.mapError_eq_error.2 ⟨r, hr, rfl⟩, h⟩
  · intro r p v hr hv
    obtain ⟨e, he, rfl⟩ := Result.mapError_eq_error.1 hr
    rw [hfirst]
    exact hx.honest e p v he hv

/-- An attempt that gives nothing in the place of every error, also in the place of a violation. -/
structure Drops (c : Charge) (x : Attempt ε (Option α)) : Prop extends x.Halts where
  answers : ∀ r, (x.run .report).outcome ≠ .error r
  blames : ∀ e, firstFault (x.run .report).trace = some e → c.own e
  drops : ∀ e, firstFault (x.run .report).trace = some e → (x.run .report).outcome = .ok none

omit [Carries ε] in
theorem drops_pure (o : Option α) : (pure o : Attempt ε (Option α)).Drops c where
  toHalts := halts_pure o
  answers := by simp
  blames e he := by cases he
  drops e he := by cases he

omit [Carries ε] in
theorem Drops.found {x : Attempt ε (Option α)} (hx : x.Drops c) : ∃ o, (x.run .report).outcome = .ok o := by
  cases h : (x.run .report).outcome with
  | ok o => exact ⟨o, rfl⟩
  | error r => exact absurd h (hx.answers r)
  | panic e => exact absurd h (hx.reports e)

omit [Carries δ] in
theorem Candid.trial {x : Attempt ε α} (hx : x.Candid c) : (x.trial : Attempt δ _).Drops c where
  toHalts := hx.toHalts.trial
  answers r hr := by
    rcases h : x.run .report with ⟨trace, a | e | e⟩ <;> simp [Attempt.trial, Result.trial, h] at hr
  blames e he := by
    rw [Attempt.trial, Result.trace_trial] at he
    exact hx.blames e he
  drops e he := by
    rw [Attempt.trial, Result.trace_trial] at he
    obtain ⟨r, hr, -⟩ := hx.surfaces e he
    simp [Attempt.trial, Result.trial, hr]

omit [Carries ε] in
/-- One more chance: what comes after a dropped violation has to give nothing as well. -/
theorem Drops.orElse {x : Attempt ε (Option α)} {f : Option α → Attempt ε (Option β)} (hx : x.Drops c)
    (hf : ∀ o, (f o).Drops c)
    (hnone : ∀ e, firstFault (x.run .report).trace = some e → ((f none).run .report).outcome = .ok none) :
    (x >>= f).Drops c := by
  obtain ⟨o, ho⟩ := hx.found
  obtain ⟨houtcome, hfirst⟩ := report_bind ho f
  refine ⟨hx.toHalts.bind fun o _ => (hf o).toHalts, ?_, ?_, ?_⟩
  · rw [houtcome]
    exact (hf o).answers
  · intro e he
    rw [hfirst, Option.or_eq_some_iff] at he
    rcases he with he | ⟨-, he⟩
    · exact hx.blames e he
    · exact (hf o).blames e he
  · intro e he
    rw [hfirst, Option.or_eq_some_iff] at he
    rw [houtcome]
    rcases he with he | ⟨-, he⟩
    · obtain rfl : o = none := Outcome.ok.inj (ho.symm.trans (hx.drops e he))
      exact hnone e he
    · exact (hf o).drops e he

/-- The end of it: where a violation was dropped, an error has to come in its place. -/
theorem Drops.orFail {x : Attempt ε (Option α)} {f : Option α → Attempt ε β} (hx : x.Drops c)
    (hf : ∀ o, (f o).Candid c)
    (hnone : ∀ e, firstFault (x.run .report).trace = some e →
      ∃ r, ((f none).run .report).outcome = .error r ∧ ∃ e', Carries.error? r = some e' ∧ (e' = e ∨ c.instead e')) :
    (x >>= f).Candid c := by
  obtain ⟨o, ho⟩ := hx.found
  obtain ⟨houtcome, hfirst⟩ := report_bind ho f
  have hlast {e : Error} (he : firstFault (x.run .report).trace = some e) : o = none :=
    Outcome.ok.inj (ho.symm.trans (hx.drops e he))
  refine ⟨hx.toHalts.bind fun o _ => (hf o).toHalts, ?_, ?_, ?_⟩
  · intro e he
    rw [hfirst, Option.or_eq_some_iff] at he
    rcases he with he | ⟨-, he⟩
    · exact hx.blames e he
    · exact (hf o).blames e he
  · intro e he
    rw [hfirst, Option.or_eq_some_iff] at he
    rw [houtcome]
    rcases he with he | ⟨-, he⟩
    · obtain rfl := hlast he
      exact hnone e he
    · exact (hf o).surfaces e he
  · intro r p v hr hv
    rw [houtcome] at hr
    cases hfault : firstFault (x.run .report).trace with
    | none =>
      rw [hfirst, hfault, Option.none_or]
      exact (hf o).honest r p v hr hv
    | some e =>
      obtain rfl := hlast hfault
      obtain ⟨r', hr', e', he', hinstead⟩ := hnone e hfault
      obtain rfl : r = r' := Outcome.error.inj (hr.symm.trans hr')
      obtain rfl : Error.state p v = e' := Option.some.inj (hv.symm.trans he')
      -- what stands in the place of a violation is no protocol error
      obtain rfl : Error.state p v = e := hinstead.resolve_right (c.apart p v)
      exact .inl (by rw [hfirst, hfault, Option.some_or])

end Attempt

end TypedValues
