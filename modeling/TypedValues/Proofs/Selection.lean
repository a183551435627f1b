import TypedValues.Proofs.Reassignment
import TypedValues.Proofs.Walks

/-! Reading and writing selection agree. The step to write looks its slot up in the content once more, after
the step to read has checked it; it finds the node that was checked, whatever optionals lie between, so the
two selections end alike. Signals tell the nodes of a value apart, so a node has one place only. -/

namespace TypedValues

/-- The selection did not change between a check and the look-up after it. -/
def Error.Settled (e : Error) : Prop := ∀ subject sites, e ≠ .data subject .selectionChanged sites

namespace Attempt

variable {ε δ α β : Type}

/-- Whatever error or panic the attempt ends in satisfies `P`. -/
def Raises (P : Error → Prop) (x : Attempt Error α) : Prop :=
  ∀ p e, (x.run p).outcome = .error e ∨ (x.run p).outcome = .panic e → P e

variable {P : Error → Prop}

theorem raises_pure (a : α) : (pure a : Attempt Error α).Raises P := by
  rintro p e (h | h) <;> cases h

theorem raises_fail {e : Error} (h : P e) : (fail e : Attempt Error α).Raises P := by
  rintro p e' (he | he) <;> cases he
  exact h

theorem raises_violate {path : Path} {v : Violation} (h : P (.state path v)) :
    (violate path v : Attempt Error α).Raises P := by
  rintro (_ | _) e (he | he) <;> cases he <;> exact h

theorem raises_ofExcept {x : Except Error α} (h : ∀ e, x = .error e → P e) :
    (liftM x : Attempt Error α).Raises P := by
  rintro p e he
  rw [run_ofExcept] at he
  rcases x with e' | a <;> rcases he with he | he <;> cases he
  exact h e rfl

theorem Raises.bind {x : Attempt Error α} {f : α → Attempt Error β} (hx : x.Raises P)
    (hf : ∀ a, (f a).Raises P) : (x >>= f).Raises P := by
  intro p e he
  rw [run_bind, Result.andThen] at he
  split at he
  next a ha => exact hf a p e he
  next e' h' => exact hx p e (.inl (by rw [h']; simpa using he))
  next e' h' => exact hx p e (.inr (by rw [h']; simpa using he))

theorem raises_map {x : Attempt Error α} {f : α → β} : (f <$> x).Raises P ↔ x.Raises P := by
  have houtcome (p : Policy) (e : Error) :
      (((f <$> x).run p).outcome = .error e ∨ ((f <$> x).run p).outcome = .panic e) ↔
        ((x.run p).outcome = .error e ∨ (x.run p).outcome = .panic e) := by
    rw [map_eq_pure_bind, run_bind]
    rcases x.run p with ⟨trace, a | e' | e'⟩ <;> simp [Result.andThen]
  exact forall_congr' fun p => forall_congr' fun e => imp_congr_left (houtcome p e)

theorem mapError_map (f : α → β) (g : ε → δ) (x : Attempt ε α) :
    (f <$> x).mapError g = f <$> x.mapError g := by
  refine Attempt.ext (funext fun p => ?_)
  simp only [map_eq_pure_bind, mapError, run_bind]
  rcases x.run p with ⟨trace, a | e | e⟩ <;> rfl

end Attempt

section

variable {α : Type} [HasType α]

theorem stepFrom_settled {t : Ty} {c : Content α} {s : Step} {e : Error} (h : stepFrom t c s = .error e) :
    e.Settled := by
  intro subject sites
  fun_induction stepFrom t c s with
  | case1 t label content s ih => exact ih h
  | case3 | case5 | case7 => cases h
  | _ => cases h; intro heq; cases heq

namespace Holder

theorem constructed_settled (h : Holder α) : h.constructed.Raises Error.Settled := by
  unfold constructed
  split
  · exact Attempt.raises_pure _
  · exact Attempt.raises_violate nofun

/-- The step to write does what the step to read does. -/
theorem step_eq_slot (h : Holder α) (s : Step) : h.step s = Prod.snd <$> h.slot s := by
  rw [step, slot, map_bind]
  refine bind_congr fun c => ?_
  rw [map_bind]
  cases hstep : stepFrom h.type c s with
  | error e => rfl
  | ok n =>
    obtain ⟨location, hslot⟩ := slotFrom?_of_stepFrom hstep
    simp only [hslot]
    rfl

theorem select_eq_locate (h : Holder α) (s : Selector) : h.select s = Prod.snd <$> h.locate s := by
  induction s generalizing h with
  | nil => rfl
  | cons step rest ih =>
    rw [select, locate, step_eq_slot, map_bind, bind_map_left]
    refine bind_congr fun p => ?_
    rw [ih, map_bind, map_eq_pure_bind]
    rfl

theorem selectKind_eq_locateKind (h : Holder α) (s : Selector) (kind : Kind) :
    h.selectKind s kind = Prod.snd <$> h.locateKind s kind := by
  rw [selectKind, locateKind, select_eq_locate, map_bind, bind_map_left]
  refine bind_congr fun p => ?_
  rw [map_bind]
  rfl

theorem select_settled (h : Holder α) (s : Selector) : (h.select s).Raises Error.Settled := by
  induction s generalizing h with
  | nil => exact Attempt.raises_pure h
  | cons step rest ih =>
    refine Attempt.Raises.bind ?_ fun n => ih n.holder
    apply h.constructed_settled.bind
    intro c
    exact Attempt.raises_ofExcept fun e he => stepFrom_settled he

theorem selectKind_settled (h : Holder α) (s : Selector) (kind : Kind) :
    (h.selectKind s kind).Raises Error.Settled := by
  apply (h.select_settled s).bind
  intro found
  refine Attempt.Raises.bind ?_ fun _ => Attempt.raises_pure found
  unfold checkKind
  split
  · exact Attempt.raises_pure ()
  · refine Attempt.raises_fail fun subject sites h => ?_
    cases h

theorem locateKind_ensures (h : Holder α) (s : Selector) (kind : Kind) :
    (h.locateKind s kind).Ensures fun p => h.part? p.1 = some p.2 := by
  refine (h.locate_ensures s).bind fun p hp => ?_
  exact (Attempt.ensures_true _).bind fun _ _ => Attempt.ensures_pure hp

theorem follow_eq_reach (h : Holder α) (a : Access) : h.follow a = Prod.snd <$> h.reach a := by
  cases a with
  | select s => rw [follow, reach, select_eq_locate]; exact Attempt.mapError_map _ _ _
  | selectKind s kind => rw [follow, reach, selectKind_eq_locateKind]; exact Attempt.mapError_map _ _ _
  | member i => rw [follow, reach, map_bind]; rfl
  | name n =>
    have hname : (h.memberByName n).toStray =
        ((h.memberIndex n).toStray >>= fun i => (h.member i).toStray) := by
      refine Attempt.ext (funext fun p => ?_)
      simp only [memberByName, Attempt.toStray, Attempt.mapError, Attempt.run_bind]
      rcases (h.memberIndex n).run p with ⟨trace, i | e | e⟩
      · rcases hm : (h.member i).run p with ⟨trace', m | e | e⟩ <;>
          simp [Result.andThen, Result.mapError, hm]
      · rfl
      · rfl
    rw [follow, reach, hname, map_bind, bind_assoc]
    refine bind_congr fun i => ?_
    rw [map_bind]
    rfl
  | optional =>
    rw [follow, reach, map_bind]
    refine bind_congr fun inner => ?_
    cases inner <;> rfl
  | variant => rw [follow, reach, map_bind]; rfl
  | element i => rw [follow, reach, map_bind]; rfl

/-- A walk to read arrives where the walk to write does. -/
theorem followAll_eq_reachAll (h : Holder α) (walk : List Access) :
    h.followAll walk = Prod.snd <$> h.reachAll walk := by
  induction walk generalizing h with
  | nil => rfl
  | cons a rest ih =>
    rw [followAll, reachAll, follow_eq_reach, map_bind, bind_map_left]
    refine bind_congr fun p => ?_
    rw [ih, map_bind, map_eq_pure_bind]
    rfl

end Holder

end

theorem Node.signal_mem {n a : Node Cell} {location : Location} (h : n.get? location = some a) :
    a.label.signal ∈ n.labels.map Cell.signal := by
  have hpart : n.holder.part? location = some a.holder := by rw [part?_holder, h]; rfl
  have hmem := Holder.part?_label_mem hpart
  rw [Holder.cells_holder] at hmem
  exact List.mem_map_of_mem hmem

theorem Node.signals_eq (n : Node Cell) : n.labels.map Cell.signal =
    n.label.signal :: n.content.children.flatMap fun child => child.labels.map Cell.signal := by
  rw [labels_eq, List.map_cons, Content.labels_eq, List.map_flatMap]

theorem Node.signal_mem_below {n a : Node Cell} {i : Nat} {location : Location}
    (h : n.get? (i :: location) = some a) :
    a.label.signal ∈ n.content.children.flatMap fun child => child.labels.map Cell.signal := by
  obtain ⟨child, hchild, h⟩ := get?_cons_eq_some.1 h
  exact List.mem_flatMap.2 ⟨child, List.mem_of_getElem? hchild, signal_mem h⟩

/-- Where each node has a signal of its own, no node is found at two places. -/
theorem Node.location_eq {n a b : Node Cell} (hn : (n.labels.map Cell.signal).Nodup) {l m : Location}
    (ha : n.get? l = some a) (hb : n.get? m = some b) (heq : a.label.signal = b.label.signal) : l = m := by
  induction l generalizing n m with
  | nil =>
    cases m with
    | nil => rfl
    | cons j m =>
      cases ha
      rw [signals_eq, List.nodup_cons, heq] at hn
      exact absurd (signal_mem_below hb) hn.1
  | cons i l ih =>
    rw [signals_eq, List.nodup_cons] at hn
    cases m with
    | nil =>
      cases hb
      rw [← heq] at hn
      exact absurd (signal_mem_below ha) hn.1
    | cons j m =>
      obtain ⟨x, hx, ha⟩ := get?_cons_eq_some.1 ha
      obtain ⟨y, hy, hb⟩ := get?_cons_eq_some.1 hb
      obtain ⟨hi, rfl⟩ := List.getElem?_eq_some_iff.1 hx
      obtain ⟨hj, rfl⟩ := List.getElem?_eq_some_iff.1 hy
      -- two children have no signal in common
      obtain ⟨hwithin, hapart⟩ := List.nodup_flatMap.1 hn.2
      rw [List.pairwise_iff_getElem] at hapart
      rcases Nat.lt_trichotomy i j with hij | rfl | hij
      · exact absurd (heq ▸ signal_mem hb) (hapart i j hi hj hij (signal_mem ha))
      · rw [ih (hwithin _ (List.getElem_mem hi)) ha hb]
      · exact absurd (heq ▸ signal_mem ha) (hapart j i hj hi hij (signal_mem hb))

/-- The part at the location is the only one with its signal. -/
def Holder.Alone (v : Value) (location : Location) (a : Value) : Prop :=
  v.part? location = some a ∧
    ∀ other b, v.part? other = some b → b.label.signal = a.label.signal → other = location

theorem Holder.alone {v a : Value} {location : Location} (hv : (v.cells.map Cell.signal).Nodup)
    (ha : v.part? location = some a) : v.Alone location a := by
  refine ⟨ha, fun other b hb heq => ?_⟩
  rcases part?_cases ha with ⟨rfl, rfl, hnone⟩ | ⟨n, m, rfl, rfl, hm⟩
  · rcases part?_cases hb with ⟨rfl, -, -⟩ | ⟨n, m, rfl, -, -⟩
    · rfl
    · cases hnone
  · rcases part?_cases hb with ⟨-, -, hnone⟩ | ⟨n', m', hn, rfl, hm'⟩
    · cases hnone
    · obtain rfl := Node.holder_inj hn
      rw [cells_holder] at hv
      exact Node.location_eq hv hm' hm heq

/-- The selection to read and the one to write come to the same node, or to the same error. -/
structure Holder.Agree (v : Value) (read : Attempt Error Value) (write : Attempt Error (Location × Value)) :
    Prop where
  same : read = Prod.snd <$> write
  place : write.Ensures fun p => v.Alone p.1 p.2
  settled : write.Raises Error.Settled

namespace Session

variable {s : Session}

theorem Part.distinct (hs : s.Reachable) {v : Value} (hv : s.Part v) : (v.cells.map Cell.signal).Nodup := by
  obtain ⟨K, hK⟩ := hs.invariant
  obtain ⟨label, root, location, hroot, hpart⟩ := hv
  exact (hK.wired.tree label root hroot).holds.distinct.sublist ((Holder.part?_cells hpart).map _)

/-- Selecting to write succeeds exactly where selecting to read does. Both give the same node, which lies at
one place only, or the same error, which is never that the selection changed while stepping. -/
theorem selections_agree (hs : s.Reachable) {v : Value} (hv : s.Part v) (selector : Selector) :
    v.Agree (v.select selector) (v.locate selector) ∧
      ∀ kind, v.Agree (v.selectKind selector kind) (v.locateKind selector kind) := by
  have hdistinct := hv.distinct hs
  refine ⟨⟨v.select_eq_locate selector, ?_, ?_⟩, fun kind => ⟨v.selectKind_eq_locateKind selector kind, ?_, ?_⟩⟩
  · exact fun p a ha => Holder.alone hdistinct (v.locate_ensures selector p a ha)
  · rw [← Attempt.raises_map (f := Prod.snd), ← Holder.select_eq_locate]
    exact v.select_settled selector
  · exact fun p a ha => Holder.alone hdistinct (v.locateKind_ensures selector kind p a ha)
  · rw [← Attempt.raises_map (f := Prod.snd), ← Holder.selectKind_eq_locateKind]
    exact v.selectKind_settled selector kind

def toFlag : Selector := [.variantAs lampType, .member "on"]

/-- The flag is found both ways, and asking for a text there is refused both ways. -/
theorem selections_agree_plugged : plugged.Reachable ∧ plugged.Part plug.holder ∧
    plug.holder.Agree (plug.holder.select toFlag) (plug.holder.locate toFlag) ∧
    plug.holder.Agree (plug.holder.selectKind toFlag .string) (plug.holder.locateKind toFlag .string) ∧
    ((plug.holder.select toFlag).run .report).outcome = .ok ⟨⟨boolType, 4⟩, some (.bool false)⟩ ∧
    ((plug.holder.selectKind toFlag .string).run .report).outcome =
      .error (.dataAt boolType.path (.kindMismatch toFlag .bool .string)) := by
  have hplug : plugged.Part plug.holder := ⟨"plug", _, [], by rfl, rfl⟩
  obtain ⟨hselect, hkind⟩ := selections_agree plugged_reachable hplug toFlag
  exact ⟨plugged_reachable, hplug, hselect, hkind .string, by rfl, by rfl⟩

end Session

end TypedValues
