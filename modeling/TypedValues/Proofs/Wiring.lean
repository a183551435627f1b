import TypedValues.Proofs.Commit
import TypedValues.Proofs.Reachable

/-! Sessions are wired. Every live value is a tree of signals of its own, no signal is used twice, and no
subscription has the number of another. A signal that is in use stays with the type it has, in the value
it is in: what a later session holds under it is the same node. -/

namespace TypedValues

theorem Table.get?_erase {α : Type} (t : Table α) (label other : String) :
    (t.erase label).get? other = if label = other then none else t.get? other := by
  induction t with
  | nil => simp [erase, get?]
  | cons e t ih =>
    by_cases he : e.1 = label
    · by_cases ho : label = other
      · simp_all [erase, get?]
      · have hne : e.1 ≠ other := he ▸ ho
        simp_all [erase, get?]
    · by_cases ho : e.1 = other
      · have hne : label ≠ other := fun h => he (ho.trans h.symm)
        simp_all [erase, get?]
      · simp_all [erase, get?]

theorem Table.get?_of_erase {α : Type} {t : Table α} {label other : String} {a : α}
    (h : (t.erase label).get? other = some a) : t.get? other = some a := by
  rw [get?_erase] at h
  split at h
  · cases h
  · exact h

theorem Table.get?_keep {α : Type} (t : Table α) (label : Option String) (other : String) (a : α) :
    (t.keep label a).get? other = if label = some other then some a else t.get? other := by
  cases label with
  | none => rfl
  | some label => rw [keep, get?_put]; simp only [Option.some.injEq]

namespace Signals

/-- No two subscriptions have one number. -/
structure Apart (s : Signals) : Prop where
  below : ∀ id, ∀ o ∈ s.observers id, o.id < s.nextObserver
  once : ∀ id, ((s.observers id).map (·.id)).Nodup
  apart : ∀ i j, ∀ o ∈ s.observers i, ∀ p ∈ s.observers j, o.id = p.id → i = j

theorem Apart.grows {s t : Signals} (h : s.Apart) (hst : s.Grows t) : t.Apart := by
  refine ⟨?_, ?_, ?_⟩
  · intro id
    rw [hst.observers, hst.next]; exact h.below id
  · intro id
    rw [hst.observers]; exact h.once id
  · intro i j
    rw [hst.observers, hst.observers]; exact h.apart i j

theorem extends_modify (s : Signals) (id : SignalId) {f : Signal → Signal}
    (hf : ∀ signal, (f signal).parent = signal.parent) (next : ObserverId) :
    s.Extends ⟨s.all.modify id f, next⟩ := by
  refine ⟨by simp, fun i _ => ?_⟩
  simp only [parent?, Array.getElem?_modify]
  split
  · cases s.all[i]? <;> simp [hf]
  · rfl

theorem extends_subscribe (s : Signals) (id : SignalId) (label : String) :
    s.Extends (s.subscribe id label).2 :=
  s.extends_modify id
    (f := fun signal => { signal with observers := signal.observers ++ [⟨s.nextObserver, label⟩] })
    (fun _ => rfl) _

theorem extends_unsubscribe (s : Signals) (id : SignalId) (observer : ObserverId) :
    s.Extends (s.unsubscribe id observer).2 :=
  s.extends_modify id
    (f := fun signal => { signal with observers := signal.observers.filter (·.id != observer) })
    (fun _ => rfl) _

theorem observers_subscribe (s : Signals) (id i : SignalId) (label : String) :
    (s.subscribe id label).2.observers i = s.observers i ∨
      i = id ∧ (s.subscribe id label).2.observers i = s.observers i ++ [⟨s.nextObserver, label⟩] := by
  simp only [subscribe, observers, Array.getElem?_modify]
  by_cases h : id = i
  · subst h
    cases s.all[id]? <;> simp
  · simp [h]

theorem observers_unsubscribe (s : Signals) (id i : SignalId) (observer : ObserverId) :
    ((s.unsubscribe id observer).2.observers i).Sublist (s.observers i) := by
  simp only [unsubscribe, observers, Array.getElem?_modify]
  by_cases h : id = i
  · subst h
    cases s.all[id]? <;> simp
  · simp [h]

theorem Apart.subscribe {s : Signals} (h : s.Apart) (id : SignalId) (label : String) :
    (s.subscribe id label).2.Apart := by
  have added {i : SignalId} {o : Observer} (ho : o ∈ (s.subscribe id label).2.observers i) :
      o ∈ s.observers i ∨ i = id ∧ o.id = s.nextObserver := by
    rcases s.observers_subscribe id i label with hi | ⟨hid, hi⟩
    · exact .inl (hi ▸ ho)
    · rw [hi] at ho
      exact (List.mem_append.1 ho).imp_right fun ho => ⟨hid, by rw [List.mem_singleton.1 ho]⟩
  refine ⟨?_, ?_, ?_⟩
  · intro i o ho
    rcases added ho with ho | ⟨-, ho⟩
    · exact (h.below i o ho).trans (Nat.lt_succ_self _)
    · exact ho ▸ Nat.lt_succ_self _
  · intro i
    rcases s.observers_subscribe id i label with hi | ⟨-, hi⟩
    · rw [hi]; exact h.once i
    · rw [hi, List.map_append, List.nodup_append]
      refine ⟨h.once i, List.nodup_singleton _, fun a ha b hb => ?_⟩
      obtain ⟨o, ho, rfl⟩ := List.mem_map.1 ha
      rw [List.mem_singleton.1 hb]
      exact (h.below i o ho).ne
  · intro i j o ho p hp heq
    rcases added ho with hold | ⟨hid, hnew⟩ <;> rcases added hp with hold' | ⟨hid', hnew'⟩
    · exact h.apart i j o hold p hold' heq
    · exact absurd (heq.trans hnew') (h.below i o hold).ne
    · exact absurd (heq.symm.trans hnew) (h.below j p hold').ne
    · exact hid.trans hid'.symm

theorem Apart.unsubscribe {s : Signals} (h : s.Apart) (id : SignalId) (observer : ObserverId) :
    (s.unsubscribe id observer).2.Apart := by
  have sub (i : SignalId) := s.observers_unsubscribe id i observer
  exact ⟨fun i o ho => h.below i o ((sub i).subset ho), fun i => (h.once i).sublist ((sub i).map _),
    fun i j o ho p hp heq => h.apart i j o ((sub i).subset ho) p ((sub j).subset hp) heq⟩

end Signals

theorem Holder.Wired.extends {s t : Signals} {v : Value} (h : v.Wired s) (hst : s.Extends t) :
    v.Wired t :=
  ⟨(hst.parent _ (h.holds.bound _ v.label_mem_cells)).trans h.root,
    fun c hc => (h.linked c hc).mono hst, h.holds.mono hst⟩

namespace Session

structure Wired (s : Session) : Prop where
  tree : ∀ label v, s.values.get? label = some v → v.Wired s.signals
  apart : ∀ l₁ v₁ l₂ v₂, s.values.get? l₁ = some v₁ → s.values.get? l₂ = some v₂ →
    ∀ c₁ ∈ v₁.cells, ∀ c₂ ∈ v₂.cells, c₁.signal = c₂.signal → l₁ = l₂
  observers : s.signals.Apart

/-- The cells in use after are those from before, or have signals that are new; and a value that had
content has content. -/
structure Persists (s t : Session) : Prop where
  size : s.signals.all.size ≤ t.signals.all.size
  cells : ∀ label v, t.values.get? label = some v → ∀ c ∈ v.cells, c.signal < s.signals.all.size →
    ∃ label w, s.values.get? label = some w ∧ c ∈ w.cells
  roots : ∀ label v, t.values.get? label = some v → v.label.signal < s.signals.all.size →
    ∃ label w, s.values.get? label = some w ∧ w.label = v.label ∧ (w.isConstructed → v.isConstructed)

theorem Persists.refl (s : Session) : s.Persists s :=
  ⟨le_rfl, fun label v hv _ hc _ => ⟨label, v, hv, hc⟩, fun label v hv _ => ⟨label, v, hv, rfl, id⟩⟩

theorem Persists.trans {s t u : Session} (h : s.Persists t) (h' : t.Persists u) : s.Persists u := by
  refine ⟨h.size.trans h'.size, ?_, ?_⟩
  · intro label v hv c hc hlt
    obtain ⟨label', w, hw, hc⟩ := h'.cells label v hv c hc (hlt.trans_le h.size)
    exact h.cells label' w hw c hc hlt
  · intro label v hv hlt
    obtain ⟨label', w, hw, heq, himp⟩ := h'.roots label v hv (hlt.trans_le h.size)
    obtain ⟨label'', x, hx, heq', himp'⟩ := h.roots label' w hw (heq ▸ hlt)
    exact ⟨label'', x, hx, heq'.trans heq, himp ∘ himp'⟩

/-- What leaves the values alone, and the links of the signals, keeps everything. -/
theorem Persists.of_values {s t : Session} (hvalues : t.values = s.values)
    (hsignals : s.signals.Extends t.signals) : s.Persists t := by
  refine ⟨hsignals.size, fun label v hv c hc _ => ⟨label, v, hvalues ▸ hv, hc⟩, fun label v hv _ =>
    ⟨label, v, hvalues ▸ hv, rfl, id⟩⟩

theorem Wired.of_values {s t : Session} (h : s.Wired) (hvalues : t.values = s.values)
    (hsignals : s.signals.Extends t.signals) (hobservers : t.signals.Apart) : t.Wired :=
  ⟨fun label v hv => (h.tree label v (hvalues ▸ hv)).extends hsignals,
    fun l₁ v₁ l₂ v₂ h₁ h₂ => h.apart l₁ v₁ l₂ v₂ (hvalues ▸ h₁) (hvalues ▸ h₂), hobservers⟩

/-- Where one value is put, all of whose cells come from the value it replaces or are new. -/
theorem Wired.put {s t : Session} (h : s.Wired) {label : String} {v : Value} {old : List Cell}
    (hvalues : t.values = s.values.put label v) (hv : v.Wired t.signals)
    (hkeeps : s.signals.Keeps old v.cells t.signals)
    (hold : ∀ c ∈ old, ∃ w, s.values.get? label = some w ∧ c ∈ w.cells) : t.Wired := by
  have get {l : String} {w : Value} (hw : t.values.get? l = some w) :
      l = label ∧ w = v ∨ s.values.get? l = some w := by
    rw [hvalues, Table.get?_put] at hw
    split at hw
    next heq => cases hw; exact .inl ⟨heq.symm, rfl⟩
    next => exact .inr hw
  -- the put value shares no signal with another one
  have apart {l : String} {w : Value} (hw : s.values.get? l = some w) {c d : Cell} (hc : c ∈ v.cells)
      (hd : d ∈ w.cells) (heq : c.signal = d.signal) : label = l := by
    rcases hkeeps.cells c hc with hc | hc
    · obtain ⟨x, hx, hc⟩ := hold c hc
      exact h.apart label x l w hx hw c hc d hd heq
    · exact absurd heq (((h.tree l w hw).holds.bound d hd).trans_le hc).ne'
  refine ⟨?_, ?_, h.observers.grows hkeeps.grows⟩
  · intro l w hw
    rcases get hw with ⟨-, rfl⟩ | hw
    · exact hv
    · exact (h.tree l w hw).extends hkeeps.grows.toExtends
  · intro l₁ v₁ l₂ v₂ h₁ h₂ c₁ hc₁ c₂ hc₂ heq
    rcases get h₁ with ⟨rfl, rfl⟩ | h₁ <;> rcases get h₂ with ⟨rfl, rfl⟩ | h₂
    · rfl
    · exact apart h₂ hc₁ hc₂ heq
    · exact (apart h₁ hc₂ hc₁ heq.symm).symm
    · exact h.apart l₁ v₁ l₂ v₂ h₁ h₂ c₁ hc₁ c₂ hc₂ heq

theorem Persists.put {s t : Session} {label : String} {v : Value} {old : List Cell}
    (hvalues : t.values = s.values.put label v)
    (hkeeps : s.signals.Keeps old v.cells t.signals)
    (hold : ∀ c ∈ old, ∃ w, s.values.get? label = some w ∧ c ∈ w.cells)
    (hroot : v.label.signal < s.signals.all.size → ∃ w, s.values.get? label = some w ∧
      w.label = v.label ∧ (w.isConstructed → v.isConstructed)) : s.Persists t := by
  refine ⟨hkeeps.grows.size, ?_, ?_⟩
  · intro l w hw c hc hlt
    rw [hvalues, Table.get?_put] at hw
    split at hw
    next =>
      cases hw
      rcases hkeeps.cells c hc with hc | hc
      · obtain ⟨x, hx, hc⟩ := hold c hc
        exact ⟨label, x, hx, hc⟩
      · exact absurd hlt (Nat.not_lt.2 hc)
    next => exact ⟨l, w, hw, hc⟩
  · intro l w hw hlt
    rw [hvalues, Table.get?_put] at hw
    split at hw
    next =>
      cases hw
      obtain ⟨x, hx⟩ := hroot hlt
      exact ⟨label, x, hx⟩
    next => exact ⟨l, w, hw, rfl, id⟩

theorem Wired.drop {s : Session} (h : s.Wired) (label : String) :
    ({ s with values := s.values.erase label } : Session).Wired :=
  ⟨fun l w hw => h.tree l w (Table.get?_of_erase hw), fun l₁ v₁ l₂ v₂ h₁ h₂ =>
    h.apart l₁ v₁ l₂ v₂ (Table.get?_of_erase h₁) (Table.get?_of_erase h₂), h.observers⟩

theorem Persists.drop (s : Session) (label : String) :
    s.Persists { s with values := s.values.erase label } :=
  ⟨le_rfl, fun l w hw _ hc _ => ⟨l, w, Table.get?_of_erase hw, hc⟩,
    fun l w hw _ => ⟨l, w, Table.get?_of_erase hw, rfl, id⟩⟩

/-- Live cells are told apart by their signals. -/
theorem Wired.cell_eq {s : Session} (h : s.Wired) {l₁ l₂ : String} {v₁ v₂ : Value}
    (h₁ : s.values.get? l₁ = some v₁) (h₂ : s.values.get? l₂ = some v₂) {c₁ c₂ : Cell}
    (hc₁ : c₁ ∈ v₁.cells) (hc₂ : c₂ ∈ v₂.cells) (heq : c₁.signal = c₂.signal) :
    l₁ = l₂ ∧ c₁ = c₂ := by
  obtain rfl := h.apart l₁ v₁ l₂ v₂ h₁ h₂ c₁ hc₁ c₂ hc₂ heq
  obtain rfl : v₁ = v₂ := Option.some.inj (h₁.symm.trans h₂)
  exact ⟨rfl, List.inj_on_of_nodup_map (h.tree l₁ v₁ h₁).holds.distinct hc₁ hc₂ heq⟩

/-- The node under a signal stays of its type, and constructed. -/
theorem Persists.part {s t : Session} (h : s.Persists t) (hs : s.Wired) {a b : Value} (ha : s.Part a)
    (hb : t.Part b) (heq : a.label.signal = b.label.signal) :
    b.label = a.label ∧ (a.isConstructed → b.isConstructed) := by
  obtain ⟨la, va, locationa, hva, hpa⟩ := ha
  obtain ⟨lb, vb, locationb, hvb, hpb⟩ := hb
  have hmema := Holder.part?_label_mem hpa
  have hlt : b.label.signal < s.signals.all.size := heq ▸ (hs.tree la va hva).holds.bound _ hmema
  obtain ⟨l, w, hw, hmem⟩ := h.cells lb vb hvb _ (Holder.part?_label_mem hpb) hlt
  refine ⟨(hs.cell_eq hw hva hmem hmema heq.symm).2, fun hca => ?_⟩
  have hva' : va.isConstructed := by
    rcases Holder.part?_cases hpa with ⟨-, rfl, -⟩ | ⟨n, m, rfl, -, -⟩
    · exact hca
    · rfl
  -- a part without content is a whole value, which had none before either
  rcases Holder.part?_cases hpb with ⟨-, rfl, -⟩ | ⟨n, m, -, rfl, -⟩
  · obtain ⟨l', x, hx, hlabel, himp⟩ := h.roots lb b hvb hlt
    obtain ⟨rfl, -⟩ := hs.cell_eq hx hva x.label_mem_cells hmema (by rw [hlabel]; exact heq.symm)
    obtain rfl : x = va := Option.some.inj (hx.symm.trans hva)
    exact himp hva'
  · rfl

end Session

end TypedValues
