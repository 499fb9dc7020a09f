import AccessRules.Report

set_option autoImplicit false

/-! # Outcomes of work

The outcome of a `Report`, apart from the events on the way: what `bind` and `map` do to it, and two
ways to speak of it. `Ensures` says what any result is like, and `Refines` relates the results
of two pieces of work, where the second may go on to a result only if the first has one. -/

namespace AccessRules

namespace Report

variable {α β γ δ : Type}

theorem outcome_bind (x : Report α) (f : α → Report β) :
    (x >>= f).outcome = x.outcome.bind fun a => (f a).outcome := by
  obtain ⟨outcome, events⟩ := x
  cases outcome <;> rfl

theorem outcome_map (g : α → β) (x : Report α) : (g <$> x).outcome = x.outcome.map g := by
  obtain ⟨outcome, events⟩ := x
  cases outcome <;> rfl

/-- The outcome depends on the outcomes of the parts alone. -/
theorem outcome_bind_congr {x y : Report α} {f g : α → Report β} (h : x.outcome = y.outcome)
    (hfg : ∀ a, (f a).outcome = (g a).outcome) : (x >>= f).outcome = (y >>= g).outcome := by
  rw [outcome_bind, outcome_bind, h, funext hfg]

theorem outcome_map_congr {x y : Report α} (g : α → β) (h : x.outcome = y.outcome) :
    (g <$> x).outcome = (g <$> y).outcome := by
  rw [outcome_map, outcome_map, h]

theorem bind_eq_ok_iff {x : Report α} {f : α → Report β} {b : β} :
    (x >>= f).outcome = .ok b ↔ ∃ a, x.outcome = .ok a ∧ (f a).outcome = .ok b := by
  rw [outcome_bind]
  cases x.outcome with
  | ok a => simp [Except.bind]
  | error d => simp [Except.bind]

theorem map_eq_ok_iff {g : α → β} {x : Report α} {b : β} :
    (g <$> x).outcome = .ok b ↔ ∃ a, x.outcome = .ok a ∧ g a = b := by
  rw [outcome_map]
  cases x.outcome with
  | ok a => simp [Except.map]
  | error d => simp [Except.map]

/-! ## Events -/

theorem events_bind_of_ok {x : Report α} {a : α} (h : x.outcome = .ok a) (f : α → Report β) :
    (x >>= f).events = x.events ++ (f a).events := by
  obtain ⟨outcome, events⟩ := x
  subst h
  rfl

theorem events_bind_of_error {x : Report α} {d : Defect} (h : x.outcome = .error d)
    (f : α → Report β) : (x >>= f).events = x.events := by
  obtain ⟨outcome, events⟩ := x
  subst h
  rfl

@[simp] theorem events_map (g : α → β) (x : Report α) : (g <$> x).events = x.events := by
  obtain ⟨outcome, events⟩ := x
  cases outcome with
  | ok a => exact List.append_nil events
  | error d => rfl

/-! ## What results are like -/

/-- Any result of the work has the property. -/
def Ensures (m : Report α) (P : α → Prop) : Prop :=
  ∀ a, m.outcome = .ok a → P a

theorem ensures_pure {P : α → Prop} {a : α} (h : P a) : (pure a : Report α).Ensures P := by
  intro b hb
  obtain rfl := Except.ok.inj hb
  exact h

theorem Ensures.bind {P : α → Prop} {Q : β → Prop} {m : Report α} {f : α → Report β}
    (hm : m.Ensures P) (hf : ∀ a, P a → (f a).Ensures Q) : (m >>= f).Ensures Q := by
  intro b hb
  obtain ⟨a, ha, hfa⟩ := bind_eq_ok_iff.1 hb
  exact hf a (hm a ha) b hfa

theorem Ensures.imp {P Q : α → Prop} {m : Report α} (hm : m.Ensures P) (h : ∀ a, P a → Q a) :
    m.Ensures Q :=
  fun a ha => h a (hm a ha)

theorem ensures_true (m : Report α) : m.Ensures fun _ => True :=
  fun _ _ => trivial

/-! ## Work that goes on where other work does -/

/-- Wherever `m` has a result `n` has one too, and the two are related. -/
def Refines (R : α → β → Prop) (m : Report α) (n : Report β) : Prop :=
  ∀ a, m.outcome = .ok a → ∃ b, n.outcome = .ok b ∧ R a b

variable {R : α → β → Prop} {S : γ → δ → Prop}

theorem refines_pure {a : α} {b : β} (h : R a b) : Refines R (pure a) (pure b) := by
  intro a' ha'
  obtain rfl := Except.ok.inj ha'
  exact ⟨b, rfl, h⟩

theorem Refines.bind {m : Report α} {n : Report β} {f : α → Report γ} {g : β → Report δ}
    (h : Refines R m n) (hfg : ∀ a b, R a b → Refines S (f a) (g b)) :
    Refines S (m >>= f) (n >>= g) := by
  intro c hc
  obtain ⟨a, ha, hfa⟩ := bind_eq_ok_iff.1 hc
  obtain ⟨b, hb, hab⟩ := h a ha
  obtain ⟨d, hd, hcd⟩ := hfg a b hab c hfa
  exact ⟨d, bind_eq_ok_iff.2 ⟨b, hb, hd⟩, hcd⟩

/-- A step of the first work that the second does not take. -/
theorem refines_bind_left {m : Report α} {f : α → Report γ} {n : Report δ}
    (h : ∀ a, Refines S (f a) n) : Refines S (m >>= f) n := by
  intro c hc
  obtain ⟨a, _, hfa⟩ := bind_eq_ok_iff.1 hc
  exact h a c hfa

/-- The first work only goes on to change its result. -/
theorem Refines.bind_pure_left {m : Report α} {n : Report β} {T : γ → β → Prop} {g : α → γ}
    (h : Refines R m n) (hg : ∀ a b, R a b → T (g a) b) :
    Refines T (m >>= fun a => pure (g a)) n := by
  intro c hc
  obtain ⟨a, ha, hga⟩ := bind_eq_ok_iff.1 hc
  obtain rfl := Except.ok.inj hga
  obtain ⟨b, hb, hab⟩ := h a ha
  exact ⟨b, hb, hg a b hab⟩

theorem Refines.map {m : Report α} {n : Report β} {g : α → γ} {g' : β → δ} (h : Refines R m n)
    (hg : ∀ a b, R a b → S (g a) (g' b)) : Refines S (g <$> m) (g' <$> n) := by
  intro c hc
  obtain ⟨a, ha, rfl⟩ := map_eq_ok_iff.1 hc
  obtain ⟨b, hb, hab⟩ := h a ha
  exact ⟨g' b, map_eq_ok_iff.2 ⟨b, hb, rfl⟩, hg a b hab⟩

theorem Refines.and_ensures {m : Report α} {n : Report β} {P : α → Prop} (h : Refines R m n)
    (hm : m.Ensures P) : Refines (fun a b => P a ∧ R a b) m n := by
  intro a ha
  obtain ⟨b, hb, hab⟩ := h a ha
  exact ⟨b, hb, hm a ha, hab⟩

theorem refines_of_outcome {m : Report α} {n : Report β} {a : α} {b : β} (hm : m.outcome = .ok a)
    (hn : n.outcome = .ok b) (h : R a b) : Refines R m n := by
  intro a' ha'
  obtain rfl := Except.ok.inj (hm.symm.trans ha')
  exact ⟨b, hn, h⟩

end Report

end AccessRules
