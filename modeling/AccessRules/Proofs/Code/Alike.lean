import AccessRules.Code.Render
import Mathlib.Data.List.Basic

set_option autoImplicit false

/-! # Code that differs in quotes

To tell two renderings of one tree apart it is enough to count double quotes, as long as each piece
of the one has at most as many as the piece of the other in its place. `Alike` relates two texts,
`AlikeAll` the texts of two lists, and `Both` two renderings that may have a fault. Each of them
goes through the ways in which code is put together. -/

namespace AccessRules

/-! ## Texts with fewer quotes -/

/-- The number of double quotes in a text. -/
def quotes (s : String) : Nat :=
  s.toList.count '"'

theorem quotes_append (a b : String) : quotes (a ++ b) = quotes a + quotes b := by
  simp [quotes]

/-- The number of double quotes in several texts. -/
def quotesIn (as : List String) : Nat :=
  (as.flatMap String.toList).count '"'

theorem quotesIn_cons (a : String) (as : List String) :
    quotesIn (a :: as) = quotes a + quotesIn as := by
  simp [quotesIn, quotes]

theorem quotesIn_append (as bs : List String) :
    quotesIn (as ++ bs) = quotesIn as + quotesIn bs := by
  simp [quotesIn]

/-- If the condition holds the first text has fewer quotes, and else the two are the same. -/
def Alike (P : Prop) (a b : String) : Prop :=
  (¬ P → a = b) ∧ (P → quotes a < quotes b)

namespace Alike

variable {P Q : Prop} {a a' b b' : String}

theorem refl (a : String) : Alike False a a :=
  ⟨fun _ => rfl, False.elim⟩

theorem refl_of_not (hP : ¬ P) (a : String) : Alike P a a :=
  ⟨fun _ => rfl, fun h => absurd h hP⟩

theorem of_iff (h : Alike P a b) (hPQ : P ↔ Q) : Alike Q a b :=
  ⟨fun hQ => h.1 fun hP => hQ (hPQ.1 hP), fun hQ => h.2 (hPQ.2 hQ)⟩

theorem le (h : Alike P a b) : quotes a ≤ quotes b := by
  by_cases hP : P
  · exact Nat.le_of_lt (h.2 hP)
  · exact Nat.le_of_eq (congrArg quotes (h.1 hP))

theorem eq_iff (h : Alike P a b) : a = b ↔ ¬ P := by
  refine ⟨fun heq hP => ?_, h.1⟩
  have hlt := h.2 hP
  rw [heq] at hlt
  exact Nat.lt_irrefl _ hlt

theorem append (h : Alike P a b) (h' : Alike Q a' b') : Alike (P ∨ Q) (a ++ a') (b ++ b') := by
  refine ⟨fun hnot => ?_, fun hor => ?_⟩
  · rw [h.1 fun hP => hnot (Or.inl hP), h'.1 fun hQ => hnot (Or.inr hQ)]
  · rw [quotes_append, quotes_append]
    rcases hor with hP | hQ
    · exact Nat.add_lt_add_of_lt_of_le (h.2 hP) h'.le
    · exact Nat.add_lt_add_of_le_of_lt h.le (h'.2 hQ)

/-- With the same text before both. -/
theorem after (c : String) (h : Alike P a b) : Alike P (c ++ a) (c ++ b) :=
  ((refl c).append h).of_iff (by simp)

/-- With the same text after both. -/
theorem before (h : Alike P a b) (c : String) : Alike P (a ++ c) (b ++ c) :=
  (h.append (refl c)).of_iff (by simp)

end Alike

/-- Lists of the same length that are the same, or whose texts have fewer quotes in the first. -/
def AlikeAll (P : Prop) (as bs : List String) : Prop :=
  as.length = bs.length ∧ (¬ P → as = bs) ∧ (P → quotesIn as < quotesIn bs)

namespace AlikeAll

variable {P Q : Prop} {a b : String} {as bs : List String}

theorem refl (as : List String) : AlikeAll False as as :=
  ⟨rfl, fun _ => rfl, False.elim⟩

theorem refl_of_not (hP : ¬ P) (as : List String) : AlikeAll P as as :=
  ⟨rfl, fun _ => rfl, fun h => absurd h hP⟩

theorem of_iff (h : AlikeAll P as bs) (hPQ : P ↔ Q) : AlikeAll Q as bs :=
  ⟨h.1, fun hQ => h.2.1 fun hP => hQ (hPQ.1 hP), fun hQ => h.2.2 (hPQ.2 hQ)⟩

theorem le (h : AlikeAll P as bs) : quotesIn as ≤ quotesIn bs := by
  by_cases hP : P
  · exact Nat.le_of_lt (h.2.2 hP)
  · exact Nat.le_of_eq (congrArg quotesIn (h.2.1 hP))

theorem cons (h : Alike P a b) (hs : AlikeAll Q as bs) : AlikeAll (P ∨ Q) (a :: as) (b :: bs) := by
  refine ⟨by simp [hs.1], fun hnot => ?_, fun hor => ?_⟩
  · rw [h.1 fun hP => hnot (Or.inl hP), hs.2.1 fun hQ => hnot (Or.inr hQ)]
  · rw [quotesIn_cons, quotesIn_cons]
    rcases hor with hP | hQ
    · exact Nat.add_lt_add_of_lt_of_le (h.2 hP) hs.le
    · exact Nat.add_lt_add_of_le_of_lt h.le (hs.2.2 hQ)

theorem append {as' bs' : List String} (h : AlikeAll P as bs) (h' : AlikeAll Q as' bs') :
    AlikeAll (P ∨ Q) (as ++ as') (bs ++ bs') := by
  refine ⟨by simp [h.1, h'.1], fun hnot => ?_, fun hor => ?_⟩
  · rw [h.2.1 fun hP => hnot (Or.inl hP), h'.2.1 fun hQ => hnot (Or.inr hQ)]
  · rw [quotesIn_append, quotesIn_append]
    rcases hor with hP | hQ
    · exact Nat.add_lt_add_of_lt_of_le (h.2.2 hP) h'.le
    · exact Nat.add_lt_add_of_le_of_lt h.le (h'.2.2 hQ)

end AlikeAll

theorem quotes_intercalate (sep : String) (xs : List String) :
    quotes (sep.intercalate xs) = quotesIn xs + (xs.length - 1) * quotes sep := by
  induction xs with
  | nil => simp [quotes, quotesIn]
  | cons x xs ih =>
      cases xs with
      | nil => simp [quotes, quotesIn]
      | cons y ys =>
          rw [String.intercalate_cons_cons, quotes_append, quotes_append, ih, quotesIn_cons x]
          simp only [List.length_cons, Nat.add_sub_cancel, Nat.add_mul, Nat.one_mul]
          omega

theorem AlikeAll.intercalate {P : Prop} {as bs : List String} (h : AlikeAll P as bs)
    (sep : String) : Alike P (sep.intercalate as) (sep.intercalate bs) := by
  refine ⟨fun hP => by rw [h.2.1 hP], fun hP => ?_⟩
  rw [quotes_intercalate, quotes_intercalate, h.1]
  exact Nat.add_lt_add_right (h.2.2 hP) _

/-! ## Two renderings -/

/-- Both have the same fault, or both have a result and the two are related. -/
inductive Both {ε α : Type} (R : α → α → Prop) : Except ε α → Except ε α → Prop
  | error (fault : ε) : Both R (.error fault) (.error fault)
  | ok {a b : α} (h : R a b) : Both R (.ok a) (.ok b)

namespace Both

variable {ε α β : Type} {R : α → α → Prop} {S : β → β → Prop}

theorem bind {x y : Except ε α} {f g : α → Except ε β} (h : Both R x y)
    (hfg : ∀ a b, R a b → Both S (f a) (g b)) : Both S (x >>= f) (y >>= g) := by
  cases h with
  | error fault => exact .error fault
  | ok h => exact hfg _ _ h

theorem imp {R' : α → α → Prop} {x y : Except ε α} (h : Both R x y)
    (himp : ∀ a b, R a b → R' a b) : Both R' x y := by
  cases h with
  | error fault => exact .error fault
  | ok h => exact .ok (himp _ _ h)

theorem swap {x y : Except ε α} (h : Both R x y) : Both (fun a b => R b a) y x := by
  cases h with
  | error fault => exact .error fault
  | ok h => exact .ok h

theorem map_eq {g : α → β} {x y : Except ε α} (h : Both (fun a b => g a = g b) x y) :
    x.map g = y.map g := by
  cases h with
  | error fault => rfl
  | ok h => exact congrArg Except.ok h

theorem of_ok {x y : Except ε α} {a b : α} (h : Both R x y) (hx : x = .ok a) (hy : y = .ok b) :
    R a b := by
  subst hx hy
  cases h with
  | ok h => exact h

theorem of_iff {P Q : Prop} {x y : Rendered} (h : Both (Alike P) x y) (hPQ : P ↔ Q) :
    Both (Alike Q) x y :=
  h.imp fun _ _ hab => hab.of_iff hPQ

theorem mapError {δ : Type} {x y : Except ε α} (h : Both R x y) (g : ε → δ) :
    Both R (x.mapError g) (y.mapError g) := by
  cases h with
  | error fault => exact .error (g fault)
  | ok h => exact .ok h

theorem same {P : Prop} {x y : Rendered} (h : x = y) (hP : ¬ P) : Both (Alike P) x y := by
  subst h
  cases x with
  | error fault => exact .error fault
  | ok a => exact .ok (.refl_of_not hP a)

end Both

section Lists

variable {ι κ : Type} {F G : ι → Rendered} {P : ι → Prop} {xs : List ι}

theorem both_allCode (h : ∀ x ∈ xs, Both (Alike (P x)) (F x) (G x)) :
    Both (AlikeAll (∃ x ∈ xs, P x)) (allCode (xs.map F)) (allCode (xs.map G)) := by
  induction xs with
  | nil => exact .ok ((AlikeAll.refl []).of_iff (by simp))
  | cons x xs ih =>
      refine (h x (List.mem_cons_self ..)).bind fun a b hab => ?_
      refine (ih fun y hy => h y (List.mem_cons_of_mem _ hy)).bind fun as bs habs => ?_
      exact .ok ((AlikeAll.cons hab habs).of_iff (by simp))

/-- One arm of a chain of conditions. -/
def oneArm (arm : Rendered × Rendered) : Rendered := do
  let c ← arm.1
  let b ← arm.2
  return "if " ++ c ++ " " ++ blockCode b

theorem armCode_eq (arms : List (Rendered × Rendered)) :
    armCode arms = allCode (arms.map oneArm) := by
  induction arms with
  | nil => rfl
  | cons arm arms ih =>
      obtain ⟨cond, branch⟩ := arm
      rw [armCode, ih, List.map_cons, allCode, oneArm]
      cases cond with
      | error fault => rfl
      | ok c => cases branch <;> rfl

/-- Where every condition and every branch has a partner, the arms have all of them. -/
theorem exists_arm_iff {xs : List ι} {ys : List κ} {P : ι → Prop} {Q : κ → Prop}
    (hlength : xs.length = ys.length) :
    (∃ arm ∈ xs.zip ys, P arm.1 ∨ Q arm.2) ↔ (∃ x ∈ xs, P x) ∨ ∃ y ∈ ys, Q y := by
  have hfst : (xs.zip ys).map Prod.fst = xs := List.map_fst_zip (by omega)
  have hsnd : (xs.zip ys).map Prod.snd = ys := List.map_snd_zip (by omega)
  constructor
  · rintro ⟨⟨x, y⟩, hmem, hP | hQ⟩
    · exact Or.inl ⟨x, (List.of_mem_zip hmem).1, hP⟩
    · exact Or.inr ⟨y, (List.of_mem_zip hmem).2, hQ⟩
  · rintro (⟨x, hmem, hP⟩ | ⟨y, hmem, hQ⟩)
    · rw [← hfst] at hmem
      obtain ⟨arm, harm, rfl⟩ := List.mem_map.1 hmem
      exact ⟨arm, harm, Or.inl hP⟩
    · rw [← hsnd] at hmem
      obtain ⟨arm, harm, rfl⟩ := List.mem_map.1 hmem
      exact ⟨arm, harm, Or.inr hQ⟩

theorem Alike.blockCode {P : Prop} {a b : String} (h : Alike P a b) :
    Alike P (blockCode a) (AccessRules.blockCode b) :=
  (h.after _).before _

theorem Alike.elseCode {P : Prop} {a b : String} (h : Alike P a b) :
    Alike P (elseCode a) (AccessRules.elseCode b) :=
  h.blockCode.after _

theorem both_chainCode (xs : List ι) (ys : List κ) {F' G' : κ → Rendered} {Q : κ → Prop}
    (hx : ∀ x ∈ xs, Both (Alike (P x)) (F x) (G x))
    (hy : ∀ y ∈ ys, Both (Alike (Q y)) (F' y) (G' y)) (hlength : xs.length = ys.length) :
    Both (Alike ((∃ x ∈ xs, P x) ∨ ∃ y ∈ ys, Q y)) (chainCode (xs.map F) (ys.map F'))
      (chainCode (xs.map G) (ys.map G')) := by
  have harm : ∀ arm ∈ xs.zip ys, Both (Alike (P arm.1 ∨ Q arm.2))
      (oneArm (F arm.1, F' arm.2)) (oneArm (G arm.1, G' arm.2)) := by
    rintro ⟨x, y⟩ hmem
    obtain ⟨hxmem, hymem⟩ := List.of_mem_zip hmem
    refine (hx x hxmem).bind fun a b hab => (hy y hymem).bind fun a' b' hab' => ?_
    exact .ok (((hab.after _).before _).append hab'.blockCode)
  have hall := both_allCode harm
  simp only [chainCode, armCode_eq, List.zip_map, List.map_map]
  exact hall.bind fun as bs habs => .ok ((habs.of_iff (exists_arm_iff hlength)).intercalate _)

end Lists

theorem both_caseCode {P : Prop} {x y : Rendered} (pattern : String) (h : Both (Alike P) x y) :
    Both (Alike P) (caseCode pattern x) (caseCode pattern y) :=
  h.bind fun _ _ hab => .ok ((hab.after _).before _)

theorem both_choiceCode {ι : Type} {F G : ι → Rendered} {P : ι → Prop} {Q : Prop} {x y : Rendered}
    (subject : String) (xs : List ι) (hcases : ∀ x ∈ xs, Both (Alike (P x)) (F x) (G x))
    (hdefault : Both (Alike Q) x y) :
    Both (Alike ((∃ x ∈ xs, P x) ∨ Q)) (choiceCode subject (xs.map F) x)
      (choiceCode subject (xs.map G) y) := by
  refine (both_allCode hcases).bind fun as bs habs => ?_
  refine (both_caseCode "_" hdefault).bind fun a b hab => ?_
  have hlast : AlikeAll Q [a] [b] := (AlikeAll.cons hab (.refl [])).of_iff (by simp)
  exact .ok ((((habs.append hlast).intercalate _).blockCode).after _)

end AccessRules
