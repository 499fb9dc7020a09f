import AccessRules.Diagnostic
import Mathlib.Data.List.Basic

set_option autoImplicit false

/-! # Runs that collect events

`accumulate` takes a state through a list of things. A run over two lists one after the other is two
runs, and what every step keeps holds at the end. -/

namespace AccessRules

section Accumulate

variable {σ α : Type} (step : σ → α → σ × List Event)

theorem accumulate_cons_fst (s : σ) (a : α) (as : List α) :
    (accumulate step s (a :: as)).1 = (accumulate step (step s a).1 as).1 :=
  rfl

theorem accumulate_cons_snd (s : σ) (a : α) (as : List α) :
    (accumulate step s (a :: as)).2 = (step s a).2 ++ (accumulate step (step s a).1 as).2 :=
  rfl

theorem accumulate_append_fst (s : σ) (xs ys : List α) :
    (accumulate step s (xs ++ ys)).1 = (accumulate step (accumulate step s xs).1 ys).1 := by
  induction xs generalizing s with
  | nil => rfl
  | cons x xs ih => exact ih (step s x).1

theorem accumulate_append_snd (s : σ) (xs ys : List α) :
    (accumulate step s (xs ++ ys)).2
      = (accumulate step s xs).2 ++ (accumulate step (accumulate step s xs).1 ys).2 := by
  induction xs generalizing s with
  | nil => rfl
  | cons x xs ih =>
      rw [List.cons_append, accumulate_cons_snd, ih, accumulate_cons_snd, accumulate_cons_fst,
        List.append_assoc]

variable {step}

/-- What holds at the start and is kept by every step holds at the end. -/
theorem accumulate_keeps {P : σ → Prop} {as : List α} {s : σ}
    (hstep : ∀ s, ∀ a ∈ as, P s → P (step s a).1) (h : P s) : P (accumulate step s as).1 := by
  induction as generalizing s with
  | nil => exact h
  | cons a as ih =>
      refine ih (fun s b hb => hstep s b (List.mem_cons_of_mem _ hb)) ?_
      exact hstep s a (List.mem_cons_self ..) h

/-- Steps that each take a view `v` of the state through a list take it through all of the
    lists. -/
theorem accumulate_fst_foldl_view {β τ : Type} {v : σ → τ} {f : τ → β → τ} {g : α → List β}
    {as : List α} (hstep : ∀ s, ∀ a ∈ as, v (step s a).1 = (g a).foldl f (v s)) (s : σ) :
    v (accumulate step s as).1 = (as.flatMap g).foldl f (v s) := by
  induction as generalizing s with
  | nil => rfl
  | cons a as ih =>
      rw [List.flatMap_cons, List.foldl_append, ← hstep s a (List.mem_cons_self ..)]
      exact ih (fun s b hb => hstep s b (List.mem_cons_of_mem _ hb)) _

theorem accumulate_fst_foldl {β : Type} {f : σ → β → σ} {g : α → List β}
    (hstep : ∀ s a, (step s a).1 = (g a).foldl f s) (s : σ) (as : List α) :
    (accumulate step s as).1 = (as.flatMap g).foldl f s :=
  accumulate_fst_foldl_view (v := id) (fun s a _ => hstep s a) s

/-- Where the events of a step do not depend on the state, they are those of each thing. -/
theorem accumulate_snd_flatMap {g : α → List Event} (hstep : ∀ s a, (step s a).2 = g a) (s : σ)
    (as : List α) : (accumulate step s as).2 = as.flatMap g := by
  induction as generalizing s with
  | nil => rfl
  | cons a as ih =>
      show (step s a).2 ++ (accumulate step (step s a).1 as).2 = _
      rw [hstep, ih, List.flatMap_cons]

/-- The same, as far as a part `φ` of the events shows. -/
theorem accumulate_snd_part {γ : Type} {φ : List Event → List γ}
    (happend : ∀ xs ys, φ (xs ++ ys) = φ xs ++ φ ys) {g : α → List γ}
    (hstep : ∀ s a, φ (step s a).2 = g a) (s : σ) (as : List α) :
    φ (accumulate step s as).2 = as.flatMap g := by
  induction as generalizing s with
  | nil => exact List.self_eq_append_right.1 (happend [] [])
  | cons a as ih =>
      show φ ((step s a).2 ++ (accumulate step (step s a).1 as).2) = _
      rw [happend, hstep, ih, List.flatMap_cons]

/-- The events of a run, step by step. -/
theorem accumulate_snd_range (step : σ → α → σ × List Event) (s : σ) (as : List α) :
    (accumulate step s as).2 = (List.range as.length).flatMap fun n =>
      (as[n]?.map fun a => (step (accumulate step s (as.take n)).1 a).2).getD [] := by
  induction as generalizing s with
  | nil => rfl
  | cons a as ih =>
      rw [List.length_cons, List.range_succ_eq_map, List.flatMap_cons, List.flatMap_map]
      exact congrArg ((step s a).2 ++ ·) (ih (step s a).1)

section Flatten

variable {β : Type} {inner : σ → β → σ × List Event} {g : α → List β}

theorem accumulate_map (f : β → α) (s : σ) (bs : List β) :
    accumulate step s (bs.map f) = accumulate (fun s b => step s (f b)) s bs := by
  induction bs generalizing s with
  | nil => rfl
  | cons b bs ih => simp only [List.map_cons, accumulate, ih]

/-- A run whose steps are runs is one run. -/
theorem accumulate_flatMap_fst (hstate : ∀ s a, (step s a).1 = (accumulate inner s (g a)).1)
    (s : σ) (as : List α) :
    (accumulate step s as).1 = (accumulate inner s (as.flatMap g)).1 := by
  induction as generalizing s with
  | nil => rfl
  | cons a as ih =>
      rw [List.flatMap_cons, accumulate_append_fst, ← hstate]
      exact ih _

/-- A run whose steps are runs is one run, as far as a part `φ` of the events shows. -/
theorem accumulate_flatMap_snd {γ : Type} {φ : List Event → List γ}
    (happend : ∀ xs ys, φ (xs ++ ys) = φ xs ++ φ ys)
    (hstate : ∀ s a, (step s a).1 = (accumulate inner s (g a)).1)
    (hevents : ∀ s a, φ (step s a).2 = φ (accumulate inner s (g a)).2) (s : σ) (as : List α) :
    φ (accumulate step s as).2 = φ (accumulate inner s (as.flatMap g)).2 := by
  induction as generalizing s with
  | nil => rfl
  | cons a as ih =>
      show φ ((step s a).2 ++ (accumulate step (step s a).1 as).2) = _
      rw [List.flatMap_cons, accumulate_append_snd, happend, happend, hevents, ih, hstate]

end Flatten

end Accumulate

end AccessRules
