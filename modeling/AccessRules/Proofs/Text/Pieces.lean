import AccessRules.Text.Blank
import Mathlib.Data.List.DropRight

set_option autoImplicit false

/-! # Pieces of text

Cutting a text at a separator: how many pieces there are, and what becomes of them when texts are
joined at a separator. Trimming: blanks at the ends go, and what is left is kept by a second
trimming. -/

namespace AccessRules.Text

theorem length_pieces (sep : Char) (cs : List Char) :
    (pieces sep cs).length = cs.count sep + 1 := by
  induction cs with
  | nil => rfl
  | cons c cs ih =>
      rw [pieces]
      by_cases h : c = sep
      · rw [if_pos h, List.length_cons, ih, h, List.count_cons_self]
      · rw [if_neg h, List.count_cons_of_ne h]
        cases hp : pieces sep cs with
        | nil => simp [hp] at ih
        | cons p ps => rw [hp] at ih; exact ih

theorem pieces_ne_nil (sep : Char) (cs : List Char) : pieces sep cs ≠ [] := by
  intro h
  have hlength := length_pieces sep cs
  rw [h, List.length_nil] at hlength
  omega

theorem pieces_append (sep : Char) (cs ds : List Char) :
    pieces sep (cs ++ sep :: ds) = pieces sep cs ++ pieces sep ds := by
  induction cs with
  | nil => simp [pieces]
  | cons c cs ih =>
      obtain ⟨p, ps, hpieces⟩ := List.exists_cons_of_ne_nil (pieces_ne_nil sep cs)
      rw [List.cons_append, pieces, pieces, ih, hpieces]
      split <;> simp

theorem pieces_of_not_mem {sep : Char} {cs : List Char} (h : sep ∉ cs) : pieces sep cs = [cs] := by
  induction cs with
  | nil => rfl
  | cons c cs ih =>
      simp only [List.mem_cons, not_or] at h
      rw [pieces, if_neg (Ne.symm h.1), ih h.2]

theorem not_mem_of_mem_pieces {sep : Char} {cs piece : List Char} (h : piece ∈ pieces sep cs) :
    sep ∉ piece := by
  induction cs generalizing piece with
  | nil => simp_all [pieces]
  | cons c cs ih =>
      obtain ⟨p, ps, hpieces⟩ := List.exists_cons_of_ne_nil (pieces_ne_nil sep cs)
      rw [hpieces] at ih
      rw [pieces, hpieces] at h
      split at h
      · rcases List.mem_cons.1 h with rfl | h
        · exact List.not_mem_nil
        · exact ih h
      · rename_i hc
        rcases List.mem_cons.1 h with rfl | h
        · simpa [Ne.symm hc] using ih List.mem_cons_self
        · exact ih (List.mem_cons_of_mem p h)

/-! ## Trimming -/

theorem trim_eq (cs : List Char) : trim cs = (cs.dropWhile isBlank).rdropWhile isBlank :=
  rfl

theorem trim_prefix_dropWhile (cs : List Char) : trim cs <+: cs.dropWhile isBlank :=
  List.rdropWhile_prefix isBlank _

theorem trim_subset (cs : List Char) : trim cs ⊆ cs :=
  fun _ h => (List.dropWhile_sublist isBlank).subset ((trim_prefix_dropWhile cs).subset h)

theorem trim_trim (cs : List Char) : trim (trim cs) = trim cs := by
  have hhead : (trim cs).dropWhile isBlank = trim cs := by
    refine List.dropWhile_eq_self_iff.2 fun hpos => ?_
    rw [(trim_prefix_dropWhile cs).getElem hpos]
    exact List.dropWhile_get_zero_not isBlank cs _
  rw [trim_eq (trim cs), hhead, trim_eq, List.rdropWhile_idempotent]

theorem trim_blank_cons {c : Char} (hc : isBlank c = true) (cs : List Char) :
    trim (c :: cs) = trim cs := by
  rw [trim_eq, List.dropWhile_cons_of_pos hc, trim_eq]

theorem trim_concat_blank {c : Char} (hc : isBlank c = true) (cs : List Char) :
    trim (cs ++ [c]) = trim cs := by
  rw [trim_eq, trim_eq, List.dropWhile_append]
  split
  · rename_i hnil
    rw [List.isEmpty_iff.1 hnil, List.dropWhile_cons_of_pos hc, List.dropWhile_nil]
  · exact List.rdropWhile_concat_pos _ _ _ hc

end AccessRules.Text
