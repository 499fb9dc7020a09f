import AccessRules.Proofs.Text.Pieces
import AccessRules.Proofs.Token.Spacing
import AccessRules.Source
import Mathlib.Data.List.GetD
import Mathlib.Data.List.Infix

set_option autoImplicit false

/-! # Parts of a source text

`Source.Slice` says which characters stand between two offsets of a text. A line of the text is such
a slice: `Source.line_eq` gives the line from the line feeds around it. -/

namespace AccessRules

open Cursor (byteCount)

namespace Source

/-- The characters stand between the two offsets, which are boundaries of characters. -/
def Slice (s : Source) (start stop : Nat) (cs : List Char) : Prop :=
  ∃ before after, s.text.toList = before ++ (cs ++ after) ∧ byteCount before = start
    ∧ byteCount (before ++ cs) = stop

/-- What stands before the end of a part of the text has the part as its end, if it starts early
    enough. -/
theorem Slice.eq_append {s : Source} {start stop : Nat} {gap before cs after : List Char}
    (h : s.Slice start stop gap) (htext : s.text.toList = before ++ (cs ++ after))
    (hstart : start ≤ byteCount before) (hstop : stop = byteCount (before ++ cs)) :
    ∃ more, gap = more ++ cs := by
  obtain ⟨earlier, later, htext', rfl, hgap⟩ := h
  have hearlier : earlier <+: before :=
    Cursor.isPrefix_of_byteCount_le ⟨_, htext'.symm⟩ ⟨_, htext.symm⟩ hstart
  obtain ⟨more, rfl⟩ := hearlier
  rw [← List.append_assoc] at htext htext'
  have hle := Cursor.isPrefix_of_byteCount_le ⟨_, htext'.symm⟩ ⟨_, htext.symm⟩ (by omega)
  have hge := Cursor.isPrefix_of_byteCount_le ⟨_, htext.symm⟩ ⟨_, htext'.symm⟩ (by omega)
  have heq := hle.sublist.antisymm hge.sublist
  rw [List.append_assoc] at heq
  exact ⟨more, List.append_cancel_left heq⟩

/-! ## Lines -/

theorem isPrefix_withoutReturn (cs : List Char) : withoutReturn cs <+: cs := by
  unfold withoutReturn
  split
  · exact List.dropLast_prefix cs
  · exact List.prefix_rfl

/-- Only a carriage return at the end of the line goes. -/
theorem withoutReturn_append {cs : List Char} (h : cs.getLast? ≠ some '\r') (ds : List Char) :
    withoutReturn (cs ++ ds) = cs ++ withoutReturn ds := by
  by_cases hds : ds = []
  · subst hds
    simp [withoutReturn, h]
  · rw [withoutReturn, withoutReturn, List.getLast?_append_of_ne_nil cs hds,
      List.dropLast_append_of_ne_nil hds]
    split <;> rfl

/-- The lines of a text that is given by its characters. -/
def linesOf (cs : List Char) : List (List Char) :=
  (Text.pieces '\n' cs).dropLast.map withoutReturn ++ (Text.pieces '\n' cs).getLast?.toList

theorem linesOf_of_not_mem {cs : List Char} (h : '\n' ∉ cs) : linesOf cs = [cs] := by
  rw [linesOf, Text.pieces_of_not_mem h]
  rfl

theorem linesOf_append (cs ds : List Char) :
    linesOf (cs ++ '\n' :: ds) = (Text.pieces '\n' cs).map withoutReturn ++ linesOf ds := by
  have hne := Text.pieces_ne_nil '\n' ds
  rw [linesOf, linesOf, Text.pieces_append, List.dropLast_append_of_ne_nil hne,
    List.getLast?_append_of_ne_nil _ hne, List.map_append, List.append_assoc]

/-- The characters `cs` stand between two line ends, or ends of the text, and have none in them. -/
structure LineAt (s : Source) (before cs after : List Char) : Prop where
  text : s.text.toList = before ++ (cs ++ after)
  starts : before = [] ∨ ∃ earlier, before = earlier ++ ['\n']
  whole : '\n' ∉ cs
  ends : after = [] ∨ ∃ later, after = '\n' :: later

/-- A line is found by the number of line feeds before it. -/
theorem line_eq {s : Source} {before cs after : List Char} (h : s.LineAt before cs after) :
    s.line (before.count '\n')
      = String.ofList (if after = [] then cs else withoutReturn cs) := by
  have hfirst : ∃ more, linesOf (cs ++ after)
      = (if after = [] then cs else withoutReturn cs) :: more := by
    rcases h.ends with rfl | ⟨later, rfl⟩
    · exact ⟨[], by rw [List.append_nil, linesOf_of_not_mem h.whole, if_pos rfl]⟩
    · refine ⟨linesOf later, ?_⟩
      rw [linesOf_append, Text.pieces_of_not_mem h.whole, if_neg (List.cons_ne_nil _ _)]
      rfl
  obtain ⟨more, hmore⟩ := hfirst
  have hlines : s.lines = (linesOf s.text.toList).map String.ofList := rfl
  rw [line, hlines, h.text]
  rcases h.starts with rfl | ⟨earlier, rfl⟩
  · rw [List.nil_append, hmore]
    rfl
  · have hindex : (earlier ++ ['\n']).count '\n'
        = ((Text.pieces '\n' earlier).map withoutReturn).length := by
      rw [List.length_map, Text.length_pieces, List.count_append, List.count_singleton_self]
    rw [List.append_assoc, List.singleton_append, linesOf_append, hmore, List.map_append, hindex,
      List.getD_append_right _ _ _ _ (by simp)]
    simp

/-- The line shows what stands there, up to a carriage return at its end. -/
theorem exists_line_eq {s : Source} {before cs after kept : List Char}
    (h : s.LineAt before cs after) (hkept : kept <+: cs) (hlast : kept.getLast? ≠ some '\r') :
    ∃ shown, s.line (before.count '\n') = String.ofList shown ∧ shown <+: cs ∧ kept <+: shown := by
  refine ⟨_, line_eq h, ?_⟩
  split
  · exact ⟨List.prefix_rfl, hkept⟩
  · obtain ⟨more, rfl⟩ := hkept
    exact ⟨isPrefix_withoutReturn _, withoutReturn_append hlast more ▸ List.prefix_append _ _⟩

theorem exists_line_start (cs : List Char) : ∃ earlier current, cs = earlier ++ current
    ∧ '\n' ∉ current ∧ (earlier = [] ∨ ∃ more, earlier = more ++ ['\n']) := by
  induction cs using List.reverseRecOn with
  | nil => exact ⟨[], [], rfl, List.not_mem_nil, .inl rfl⟩
  | append_singleton cs c ih =>
      by_cases hc : c = '\n'
      · exact ⟨cs ++ [c], [], (List.append_nil _).symm, List.not_mem_nil, .inr ⟨cs, by rw [hc]⟩⟩
      · obtain ⟨earlier, current, rfl, hcurrent, hearlier⟩ := ih
        refine ⟨earlier, current ++ [c], List.append_assoc .., ?_, hearlier⟩
        simp [hcurrent, Ne.symm hc]

theorem exists_line_end (cs : List Char) : ∃ later rest, cs = later ++ rest
    ∧ '\n' ∉ later ∧ (rest = [] ∨ ∃ more, rest = '\n' :: more) := by
  induction cs with
  | nil => exact ⟨[], [], rfl, List.not_mem_nil, .inl rfl⟩
  | cons c cs ih =>
      by_cases hc : c = '\n'
      · exact ⟨[], c :: cs, rfl, List.not_mem_nil, .inr ⟨cs, by rw [hc]⟩⟩
      · obtain ⟨later, rest, rfl, hlater, hrest⟩ := ih
        exact ⟨c :: later, rest, rfl, by simp [hlater, Ne.symm hc], hrest⟩

/-- Characters without a line feed stand on one line. -/
theorem exists_lineAt {s : Source} {before cs after : List Char}
    (htext : s.text.toList = before ++ (cs ++ after)) (hcs : '\n' ∉ cs) :
    ∃ earlier current later rest, before = earlier ++ current ∧ after = later ++ rest
      ∧ before.count '\n' = earlier.count '\n'
      ∧ s.LineAt earlier (current ++ (cs ++ later)) rest := by
  obtain ⟨earlier, current, rfl, hcurrent, hearlier⟩ := exists_line_start before
  obtain ⟨later, rest, rfl, hlater, hrest⟩ := exists_line_end after
  refine ⟨earlier, current, later, rest, rfl, rfl, ?_, ?_, hearlier, ?_, hrest⟩
  · rw [List.count_append, List.count_eq_zero.2 hcurrent, Nat.add_zero]
  · simp [htext]
  · simp [hcurrent, hcs, hlater]

end Source

end AccessRules
