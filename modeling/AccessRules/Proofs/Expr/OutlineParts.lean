import AccessRules.Expr.Outline
import AccessRules.Proofs.Grammar.Derivation
import AccessRules.Proofs.Number.FloatText
import AccessRules.Proofs.Text.Quoted

set_option autoImplicit false

/-! # The parts of outlines

A part of an outline is followed by a blank, a comma or a closing bracket. `Shown` says that the
text of a part tells, before whatever may follow it, which part it is and where it ends. This
module shows it of the parts that hold no expressions: names, places, numbers, operators,
references and literals. What kind of part a text starts with is told by its `opening`. -/

namespace AccessRules

open Cursor (isIdentStart isIdentChar)
open Decimal (isNumeralChar startsNumeral)

/-! ## Texts that show where they end -/

/-- The text is at its end, or goes on with a delimiter. -/
def ends : List Char → Bool
  | [] => true
  | c :: _ => [' ', ',', ')', '\x7d', ']'].contains c

/-- The text does not go on with a character of the class. -/
def stops (p : Char → Bool) : List Char → Bool
  | [] => true
  | c :: _ => !p c

/-- Before a rest of the given form, the text of `a` cannot be taken for that of anything else with
    the property. -/
def ShownBefore {α : Type} (R : List Char → Prop) (P : α → Prop) (f : α → List Char) (a : α) :
    Prop :=
  ∀ ⦃b : α⦄ ⦃r s : List Char⦄, P b → R r → R s → f a ++ r = f b ++ s → a = b ∧ r = s

/-- The text of `a` shows where it ends if a delimiter follows. -/
def Shown {α : Type} (P : α → Prop) (f : α → List Char) (a : α) : Prop :=
  ShownBefore (fun r => ends r = true) P f a

section Class

variable {p : Char → Bool} {a b r s : List Char}

theorem takeWhile_of_stops (ha : ∀ c ∈ a, p c = true) (hr : stops p r = true) :
    (a ++ r).takeWhile p = a := by
  rw [List.takeWhile_append_of_pos ha]
  cases r with
  | nil => rw [List.takeWhile_nil, List.append_nil]
  | cons c r =>
      rw [List.takeWhile_cons_of_neg (by simpa [stops] using hr), List.append_nil]

/-- Characters of a class are told from what follows them. -/
theorem append_inj_of_class (ha : ∀ c ∈ a, p c = true) (hb : ∀ c ∈ b, p c = true)
    (hr : stops p r = true) (hs : stops p s = true) (h : a ++ r = b ++ s) : a = b ∧ r = s := by
  have hab : a = b := by rw [← takeWhile_of_stops ha hr, h, takeWhile_of_stops hb hs]
  subst hab
  exact ⟨rfl, List.append_cancel_left h⟩

theorem stops_of_ends (hp : [' ', ',', ')', '\x7d', ']'].all (fun c => !p c) = true)
    (h : ends r = true) : stops p r = true := by
  cases r with
  | nil => rfl
  | cons c r => exact List.all_eq_true.1 hp c (List.contains_iff_mem.1 h)

/-- A text without delimiters shows where it ends. -/
theorem shown_of_class {α : Type} {P : α → Prop} {f : α → List Char}
    (hp : [' ', ',', ')', '\x7d', ']'].all (fun c => !p c) = true)
    (hclass : ∀ a, P a → ∀ c ∈ f a, p c = true) (hinj : ∀ a b, f a = f b → a = b) {a : α}
    (ha : P a) : Shown P f a := by
  intro b r s hb hr hs h
  obtain ⟨hab, hrs⟩ := append_inj_of_class (hclass a ha) (hclass b hb) (stops_of_ends hp hr)
    (stops_of_ends hp hs) h
  exact ⟨hinj a b hab, hrs⟩

end Class

/-! ## Names, places, numbers and operators -/

theorem IsName.chars {name : String} (h : IsName name) :
    ∀ c ∈ name.toList, isIdentChar c = true := by
  obtain ⟨⟨c, cs, htext, hc, hcs⟩, -⟩ := h
  rw [htext]
  exact List.forall_mem_cons.2 ⟨Cursor.isIdentChar_of_isIdentStart hc, hcs⟩

theorem name_append_inj {a b : String} {r s : List Char} (ha : IsName a) (hb : IsName b)
    (hr : stops isIdentChar r = true) (hs : stops isIdentChar s = true)
    (h : a.toList ++ r = b.toList ++ s) : a = b ∧ r = s := by
  obtain ⟨hab, hrs⟩ := append_inj_of_class ha.chars hb.chars hr hs h
  exact ⟨String.toList_inj.1 hab, hrs⟩

theorem stops_isIdentChar {r : List Char} (h : ends r = true) : stops isIdentChar r = true :=
  stops_of_ends rfl h

theorem shown_name {name : String} (h : IsName name) : Shown IsName String.toList name :=
  fun _ _ _ hb hr hs =>
    name_append_inj h hb (stops_isIdentChar hr) (stops_isIdentChar hs)

theorem toList_placeText (path : String) :
    (placeText path).toList = '\'' :: (path.toList ++ ['\'']) := by
  simp [placeText]

/-- A place shows its end whatever follows. -/
theorem place_append_inj {a b : String} {r s : List Char} (ha : IsPath a) (hb : IsPath b)
    (h : (placeText a).toList ++ r = (placeText b).toList ++ s) : a = b ∧ r = s := by
  have hclass {path : String} (hpath : IsPath path) : ∀ c ∈ path.toList, (c != '\'') = true :=
    fun c hc => bne_iff_ne.2 (hpath c hc).1
  simp only [toList_placeText, List.cons_append, List.append_assoc, List.nil_append] at h
  obtain ⟨hab, hrs⟩ := append_inj_of_class (hclass ha) (hclass hb) rfl rfl (List.cons.inj h).2
  exact ⟨String.toList_inj.1 hab, (List.cons.inj hrs).2⟩

theorem place_ne_ref {path : String} {r s : List Char} :
    '@' :: (placeText path).toList ++ r ≠ '@' :: '^' :: s := by
  rw [toList_placeText]
  intro h
  cases h

theorem shown_word (n : Int64) : Shown (fun _ => True) (fun n => (wordText n).toList) n :=
  shown_of_class (p := isNumeralChar) rfl (fun n _ => Decimal.isNumeralChar_wordText n)
    (fun _ _ h => wordText_injective (String.toList_inj.1 h)) trivial

theorem shown_float (x : Float) : Shown (fun _ => True) (fun x => (Decimal.exactText x).toList) x :=
  shown_of_class (p := isNumeralChar) rfl (fun x _ => Decimal.isNumeralChar_exactText x)
    (fun _ _ h => Decimal.exactText_injective (String.toList_inj.1 h)) trivial

theorem word_ne_float {n : Int64} {x : Float} {r s : List Char} (hr : ends r = true)
    (hs : ends s = true) : (wordText n).toList ++ r ≠ (Decimal.exactText x).toList ++ s := by
  intro h
  obtain ⟨htext, -⟩ := append_inj_of_class (Decimal.isNumeralChar_wordText n)
    (Decimal.isNumeralChar_exactText x) (stops_of_ends rfl hr) (stops_of_ends rfl hs) h
  exact Decimal.exactText_ne_wordText x n (String.toList_inj.1 htext).symm

theorem shown_cmpOp (op : CmpOp) : Shown (fun _ => True) (fun op => op.text.toList) op := by
  refine shown_of_class (p := fun c => ['<', '>', '=', '!'].contains c) rfl ?_ ?_ trivial
  · intro op _
    cases op <;> exact List.all_eq_true.1 rfl
  · intro op op' h
    cases op <;> cases op' <;> first | rfl | exact absurd h (by decide)

/-- The character that stands for an operator of arithmetic. -/
def ArithOp.symbol : ArithOp → Char
  | .add => '+'
  | .sub => '-'
  | .mul => '*'
  | .div => '/'

theorem ArithOp.toList_text (op : ArithOp) : op.text.toList = [op.symbol] := by
  cases op <;> rfl

theorem ArithOp.symbol_injective {op op' : ArithOp} (h : op.symbol = op'.symbol) : op = op' := by
  cases op <;> cases op' <;> first | rfl | exact absurd h (by decide)

/-- An operator of arithmetic is a single character. -/
theorem arithOp_append_inj {op op' : ArithOp} {r s : List Char}
    (h : op.text.toList ++ r = op'.text.toList ++ s) : op = op' ∧ r = s := by
  rw [ArithOp.toList_text, ArithOp.toList_text] at h
  obtain ⟨hsymbol, hrest⟩ := List.cons.inj h
  exact ⟨ArithOp.symbol_injective hsymbol, hrest⟩

theorem shown_arithOp (op : ArithOp) : Shown (fun _ => True) (fun op => op.text.toList) op :=
  fun _ _ _ _ _ _ => arithOp_append_inj

/-! ## References -/

/-- What follows the name of a reference. -/
def qualification : Option Qualifier → List Char
  | none => []
  | some (.ref name) => '@' :: '^' :: name.toList
  | some (.place path) => '@' :: (placeText path).toList

theorem toList_text_reference (r : Reference) :
    r.text.toList = '^' :: (r.name.toList ++ qualification r.qualifier) := by
  obtain ⟨name, _ | (q | path)⟩ := r <;> simp [Reference.text, qualification]

theorem stops_qualification (q : Option Qualifier) {r : List Char} (hr : ends r = true) :
    stops isIdentChar (qualification q ++ r) = true := by
  obtain _ | (q | path) := q
  · exact stops_isIdentChar hr
  · rfl
  · rfl

theorem ends_ne_cons {r : List Char} (hr : ends r = true) {c : Char} (hc : ends [c] = false)
    (s : List Char) : r ≠ c :: s := by
  rintro rfl
  rw [show ends (c :: s) = ends [c] from rfl, hc] at hr
  cases hr

theorem shown_qualification {q : Option Qualifier} (hq : ∀ x ∈ q, x.WellFormed) :
    Shown (fun q => ∀ x ∈ q, Qualifier.WellFormed x) qualification q := by
  intro q' r s hq' hr hs h
  obtain _ | (name | path) := q <;> obtain _ | (name' | path') := q'
  · exact ⟨rfl, h⟩
  · exact absurd h (ends_ne_cons hr rfl _)
  · exact absurd h (ends_ne_cons hr rfl _)
  · exact absurd h.symm (ends_ne_cons hs rfl _)
  · have hname : IsName name := hq _ rfl
    have hname' : IsName name' := hq' _ rfl
    obtain ⟨rfl, hrs⟩ := shown_name hname hname' hr hs (List.cons.inj (List.cons.inj h).2).2
    exact ⟨rfl, hrs⟩
  · exact absurd h.symm place_ne_ref
  · exact absurd h.symm (ends_ne_cons hs rfl _)
  · exact absurd h place_ne_ref
  · have hpath : IsPath path := hq _ rfl
    have hpath' : IsPath path' := hq' _ rfl
    obtain ⟨rfl, hrs⟩ := place_append_inj hpath hpath' (List.cons.inj h).2
    exact ⟨rfl, hrs⟩

theorem shown_reference {x : Reference} (hx : x.WellFormed) :
    Shown Reference.WellFormed (fun x => x.text.toList) x := by
  intro y r s hy hr hs h
  simp only [toList_text_reference, List.cons_append, List.append_assoc] at h
  obtain ⟨hname, h⟩ := name_append_inj hx.name hy.name (stops_qualification _ hr)
    (stops_qualification _ hs) (List.cons.inj h).2
  obtain ⟨hqualifier, hrs⟩ := shown_qualification hx.qualifier hy.qualifier hr hs h
  obtain ⟨name, qualifier⟩ := x
  exact ⟨by simp_all, hrs⟩

/-! ## Openings -/

/-- What the first characters of an outline tell about it. -/
inductive Opening where
  | none | number | or | and | not | bool | paren | binOp | invoke | chain | ternary | numCompare
  | strCompare | flagMatch | refEq | flag | arg | item | itemArg | member | within | perItem
  | perSetting | str | place | ref | setting | const | call | items

/-- What a text starts with, if it is an outline. Numbers are looked for first: one of them starts
    with a letter that others start with as well. -/
def opening (cs : List Char) : Opening :=
  if startsNumeral cs then .number else
  match cs with
  | 'O' :: _ => .or
  | 'A' :: 'N' :: _ => .and
  | 'A' :: 'r' :: _ => .arg
  | 'N' :: 'O' :: _ => .not
  | 'N' :: 'U' :: _ => .numCompare
  | 'T' :: 'R' :: _ => .bool
  | 'T' :: 'E' :: _ => .ternary
  | 'F' :: 'A' :: _ => .bool
  | 'F' :: 'L' :: _ => .flagMatch
  | 'F' :: 'l' :: _ => .flag
  | 'F' :: 'u' :: _ => .invoke
  | '!' :: 'F' :: 'u' :: _ => .invoke
  | '!' :: 'F' :: 'l' :: _ => .flag
  | '!' :: 'A' :: _ => .arg
  | '!' :: 'W' :: _ => .within
  | '(' :: cs => if cs.head? = some ' ' then .paren else .binOp
  | 'I' :: 'F' :: _ => .chain
  | 'I' :: 'N' :: _ => .member
  | 'I' :: 't' :: 'e' :: 'm' :: ':' :: _ => .item
  | 'I' :: 't' :: 'e' :: 'm' :: 'A' :: _ => .itemArg
  | 'S' :: 'T' :: _ => .strCompare
  | 'S' :: 'e' :: _ => .setting
  | 'R' :: _ => .refEq
  | 'W' :: _ => .within
  | 'P' :: 'E' :: 'R' :: ' ' :: 'I' :: _ => .perItem
  | 'P' :: 'E' :: 'R' :: ' ' :: 'S' :: _ => .perSetting
  | 'C' :: 'o' :: _ => .const
  | 'C' :: 'a' :: _ => .call
  | '"' :: _ => .str
  | '\'' :: _ => .place
  | '^' :: _ => .ref
  | '[' :: _ => .items
  | _ => .none

theorem opening_word (n : Int64) (r : List Char) :
    opening ((wordText n).toList ++ r) = .number :=
  if_pos (Decimal.startsNumeral_wordText n r)

theorem opening_float (x : Float) (r : List Char) :
    opening ((Decimal.exactText x).toList ++ r) = .number :=
  if_pos (Decimal.startsNumeral_exactText x r)

theorem opening_quoted (s : String) (r : List Char) :
    opening ((Text.quoted s).toList ++ r) = .str := by
  rw [Text.toList_quoted]
  rfl

theorem opening_place (path : String) (r : List Char) :
    opening ((placeText path).toList ++ r) = .place := by
  rw [toList_placeText]
  rfl

theorem opening_reference (x : Reference) (r : List Char) :
    opening (x.text.toList ++ r) = .ref := by
  rw [toList_text_reference]
  rfl

/-! ## Literals and operands -/

def Literal.opening : Literal → Opening
  | .bool _ => .bool
  | .int _ => .number
  | .float _ => .number
  | .str _ => .str
  | .place _ => .place

theorem Literal.opening_text (lit : Literal) (r : List Char) :
    AccessRules.opening (lit.text.toList ++ r) = lit.opening := by
  cases lit with
  | bool b => cases b <;> rfl
  | int n => exact opening_word n r
  | float x => exact opening_float x r
  | str s => exact opening_quoted s r
  | place path => exact opening_place path r

theorem bool_append_inj {b b' : Bool} {r s : List Char}
    (h : (if b then "TRUE" else "FALSE").toList ++ r
      = (if b' then "TRUE" else "FALSE").toList ++ s) : b = b' ∧ r = s := by
  cases b <;> cases b'
  · exact ⟨rfl, List.append_cancel_left h⟩
  · simp at h
  · simp at h
  · exact ⟨rfl, List.append_cancel_left h⟩

/-- The mark of negated forms is told from what it stands before. -/
theorem negation_append_inj {n n' : Bool} {w r s : List Char}
    (hw : w.head?.any (· != '!') = true)
    (h : (negation n).toList ++ (w ++ r) = (negation n').toList ++ (w ++ s)) : n = n' ∧ r = s := by
  rcases w with _ | ⟨c, w⟩
  · cases hw
  have hc : c ≠ '!' := bne_iff_ne.1 hw
  cases n <;> cases n'
  · exact ⟨rfl, List.append_cancel_left (List.append_cancel_left h)⟩
  · exact absurd (List.cons.inj h).1 hc
  · exact absurd (List.cons.inj h).1.symm hc
  · exact ⟨rfl, List.append_cancel_left (List.append_cancel_left h)⟩

theorem shown_literal {lit : Literal} (hlit : lit.WellFormed) :
    Shown Literal.WellFormed (fun lit => lit.text.toList) lit := by
  intro lit' r s hlit' hr hs h
  have hopen := congrArg opening h
  rw [lit.opening_text, lit'.opening_text] at hopen
  cases lit with
  | bool b =>
      cases lit' with
      | bool b' => exact (bool_append_inj h).imp_left (congrArg Literal.bool)
      | _ => cases hopen
  | int n =>
      cases lit' with
      | int n' => exact (shown_word n trivial hr hs h).imp_left (congrArg Literal.int)
      | float x' => exact absurd h (word_ne_float hr hs)
      | _ => cases hopen
  | float x =>
      cases lit' with
      | int n' => exact absurd h.symm (word_ne_float hs hr)
      | float x' => exact (shown_float x trivial hr hs h).imp_left (congrArg Literal.float)
      | _ => cases hopen
  | str t =>
      cases lit' with
      | str t' => exact (Text.quoted_append_inj h).imp_left (congrArg Literal.str)
      | _ => cases hopen
  | place path =>
      cases lit' with
      | place path' => exact (place_append_inj hlit hlit' h).imp_left (congrArg Literal.place)
      | _ => cases hopen

/-- A setting as an operand. -/
theorem setting_append_inj {a b : String} {r s : List Char} (ha : IsName a) (hb : IsName b)
    (hr : ends r = true) (hs : ends s = true)
    (h : ("Setting:" ++ a).toList ++ r = ("Setting:" ++ b).toList ++ s) : a = b ∧ r = s := by
  simp only [String.toList_append, List.append_assoc] at h
  exact shown_name ha hb hr hs (List.append_cancel_left h)

theorem opening_setting (name : String) (r : List Char) :
    opening (("Setting:" ++ name).toList ++ r) = .setting := by
  rw [String.toList_append]
  rfl

def Threshold.opening : Threshold → Opening
  | .count _ => .number
  | .setting _ => .setting
  | .ref _ => .ref

theorem Threshold.opening_outline (t : Threshold) (r : List Char) :
    AccessRules.opening (t.outline.toList ++ r) = t.opening := by
  cases t with
  | count n => exact opening_word n r
  | setting name => exact opening_setting name r
  | ref x => exact opening_reference x r

theorem shown_threshold {t : Threshold} (ht : t.WellFormed) :
    Shown Threshold.WellFormed (fun t => t.outline.toList) t := by
  intro t' r s ht' hr hs h
  have hopen := congrArg opening h
  rw [t.opening_outline, t'.opening_outline] at hopen
  cases t with
  | count n =>
      cases t' with
      | count n' => exact (shown_word n trivial hr hs h).imp_left (congrArg Threshold.count)
      | _ => cases hopen
  | setting name =>
      cases t' with
      | setting name' =>
          exact (setting_append_inj ht.1 ht'.1 hr hs h).imp_left (congrArg Threshold.setting)
      | _ => cases hopen
  | ref x =>
      cases t' with
      | ref x' => exact (shown_reference ht ht' hr hs h).imp_left (congrArg Threshold.ref)
      | _ => cases hopen

def Comparand.WellFormed : Comparand → Prop
  | .item name => IsName name
  | .setting name => IsName name
  | .ref r => r.WellFormed

def Comparand.opening : Comparand → Opening
  | .item _ => .item
  | .setting _ => .setting
  | .ref _ => .ref

theorem Comparand.opening_outline (c : Comparand) (r : List Char) :
    AccessRules.opening (c.outline.toList ++ r) = c.opening := by
  cases c with
  | item name =>
      rw [outline, String.toList_append]
      rfl
  | setting name => exact opening_setting name r
  | ref x => exact opening_reference x r

theorem shown_comparand {c : Comparand} (hc : c.WellFormed) :
    Shown Comparand.WellFormed (fun c => c.outline.toList) c := by
  intro c' r s hc' hr hs h
  have hopen := congrArg opening h
  rw [c.opening_outline, c'.opening_outline] at hopen
  cases c with
  | item name =>
      cases c' with
      | item name' =>
          simp only [Comparand.outline, String.toList_append, List.append_assoc] at h
          exact (shown_name hc hc' hr hs (List.append_cancel_left h)).imp_left
            (congrArg Comparand.item)
      | _ => cases hopen
  | setting name =>
      cases c' with
      | setting name' =>
          exact (setting_append_inj hc hc' hr hs h).imp_left (congrArg Comparand.setting)
      | _ => cases hopen
  | ref x =>
      cases c' with
      | ref x' => exact (shown_reference hc hc' hr hs h).imp_left (congrArg Comparand.ref)
      | _ => cases hopen

theorem shown_placeArg {p : PlaceArg} (hp : p.WellFormed) :
    Shown PlaceArg.WellFormed (fun p => p.outline.toList) p := by
  intro p' r s hp' hr hs h
  have hopen := congrArg opening h
  cases p with
  | ref x =>
      cases p' with
      | ref x' => exact (shown_reference hp hp' hr hs h).imp_left (congrArg PlaceArg.ref)
      | literal path' =>
          simp only [PlaceArg.outline, opening_reference, opening_place] at hopen
          cases hopen
  | literal path =>
      cases p' with
      | ref x' =>
          simp only [PlaceArg.outline, opening_reference, opening_place] at hopen
          cases hopen
      | literal path' =>
          exact (place_append_inj hp hp' h).imp_left (congrArg PlaceArg.literal)

/-! ## Lists of parts -/

section Lists

variable {α : Type} {P : α → Prop} {f : α → List Char} {sep : List Char} {xs ys : List α}
  {r s : List Char}

/-- What a list with separators starts with. -/
theorem intercalate_cons_eq (sep a : List Char) (l : List (List Char)) :
    ∃ t, sep.intercalate (a :: l) = a ++ t := by
  cases l with
  | nil => exact ⟨[], by rw [List.intercalate_singleton, List.append_nil]⟩
  | cons b l => exact ⟨_, by rw [List.intercalate_cons_cons, List.append_assoc]⟩

/-- A list that is not empty shows its elements and its end, if no separator can stand where it
    ends. -/
theorem joined_append_inj {R T : List Char → Prop} (hsep : ∀ r, R (sep ++ r))
    (hstop : ∀ r, T r → R r) (hne : ∀ r, ¬T (sep ++ r)) (hxs : ∀ x ∈ xs, ShownBefore R P f x)
    (hys : ∀ y ∈ ys, P y) (hxne : xs ≠ []) (hyne : ys ≠ []) (hr : T r) (hs : T s)
    (h : sep.intercalate (xs.map f) ++ r = sep.intercalate (ys.map f) ++ s) :
    xs = ys ∧ r = s := by
  induction xs generalizing ys with
  | nil => exact absurd rfl hxne
  | cons x xs ih =>
      obtain ⟨y, ys, rfl⟩ := List.exists_cons_of_ne_nil hyne
      have hx := hxs x List.mem_cons_self
      have hy := hys y List.mem_cons_self
      rcases xs with _ | ⟨x', xs⟩ <;> rcases ys with _ | ⟨y', ys⟩
      · simp only [List.map_cons, List.map_nil, List.intercalate_singleton] at h
        obtain ⟨rfl, hrs⟩ := hx hy (hstop r hr) (hstop s hs) h
        exact ⟨rfl, hrs⟩
      · -- the first list ends where the second one goes on with a separator
        simp only [List.map_cons, List.map_nil, List.intercalate_singleton,
          List.intercalate_cons_cons, List.append_assoc] at h
        obtain ⟨-, rfl⟩ := hx hy (hstop r hr) (hsep _) h
        exact absurd hr (hne _)
      · simp only [List.map_cons, List.map_nil, List.intercalate_singleton,
          List.intercalate_cons_cons, List.append_assoc] at h
        obtain ⟨-, rfl⟩ := hx hy (hsep _) (hstop s hs) h
        exact absurd hs (hne _)
      · simp only [List.map_cons, List.intercalate_cons_cons, List.append_assoc] at h
        obtain ⟨rfl, hrest⟩ := hx hy (hsep _) (hsep _) h
        simp only [← List.map_cons] at hrest
        obtain ⟨hlist, hrs⟩ := ih (fun a ha => hxs a (List.mem_cons_of_mem x ha))
          (fun b hb => hys b (List.mem_cons_of_mem x hb)) (List.cons_ne_nil _ _)
          (List.cons_ne_nil _ _) (List.append_cancel_left hrest)
        exact ⟨by rw [hlist], hrs⟩

/-- A list before a closing bracket shows its elements, also where there are none. -/
theorem enclosed_append_inj {stop : List Char} (hsep : ∀ r, ends (sep ++ r) = true)
    (hstop : ∀ r, ends (stop ++ r) = true) (hne : ∀ r s, sep ++ r ≠ stop ++ s)
    (hfirst : ∀ a r s, P a → f a ++ r ≠ stop ++ s) (hxs : ∀ x ∈ xs, P x)
    (hshown : ∀ x ∈ xs, Shown P f x) (hys : ∀ y ∈ ys, P y)
    (h : sep.intercalate (xs.map f) ++ (stop ++ r) = sep.intercalate (ys.map f) ++ (stop ++ s)) :
    xs = ys ∧ r = s := by
  rcases xs with _ | ⟨x, xs⟩ <;> rcases ys with _ | ⟨y, ys⟩
  · exact ⟨rfl, List.append_cancel_left h⟩
  · obtain ⟨t, ht⟩ := intercalate_cons_eq sep (f y) (ys.map f)
    rw [List.map_cons, ht, List.append_assoc] at h
    exact absurd h.symm (hfirst y _ _ (hys y List.mem_cons_self))
  · obtain ⟨t, ht⟩ := intercalate_cons_eq sep (f x) (xs.map f)
    rw [List.map_cons, ht, List.append_assoc] at h
    exact absurd h (hfirst x _ _ (hxs x List.mem_cons_self))
  · have hends : ∀ r, (∃ t, r = stop ++ t) → ends r = true := by
      rintro _ ⟨t, rfl⟩
      exact hstop t
    have hapart : ∀ r, ¬∃ t, sep ++ r = stop ++ t := by
      rintro r ⟨t, ht⟩
      exact hne r t ht
    obtain ⟨hlist, hrest⟩ := joined_append_inj hsep hends hapart hshown hys
      (List.cons_ne_nil x xs) (List.cons_ne_nil y ys) ⟨r, rfl⟩ ⟨s, rfl⟩ h
    exact ⟨hlist, List.append_cancel_left hrest⟩

end Lists

/-! ## Sets -/

theorem IsName.eq_cons {name : String} (h : IsName name) :
    ∃ c cs, name.toList = c :: cs ∧ isIdentStart c = true := by
  obtain ⟨⟨c, cs, htext, hc, -⟩, -⟩ := h
  exact ⟨c, cs, htext, hc⟩

theorem name_append_ne {name : String} (h : IsName name) {c : Char} (hc : isIdentStart c = false)
    (r s : List Char) : name.toList ++ r ≠ c :: s := by
  obtain ⟨d, ds, htext, hd⟩ := h.eq_cons
  rw [htext]
  intro heq
  obtain ⟨rfl, -⟩ := List.cons.inj heq
  rw [hd] at hc
  cases hc

/-- A member of a set. -/
inductive Member where
  | item (name : String)
  | str (text : String)
  | place (path : String)

def Member.text : Member → String
  | .item name => name
  | .str text => Text.quoted text
  | .place path => placeText path

def Member.WellFormed : Member → Prop
  | .item name => IsName name
  | .str _ => True
  | .place path => IsPath path

def Members.list : Members → List Member
  | .items names => names.map .item
  | .strs texts => texts.map .str
  | .places paths => paths.map .place

theorem Member.text_append_ne_blank {m : Member} (hm : m.WellFormed) (r s : List Char) :
    m.text.toList ++ r ≠ ' ' :: s := by
  cases m with
  | item name => exact name_append_ne hm rfl r s
  | str text =>
      rw [Member.text, Text.toList_quoted]
      intro h
      cases h
  | place path =>
      rw [Member.text, toList_placeText]
      intro h
      cases h

theorem shown_member {m : Member} (hm : m.WellFormed) :
    Shown Member.WellFormed (fun m => m.text.toList) m := by
  intro m' r s hm' hr hs h
  cases m with
  | item name =>
      cases m' with
      | item name' => exact (shown_name hm hm' hr hs h).imp_left (congrArg Member.item)
      | str text' =>
          simp only [Member.text, Text.toList_quoted] at h
          exact absurd h (name_append_ne hm rfl _ _)
      | place path' =>
          simp only [Member.text, toList_placeText] at h
          exact absurd h (name_append_ne hm rfl _ _)
  | str text =>
      cases m' with
      | item name' =>
          simp only [Member.text, Text.toList_quoted] at h
          exact absurd h.symm (name_append_ne hm' rfl _ _)
      | str text' => exact (Text.quoted_append_inj h).imp_left (congrArg Member.str)
      | place path' =>
          simp only [Member.text, Text.toList_quoted, toList_placeText] at h
          cases h
  | place path =>
      cases m' with
      | item name' =>
          simp only [Member.text, toList_placeText] at h
          exact absurd h.symm (name_append_ne hm' rfl _ _)
      | str text' =>
          simp only [Member.text, Text.toList_quoted, toList_placeText] at h
          cases h
      | place path' => exact (place_append_inj hm hm' h).imp_left (congrArg Member.place)

namespace Members

theorem toList_outline (ms : Members) :
    ms.outline.toList = [',', ' '].intercalate (ms.list.map fun m => m.text.toList) := by
  cases ms <;> simp [outline, list, Member.text, String.toList_intercalate, Function.comp_def]

theorem WellFormed.list {ms : Members} (h : ms.WellFormed) : ∀ m ∈ ms.list, m.WellFormed := by
  cases ms with
  | items names => exact List.forall_mem_map.2 h
  | strs texts => exact List.forall_mem_map.2 fun _ _ => trivial
  | places paths => exact List.forall_mem_map.2 h.2

/-- The members tell of which kind a set is, as one without members is one of items. -/
theorem list_injective {ms ms' : Members} (hms : ms.WellFormed) (hms' : ms'.WellFormed)
    (h : ms.list = ms'.list) : ms = ms' := by
  have hitem : Function.Injective Member.item := fun _ _ => Member.item.inj
  have hstr : Function.Injective Member.str := fun _ _ => Member.str.inj
  have hplace : Function.Injective Member.place := fun _ _ => Member.place.inj
  cases ms with
  | items names =>
      cases ms' with
      | items names' => rw [hitem.list_map h]
      | strs texts' => cases names <;> cases texts' <;> simp_all [list, WellFormed]
      | places paths' => cases names <;> cases paths' <;> simp_all [list, WellFormed]
  | strs texts =>
      cases ms' with
      | items names' => cases names' <;> cases texts <;> simp_all [list, WellFormed]
      | strs texts' => rw [hstr.list_map h]
      | places paths' => cases texts <;> cases paths' <;> simp_all [list, WellFormed]
  | places paths =>
      cases ms' with
      | items names' => cases names' <;> cases paths <;> simp_all [list, WellFormed]
      | strs texts' => cases texts' <;> cases paths <;> simp_all [list, WellFormed]
      | places paths' => rw [hplace.list_map h]

theorem outline_append_inj {ms ms' : Members} (hms : ms.WellFormed) (hms' : ms'.WellFormed)
    {r s : List Char} (h : ms.outline.toList ++ ([' ', ']'] ++ r)
      = ms'.outline.toList ++ ([' ', ']'] ++ s)) : ms = ms' ∧ r = s := by
  rw [toList_outline, toList_outline] at h
  have hne (r s : List Char) : [',', ' '] ++ r ≠ [' ', ']'] ++ s := by
    intro h
    cases h
  obtain ⟨hlist, hrs⟩ := enclosed_append_inj (fun _ => rfl) (fun _ => rfl) hne
    (fun m r s hm => Member.text_append_ne_blank hm r _) hms.list
    (fun m hm => shown_member (hms.list m hm)) hms'.list h
  exact ⟨list_injective hms hms' hlist, hrs⟩

end Members

end AccessRules
