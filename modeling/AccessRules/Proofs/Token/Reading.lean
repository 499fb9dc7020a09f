import AccessRules.Proofs.Token.Lexeme
import AccessRules.Proofs.Token.Numeral
import Mathlib.Tactic.IntervalCases

set_option autoImplicit false

/-! # Reading a written token

`Lexeme.Lexed` says which lexemes there are, by the form of their texts. Such a lexeme is read from
its written form if nothing follows that goes on with it: `Cursor.reads_lexed`. The work is one
lemma for each kind of token, which says that reading stops where the written form ends. -/

namespace AccessRules

/-! ## Strings -/

/-- The inside of a string: escapes in the right form, and characters that need none. -/
inductive StringBody : List Char → Prop
  | nil : StringBody []
  | code {a b d e : Char} {cs : List Char} (hhex : [a, b, d, e].all JsonString.isHexDigit = true)
      (h : StringBody cs) : StringBody ('\\' :: 'u' :: a :: b :: d :: e :: cs)
  | simple {e : Char} {cs : List Char} (he : (JsonString.simpleEscape? e).isSome = true)
      (h : StringBody cs) : StringBody ('\\' :: e :: cs)
  | plain {c : Char} {cs : List Char} (hquote : c ≠ '"') (hslash : c ≠ '\\')
      (hlow : 0x20 ≤ c.toNat) (h : StringBody cs) : StringBody (c :: cs)

namespace Cursor

theorem prepend_eq_ok_iff {cs inside rest : List Char}
    {r : Except (Nat × LexCause) (List Char × List Char)} :
    prepend cs r = .ok (inside, rest) ↔ ∃ more, r = .ok (more, rest) ∧ inside = cs ++ more := by
  cases r with
  | error fault => simp [prepend]
  | ok p =>
      obtain ⟨more, rest'⟩ := p
      simp only [prepend, Except.ok.injEq, Prod.mk.injEq]
      constructor
      · rintro ⟨rfl, rfl⟩
        exact ⟨more, ⟨rfl, rfl⟩, rfl⟩
      · rintro ⟨_, ⟨rfl, rfl⟩, rfl⟩
        exact ⟨rfl, rfl⟩

theorem all_isHexDigit_iff {a b d e : Char} : [a, b, d, e].all JsonString.isHexDigit = true ↔
    ¬ ([a, b, d, e].takeWhile JsonString.isHexDigit).length < 4 := by
  have hpre := List.takeWhile_prefix (l := [a, b, d, e]) JsonString.isHexDigit
  rw [List.all_eq_true, ← List.takeWhile_eq_self_iff]
  refine ⟨fun h => by rw [h]; exact Nat.lt_irrefl 4, fun h => hpre.eq_of_length ?_⟩
  have hle := hpre.length_le
  simp only [List.length_cons, List.length_nil] at hle ⊢
  omega

theorem stringInside_stringBody {inside : List Char} (h : StringBody inside) (opened col : Nat)
    (rest : List Char) : stringInside opened col (inside ++ '"' :: rest) = .ok (inside, rest) := by
  induction h generalizing col with
  | nil => simp [stringInside]
  | code hhex _ ih =>
      simp [stringInside, all_isHexDigit_iff.1 hhex, ih, prepend]
  | @simple e cs he _ ih =>
      have hu : e ≠ 'u' := by
        rintro rfl
        cases he
      simp [stringInside, hu, he, ih, prepend]
  | @plain c cs hquote hslash hlow _ ih =>
      have hnul : c ≠ nul := by
        rintro rfl
        exact absurd hlow (by decide)
      simp [stringInside, hslash, hnul, Nat.not_lt.2 hlow, ih, prepend]

theorem stringBody_of_stringInside {opened col : Nat} {cs inside rest : List Char}
    (h : stringInside opened col cs = .ok (inside, rest)) :
    StringBody inside ∧ cs = inside ++ '"' :: rest := by
  fun_induction stringInside opened col cs generalizing inside rest with
  | case2 =>
      cases h
      exact ⟨.nil, rfl⟩
  | case4 =>
      rename_i hvalid ih
      obtain ⟨more, hmore, rfl⟩ := prepend_eq_ok_iff.1 h
      obtain ⟨hbody, rfl⟩ := ih hmore
      exact ⟨.code (all_isHexDigit_iff.2 hvalid) hbody, rfl⟩
  | case6 col e cs _ _ he ih =>
      obtain ⟨more, hmore, rfl⟩ := prepend_eq_ok_iff.1 h
      obtain ⟨hbody, rfl⟩ := ih hmore
      exact ⟨.simple he hbody, rfl⟩
  | case11 col c cs hquote _ _ hslash hlast hnul hlow ih =>
      obtain ⟨more, hmore, rfl⟩ := prepend_eq_ok_iff.1 h
      obtain ⟨hbody, rfl⟩ := ih hmore
      refine ⟨.plain hquote ?_ (Nat.not_lt.1 hlow) hbody, rfl⟩
      -- a backslash before the closing quote would be read with it
      rintro rfl
      cases more with
      | nil => exact hslash '"' rest rfl rfl
      | cons x more => exact hslash x (more ++ '"' :: rest) rfl rfl
  | _ => cases h

end Cursor

/-- The three ways in which a character of a string is written. -/
inductive Escape (c : Char) : List Char → Prop
  | simple {e : Char} (hu : e ≠ 'u') (he : JsonString.simpleEscape? e = some c) :
      Escape c ['\\', e]
  | code {a b d e : Char} (hcode : JsonString.codeUnit? a b d e = some c.toNat)
      (hlow : c.toNat < 0x20) : Escape c ['\\', 'u', a, b, d, e]
  | plain (hquote : c ≠ '"') (hslash : c ≠ '\\') (hlow : 0x20 ≤ c.toNat) : Escape c [c]

theorem codeUnit_padded {n : Nat} (hn : n < 0x20) :
    ∃ a b d e, List.replicate (4 - (Nat.toDigits 16 n).length) '0' ++ Nat.toDigits 16 n
      = [a, b, d, e] ∧ JsonString.codeUnit? a b d e = some n := by
  interval_cases n <;> exact ⟨_, _, _, _, rfl, by decide⟩

theorem escape_escapeChar (c : Char) : Escape c (Json.escapeChar c) := by
  unfold Json.escapeChar
  split_ifs with hquote hslash hline hreturn htab hback hfeed hlow
  · exact .simple (by decide) (by rw [hquote]; rfl)
  · exact .simple (by decide) (by rw [hslash]; rfl)
  · exact .simple (by decide) (by rw [hline]; rfl)
  · exact .simple (by decide) (by rw [hreturn]; rfl)
  · exact .simple (by decide) (by rw [htab]; rfl)
  · exact .simple (by decide) (by rw [hback]; rfl)
  · exact .simple (by decide) (by rw [hfeed]; rfl)
  · obtain ⟨a, b, d, e, hdigits, hcode⟩ := codeUnit_padded hlow
    simp only [List.append_assoc, hdigits]
    exact .code hcode hlow
  · exact .plain hquote hslash (by omega)

theorem all_isHexDigit_of_codeUnit? {a b d e : Char} {n : Nat}
    (h : JsonString.codeUnit? a b d e = some n) :
    [a, b, d, e].all JsonString.isHexDigit = true := by
  unfold JsonString.codeUnit? at h
  split at h
  · assumption
  · cases h

theorem Escape.stringBody {c : Char} {written : List Char} (h : Escape c written) {cs : List Char}
    (hcs : StringBody cs) : StringBody (written ++ cs) := by
  cases h with
  | simple _ he => exact .simple (by rw [he]; rfl) hcs
  | code hcode _ => exact .code (all_isHexDigit_of_codeUnit? hcode) hcs
  | plain hquote hslash hlow => exact .plain hquote hslash hlow hcs

theorem stringBody_escaped (cs : List Char) : StringBody (cs.flatMap Json.escapeChar) := by
  induction cs with
  | nil => exact .nil
  | cons c cs ih =>
      rw [List.flatMap_cons]
      exact (escape_escapeChar c).stringBody ih

theorem read_escape {c : Char} {written : List Char} (h : Escape c written) (count : Nat)
    (rest : List Char) :
    ∃ count', JsonString.read count (written ++ rest)
      = JsonString.push c (JsonString.read count' rest) := by
  cases h with
  | simple hu he =>
      refine ⟨count + 2, ?_⟩
      simp [JsonString.read, hu, he]
  | code hcode hlow =>
      have hhigh : JsonString.isHighSurrogate c.toNat = false := by
        simp [JsonString.isHighSurrogate]
        omega
      have hlowSurrogate : JsonString.isLowSurrogate c.toNat = false := by
        simp [JsonString.isLowSurrogate]
        omega
      refine ⟨count + 6, ?_⟩
      simp [JsonString.read, hcode, hhigh, hlowSurrogate]
  | plain hquote hslash hlow =>
      refine ⟨count + c.utf8Size, ?_⟩
      simp [JsonString.read, hslash, Nat.not_lt.2 hlow]

theorem decode_escaped (s : String) :
    JsonString.decode (s.toList.flatMap Json.escapeChar) = .ok s := by
  have hread : ∀ (cs : List Char) (count : Nat),
      JsonString.read count (cs.flatMap Json.escapeChar ++ ['"']) = .ok (cs, []) := by
    intro cs
    induction cs with
    | nil =>
        intro count
        simp [JsonString.read]
    | cons c cs ih =>
        intro count
        rw [List.flatMap_cons, List.append_assoc]
        obtain ⟨count', hread⟩ := read_escape (escape_escapeChar c) count
          (cs.flatMap Json.escapeChar ++ ['"'])
        rw [hread, ih]
        rfl
  rw [JsonString.decode, hread]
  simp [Except.map]

/-! ## Lexemes that can be read -/

namespace Lexeme

/-- The text of the lexeme is one of its kind. -/
inductive Lexed : Lexeme → Prop
  | single {text : String} (h : text.toList ∈ Cursor.singleSymbols.map ([·])) : Lexed (symbol text)
  | double {text : String} (h : text.toList ∈ Cursor.doubleSymbols) : Lexed (symbol text)
  | ident {text : String} (h : IsIdent text) : Lexed (ident text)
  | number {text : String} (hstart : Cursor.startsNumber text.toList = true)
      (hnumeral : IsNumeral text.toList) {result : JsonNumber × List Char}
      (hread : JsonNumber.read text.toList = .ok result) : Lexed ⟨.number, text⟩
  | string {text : String} (hbody : StringBody text.toList) {value : String}
      (hdecode : JsonString.decode text.toList = .ok value) : Lexed ⟨.string, text⟩
  | place {path : String} (h : IsPath path) : Lexed (place path)

/-- The lexemes that trees are written with. -/
inductive Readable : Lexeme → Prop
  | single {text : String} (h : text.toList ∈ Cursor.singleSymbols.map ([·])) :
      Readable (symbol text)
  | double {text : String} (h : text.toList ∈ Cursor.doubleSymbols) : Readable (symbol text)
  | ident {text : String} (h : IsIdent text) : Readable (ident text)
  | int (n : Int64) : Readable (int n)
  | string (s : String) : Readable (string s)
  | place {path : String} (h : IsPath path) : Readable (place path)

theorem Readable.lexed {l : Lexeme} (h : l.Readable) : l.Lexed := by
  cases h with
  | single h => exact .single h
  | double h => exact .double h
  | ident h => exact .ident h
  | int n => exact .number (startsNumber_wordText n) (isNumeral_wordText n) (read_wordText n)
  | string s =>
      have htext : (Lexeme.string s).text.toList = s.toList.flatMap Json.escapeChar :=
        String.toList_ofList
      have hbody := stringBody_escaped s.toList
      have hdecode := decode_escaped s
      rw [← htext] at hbody hdecode
      exact .string hbody hdecode
  | place h => exact .place h

end Lexeme

namespace Cursor

theorem plain_of_mem_singleSymbols {x : Char} (hx : x ∈ singleSymbols) :
    x ∉ skipped ∧ x.isDigit = false ∧ isIdentStart x = false := by
  have hall : singleSymbols.all
      (fun x => decide (x ∉ skipped ∧ x.isDigit = false ∧ isIdentStart x = false)) = true := by
    decide
  exact of_decide_eq_true (List.all_eq_true.1 hall x hx)

theorem plain_of_mem_doubleSymbols {d : List Char} (hd : d ∈ doubleSymbols) :
    ∃ x y, d = [x, y] ∧ (x ∈ singleSymbols ∨ x = '|') ∧ (x ∉ skipped ∧ x.isDigit = false)
      ∧ (y ∉ skipped ∧ y.isDigit = false) := by
  have hlen : doubleSymbols.all (fun d => d.length = 2) = true := by decide
  have hhead : doubleSymbols.all
      (fun d => d.head?.all fun x => decide (x ∈ singleSymbols ∨ x = '|')) = true := by
    decide
  have hplain : doubleSymbols.all
      (fun d => d.all fun x => decide (x ∉ skipped ∧ x.isDigit = false)) = true := by
    decide
  obtain ⟨x, y, rfl⟩ := List.length_eq_two.1 (of_decide_eq_true (List.all_eq_true.1 hlen d hd))
  have hchars := List.all_eq_true.1 (List.all_eq_true.1 hplain [x, y] hd)
  have hfirst := of_decide_eq_true (List.all_eq_true.1 hhead [x, y] hd)
  exact ⟨x, y, rfl, hfirst, of_decide_eq_true (hchars x (by simp)),
    of_decide_eq_true (hchars y (by simp))⟩

/-- The token was read as the lexeme and its characters were consumed. -/
def Reads (c : Cursor) (l : Lexeme) (tail : List Char) : Prop :=
  ∃ t c', c.readToken = .ok (t, c') ∧ t.kind = l.kind ∧ t.text = l.text ∧ c'.rest = tail

/-- No symbol starts with the character. -/
theorem symbol?_eq_none {first : Char} (cs : List Char) (hfirst : first ∉ singleSymbols)
    (hbar : first ≠ '|') : symbol? (first :: cs) = none := by
  have hdouble : doubleSymbols.contains ((first :: cs).take 2) = false := by
    rw [List.contains_eq_mem, decide_eq_false_iff_not]
    intro hmem
    obtain ⟨x, y, hxy, hx, -⟩ := plain_of_mem_doubleSymbols hmem
    obtain rfl : first = x := (List.cons.inj hxy).1
    rcases hx with h | h
    · exact hfirst h
    · exact hbar h
  have hsingle : singleSymbols.contains first = false := by
    rw [List.contains_eq_mem, decide_eq_false_iff_not]
    exact hfirst
  simp only [symbol?, hdouble, hsingle]
  rfl

variable {c : Cursor} {tail : List Char} {first : Char} {cs : List Char}

theorem ne_nul_of_startsNumber (h : startsNumber (first :: cs) = true) : first ≠ nul := by
  rintro rfl
  rw [startsNumber_eq_false cs (by decide) (by decide)] at h
  cases h

theorem reads_number {text : String} (hstart : startsNumber text.toList = true)
    (hnumeral : IsNumeral text.toList) {result : JsonNumber × List Char}
    (hread : JsonNumber.read text.toList = .ok result) (htail : Parted tail)
    (hrest : c.rest = text.toList ++ tail) : c.Reads ⟨.number, text⟩ tail := by
  have hnumber : startsNumber c.rest = true := hrest ▸ startsNumber_append hstart tail
  have htaken : numberText c.rest = text.toList := by rw [hrest, numberText_append hnumeral htail]
  have hafter : (c.take .number text.toList).2.rest = tail := by
    simp only [take, hrest, List.drop_left]
  have hend : (c.take .number text.toList).2.rest.head?.any extendsNumber = false := by
    rw [hafter]
    cases tail with
    | nil => rfl
    | cons x tail => exact (not_starts_of_mem_skipped (htail x rfl)).2.1
  have htoken : c.readToken = .ok (c.take .number text.toList) := by
    cases hcs : c.rest with
    | nil =>
        rw [hcs] at hnumber
        cases hnumber
    | cons first cs =>
        have hnul := ne_nul_of_startsNumber (hcs ▸ hnumber)
        rw [readToken, hcs]
        simp only [if_neg hnul, ← hcs, hnumber, if_true, readNumber, htaken, hend, hread]
        rfl
  exact ⟨_, _, htoken, rfl, String.ofList_toList, hafter⟩

/-- A token that is neither a number nor a symbol. -/
theorem readToken_word (hrest : c.rest = first :: cs) (hnul : first ≠ nul) (hminus : first ≠ '-')
    (hdigit : first.isDigit = false) (hsymbol : first ∉ singleSymbols) (hbar : first ≠ '|') :
    c.readToken = if first = '"' then c.readString
      else if first = '\'' then c.readPlace
      else if isIdentStart first then .ok (c.take .ident (c.rest.takeWhile isIdentChar))
      else .error ⟨c.line, c.col, .strayCharacter⟩ := by
  rw [readToken, hrest]
  simp only [if_neg hnul, startsNumber_eq_false cs hminus hdigit, symbol?_eq_none cs hsymbol hbar,
    if_neg hbar]
  rfl

theorem reads_string {text : String} (hbody : StringBody text.toList) {value : String}
    (hdecode : JsonString.decode text.toList = .ok value)
    (hrest : c.rest = (Lexeme.mk .string text).written ++ tail) :
    c.Reads ⟨.string, text⟩ tail := by
  have hcons : c.rest = '"' :: (text.toList ++ '"' :: tail) := by
    rw [hrest]
    simp [Lexeme.written]
  have hread : c.readToken = c.readString := by
    rw [readToken_word hcons (by decide) (by decide) (by decide) (by decide) (by decide),
      if_pos rfl]
  simp only [readString, hcons, List.drop_succ_cons, List.drop_zero,
    stringInside_stringBody hbody, hdecode] at hread
  exact ⟨_, _, hread, rfl, String.ofList_toList, rfl⟩

theorem reads_place {path : String} (hpath : IsPath path)
    (hrest : c.rest = (Lexeme.place path).written ++ tail) : c.Reads (.place path) tail := by
  have hcons : c.rest = '\'' :: (path.toList ++ '\'' :: tail) := by
    rw [hrest]
    simp [Lexeme.written, Lexeme.place]
  have hread : c.readToken = c.readPlace := by
    rw [readToken_word hcons (by decide) (by decide) (by decide) (by decide) (by decide),
      if_neg (by decide), if_pos rfl]
  have htake : (path.toList ++ '\'' :: tail).takeWhile
      (fun x => x != '\'' && x != nul && x != '\n') = path.toList := by
    rw [List.takeWhile_append_of_pos fun x hx => ?_]
    · simp
    · have hx := hpath x hx
      simp [hx]
  simp only [readPlace, hcons, List.drop_succ_cons, List.drop_zero, htake, List.drop_left] at hread
  exact ⟨_, _, hread, rfl, String.ofList_toList, rfl⟩

/-- Letters and the underscore come after the digits. -/
theorem lt_toNat_of_isIdentStart {x : Char} (h : isIdentStart x = true) : '9'.toNat < x.toNat := by
  have hupper : x.isUpper = true → '9'.toNat < x.toNat := fun hx =>
    Nat.lt_of_lt_of_le (by decide) (UInt32.le_iff_toNat_le.1 (of_decide_eq_true hx).1)
  have hlower : x.isLower = true → '9'.toNat < x.toNat := fun hx =>
    Nat.lt_of_lt_of_le (by decide)
      (UInt32.le_iff_toNat_le.1 (of_decide_eq_true (Bool.and_eq_true_iff.1 hx).1))
  rcases Bool.or_eq_true_iff.1 h with halpha | hunderscore
  · exact (Bool.or_eq_true_iff.1 halpha).elim hupper hlower
  · obtain rfl := of_decide_eq_true hunderscore
    decide

theorem isDigit_of_isIdentStart {x : Char} (h : isIdentStart x = true) : x.isDigit = false := by
  have hlt := lt_toNat_of_isIdentStart h
  rw [Bool.eq_false_iff, Ne, Char.isDigit_iff_toNat]
  omega

theorem reads_ident {text : String} (htext : IsIdent text) (htail : Parted tail)
    (hrest : c.rest = text.toList ++ tail) : c.Reads (.ident text) tail := by
  obtain ⟨first, cs, hlist, hfirst, hall⟩ := htext
  have hcons : c.rest = first :: (cs ++ tail) := by rw [hrest, hlist, List.cons_append]
  have hother : ∀ x : Char, isIdentStart x = false → first ≠ x := by
    rintro x hx rfl
    rw [hfirst] at hx
    cases hx
  have hsymbol : first ∉ singleSymbols := fun hmem =>
    hother first (plain_of_mem_singleSymbols hmem).2.2 rfl
  have htake : c.rest.takeWhile isIdentChar = text.toList := by
    rw [hrest]
    refine takeWhile_append_of_head (fun x hx => ?_)
      fun x hx => isIdentChar_of_mem_skipped (htail x hx)
    rw [hlist] at hx
    rcases List.mem_cons.1 hx with rfl | hx
    · exact isIdentChar_of_isIdentStart hfirst
    · exact hall x hx
  have hread : c.readToken = .ok (c.take .ident text.toList) := by
    rw [readToken_word hcons (hother _ (by decide)) (hother _ (by decide))
      (isDigit_of_isIdentStart hfirst) hsymbol (hother _ (by decide)),
      if_neg (hother _ (by decide)), if_neg (hother _ (by decide)), if_pos hfirst, htake]
  refine ⟨_, _, hread, rfl, String.ofList_toList, ?_⟩
  simp [hrest]

theorem reads_symbol {taken : List Char} {text : String} (htext : text.toList = taken)
    (hrest : c.rest = taken ++ tail) (hhead : c.rest = first :: cs) (hnul : first ≠ nul)
    (hnumber : startsNumber c.rest = false) (hsymbol : symbol? c.rest = some taken) :
    c.Reads (.symbol text) tail := by
  have hread : c.readToken = .ok (c.take .symbol taken) := by
    rw [readToken, hhead]
    simp only [if_neg hnul, ← hhead, hnumber, hsymbol]
    rfl
  refine ⟨_, _, hread, rfl, ?_, ?_⟩
  · simp [Lexeme.symbol, ← htext]
  · simp [hrest]

theorem reads_single {text : String} (htext : text.toList ∈ singleSymbols.map ([·]))
    (htail : Parted tail) (hrest : c.rest = text.toList ++ tail) :
    c.Reads (.symbol text) tail := by
  obtain ⟨x, hx, hsingle⟩ := List.mem_map.1 htext
  rw [← hsingle] at hrest
  obtain ⟨hskip, hdigit, -⟩ := plain_of_mem_singleSymbols hx
  have hnumber : startsNumber c.rest = false := by
    rw [hrest]
    cases tail with
    | nil => exact startsNumber_singleton hdigit
    | cons y tail =>
        exact startsNumber_pair tail hdigit (not_starts_of_mem_skipped (htail y rfl)).2.2.1
  have hnotDouble : doubleSymbols.contains (c.rest.take 2) = false := by
    rw [List.contains_eq_mem, decide_eq_false_iff_not]
    intro hmem
    obtain ⟨x', y, hxy, -, -, hy, -⟩ := plain_of_mem_doubleSymbols hmem
    rw [hrest] at hxy
    cases tail with
    | nil => cases hxy
    | cons z tail =>
        obtain rfl : z = y := (List.cons.inj (List.cons.inj hxy).2).1
        exact hy (htail z rfl)
  have hsymbol : symbol? c.rest = some [x] := by
    rw [symbol?.eq_def, hnotDouble, hrest]
    simp [hx]
  exact reads_symbol hsingle.symm hrest hrest (ne_nul_of_not_mem_skipped hskip) hnumber hsymbol

theorem reads_double {text : String} (htext : text.toList ∈ doubleSymbols)
    (hrest : c.rest = text.toList ++ tail) : c.Reads (.symbol text) tail := by
  obtain ⟨x, y, hxy, -, hx, hy⟩ := plain_of_mem_doubleSymbols htext
  rw [hxy] at hrest htext
  have hsymbol : symbol? c.rest = some [x, y] := by
    rw [symbol?.eq_def, hrest]
    simp [htext]
  refine reads_symbol hxy hrest hrest (ne_nul_of_not_mem_skipped hx.1) ?_ hsymbol
  rw [hrest]
  exact startsNumber_pair tail hx.2 hy.2

/-- A lexeme is read from its written form. -/
theorem reads_lexed {l : Lexeme} (hl : l.Lexed) (htail : Parted tail)
    (hrest : c.rest = l.written ++ tail) : c.Reads l tail := by
  cases hl with
  | single h => exact reads_single h htail hrest
  | double h => exact reads_double h hrest
  | ident h => exact reads_ident h htail hrest
  | number hstart hnumeral hread => exact reads_number hstart hnumeral hread htail hrest
  | string hbody hdecode => exact reads_string hbody hdecode hrest
  | place h => exact reads_place h hrest

theorem lexed_kind {l : Lexeme} (hl : l.Lexed) : l.kind ≠ .eof := by
  cases hl <;> simp [Lexeme.symbol, Lexeme.ident, Lexeme.place]

/-- A written lexeme starts where skipping stops. -/
theorem written_eq_cons {l : Lexeme} (hl : l.Lexed) :
    ∃ first cs, l.written = first :: cs ∧ first ∉ skipped := by
  cases hl with
  | single h =>
      obtain ⟨x, hx, hsingle⟩ := List.mem_map.1 h
      exact ⟨x, [], hsingle.symm, (plain_of_mem_singleSymbols hx).1⟩
  | double h =>
      obtain ⟨x, y, hxy, -, hx, -⟩ := plain_of_mem_doubleSymbols h
      exact ⟨x, [y], hxy, hx.1⟩
  | ident h =>
      obtain ⟨first, cs, hlist, hfirst, -⟩ := h
      refine ⟨first, cs, hlist, fun hmem => ?_⟩
      rw [(not_starts_of_mem_skipped hmem).1] at hfirst
      cases hfirst
  | number hstart _ _ =>
      obtain ⟨d, ds, hd, hcs | hcs⟩ := startsNumber_iff.1 hstart
      · refine ⟨d, ds, hcs, fun hmem => ?_⟩
        rw [(not_starts_of_mem_skipped hmem).2.2.1] at hd
        cases hd
      · exact ⟨'-', d :: ds, hcs, by decide⟩
  | string _ _ => exact ⟨'"', _, rfl, by decide⟩
  | place _ => exact ⟨'\'', _, rfl, by decide⟩

end Cursor

end AccessRules
