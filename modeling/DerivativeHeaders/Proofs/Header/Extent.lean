import DerivativeHeaders.Proofs.Header.Partition
import DerivativeHeaders.Proofs.Header.Read
import DerivativeHeaders.Proofs.Header.Reading
import DerivativeHeaders.Proofs.Token.Strays

/-! # Where a prototype stands

The prototype of a block reaches from the first line that starts with `void` to the first one that
ends in `);`. Each line between the parentheses has at most one field on it, with blanks around it
and perhaps a comma. A block is read as the prototype that stands in it, and there is only one.
-/
namespace DerivativeHeaders

open Outcome Lexeme Text

namespace Field

variable {line text front x back : List Char} {field? field?' : Option Field}

/-- A text that may be written for the field, or no text if there is no field. -/
def IsTextOf (text : List Char) : Option Field → Prop
  | none => text = []
  | some field => ∃ written, field.IsWritten written ∧ SameTokens text written.toList

/-- The line has the text of a field on it, or nothing, and perhaps a comma, between blanks. -/
def StandsOn (line : List Char) (field? : Option Field) : Prop :=
  ∃ front text gap comma back, line = front ++ (text ++ (gap ++ (comma ++ back))) ∧
    IsTextOf text field? ∧ (comma = [] ∨ comma = [',']) ∧ (∀ c ∈ front, isBlank c) ∧
      (∀ c ∈ gap, isBlank c) ∧ ∀ c ∈ back, isBlank c

def tokens? (field? : Option Field) : List Token := field?.elim [] tokens

theorem IsTextOf.lexes (h : IsTextOf text field?) : Lexes text (tokens? field?) := by
  cases field? with
  | none =>
    obtain rfl : text = [] := h
    exact Lexes.nil
  | some field =>
    obtain ⟨written, hwritten, hsame⟩ := h
    exact hwritten.lexes.sameTokens_iff.mp hsame

theorem comma_notMem_tokens? (field? : Option Field) : .mark .comma ∉ tokens? field? := by
  cases field? with
  | none => exact List.not_mem_nil
  | some field =>
    cases field with
    | input x =>
      cases hpassing : Passing.ofName x.type <;> simp [tokens?, tokens, hpassing, Passing.tokens]
    | output type name => simp [tokens?, tokens]
    | constant name x => simp [tokens?, tokens]

theorem tokens?_injective (h : tokens? field? = tokens? field?') : field? = field?' := by
  have hcons (field : Field) : tokens field ≠ [] := by
    cases field with
    | input x =>
      rw [tokens]
      cases Passing.ofName x.type <;> exact List.cons_ne_nil _ _
    | output type name => exact List.cons_ne_nil _ _
    | constant name x => exact List.cons_ne_nil _ _
  cases field? with
  | none =>
    cases field?' with
    | none => rfl
    | some field' => exact absurd h.symm (hcons field')
  | some field =>
    cases field?' with
    | none => exact absurd h (hcons field)
    | some field' => exact congrArg some (tokens_injective h)

theorem breaks_ending {gap comma back : List Char} (hgap : ∀ c ∈ gap, isBlank c)
    (hcomma : comma = [] ∨ comma = [',']) (hback : ∀ c ∈ back, isBlank c) :
    Breaks (gap ++ (comma ++ back)) := by
  intro c hc
  rcases List.mem_append.mp (List.mem_of_head? hc) with hc | hc
  · exact isBreak_of_isBlank (hgap c hc)
  · rcases List.mem_append.mp hc with hc | hc
    · rcases hcomma with rfl | rfl
      · cases hc
      · obtain rfl := List.mem_singleton.mp hc
        rfl
    · exact isBreak_of_isBlank (hback c hc)

/-- The tokens of a line are those of its field, and perhaps a comma. -/
theorem StandsOn.tokensOf (h : StandsOn line field?) : ∃ comma,
    (tokensOf line).map Located.value = tokens? field? ++ comma ∧
      ∀ t ∈ comma.head?, t = .mark .comma := by
  obtain ⟨front, text, gap, comma, back, rfl, htext, hcomma, hfront, hgap, hback⟩ := h
  have htokens := htext.lexes.tokensOf
  rw [map_value_tokensOf] at htokens
  refine ⟨(lexemesOf comma).filterMap token?, ?_, ?_⟩
  · rw [map_value_tokensOf, lexemesOf_blank_append hfront,
      lexemesOf_append (breaks_ending hgap hcomma hback), lexemesOf_blank_append hgap,
      lexemesOf_append (breaks_of_blank hback)]
    simp only [List.filterMap_append, tokens_of_blank hfront, tokens_of_blank hgap,
      tokens_of_blank hback, htokens, List.nil_append, List.append_nil]
  · have hnone : Lexes [] [] := Lexes.nil
    have hone : Lexes [','] [.mark .comma] := Lexes.cons rfl rfl Lexes.nil
    intro t ht
    rcases hcomma with rfl | rfl
    · rw [lexemesOf, hnone] at ht
      cases ht
    · rw [lexemesOf, hone] at ht
      exact (Option.some.inj ht).symm

theorem StandsOn.unique (h : StandsOn line field?) (h' : StandsOn line field?') :
    field? = field?' := by
  obtain ⟨comma, htokens, hcomma⟩ := h.tokensOf
  obtain ⟨comma', htokens', hcomma'⟩ := h'.tokensOf
  have hplain (field? : Option Field) : ∀ t ∈ tokens? field?, ¬ t = .mark .comma := by
    rintro t ht rfl
    exact comma_notMem_tokens? field? ht
  exact tokens?_injective
    (span_unique (hplain field?) (hplain field?') hcomma hcomma' (htokens.symm.trans htokens')).1

theorem StandsOn.straysBlank (h : StandsOn line field?) : StraysBlank line := by
  obtain ⟨front, text, gap, comma, back, rfl, htext, hcomma, hfront, hgap, hback⟩ := h
  have hstrays : StraysBlank comma := by
    rcases hcomma with rfl | rfl <;> exact .of_straysOf rfl
  exact .blank_append hfront (.of_append (lexemesOf_append (breaks_ending hgap hcomma hback))
    (.of_straysOf htext.lexes.straysOf) (.blank_append hgap (hstrays.append_blank hback)))

/-- What the end of a line is trimmed to is the text of its field. -/
theorem standsOn_of_trimEnd (hfront : ∀ c ∈ front, isBlank c) (hback : ∀ c ∈ back, isBlank c)
    (h : IsTextOf (trimEnd (dropEnd ',' x)) field?) : StandsOn (front ++ (x ++ back)) field? := by
  obtain ⟨comma, hx, hcomma⟩ := exists_dropEnd ',' x
  obtain ⟨gap, hgap, htext⟩ := exists_trimEnd (dropEnd ',' x)
  refine ⟨front, _, gap, comma, back, ?_, h, hcomma, hfront, hgap, hback⟩
  conv_lhs => rw [hx, htext]
  simp only [List.append_assoc]

end Field

namespace Prototype

/-- The lines with a text in front of the first one and a text behind the last one. -/
def enclose (start stop : List Char) : List (List Char) → List (List Char)
  | [] => []
  | [line] => [start ++ (line ++ stop)]
  | line :: next :: lines => (start ++ line) :: enclose [] stop (next :: lines)

/-- Where the prototype of a block stands: from the first line that starts with `void` to the first
one that ends in `);`, cut at the parentheses around its fields. -/
structure Extent (b : Block) (function : String) where
  before : List (List Char)
  opening : List Char
  inner : List (List Char)
  closing : List Char
  after : List (List Char)
  body : b.body.map Line.text =
    before ++ (enclose (opening ++ ['(']) (')' :: closing) inner ++ after)
  before_plain : ∀ line ∈ before, startsPrototype line = false
  tokens_opening : (tokensOf opening).map Located.value = [.keyword .void, .word function]
  inner_ne_nil : inner ≠ []
  inner_open : ∀ text ∈ inner.dropLast, closing? text = none
  tokens_closing : (tokensOf closing).map Located.value = [.mark .semicolon]

def Extent.lines {b : Block} {function : String} (e : Extent b function) : List (List Char) :=
  enclose (e.opening ++ ['(']) (')' :: e.closing) e.inner

/-- The fields that stand on lines, each with the number of its line. -/
def numbered (numbers : List Nat) (fields : List (Option Field)) : List (Nat × Field) :=
  (numbers.zip fields).filterMap fun x => x.2.map (x.1, ·)

/-- The prototype is what stands in the block. -/
def IsWrittenIn (p : Prototype) (b : Block) : Prop :=
  ∃ (e : Extent b p.function) (fields : List (Option Field)),
    List.Forall₂ Field.StandsOn e.inner fields ∧
    p.fields = numbered ((b.body.drop e.before.length).map Line.number) fields

variable {text start closing closing' opening opening' : List Char}
  {inner inner' after after' : List (List Char)}
  {function function' : String} {b : Block} {p p' : Prototype}

theorem numbered_cons (number : Nat) (numbers : List Nat) (field? : Option Field)
    (fields : List (Option Field)) :
    numbered (number :: numbers) (field? :: fields) = (field?.map (number, ·)).toList ++
      numbered numbers fields := by
  cases field? <;> rfl

theorem numbered_nil (numbers : List Nat) : numbered numbers [] = [] := by
  rw [numbered, List.zip_nil_right, List.filterMap_nil]

theorem enclose_cons (start stop line : List Char) (lines : List (List Char)) :
    ∃ first rest, enclose [] stop (line :: lines) = first :: rest ∧
      enclose start stop (line :: lines) = (start ++ first) :: rest := by
  cases lines with
  | nil => exact ⟨line ++ stop, [], rfl, rfl⟩
  | cons next lines => exact ⟨line, _, rfl, rfl⟩

theorem closing?_isSome_iff : (closing? text).isSome ↔
    ∃ ts, (tokensOf text).map Located.value = ts ++ [.mark .rightParen, .mark .semicolon] := by
  rw [closing?]
  constructor
  · intro h
    split at h
    · rename_i semicolon paren more heq
      refine ⟨more.reverse.map Located.value, ?_⟩
      rw [List.reverse_eq_iff.mp heq]
      simp
    · cases h
  · rintro ⟨ts, hts⟩
    obtain ⟨more, rest, heq, -, hrest⟩ := List.map_eq_append_iff.mp hts
    obtain ⟨paren, rest, rfl, hparen, hrest⟩ := List.map_eq_cons_iff.mp hrest
    obtain ⟨semicolon, rest, rfl, hsemicolon, hrest⟩ := List.map_eq_cons_iff.mp hrest
    obtain rfl := List.map_eq_nil_iff.mp hrest
    obtain ⟨_, parenSpan⟩ := paren
    obtain ⟨_, semicolonSpan⟩ := semicolon
    cases hparen
    cases hsemicolon
    rw [heq]
    simp

theorem closing?_isSome_trim (text : List Char) :
    (closing? (trim text)).isSome ↔ (closing? text).isSome := by
  rw [closing?_isSome_iff, closing?_isSome_iff, map_value_tokensOf_trim]

theorem startsPrototype_trim (text : List Char) :
    startsPrototype (trim text) = startsPrototype text := by
  rw [startsPrototype, startsPrototype, ← List.head?_map, ← List.head?_map, map_value_tokensOf_trim]

/-- The lexemes before and behind a mark of one character. -/
theorem lexemesOf_mark {c : Char} {m : Mark} (hgap : isGap c = false) (hbreak : isBreak c)
    (hnext : ∀ cs, next c cs = (.token (.mark m), 0)) (a cs : List Char) :
    lexemesOf (a ++ c :: cs) = lexemesOf a ++ .token (.mark m) :: lexemesOf cs := by
  have hcons : lexemesOf (c :: cs) = [.token (.mark m)] ++ lexemesOf cs := by
    refine lexemesOf_cons ?_
    rw [hgap]
    exact ⟨_, hnext cs, rfl⟩
  rw [lexemesOf_append (breaks_cons hbreak), hcons]
  rfl

theorem lexemesOf_leftParen (a cs : List Char) :
    lexemesOf (a ++ '(' :: cs) = lexemesOf a ++ .token (.mark .leftParen) :: lexemesOf cs :=
  lexemesOf_mark rfl rfl (fun _ => rfl) a cs

theorem lexemesOf_rightParen (a cs : List Char) :
    lexemesOf (a ++ ')' :: cs) = lexemesOf a ++ .token (.mark .rightParen) :: lexemesOf cs :=
  lexemesOf_mark rfl rfl (fun _ => rfl) a cs

theorem tokens_leftParen (a cs : List Char) : (tokensOf (a ++ '(' :: cs)).map Located.value =
    (tokensOf a).map Located.value ++ .mark .leftParen :: (tokensOf cs).map Located.value := by
  simp only [map_value_tokensOf, lexemesOf_leftParen, List.filterMap_append]
  rfl

theorem tokens_rightParen (a cs : List Char) : (tokensOf (a ++ ')' :: cs)).map Located.value =
    (tokensOf a).map Located.value ++ .mark .rightParen :: (tokensOf cs).map Located.value := by
  simp only [map_value_tokensOf, lexemesOf_rightParen, List.filterMap_append]
  rfl

section Unique

theorem startsPrototype_of_tokens
    (h : (tokensOf opening).map Located.value = [.keyword .void, .word function])
    (rest : List Char) : startsPrototype (opening ++ '(' :: rest) := by
  rw [startsPrototype, ← List.head?_map, tokens_leftParen, h]
  rfl

theorem isSome_closing? (h : (tokensOf closing).map Located.value = [.mark .semicolon])
    (line : List Char) :
    (closing? (line ++ ')' :: closing)).isSome := by
  rw [closing?_isSome_iff, tokens_rightParen, h]
  exact ⟨_, rfl⟩

/-- The text of an opening ends at the first parenthesis. -/
theorem opening_unique {rest rest' : List Char}
    (h : (tokensOf opening).map Located.value = [.keyword .void, .word function])
    (h' : (tokensOf opening').map Located.value = [.keyword .void, .word function'])
    (heq : opening ++ '(' :: rest = opening' ++ '(' :: rest') :
    opening = opening' ∧ rest = rest' := by
  have hnot {opening : List Char} {function : String}
      (h : (tokensOf opening).map Located.value = [.keyword .void, .word function]) :
      ∀ c ∈ opening, ¬ c = '(' := by
    rintro c hc rfl
    obtain ⟨a, cs, rfl⟩ := List.append_of_mem hc
    have hmem : Token.mark .leftParen ∈ [Token.keyword .void, .word function] := by
      rw [← h, tokens_leftParen]
      exact List.mem_append_right _ List.mem_cons_self
    simp at hmem
  obtain ⟨rfl, hrest⟩ :=
    span_unique (hnot h) (hnot h') (starts_cons _ _ rfl) (starts_cons _ _ rfl) heq
  exact ⟨rfl, (List.cons.inj hrest).2⟩

/-- The text of a closing starts at the last parenthesis. -/
theorem closing_unique {line line' : List Char}
    (h : (tokensOf closing).map Located.value = [.mark .semicolon])
    (h' : (tokensOf closing').map Located.value = [.mark .semicolon])
    (heq : line ++ ')' :: closing = line' ++ ')' :: closing') : line = line' := by
  have hnot {closing : List Char} (h : (tokensOf closing).map Located.value = [.mark .semicolon]) :
      ∀ c ∈ closing.reverse, ¬ c = ')' := by
    rintro c hc rfl
    obtain ⟨a, cs, rfl⟩ := List.append_of_mem (List.mem_reverse.mp hc)
    have hmem : Token.mark .rightParen ∈ [Token.mark .semicolon] := by
      rw [← h, tokens_rightParen]
      exact List.mem_append_right _ List.mem_cons_self
    simp at hmem
  have heq := congrArg List.reverse heq
  simp only [List.reverse_append, List.reverse_cons, List.append_assoc,
    List.singleton_append] at heq
  obtain ⟨-, hrest⟩ :=
    span_unique (hnot h) (hnot h') (starts_cons _ _ rfl) (starts_cons _ _ rfl) heq
  exact List.reverse_inj.mp (List.cons.inj hrest).2

/-- Lines reach to the first one that closes the prototype. -/
theorem inner_unique (hne : inner ≠ []) (hne' : inner' ≠ [])
    (hopen : ∀ t ∈ inner.dropLast, closing? t = none)
    (hopen' : ∀ t ∈ inner'.dropLast, closing? t = none)
    (h : (tokensOf closing).map Located.value = [.mark .semicolon])
    (h' : (tokensOf closing').map Located.value = [.mark .semicolon])
    (heq : enclose [] (')' :: closing) inner ++ after =
      enclose [] (')' :: closing') inner' ++ after') :
    inner = inner' := by
  have hclosed {closing line : List Char}
      (h : (tokensOf closing).map Located.value = [.mark .semicolon])
      (hline : closing? (line ++ ')' :: closing) = none) : False := by
    have hsome := isSome_closing? h line
    rw [hline] at hsome
    cases hsome
  induction inner generalizing inner' with
  | nil => exact absurd rfl hne
  | cons line lines ih =>
    obtain ⟨line', lines', rfl⟩ := List.exists_cons_of_ne_nil hne'
    cases lines with
    | nil =>
      cases lines' with
      | nil => rw [closing_unique h h' (List.cons.inj heq).1]
      | cons next' lines' =>
        have hline : line ++ ')' :: closing = line' := (List.cons.inj heq).1
        exact (hclosed h (hline ▸ hopen' line' List.mem_cons_self)).elim
    | cons next lines =>
      cases lines' with
      | nil =>
        have hline : line = line' ++ ')' :: closing' := (List.cons.inj heq).1
        exact (hclosed h' (hline ▸ hopen line List.mem_cons_self)).elim
      | cons next' lines' =>
        obtain ⟨hline, hlines⟩ := List.cons.inj heq
        obtain rfl : line = line' := hline
        rw [ih (List.cons_ne_nil _ _) (List.cons_ne_nil _ _)
          (fun t ht => hopen t (List.mem_cons_of_mem _ ht))
          (fun t ht => hopen' t (List.mem_cons_of_mem _ ht)) hlines]

/-- A prototype stands in one place of a block. -/
theorem Extent.unique (e : Extent b function) (e' : Extent b function') :
    e.before = e'.before ∧ e.inner = e'.inner ∧ function = function' := by
  have hstarts {function : String} (e : Extent b function) : ∃ first rest,
      enclose [] (')' :: e.closing) e.inner = first :: rest ∧
        b.body.map Line.text = e.before ++ ((e.opening ++ '(' :: first) :: rest ++ e.after) := by
    obtain ⟨line, lines, hinner⟩ := List.exists_cons_of_ne_nil e.inner_ne_nil
    obtain ⟨first, rest, hnil, hcons⟩ :=
      enclose_cons (e.opening ++ ['(']) (')' :: e.closing) line lines
    refine ⟨first, rest, hinner ▸ hnil, ?_⟩
    rw [e.body, hinner, hcons, List.append_assoc e.opening]
    rfl
  have hplain {function : String} (e : Extent b function) :
      ∀ line ∈ e.before, ¬ startsPrototype line :=
    fun line hline => Bool.eq_false_iff.mp (e.before_plain line hline)
  obtain ⟨first, rest, hlines, hbody⟩ := hstarts e
  obtain ⟨first', rest', hlines', hbody'⟩ := hstarts e'
  obtain ⟨hbefore, hrest⟩ := span_unique (hplain e) (hplain e')
    (starts_cons _ _ (startsPrototype_of_tokens e.tokens_opening first))
    (starts_cons _ _ (startsPrototype_of_tokens e'.tokens_opening first')) (hbody.symm.trans hbody')
  obtain ⟨hfirst, hrest⟩ := List.cons.inj hrest
  obtain ⟨hopening, hfirst⟩ := opening_unique e.tokens_opening e'.tokens_opening hfirst
  have hafter : enclose [] (')' :: e.closing) e.inner ++ e.after =
      enclose [] (')' :: e'.closing) e'.inner ++ e'.after := by
    rw [hlines, hlines', hfirst]
    exact congrArg (first' :: ·) hrest
  refine ⟨hbefore, inner_unique e.inner_ne_nil e'.inner_ne_nil e.inner_open e'.inner_open
    e.tokens_closing e'.tokens_closing hafter, ?_⟩
  have htokens := e.tokens_opening
  rw [hopening, e'.tokens_opening] at htokens
  cases htokens
  rfl

/-- One prototype stands in a block. -/
theorem IsWrittenIn.unique (h : p.IsWrittenIn b) (h' : p'.IsWrittenIn b) : p = p' := by
  obtain ⟨e, fields, hfields, hp⟩ := h
  obtain ⟨e', fields', hfields', hp'⟩ := h'
  obtain ⟨hbefore, hinner, hfunction⟩ := e.unique e'
  rw [← hinner] at hfields'
  obtain rfl : fields = fields' :=
    List.right_unique_forall₂' (fun _ _ _ hx hx' => hx.unique hx') hfields hfields'
  rw [← hbefore, ← hp] at hp'
  obtain ⟨_, _⟩ := p
  obtain ⟨_, _⟩ := p'
  cases hfunction
  cases hp'
  rfl

end Unique

section Reading

/-- The line that closes the prototype is cut at the parenthesis, and its field stands before
that. -/
theorem exists_cut_of_closing (h : (closing? (trim text)).isSome) : ∃ front x back closing,
    text = front ++ (x ++ back) ++ ')' :: closing ∧ fieldText (trim text) =
      trimEnd (dropEnd ',' x) ∧ (∀ c ∈ front, isBlank c) ∧ (∀ c ∈ back, isBlank c) ∧
        (tokensOf closing).map Located.value = [.mark .semicolon] := by
  obtain ⟨front, back, hfront, hback, heq⟩ := exists_trim text
  obtain ⟨paren, hparen⟩ := Option.isSome_iff_exists.mp h
  have hfield : fieldText (trim text) =
      trimEnd (dropEnd ',' (trimEnd (takeBytes paren.start (trim text)))) := by
    rw [fieldText, hparen]
  rw [closing?] at hparen
  split at hparen
  · rename_i semicolon paren' more htokens
    cases hparen
    have htokens : tokensOf (trim text) =
        more.reverse ++ ⟨.mark .rightParen, paren⟩ :: [⟨.mark .semicolon, semicolon⟩] := by
      rw [List.reverse_eq_iff.mp htokens]
      simp
    obtain ⟨a, c, hcut, hstart, -, -, hafter⟩ := exists_cut (d := ')') rfl rfl htokens
    rw [hstart, hcut, takeBytes_append, ← hcut] at hfield
    obtain ⟨blanks, hblanks, ha⟩ := exists_trimEnd a
    refine ⟨front, trimEnd a, blanks, c ++ back, ?_, hfield, hfront, hblanks, ?_⟩
    · rw [← ha]
      conv_lhs => rw [heq, hcut]
      simp only [List.append_assoc, List.cons_append]
    · rw [← List.nil_append (c ++ back),
        map_value_tokensOf_blank (List.forall_mem_nil _) hback, hafter]
      rfl
  · cases hparen

/-- The field of a line is read from its text, if there is any. -/
theorem exists_isTextOf {number : Nat} {xs : List (Nat × Field)}
    (h : (if text.isEmpty then [] else [Line.mk number text]).mapM
      (fun l => (l.number, ·) <$> Field.ofText l.number l.text) = .ok xs) :
    ∃ field?, Field.IsTextOf text field? ∧ xs = (field?.map (number, ·)).toList := by
  split at h
  · rename_i hempty
    cases h
    exact ⟨none, List.isEmpty_iff.mp hempty, rfl⟩
  · obtain ⟨x, hx, hxs⟩ := List.forall₂_cons_left_iff.mp (mapM_eq_ok_iff.mp h)
    obtain ⟨hx, hnil, rfl⟩ := hxs
    cases hnil
    obtain ⟨field, hfield, rfl⟩ := map_eq_ok.mp hx
    exact ⟨some field, Field.ofText_eq_ok_iff_isWritten.mp hfield, rfl⟩

/-- Lines that are read as fields reach to the line that closes the prototype. -/
theorem exists_enclosed {ls lines : List Line} {xs : List (Nat × Field)}
    (h : fieldLines? (ls.map Line.trimmed) = some lines)
    (hlines : lines.mapM (fun l => (l.number, ·) <$> Field.ofText l.number l.text) = .ok xs) :
    ∃ inner fields closing after, inner ≠ [] ∧
      ls.map Line.text = enclose [] (')' :: closing) inner ++ after ∧
      List.Forall₂ Field.StandsOn inner fields ∧ xs = numbered (ls.map Line.number) fields ∧
      (∀ t ∈ inner.dropLast, closing? t = none) ∧
      (tokensOf closing).map Located.value = [.mark .semicolon] := by
  induction ls generalizing lines xs with
  | nil => cases h
  | cons l ls ih =>
    rw [List.map_cons, fieldLines?, Line.trimmed_text, Line.trimmed_number] at h
    by_cases hclosed : (closing? (trim l.text)).isSome
    · rw [if_pos hclosed] at h
      cases h
      obtain ⟨field?, hfield, rfl⟩ := exists_isTextOf hlines
      obtain ⟨front, x, back, closing, heq, htext, hfront, hback, htokens⟩ :=
        exists_cut_of_closing hclosed
      rw [htext] at hfield
      refine ⟨[front ++ (x ++ back)], [field?], closing, ls.map Line.text, List.cons_ne_nil _ _, ?_,
        .cons (Field.standsOn_of_trimEnd hfront hback hfield) .nil, ?_,
        List.forall_mem_nil _, htokens⟩
      · rw [List.map_cons, heq]
        rfl
      · rw [List.map_cons, numbered_cons, numbered_nil, List.append_nil]
    · rw [if_neg hclosed] at h
      obtain ⟨rest, hrest, rfl⟩ := Option.map_eq_some_iff.mp h
      rw [List.mapM_append] at hlines
      obtain ⟨here, hhere, hlines⟩ := bind_eq_ok.mp hlines
      obtain ⟨more, hmore, hxs⟩ := bind_eq_ok.mp hlines
      obtain rfl := pure_eq_ok.mp hxs
      obtain ⟨field?, hfield, rfl⟩ := exists_isTextOf hhere
      obtain ⟨inner, fields, closing, after, hne, heq, hfields, rfl, hopen, htokens⟩ :=
        ih hrest hmore
      obtain ⟨first, others, rfl⟩ := List.exists_cons_of_ne_nil hne
      have hnone := Option.not_isSome_iff_eq_none.mp hclosed
      obtain ⟨front, back, hfront, hback, htrim⟩ := exists_trim l.text
      rw [fieldText, hnone] at hfield
      refine ⟨l.text :: first :: others, field? :: fields, closing, after, List.cons_ne_nil _ _,
        ?_, .cons ?_ hfields, ?_, ?_, htokens⟩
      · rw [List.map_cons, heq]
        rfl
      · rw [htrim]
        exact Field.standsOn_of_trimEnd hfront hback hfield
      · rw [List.map_cons, numbered_cons]
      · rw [closing?_isSome_trim] at hclosed
        exact List.forall_mem_cons.mpr ⟨Option.not_isSome_iff_eq_none.mp hclosed, hopen⟩

/-- The opening line is cut at its parenthesis. -/
theorem exists_cut_of_readOpening {l : Line} {rest : List Char}
    (h : readOpening l = .ok (function, rest)) :
    ∃ opening first, l.text = opening ++ '(' :: first ∧ rest = trim first ∧
      (tokensOf opening).map Located.value = [.keyword .void, .word function] := by
  rw [readOpening] at h
  split at h
  · rename_i void name word paren more htokens
    cases h
    have hcut : tokensOf l.text = [⟨.keyword .void, void⟩, ⟨.word function, word⟩] ++
        ⟨.mark .leftParen, paren⟩ :: more :=
      htokens
    obtain ⟨opening, first, heq, -, hstop, hopening, -⟩ := exists_cut (d := '(') rfl rfl hcut
    refine ⟨opening, first, heq, ?_, ?_⟩
    · have hparen : opening ++ '(' :: first = opening ++ ['('] ++ first := by simp
      rw [heq, hstop, hparen, dropBytes_append]
    · rw [hopening]
      rfl
  · cases h

theorem exists_extent_of_ofLines {first : Line} {rest : List Line}
    (h : ofLines first.trimmed (rest.map Line.trimmed) = .ok p) :
    ∃ opening inner fields closing after, inner ≠ [] ∧
      (first :: rest).map Line.text = enclose (opening ++ ['(']) (')' :: closing) inner ++ after ∧
      (tokensOf opening).map Located.value = [.keyword .void, .word p.function] ∧
      List.Forall₂ Field.StandsOn inner fields ∧
      p.fields = numbered ((first :: rest).map Line.number) fields ∧
      (∀ t ∈ inner.dropLast, closing? t = none) ∧
      (tokensOf closing).map Located.value = [.mark .semicolon] := by
  obtain ⟨text, lines, hopening, hlines, hread⟩ := ofLines_eq_ok_iff.mp h
  obtain ⟨opening, start, heq, rfl, htokens⟩ := exists_cut_of_readOpening hopening
  obtain ⟨front, back, hfront, hback, hfirst⟩ := exists_trim first.text
  rw [Line.trimmed_text] at heq
  -- The blanks behind the opening line stand behind its first field as well.
  have htrim : ⟨first.trimmed.number, trim start⟩ :: rest.map Line.trimmed =
      (⟨first.number, start ++ back⟩ :: rest).map Line.trimmed := by
    rw [← trim_append_blank start hback]
    rfl
  rw [htrim] at hlines
  obtain ⟨inner, fields, closing, after, hne, htexts, hfields, hp, hopen, hclosing⟩ :=
    exists_enclosed hlines hread
  refine ⟨front ++ opening, inner, fields, closing, after, hne, ?_, ?_, hfields, hp,
    hopen, hclosing⟩
  · obtain ⟨line, lines, rfl⟩ := List.exists_cons_of_ne_nil hne
    obtain ⟨first', rest', hnil, hcons⟩ :=
      enclose_cons (front ++ opening ++ ['(']) (')' :: closing) line lines
    rw [hnil, List.map_cons, List.cons_append] at htexts
    obtain ⟨hstart, hrest⟩ := List.cons.inj htexts
    rw [hcons, List.map_cons, List.cons_append, hrest, hfirst, heq, ← hstart]
    simp only [List.append_assoc, List.cons_append, List.nil_append]
  · rw [← htokens, ← map_value_tokensOf_blank hfront (List.forall_mem_nil _) opening,
      List.append_nil]

theorem exists_of_ofBlock (h : ofBlock b = .ok p) :
    ∃ before first rest, b.body = before ++ first :: rest ∧
      (∀ l ∈ before, startsPrototype l.text = false) ∧
      ofLines first.trimmed (rest.map Line.trimmed) = .ok p := by
  have hdrop : ((b.body.map Line.trimmed).dropWhile fun l => !startsPrototype l.text) =
      (b.body.dropWhile fun l => !startsPrototype l.text).map Line.trimmed := by
    rw [List.dropWhile_map]
    congr 2
    funext l
    exact congrArg _ (startsPrototype_trim l.text)
  obtain ⟨first, rest, hlines, h⟩ := ofBlock_eq_ok_iff.mp h
  obtain ⟨first, rest, hdropped, rfl, rfl⟩ := List.map_eq_cons_iff.mp (hdrop.symm.trans hlines)
  have hbody :=
    List.takeWhile_append_dropWhile (p := fun l : Line => !startsPrototype l.text) (l := b.body)
  rw [hdropped] at hbody
  refine ⟨_, first, rest, hbody.symm, fun l hl => ?_, h⟩
  simpa using List.mem_takeWhile_imp hl

/-- A block is read as what stands in it. -/
theorem isWrittenIn_of_ofBlock (h : ofBlock b = .ok p) : p.IsWrittenIn b := by
  obtain ⟨before, first, rest, hbody, hbefore, h⟩ := exists_of_ofBlock h
  obtain ⟨opening, inner, fields, closing, after, hne, htexts, hopening, hfields, hp,
      hopen, hclosing⟩ :=
    exists_extent_of_ofLines h
  have hdrop : b.body.drop (before.map Line.text).length = first :: rest := by
    rw [hbody, List.length_map, List.drop_left]
  refine ⟨⟨before.map Line.text, opening, inner, closing, after, ?_, ?_, hopening, hne, hopen,
    hclosing⟩, fields, hfields, ?_⟩
  · rw [← htexts, hbody, List.map_append]
  · exact List.forall_mem_map.mpr hbefore
  · exact hp.trans (congrArg (fun ls => numbered (ls.map Line.number) fields) hdrop.symm)

end Reading

end Prototype

end DerivativeHeaders
