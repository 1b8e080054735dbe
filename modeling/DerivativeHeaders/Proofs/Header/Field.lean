import DerivativeHeaders.Header.Prototype
import DerivativeHeaders.Proofs.Identifier
import DerivativeHeaders.Proofs.Number.Printed
import DerivativeHeaders.Proofs.Number.Written
import DerivativeHeaders.Proofs.Token.Lexes

/-! # Fields read back

The text of every slot that a header writes, an input, an output or a remark, is read as the
field it was written for. Such a text stays whole when a line is cut down to its field.
-/
namespace DerivativeHeaders

open Text

theorem Spells.oneLine {cs : List Char} {negative : Bool} {d : Decimal} (h : Spells cs negative d) :
    OneLine cs := by
  have hdigits : ∀ {digits : List Char}, AllDigits digits → OneLine digits :=
    fun h => oneLine_of_forall h (by decide) (by decide)
  obtain ⟨n, ⟨hwhole, -, hfraction, hexponent⟩, rfl, -, -⟩ := h
  rw [Numeral.spelling_eq]
  simp only [oneLine_append]
  refine ⟨?_, hdigits hwhole, ?_, ?_⟩
  · split <;> simp
  · rw [Numeral.fractionSpelling]
    split
    · simp
    · simpa using hdigits hfraction
  · cases hx : n.exponent with
    | none => simp [Numeral.exponentSpelling]
    | some x =>
      obtain ⟨hmark, hexp, -⟩ := hexponent x hx
      have hsign : OneLine (x.sign.map Sign.char).toList := by
        cases x.sign with
        | none => simp
        | some sign => cases sign <;> simp [Sign.char]
      simp only [Numeral.exponentSpelling, Option.map_some, Option.getD_some, ExponentPart.spelling,
        oneLine_append, oneLine_cons, hdigits hexp, hsign, and_true]
      rcases hmark with hmark | hmark <;> rw [hmark] <;> decide

namespace Prototype

theorem closing?_eq_none {text : List Char} {ts : List Token} (h : Lexes text ts)
    (hlast : ts.getLast? ≠ some (.mark .semicolon)) : closing? text = none := by
  have htokens := h.tokensOf
  simp only [closing?]
  split
  · rename_i paren rest heq
    rw [List.reverse_eq_iff] at heq
    rw [heq] at htokens
    exact absurd (by rw [← htokens]; simp) hlast
  · rfl

theorem scan_closing (offset : Nat) : Lexeme.scanFrom offset 0 [')', ';'] =
    [⟨.token (.mark .rightParen), ⟨offset, offset + 1⟩⟩,
      ⟨.token (.mark .semicolon), ⟨offset + 1, offset + 2⟩⟩] := by
  simp [Lexeme.scanFrom, Lexeme.isGap, Lexeme.next, Identifier.isStart, byteSize]
  exact ⟨rfl, rfl⟩

theorem closing?_append (a : List Char) :
    closing? (a ++ [')', ';']) = some ⟨byteSize a, byteSize a + 1⟩ := by
  have hbreak : Lexeme.Breaks [')', ';'] := Lexeme.breaks_cons (by decide)
  have htokens : tokensOf (a ++ [')', ';']) = tokensOf a ++
      [⟨.mark .rightParen, ⟨byteSize a, byteSize a + 1⟩⟩,
      ⟨.mark .semicolon, ⟨byteSize a + 1, byteSize a + 2⟩⟩] := by
    simp only [tokensOf, Lexeme.scan, Lexeme.scanFrom_append 0 0 (Nat.zero_le _) hbreak,
      Nat.zero_add, scan_closing, Located.filterMap, List.filterMap_append]
    rfl
  simp only [closing?, htokens, List.reverse_append]
  rfl

end Prototype

/-- The text of a slot that is read as the field and that stays whole among other slots. -/
structure IsFieldText (text : List Char) (field : Field) : Prop where
  solid : Solid text
  oneLine : OneLine text
  noComma : text.getLast? ≠ some ','
  notClosed : ∃ ts, Lexes text ts ∧ ts.getLast? ≠ some (.mark .semicolon)
  read : ∀ line, Field.ofText line text = .ok field

namespace IsFieldText

variable {text : List Char} {field : Field}

theorem trimEnd_dropEnd (h : IsFieldText text field) : trimEnd (dropEnd ',' text) = text := by
  rw [dropEnd_of_ne h.noComma, h.solid.trimEnd]

theorem fieldText_closing (h : IsFieldText text field) :
    Prototype.fieldText (text ++ [')', ';']) = text := by
  simp only [Prototype.fieldText, Prototype.closing?_append, takeBytes_append, h.solid.trimEnd,
    h.trimEnd_dropEnd]

theorem fieldText_comma (h : IsFieldText text field) :
    Prototype.fieldText (text ++ [',']) = text := by
  obtain ⟨ts, hlexes, -⟩ := h.notClosed
  have hcomma : Lexes [','] [.mark .comma] := Lexes.cons rfl rfl Lexes.nil
  have hclosing :=
    Prototype.closing?_eq_none (hlexes.append hcomma (Lexeme.breaks_cons (by decide))) (by simp)
  simp only [Prototype.fieldText, hclosing, dropEnd_append_self, h.solid.trimEnd]

theorem closing?_comma (h : IsFieldText text field) :
    Prototype.closing? (text ++ [',']) = none := by
  obtain ⟨ts, hlexes, -⟩ := h.notClosed
  have hcomma : Lexes [','] [.mark .comma] := Lexes.cons rfl rfl Lexes.nil
  exact Prototype.closing?_eq_none (hlexes.append hcomma (Lexeme.breaks_cons (by decide))) (by simp)

theorem closing?_eq_none (h : IsFieldText text field) : Prototype.closing? text = none := by
  obtain ⟨ts, hlexes, hlast⟩ := h.notClosed
  exact Prototype.closing?_eq_none hlexes hlast

theorem fieldText (h : IsFieldText text field) : Prototype.fieldText text = text := by
  simp only [Prototype.fieldText, h.closing?_eq_none, h.trimEnd_dropEnd]

end IsFieldText

theorem Field.ofText_of_lexes {text : List Char} {ts : List Token} (h : Lexes text ts)
    (line : Nat) :
    Field.ofText line text = Field.ofTokens line text ts := by
  rw [Field.ofText, h.straysOf, h.tokensOf]

structure IsWord (s : String) : Prop where
  identifier : isIdentifier s
  notReserved : isReserved s = false

namespace IsWord

variable {s : String}

theorem chars (h : IsWord s) : Identifier.isValidChars s.toList := h.identifier

theorem lexes (h : IsWord s) : Lexes s.toList [.word s] := by
  have := Lexes.word h.chars
  rwa [Token.ofIdentifier_toList h.notReserved] at this

theorem lexes_append (h : IsWord s) {rest : List Char} {ts : List Token}
    (hrest : StopsWord rest) (hts : Lexes rest ts) :
    Lexes (s.toList ++ rest) (.word s :: ts) := by
  have := Lexes.word_append h.chars hrest hts
  rwa [Token.ofIdentifier_toList h.notReserved] at this

theorem getLast?_ne_comma (h : IsWord s) (a : List Char) : (a ++ s.toList).getLast? ≠ some ',' := by
  intro hlast
  rw [List.getLast?_append, List.getLast?_eq_some_getLast (Identifier.ne_nil h.chars),
    Option.some_or, ← List.getLast?_eq_some_getLast] at hlast
  have := Identifier.forall_isContinuation h.chars _ (List.mem_of_getLast? hlast)
  exact absurd this (by decide)

end IsWord

namespace Header

open Lexeme

variable {type name : String}

theorem lexes_typed (htype : IsWord type) (hname : IsWord name) :
    Lexes (type ++ " " ++ name).toList [.word type, .word name] := by
  simp only [String.toList_append, List.append_assoc]
  exact htype.lexes_append (stopsWord_cons (by decide)) hname.lexes.space

theorem lexes_referenced (htype : IsWord type) (hname : IsWord name) :
    Lexes ("const " ++ type ++ "& " ++ name).toList
      [.keyword .const, .word type, .mark .ampersand, .word name] := by
  have htext : ("const " ++ type ++ "& " ++ name).toList =
      "const".toList ++ ([' '] ++ (type.toList ++ (['&', ' '] ++ name.toList))) := by
    simp only [String.toList_append, List.append_assoc]
    rfl
  have hmark : Lexes (['&', ' '] ++ name.toList) [.mark .ampersand, .word name] :=
    Lexes.cons rfl rfl hname.lexes.space
  rw [htext]
  exact Lexes.word_append (w := "const".toList) (by decide) (stopsWord_cons (by decide))
    (htype.lexes_append (stopsWord_cons (by decide)) hmark).space

theorem lexes_pointed (htype : IsWord type) (hname : IsWord name) :
    Lexes (type ++ "* " ++ name).toList [.word type, .mark .star, .word name] := by
  have htext : (type ++ "* " ++ name).toList = type.toList ++ (['*', ' '] ++ name.toList) := by
    simp only [String.toList_append, List.append_assoc]
    rfl
  have hmark : Lexes (['*', ' '] ++ name.toList) [.mark .star, .word name] :=
    Lexes.cons rfl rfl hname.lexes.space
  rw [htext]
  exact htype.lexes_append (stopsWord_cons (by decide)) hmark

/-- The remark that gives a constant by a literal. -/
theorem lexes_remarked {literal : List Char} {n : Numeral} (hname : IsWord name)
    (hscan : Numeral.scan literal = some (n, [])) :
    Lexes ("/* " ++ name ++ " = " ++ String.ofList literal ++ " */").toList
      [.mark .commentOpen, .word name, .mark .equals, .number n.value, .mark .commentClose] := by
  have htext : ("/* " ++ name ++ " = " ++ String.ofList literal ++ " */").toList =
      ['/', '*'] ++
      ([' '] ++ (name.toList ++ ([' ', '=', ' '] ++ (literal ++ ([' '] ++ ['*', '/']))))) := by
    simp only [String.toList_append, String.toList_ofList, List.append_assoc]
    rfl
  have hclose : Lexes ([' '] ++ ['*', '/']) [.mark .commentClose] :=
    Lexes.space (Lexes.cons rfl rfl Lexes.nil)
  have hnumber := (Lexes.number hscan).append hclose (breaks_cons (by decide))
  have hequals : Lexes ([' ', '=', ' '] ++ (literal ++ ([' '] ++ ['*', '/'])))
      [.mark .equals, .number n.value, .mark .commentClose] :=
    Lexes.space (Lexes.cons rfl rfl hnumber.space)
  rw [htext]
  exact Lexes.cons rfl rfl (hname.lexes_append (stopsWord_cons (by decide)) hequals).space

theorem isFieldText_byValue (htype : IsWord type) (hname : IsWord name)
    (hpassing : Passing.ofName type = .byValue) :
    IsFieldText (type ++ " " ++ name).toList (.input ⟨type, name⟩) := by
  have htext : (type ++ " " ++ name).toList = type.toList ++ ([' '] ++ name.toList) := by
    simp only [String.toList_append, List.append_assoc]
    rfl
  have hlexes := lexes_typed htype hname
  rw [htext] at hlexes ⊢
  refine ⟨?_, ?_, ?_, ⟨_, hlexes, by simp⟩, fun line => ?_⟩
  · rw [← List.append_assoc]
    exact (Identifier.solid htype.chars).append (Identifier.solid hname.chars) [' ']
  · simp [Identifier.oneLine htype.chars, Identifier.oneLine hname.chars]
  · rw [← List.append_assoc]
    exact hname.getLast?_ne_comma _
  · simp only [Field.ofText_of_lexes hlexes, Field.ofTokens, Field.ofInput, hpassing, ↓reduceIte]

theorem isFieldText_byConstReference (htype : IsWord type) (hname : IsWord name)
    (hpassing : Passing.ofName type = .byConstReference) :
    IsFieldText ("const " ++ type ++ "& " ++ name).toList (.input ⟨type, name⟩) := by
  have htext : ("const " ++ type ++ "& " ++ name).toList =
      "const".toList ++ ([' '] ++ (type.toList ++ (['&', ' '] ++ name.toList))) := by
    simp only [String.toList_append, List.append_assoc]
    rfl
  have hlexes := lexes_referenced htype hname
  rw [htext] at hlexes ⊢
  refine ⟨?_, ?_, ?_, ⟨_, hlexes, by simp⟩, fun line => ?_⟩
  · have hsolid : Solid "const".toList := solid_of_all (by decide) (by decide)
    have := hsolid.append (Identifier.solid hname.chars) ([' '] ++ (type.toList ++ ['&', ' ']))
    simpa only [List.append_assoc] using this
  · simp [Identifier.oneLine htype.chars, Identifier.oneLine hname.chars]
  · simp only [← List.append_assoc]
    exact hname.getLast?_ne_comma _
  · simp only [Field.ofText_of_lexes hlexes, Field.ofTokens, Field.ofInput, hpassing, ↓reduceIte]

/-- The parameter of an input is read as this input, with its passing. -/
theorem isFieldText_parameterText {text : String} (htype : IsWord type) (hname : IsWord name)
    (h : parameterText type name = .ok text) : IsFieldText text.toList (.input ⟨type, name⟩) := by
  have hof : Passing.ofType type = .ok (Passing.ofName type) := if_pos htype.identifier
  simp only [parameterText, hof] at h
  cases h
  cases hpassing : Passing.ofName type with
  | byValue => exact isFieldText_byValue htype hname hpassing
  | byConstReference => exact isFieldText_byConstReference htype hname hpassing

theorem isFieldText_output (htype : IsWord type) (hname : IsWord name) :
    IsFieldText (type ++ "* " ++ name).toList (.output type name) := by
  have htext : (type ++ "* " ++ name).toList = type.toList ++ (['*', ' '] ++ name.toList) := by
    simp only [String.toList_append, List.append_assoc]
    rfl
  have hlexes := lexes_pointed htype hname
  rw [htext] at hlexes ⊢
  refine ⟨?_, ?_, ?_, ⟨_, hlexes, by simp⟩, fun line => ?_⟩
  · rw [← List.append_assoc]
    exact (Identifier.solid htype.chars).append (Identifier.solid hname.chars) ['*', ' ']
  · simp [Identifier.oneLine htype.chars, Identifier.oneLine hname.chars]
  · rw [← List.append_assoc]
    exact hname.getLast?_ne_comma _
  · rw [Field.ofText_of_lexes hlexes, Field.ofTokens]

/-- The remark of a kept constant other than zero is read as this constant. -/
theorem isFieldText_remark {x : Binary64} (hname : IsWord name) (hfinite : x.isFinite)
    (hkept : x.asPrinted = x)
    (hzero : x.isZero = false) : IsFieldText (remarkText name x).toList (.constant name x) := by
  obtain ⟨negative, m, rfl⟩ := Binary64.exists_eq_finite hfinite
  have hplaces : 0 < constantPlaces := by decide
  have hspells := Binary64.spells_fixed hplaces negative m
  obtain ⟨n, hscan, hvalue⟩ := hspells.scan
  rw [Binary64.nearest_scaled hkept hzero] at hvalue
  generalize hfixed : (Binary64.finite negative m).fixed constantPlaces = fixed at hspells hscan
  have htext : (remarkText name (.finite negative m)).toList =
      ['/', '*'] ++
      ([' '] ++ (name.toList ++ ([' ', '=', ' '] ++ (fixed.toList ++ ([' '] ++ ['*', '/']))))) := by
    simp only [remarkText, hfixed, String.toList_append, List.append_assoc]
    rfl
  have hlexes := lexes_remarked hname hscan
  rw [String.ofList_toList, ← hfixed, ← remarkText, htext] at hlexes
  rw [htext]
  refine ⟨?_, ?_, ?_, ⟨_, hlexes, by simp⟩, fun line => ?_⟩
  · have hopen : Solid ['/', '*'] := solid_of_all (by decide) (by decide)
    have hend : Solid ['*', '/'] := solid_of_all (by decide) (by decide)
    have :=
      hopen.append hend ([' '] ++ (name.toList ++ ([' ', '=', ' '] ++ (fixed.toList ++ [' ']))))
    simpa only [List.append_assoc] using this
  · simp [Identifier.oneLine hname.chars, hspells.oneLine]
  · simp only [← List.append_assoc]
    rw [List.getLast?_append]
    simp
  · rw [Field.ofText_of_lexes hlexes, Field.ofTokens, hvalue]

end Header

end DerivativeHeaders
