import DerivativeHeaders.Proofs.Header.Field
import DerivativeHeaders.Proofs.Outcome

/-! # Prototypes read back

Whatever the number and mix of its slots, a prototype that is laid out over lines is read as the
fields that the slots were written for. What follows in the block is not looked at.
-/
namespace DerivativeHeaders

open Text

namespace Prototype

/-- The texts of the slots without what stands before them. -/
def slotTexts (closing : String) : List Slot → List String
  | [] => []
  | slot :: rest => slotText slot rest closing :: slotTexts closing rest

def WrittenFor (slot : Slot) (field : Field) : Prop := IsFieldText slot.text.toList field

theorem slotText_toList_last (slot : Slot) :
    (slotText slot [] ");").toList = slot.text.toList ++ [')', ';'] := by
  simp only [slotText, List.any_nil, Bool.and_false, Bool.false_eq_true, ↓reduceIte,
    List.isEmpty_nil, String.toList_append]
  simp

theorem slotText_toList_cons (slot next : Slot) (rest : List Slot) :
    (slotText slot (next :: rest) ");").toList = slot.text.toList ++ [','] ∨
      (slotText slot (next :: rest) ");").toList = slot.text.toList := by
  simp only [slotText, List.isEmpty_cons, Bool.false_eq_true, ↓reduceIte]
  split
  · left
    simp
  · right
    simp

theorem solid_slotText {slot : Slot} {field : Field} (h : WrittenFor slot field)
    (rest : List Slot) :
    Solid (slotText slot rest ");").toList := by
  cases rest with
  | nil =>
    rw [slotText_toList_last]
    exact h.solid.append' (solid_of_all (by decide) (by decide))
  | cons next rest =>
    rcases slotText_toList_cons slot next rest with heq | heq <;> rw [heq]
    · exact h.solid.append' (solid_singleton (by decide))
    · exact h.solid

theorem oneLine_slotText {slot : Slot} {field : Field} (h : WrittenFor slot field)
    (rest : List Slot) :
    OneLine (slotText slot rest ");").toList := by
  cases rest with
  | nil =>
    rw [slotText_toList_last]
    simp [h.oneLine]
  | cons next rest =>
    rcases slotText_toList_cons slot next rest with heq | heq <;> rw [heq]
    · simp [h.oneLine]
    · exact h.oneLine

theorem fieldLines?_last {slot : Slot} {field : Field} (h : WrittenFor slot field) {l : Line}
    (more : List Line)
    (hl : l.text = (slotText slot [] ");").toList) :
    fieldLines? (l :: more) = some [⟨l.number, slot.text.toList⟩] := by
  have hne : slot.text.toList.isEmpty = false := by simpa using h.solid.ne_nil
  rw [fieldLines?, hl, slotText_toList_last, h.fieldText_closing, closing?_append]
  simp [hne]

theorem fieldLines?_cons {slot next : Slot} {rest : List Slot} {field : Field}
    (h : WrittenFor slot field) {l : Line}
    (more : List Line) (hl : l.text = (slotText slot (next :: rest) ");").toList) :
    fieldLines? (l :: more) = (⟨l.number, slot.text.toList⟩ :: ·) <$> fieldLines? more := by
  have hne : slot.text.toList.isEmpty = false := by simpa using h.solid.ne_nil
  rcases slotText_toList_cons slot next rest with heq | heq
  · rw [fieldLines?, hl, heq, h.fieldText_comma, h.closing?_comma]
    simp [hne]
  · rw [fieldLines?, hl, heq, h.fieldText, h.closing?_eq_none]
    simp [hne]

/-- The lines of the slots are cut down to the texts of the slots. -/
theorem fieldLines?_slotTexts {slots : List Slot} {fields : List Field}
    (h : List.Forall₂ WrittenFor slots fields)
    (hne : slots ≠ []) {ls : List Line} {more : List (List Char)}
    (hls : ls.map Line.text = (slotTexts ");" slots).map String.toList ++ more) :
    ∃ lines, fieldLines? ls = some lines ∧ lines.map Line.text = slots.map fun slot =>
      slot.text.toList := by
  induction h generalizing ls with
  | nil => exact absurd rfl hne
  | @cons slot field rest fields hfield hrest ih =>
    cases ls with
    | nil => cases hls
    | cons l ls =>
      obtain ⟨hl, hls⟩ := List.cons.inj hls
      cases rest with
      | nil => exact ⟨_, fieldLines?_last hfield ls hl, rfl⟩
      | cons next rest =>
        obtain ⟨lines, hlines, htexts⟩ := ih (List.cons_ne_nil _ _) hls
        refine ⟨⟨l.number, slot.text.toList⟩ :: lines, ?_, ?_⟩
        · rw [fieldLines?_cons hfield ls hl, hlines]
          rfl
        · simp only [List.map_cons, htexts]

theorem mapM_ofText {slots : List Slot} {fields : List Field}
    (h : List.Forall₂ WrittenFor slots fields)
    {lines : List Line} (hlines : lines.map Line.text = slots.map fun slot => slot.text.toList) :
    ∃ read, lines.mapM (fun l => (l.number, ·) <$> Field.ofText l.number l.text) = .ok read ∧
      read.map Prod.snd = fields := by
  induction h generalizing lines with
  | nil =>
    rw [List.map_eq_nil_iff.mp hlines]
    exact ⟨[], rfl, rfl⟩
  | @cons slot field rest fields hfield hrest ih =>
    cases lines with
    | nil => cases hlines
    | cons l lines =>
      obtain ⟨hl, hlines⟩ := List.cons.inj hlines
      obtain ⟨read, hread, hfields⟩ := ih hlines
      refine ⟨(l.number, field) :: read, ?_, by rw [List.map_cons, hfields]⟩
      have hl : Field.ofText l.number l.text = .ok field := by rw [hl]; exact hfield.read l.number
      simp only [List.mapM_cons, hl, hread]
      rfl

theorem opening_toList (function : String) :
    (opening function).toList = ("void".toList ++ ([' '] ++ function.toList)) ++ ['('] := by
  simp only [opening, String.toList_append, List.append_assoc]
  rfl

/-- The three tokens that open a prototype, and where the parenthesis ends. -/
theorem tokensOf_opening {function : String} (hf : isIdentifier function) (rest : List Char) :
    ∃ first second third more, tokensOf ((opening function).toList ++ rest) =
      ⟨.keyword .void, first⟩ :: ⟨.ofIdentifier function.toList, second⟩ :: ⟨.mark .leftParen,
        third⟩ :: more ∧ third.stop = byteSize (opening function).toList := by
  have hlexes : Lexes ("void".toList ++ ([' '] ++ function.toList))
      [.keyword .void, .ofIdentifier function.toList] :=
    Lexes.word_append (w := "void".toList) (by decide) (stopsWord_cons (by decide))
      (Lexes.word hf).space
  have hbreak : Lexeme.Breaks ('(' :: rest) := Lexeme.breaks_cons (by decide)
  have hscan : Lexeme.scan ((opening function).toList ++ rest) =
      Lexeme.scan ("void".toList ++ ([' '] ++ function.toList)) ++
        Lexeme.scanFrom (byteSize ("void".toList ++ ([' '] ++ function.toList))) 0
        ('(' :: rest) := by
    have happend := Lexeme.scanFrom_append 0 0
      (Nat.zero_le ("void".toList ++ ([' '] ++ function.toList)).length) hbreak
    rw [Nat.zero_add] at happend
    rw [opening_toList, List.append_assoc]
    exact happend
  have hstop : byteSize (opening function).toList =
      byteSize ("void".toList ++ ([' '] ++ function.toList)) + 1 := by
    rw [opening_toList, Lexeme.byteSize_append]
    rfl
  rw [hstop]
  simp only [Lexes] at hlexes
  generalize byteSize ("void".toList ++ ([' '] ++ function.toList)) = size at hscan
  generalize Lexeme.scan ("void".toList ++ ([' '] ++ function.toList)) = items at hscan hlexes
  obtain ⟨x, items, rfl, hx, hitems⟩ := List.map_eq_cons_iff.mp hlexes
  obtain ⟨y, items, rfl, hy, hitems⟩ := List.map_eq_cons_iff.mp hitems
  obtain rfl := List.map_eq_nil_iff.mp hitems
  have hparen : Lexeme.scanFrom size 0 ('(' :: rest) =
      ⟨.token (.mark .leftParen), ⟨size, size + 1⟩⟩ :: Lexeme.scanFrom (size + 1) 0 rest := rfl
  refine ⟨x.span, y.span, ⟨size, size + 1⟩,
    Located.filterMap Lexeme.token? (Lexeme.scanFrom (size + 1) 0 rest), ?_, rfl⟩
  simp only [tokensOf, hscan, hparen, Located.filterMap, List.cons_append, List.nil_append,
    List.filterMap_cons, hx, hy, Lexeme.token?, Option.map_some]

theorem readOpening_eq {function : String} (hf : IsWord function) {l : Line} {rest : List Char}
    (hl : l.text = (opening function).toList ++ rest) :
    readOpening l = .ok (function, trim rest) := by
  obtain ⟨first, second, third, more, htokens, hstop⟩ := tokensOf_opening hf.identifier rest
  simp only [readOpening, hl, htokens, Token.ofIdentifier_toList hf.notReserved, hstop,
    dropBytes_append]

theorem startsPrototype_opening {function : String} (hf : isIdentifier function)
    (rest : List Char) :
    startsPrototype ((opening function).toList ++ rest) := by
  obtain ⟨first, second, third, more, htokens, -⟩ := tokensOf_opening hf rest
  simp only [startsPrototype, htokens]
  rfl

/-- The lines of a layout once their indent is taken off. -/
theorem trim_slotLines {slots : List Slot} {fields : List Field}
    (h : List.Forall₂ WrittenFor slots fields)
    (function : String) :
    (slotLines ");" (indent function) (indent function) slots).map (fun line => trim line.toList) =
      (slotTexts ");" slots).map String.toList := by
  induction h with
  | nil => rfl
  | @cons slot field rest fields hfield hrest ih =>
    have htrim : trim (indent function ++ slotText slot rest ");").toList =
        (slotText slot rest ");").toList := by
      rw [String.toList_append, indent, String.toList_ofList,
        (solid_slotText hfield rest).trim_spaces]
    simp only [slotLines, slotTexts, List.map_cons, htrim, ih]

theorem solid_opening_append (function : String) {rest : List Char} (h : Solid rest) :
    Solid ((opening function).toList ++ rest) := by
  have hvoid : Solid "void".toList := solid_of_all (by decide) (by decide)
  have := hvoid.append h ([' '] ++ function.toList ++ ['('])
  rw [opening_toList]
  simpa only [List.append_assoc] using this

/-- The trimmed lines of a layout: the opening with the first slot, then the other slots. -/
theorem trim_layout {slots : List Slot} {fields : List Field}
    (h : List.Forall₂ WrittenFor slots fields) (function : String) :
    ∃ first rest, (layout ");" function slots).map (fun line => trim line.toList) =
        ((opening function).toList ++ first) :: rest ∧ Solid first ∧
      (slots = [] ∧ first = [')', ';'] ∨ slots ≠ [] ∧
        first :: rest = (slotTexts ");" slots).map String.toList) := by
  cases h with
  | nil =>
    have hclosing : Solid [')', ';'] := solid_of_all (by decide) (by decide)
    refine ⟨[')', ';'], [], ?_, hclosing, .inl ⟨rfl, rfl⟩⟩
    have := (solid_opening_append function hclosing).trim
    simp only [layout, List.isEmpty_nil, ↓reduceIte, List.map_cons, List.map_nil,
      String.toList_append]
    exact congrArg (· :: []) this
  | @cons slot field rest fields hfield hrest =>
    have hsolid := solid_slotText hfield rest
    refine ⟨(slotText slot rest ");").toList, (slotTexts ");" rest).map String.toList, ?_, hsolid,
      .inr ⟨List.cons_ne_nil _ _, rfl⟩⟩
    simp only [layout, List.isEmpty_cons, Bool.false_eq_true, ↓reduceIte, slotLines, List.map_cons,
      String.toList_append, (solid_opening_append function hsolid).trim,
      trim_slotLines hrest function]

/-- The first line of a layout goes into the fields without its opening. -/
theorem fieldLines?_layout {slots : List Slot} {fields : List Field}
    (h : List.Forall₂ WrittenFor slots fields) {first : List Char} {rest : List (List Char)}
    (hfirst : slots = [] ∧ first = [')', ';'] ∨ slots ≠ [] ∧
      first :: rest = (slotTexts ");" slots).map String.toList)
    (number : Nat) {ls : List Line} {more : List (List Char)}
    (hls : ls.map Line.text = rest ++ more) :
    ∃ lines, fieldLines? (⟨number, first⟩ :: ls) = some lines ∧
      lines.map Line.text = slots.map fun slot => slot.text.toList := by
  rcases hfirst with ⟨rfl, rfl⟩ | ⟨hne, heq⟩
  · exact ⟨[], rfl, rfl⟩
  · have htexts : (⟨number, first⟩ :: ls).map Line.text =
        (slotTexts ");" slots).map String.toList ++ more := by
      rw [List.map_cons, hls, ← heq, List.cons_append]
    exact fieldLines?_slotTexts h hne htexts

/-- The trimmed lines of a block whose body starts with a laid out prototype. -/
theorem exists_lines_layout {slots : List Slot} {fields : List Field}
    (h : List.Forall₂ WrittenFor slots fields)
    {function : String} {b : Block} {more : List (List Char)}
    (hbody : b.body.map Line.text = (layout ");" function slots).map String.toList ++ more) :
    ∃ l ls first rest, (b.body.map fun l => { l with text := trim l.text }) = l :: ls ∧
      l.text = (opening function).toList ++ first ∧
      ls.map Line.text = rest ++ more.map trim ∧ Solid first ∧
      (slots = [] ∧ first = [')', ';'] ∨ slots ≠ [] ∧
        first :: rest = (slotTexts ");" slots).map String.toList) := by
  obtain ⟨first, rest, hlayout, hsolid, hfirst⟩ := trim_layout h function
  have htexts : (b.body.map fun l => { l with text := trim l.text }).map Line.text =
      ((opening function).toList ++ first) :: (rest ++ more.map trim) := by
    have := congrArg (List.map trim) hbody
    rw [List.map_append, List.map_map, List.map_map] at this
    rw [List.map_map, ← List.cons_append, ← hlayout]
    exact this
  obtain ⟨l, ls, heq, hl, hls⟩ := List.map_eq_cons_iff.mp htexts
  exact ⟨l, ls, first, rest, heq, hl, hls, hsolid, hfirst⟩

/-- A block whose body starts with a laid out prototype is read as the fields of its slots. -/
theorem ofBlock_layout {function : String} (hf : IsWord function) {slots : List Slot}
    {fields : List Field}
    (h : List.Forall₂ WrittenFor slots fields) {b : Block} {more : List (List Char)}
    (hbody : b.body.map Line.text = (layout ");" function slots).map String.toList ++ more) :
    ∃ p, ofBlock b = .ok p ∧ p.function = function ∧ p.fields.map Prod.snd = fields := by
  obtain ⟨l, ls, first, rest, hlines, hl, hls, hsolid, hfirst⟩ := exists_lines_layout h hbody
  have hstart : startsPrototype l.text := hl ▸ startsPrototype_opening hf.identifier first
  obtain ⟨cut, hcut, hcuts⟩ := fieldLines?_layout h hfirst l.number hls
  obtain ⟨read, hread, hfields⟩ := mapM_ofText h hcuts
  refine ⟨⟨function, read⟩, ?_, rfl, hfields⟩
  rw [ofBlock]
  simp only [hlines, List.dropWhile_cons, hstart, Bool.not_true, Bool.false_eq_true, ↓reduceIte,
    ofLines, readOpening_eq hf hl, hsolid.trim]
  simp only [bind, Except.bind, hcut, hread]
  rfl

/-- A keyword is no name of a function. -/
theorem readOpening_of_isReserved {function : String} (hf : isIdentifier function)
    (hreserved : isReserved function)
    {l : Line} {rest : List Char} (hl : l.text = (opening function).toList ++ rest) :
    readOpening l = .error (.line l.number .noOpening) := by
  obtain ⟨first, second, third, more, htokens, -⟩ := tokensOf_opening hf rest
  obtain ⟨k, hk⟩ := Token.exists_keyword hreserved
  simp only [readOpening, hl, htokens, hk]

/-- A prototype whose function has a keyword for a name is not read. -/
theorem ofBlock_of_isReserved {function : String} (hf : isIdentifier function)
    (hreserved : isReserved function)
    {slots : List Slot} {fields : List Field} (h : List.Forall₂ WrittenFor slots fields) {b : Block}
    {more : List (List Char)}
    (hbody : b.body.map Line.text = (layout ");" function slots).map String.toList ++ more) :
    ∃ n, ofBlock b = .error (.line n .noOpening) := by
  obtain ⟨l, ls, first, rest, hlines, hl, -⟩ := exists_lines_layout h hbody
  have hstart : startsPrototype l.text := hl ▸ startsPrototype_opening hf first
  refine ⟨l.number, ?_⟩
  rw [ofBlock]
  simp only [hlines, List.dropWhile_cons, hstart, Bool.not_true, Bool.false_eq_true, ↓reduceIte,
    ofLines, readOpening_of_isReserved hf hreserved hl]
  rfl

end Prototype

end DerivativeHeaders
