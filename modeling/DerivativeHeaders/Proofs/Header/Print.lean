import DerivativeHeaders.Proofs.Header.Slots

/-! # The text of a header is cut into its blocks

The text that a header is printed as has one block for each variant, in order, and the prototype
of each block is read as the fields of the variant.
-/
namespace DerivativeHeaders

open Outcome Prototype Text

namespace Prototype

theorem isMarker_nil : isMarker [] = false := rfl

/-- The text of a slot is never a marker, since a marker is not made of tokens. -/
theorem isMarker_slotText {slot : Slot} {field : Field} (h : WrittenFor slot field)
    (rest : List Slot)
    {text : List Char} (htext : trim text = (slotText slot rest ");").toList) :
    isMarker text = false := by
  have hstray : straysOf marker.toList ≠ [] := by decide
  have hends (c : Char) : marker.toList = slot.text.toList ++ [c] → c = '=' := by
    intro heq
    have hlast : marker.toList.getLast? = some '=' := by decide
    rw [heq] at hlast
    simpa using hlast
  rw [isMarker, htext, beq_eq_false_iff_ne]
  intro heq
  cases rest with
  | nil =>
    rw [slotText_toList_last] at heq
    have hlast : marker.toList.getLast? = some '=' := by decide
    rw [← heq] at hlast
    simp at hlast
  | cons next rest =>
    rcases slotText_toList_cons slot next rest with hcomma | hplain
    · exact absurd (hends ',' (heq ▸ hcomma)) (by decide)
    · obtain ⟨ts, hlexes, -⟩ := h.notClosed
      rw [← hplain, heq] at hlexes
      exact hstray hlexes.straysOf

theorem isMarker_opening (function : String) {rest text : List Char}
    (htext : trim text = (opening function).toList ++ rest) : isMarker text = false := by
  rw [isMarker, htext, beq_eq_false_iff_ne]
  intro heq
  have hhead : ((opening function).toList ++ rest).head? = some 'v' := by
    rw [opening_toList]
    rfl
  rw [heq] at hhead
  exact absurd hhead (by decide)

theorem oneLine_opening {function : String} (hf : isIdentifier function) :
    OneLine (opening function).toList := by
  rw [opening_toList]
  simp [Identifier.oneLine hf]

theorem oneLine_indent (function : String) : OneLine (indent function).toList := by
  rw [indent, String.toList_ofList]
  have hblank : ∀ c ∈ List.replicate (opening function).utf8ByteSize ' ', (c == ' ') = true := by
    intro c hc
    rw [List.eq_of_mem_replicate hc]
    rfl
  exact oneLine_of_forall hblank (by decide) (by decide)

/-- What the reader of lines needs of a line in the body of a block. -/
def IsBodyLine (text : List Char) : Prop := OneLine text ∧ isMarker text = false

theorem isBodyLine_slotLines {slots : List Slot} {fields : List Field}
    (h : List.Forall₂ WrittenFor slots fields)
    (function : String) :
    ∀ line ∈ slotLines ");" (indent function) (indent function) slots, IsBodyLine line.toList := by
  induction h with
  | nil => nofun
  | @cons slot field rest fields hfield hrest ih =>
    intro line hline
    rcases List.mem_cons.mp hline with rfl | hline
    · refine ⟨?_, isMarker_slotText hfield rest ?_⟩
      · rw [String.toList_append, oneLine_append]
        exact ⟨oneLine_indent function, oneLine_slotText hfield rest⟩
      · rw [String.toList_append, indent, String.toList_ofList,
          (solid_slotText hfield rest).trim_spaces]
    · exact ih line hline

theorem isBodyLine_layout {function : String} (hf : isIdentifier function) {slots : List Slot}
    {fields : List Field}
    (h : List.Forall₂ WrittenFor slots fields) :
    ∀ line ∈ layout ");" function slots, IsBodyLine line.toList := by
  have hopening := oneLine_opening hf
  intro line hline
  cases h with
  | nil =>
    simp only [layout, List.isEmpty_nil, ↓reduceIte, List.mem_singleton] at hline
    subst hline
    have hclosing : Solid [')', ';'] := solid_of_all (by decide) (by decide)
    have htext : (opening function ++ ");").toList = (opening function).toList ++ [')', ';'] := by
      rw [String.toList_append]
      rfl
    rw [htext]
    refine ⟨?_, isMarker_opening function (solid_opening_append function hclosing).trim⟩
    simp [hopening]
  | @cons slot field rest fields hfield hrest =>
    simp only [layout, List.isEmpty_cons, Bool.false_eq_true, ↓reduceIte, slotLines] at hline
    rcases List.mem_cons.mp hline with rfl | hline
    · rw [String.toList_append]
      refine ⟨?_,
        isMarker_opening function (solid_opening_append function (solid_slotText hfield rest)).trim⟩
      rw [oneLine_append]
      exact ⟨hopening, oneLine_slotText hfield rest⟩
    · exact isBodyLine_slotLines hrest function line hline

end Prototype

namespace Variant

/-- What stands between a base name and the labels of the toggles, and after them. -/
theorem isContinuation_labels (v : Variant) :
    ∀ c ∈ ("With" ++ String.join (v.active.map Toggle.label) ++ "OrderDerivatives").toList,
      Identifier.isContinuation c := by
  rw [← List.all_eq_true]
  obtain ⟨_ | _, _ | _⟩ := v <;> decide

theorem isReserved_extended {base labels : String} :
    isReserved (base ++ labels ++ "OrderDerivatives") = false := by
  have hlength : 16 ≤ (base ++ labels ++ "OrderDerivatives").length := by
    simp only [String.length_append]
    have : "OrderDerivatives".length = 16 := rfl
    omega
  simp only [isReserved, Bool.or_eq_false_iff, beq_eq_false_iff_ne]
  refine ⟨?_, ?_⟩ <;> intro heq <;> rw [heq] at hlength <;> exact absurd hlength (by decide)

theorem isIdentifier_extendName {base : String} (hb : isIdentifier base) (v : Variant) :
    isIdentifier (v.extendName base) := by
  rw [extendName]
  split
  · exact hb
  · have happend :
        (base ++ "With" ++ String.join (v.active.map Toggle.label) ++ "OrderDerivatives").toList =
        base.toList ++
          ("With" ++ String.join (v.active.map Toggle.label) ++ "OrderDerivatives").toList := by
      simp only [String.toList_append, List.append_assoc]
    rw [isIdentifier, happend]
    exact Identifier.isValidChars_append hb (isContinuation_labels v)

/-- The function name of a variant is a word if the base name is one. -/
theorem isWord_extendName {base : String} (hb : IsWord base) (v : Variant) :
    IsWord (v.extendName base) := by
  refine ⟨isIdentifier_extendName hb.identifier v, ?_⟩
  rw [extendName]
  split
  · exact hb.notReserved
  · rw [@String.append_assoc base]
    exact isReserved_extended

end Variant

namespace Block

/-- The lines of an item with an empty line after them. -/
def Item.terminated (x : Item) : List (List Char) := x.lines ++ [[]]

/-- A block may hold empty lines after what it was written for. -/
def IsItemOf (full item : Item) : Prop :=
  item.1 = full.1 ∧ ∃ more, (∀ line ∈ more, line = []) ∧ item.2 = full.2 ++ more

/-- The empty lines between items belong to the items before them, and one is left at the end. -/
theorem exists_items {fulls : List Item} (hne : fulls ≠ []) : ∃ items,
    fulls.flatMap Item.terminated = items.flatMap Item.lines ++ [[]] ∧
      List.Forall₂ IsItemOf fulls items := by
  induction fulls with
  | nil => exact absurd rfl hne
  | cons full fulls ih =>
    cases fulls with
    | nil =>
      refine ⟨[full], ?_, .cons ⟨rfl, [], nofun, (List.append_nil _).symm⟩ .nil⟩
      simp [Item.terminated]
    | cons next fulls =>
      obtain ⟨items, hitems, hall⟩ := ih (List.cons_ne_nil _ _)
      refine ⟨(full.1, full.2 ++ [[]]) :: items, ?_, .cons ⟨rfl, [[]], by simp, rfl⟩ hall⟩
      rw [List.flatMap_cons, hitems, List.flatMap_cons]
      simp [Item.terminated, Item.lines]

theorem oneLine_lines {items : List Item} (h : ∀ item ∈ items, ∀ line ∈ item.2, IsBodyLine line) :
    ∀ line ∈ items.flatMap Item.lines, OneLine line := by
  intro line hline
  obtain ⟨item, hitem, hline⟩ := List.mem_flatMap.mp hline
  rcases List.mem_append.mp hline with hline | hline
  · obtain ⟨text, htext, rfl⟩ := List.mem_map.mp hline
    exact oneLine_markerLines item.1 text htext
  · exact (h item hitem line hline).1

/-- The blocks of a text are the items that it was joined from. -/
theorem locate_items {items : List Item} (h : ∀ item ∈ items, ∀ line ∈ item.2, IsBodyLine line) :
    ∃ blocks,
      locate (Line.ofText (['\n'].intercalate (items.flatMap Item.lines ++ [[]]))) = .ok blocks ∧
      blocks.map toItem = items := by
  have hmarker : ∀ item ∈ items, ∀ line ∈ item.2, isMarker line = false :=
    fun item hitem line hline => (h item hitem line hline).2
  rw [Line.ofText_eq, lines_intercalate (oneLine_lines h)]
  exact locate_of_spells (Item.isCut_chunks hmarker) (Item.spells_chunks hmarker)

end Block

namespace Header

variable {h : Header} {v : Variant}

/-- The lines of the prototype of a variant, as the layout of slots that are read as its fields. -/
def HasLayout (h : Header) (v : Variant) (lines : List String) : Prop :=
  ∃ slots fields, lines = layout ");" (v.extendName h.name) slots ∧
    List.Forall₂ WrittenFor slots fields ∧ h.HasFields v fields

theorem exists_prototypeLines (hc : h.IsChecked) (hw : h.AvoidsKeywords) (v : Variant) :
    ∃ lines, h.prototypeLines v = .ok lines ∧ h.HasLayout v lines := by
  obtain ⟨slots, fields, hslots, hwritten, hfields⟩ := exists_slots hc hw v
  refine ⟨_, ?_, slots, fields, rfl, hwritten, hfields⟩
  rw [prototypeLines, hslots, hc.functionName_eq]
  rfl

/-- The item that the block of a variant is printed as. -/
def IsPrintedItem (h : Header) (v : Variant) (full : Block.Item) : Prop :=
  full.1 = v ∧ ∃ lines, h.HasLayout v lines ∧ full.2 = lines.map String.toList

theorem exists_blockLines (hc : h.IsChecked) (hw : h.AvoidsKeywords) (vs : List Variant) :
    ∃ texts fulls, vs.mapM h.blockLines = .ok texts ∧
      List.Forall₂ (fun lines full => lines.map String.toList = full.terminated) texts fulls ∧
      List.Forall₂ h.IsPrintedItem vs fulls := by
  refine mapM_exists fun v _ => ?_
  obtain ⟨lines, hlines, hlayout⟩ := exists_prototypeLines hc hw v
  refine ⟨markerLines v ++ lines ++ [""], (v, lines.map String.toList), ?_, ?_,
    rfl, lines, hlayout, rfl⟩
  · rw [blockLines, hlines]
    rfl
  · simp [Block.Item.terminated, Block.Item.lines]

/-- What is read of the block of a variant: its lines, and perhaps empty lines after them. -/
def IsWrittenAs (h : Header) (v : Variant) (item : Block.Item) : Prop :=
  ∃ full, h.IsPrintedItem v full ∧ Block.IsItemOf full item

theorem isBodyLine_of_isWrittenAs (hname : isIdentifier h.name) {item : Block.Item}
    (hitem : h.IsWrittenAs v item) :
    ∀ line ∈ item.2, IsBodyLine line := by
  obtain ⟨full, ⟨-, lines, ⟨slots, fields, rfl, hwritten, -⟩, hlines⟩, -, more, hmore, hbody⟩ :=
    hitem
  have hlayout := isBodyLine_layout (Variant.isIdentifier_extendName hname v) hwritten
  intro line hline
  rw [hbody, hlines, List.mem_append] at hline
  rcases hline with hline | hline
  · obtain ⟨text, htext, rfl⟩ := List.mem_map.mp hline
    exact hlayout text htext
  · rw [hmore line hline]
    exact ⟨oneLine_nil, isMarker_nil⟩

/-- The block of a variant is read as the fields of the variant. -/
def IsBlockOf (h : Header) (v : Variant) (b : Block) : Prop :=
  b.variant = v ∧ ∃ p, Prototype.ofBlock b = .ok p ∧ p.function = v.extendName h.name ∧
    h.HasFields v (p.fields.map Prod.snd)

theorem isBlockOf_of_isWrittenAs (hname : IsWord h.name) {b : Block}
    (hb : h.IsWrittenAs v (Block.toItem b)) :
    h.IsBlockOf v b := by
  obtain ⟨full, ⟨hv, lines, ⟨slots, fields, rfl, hwritten, hfields⟩, hlines⟩, hv', more,
      -, hbody⟩ := hb
  rw [hlines] at hbody
  obtain ⟨p, hp, hfunction, hread⟩ :=
    ofBlock_layout (Variant.isWord_extendName hname v) hwritten hbody
  exact ⟨hv'.trans hv, p, hp, hfunction, hread ▸ hfields⟩

theorem flatMap_terminated {texts : List (List String)} {fulls : List Block.Item}
    (h : List.Forall₂ (fun lines full => lines.map String.toList = full.terminated) texts fulls) :
    texts.flatten.map String.toList = fulls.flatMap Block.Item.terminated := by
  induction h with
  | nil => rfl
  | cons hlines _ ih => rw [List.flatten_cons, List.map_append, List.flatMap_cons, hlines, ih]

/-- The text of a header joins the lines of one item for each variant. -/
theorem exists_items (hc : h.IsChecked) (hw : h.AvoidsKeywords) : ∃ text items, h.print = .ok text ∧
    text.toList = ['\n'].intercalate (items.flatMap Block.Item.lines ++ [[]]) ∧
    List.Forall₂ h.IsWrittenAs h.variants items := by
  obtain ⟨texts, fulls, htexts, hterminated, hprinted⟩ := exists_blockLines hc hw h.variants
  have hne : fulls ≠ [] := by
    rintro rfl
    have hnil := List.forall₂_nil_right_iff.mp hprinted
    exact List.not_mem_nil (hnil ▸ hc.ordered.plain_mem)
  obtain ⟨items, hitems, hforall⟩ := Block.exists_items hne
  refine ⟨"\n".intercalate texts.flatten, items, ?_, ?_, ?_⟩
  · rw [print, printLines, htexts]
    rfl
  · rw [String.toList_intercalate, flatMap_terminated hterminated, hitems]
    rfl
  · exact forall₂_comp (fun v full item hfull hitem => ⟨full, hfull, hitem⟩) hprinted hforall

theorem isBodyLine_of_written (hname : isIdentifier h.name) {vs : List Variant}
    {items : List Block.Item}
    (hwritten : List.Forall₂ h.IsWrittenAs vs items) :
    ∀ item ∈ items, ∀ line ∈ item.2, IsBodyLine line := by
  intro item hitem
  obtain ⟨v, -, hv⟩ := forall₂_exists_left hwritten hitem
  exact isBodyLine_of_isWrittenAs hname hv

/-- The text of a header has one block for each variant. -/
theorem exists_written (hc : h.IsChecked) (hw : h.AvoidsKeywords) :
    ∃ text blocks, h.print = .ok text ∧
      Block.locate (Line.ofText text.toList) = .ok blocks ∧
      List.Forall₂ h.IsWrittenAs h.variants (blocks.map Block.toItem) := by
  obtain ⟨text, items, hprint, htext, hwritten⟩ := exists_items hc hw
  obtain ⟨blocks, hblocks, heq⟩ := Block.locate_items (isBodyLine_of_written hc.name hwritten)
  refine ⟨text, blocks, hprint, ?_, ?_⟩
  · rw [htext, hblocks]
  · rw [heq]
    exact hwritten

/-- Each line of the text of a header ends in a line feed alone. -/
theorem endsPlainly_of_print (hc : h.IsChecked) (hw : h.AvoidsKeywords) {text : String}
    (hprint : h.print = .ok text) :
    EndsPlainly text.toList := by
  obtain ⟨text', items, hprint', htext, hwritten⟩ := exists_items hc hw
  cases hprint.symm.trans hprint'
  rw [htext]
  exact endsPlainly_intercalate (Block.oneLine_lines (isBodyLine_of_written hc.name hwritten))

/-- Each block of the text is read as the fields of its variant. -/
theorem isBlockOf_of_written (hname : IsWord h.name) {vs : List Variant} {blocks : List Block}
    (hwritten : List.Forall₂ h.IsWrittenAs vs (blocks.map Block.toItem)) :
    List.Forall₂ h.IsBlockOf vs blocks := by
  rw [List.forall₂_map_right_iff] at hwritten
  exact hwritten.imp fun v b hb => isBlockOf_of_isWrittenAs hname hb

end Header

end DerivativeHeaders
