import DerivativeHeaders.Proofs.Header.Invariant
import DerivativeHeaders.Proofs.Header.Print
import DerivativeHeaders.Proofs.Header.Renumber
import Mathlib.Data.List.Perm.Basic

/-! # The order of blocks

The first block gives the signature, and the others can stand in any order: the variants are sorted,
and one ledger takes in what the blocks say in every order or in none.
-/
namespace DerivativeHeaders

open Outcome Ledger

theorem Variant.inOrder_perm {vs vs' ws : List Variant} (h : vs.Perm vs')
    (hvs : inOrder vs = .ok ws) :
    inOrder vs' = .ok ws := by
  simpa only [inOrder_eq_ok_iff, h.mem_iff, h.nodup_iff] using hvs

namespace Signature

variable {s : Signature} {l : Ledger} {blocks blocks' : List Block}

/-- Blocks are taken in by a ledger alike, in whatever order they stand. -/
theorem foldlM_readBlock_perm (h : blocks.Perm blocks')
    (hl : blocks.foldlM s.readBlock .empty = .ok l) :
    blocks'.foldlM s.readBlock .empty = .ok l := by
  rw [foldlM_readBlock_eq_ok_iff] at hl ⊢
  obtain ⟨parts, hparts, hl⟩ := hl
  -- What is said moves along with the blocks, and a ledger depends on the members of a list only.
  obtain ⟨parts', hparts', hperm⟩ := List.perm_comp_forall₂ h.symm hparts
  exact ⟨parts', hparts', recordAll_congr (fun _ => hperm.flatten.mem_iff) hl⟩

theorem ofParts_perm {name : String} {inputs outputs : List Variable} {vs vs' : List Variant}
    (h : vs.Perm vs')
    (hs : ofParts name inputs outputs vs = .ok s) : ofParts name inputs outputs vs' = .ok s := by
  rw [ofParts_eq_ok_iff] at hs ⊢
  obtain ⟨ws, hws, hs⟩ := hs
  exact ⟨ws, Variant.inOrder_perm h hws, hs⟩

end Signature

namespace Header

variable {h : Header} {blocks blocks' : List Block} {item : Block.Item}
  {rest rest' : List Block.Item}

/-- The order of the blocks after the first one does not count. -/
theorem ofBlocks_perm {first : Block} (hperm : blocks.Perm blocks')
    (hh : ofBlocks (first :: blocks) = .ok h) :
    ofBlocks (first :: blocks') = .ok h := by
  obtain ⟨_, _, p, l, ⟨⟩, hplain, hp, hdefault, hs, hl, hh⟩ := ofBlocks_eq_ok_iff.mp hh
  have hall : (first :: blocks).Perm (first :: blocks') := hperm.cons first
  exact ofBlocks_eq_ok_iff.mpr ⟨first, blocks', p, l, rfl, hplain, hp, hdefault,
    Signature.ofParts_perm (hall.map Block.variant) hs, Signature.foldlM_readBlock_perm hall hl, hh⟩

/-- Only the items of blocks count, and of those after the first one not the order. -/
theorem ofBlocks_perm_items (hblocks : blocks.map Block.toItem = item :: rest)
    (hblocks' : blocks'.map Block.toItem = item :: rest') (hperm : rest.Perm rest')
    (hh : ofBlocks blocks = .ok h) :
    ofBlocks blocks' = .ok h := by
  rw [← ofBlocks_items, hblocks, List.map_cons] at hh
  rw [← ofBlocks_items, hblocks', List.map_cons]
  exact ofBlocks_perm (hperm.map Block.ofItem) hh

/-- The lines are cut into chunks alike, but the chunks after the first one stand in another
order. -/
def Rearranges (lines lines' : List (List Char)) : Prop :=
  ∃ preface chunks chunks', Block.IsCut preface chunks lines ∧ Block.IsCut preface chunks' lines' ∧
    chunks.head? = chunks'.head? ∧ chunks.tail.Perm chunks'.tail

theorem Rearranges.symm {lines lines' : List (List Char)} (h : Rearranges lines lines') :
    Rearranges lines' lines := by
  obtain ⟨preface, chunks, chunks', hcut, hcut', hhead, htail⟩ := h
  exact ⟨preface, chunks', chunks, hcut', hcut, hhead.symm, htail.symm⟩

theorem ofText_of_rearranges {text text' : String}
    (hr : Rearranges (Text.lines text.toList) (Text.lines text'.toList))
    (ht : ofText text = .ok h) :
    ofText text' = .ok h := by
  obtain ⟨preface, chunks, chunks', hcut, hcut', hhead, htail⟩ := hr
  obtain ⟨blocks, hblocks, hh⟩ := ofText_eq_ok_iff.mp ht
  obtain ⟨first, others, -, -, rfl, -⟩ := ofBlocks_eq_ok_iff.mp hh
  have hspells := Block.spells_of_locate hcut hblocks
  rw [List.map_cons] at hspells
  obtain ⟨x, xs, hx, hxs, rfl⟩ := List.forall₂_cons_right_iff.mp hspells
  obtain ⟨ys, rfl⟩ := List.head?_eq_some_iff.mp hhead.symm
  obtain ⟨items, hitems, hperm⟩ := List.perm_comp_forall₂ htail.symm hxs
  obtain ⟨blocks', hblocks', hmap⟩ := Block.locate_of_spells hcut' (.cons hx hitems)
  exact ofText_eq_ok_iff.mpr
    ⟨blocks', hblocks', ofBlocks_perm_items (List.map_cons ..) hmap hperm.symm hh⟩

/-- A text that can be located is cut into blocks, and is read alike with the later blocks in any
order. -/
theorem ofText_rearranged {text : String} {blocks : List Block}
    (hlocate : Block.locate (Line.ofText text.toList) = .ok blocks) :
    (∃ preface chunks,
      Block.IsCut preface chunks (Text.lines text.toList) ∧ chunks.length = blocks.length) ∧
      ∀ text' : String, Rearranges (Text.lines text.toList) (Text.lines text'.toList) →
        ∀ h, ofText text' = .ok h ↔ ofText text = .ok h := by
  constructor
  · obtain ⟨preface, chunks, hcut⟩ := Block.exists_isCut hlocate
    refine ⟨preface, chunks, hcut, ?_⟩
    rw [(Block.spells_of_locate hcut hlocate).length_eq, List.length_map]
  · intro text' hr h
    exact ⟨ofText_of_rearranges hr.symm, ofText_of_rearranges hr⟩

/-- The text that items are printed as. -/
def itemsText (items : List Block.Item) : String :=
  String.ofList (['\n'].intercalate (items.flatMap Block.Item.lines ++ [[]]))

theorem rearranges_itemsText {items items' : List Block.Item} (hperm : items.Perm items')
    (h : ∀ x ∈ item :: items, ∀ line ∈ x.2, Prototype.IsBodyLine line) :
    Rearranges (Text.lines (itemsText (item :: items)).toList)
      (Text.lines (itemsText (item :: items')).toList) := by
  have h' : ∀ x ∈ item :: items', ∀ line ∈ x.2, Prototype.IsBodyLine line :=
    fun x hx => h x ((hperm.cons item).mem_iff.mpr hx)
  have hlines {items : List Block.Item} (h : ∀ x ∈ items, ∀ line ∈ x.2, Prototype.IsBodyLine line) :
      Text.lines (itemsText items).toList = items.flatMap Block.Item.lines := by
    rw [itemsText, String.toList_ofList, Text.lines_intercalate (Block.oneLine_lines h)]
  rw [hlines h, hlines h']
  have hplain := fun x hx line hline => (h x hx line hline).2
  have hplain' := fun x hx line hline => (h' x hx line hline).2
  exact ⟨[], _, _, Block.Item.isCut_chunks hplain, Block.Item.isCut_chunks hplain',
    rfl, hperm.pmap _⟩

/-- The blocks of a function in three variants. The second derivative is left out of the last
one. -/
def plainItem : Block.Item := (.plain, ["void f(double x,".toList, "double* y);".toList])

def firstItem : Block.Item := (⟨true, false⟩,
  ["void fWithFirstOrderDerivatives(double x,".toList, "double* y,".toList,
  "double* D_y_D_x);".toList])

def secondItem : Block.Item := (⟨true, true⟩,
  ["void fWithFirstSecondOrderDerivatives(double x,".toList, "double* y,".toList,
  "double* D_y_D_x);".toList])

theorem ofText_rearranged_items :
    ∃ h, ofText (itemsText [plainItem, firstItem, secondItem]) = .ok h ∧
      ofText (itemsText [plainItem, secondItem, firstItem]) = .ok h := by
  have hok : (ofText (itemsText [plainItem, firstItem, secondItem])).isOk := by
    simp only [ofText, itemsText, String.toList_ofList]
    decide +kernel
  have hbody :
      ∀ x ∈ [plainItem, firstItem, secondItem], ∀ line ∈ x.2, Prototype.IsBodyLine line := by
    simp only [Prototype.IsBodyLine, Text.OneLine]
    decide +kernel
  obtain ⟨h, hh⟩ := exists_of_isOk hok
  obtain ⟨blocks, hlocate, -⟩ := ofText_eq_ok_iff.mp hh
  have hr := rearranges_itemsText (.swap secondItem firstItem []) hbody
  exact ⟨h, hh, ((ofText_rearranged hlocate).2 _ hr h).mpr hh⟩

end Header

end DerivativeHeaders
