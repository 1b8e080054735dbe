import DerivativeHeaders.Proofs.Declaration.Grammar
import DerivativeHeaders.Proofs.Token.Word

/-! # Declaration lists read back

A text that consists of the tokens of some declarations with commas between them is read as these
declarations, wherever its tokens stand. The words of declarations are words of their text.
-/
namespace DerivativeHeaders

namespace Declaration

/-- What a declaration says, without its places. -/
structure Content where
  type : Option String
  name : String
  value : Option Binary64
deriving DecidableEq

def content (d : Declaration) : Content := ⟨d.type.map Located.value, d.name.value, d.value⟩

/-- The tokens that a declaration is written with. -/
def Content.tokens (x : Content) : List Token :=
  (x.type.map Token.word).toList ++ .word x.name ::
  (x.value.map fun y => [.mark .equals, .number y]).getD []

variable {x : Content} {ts : List (Located Token)}

theorem exists_span {t : Token} {more : List Token} (h : ts.map Located.value = t :: more) :
    ∃ span later, ts = ⟨t, span⟩ :: later ∧ later.map Located.value = more := by
  obtain ⟨⟨_, span⟩, later, rfl, rfl, hlater⟩ := List.map_eq_cons_iff.mp h
  exact ⟨span, later, rfl, hlater⟩

/-- The tokens of one declaration are those of an entry. -/
theorem exists_entry (hts : ts.map Located.value = x.tokens) :
    ∃ e : Entry, e.tokens = ts ∧ e.declaration.content = x := by
  obtain ⟨type, name, value⟩ := x
  cases type with
  | none =>
    obtain ⟨n, later, rfl, hlater⟩ := exists_span hts
    cases value with
    | none =>
      obtain rfl := List.map_eq_nil_iff.mp hlater
      exact ⟨⟨⟨name, n⟩, none, none⟩, rfl, rfl⟩
    | some y =>
      obtain ⟨equals, more, rfl, hmore⟩ := exists_span hlater
      obtain ⟨m, last, rfl, hlast⟩ := exists_span hmore
      obtain rfl := List.map_eq_nil_iff.mp hlast
      exact ⟨⟨⟨name, n⟩, none, some (equals, ⟨y, m⟩)⟩, rfl, rfl⟩
  | some type =>
    obtain ⟨t, named, rfl, hnamed⟩ := exists_span hts
    obtain ⟨n, later, rfl, hlater⟩ := exists_span hnamed
    cases value with
    | none =>
      obtain rfl := List.map_eq_nil_iff.mp hlater
      exact ⟨⟨⟨type, t⟩, some ⟨name, n⟩, none⟩, rfl, rfl⟩
    | some y =>
      obtain ⟨equals, more, rfl, hmore⟩ := exists_span hlater
      obtain ⟨m, last, rfl, hlast⟩ := exists_span hmore
      obtain rfl := List.map_eq_nil_iff.mp hlast
      exact ⟨⟨⟨type, t⟩, some ⟨name, n⟩, some (equals, ⟨y, m⟩)⟩, rfl, rfl⟩

/-- The tokens of declarations with commas between them are those of a list. -/
theorem exists_listing {xs : List Content}
    (hts : ts.map Located.value = [Token.mark .comma].intercalate (xs.map Content.tokens)) :
    ∃ t : Listing, t.tokens = ts ∧ t.declarations.map content = xs := by
  induction xs generalizing ts with
  | nil =>
    obtain rfl := List.map_eq_nil_iff.mp hts
    exact ⟨.empty, rfl, rfl⟩
  | cons x xs ih =>
    cases xs with
    | nil =>
      rw [List.map_cons, List.map_nil, List.intercalate_singleton] at hts
      obtain ⟨e, rfl, rfl⟩ := exists_entry hts
      exact ⟨.entries e [] none, Listing.tokens_single e, rfl⟩
    | cons y ys =>
      rw [List.map_cons, List.map_cons, List.intercalate_cons_cons, List.append_assoc,
        List.map_eq_append_iff] at hts
      obtain ⟨first, more, rfl, hfirst, hmore⟩ := hts
      obtain ⟨comma, rest, rfl, hrest⟩ := exists_span hmore
      obtain ⟨e, rfl, rfl⟩ := exists_entry hfirst
      obtain ⟨t, rfl, hcontents⟩ := ih hrest
      refine ⟨.cons e comma t, Listing.tokens_cons e comma t, ?_⟩
      rw [Listing.declarations_cons, List.map_cons, hcontents]

theorem isListOf_of_lexes {cs : List Char} {xs : List Content}
    (h : Lexes cs ([Token.mark .comma].intercalate (xs.map Content.tokens))) :
    ∃ ds, IsListOf cs ds ∧ ds.map content = xs := by
  obtain ⟨t, ht, hcontents⟩ := exists_listing h.tokensOf
  exact ⟨t.declarations, ⟨h.straysOf, t, ht, rfl⟩, hcontents⟩

/-- Texts of declarations make a list with a comma and a space between them. -/
theorem lexes_intercalate {texts : List String} {xs : List Content}
    (h : List.Forall₂ (fun text x => Lexes text.toList (Content.tokens x)) texts xs) :
    Lexes (", ".intercalate texts).toList
      ([Token.mark .comma].intercalate (xs.map Content.tokens)) := by
  rw [String.toList_intercalate]
  induction h with
  | nil => exact Lexes.nil
  | @cons text x texts xs hx hxs ih =>
    cases hxs with
    | nil =>
      simp only [List.map_cons, List.map_nil, List.intercalate_singleton]
      exact hx
    | @cons text' x' texts xs hx' hxs =>
      simp only [List.map_cons, List.intercalate_cons_cons, List.append_assoc] at ih ⊢
      exact hx.append (Lexes.cons rfl rfl ih.space) (Lexeme.breaks_cons rfl)

/-- The name and the type of a declaration have a property. -/
def HasWords (p : String → Prop) (d : Declaration) : Prop :=
  p d.name.value ∧ ∀ type, d.type = some type → p type.value

def AvoidsKeywords (d : Declaration) : Prop :=
  isReserved d.name.value = false ∧ ∀ type, d.type = some type → isReserved type.value = false

/-- What holds of the words among the tokens holds of the words of the declarations. -/
theorem hasWords_of_isListOf {p : String → Prop} {cs : List Char} {ds : List Declaration}
    (hcs : ∀ t ∈ tokensOf cs, ∀ name, t.value = .word name → p name) (h : IsListOf cs ds) :
    ∀ d ∈ ds, d.HasWords p := by
  obtain ⟨-, t, ht, rfl⟩ := h
  intro d hd
  obtain ⟨e, he, rfl⟩ := List.mem_map.mp hd
  have hword (w : Located String) (hw : wordToken w ∈ e.tokens) : p w.value := by
    have hmem := Listing.tokens_subset he _ hw
    rw [ht] at hmem
    exact hcs _ hmem _ rfl
  exact ⟨hword _ e.mem_tokens_name, fun type htype => hword type (Entry.mem_tokens_type htype)⟩

theorem avoidsKeywords_of_isListOf {cs : List Char} {ds : List Declaration} (h : IsListOf cs ds) :
    ∀ d ∈ ds, d.AvoidsKeywords :=
  hasWords_of_isListOf (fun _ ht _ hname => isReserved_of_mem_tokensOf ht hname) h

theorem isIdentifier_of_isListOf {cs : List Char} {ds : List Declaration} (h : IsListOf cs ds) :
    ∀ d ∈ ds, d.HasWords (isIdentifier ·) :=
  hasWords_of_isListOf (fun _ ht _ hname => isIdentifier_of_mem_tokensOf ht hname) h

end Declaration

end DerivativeHeaders
