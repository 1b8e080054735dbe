import DerivativeHeaders.Declaration
import DerivativeHeaders.Proofs.Outcome

/-! # The grammar of declaration lists

A list is `(entry (',' entry)* ','?)?` and an entry is `word word? ('=' number)?`. The trees of this
grammar keep the places of their tokens. A text is read exactly if its tokens are those of a tree,
which is the only one, and what is read is the declarations of its entries.
-/
namespace DerivativeHeaders.Declaration

open Outcome

def wordToken (w : Located String) : Located Token := ⟨.word w.value, w.span⟩

def commaToken (span : Span) : Located Token := ⟨.mark .comma, span⟩

/-- An equals sign at its place, and a number. -/
abbrev Assignment := Span × Located Binary64

def Assignment.tokens (a : Assignment) : List (Located Token) :=
  [⟨.mark .equals, a.1⟩, ⟨.number a.2.value, a.2.span⟩]

/-- Of two words the first one is the type. -/
structure Entry where
  first : Located String
  second : Option (Located String)
  value : Option Assignment

namespace Entry

def tokens (e : Entry) : List (Located Token) :=
  wordToken e.first :: ((e.second.map wordToken).toList ++ (e.value.map Assignment.tokens).getD [])

/-- From the start of the first token to the end of the last one. -/
def span (e : Entry) : Span :=
  ⟨e.first.span.start, (e.tokens.getLast (List.cons_ne_nil _ _)).span.stop⟩

def declaration (e : Entry) : Declaration where
  type := e.second.map fun _ => e.first
  name := e.second.getD e.first
  value := e.value.map fun a => a.2.value
  span := e.span

theorem mem_tokens_name (e : Entry) : wordToken e.declaration.name ∈ e.tokens := by
  obtain ⟨first, second, value⟩ := e
  cases second with
  | none => exact List.mem_cons_self
  | some name => exact List.mem_cons_of_mem _ List.mem_cons_self

theorem mem_tokens_type {e : Entry} {type : Located String} (h : e.declaration.type = some type) :
    wordToken type ∈ e.tokens := by
  obtain ⟨first, second, value⟩ := e
  cases second with
  | none => cases h
  | some name =>
    cases h
    exact List.mem_cons_self

end Entry

inductive Listing where
  | empty
  | entries (first : Entry) (more : List (Span × Entry)) (last : Option Span)

namespace Listing

def tokens : Listing → List (Located Token)
  | empty => []
  | entries first more last =>
    first.tokens ++ (more.flatMap fun x => commaToken x.1 :: x.2.tokens) ++
      (last.map commaToken).toList

def items : Listing → List Entry
  | empty => []
  | entries first more _ => first :: more.map Prod.snd

def declarations (t : Listing) : List Declaration := t.items.map Entry.declaration

/-- An entry and a comma in front of a list. -/
def cons (e : Entry) (comma : Span) : Listing → Listing
  | empty => entries e [] (some comma)
  | entries first more last => entries e ((comma, first) :: more) last

theorem tokens_cons (e : Entry) (comma : Span) (t : Listing) :
    (cons e comma t).tokens = e.tokens ++ commaToken comma :: t.tokens := by
  cases t with
  | empty => simp [cons, tokens]
  | entries first more last => simp [cons, tokens]

theorem tokens_single (e : Entry) : (entries e [] none).tokens = e.tokens := by simp [tokens]

theorem items_cons (e : Entry) (comma : Span) (t : Listing) :
    (cons e comma t).items = e :: t.items := by
  cases t <;> rfl

theorem declarations_cons (e : Entry) (comma : Span) (t : Listing) :
    (cons e comma t).declarations = e.declaration :: t.declarations := by
  rw [declarations, items_cons]
  rfl

/-- A list is empty, a single entry, or an entry with a comma in front of a list. -/
theorem cons_induction {motive : Listing → Prop} (empty : motive empty)
    (single : ∀ e, motive (entries e [] none))
    (cons : ∀ e comma t, motive t → motive (cons e comma t)) (t : Listing) : motive t := by
  cases t with
  | empty => exact empty
  | entries first more last =>
    induction more generalizing first with
    | nil =>
      cases last with
      | none => exact single first
      | some comma => exact cons first comma .empty empty
    | cons x more ih => exact cons first x.1 (.entries x.2 more last) (ih x.2)

theorem tokens_subset {t : Listing} {e : Entry} (he : e ∈ t.items) :
    ∀ x ∈ e.tokens, x ∈ t.tokens := by
  induction t using cons_induction with
  | empty => cases he
  | single e' =>
    obtain rfl := List.mem_singleton.mp he
    rw [tokens_single]
    exact fun _ hx => hx
  | cons e' comma t ih =>
    rw [items_cons] at he
    rw [tokens_cons]
    intro x hx
    rcases List.mem_cons.mp he with rfl | he
    · exact List.mem_append_left _ hx
    · exact List.mem_append_right _ (List.mem_cons_of_mem _ (ih he x hx))

end Listing

section Uniqueness

/-- What follows an entry in a list. -/
def EndsEntry (rest : List (Located Token)) : Prop := ∀ t ∈ rest.head?, t.value = .mark .comma

variable {rest rest' : List (Located Token)}

theorem assignment_append_inj {a a' : Option Assignment} (hrest : EndsEntry rest)
    (hrest' : EndsEntry rest')
    (h : (a.map Assignment.tokens).getD [] ++ rest = (a'.map Assignment.tokens).getD [] ++ rest') :
    a = a' ∧ rest = rest' := by
  cases a with
  | none => cases a' with
    | none => exact ⟨rfl, h⟩
    | some a' =>
      obtain rfl : rest = a'.tokens ++ rest' := h
      cases hrest _ rfl
  | some a => cases a' with
    | none =>
      obtain rfl : a.tokens ++ rest = rest' := h
      cases hrest' _ rfl
    | some a' =>
      obtain ⟨_, _, _⟩ := a
      obtain ⟨_, _, _⟩ := a'
      cases h
      exact ⟨rfl, rfl⟩

theorem not_word_of_endsEntry {w : Located String} {a : Option Assignment}
    {more : List (Located Token)}
    (hrest : EndsEntry rest) : (a.map Assignment.tokens).getD [] ++ rest ≠ wordToken w :: more := by
  intro h
  cases a with
  | none =>
    obtain rfl : rest = wordToken w :: more := h
    cases hrest _ rfl
  | some a => cases h

theorem wordToken_inj {w w' : Located String} (h : wordToken w = wordToken w') : w = w' := by
  obtain ⟨_, _⟩ := w
  obtain ⟨_, _⟩ := w'
  cases h
  rfl

theorem Entry.tokens_append_inj {e e' : Entry} (hrest : EndsEntry rest) (hrest' : EndsEntry rest')
    (h : e.tokens ++ rest = e'.tokens ++ rest') : e = e' ∧ rest = rest' := by
  obtain ⟨first, second, value⟩ := e
  obtain ⟨first', second', value'⟩ := e'
  simp only [tokens, List.cons_append, List.append_assoc, List.cons.injEq] at h
  obtain ⟨hfirst, h⟩ := h
  obtain rfl := wordToken_inj hfirst
  cases second with
  | none => cases second' with
    | none =>
      obtain ⟨rfl, rfl⟩ := assignment_append_inj hrest hrest' h
      exact ⟨rfl, rfl⟩
    | some second' => exact absurd h (not_word_of_endsEntry hrest)
  | some second => cases second' with
    | none => exact absurd h.symm (not_word_of_endsEntry hrest')
    | some second' =>
      obtain ⟨hsecond, hvalue⟩ := List.cons.inj h
      obtain rfl := wordToken_inj hsecond
      obtain ⟨rfl, rfl⟩ := assignment_append_inj hrest hrest' hvalue
      exact ⟨rfl, rfl⟩

theorem endsEntry_nil : EndsEntry [] := by
  intro t ht
  cases ht

theorem endsEntry_cons {comma : Span} {rest : List (Located Token)} :
    EndsEntry (commaToken comma :: rest) := by
  intro t ht
  cases ht
  rfl

/-- The grammar is unambiguous. -/
theorem Listing.tokens_inj {t t' : Listing} (h : t.tokens = t'.tokens) : t = t' := by
  induction t using cons_induction generalizing t' with
  | empty => induction t' using cons_induction with
    | empty => rfl
    | single e' => cases h
    | cons e' comma' t' =>
      rw [tokens_cons] at h
      cases h
  | single e => induction t' using cons_induction with
    | empty => cases h
    | single e' =>
      rw [tokens_single, tokens_single, ← List.append_nil e.tokens,
        ← List.append_nil e'.tokens] at h
      rw [(Entry.tokens_append_inj endsEntry_nil endsEntry_nil h).1]
    | cons e' comma' t' =>
      rw [tokens_single, tokens_cons, ← List.append_nil e.tokens] at h
      cases (Entry.tokens_append_inj endsEntry_nil endsEntry_cons h).2
  | cons e comma t ih => induction t' using cons_induction with
    | empty =>
      rw [tokens_cons] at h
      cases h
    | single e' =>
      rw [tokens_single, tokens_cons, ← List.append_nil e'.tokens] at h
      cases (Entry.tokens_append_inj endsEntry_cons endsEntry_nil h).2
    | cons e' comma' t' =>
      rw [tokens_cons, tokens_cons] at h
      obtain ⟨rfl, hrest⟩ := Entry.tokens_append_inj endsEntry_cons endsEntry_cons h
      obtain ⟨hcomma, htokens⟩ := List.cons.inj hrest
      cases hcomma
      rw [ih htokens]

end Uniqueness

section Reading

variable {size : Nat} {ts : List (Located Token)} {ds : List Declaration}

/-- An entry is read up to the end of the tokens, or up to a comma behind it. -/
theorem readFrom_entry (size : Nat) (e : Entry) :
    readFrom size .nothing e.tokens = .ok [e.declaration] ∧
      ∀ comma rest, readFrom size .nothing (e.tokens ++ commaToken comma :: rest) =
      (e.declaration :: ·) <$> readFrom size .nothing rest := by
  obtain ⟨first, second, value⟩ := e
  cases second with
  | none => cases value with
    | none => exact ⟨rfl, fun _ _ => rfl⟩
    | some a => exact ⟨rfl, fun _ _ => rfl⟩
  | some name => cases value with
    | none => exact ⟨rfl, fun _ _ => rfl⟩
    | some a => exact ⟨rfl, fun _ _ => rfl⟩

theorem readFrom_listing (size : Nat) (t : Listing) :
    readFrom size .nothing t.tokens = .ok t.declarations := by
  induction t using Listing.cons_induction with
  | empty => rfl
  | single e =>
    rw [Listing.tokens_single, (readFrom_entry size e).1]
    rfl
  | cons e comma t ih =>
    rw [Listing.tokens_cons, (readFrom_entry size e).2, ih, Listing.declarations_cons]
    rfl

/-- The tokens of the entry that has been begun. -/
def Progress.Begins : Progress → List (Located Token) → Prop
  | nothing, read => read = []
  | word w, read => read = [wordToken w]
  | typed type name, read => read = [wordToken type, wordToken name]
  | equals type name, read =>
    ∃ span, read = (type.map wordToken).toList ++ [wordToken name, ⟨.mark .equals, span⟩]
  | complete d, read => ∃ e : Entry, read = e.tokens ∧ d = e.declaration

/-- What has been begun, and what is read of the tokens after it, is a list of the grammar. -/
theorem exists_listing_of_readFrom {progress : Progress} {read : List (Located Token)}
    (hp : progress.Begins read)
    (h : readFrom size progress ts = .ok ds) :
    ∃ t : Listing, t.tokens = read ++ ts ∧ t.declarations = ds := by
  induction ts generalizing progress read ds with
  | nil =>
    have hsingle (e : Entry) (hread : read = e.tokens) (hds : [e.declaration] = ds) :
        ∃ t : Listing, t.tokens = read ++ [] ∧ t.declarations = ds :=
      ⟨.entries e [] none, by rw [Listing.tokens_single, hread, List.append_nil], hds⟩
    cases progress with
    | nothing =>
      cases h
      exact ⟨.empty, by rw [hp]; rfl, rfl⟩
    | word w => exact hsingle ⟨w, none, none⟩ hp (Except.ok.inj h)
    | typed type name => exact hsingle ⟨type, some name, none⟩ hp (Except.ok.inj h)
    | equals type name => cases h
    | complete d =>
      obtain ⟨e, hread, rfl⟩ := hp
      exact hsingle e hread (Except.ok.inj h)
  | cons t ts ih =>
    have hbegins : Progress.nothing.Begins [] := rfl
    have ihNothing {more : List Declaration} (h : readFrom size .nothing ts = .ok more) :
        ∃ tree : Listing, tree.tokens = ts ∧ tree.declarations = more := ih hbegins h
    have ih {progress : Progress} {ds : List Declaration} (h : readFrom size progress ts = .ok ds)
        (hp : progress.Begins (read ++ [t])) : ∃ tree : Listing, tree.tokens = read ++ t :: ts ∧
        tree.declarations = ds := by
      obtain ⟨tree, htokens, hds⟩ := ih hp h
      exact ⟨tree, by rw [htokens, List.append_assoc]; rfl, hds⟩
    -- A comma ends the entry that has been begun.
    have hcomma {d : Declaration} {span : Span} (e : Entry) (hread : read = e.tokens)
        (hd : d = e.declaration)
        (ht : t = ⟨.mark .comma, span⟩) (h : (d :: ·) <$> readFrom size .nothing ts = .ok ds) :
        ∃ tree : Listing, tree.tokens = read ++ t :: ts ∧ tree.declarations = ds := by
      obtain ⟨more, hmore, rfl⟩ := map_eq_ok.mp h
      obtain ⟨tree, htokens, rfl⟩ := ihNothing hmore
      refine ⟨.cons e span tree, ?_, ?_⟩
      · rw [Listing.tokens_cons, htokens, hread, ht]
        rfl
      · rw [Listing.declarations_cons, hd]
    obtain ⟨value, span⟩ := t
    rw [readFrom.eq_def] at h
    dsimp only at h
    split at h
    · obtain rfl : read = [] := hp
      exact ih h rfl
    · cases h
    · obtain rfl : read = [wordToken _] := hp
      exact ih h rfl
    · obtain rfl : read = [wordToken _] := hp
      exact ih h ⟨span, rfl⟩
    · exact hcomma ⟨_, none, none⟩ hp rfl rfl h
    · cases h
    · obtain rfl : read = [wordToken _, wordToken _] := hp
      exact ih h ⟨span, rfl⟩
    · exact hcomma ⟨_, some _, none⟩ hp rfl rfl h
    · cases h
    · rename_i type name x
      obtain ⟨equals, rfl⟩ := hp
      cases type with
      | none => exact ih h ⟨⟨name, none, some (equals, ⟨x, span⟩)⟩, rfl, rfl⟩
      | some type => exact ih h ⟨⟨type, some name, some (equals, ⟨x, span⟩)⟩, rfl, rfl⟩
    · cases h
    · obtain ⟨e, hread, rfl⟩ := hp
      exact hcomma e hread rfl rfl h
    · cases h

end Reading

theorem readTokens_eq_ok_iff {cs : List Char} {ds : List Declaration} :
    readTokens cs = .ok ds ↔ ∃ t : Listing, t.tokens = tokensOf cs ∧ t.declarations = ds := by
  constructor
  · intro h
    have hbegins : Progress.nothing.Begins [] := rfl
    exact exists_listing_of_readFrom hbegins h
  · rintro ⟨t, htokens, rfl⟩
    rw [readTokens, ← htokens]
    exact readFrom_listing _ t

/-- The text is a list of the declarations: no character strays, and the tokens are those of a
tree. -/
def IsListOf (cs : List Char) (ds : List Declaration) : Prop :=
  straysOf cs = [] ∧ ∃ t : Listing, t.tokens = tokensOf cs ∧ t.declarations = ds

theorem readList_eq_ok_iff {cs : List Char} {ds : List Declaration} :
    readList cs = .ok ds ↔ IsListOf cs ds := by
  rw [IsListOf, ← readTokens_eq_ok_iff, readList]
  cases straysOf cs with
  | cons stray strays => simp
  | nil =>
    cases readTokens cs with
    | error refusal => simp [Except.mapError]
    | ok ds => simp [Except.mapError]

/-- The complaints about the stray characters of a text, in order. -/
def strayComplaints (cs : List Char) : List (Located Complaint) :=
  (straysOf cs).map fun x => ⟨.stray x.value, x.span⟩

theorem strayComplaints_eq_nil_iff {cs : List Char} : strayComplaints cs = [] ↔ straysOf cs = [] :=
  List.map_eq_nil_iff

theorem complaints_of_ok {cs : List Char} {ds : List Declaration} (h : readTokens cs = .ok ds) :
    complaints cs = strayComplaints cs := by
  rw [complaints, h]
  exact List.append_nil _

theorem complaints_of_error {cs : List Char} {r : Refusal} (h : readTokens cs = .error r) :
    complaints cs = strayComplaints cs ++ [⟨.refused r, r.span⟩] := by
  rw [complaints, h]
  rfl

/-- There is nothing to complain about exactly if no character strays and the tokens are a list of
the grammar. Such a list is read as the declarations of its only tree, also if characters stray; of
other tokens nothing is read, and one complaint about them follows those about the stray
characters. -/
theorem readTokens_grammar (cs : List Char) :
    (complaints cs = [] ↔ straysOf cs = [] ∧ ∃ t : Listing, t.tokens = tokensOf cs) ∧
      (∀ t : Listing, t.tokens = tokensOf cs → readTokens cs = .ok t.declarations ∧
        complaints cs = strayComplaints cs ∧ ∀ t' : Listing, t'.tokens = tokensOf cs → t' = t) ∧
      ((∃ r, readTokens cs = .error r) ↔ ∀ t : Listing, t.tokens ≠ tokensOf cs) ∧
      ∀ r, readTokens cs = .error r →
        complaints cs = strayComplaints cs ++ [⟨.refused r, r.span⟩] := by
  have hread (t : Listing) (ht : t.tokens = tokensOf cs) : readTokens cs = .ok t.declarations :=
    readTokens_eq_ok_iff.mpr ⟨t, ht, rfl⟩
  refine ⟨?_, fun t ht => ⟨hread t ht, complaints_of_ok (hread t ht),
    fun t' ht' => Listing.tokens_inj (ht'.trans ht.symm)⟩, ⟨?_, fun hnone => ?_⟩,
    fun r hr => complaints_of_error hr⟩
  · cases h : readTokens cs with
    | error r =>
      rw [complaints_of_error h]
      refine iff_of_false (List.append_ne_nil_of_right_ne_nil _ (List.cons_ne_nil _ _)) ?_
      rintro ⟨-, t, ht⟩
      cases h.symm.trans (hread t ht)
    | ok ds =>
      obtain ⟨t, ht, -⟩ := readTokens_eq_ok_iff.mp h
      rw [complaints_of_ok h, strayComplaints_eq_nil_iff]
      exact (and_iff_left ⟨t, ht⟩).symm
  · rintro ⟨r, hr⟩ t ht
    cases hr.symm.trans (hread t ht)
  · cases h : readTokens cs with
    | error r => exact ⟨r, rfl⟩
    | ok ds =>
      obtain ⟨t, ht, -⟩ := readTokens_eq_ok_iff.mp h
      exact absurd ht (hnone t)

/-- `x, double y=2,` has two entries. -/
def sampleListing : Listing :=
  .entries ⟨⟨"x", ⟨0, 1⟩⟩, none, none⟩
    [(⟨1, 2⟩, ⟨⟨"double", ⟨3, 9⟩⟩, some ⟨"y", ⟨10, 11⟩⟩,
      some (⟨11, 12⟩, ⟨Numeral.value ⟨false, ['2'], [], none⟩, ⟨12, 13⟩⟩)⟩)] (some ⟨13, 14⟩)

theorem readTokens_grammar_sample :
    (sampleListing.tokens = tokensOf "x, double y=2,".toList ∧
      readTokens "x, double y=2,".toList = .ok sampleListing.declarations ∧
      complaints "x, double y=2,".toList = strayComplaints "x, double y=2,".toList ∧
      ∀ t' : Listing, t'.tokens = tokensOf "x, double y=2,".toList → t' = sampleListing) ∧
      ∃ r, readTokens "x $ =".toList = .error r ∧
        complaints "x $ =".toList = strayComplaints "x $ =".toList ++ [⟨.refused r, r.span⟩] := by
  have htokens : sampleListing.tokens = tokensOf "x, double y=2,".toList := by decide +kernel
  have herror : readTokens "x $ =".toList = .error ⟨none, .number, ⟨5, 5⟩⟩ := by rfl
  exact ⟨⟨htokens, (readTokens_grammar _).2.1 _ htokens⟩, _, herror,
    (readTokens_grammar _).2.2.2 _ herror⟩

end DerivativeHeaders.Declaration
