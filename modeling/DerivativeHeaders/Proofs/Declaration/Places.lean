import DerivativeHeaders.Proofs.Declaration.Grammar
import DerivativeHeaders.Proofs.Token.Places

/-! # Places in a source

The tokens and the stray characters of a text account for all of its bytes. So whatever is said
about a place in it, of a declaration or in a complaint, is about a place between two of its
characters.
-/
namespace DerivativeHeaders

open Lexeme Text

/-- An offset between two characters of the text, or at one of its ends. -/
def Text.IsBoundary (cs : List Char) (offset : Nat) : Prop :=
  ∃ before after, cs = before ++ after ∧ offset = byteSize before

variable {cs : List Char}

theorem Accounts.isBoundary_start {items : List (Located Lexeme)} (h : Accounts cs items)
    {x : Located Lexeme}
    (hx : x ∈ items) : IsBoundary cs x.span.start := by
  obtain ⟨before, slice, after, hcs, hspan, -⟩ := h.slices x hx
  exact ⟨before, slice ++ after, hcs, congrArg Span.start hspan⟩

theorem isBoundary_of_mem_filterMap {α : Type} {f : Lexeme → Option α} {x : Located α}
    (hx : x ∈ Located.filterMap f (Lexeme.scan cs)) : IsBoundary cs x.span.start := by
  obtain ⟨y, hy, hxy⟩ := List.mem_filterMap.mp hx
  obtain ⟨_, -, rfl⟩ := Option.map_eq_some_iff.mp hxy
  exact (accounts_scan cs).isBoundary_start hy

theorem isBoundary_of_mem_tokensOf {t : Located Token} (ht : t ∈ tokensOf cs) :
    IsBoundary cs t.span.start :=
  isBoundary_of_mem_filterMap ht

namespace Declaration

variable {size : Nat} {ts : List (Located Token)} {r : Refusal}

theorem map_eq_error {d : Declaration} {read : Except Refusal (List Declaration)}
    (h : (d :: ·) <$> read = .error r) :
    read = .error r := by
  cases read with
  | error r' => exact h
  | ok ds => cases h

/-- What is refused is a token, or the end of the text. -/
theorem span_of_readFrom {progress : Progress} (h : readFrom size progress ts = .error r) :
    (∃ t ∈ ts, r.span = t.span) ∨ r.span = ⟨size, size⟩ := by
  induction ts generalizing progress with
  | nil =>
    cases progress with
    | equals type name =>
      cases h
      exact .inr rfl
    | nothing | word w | typed type name | complete d => cases h
  | cons t ts ih =>
    have ih {progress : Progress} (h : readFrom size progress ts = .error r) :
        (∃ t' ∈ t :: ts, r.span = t'.span) ∨ r.span = ⟨size, size⟩ :=
      (ih h).imp_left fun ⟨t', ht', hspan⟩ => ⟨t', List.mem_cons_of_mem _ ht', hspan⟩
    have hrefuse {expected : Expectation}
        (h : refuse (α := List Declaration) t expected = .error r) :
        (∃ t' ∈ t :: ts, r.span = t'.span) ∨ r.span = ⟨size, size⟩ := by
      cases h
      exact .inl ⟨t, List.mem_cons_self, rfl⟩
    rw [readFrom.eq_def] at h
    dsimp only at h
    split at h
    · exact ih h
    · exact hrefuse h
    · exact ih h
    · exact ih h
    · exact ih (map_eq_error h)
    · exact hrefuse h
    · exact ih h
    · exact ih (map_eq_error h)
    · exact hrefuse h
    · exact ih h
    · exact hrefuse h
    · exact ih (map_eq_error h)
    · exact hrefuse h

theorem isBoundary_of_readTokens {ds : List Declaration} (h : readTokens cs = .ok ds) :
    ∀ d ∈ ds, IsBoundary cs d.span.start ∧ IsBoundary cs d.name.span.start := by
  obtain ⟨t, ht, rfl⟩ := readTokens_eq_ok_iff.mp h
  intro d hd
  obtain ⟨e, he, rfl⟩ := List.mem_map.mp hd
  have htokens : ∀ x ∈ e.tokens, IsBoundary cs x.span.start := by
    intro x hx
    have hmem := Listing.tokens_subset he x hx
    rw [ht] at hmem
    exact isBoundary_of_mem_tokensOf hmem
  exact ⟨htokens (wordToken e.first) List.mem_cons_self,
    htokens (wordToken e.declaration.name) e.mem_tokens_name⟩

theorem isBoundary_of_mem_complaints : ∀ x ∈ complaints cs, IsBoundary cs x.span.start := by
  intro x hx
  rcases List.mem_append.mp hx with hx | hx
  · obtain ⟨y, hy, rfl⟩ := List.mem_map.mp hx
    have hboundary : IsBoundary cs y.span.start := isBoundary_of_mem_filterMap hy
    exact hboundary
  · split at hx
    · cases hx
    · rename_i r hr
      obtain rfl := List.mem_singleton.mp hx
      rcases span_of_readFrom hr with ⟨t, ht, hspan⟩ | hspan
      · rw [hspan]
        exact isBoundary_of_mem_tokensOf ht
      · rw [hspan]
        exact ⟨cs, [], (List.append_nil cs).symm, rfl⟩

/-- The tokens and the stray characters of a text are its lexemes, which account for its bytes. A
complaint about the text and a declaration in it start between two characters. -/
theorem accounts_for_places (cs : List Char) :
    (∃ items, tokensOf cs = Located.filterMap token? items ∧
      straysOf cs = Located.filterMap stray? items ∧ Accounts cs items) ∧
      (∀ x ∈ complaints cs, IsBoundary cs x.span.start) ∧
      ∀ ds, readTokens cs = .ok ds →
        ∀ d ∈ ds, IsBoundary cs d.span.start ∧ IsBoundary cs d.name.span.start :=
  ⟨⟨Lexeme.scan cs, rfl, rfl, accounts_scan cs⟩, isBoundary_of_mem_complaints,
    fun _ h => isBoundary_of_readTokens h⟩

/-- Places behind a character of two bytes. -/
theorem accounts_for_places_stray : ∃ d, readTokens "é double y = -2.5$,".toList = .ok [d] ∧
    d.span.start = 3 ∧ IsBoundary "é double y = -2.5$,".toList d.span.start ∧
    d.name.span.start = 10 ∧ IsBoundary "é double y = -2.5$,".toList d.name.span.start ∧
    (⟨.stray '$', ⟨18, 19⟩⟩ : Located Complaint) ∈ complaints "é double y = -2.5$,".toList ∧
    IsBoundary "é double y = -2.5$,".toList 18 := by
  have hread : readTokens "é double y = -2.5$,".toList =
      .ok [⟨some ⟨"double", ⟨3, 9⟩⟩, ⟨"y", ⟨10, 11⟩⟩,
        some (Numeral.value ⟨true, ['2'], ['5'], none⟩), ⟨3, 18⟩⟩] := by rfl
  have hstray : (⟨'$', ⟨18, 19⟩⟩ : Located Char) ∈ straysOf "é double y = -2.5$,".toList := by
    decide +kernel
  have hcomplaint :
      (⟨.stray '$', ⟨18, 19⟩⟩ : Located Complaint) ∈ complaints "é double y = -2.5$,".toList :=
    List.mem_append_left _ (List.mem_map.mpr ⟨_, hstray, rfl⟩)
  obtain ⟨-, hcomplaints, hdeclarations⟩ := accounts_for_places "é double y = -2.5$,".toList
  obtain ⟨hspan, hname⟩ := hdeclarations _ hread _ List.mem_cons_self
  exact ⟨_, hread, rfl, hspan, rfl, hname, hcomplaint, hcomplaints _ hcomplaint⟩

end Declaration

end DerivativeHeaders
