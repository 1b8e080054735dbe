import DerivativeHeaders.Proofs.Header.Slots
import DerivativeHeaders.Proofs.Token.Places

/-! # Fields by their tokens

Each field has its own sequence of tokens, and a text is read as the field whose tokens it consists
of. So the reader accepts what the writer writes, with other gaps and other literals, and nothing
else.
-/
namespace DerivativeHeaders

open Outcome

/-- Both texts consist of the same tokens, without stray characters. -/
def SameTokens (a b : List Char) : Prop := ∃ ts, Lexes a ts ∧ Lexes b ts

theorem Lexes.sameTokens_iff {a b : List Char} {ts : List Token} (h : Lexes b ts) :
    SameTokens a b ↔ Lexes a ts := by
  constructor
  · rintro ⟨us, ha, hb⟩
    rwa [h.tokensOf.symm.trans hb.tokensOf]
  · exact fun ha => ⟨ts, ha, h⟩

namespace Lexes

variable {cs : List Char} {ts : List Token}

/-- Only words are scanned as words. -/
theorem isWord (h : Lexes cs ts) {name : String} (hname : .word name ∈ ts) : IsWord name := by
  rw [← h.tokensOf] at hname
  obtain ⟨x, hx, hvalue⟩ := List.mem_map.mp hname
  exact ⟨isIdentifier_of_mem_tokensOf hx hvalue, isReserved_of_mem_tokensOf hx hvalue⟩

/-- A number is the value of the numeral that it is scanned from. -/
theorem exists_numeral (h : Lexes cs ts) {x : Binary64} (hx : .number x ∈ ts) :
    ∃ n : Numeral, n.WellFormed ∧ n.value = x := by
  rw [← h.tokensOf] at hx
  obtain ⟨y, hy, hvalue⟩ := List.mem_map.mp hx
  obtain ⟨c, rest, hnext⟩ := exists_next_of_mem_tokensOf hy
  have hspelled := Lexeme.isSpelled_next c rest
  rw [hnext, hvalue] at hspelled
  obtain ⟨n, hn, -, hxn⟩ := hspelled
  exact ⟨n, hn, hxn.symm⟩

end Lexes

/-- The tokens of a parameter that is passed in this way. -/
def Passing.tokens (passing : Passing) (type name : String) : List Token :=
  match passing with
  | byValue => [.word type, .word name]
  | byConstReference => [.keyword .const, .word type, .mark .ampersand, .word name]

theorem Passing.mem_tokens (passing : Passing) (type name : String) :
    .word type ∈ passing.tokens type name ∧ .word name ∈ passing.tokens type name := by
  cases passing <;> simp [tokens]

theorem Passing.lexes_text {type name : String} (passing : Passing) (htype : IsWord type)
    (hname : IsWord name) :
    Lexes (passing.text type name).toList (passing.tokens type name) := by
  cases passing with
  | byValue => exact Header.lexes_typed htype hname
  | byConstReference => exact Header.lexes_referenced htype hname

namespace Field

variable {line : Nat} {text : List Char} {ts : List Token} {field : Field}

def tokens : Field → List Token
  | input x => (Passing.ofName x.type).tokens x.type x.name
  | output type name => [.word type, .mark .star, .word name]
  | constant name x =>
    [.mark .commentOpen, .word name, .mark .equals, .number x, .mark .commentClose]

theorem ofTokens_passing (line : Nat) (text : List Char) (passing : Passing) (type name : String) :
    ofTokens line text (passing.tokens type name) = ofInput line passing type name := by
  cases passing <;> rfl

/-- Tokens are read as the field that has these tokens. -/
theorem ofTokens_eq_ok_iff : ofTokens line text ts = .ok field ↔ ts = field.tokens := by
  constructor
  · intro h
    unfold ofTokens at h
    split at h
    · obtain ⟨hpassing, rfl⟩ := ofInput_eq_ok_iff.mp h
      rw [tokens, hpassing]
      rfl
    · obtain ⟨hpassing, rfl⟩ := ofInput_eq_ok_iff.mp h
      rw [tokens, hpassing]
      rfl
    · cases h
      rfl
    · cases h
      rfl
    · cases h
  · rintro rfl
    cases field with
    | input x =>
      rw [tokens, ofTokens_passing]
      exact ofInput_eq_ok_iff.mpr ⟨rfl, rfl⟩
    | output type name => rfl
    | constant name x => rfl

theorem ofText_eq_ok_iff : ofText line text = .ok field ↔ Lexes text field.tokens := by
  constructor
  · intro h
    rw [ofText] at h
    split at h
    · cases h
    · rename_i hstrays
      exact lexes_iff.mpr ⟨hstrays, ofTokens_eq_ok_iff.mp h⟩
  · intro h
    rw [ofText_of_lexes h]
    exact ofTokens_eq_ok_iff.mpr rfl

/-- The text of a constant that is given by a literal. -/
def literalText (name : String) (literal : Numeral) : String :=
  "/* " ++ name ++ " = " ++ String.ofList literal.spelling ++ " */"

/-- The texts that a field is written as. -/
inductive IsWritten : Field → String → Prop
  | input {type name written : String} (htype : IsWord type) (hname : IsWord name)
      (hwritten : parameterText type name = .ok written) : IsWritten (.input ⟨type, name⟩) written
  | output {type name : String} (htype : IsWord type) (hname : IsWord name) :
      IsWritten (.output type name) (type ++ "* " ++ name)
  | constant {name : String} (hname : IsWord name) {literal : Numeral}
      (hliteral : literal.WellFormed) :
      IsWritten (.constant name literal.value) (literalText name literal)

theorem IsWritten.lexes {written : String} (h : field.IsWritten written) :
    Lexes written.toList field.tokens := by
  cases h with
  | input htype hname hwritten =>
    cases (Header.parameterText_eq htype.identifier _).symm.trans hwritten
    exact Passing.lexes_text _ htype hname
  | output htype hname => exact Header.lexes_pointed htype hname
  | constant hname hliteral => exact Header.lexes_remarked hname (Numeral.scan_spelling hliteral)

/-- A field whose tokens are those of some text can be written. -/
theorem exists_isWritten (h : Lexes text field.tokens) : ∃ written, field.IsWritten written := by
  cases field with
  | input x =>
    obtain ⟨htype, hname⟩ := (Passing.ofName x.type).mem_tokens x.type x.name
    exact ⟨_, .input (h.isWord htype) (h.isWord hname)
      (Header.parameterText_eq (h.isWord htype).identifier _)⟩
  | output type name =>
    exact ⟨_, .output (h.isWord (by simp [tokens])) (h.isWord (by simp [tokens]))⟩
  | constant name x =>
    obtain ⟨literal, hliteral, rfl⟩ := h.exists_numeral (x := x) (by simp [tokens])
    exact ⟨_, .constant (h.isWord (by simp [tokens])) hliteral⟩

/-- The reader accepts the tokens of written fields. -/
theorem ofText_eq_ok_iff_isWritten :
    ofText line text = .ok field ↔ ∃ written, field.IsWritten written ∧
      SameTokens text written.toList := by
  rw [ofText_eq_ok_iff]
  constructor
  · intro h
    obtain ⟨written, hwritten⟩ := exists_isWritten h
    exact ⟨written, hwritten, hwritten.lexes.sameTokens_iff.mpr h⟩
  · rintro ⟨written, hwritten, hsame⟩
    exact hwritten.lexes.sameTokens_iff.mp hsame

/-- A parameter that is not passed as its type asks for is refused, and the fault names it. -/
theorem ofText_of_wrong_passing {type name : String} {passing : Passing} (htype : IsWord type)
    (hname : IsWord name)
    (hpassing : passing ≠ Passing.ofName type)
    (h : SameTokens text (passing.text type name).toList) :
    ofText line text = .error (.line line (.wrongPassing name type)) := by
  rw [ofText_of_lexes ((passing.lexes_text htype hname).sameTokens_iff.mp h), ofTokens_passing,
    ofInput, if_neg hpassing.symm]

/-- The tokens of a field tell it from all others. -/
theorem tokens_injective {field' : Field} (h : field.tokens = field'.tokens) : field = field' := by
  have hread : ofTokens 0 [] field.tokens = .ok field' := ofTokens_eq_ok_iff.mpr h
  exact Except.ok.inj ((ofTokens_eq_ok_iff.mpr rfl).symm.trans hread)

theorem IsWritten.unique {field' : Field} {written written' : String} (h : field.IsWritten written)
    (h' : field'.IsWritten written') (hsame : SameTokens text written.toList)
    (hsame' : SameTokens text written'.toList) :
    field = field' := by
  have hlexes := h.lexes.sameTokens_iff.mp hsame
  have hlexes' := h'.lexes.sameTokens_iff.mp hsame'
  exact tokens_injective (hlexes.tokensOf.symm.trans hlexes'.tokensOf)

/-- A text is read as an input, an output or a constant exactly if it has the tokens of the text
that is written for it, and is refused otherwise; so no text has two readings, and a wrong passing
is refused. What a header writes for a variant is read as its inputs, its emitted channels and its
constants other than zero, with their values. -/
theorem ofText_reads_written (line : Nat) (text : List Char) :
    (∀ type name, ofText line text = .ok (.input ⟨type, name⟩) ↔ IsWord type ∧ IsWord name ∧
        ∃ written, parameterText type name = .ok written ∧ SameTokens text written.toList) ∧
      (∀ type name, ofText line text = .ok (.output type name) ↔ IsWord type ∧ IsWord name ∧
        SameTokens text (type ++ "* " ++ name).toList) ∧
      (∀ name x, ofText line text = .ok (.constant name x) ↔ IsWord name ∧
        ∃ literal : Numeral, literal.WellFormed ∧ literal.value = x ∧
          SameTokens text (literalText name literal).toList) ∧
      ((∃ fault, ofText line text = .error fault) ↔
        ∀ (field : Field) (written : String), field.IsWritten written →
          ¬ SameTokens text written.toList) ∧
      (∀ (type name : String) (passing : Passing), IsWord type → IsWord name →
        passing ≠ Passing.ofName type →
        SameTokens text (passing.text type name).toList →
        ofText line text = .error (.line line (.wrongPassing name type))) ∧
      (∀ (field field' : Field) (written written' : String),
        field.IsWritten written → field'.IsWritten written' → SameTokens text written.toList →
        SameTokens text written'.toList → field = field') ∧
      ∀ (h : Header) (v : Variant), h.IsConstructed → h.AvoidsKeywords →
        ∃ slots fields, h.slots v = .ok slots ∧ h.HasFields v fields ∧
          List.Forall₂ (fun slot field => ∀ line, ofText line slot.text.toList = .ok field)
            slots fields := by
  refine ⟨fun type name => ?_, fun type name => ?_, fun name x => ?_, ?_,
    fun type name passing htype hname hpassing => ofText_of_wrong_passing htype hname hpassing,
    fun field field' written written' h h' => h.unique h', fun h v hh hw => ?_⟩
  · rw [ofText_eq_ok_iff_isWritten]
    constructor
    · rintro ⟨written, hfield, hsame⟩
      cases hfield with
      | input htype hname hwritten => exact ⟨htype, hname, written, hwritten, hsame⟩
    · rintro ⟨htype, hname, written, hwritten, hsame⟩
      exact ⟨written, .input htype hname hwritten, hsame⟩
  · rw [ofText_eq_ok_iff_isWritten]
    constructor
    · rintro ⟨_, hfield, hsame⟩
      cases hfield with
      | output htype hname => exact ⟨htype, hname, hsame⟩
    · rintro ⟨htype, hname, hsame⟩
      exact ⟨_, .output htype hname, hsame⟩
  · rw [ofText_eq_ok_iff_isWritten]
    constructor
    · rintro ⟨_, hfield, hsame⟩
      cases hfield with
      | constant hname hliteral => exact ⟨hname, _, hliteral, rfl, hsame⟩
    · rintro ⟨hname, literal, hliteral, rfl, hsame⟩
      exact ⟨_, .constant hname hliteral, hsame⟩
  · cases hread : ofText line text with
    | error fault =>
      refine iff_of_true ⟨fault, rfl⟩ fun field written hwritten hsame => ?_
      cases hread.symm.trans (ofText_eq_ok_iff_isWritten.mpr ⟨written, hwritten, hsame⟩)
    | ok field =>
      obtain ⟨written, hwritten, hsame⟩ := ofText_eq_ok_iff_isWritten.mp hread
      refine iff_of_false ?_ fun h => h field written hwritten hsame
      rintro ⟨fault, hfault⟩
      cases hfault
  · obtain ⟨slots, fields, hslots, hwritten, hfields⟩ := Header.exists_slots hh.isChecked hw v
    exact ⟨slots, fields, hslots, hfields, hwritten.imp fun slot field hslot => hslot.read⟩

/-- A large type is read with its reference mark at the name, a small one is refused by reference,
and a header with a constant derivative is read back. -/
theorem ofText_reads_written_vector :
    ofText 3 "const Vec &v".toList = .ok (.input ⟨"Vec", "v"⟩) ∧
      ofText 3 "const double&x".toList = .error (.line 3 (.wrongPassing "x" "double")) ∧
      ∃ h : Header, Header.ofParts "f" [⟨"double", "x"⟩] [⟨"double", "y"⟩] [⟨true, false⟩, .plain]
          (ChannelMap.empty.insert (.first 0 0) (.nearest true 5 2)) = .ok h ∧
        ∃ slots fields, h.slots ⟨true, false⟩ = .ok slots ∧ h.HasFields ⟨true, false⟩ fields ∧
          List.Forall₂ (fun slot field => ∀ line, ofText line slot.text.toList = .ok field)
          slots fields := by
  have hvec : IsWord "Vec" := ⟨by decide, by decide⟩
  have hv : IsWord "v" := ⟨by decide, by decide⟩
  have hdouble : IsWord "double" := ⟨by decide, by decide⟩
  have hx : IsWord "x" := ⟨by decide, by decide⟩
  have hsame : SameTokens "const Vec &v".toList "const Vec& v".toList :=
    (Header.lexes_referenced hvec hv).sameTokens_iff.mpr rfl
  have hsame' :
      SameTokens "const double&x".toList (Passing.byConstReference.text "double" "x").toList :=
    (Header.lexes_referenced hdouble hx).sameTokens_iff.mpr rfl
  obtain ⟨h, hh⟩ := Header.exists_linear
  have hw := Header.avoidsKeywords_of_ofParts hh Header.linear_avoidsKeywords
  obtain ⟨hinput, -⟩ := ofText_reads_written 3 "const Vec &v".toList
  obtain ⟨-, -, -, -, hrefused, -, hheader⟩ := ofText_reads_written 3 "const double&x".toList
  exact ⟨(hinput "Vec" "v").mpr ⟨hvec, hv, _, rfl, hsame⟩,
    hrefused "double" "x" .byConstReference hdouble hx nofun hsame', h, hh,
    hheader h ⟨true, false⟩ (.inl ⟨_, _, _, _, _, hh⟩) hw⟩

end Field

end DerivativeHeaders
