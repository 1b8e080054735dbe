import DerivativeHeaders.Proofs.Header.Block
import DerivativeHeaders.Proofs.Json.Members
import DerivativeHeaders.Proofs.Json.Reader
import DerivativeHeaders.Proofs.Json.Spacing

/-! # Variants read from text

A variant is what the last members with the keys of the toggles say, whatever else the object holds.
A strict reader looks at the keys besides. Neither blanks nor the order of the members matter.
-/
namespace DerivativeHeaders

open Outcome

/-- A text is an object of these pairs of key and value, in the order of the text. -/
def Json.Holds (text : String) (pairs : List (String × Json)) : Prop :=
  IsObject pairs (words text.toList)

theorem Toggle.ofKey?_isNone_iff {key : String} :
    (Toggle.ofKey? key).isNone ↔ ¬ ∃ t : Toggle, t.key = key := by
  rw [Toggle.ofKey?, Option.isNone_iff_eq_none, List.find?_eq_none]
  constructor
  · rintro h ⟨t, rfl⟩
    exact h t (by cases t <;> decide) (beq_self_eq_true t.key)
  · intro h t _ ht
    exact h ⟨t, eq_of_beq ht⟩

namespace Variant

variable {text text' : String} {pairs pairs' members : List (String × Json)} {strict : Bool}
  {v : Variant} {t : Toggle}
  {b : Bool}

/-- The last pair with the key of the toggle says so, or there is none and the toggle is off. -/
def Sets (pairs : List (String × Json)) (t : Toggle) (b : Bool) : Prop :=
  Json.IsLast pairs t.key (.bool b) ∨ t.key ∉ pairs.map Prod.fst ∧ b = false

def HasToggleKeys (pairs : List (String × Json)) : Prop :=
  ∀ key, key ∈ pairs.map Prod.fst ↔ ∃ t : Toggle, t.key = key

theorem readToggle_eq_ok_iff : readToggle (Json.membersOf pairs) t = .ok b ↔ Sets pairs t b := by
  rw [Sets, ← Json.member?_membersOf_eq_some_iff, ← Json.mem_keys_membersOf,
    ← Json.member?_eq_none_iff, readToggle]
  cases Json.member? t.key (Json.membersOf pairs) with
  | none => simp [eq_comm]
  | some value => cases value <;> simp

theorem exists_readToggle_iff : (∃ b, readToggle (Json.membersOf pairs) t = .ok b) ↔
    ∀ value, Json.IsLast pairs t.key value → ∃ b, value = .bool b := by
  simp only [← Json.member?_membersOf_eq_some_iff, readToggle]
  cases Json.member? t.key (Json.membersOf pairs) with
  | none => simp
  | some value => cases value <;> simp

theorem ofMembers_lenient_iff :
    ofMembers false members = .ok v ↔ ∀ t, readToggle members t = .ok (v.get t) := by
  obtain ⟨firstOrder, secondOrder⟩ := v
  simp only [ofMembers, Bool.false_eq_true, ↓reduceIte, bind_eq_ok, pure_eq_ok, Variant.mk.injEq]
  constructor
  · rintro ⟨_, hfirst, _, hsecond, rfl, rfl⟩ t
    cases t with
    | firstOrder => exact hfirst
    | secondOrder => exact hsecond
  · intro h
    exact ⟨firstOrder, h .firstOrder, secondOrder, h .secondOrder, rfl, rfl⟩

theorem exists_ofMembers_iff :
    (∃ v, ofMembers false members = .ok v) ↔ ∀ t, ∃ b, readToggle members t = .ok b := by
  simp only [ofMembers_lenient_iff]
  constructor
  · rintro ⟨v, h⟩ t
    exact ⟨v.get t, h t⟩
  · intro h
    obtain ⟨firstOrder, hfirst⟩ := h .firstOrder
    obtain ⟨secondOrder, hsecond⟩ := h .secondOrder
    refine ⟨⟨firstOrder, secondOrder⟩, fun t => ?_⟩
    cases t with
    | firstOrder => exact hfirst
    | secondOrder => exact hsecond

theorem checkKeys_eq_ok_iff : checkKeys (Json.membersOf pairs) = .ok () ↔ HasToggleKeys pairs := by
  have hall (t : Toggle) : t ∈ Toggle.all := by cases t <;> decide
  have hunknown : ((Json.membersOf pairs).map Prod.fst).filter (fun k => (Toggle.ofKey? k).isNone) =
      [] ↔ ∀ key ∈ pairs.map Prod.fst, ∃ t : Toggle, t.key = key := by
    simp only [List.filter_eq_nil_iff, Toggle.ofKey?_isNone_iff, not_not, Json.mem_keys_membersOf]
  have hmissing : Toggle.all.filter (fun t => (Json.member? t.key (Json.membersOf pairs)).isNone) =
      [] ↔ ∀ t : Toggle, t.key ∈ pairs.map Prod.fst := by
    simp only [List.filter_eq_nil_iff, Option.isNone_iff_eq_none, Json.member?_eq_none_iff, not_not,
      Json.mem_keys_membersOf, hall, true_imp_iff]
  have hkeys : HasToggleKeys pairs ↔
      (∀ key ∈ pairs.map Prod.fst, ∃ t : Toggle, t.key = key) ∧
      ∀ t : Toggle, t.key ∈ pairs.map Prod.fst := by
    constructor
    · exact fun h => ⟨fun key => (h key).mp, fun t => (h t.key).mpr ⟨t, rfl⟩⟩
    · rintro ⟨hknown, hpresent⟩ key
      refine ⟨hknown key, ?_⟩
      rintro ⟨t, rfl⟩
      exact hpresent t
  rw [hkeys, ← hunknown, ← hmissing, checkKeys]
  split
  · rename_i h
    exact iff_of_true rfl h
  · rename_i h
    exact iff_of_false nofun h

theorem ofMembers_strict_iff : ofMembers true members = .ok v ↔
    checkKeys members = .ok () ∧ ofMembers false members = .ok v := by
  have hstrict : ofMembers true members = checkKeys members >>= fun _ => ofMembers false members :=
    rfl
  rw [hstrict, bind_eq_ok]
  exact ⟨fun ⟨_, hkeys, hread⟩ => ⟨hkeys, hread⟩, fun ⟨hkeys, hread⟩ => ⟨(), hkeys, hread⟩⟩

theorem ofText_of_holds (h : Json.Holds text pairs) (strict : Bool) :
    ofText strict text = ofMembers strict (Json.membersOf pairs) := by
  rw [ofText, Json.readObject_eq_ok_iff.mpr ⟨pairs, h, rfl⟩]

theorem ofText_of_not_holds (h : ∀ pairs, ¬ Json.Holds text pairs) (strict : Bool) :
    ∃ fault, ofText strict text = .error (.notObject fault) := by
  rw [ofText]
  cases hread : Json.readObject text.toList with
  | error fault => exact ⟨fault, rfl⟩
  | ok members =>
    obtain ⟨pairs, hpairs, -⟩ := Json.readObject_eq_ok_iff.mp hread
    exact absurd hpairs (h pairs)

theorem ofText_lenient_iff (h : Json.Holds text pairs) :
    ofText false text = .ok v ↔ ∀ t, Sets pairs t (v.get t) := by
  rw [ofText_of_holds h, ofMembers_lenient_iff]
  exact forall_congr' fun _ => readToggle_eq_ok_iff

theorem exists_ofText_iff (h : Json.Holds text pairs) : (∃ v, ofText false text = .ok v) ↔
    ∀ t value, Json.IsLast pairs (Toggle.key t) value → ∃ b, value = .bool b := by
  rw [ofText_of_holds h, exists_ofMembers_iff]
  exact forall_congr' fun _ => exists_readToggle_iff

theorem ofText_strict_iff (h : Json.Holds text pairs) :
    ofText true text = .ok v ↔ ofText false text = .ok v ∧ HasToggleKeys pairs := by
  rw [ofText_of_holds h, ofText_of_holds h, ofMembers_strict_iff, checkKeys_eq_ok_iff]
  exact and_comm

/-- A strict reader only looks at the keys besides. -/
theorem ofText_lenient_of_strict (h : ofText true text = .ok v) : ofText false text = .ok v := by
  by_cases hobject : ∃ pairs, Json.Holds text pairs
  · obtain ⟨pairs, hpairs⟩ := hobject
    exact ((ofText_strict_iff hpairs).mp h).1
  · obtain ⟨fault, hfault⟩ := ofText_of_not_holds (not_exists.mp hobject) true
    cases hfault.symm.trans h

/-- Texts with the same words are read as the same variants. -/
theorem ofText_of_words (h : Json.words text'.toList = Json.words text.toList) (strict : Bool)
    (v : Variant) :
    ofText strict text' = .ok v ↔ ofText strict text = .ok v := by
  have hholds (pairs : List (String × Json)) : Json.Holds text' pairs ↔ Json.Holds text pairs := by
    rw [Json.Holds, h, Json.Holds]
  by_cases hobject : ∃ pairs, Json.Holds text pairs
  · obtain ⟨pairs, hpairs⟩ := hobject
    rw [ofText_of_holds hpairs, ofText_of_holds ((hholds pairs).mpr hpairs)]
  · obtain ⟨fault, hfault⟩ := ofText_of_not_holds (not_exists.mp hobject) strict
    obtain ⟨fault', hfault'⟩ :=
      ofText_of_not_holds (fun pairs h => hobject ⟨pairs, (hholds pairs).mp h⟩) strict
    rw [hfault, hfault']
    exact iff_of_false nofun nofun

theorem ofText_of_perm (h : Json.Holds text pairs) (h' : Json.Holds text' pairs')
    (hkeys : (pairs.map Prod.fst).Nodup)
    (hperm : pairs.Perm pairs') (strict : Bool) : ofText strict text' = ofText strict text := by
  rw [ofText_of_holds h, ofText_of_holds h', Json.membersOf_perm hkeys hperm]

section Written

theorem toList_toText (v : Variant) :
    v.toText.toList = ['\n'].intercalate (v.textLines.map String.toList) :=
  String.toList_intercalate

theorem ofText_toText (v : Variant) (strict : Bool) : ofText strict v.toText = .ok v := by
  have hstrict := ofText_textLines v
  rw [← toList_toText, String.ofList_toList] at hstrict
  cases strict with
  | true => exact hstrict
  | false => exact ofText_lenient_of_strict hstrict

theorem lines_toText (v : Variant) :
    Text.lines v.toText.toList = v.textLines.map String.toList := by
  rw [toList_toText]
  obtain ⟨_ | _, _ | _⟩ := v <;> decide +kernel

/-- Slashes and a text, with blanks around them. -/
def IsCommented (line text : List Char) : Prop := ∃ front back, (∀ c ∈ front, Text.isBlank c) ∧
  (∀ c ∈ back, Text.isBlank c) ∧ line = front ++ (commentStart.toList ++ text ++ back)

theorem comment?_of_isCommented {line text : List Char} (h : IsCommented line text)
    (htext : comment? (commentStart.toList ++ text) = some text) : comment? line = some text := by
  obtain ⟨front, back, hfront, hback, rfl⟩ := h
  have htrim : Text.trim (front ++ (commentStart.toList ++ text ++ back)) =
      Text.trim (commentStart.toList ++ text) := by
    rw [← Text.trim_append_blank (commentStart.toList ++ text) hback, Text.trim, Text.trim,
      Text.trimStart, List.dropWhile_append_of_pos hfront]
    rfl
  rw [comment?, htrim]
  exact htext

/-- The lines of a variant are found again behind slashes. -/
theorem mapM_comment?_of_isCommented {lines texts : List (List Char)}
    (h : List.Forall₂ IsCommented lines texts)
    (htexts : ∀ text ∈ texts, comment? (commentStart.toList ++ text) = some text) :
    lines.mapM comment? = some texts := by
  induction h with
  | nil => rfl
  | @cons line text lines texts hline hlines ih =>
    rw [List.mapM_cons, comment?_of_isCommented hline (htexts text List.mem_cons_self),
      ih fun other hother => htexts other (List.mem_cons_of_mem _ hother)]
    rfl

theorem mapM_comment?_toText {lines : List (List Char)}
    (h : List.Forall₂ IsCommented lines (Text.lines v.toText.toList)) :
    lines.mapM comment? = some (Text.lines v.toText.toList) := by
  refine mapM_comment?_of_isCommented h fun text htext => ?_
  rw [lines_toText] at htext
  obtain ⟨line, hline, rfl⟩ := List.mem_map.mp htext
  rw [← String.toList_append]
  exact (comment?_textLines v line hline).2

end Written

/-- A text that is no object is not read. An object is read leniently as the variant that its last
members with the keys of the toggles give, which are to be booleans, and strictly if besides its
keys are those of the toggles. Neither blanks between tokens nor the order of distinct keys matter.
What a variant is written as is read as the variant, also from comment lines. -/
theorem ofText_exact :
    (∀ text, (∀ pairs, ¬ Json.Holds text pairs) →
      ∀ strict, ∃ fault, ofText strict text = .error (.notObject fault)) ∧
      (∀ text pairs, Json.Holds text pairs → (∀ pairs', Json.Holds text pairs' → pairs' = pairs) ∧
        ((∃ v, ofText false text = .ok v) ↔
          ∀ t value, Json.IsLast pairs (Toggle.key t) value → ∃ b, value = .bool b) ∧
        ∀ v, (ofText false text = .ok v ↔ ∀ t, Sets pairs t (v.get t)) ∧
          (ofText true text = .ok v ↔ ofText false text = .ok v ∧ HasToggleKeys pairs)) ∧
      (∀ text text', Relation.EqvGen Json.InsertsBlank text.toList text'.toList →
        ∀ strict v, ofText strict text' = .ok v ↔ ofText strict text = .ok v) ∧
      (∀ text text' pairs pairs', Json.Holds text pairs → Json.Holds text' pairs' →
        (pairs.map Prod.fst).Nodup → pairs.Perm pairs' →
        ∀ strict, ofText strict text' = ofText strict text) ∧
      ∀ v strict, ofText strict (toText v) = .ok v ∧
        ∀ lines, List.Forall₂ IsCommented lines (Text.lines (toText v).toList) → ∃ comments,
          lines.mapM comment? = some comments ∧
          ofText strict (String.ofList (['\n'].intercalate comments)) = .ok v := by
  refine ⟨fun text h strict => ofText_of_not_holds h strict, fun text pairs h => ?_,
    fun text text' h strict v => ?_,
    fun text text' pairs pairs' h h' hkeys hperm strict => ofText_of_perm h h' hkeys hperm strict,
    fun v strict => ?_⟩
  · exact ⟨fun _ h' => Json.IsObject.unique h' h, exists_ofText_iff h,
      fun v => ⟨ofText_lenient_iff h, ofText_strict_iff h⟩⟩
  · exact ofText_of_words (Json.words_of_eqvGen h) strict v
  · refine ⟨ofText_toText v strict, fun lines hlines => ⟨_, mapM_comment?_toText hlines, ?_⟩⟩
    rw [lines_toText, ← toList_toText, String.ofList_toList]
    exact ofText_toText v strict

/-- An object with another key and a repeated one, of which only the last has a boolean. -/
def repeatedText : String :=
  "\x7b\"x\": [1, \x7b\x7d], \"enable_1st_order_derivative\": 0, \"enable_1st_order_derivative\": true\x7d"

def repeatedPairs : List (String × Json) :=
  [("x", .array [.integer 1, .object []]), (Toggle.firstOrder.key, .integer 0),
  (Toggle.firstOrder.key, .bool true)]

theorem holds_repeated : Json.Holds repeatedText repeatedPairs := by
  have hitems : Json.Spells 126 (.value (.array [.integer 1, .object []]))
      [.openBracket, .scalar (.integer 1), .comma, .openBrace, .closeBrace, .closeBracket] :=
    .array
      (.nextItem (.nextItem (.noItems 125) (.scalar 125 (.integer 1))) (.object (.noMembers 124)))
  exact ⟨_, rfl, .nextMember (.nextMember (.nextMember (.noMembers 126) hitems)
    (.scalar 126 (.integer 0))) (.scalar 126 (.bool true))⟩

/-- The members of a written variant the other way round, on one line. -/
def swappedText : String :=
  "\x7b\"enable_2nd_order_derivative\":false,\"enable_1st_order_derivative\":true\x7d"

def writtenPairs : List (String × Json) :=
  [(Toggle.firstOrder.key, .bool true), (Toggle.secondOrder.key, .bool false)]

theorem holds_written : Json.Holds (toText ⟨true, false⟩) writtenPairs := by
  rw [Json.Holds, toList_toText]
  exact ⟨_, rfl, .nextMember (.nextMember (.noMembers 126) (.scalar 126 (.bool true)))
    (.scalar 126 (.bool false))⟩

theorem holds_swapped : Json.Holds swappedText writtenPairs.reverse :=
  ⟨_, rfl, .nextMember (.nextMember (.noMembers 126) (.scalar 126 (.bool false)))
    (.scalar 126 (.bool true))⟩

/-- No object, an object for a lenient reader only, an object with a blank, swapped members, and
indented comment lines. -/
theorem ofText_exact_samples :
    (∃ fault, ofText true "[true]" = .error (.notObject fault)) ∧
      (ofText false repeatedText = .ok ⟨true, false⟩ ∧ ∀ v, ofText true repeatedText ≠ .ok v) ∧
      ofText false "\x7b \x7d" = .ok plain ∧ ofText true swappedText = .ok ⟨true, false⟩ ∧
      ∃ comments, ((Text.lines (toText widest).toList).map fun line =>
        '\t' :: '/' :: '/' :: line ++ [' ']).mapM comment? = some comments ∧
        ofText true (String.ofList (['\n'].intercalate comments)) = .ok widest := by
  obtain ⟨hother, hobject, hblank, hperm, hwritten⟩ := ofText_exact
  refine ⟨hother "[true]" (fun pairs h => ?_) true, ⟨?_, fun v h => ?_⟩, ?_, ?_, ?_⟩
  · obtain ⟨us, hwords, -⟩ := h
    have hbracket : [.openBracket, .scalar (.bool true), .closeBracket] = .openBrace :: us ++
        [.closeBrace] := hwords
    cases hbracket
  · refine ((hobject _ _ holds_repeated).2.2 _).1.mpr fun t => ?_
    cases t with
    | firstOrder => exact .inl ⟨repeatedPairs.take 2, [], rfl, List.not_mem_nil⟩
    | secondOrder => exact .inr ⟨by decide, rfl⟩
  · have hkeys := (((hobject _ _ holds_repeated).2.2 v).2.mp h).2
    obtain ⟨t, ht⟩ := (hkeys "x").mp (by decide)
    cases t <;> exact absurd ht (by decide)
  · refine (hblank "\x7b\x7d" "\x7b \x7d" (.rel _ _ (.insert ['\x7b'] ['\x7d'] ' ' rfl ?_))
      false plain).mpr ?_
    · unfold Json.IsGap
      decide
    · have hempty : Json.Holds "\x7b\x7d" [] := ⟨[], rfl, .noMembers 126⟩
      refine ((hobject _ _ hempty).2.2 plain).1.mpr fun t => .inr ⟨List.not_mem_nil, ?_⟩
      cases t <;> rfl
  · rw [hperm _ _ _ _ holds_written holds_swapped (by decide) (List.reverse_perm _).symm true]
    exact (hwritten ⟨true, false⟩ true).1
  · refine (hwritten widest true).2 _
      (List.forall₂_map_left_iff.mpr (List.forall₂_same.mpr fun line _ => ?_))
    exact ⟨['\t'], [' '], List.forall_mem_singleton.mpr rfl, List.forall_mem_singleton.mpr rfl, rfl⟩

end Variant

end DerivativeHeaders
