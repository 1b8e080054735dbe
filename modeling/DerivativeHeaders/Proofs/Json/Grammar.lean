import DerivativeHeaders.Json.Reader

/-! # The grammar of objects

A text holds an object if its tokens are derived by the usual grammar, with nesting below a limit.
-/
namespace DerivativeHeaders.Json

namespace Token

/-- The token without its place. What breaks off is as wrong as another token. -/
def plain : Token → Token
  | broken _ | brokenText _ => other
  | t => t

theorem plain_ne_closeBracket {t : Token} (h : t ≠ closeBracket) : t.plain ≠ closeBracket := by
  cases t with
  | closeBracket => exact h
  | _ => exact nofun

theorem plain_ne_closeBrace {t : Token} (h : t ≠ closeBrace) : t.plain ≠ closeBrace := by
  cases t with
  | closeBrace => exact h
  | _ => exact nofun

end Token

/-- The tokens of a text without their places. -/
def words (cs : List Char) : List Token := (tokens cs).map fun t => t.value.plain

/-- A part of a text: a value, the items of an array, or the members of an object. -/
inductive Phrase where
  | value (v : Json)
  | items (vs : List Json)
  | members (pairs : List (String × Json))

/-- A comma stands behind parts before the next one. -/
def commaAfter : List Token → List Token
  | [] => []
  | t :: ts => t :: ts ++ [.comma]

/-- The tokens of a phrase in which at most `room` arrays and objects are inside of one another. -/
inductive Spells : Nat → Phrase → List Token → Prop
  | scalar (room : Nat) (v : Json) : Spells room (.value v) [.scalar v]
  | array {room : Nat} {vs : List Json} {ts : List Token} (hitems : Spells room (.items vs) ts) :
      Spells (room + 1) (.value (.array vs)) (.openBracket :: ts ++ [.closeBracket])
  | object {room : Nat} {pairs : List (String × Json)} {ts : List Token}
      (hmembers : Spells room (.members pairs) ts) :
      Spells (room + 1) (.value (.object (membersOf pairs))) (.openBrace :: ts ++ [.closeBrace])
  | noItems (room : Nat) : Spells room (.items []) []
  | nextItem {room : Nat} {vs : List Json} {v : Json} {ts us : List Token}
      (hitems : Spells room (.items vs) ts) (hvalue : Spells room (.value v) us) :
      Spells room (.items (vs ++ [v])) (commaAfter ts ++ us)
  | noMembers (room : Nat) : Spells room (.members []) []
  | nextMember {room : Nat} {pairs : List (String × Json)} {key : String} {v : Json}
      {ts us : List Token}
      (hmembers : Spells room (.members pairs) ts) (hvalue : Spells room (.value v) us) :
      Spells room (.members (pairs ++ [(key, v)]))
        (commaAfter ts ++ .scalar (.text key) :: .colon :: us)

/-- The tokens of an object with these pairs of key and value, in the order of the text. -/
def IsObject (pairs : List (String × Json)) (ts : List Token) : Prop :=
  ∃ us, ts = .openBrace :: us ++ [.closeBrace] ∧ Spells (depthLimit - 1) (.members pairs) us

variable {ts : List Token} {v : Json} {room : Nat}

theorem commaAfter_of_ne_nil (h : ts ≠ []) : commaAfter ts = ts ++ [.comma] := by
  cases ts with
  | nil => exact absurd rfl h
  | cons t ts => rfl

theorem Spells.value_ne_nil (h : Spells room (.value v) ts) : ts ≠ [] := by
  cases h <;> exact List.cons_ne_nil _ _

theorem Spells.eq_nil_of_items (h : Spells room (.items []) ts) : ts = [] := by
  generalize hphrase : Phrase.items [] = phrase at h
  cases h with
  | noItems => rfl
  | nextItem => simp at hphrase
  | _ => cases hphrase

theorem Spells.eq_nil_of_members (h : Spells room (.members []) ts) : ts = [] := by
  generalize hphrase : Phrase.members [] = phrase at h
  cases h with
  | noMembers => rfl
  | nextMember => simp at hphrase
  | _ => cases hphrase

end DerivativeHeaders.Json
