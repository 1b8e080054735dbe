import DerivativeHeaders.Json
import Mathlib.Data.List.Induction
import Mathlib.Data.List.Nodup
import Mathlib.Data.String.Basic

/-! # Members of objects

Of the pairs of an object that have one key the last one counts. Pairs with distinct keys make the
same members in any order.
-/
namespace DerivativeHeaders.Json

variable {key k : String} {value : Json} {members pairs pairs' : List (String × Json)}

/-- The value is that of the last pair with the key. -/
def IsLast (pairs : List (String × Json)) (key : String) (value : Json) : Prop :=
  ∃ before after, pairs = before ++ (key, value) :: after ∧ key ∉ after.map Prod.fst

theorem member?_cons (key : String) (x : String × Json) (members : List (String × Json)) :
    member? key (x :: members) = if x.1 = key then some x.2 else member? key members := by
  rw [member?, List.find?_cons]
  by_cases hx : x.1 = key
  · rw [if_pos hx, beq_iff_eq.mpr hx]
    rfl
  · rw [if_neg hx, beq_eq_false_iff_ne.mpr hx]
    rfl

theorem member?_eq_none_iff : member? key members = none ↔ key ∉ members.map Prod.fst := by
  induction members with
  | nil => exact iff_of_true rfl List.not_mem_nil
  | cons x members ih =>
    rw [member?_cons, List.map_cons, List.mem_cons, not_or]
    by_cases hx : x.1 = key
    · rw [if_pos hx]
      exact iff_of_false (Option.some_ne_none _) fun h => h.1 hx.symm
    · rw [if_neg hx, ih]
      exact (and_iff_right (Ne.symm hx)).symm

theorem member?_insertMember (key key' : String) (value : Json) (members : List (String × Json)) :
    member? key (insertMember key' value members) = if key' = key then some value
      else member? key members := by
  induction members with
  | nil => rw [insertMember, member?_cons]
  | cons x members ih =>
    obtain ⟨k, v⟩ := x
    rw [insertMember]
    split
    · rw [member?_cons]
    · split
      · rename_i hk
        rw [member?_cons, member?_cons, ← hk]
        split <;> rfl
      · rename_i hk
        rw [member?_cons, member?_cons, ih]
        split
        · rename_i heq
          rw [if_neg fun h => hk (h.trans heq.symm)]
        · rfl

theorem membersOf_concat (pairs : List (String × Json)) (x : String × Json) :
    membersOf (pairs ++ [x]) = insertMember x.1 x.2 (membersOf pairs) := by
  rw [membersOf, List.foldl_append]
  rfl

theorem member?_membersOf (key : String) (pairs : List (String × Json)) :
    member? key (membersOf pairs) = member? key pairs.reverse := by
  induction pairs using List.reverseRecOn with
  | nil => rfl
  | append_singleton pairs x ih =>
    rw [membersOf_concat, member?_insertMember, ih, List.reverse_concat, member?_cons]

theorem mem_keys_membersOf : key ∈ (membersOf pairs).map Prod.fst ↔ key ∈ pairs.map Prod.fst := by
  rw [← not_iff_not, ← member?_eq_none_iff, member?_membersOf, member?_eq_none_iff,
    List.map_reverse, List.mem_reverse]

theorem member?_membersOf_eq_some_iff :
    member? key (membersOf pairs) = some value ↔ IsLast pairs key value := by
  rw [member?_membersOf]
  induction pairs using List.reverseRecOn with
  | nil => exact iff_of_false nofun fun ⟨before, after, h, _⟩ => by simp at h
  | append_singleton pairs x ih =>
    rw [List.reverse_concat, member?_cons]
    obtain ⟨k, v⟩ := x
    constructor
    · intro h
      split at h
      · rename_i hk
        cases h
        exact ⟨pairs, [], by rw [← hk], List.not_mem_nil⟩
      · rename_i hk
        obtain ⟨before, after, rfl, hafter⟩ := ih.mp h
        refine ⟨before, after ++ [(k, v)], by rw [List.append_assoc, List.cons_append], ?_⟩
        rw [List.map_append, List.mem_append, not_or]
        exact ⟨hafter, fun hmem => hk (List.mem_singleton.mp hmem).symm⟩
    · rintro ⟨before, after, h, hafter⟩
      cases after using List.reverseRecOn with
      | nil =>
        obtain ⟨-, hlast⟩ := List.append_inj' h rfl
        cases hlast
        exact if_pos rfl
      | append_singleton after y =>
        rw [← List.cons_append, ← List.append_assoc] at h
        obtain ⟨rfl, hlast⟩ := List.append_inj' h rfl
        cases hlast
        rw [List.map_append, List.mem_append, not_or] at hafter
        rw [if_neg fun hk => hafter.2 (List.mem_singleton.mpr hk.symm)]
        exact ih.mpr ⟨before, after, rfl, hafter.1⟩

theorem insertMember_of_lt {key : String} (h : key < k) (value v : Json)
    (rest : List (String × Json)) :
    insertMember key value ((k, v) :: rest) = (key, value) :: (k, v) :: rest := by
  rw [insertMember, if_pos h]

theorem insertMember_self (key : String) (value v : Json) (rest : List (String × Json)) :
    insertMember key value ((key, v) :: rest) = (key, value) :: rest := by
  rw [insertMember, if_neg (lt_irrefl key), if_pos rfl]

theorem insertMember_of_gt {key : String} (h : k < key) (value v : Json)
    (rest : List (String × Json)) :
    insertMember key value ((k, v) :: rest) = (k, v) :: insertMember key value rest := by
  rw [insertMember, if_neg h.not_gt, if_neg h.ne']

/-- Members with different keys may be put in in any order. -/
theorem insertMember_comm {key key' : String} (h : key ≠ key') (value value' : Json)
    (members : List (String × Json)) :
    insertMember key value (insertMember key' value' members) =
      insertMember key' value' (insertMember key value members) := by
  wlog hlt : key < key' generalizing key key' value value'
  · exact (this h.symm value' value (h.lt_or_gt.resolve_left hlt)).symm
  induction members with
  | nil =>
    rw [insertMember, insertMember, insertMember_of_lt hlt, insertMember_of_gt hlt, insertMember]
  | cons x members ih =>
    obtain ⟨k, v⟩ := x
    rcases lt_trichotomy key' k with hk' | rfl | hk'
    · rw [insertMember_of_lt hk', insertMember_of_lt hlt, insertMember_of_lt (hlt.trans hk'),
        insertMember_of_gt hlt, insertMember_of_lt hk']
    · rw [insertMember_self, insertMember_of_lt hlt, insertMember_of_lt hlt, insertMember_of_gt hlt,
        insertMember_self]
    · rw [insertMember_of_gt hk']
      rcases lt_trichotomy key k with hk | rfl | hk
      · rw [insertMember_of_lt hk, insertMember_of_lt hk, insertMember_of_gt hlt,
          insertMember_of_gt hk']
      · rw [insertMember_self, insertMember_self, insertMember_of_gt hlt]
      · rw [insertMember_of_gt hk, insertMember_of_gt hk, insertMember_of_gt hk', ih]

/-- Pairs with distinct keys make the same members in any order. -/
theorem membersOf_perm (hkeys : (pairs.map Prod.fst).Nodup) (h : pairs.Perm pairs') :
    membersOf pairs = membersOf pairs' := by
  refine h.foldl_eq' (fun x hx y hy members => ?_) []
  by_cases hxy : x = y
  · rw [hxy]
  · exact insertMember_comm (fun heq => hxy (List.inj_on_of_nodup_map hkeys hx hy heq.symm)) _ _
      members

end DerivativeHeaders.Json
