import DerivativeHeaders.Proofs.Json.Grammar
import DerivativeHeaders.Proofs.Outcome

/-! # Objects are read by their grammar

What has been read is always the front of a derivation, and every derivation is read to its end. So
a text is read exactly if it is an object, and what is read is the members of its pairs.
-/
namespace DerivativeHeaders.Json

variable {frames : List Frame} {s s' : State} {t : Token} {ts us before : List Token} {v : Json}
  {vs : List Json}
  {pairs members : List (String × Json)} {room : Nat}

section Moves

/-- The step that a token makes wherever it stands. -/
def move (s : State) (t : Token) : Option State := (step s ⟨t, ⟨0, 0⟩⟩).toOption

theorem startValue_openBrace (frames : List Frame) (place : Span) :
    startValue frames ⟨.openBrace, place⟩ =
      if depthLimit ≤ frames.length then noticed ⟨.openBrace, place⟩ .tooDeep
      else .ok ⟨frames, .firstKey⟩ := rfl

theorem startValue_openBracket (frames : List Frame) (place : Span) :
    startValue frames ⟨.openBracket, place⟩ = if depthLimit ≤ frames.length then
      noticed ⟨.openBracket, place⟩ .tooDeep
    else .ok ⟨.array [] :: frames, .firstItem⟩ := rfl

theorem toOption_startValue (frames : List Frame) (t : Located Token) :
    (startValue frames t).toOption = (startValue frames ⟨t.value.plain, ⟨0, 0⟩⟩).toOption := by
  obtain ⟨token, span⟩ := t
  cases token with
  | openBrace =>
    change (startValue frames ⟨.openBrace, span⟩).toOption =
      (startValue frames ⟨.openBrace, ⟨0, 0⟩⟩).toOption
    rw [startValue_openBrace, startValue_openBrace]
    split <;> rfl
  | openBracket =>
    change (startValue frames ⟨.openBracket, span⟩).toOption =
      (startValue frames ⟨.openBracket, ⟨0, 0⟩⟩).toOption
    rw [startValue_openBracket, startValue_openBracket]
    split <;> rfl
  | _ => rfl

theorem toOption_startKey (frames : List Frame) (members : List (String × Json))
    (t : Located Token) :
    (startKey frames members t).toOption =
      (startKey frames members ⟨t.value.plain, ⟨0, 0⟩⟩).toOption := by
  obtain ⟨token, span⟩ := t
  cases token with
  | scalar v => cases v <;> rfl
  | _ => rfl

/-- A value may come next. -/
inductive Expectation.TakesValue : Expectation → Prop
  | firstItem : TakesValue .firstItem
  | item : TakesValue .item
  | memberValue : TakesValue .memberValue

/-- A key may come next, after these members. -/
inductive Expectation.TakesKey : List (String × Json) → Expectation → Prop
  | firstKey : TakesKey [] .firstKey
  | key (members : List (String × Json)) : TakesKey members (.key members)

theorem step_value {next : Expectation} (hnext : next.TakesValue) {t : Located Token}
    (ht : t.value ≠ .closeBracket) :
    step ⟨frames, next⟩ t = startValue frames t := by
  obtain ⟨token, span⟩ := t
  cases hnext with
  | memberValue => rfl
  | _ => cases token with
    | closeBracket => exact absurd rfl ht
    | _ => rfl

theorem step_key {next : Expectation} (hnext : next.TakesKey members) {t : Located Token}
    (ht : t.value ≠ .closeBrace) :
    step ⟨frames, next⟩ t = startKey frames members t := by
  obtain ⟨token, span⟩ := t
  cases hnext <;> cases token with
    | closeBrace => exact absurd rfl ht
    | _ => rfl

theorem toOption_step (s : State) (t : Located Token) :
    (step s t).toOption = move s t.value.plain := by
  obtain ⟨frames, next⟩ := s
  have hvalue (hnext : next.TakesValue) (ht : t.value ≠ .closeBracket) :
      (step ⟨frames, next⟩ t).toOption = move ⟨frames, next⟩ t.value.plain := by
    rw [move, step_value hnext ht, step_value hnext (Token.plain_ne_closeBracket ht),
      toOption_startValue]
  have hkey {members : List (String × Json)} (hnext : next.TakesKey members)
      (ht : t.value ≠ .closeBrace) :
      (step ⟨frames, next⟩ t).toOption = move ⟨frames, next⟩ t.value.plain := by
    rw [move, step_key hnext ht, step_key hnext (Token.plain_ne_closeBrace ht), toOption_startKey]
  obtain ⟨token, span⟩ := t
  cases next with
  | memberValue => exact toOption_startValue frames ⟨token, span⟩
  | firstItem => cases token with
    | closeBracket => rfl
    | _ => exact hvalue .firstItem nofun
  | item => cases token with
    | closeBracket => rfl
    | _ => exact hvalue .item nofun
  | firstKey => cases token with
    | closeBrace => rfl
    | _ => exact hkey .firstKey nofun
  | key => cases token with
    | closeBrace => rfl
    | _ => exact hkey (.key _) nofun
  | _ => cases token <;> rfl

theorem toOption_foldlM_step (s : State) (ts : List (Located Token)) :
    (ts.foldlM step s).toOption = (ts.map fun t => t.value.plain).foldlM move s := by
  induction ts generalizing s with
  | nil => rfl
  | cons t ts ih =>
    rw [List.foldlM_cons, List.map_cons, List.foldlM_cons, ← toOption_step]
    cases step s t with
    | error m => rfl
    | ok s => exact ih s

theorem readObject_eq_ok {cs : List Char} : readObject cs = .ok members ↔
    ∃ frames, (words cs).foldlM move ⟨[], .start⟩ = some ⟨frames, .finished members⟩ := by
  rw [words, ← toOption_foldlM_step, readObject]
  cases (tokens cs).foldlM step ⟨[], .start⟩ with
  | error m => exact iff_of_false nofun nofun
  | ok s =>
    obtain ⟨frames, next⟩ := s
    cases next with
    | finished found =>
      constructor
      · rintro ⟨⟩
        exact ⟨frames, rfl⟩
      · rintro ⟨_, ⟨⟩⟩
        rfl
    | _ => exact iff_of_false nofun nofun

end Moves

section Soundness

/-- The parts of an array or object inside of these frames. -/
structure Inside (frames : List Frame) (phrase : Phrase) (ts : List Token) : Prop where
  room : frames.length < depthLimit
  spells : Spells (depthLimit - (frames.length + 1)) phrase ts

namespace Inside

theorem room_eq (h : frames.length < depthLimit) :
    depthLimit - (frames.length + 1) + 1 = depthLimit - frames.length := by
  omega

theorem array (h : Inside frames (.items vs) ts) :
    Spells (depthLimit - frames.length) (.value (.array vs))
      (.openBracket :: ts ++ [.closeBracket]) :=
  room_eq h.room ▸ .array h.spells

theorem object (h : Inside frames (.members pairs) ts) :
    Spells (depthLimit - frames.length) (.value (.object (membersOf pairs)))
      (.openBrace :: ts ++ [.closeBrace]) :=
  room_eq h.room ▸ .object h.spells

end Inside

/-- The tokens from the start of a text up to a value in these frames. -/
inductive Leads : List Frame → List Token → Prop
  | start : Leads [] []
  | item {frames : List Frame} {items : List Json} {before us : List Token}
      (hbefore : Leads frames before) (hframes : frames ≠ [])
      (hitems : Inside frames (.items items.reverse) us) :
      Leads (.array items :: frames) (before ++ .openBracket :: commaAfter us)
  | memberValue {frames : List Frame} {members : List (String × Json)} {key : String}
      {before us : List Token}
      (hbefore : Leads frames before) (hmembers : Inside frames (.members members.reverse) us) :
      Leads (.object members key :: frames)
        (before ++ .openBrace :: (commaAfter us ++ [.scalar (.text key), .colon]))

/-- What has been read in a state is the front of an object. -/
def State.Follows : State → List Token → Prop
  | ⟨frames, .start⟩, ts => frames = [] ∧ ts = []
  | ⟨frames, .firstItem⟩, ts => Leads frames ts ∧ ∃ outer, frames = .array [] :: outer
  | ⟨frames, .item⟩, ts | ⟨frames, .memberValue⟩, ts => Leads frames ts ∧ frames ≠ []
  | ⟨frames, .afterItem items⟩, ts =>
    frames ≠ [] ∧ ∃ before us, ts = before ++ .openBracket :: us ∧ us ≠ [] ∧ Leads frames before ∧
      Inside frames (.items items.reverse) us
  | ⟨frames, .firstKey⟩, ts =>
    ∃ before, ts = before ++ [.openBrace] ∧ Leads frames before ∧ frames.length < depthLimit
  | ⟨frames, .key members⟩, ts =>
    ∃ before us, ts = before ++ .openBrace :: commaAfter us ∧ Leads frames before ∧
      Inside frames (.members members.reverse) us
  | ⟨frames, .colon members key⟩, ts =>
    ∃ before us, ts = before ++ .openBrace :: (commaAfter us ++ [.scalar (.text key)]) ∧
      Leads frames before ∧ Inside frames (.members members.reverse) us
  | ⟨frames, .afterMember members⟩, ts =>
    ∃ before us, ts = before ++ .openBrace :: us ∧ us ≠ [] ∧ Leads frames before ∧
      Inside frames (.members members.reverse) us
  | ⟨_, .finished members⟩, ts => ∃ pairs, IsObject pairs ts ∧ members = membersOf pairs

theorem follows_complete (hbefore : Leads frames before) (hframes : frames ≠ [])
    (hvalue : Spells (depthLimit - frames.length) (.value v) us) :
    (complete frames v).Follows (before ++ us) := by
  cases hbefore with
  | start => exact absurd rfl hframes
  | item hbefore houter hitems =>
    refine ⟨houter, _, _, List.append_assoc .., ?_, hbefore, hitems.room, ?_⟩
    · exact List.append_ne_nil_of_right_ne_nil _ hvalue.value_ne_nil
    · rw [List.reverse_cons]
      exact .nextItem hitems.spells hvalue
  | @memberValue _ _ key before ts hbefore hmembers =>
    refine ⟨before, commaAfter ts ++ .scalar (.text key) :: .colon :: us, ?_, ?_, hbefore,
      hmembers.room, ?_⟩
    · simp only [List.append_assoc, List.cons_append, List.nil_append]
    · exact List.append_ne_nil_of_right_ne_nil _ (List.cons_ne_nil _ _)
    · rw [List.reverse_cons]
      exact .nextMember hmembers.spells hvalue

theorem follows_closeObject (hbefore : Leads frames before)
    (hmembers : Inside frames (.members members.reverse) us) :
    (closeObject frames members).Follows (before ++ .openBrace :: us ++ [.closeBrace]) := by
  cases frames with
  | nil =>
    cases hbefore
    exact ⟨members.reverse, ⟨us, rfl, hmembers.spells⟩, rfl⟩
  | cons frame frames =>
    rw [List.append_assoc]
    exact follows_complete hbefore (List.cons_ne_nil _ _) hmembers.object

theorem follows_startValue {place : Span} (hts : Leads frames ts) (hframes : frames ≠ [])
    (h : startValue frames ⟨t, place⟩ = .ok s) : s.Follows (ts ++ [t]) := by
  cases t with
  | openBrace =>
    rw [startValue_openBrace] at h
    split at h
    · cases h
    · rename_i hroom
      cases h
      exact ⟨ts, rfl, hts, Nat.lt_of_not_le hroom⟩
  | openBracket =>
    rw [startValue_openBracket] at h
    split at h
    · cases h
    · rename_i hroom
      cases h
      exact ⟨@Leads.item frames [] ts [] hts hframes ⟨Nat.lt_of_not_le hroom, .noItems _⟩, frames,
        rfl⟩
  | scalar v =>
    cases h
    exact follows_complete hts hframes (.scalar _ v)
  | _ => cases h

theorem follows_startKey {place : Span} (hbefore : Leads frames before)
    (hmembers : Inside frames (.members members.reverse) us)
    (h : startKey frames members ⟨t, place⟩ = .ok s) :
    s.Follows (before ++ .openBrace :: commaAfter us ++ [t]) := by
  cases t with
  | scalar v => cases v with
    | text key =>
      cases h
      exact ⟨before, us, by rw [List.append_assoc, List.cons_append], hbefore, hmembers⟩
    | _ => cases h
  | _ => cases h

/-- A step goes from the front of an object to a longer one. -/
theorem follows_move (hs : s.Follows ts) (h : move s t = some s') : s'.Follows (ts ++ [t]) := by
  replace h := Outcome.eq_ok_of_toOption h
  obtain ⟨frames, next⟩ := s
  cases next with
  | start =>
    obtain ⟨rfl, rfl⟩ := hs
    cases t with
    | openBrace =>
      cases h
      exact ⟨[], rfl, .start, by decide⟩
    | _ => cases h
  | firstItem =>
    obtain ⟨hts, outer, rfl⟩ := hs
    by_cases ht : t = .closeBracket
    · subst ht
      cases h
      cases hts with
      | item hbefore houter hitems =>
        obtain rfl := hitems.spells.eq_nil_of_items
        rw [List.append_assoc]
        exact follows_complete hbefore houter hitems.array
    · rw [step_value .firstItem ht] at h
      exact follows_startValue hts (List.cons_ne_nil _ _) h
  | item =>
    by_cases ht : t = .closeBracket
    · subst ht
      cases h
    · rw [step_value .item ht] at h
      exact follows_startValue hs.1 hs.2 h
  | memberValue => exact follows_startValue hs.1 hs.2 h
  | afterItem items =>
    obtain ⟨hframes, before, us, rfl, hus, hbefore, hitems⟩ := hs
    cases t with
    | closeBracket =>
      cases h
      rw [List.append_assoc]
      exact follows_complete hbefore hframes hitems.array
    | comma =>
      cases h
      rw [List.append_assoc, List.cons_append, ← commaAfter_of_ne_nil hus]
      exact ⟨.item hbefore hframes hitems, List.cons_ne_nil _ _⟩
    | _ => cases h
  | firstKey =>
    obtain ⟨before, rfl, hbefore, hroom⟩ := hs
    have hmembers : Inside frames (.members (List.reverse [])) [] := ⟨hroom, .noMembers _⟩
    by_cases ht : t = .closeBrace
    · subst ht
      cases h
      exact follows_closeObject hbefore hmembers
    · rw [step_key .firstKey ht] at h
      exact follows_startKey hbefore hmembers h
  | key members =>
    obtain ⟨before, us, rfl, hbefore, hmembers⟩ := hs
    by_cases ht : t = .closeBrace
    · subst ht
      cases h
    · rw [step_key (.key _) ht] at h
      exact follows_startKey hbefore hmembers h
  | colon members key =>
    obtain ⟨before, us, rfl, hbefore, hmembers⟩ := hs
    cases t with
    | colon =>
      cases h
      simp only [List.append_assoc, List.cons_append, List.nil_append]
      exact ⟨.memberValue hbefore hmembers, List.cons_ne_nil _ _⟩
    | _ => cases h
  | afterMember members =>
    obtain ⟨before, us, rfl, hus, hbefore, hmembers⟩ := hs
    cases t with
    | closeBrace =>
      cases h
      exact follows_closeObject hbefore hmembers
    | comma =>
      cases h
      refine ⟨before, us, ?_, hbefore, hmembers⟩
      rw [List.append_assoc, List.cons_append, ← commaAfter_of_ne_nil hus]
    | _ => cases h
  | finished members => cases h

theorem follows_foldlM_move (hs : s.Follows before) (h : ts.foldlM move s = some s') :
    s'.Follows (before ++ ts) := by
  induction ts generalizing s before with
  | nil =>
    cases h
    rwa [List.append_nil]
  | cons t ts ih =>
    rw [List.foldlM_cons] at h
    obtain ⟨s₁, hstep, hrest⟩ := Option.bind_eq_some_iff.mp h
    rw [List.append_cons]
    exact ih (follows_move hs hstep) hrest

end Soundness

section Completeness

/-- The state after the items of an array. -/
def afterItems (frames : List Frame) : List Json → State
  | [] => ⟨.array [] :: frames, .firstItem⟩
  | v :: vs => ⟨frames, .afterItem (v :: vs).reverse⟩

/-- The state after the members of an object. -/
def afterMembers (frames : List Frame) : List (String × Json) → State
  | [] => ⟨frames, .firstKey⟩
  | x :: pairs => ⟨frames, .afterMember (x :: pairs).reverse⟩

theorem foldlM_move_cons (h : move s t = some s') (ts : List Token) :
    (t :: ts).foldlM move s = ts.foldlM move s' := by
  rw [List.foldlM_cons, h]
  rfl

theorem foldlM_move_append (h : ts.foldlM move s = some s') (us : List Token) :
    (ts ++ us).foldlM move s = us.foldlM move s' := by
  rw [List.foldlM_append, h]
  rfl

theorem move_scalar {next : Expectation} (hnext : next.TakesValue)
    (frames : List Frame) (v : Json) :
    move ⟨frames, next⟩ (.scalar v) = some (complete frames v) := by
  cases hnext <;> rfl

theorem move_openBracket {next : Expectation} (hnext : next.TakesValue)
    (hroom : frames.length < depthLimit) :
    move ⟨frames, next⟩ .openBracket = some ⟨.array [] :: frames, .firstItem⟩ := by
  rw [move, step_value hnext (t := ⟨.openBracket, _⟩) nofun, startValue_openBracket,
    if_neg (Nat.not_le_of_lt hroom)]
  rfl

theorem move_openBrace {next : Expectation} (hnext : next.TakesValue)
    (hroom : frames.length < depthLimit) :
    move ⟨frames, next⟩ .openBrace = some ⟨frames, .firstKey⟩ := by
  rw [move, step_value hnext (t := ⟨.openBrace, _⟩) nofun, startValue_openBrace,
    if_neg (Nat.not_le_of_lt hroom)]
  rfl

theorem move_key {next : Expectation} (hnext : next.TakesKey members) (frames : List Frame)
    (key : String) :
    move ⟨frames, next⟩ (.scalar (.text key)) = some ⟨frames, .colon members key⟩ := by
  cases hnext <;> rfl

theorem afterItems_of_ne_nil (frames : List Frame) (h : vs ≠ []) :
    afterItems frames vs = ⟨frames, .afterItem vs.reverse⟩ := by
  cases vs with
  | nil => exact absurd rfl h
  | cons v vs => rfl

theorem afterMembers_of_ne_nil (frames : List Frame) (h : pairs ≠ []) :
    afterMembers frames pairs = ⟨frames, .afterMember pairs.reverse⟩ := by
  cases pairs with
  | nil => exact absurd rfl h
  | cons x pairs => rfl

theorem move_closeBracket (frames : List Frame) (vs : List Json) :
    move (afterItems frames vs) .closeBracket = some (complete frames (.array vs)) := by
  cases vs with
  | nil => rfl
  | cons v vs =>
    change some (closeArray frames (v :: vs).reverse) = _
    rw [closeArray, List.reverse_reverse]

theorem move_closeBrace (frames : List Frame) (pairs : List (String × Json)) :
    move (afterMembers frames pairs) .closeBrace = some (closeObject frames pairs.reverse) := by
  cases pairs <;> rfl

theorem foldlM_commaAfter_items
    (hts : ts.foldlM move ⟨.array [] :: frames, .firstItem⟩ = some (afterItems frames vs))
    (hnil : vs = [] → ts = []) : ∃ next : Expectation, next.TakesValue ∧
      (commaAfter ts).foldlM move ⟨.array [] :: frames, .firstItem⟩ =
      some ⟨.array vs.reverse :: frames, next⟩ := by
  cases vs with
  | nil =>
    obtain rfl := hnil rfl
    exact ⟨.firstItem, .firstItem, rfl⟩
  | cons v vs =>
    have hne : ts ≠ [] := by
      rintro rfl
      cases hts
    refine ⟨.item, .item, ?_⟩
    rw [commaAfter_of_ne_nil hne, List.foldlM_append, hts]
    rfl

theorem foldlM_commaAfter_members
    (hts : ts.foldlM move ⟨frames, .firstKey⟩ = some (afterMembers frames pairs))
    (hnil : pairs = [] → ts = []) : ∃ next : Expectation, next.TakesKey pairs.reverse ∧
      (commaAfter ts).foldlM move ⟨frames, .firstKey⟩ = some ⟨frames, next⟩ := by
  cases pairs with
  | nil =>
    obtain rfl := hnil rfl
    exact ⟨.firstKey, .firstKey, rfl⟩
  | cons x pairs =>
    have hne : ts ≠ [] := by
      rintro rfl
      cases hts
    refine ⟨.key (x :: pairs).reverse, .key _, ?_⟩
    rw [commaAfter_of_ne_nil hne, List.foldlM_append, hts]
    rfl

/-- The tokens are read as the phrase inside of any frames that leave it room. -/
def Phrase.IsRead (room : Nat) (ts : List Token) : Phrase → Prop
  | .value v =>
    ∀ frames (next : Expectation), frames ≠ [] → next.TakesValue →
      frames.length + room ≤ depthLimit → ts.foldlM move ⟨frames, next⟩ = some (complete frames v)
  | .items vs => ∀ frames, frames ≠ [] → frames.length + 1 + room ≤ depthLimit →
      ts.foldlM move ⟨.array [] :: frames, .firstItem⟩ = some (afterItems frames vs)
  | .members pairs => ∀ frames : List Frame, frames.length + 1 + room ≤ depthLimit →
      ts.foldlM move ⟨frames, .firstKey⟩ = some (afterMembers frames pairs)

theorem Spells.isRead {phrase : Phrase} (h : Spells room phrase ts) : phrase.IsRead room ts := by
  induction h with
  | scalar room v =>
    intro frames next hframes hnext hroom
    exact foldlM_move_cons (move_scalar hnext frames v) []
  | @array room vs ts hitems ih =>
    intro frames next hframes hnext hroom
    rw [List.cons_append, foldlM_move_cons (move_openBracket hnext (by omega)),
      foldlM_move_append (ih frames hframes (by omega)),
      foldlM_move_cons (move_closeBracket frames vs)]
    rfl
  | @object room pairs ts hmembers ih =>
    intro frames next hframes hnext hroom
    rw [List.cons_append, foldlM_move_cons (move_openBrace hnext (by omega)),
      foldlM_move_append (ih frames (by omega)), foldlM_move_cons (move_closeBrace frames pairs)]
    cases frames with
    | nil => exact absurd rfl hframes
    | cons frame frames =>
      rw [closeObject, objectOf, List.reverse_reverse]
      rfl
  | noItems => exact fun _ _ _ => rfl
  | @nextItem room vs v ts us hitems hvalue ihitems ihvalue =>
    intro frames hframes hroom
    obtain ⟨next, hnext, hcomma⟩ :=
      foldlM_commaAfter_items (ihitems frames hframes hroom) fun h => by
      subst h
      exact hitems.eq_nil_of_items
    rw [foldlM_move_append hcomma,
      ihvalue (.array vs.reverse :: frames) next (List.cons_ne_nil _ _) hnext hroom,
      afterItems_of_ne_nil frames (List.concat_ne_nil v vs), List.reverse_concat]
    rfl
  | noMembers => exact fun _ _ => rfl
  | @nextMember room pairs key v ts us hmembers hvalue ihmembers ihvalue =>
    intro frames hroom
    obtain ⟨next, hnext, hcomma⟩ := foldlM_commaAfter_members (ihmembers frames hroom) fun h => by
      subst h
      exact hmembers.eq_nil_of_members
    have hcolon : move ⟨frames, .colon pairs.reverse key⟩ .colon =
        some ⟨.object pairs.reverse key :: frames, .memberValue⟩ := rfl
    rw [foldlM_move_append hcomma, foldlM_move_cons (move_key hnext frames key),
      foldlM_move_cons hcolon, ihvalue _ .memberValue (List.cons_ne_nil _ _) .memberValue hroom,
      afterMembers_of_ne_nil frames (List.concat_ne_nil _ pairs), List.reverse_concat]
    rfl

end Completeness

/-- The pairs are determined by the tokens. -/
theorem IsObject.unique {pairs' : List (String × Json)} (h : IsObject pairs ts)
    (h' : IsObject pairs' ts) : pairs = pairs' := by
  obtain ⟨us, rfl, hmembers⟩ := h
  obtain ⟨us', hts, hmembers'⟩ := h'
  obtain rfl := List.append_cancel_right (List.cons.inj hts).2
  have hread := hmembers.isRead [] (by decide)
  rw [hmembers'.isRead [] (by decide)] at hread
  cases pairs with
  | nil => cases pairs' with
    | nil => rfl
    | cons x' pairs' => cases hread
  | cons x pairs => cases pairs' with
    | nil => cases hread
    | cons x' pairs' =>
      injection Option.some.inj hread with _ hnext
      injection hnext with hreverse
      exact (List.reverse_injective hreverse).symm

/-- A text is read exactly if it is an object, whose members are those of its pairs. -/
theorem readObject_eq_ok_iff {cs : List Char} :
    readObject cs = .ok members ↔ ∃ pairs, IsObject pairs (words cs) ∧
      members = membersOf pairs := by
  rw [readObject_eq_ok]
  constructor
  · rintro ⟨frames, h⟩
    exact follows_foldlM_move (s := ⟨[], .start⟩) ⟨rfl, rfl⟩ h
  · rintro ⟨pairs, ⟨us, hwords, hmembers⟩, rfl⟩
    have hopen : move ⟨[], .start⟩ .openBrace = some ⟨[], .firstKey⟩ := rfl
    refine ⟨[], ?_⟩
    rw [hwords, List.cons_append,
      foldlM_move_cons hopen, foldlM_move_append (hmembers.isRead [] (by decide)),
      foldlM_move_cons (move_closeBrace [] pairs), closeObject, objectOf, List.reverse_reverse]
    rfl

end DerivativeHeaders.Json
