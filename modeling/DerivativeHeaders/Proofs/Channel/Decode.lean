import DerivativeHeaders.Proofs.Channel.Name

/-! # Names and channels determine each other

What the separators cut apart is the whole of a name, so a name that is read as a channel is the
name of that channel again, but for the order of the inputs of a second derivative.
-/
namespace DerivativeHeaders.Channel

open Outcome

theorem splitFrom_ne_nil (cs : List Char) : splitFrom 0 cs ≠ [] := by
  cases cs with
  | nil => exact List.cons_ne_nil _ _
  | cons c cs =>
    rw [splitFrom]
    split
    · exact List.cons_ne_nil _ _
    · split <;> exact List.cons_ne_nil _ _

/-- The pieces of a text with the separators between them are the text. -/
theorem intercalate_splitFrom (cs : List Char) : separator.intercalate (splitFrom 0 cs) = cs := by
  induction hn : cs.length using Nat.strong_induction_on generalizing cs with
  | _ n ih =>
    subst hn
    cases cs with
    | nil => rfl
    | cons c cs =>
      cases hdrop : Text.dropStart? separator (c :: cs) with
      | some rest =>
        have heq := Text.dropStart?_eq_some.mp hdrop
        have hlength : rest.length < (c :: cs).length := by
          rw [heq, List.length_append]
          exact Nat.lt_add_of_pos_left (by decide)
        rw [heq, splitFrom_separator, List.intercalate_cons_of_ne_nil (splitFrom_ne_nil rest),
          ih _ hlength rest rfl, List.nil_append]
      | none =>
        have ih := ih cs.length (Nat.lt_succ_self _) cs rfl
        obtain ⟨piece, pieces, hpieces⟩ := List.exists_cons_of_ne_nil (splitFrom_ne_nil cs)
        rw [hpieces] at ih
        rw [splitFrom_cons hdrop hpieces, intercalate_cons_head, ih]

/-- A text is the mark of its order and its segments with separators between them. -/
theorem eq_of_segments {cs : List Char} {order : Nat} {pieces : List (List Char)}
    (h : segments cs = (order, pieces)) :
    order = 0 ∧ pieces = [cs] ∨ order = 1 ∧ cs = firstMark ++ separator.intercalate pieces ∨
      order = 2 ∧ cs = secondMark ++ separator.intercalate pieces := by
  rw [segments] at h
  cases hsecond : Text.dropStart? secondMark cs with
  | some body =>
    rw [hsecond] at h
    cases h
    refine .inr (.inr ⟨rfl, ?_⟩)
    rw [intercalate_splitFrom]
    exact Text.dropStart?_eq_some.mp hsecond
  | none =>
    rw [hsecond] at h
    cases hfirst : Text.dropStart? firstMark cs with
    | some body =>
      rw [hfirst] at h
      cases h
      refine .inr (.inl ⟨rfl, ?_⟩)
      rw [intercalate_splitFrom]
      exact Text.dropStart?_eq_some.mp hfirst
    | none =>
      rw [hfirst] at h
      cases h
      exact .inl ⟨rfl, rfl⟩

variable {outputs inputs : List String} {c d : Channel} {s : String}

theorem getElem?_of_variableIndex {channel : String} {names : List String} {i : Nat}
    (h : variableIndex channel s names = .ok i) : names[i]? = some s := by
  unfold variableIndex at h
  split at h
  · rename_i j hj
    cases h
    obtain ⟨hlt, heq, -⟩ := List.findIdx?_eq_some_iff_getElem.mp hj
    rw [List.getElem?_eq_getElem hlt, eq_of_beq heq]
  · cases h

/-- A name that is read is the name of a channel that is the one read, apart from the order of its
inputs. -/
theorem exists_name_of_ofName (h : ofName outputs inputs s = .ok c) :
    ∃ d, name outputs inputs d = .ok s ∧ d.canonical = c := by
  unfold ofName at h
  generalize hsegments : segments s.toList = parts at h
  obtain ⟨order, pieces⟩ := parts
  dsimp only at h
  split at h
  · rename_i hchecked
    obtain ⟨hlength, hvalid⟩ := hchecked
    have hparts := eq_of_segments hsegments
    have hpieces : pieces = (pieces.map String.ofList).map String.toList := by simp
    generalize pieces.map String.ofList = names at h hpieces
    subst hpieces
    have hfield : ∀ n ∈ names, isFieldName n := by simpa [isFieldName] using hvalid
    rw [List.length_map] at hlength
    split at h
    · rename_i out
      obtain ⟨o, ho, rfl⟩ := map_eq_ok.mp h
      obtain ⟨-, hs⟩ | ⟨rfl, -⟩ | ⟨rfl, -⟩ := hparts
      · obtain rfl : out = s := String.toList_inj.mp (List.singleton_inj.mp hs)
        exact ⟨value o, name_value_eq_ok_iff.mpr ⟨getElem?_of_variableIndex ho,
          hfield out (by simp)⟩, rfl⟩
      · cases hlength
      · cases hlength
    · rename_i out input
      simp only [bind_eq_ok, pure_eq_ok] at h
      obtain ⟨o, ho, i, hi, rfl⟩ := h
      obtain ⟨rfl, -⟩ | ⟨-, hs⟩ | ⟨rfl, -⟩ := hparts
      · cases hlength
      · refine ⟨first o i, name_first_eq_ok_iff.mpr ⟨out, input,
          ⟨getElem?_of_variableIndex ho, hfield out (by simp)⟩,
          ⟨getElem?_of_variableIndex hi, hfield input (by simp)⟩, ?_⟩, rfl⟩
        rw [← String.toList_inj, firstName_toList, hs]
        rfl
      · cases hlength
    · rename_i out a b
      simp only [bind_eq_ok, pure_eq_ok] at h
      obtain ⟨o, ho, i, hi, j, hj, rfl⟩ := h
      obtain ⟨rfl, -⟩ | ⟨rfl, -⟩ | ⟨-, hs⟩ := hparts
      · cases hlength
      · cases hlength
      · refine ⟨second o i j, name_second_eq_ok_iff.mpr ⟨out, a, b,
          ⟨getElem?_of_variableIndex ho, hfield out (by simp)⟩,
          ⟨getElem?_of_variableIndex hi, hfield a (by simp)⟩,
          ⟨getElem?_of_variableIndex hj, hfield b (by simp)⟩, ?_⟩, rfl⟩
        rw [← String.toList_inj, secondName_toList, hs]
        rfl
    · cases h
  · cases h

/-- The inputs that a channel is a derivative by. -/
def inputIndices : Channel → List Nat
  | value _ => []
  | first _ i => [i]
  | second _ a b => [a, b]

/-- The variables that a channel is about have field names. -/
def HasFieldNames (outputs inputs : List String) (c : Channel) : Prop :=
  (∀ n, outputs[c.output]? = some n → isFieldName n) ∧
  ∀ i ∈ c.inputIndices, ∀ n, inputs[i]? = some n → isFieldName n

/-- A channel has a name exactly if its variables are there and have field names. -/
theorem exists_name_iff : (∃ s, name outputs inputs c = .ok s) ↔
    c.fits inputs.length outputs.length ∧ c.HasFieldNames outputs inputs := by
  have hvariable (names : List String) (i : Nat) : (∃ n, names[i]? = some n ∧ isFieldName n) ↔
      i < names.length ∧ ∀ n, names[i]? = some n → isFieldName n := by
    cases hget : names[i]? with
    | none => simpa using List.getElem?_eq_none_iff.mp hget
    | some n => simpa using fun _ => (List.getElem?_eq_some_iff.mp hget).1
  constructor
  · rintro ⟨s, hs⟩
    cases c with
    | value o =>
      obtain ⟨ho, hout⟩ := (hvariable outputs o).mp ⟨s, name_value_eq_ok_iff.mp hs⟩
      exact ⟨decide_eq_true ho, hout, nofun⟩
    | first o i =>
      obtain ⟨out, input, hout, hinput, -⟩ := name_first_eq_ok_iff.mp hs
      obtain ⟨ho, hout⟩ := (hvariable outputs o).mp ⟨out, hout⟩
      obtain ⟨hi, hinput⟩ := (hvariable inputs i).mp ⟨input, hinput⟩
      exact ⟨by simp [fits, ho, hi], hout, List.forall_mem_singleton.mpr hinput⟩
    | second o i j =>
      obtain ⟨out, a, b, hout, ha, hb, -⟩ := name_second_eq_ok_iff.mp hs
      obtain ⟨ho, hout⟩ := (hvariable outputs o).mp ⟨out, hout⟩
      obtain ⟨hi, ha⟩ := (hvariable inputs i).mp ⟨a, ha⟩
      obtain ⟨hj, hb⟩ := (hvariable inputs j).mp ⟨b, hb⟩
      exact ⟨by simp [fits, ho, hi, hj], hout,
        List.forall_mem_cons.mpr ⟨ha, List.forall_mem_singleton.mpr hb⟩⟩
  · rintro ⟨hfits, hout, hinputs⟩
    cases c with
    | value o =>
      obtain ⟨out, hout⟩ := (hvariable outputs o).mpr ⟨of_decide_eq_true hfits, hout⟩
      exact ⟨out, name_value_eq_ok_iff.mpr hout⟩
    | first o i =>
      obtain ⟨ho, hi⟩ : o < outputs.length ∧ i < inputs.length := by simpa [fits] using hfits
      obtain ⟨out, hout⟩ := (hvariable outputs o).mpr ⟨ho, hout⟩
      obtain ⟨input, hinput⟩ := (hvariable inputs i).mpr ⟨hi, List.forall_mem_singleton.mp hinputs⟩
      exact ⟨_, name_first_eq_ok_iff.mpr ⟨out, input, hout, hinput, rfl⟩⟩
    | second o i j =>
      obtain ⟨⟨ho, hi⟩, hj⟩ : (o < outputs.length ∧ i < inputs.length) ∧ j < inputs.length := by
        simpa [fits] using hfits
      obtain ⟨ha, hb⟩ := List.forall_mem_cons.mp hinputs
      obtain ⟨out, hout⟩ := (hvariable outputs o).mpr ⟨ho, hout⟩
      obtain ⟨a, ha⟩ := (hvariable inputs i).mpr ⟨hi, ha⟩
      obtain ⟨b, hb⟩ := (hvariable inputs j).mpr ⟨hj, List.forall_mem_singleton.mp hb⟩
      exact ⟨_, name_second_eq_ok_iff.mpr ⟨out, a, b, hout, ha, hb, rfl⟩⟩

/-- How a name is related to the name of the channel that it is read as. -/
inductive Respells (outputs inputs : List String) : String → Channel → Prop
  | same {s : String} {c : Channel} (h : name outputs inputs c = .ok s) :
      Respells outputs inputs s c
  /-- The inputs stand out of order, and the name of the channel has them exchanged. -/
  | exchanged {out x y : String} {o a b : Nat} (hlt : b < a) (ho : outputs[o]? = some out)
      (hx : inputs[a]? = some x) (hy : inputs[b]? = some y) (hne : x ≠ y)
      (h : name outputs inputs (second o b a) = .ok (secondName out y x)) :
      Respells outputs inputs (secondName out x y) (second o b a)

theorem respells_canonical (hinputs : inputs.Nodup) (h : name outputs inputs d = .ok s) :
    Respells outputs inputs s d.canonical := by
  cases d with
  | value o => exact .same h
  | first o i => exact .same h
  | second o i j =>
    by_cases hij : i ≤ j
    · have hcanonical : (second o i j).canonical = second o i j :=
        canonical_eq_self (decide_eq_true hij)
      rw [hcanonical]
      exact .same h
    · have hlt : j < i := Nat.lt_of_not_le hij
      have hcanonical : (second o i j).canonical = second o j i := by
        simp only [canonical, ofPair, Nat.min_eq_right hlt.le, Nat.max_eq_left hlt.le]
      obtain ⟨out, x, y, ho, hx, hy, rfl⟩ := name_second_eq_ok_iff.mp h
      rw [hcanonical]
      refine .exchanged hlt ho.1 hx.1 hy.1 ?_
        (name_second_eq_ok_iff.mpr ⟨out, y, x, ho, hy, hx, rfl⟩)
      rintro rfl
      obtain ⟨hi, -⟩ := List.getElem?_eq_some_iff.mp hx.1
      have heq := (List.getElem?_inj hi hinputs).mp (hx.1.trans hy.1.symm)
      omega

/-- Among distinct names of variables, channels in canonical form have distinct names, and a text is
read as a channel exactly if it is the name of one. -/
theorem name_determines_channel (houtputs : outputs.Nodup) (hinputs : inputs.Nodup) :
    (∀ c s, c.isCanonical → name outputs inputs c = .ok s → ofName outputs inputs s = .ok c) ∧
    (∀ c d s, c.isCanonical → d.isCanonical → name outputs inputs c = .ok s →
      name outputs inputs d = .ok s → c = d) ∧
      (∀ s, (∃ c, ofName outputs inputs s = .ok c) ↔ ∃ c, c.fits inputs.length outputs.length ∧
      c.HasFieldNames outputs inputs ∧ name outputs inputs c = .ok s) ∧
    ∀ s c, ofName outputs inputs s = .ok c →
      c.isCanonical ∧ c.fits inputs.length outputs.length ∧ Respells outputs inputs s c := by
  have hread : ∀ c s, c.isCanonical → name outputs inputs c = .ok s →
      ofName outputs inputs s = .ok c := by
    intro c s hc hs
    have hcanonical := ofName_name houtputs hinputs hs
    rwa [canonical_eq_self hc] at hcanonical
  refine ⟨hread, fun c d s hc hd hcs hds => ?_, fun s => ⟨?_, ?_⟩, fun s c h => ?_⟩
  · exact Except.ok.inj ((hread c s hc hcs).symm.trans (hread d s hd hds))
  · rintro ⟨c, h⟩
    obtain ⟨d, hd, -⟩ := exists_name_of_ofName h
    obtain ⟨hfits, hfields⟩ := exists_name_iff.mp ⟨s, hd⟩
    exact ⟨d, hfits, hfields, hd⟩
  · rintro ⟨c, -, -, hs⟩
    exact ⟨c.canonical, ofName_name houtputs hinputs hs⟩
  · obtain ⟨hfits, hcanonical⟩ := fits_of_ofName h
    obtain ⟨d, hd, rfl⟩ := exists_name_of_ofName h
    exact ⟨hcanonical, hfits, respells_canonical hinputs hd⟩

/-- The names of the variables run into the marks of a channel name. -/
theorem name_determines_channel_underscores : ["_", "d"].Nodup ∧ ["_", "_d_", "d2_"].Nodup ∧
    ofName ["_", "d"] ["_", "_d_", "d2_"] "D___D__" = .ok (first 0 0) ∧
    Respells ["_", "d"] ["_", "_d_", "d2_"] "D2_d_D_d2__D__d_" (second 1 1 2) := by
  have houtputs : ["_", "d"].Nodup := by decide
  have hinputs : ["_", "_d_", "d2_"].Nodup := by decide
  obtain ⟨hread, -, -, hrespells⟩ := name_determines_channel houtputs hinputs
  exact ⟨houtputs, hinputs,
    hread (first 0 0) "D___D__" rfl rfl, (hrespells _ (second 1 1 2) rfl).2.2⟩

end DerivativeHeaders.Channel
