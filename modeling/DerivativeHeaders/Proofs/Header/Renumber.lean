import DerivativeHeaders.Proofs.Header.Chunk
import DerivativeHeaders.Proofs.Header.Read

/-! # Lines with other numbers

Nothing but faults looks at the numbers of lines. So lines with other numbers are read alike, and
where they cannot be read the fault is the same with the other numbers in it.
-/
namespace DerivativeHeaders

open Outcome

def Complaint.renumber (g : Nat → Nat) : Complaint → Complaint
  | interruptedMarker opened => interruptedMarker (g opened)
  | complaint => complaint

def Fault.renumber (g : Nat → Nat) : Fault → Fault
  | line n complaint => line (g n) (complaint.renumber g)
  | fault => fault

theorem Fault.renumber_id (fault : Fault) : fault.renumber id = fault := by
  cases fault with
  | line n complaint => cases complaint <;> rfl
  | _ => rfl

/-- An outcome with other numbers in its fault. -/
abbrev Outcome.renumber {α : Type} (g : Nat → Nat) (x : Except Fault α) : Except Fault α :=
  x.mapError (Fault.renumber g)

namespace Outcome

variable {α β σ : Type} {g : Nat → Nat}

theorem renumber_id (x : Except Fault α) : renumber id x = x := by
  cases x with
  | ok a => rfl
  | error fault => exact congrArg Except.error fault.renumber_id

theorem renumber_bind (x : Except Fault α) (f : α → Except Fault β) :
    renumber g (x >>= f) = renumber g x >>= fun a => renumber g (f a) := by
  cases x <;> rfl

theorem renumber_map (f : α → β) (x : Except Fault α) :
    renumber g (f <$> x) = f <$> renumber g x := by
  cases x <;> rfl

theorem renumber_eq_ok {x : Except Fault α} {a : α} : renumber g x = .ok a ↔ x = .ok a := by
  cases x <;> simp [renumber, Except.mapError]

/-- Only the results and the numbers in the faults of the steps are changed. -/
theorem mapM_renumber {f : α → Except Fault β} {a : α → α} {b : β → β}
    (h : ∀ x, f (a x) = b <$> renumber g (f x)) (xs : List α) :
    (xs.map a).mapM f = List.map b <$> renumber g (xs.mapM f) := by
  induction xs with
  | nil => rfl
  | cons x xs ih =>
    rw [List.map_cons, List.mapM_cons, List.mapM_cons, ih, h]
    cases f x with
    | error fault => rfl
    | ok y => cases xs.mapM f <;> rfl

theorem foldlM_renumber {f f' : σ → α → Except Fault σ} {a : α → α}
    (h : ∀ s x, f' s (a x) = renumber g (f s x))
    (s : σ) (xs : List α) : (xs.map a).foldlM f' s = renumber g (xs.foldlM f s) := by
  induction xs generalizing s with
  | nil => rfl
  | cons x xs ih =>
    rw [List.map_cons, List.foldlM_cons, List.foldlM_cons, renumber_bind, h]
    cases f s x with
    | error fault => rfl
    | ok t => exact ih t

theorem forM_renumber {f f' : α → Except Fault Unit} {a : α → α}
    (h : ∀ x, f' (a x) = renumber g (f x)) (xs : List α) :
    (xs.map a).forM f' = renumber g (xs.forM f) := by
  induction xs with
  | nil => rfl
  | cons x xs ih =>
    rw [List.map_cons, forM_cons, forM_cons, renumber_bind, h, ih]

/-- An outcome whose fault has no line number. -/
def Numberless (x : Except Fault α) : Prop := ∀ g, renumber g x = x

theorem Numberless.bind {x : Except Fault α} {f : α → Except Fault β} (hx : Numberless x)
    (hf : ∀ a, Numberless (f a)) :
    Numberless (x >>= f) := by
  intro g
  rw [renumber_bind, hx]
  exact congrArg _ (funext fun a => hf a g)

theorem Numberless.foldlM {f : σ → α → Except Fault σ} (h : ∀ s x, Numberless (f s x)) (s : σ)
    (xs : List α) :
    Numberless (xs.foldlM f s) := by
  induction xs generalizing s with
  | nil => exact fun g => rfl
  | cons x xs ih => exact (h s x).bind ih

theorem Numberless.forM {f : α → Except Fault Unit} (h : ∀ x, Numberless (f x)) (xs : List α) :
    Numberless (xs.forM f) := by
  induction xs with
  | nil => exact fun g => rfl
  | cons x xs ih => exact (h x).bind fun _ => ih

theorem Numberless.map {x : Except Fault α} (h : Numberless x) (f : α → β) : Numberless (f <$> x) :=
  fun g => by rw [renumber_map, h]

/-- A computation that goes on alike after a first part. -/
theorem bind_renumber {x x' : Except Fault α} {f f' : α → Except Fault β} (hx : x' = renumber g x)
    (hf : ∀ a, f' a = renumber g (f a)) : (x' >>= f') = renumber g (x >>= f) := by
  rw [renumber_bind, hx, funext hf]

/-- A computation that goes on with the changed result of a first part. -/
theorem bind_map_renumber {a : α → α} {x x' : Except Fault α} {f f' : α → Except Fault β}
    (hx : x' = a <$> renumber g x)
    (hf : ∀ y, f' (a y) = renumber g (f y)) : (x' >>= f') = renumber g (x >>= f) := by
  rw [hx, bind_map_left]
  exact bind_renumber rfl hf

theorem ite_renumber {p : Prop} [Decidable p] {x x' y y' : Except Fault α} (hx : x' = renumber g x)
    (hy : y' = renumber g y) : (if p then x' else y') = renumber g (if p then x else y) := by
  split
  · exact hx
  · exact hy

end Outcome

variable (g : Nat → Nat)

def Line.renumber (l : Line) : Line := ⟨g l.number, l.text⟩

theorem Line.map_renumber_numbered {g : Nat → Nat} {m n : Nat} {texts : List (List Char)}
    (h : ∀ i < texts.length, g (n + i) = m + i) :
    (numbered n texts).map (renumber g) = numbered m texts := by
  induction texts generalizing m n with
  | nil => rfl
  | cons text texts ih =>
    have hfirst : g n = m := h 0 (Nat.zero_lt_succ _)
    have hrest : ∀ i < texts.length, g (n + 1 + i) = m + 1 + i := by
      intro i hi
      rw [Nat.add_right_comm n, Nat.add_right_comm m]
      exact h (i + 1) (Nat.succ_lt_succ hi)
    rw [numbered_cons, List.map_cons, ih hrest, numbered_cons, renumber, hfirst]

namespace Block

variable (f : Line → Line)

/-- The block with its lines changed, and with another number for its opening. -/
def map (b : Block) : Block := ⟨b.variant, g b.opened, b.body.map f⟩

def Stage.map : Stage → Stage
  | preface => preface
  | comments opened texts => comments (g opened) texts
  | body v opened lines => body v (g opened) (lines.map f)

theorem readVariant_renumber (opened : Nat) (comments : List (List Char)) :
    readVariant (g opened) comments = renumber g (readVariant opened comments) := by
  unfold readVariant
  split <;> rfl

/-- Lines are located alike if a change of them keeps what is looked at in them. -/
theorem locateFrom_map (hnumber : ∀ l, (f l).number = g l.number)
    (hmarker : ∀ l, isMarker (f l).text = isMarker l.text)
    (hcomment : ∀ l, comment? (f l).text = comment? l.text) (stage : Stage) (ls : List Line) :
    locateFrom (stage.map g f) (ls.map f) =
      List.map (map g f) <$> renumber g (locateFrom stage ls) := by
  induction ls generalizing stage with
  | nil =>
    cases stage with
    | preface => rfl
    | comments => rfl
    | body v opened lines =>
      simp only [List.map_nil, Stage.map, locateFrom, ← List.map_reverse]
      rfl
  | cons l ls ih =>
    cases stage with
    | preface =>
      simp only [List.map_cons, Stage.map, locateFrom, hmarker, hnumber]
      rw [← ih]
      split <;> rfl
    | comments opened texts =>
      simp only [List.map_cons, Stage.map, locateFrom, hmarker, hcomment, hnumber,
        readVariant_renumber]
      split
      · cases readVariant opened texts.reverse with
        | error fault => rfl
        | ok v => exact ih (.body v opened [])
      · cases comment? l.text with
        | none => rfl
        | some comment => exact ih (.comments opened (comment :: texts))
    | body v opened lines =>
      simp only [List.map_cons, Stage.map, locateFrom, hmarker, hnumber]
      split
      · have hrest := ih (.comments l.number [])
        simp only [Stage.map] at hrest
        rw [hrest, ← List.map_reverse]
        cases locateFrom (.comments l.number []) ls <;> rfl
      · exact ih (.body v opened (l :: lines))

def renumber (b : Block) : Block := b.map g (Line.renumber g)

theorem toItem_renumber (b : Block) : toItem (b.renumber g) = toItem b :=
  congrArg (Prod.mk b.variant) List.map_map

/-- The block of an item, without numbers. -/
def ofItem (x : Item) : Block := ⟨x.1, 0, x.2.map (Line.mk 0)⟩

theorem renumber_zero (b : Block) : b.renumber (fun _ => 0) = ofItem (toItem b) :=
  congrArg (Block.mk b.variant 0) List.map_map.symm

theorem locate_renumber (ls : List Line) :
    locate (ls.map (Line.renumber g)) = List.map (renumber g) <$> Outcome.renumber g (locate ls) :=
  locateFrom_map g (Line.renumber g) (fun _ => rfl) (fun _ => rfl) (fun _ => rfl) .preface ls

end Block

theorem Field.ofText_renumber (n : Nat) (text : List Char) :
    ofText (g n) text = renumber g (ofText n text) := by
  unfold ofText
  split
  · rfl
  · unfold ofTokens ofInput
    split
    · exact ite_renumber rfl rfl
    · exact ite_renumber rfl rfl
    all_goals rfl

namespace Prototype

def renumber (p : Prototype) : Prototype := ⟨p.function, p.fields.map (Prod.map g id)⟩

theorem inputs_renumber (p : Prototype) : (p.renumber g).inputs = p.inputs := List.filterMap_map

theorem outputs_renumber (p : Prototype) : (p.renumber g).outputs = p.outputs := List.filterMap_map

theorem readOpening_renumber (l : Line) :
    readOpening (l.renumber g) = Outcome.renumber g (readOpening l) := by
  simp only [readOpening, Line.renumber]
  split <;> rfl

theorem fieldLines?_renumber (ls : List Line) :
    fieldLines? (ls.map (Line.renumber g)) = (fieldLines? ls).map (List.map (Line.renumber g)) := by
  induction ls with
  | nil => rfl
  | cons l ls ih =>
    simp only [List.map_cons, fieldLines?, ih, Line.renumber]
    cases (fieldText l.text).isEmpty <;> cases (closing? l.text).isSome
      <;> cases fieldLines? ls <;> rfl

theorem mapM_ofText_renumber (ls : List Line) :
    (ls.map (Line.renumber g)).mapM (fun l => (l.number, ·) <$> Field.ofText l.number l.text) =
      List.map (Prod.map g id) <$>
      Outcome.renumber g (ls.mapM fun l => (l.number, ·) <$> Field.ofText l.number l.text) := by
  refine mapM_renumber (fun l => ?_) ls
  simp only [Line.renumber, Field.ofText_renumber]
  cases Field.ofText l.number l.text <;> rfl

theorem ofLines_renumber (first : Line) (rest : List Line) :
    ofLines (first.renumber g) (rest.map (Line.renumber g)) =
      renumber g <$> Outcome.renumber g (ofLines first rest) := by
  rw [ofLines, ofLines, ← renumber_map, map_bind]
  refine bind_renumber (readOpening_renumber g first) fun opening => ?_
  obtain ⟨function, text⟩ := opening
  have hlines := fieldLines?_renumber g (⟨first.number, text⟩ :: rest)
  simp only [List.map_cons, Line.renumber] at hlines
  simp only [Line.renumber, hlines]
  cases fieldLines? (⟨first.number, text⟩ :: rest) with
  | none => rfl
  | some lines =>
    have hfields := mapM_ofText_renumber g lines
    simp only [Option.map_some, hfields]
    cases lines.mapM fun l => (l.number, ·) <$> Field.ofText l.number l.text <;> rfl

theorem ofBlock_renumber (b : Block) :
    ofBlock (b.renumber g) = renumber g <$> Outcome.renumber g (ofBlock b) := by
  have htrimmed :
      (b.renumber g).body.map Line.trimmed = (b.body.map Line.trimmed).map (Line.renumber g) := by
    rw [Block.renumber, Block.map, List.map_map, List.map_map]
    rfl
  have hdrop (ls : List Line) :
      ((ls.map (Line.renumber g)).dropWhile fun l => !startsPrototype l.text) =
      (ls.dropWhile fun l => !startsPrototype l.text).map (Line.renumber g) := List.dropWhile_map ..
  rw [ofBlock_eq, ofBlock_eq, htrimmed, hdrop]
  cases (b.body.map Line.trimmed).dropWhile fun l => !startsPrototype l.text with
  | nil => rfl
  | cons first rest => exact ofLines_renumber g first rest

theorem checkDefault_renumber (p : Prototype) :
    (p.renumber g).checkDefault = Outcome.renumber g p.checkDefault := by
  refine forM_renumber (fun x => ?_) p.fields
  obtain ⟨n, field⟩ := x
  cases field <;> rfl

end Prototype

section Numberless

theorem Channel.numberless_variableIndex (channel name : String) (names : List String) :
    Numberless (variableIndex channel name names) := by
  unfold variableIndex
  split <;> exact fun g => rfl

theorem Channel.numberless_ofName (outputs inputs : List String) (name : String) :
    Numberless (ofName outputs inputs name) := by
  have hindex := numberless_variableIndex name
  rw [ofName]
  dsimp only
  split
  · split
    · exact (hindex _ _).map _
    · exact (hindex _ _).bind fun o => (hindex _ _).bind fun i g => rfl
    · exact (hindex _ _).bind fun o => (hindex _ _).bind fun a => (hindex _ _).bind fun b g => rfl
    · exact fun g => rfl
  · exact fun g => rfl

theorem Variant.numberless_checkAll (seen vs : List Variant) : Numberless (checkAll seen vs) := by
  induction vs generalizing seen with
  | nil => exact fun g => rfl
  | cons v vs ih =>
    unfold checkAll
    split
    · exact fun g => rfl
    · split
      · exact fun g => rfl
      · exact ih _

theorem Variant.numberless_inOrder (vs : List Variant) : Numberless (inOrder vs) := by
  refine (numberless_checkAll [] vs).bind fun _ => ?_
  split <;> exact fun g => rfl

theorem Variable.numberless_checkAll (seen : List String) (ps : List Variable) :
    Numberless (checkAll seen ps) := by
  induction ps generalizing seen with
  | nil => exact fun g => rfl
  | cons p ps ih =>
    unfold checkAll
    repeat' split
    all_goals first | exact ih _ | exact fun g => rfl

namespace Signature

variable (s : Signature)

theorem numberless_ofParts (name : String) (inputs outputs : List Variable)
    (variants : List Variant) :
    Numberless (ofParts name inputs outputs variants) := by
  refine (Variant.numberless_inOrder variants).bind fun variants => ?_
  refine Numberless.bind ?_ fun _ g => rfl
  unfold check
  split
  · exact Variable.numberless_checkAll [] _
  · exact fun g => rfl

theorem numberless_functionName (v : Variant) : Numberless (s.functionName v) := by
  unfold functionName Variant.functionName
  split <;> exact fun g => rfl

theorem numberless_checkType (c : Channel) (name type : String) :
    Numberless (s.checkType c name type) := by
  refine Numberless.bind ?_ fun expected => ?_
  · unfold channelType
    split <;> exact fun g => rfl
  · split <;> exact fun g => rfl

theorem numberless_record (l : Ledger) (c : Channel) (role : Role) :
    Numberless (l.record s c role) := by
  unfold Ledger.record
  split
  · exact fun g => rfl
  · split <;> exact fun g => rfl

theorem numberless_recordZeros (l : Ledger) (cs : List Channel) : Numberless (l.recordZeros s cs) :=
  Numberless.foldlM (fun l c => s.numberless_record l c _) l cs

theorem numberless_ofSignature (constants : ChannelMap Binary64) :
    Numberless (Header.ofSignature s constants) := by
  refine Numberless.bind (Numberless.forM (fun x => ?_) _) fun _ g => rfl
  unfold checkConstant
  repeat' split
  all_goals exact fun g => rfl

end Signature

end Numberless

namespace Signature

variable (s : Signature)

theorem blockChannel_renumber (v : Variant) (n : Nat) (name : String) :
    s.blockChannel v (g n) name = renumber g (s.blockChannel v n name) :=
  bind_renumber (Channel.numberless_ofName _ _ name g).symm fun _ => ite_renumber rfl rfl

theorem mention_renumber (t : Tally) (n : Nat) (name : String) (c : Channel) (role : Role) :
    s.mention t (g n) name c role = renumber g (s.mention t n name c role) := by
  unfold mention
  exact ite_renumber rfl (bind_renumber (s.numberless_record t.ledger c role g).symm fun _ => rfl)

theorem addField_renumber (v : Variant) (t : Tally) (x : Nat × Field) :
    s.addField v t (x.map g id) = renumber g (s.addField v t x) := by
  obtain ⟨n, field⟩ := x
  cases field with
  | input => rfl
  | output type name =>
    refine bind_renumber (s.blockChannel_renumber g v n name) fun c => ?_
    exact bind_renumber (s.numberless_checkType c name type g).symm fun _ =>
      s.mention_renumber g t n name c .runtime
  | constant name x =>
    exact bind_renumber (s.blockChannel_renumber g v n name) fun c =>
      s.mention_renumber g t n name c (.constant x)

theorem addBlock_renumber (l : Ledger) (b : Block) (p : Prototype) :
    s.addBlock l (b.renumber g) (p.renumber g) = renumber g (s.addBlock l b p) := by
  refine bind_renumber (s.numberless_functionName b.variant g).symm fun expected => ?_
  refine ite_renumber rfl ?_
  refine bind_renumber (foldlM_renumber (s.addField_renumber g b.variant) _ p.fields) fun t => ?_
  rw [Prototype.inputs_renumber]
  exact ite_renumber rfl (s.numberless_recordZeros ..).symm

theorem readBlock_renumber (l : Ledger) (b : Block) :
    s.readBlock l (b.renumber g) = renumber g (s.readBlock l b) :=
  bind_map_renumber (Prototype.ofBlock_renumber g b) fun p => s.addBlock_renumber g l b p

end Signature

/-- The numbers of lines stand in faults only. -/
theorem Header.ofBlocks_renumber (blocks : List Block) :
    ofBlocks (blocks.map (Block.renumber g)) = renumber g (ofBlocks blocks) := by
  cases blocks with
  | nil => rfl
  | cons first rest =>
    have hvariants : (rest.map (Block.renumber g)).map Block.variant = rest.map Block.variant :=
      List.map_map
    rw [List.map_cons, ofBlocks, ofBlocks, hvariants]
    refine ite_renumber rfl (bind_map_renumber (Prototype.ofBlock_renumber g first) fun p => ?_)
    refine bind_renumber (p.checkDefault_renumber g) fun _ => ?_
    rw [Prototype.inputs_renumber, Prototype.outputs_renumber]
    refine bind_renumber (Signature.numberless_ofParts _ _ _ _ g).symm fun s => ?_
    refine bind_renumber (s.addBlock_renumber g .empty first p) fun l => ?_
    refine bind_renumber (foldlM_renumber (s.readBlock_renumber g) l rest) fun l => ?_
    exact (s.numberless_ofSignature l.constants g).symm

/-- Blocks are read by their items. -/
theorem Header.ofBlocks_items {blocks : List Block} {h : Header} :
    ofBlocks ((blocks.map Block.toItem).map Block.ofItem) = .ok h ↔ ofBlocks blocks = .ok h := by
  have hitems : Block.ofItem ∘ Block.toItem = Block.renumber fun _ => 0 :=
    funext fun b => b.renumber_zero.symm
  rw [List.map_map, hitems, ofBlocks_renumber, renumber_eq_ok]

/-- The header that lines are read as. -/
def Header.ofLines (ls : List Line) : Except Fault Header := Block.locate ls >>= ofBlocks

theorem Header.ofLines_renumber (ls : List Line) :
    ofLines (ls.map (Line.renumber g)) = renumber g (ofLines ls) :=
  bind_map_renumber (Block.locate_renumber g ls) (ofBlocks_renumber g)

theorem Header.ofText_eq_ofLines (text : String) :
    ofText text = ofLines (Line.numbered 1 (Text.lines text.toList)) := rfl

end DerivativeHeaders
