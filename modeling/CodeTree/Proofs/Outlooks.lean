/-
Statements that have lost what they cannot do without. A statement of an expression needs the
expression, an `if` its first branch and a declaration something that it declares; a statement
without it is degenerate. What pruning makes of the statements of a tree is settled by what shows
in their slots: whether something there can vanish while nobody looks after the statement, and
whether the test of an `if` is there to stay. All this can be told alike of documents, of the
values of a store and of trees.
-/

import CodeTree.Proofs.Filling

namespace CodeTree

variable {value : Value} {type : NodeType} {name : SlotName} {key : String}

/-- What shows of a place. To what a walk sees of it comes whether there is anything. -/
structure Outlook (α : Type) extends Terrain α where
  isNull : α → Bool
  /-- An array without elements. -/
  isEmpty : α → Bool
  /-- A number that is not finite. It is written as null. -/
  isInfinite : α → Bool

namespace Terrain

variable {α : Type} (terrain : Terrain α)

/-- What stands at the end of a path. -/
def at? (place : α) : List SlotName → Option α
  | [] => some place
  | name :: rest => (terrain.inner? place name).bind (at? · rest)

/-- All places in and below a place have a property. -/
def Everywhere (property : α → Prop) (place : α) : Prop :=
  ∀ path part, terrain.at? place path = some part → property part

variable {terrain}

/-- A place is of a type that can be written down exactly if that is its own type. -/
theorem isOf_iff (concrete : type.isAbstract = false) {place : α} :
    terrain.isOf type place = true ↔ terrain.type? place = some type :=
  NodeType.any_isSubtypeOf_iff concrete

theorem Everywhere.inner {property : α → Prop} {place next : α} {name : SlotName}
    (everywhere : terrain.Everywhere property place)
    (entry : terrain.inner? place name = some next) :
    terrain.Everywhere property next := by
  intro path part there
  refine everywhere (name :: path) part ?_
  rw [at?, entry, Option.bind_some, there]

theorem Everywhere.part {property : α → Prop} {place part : α} {path : List SlotName}
    (everywhere : terrain.Everywhere property place) (there : terrain.at? place path = some part) :
    terrain.Everywhere property part := by
  induction path generalizing place with
  | nil =>
    cases there
    exact everywhere
  | cons name rest ih =>
    obtain ⟨next, entry, onward⟩ := Option.bind_eq_some_iff.mp there
    exact ih (everywhere.inner entry) onward

theorem Everywhere.mk {property : α → Prop} {place : α} (here : property place)
    (inner : ∀ name next, terrain.inner? place name = some next →
      terrain.Everywhere property next) :
    terrain.Everywhere property place := by
  intro path part there
  cases path with
  | nil =>
    cases there
    exact here
  | cons name rest =>
    obtain ⟨next, entry, onward⟩ := Option.bind_eq_some_iff.mp there
    exact inner name next entry rest part onward

section Similar

variable {β : Type} {other : Terrain β} {related : α → β → Prop}
  (similar : terrain.Similar other related) {a : α} {b : β} (relates : related a b)

include similar relates

theorem Similar.inner_of {part : β} (entry : other.inner? b name = some part) :
    ∃ place, terrain.inner? a name = some place ∧ related place part := by
  rcases inner_cases (similar.inner relates name) with ⟨_, away⟩ | ⟨place, _, here, there, inner⟩
  · cases away.symm.trans entry
  · cases there.symm.trans entry
    exact ⟨place, here, inner⟩

/-- Related places stand at the ends of the same paths. -/
theorem Similar.everywhere {property : α → Prop} {counterpart : β → Prop}
    (passes : ∀ {a b}, related a b → property a → counterpart b)
    (everywhere : terrain.Everywhere property a) : other.Everywhere counterpart b := by
  intro path part there
  induction path generalizing a b with
  | nil =>
    cases there
    exact passes relates (everywhere [] a rfl)
  | cons name rest ih =>
    obtain ⟨next, entry, onward⟩ := Option.bind_eq_some_iff.mp there
    obtain ⟨_, here, inner⟩ := similar.inner_of relates entry
    exact ih inner (everywhere.inner here) onward

end Similar

end Terrain

namespace Outlook

section One

variable {α : Type} (outlook : Outlook α) (type : NodeType)

/-- Whether there is something under a key that passes a test. -/
def has (place : α) (key : String) (test : α → Bool) : Bool :=
  (outlook.inner? place (.key key)).any test

/-- Whether a place is a statement that has lost what it cannot do without. -/
def isDegenerate (place : α) : Bool :=
  (outlook.isOf .expressionStatement place &&
    !outlook.has place "expression" (!outlook.isNull ·)) ||
  (outlook.isOf .ifStatement place && !outlook.has place "consequent" (!outlook.isNull ·)) ||
  (outlook.isOf .variableDeclaration place &&
    !outlook.has place "declarations" (!outlook.isEmpty ·))

/-- Whether a place can vanish while nobody looks after what it stands in: a comment, which is no
node, is pruned with a look at the node around its slot only, and a number that is not finite is
written as null. -/
def isFleeting (place : α) : Bool :=
  (outlook.isOf type place && !outlook.isOf .node place) || outlook.isInfinite place

/-- Whether a place stays when all nodes of a type are pruned, unless what it stands in goes. -/
def isLasting (place : α) : Bool := outlook.isOf .expression place && !outlook.isOf type place

/-- Whether a place is a negation. A unary expression without an operator might be one. -/
def isNegation (place : α) : Bool :=
  outlook.isOf .unaryExpression place &&
    ((outlook.inner? place (.key "operator")).bind outlook.text?).all (· == "!")

/-- Nothing that an `if` or a declaration cannot do without is fleeting. -/
structure Guarded (place : α) : Prop where
  branch : outlook.isOf .ifStatement place = true → ∀ key part,
    key = "consequent" ∨ key = "alternate" → outlook.inner? place (.key key) = some part →
      outlook.isFleeting type part = false
  declarations : outlook.isOf .variableDeclaration place = true → ∀ list,
    outlook.inner? place (.key "declarations") = some list → outlook.isFleeting type list = false ∧
      ∀ position item, outlook.inner? list (.index position) = some item →
        outlook.isFleeting type item = false

/-- The expression of a statement is not fleeting, and the test of an `if` stays. If the `if` may be
turned around, the negation of its test stays as well. -/
structure Lasting (place : α) : Prop where
  expression : outlook.isOf .expressionStatement place = true → ∀ part,
    outlook.inner? place (.key "expression") = some part → outlook.isFleeting type part = false
  test : outlook.isOf .ifStatement place = true → ∃ test,
    outlook.inner? place (.key "test") = some test ∧ outlook.isLasting type test = true ∧
      (outlook.has place "alternate" (!outlook.isNull ·) = true →
        NodeType.unaryExpression.isSubtypeOf type = false ∧
          (outlook.isNegation test = true →
            outlook.has test "argument" (outlook.isLasting type) = true))

/-- What lets a place come through a removal elsewhere: it is guarded and, where it has to be,
lasting. -/
structure Firm (strict : Prop) (place : α) : Prop where
  guarded : outlook.Guarded type place
  lasting : strict → outlook.Lasting type place

/-- A statement has what it cannot do without. Unless one is strict it may be without its
expression. -/
structure Whole (strict : Prop) (place : α) : Prop where
  expression : strict → outlook.isOf .expressionStatement place = true →
    outlook.has place "expression" (!outlook.isNull ·) = true
  consequent : outlook.isOf .ifStatement place = true →
    outlook.has place "consequent" (!outlook.isNull ·) = true
  declarations : outlook.isOf .variableDeclaration place = true →
    outlook.has place "declarations" (!outlook.isEmpty ·) = true

/-- A firm place that is whole. -/
structure Stable (strict : Prop) (place : α) : Prop where
  firm : outlook.Firm type strict place
  whole : outlook.Whole strict place

variable {outlook}

theorem has_iff {place : α} {test : α → Bool} : outlook.has place key test = true ↔
    ∃ part, outlook.inner? place (.key key) = some part ∧ test part = true :=
  Option.any_eq_true _ _

/-- Only a statement without its expression is both whole and degenerate. -/
theorem whole_iff {strict : Prop} {place : α} : outlook.Whole strict place ↔
    (outlook.isDegenerate place = true →
      ¬strict ∧ outlook.isOf .expressionStatement place = true) := by
  rw [isDegenerate]
  simp only [Bool.or_eq_true, Bool.and_eq_true, Bool.not_eq_true', or_assoc]
  constructor
  · rintro whole (⟨states, gone⟩ | ⟨isIf, gone⟩ | ⟨declares, gone⟩)
    · exact ⟨fun needed => Bool.false_ne_true (gone.symm.trans (whole.expression needed states)),
        states⟩
    · cases gone.symm.trans (whole.consequent isIf)
    · cases gone.symm.trans (whole.declarations declares)
  · intro degenerate
    refine ⟨fun needed states => ?_, fun isIf => ?_, fun declares => ?_⟩
    · exact Bool.of_not_eq_false fun gone => (degenerate (.inl ⟨states, gone⟩)).1 needed
    · refine Bool.of_not_eq_false fun gone => ?_
      have states := (degenerate (.inr (.inl ⟨isIf, gone⟩))).2
      rw [Terrain.isOf_iff rfl] at isIf states
      cases isIf.symm.trans states
    · refine Bool.of_not_eq_false fun gone => ?_
      have states := (degenerate (.inr (.inr ⟨declares, gone⟩))).2
      rw [Terrain.isOf_iff rfl] at declares states
      cases declares.symm.trans states

/-- What is none of these statements loses nothing. -/
theorem stable_of_other (type : NodeType) (strict : Prop) {place : α}
    (notExpression : outlook.isOf .expressionStatement place = false)
    (notBranch : outlook.isOf .ifStatement place = false)
    (notDeclaration : outlook.isOf .variableDeclaration place = false) :
    outlook.Stable type strict place := by
  refine ⟨⟨⟨fun isIf => ?_, fun declares => ?_⟩, fun _ => ⟨fun states => ?_, fun isIf => ?_⟩⟩,
    ⟨fun _ states => ?_, fun isIf => ?_, fun declares => ?_⟩⟩
  · cases notBranch.symm.trans isIf
  · cases notDeclaration.symm.trans declares
  · cases notExpression.symm.trans states
  · cases notBranch.symm.trans isIf
  · cases notExpression.symm.trans states
  · cases notBranch.symm.trans isIf
  · cases notDeclaration.symm.trans declares

theorem stable_of_untyped (type : NodeType) (strict : Prop) {place : α}
    (untyped : outlook.type? place = none) : outlook.Stable type strict place := by
  have never (own : NodeType) : outlook.isOf own place = false := by
    rw [Terrain.isOf, untyped]
    rfl
  exact stable_of_other type strict (never _) (never _) (never _)

end One

/-! ### Places that come from others -/

section Follows

variable {α β : Type} {outlook : Outlook α} {other : Outlook β} {type : NodeType} {strict : Prop}
  {a : α} {b : β}

/-- By what it shows itself, one place can be taken for another. -/
structure Resembles (outlook : Outlook α) (other : Outlook β) (type : NodeType) (old : α) (new : β) :
    Prop where
  fleeting : other.isFleeting type new = true → outlook.isFleeting type old = true
  lasting : outlook.isLasting type old = true → other.isLasting type new = true
  null : other.isNull new = outlook.isNull old
  text : other.text? new = outlook.text? old

theorem resembles_of_same (isOf : ∀ own, other.isOf own b = outlook.isOf own a)
    (null : other.isNull b = outlook.isNull a) (text : other.text? b = outlook.text? a)
    (infinite : other.isInfinite b = outlook.isInfinite a) : Resembles outlook other type a b := by
  refine ⟨fun fleeting => ?_, fun lasting => ?_, null, text⟩
  · rwa [isFleeting, isOf, isOf, infinite] at fleeting
  · rwa [isLasting, isOf, isOf]

theorem Resembles.solid (resembles : Resembles outlook other type a b)
    (stays : outlook.isFleeting type a = false) : other.isFleeting type b = false :=
  Bool.eq_false_iff.mpr fun fleeting =>
    Bool.false_ne_true (stays.symm.trans (resembles.fleeting fleeting))

/-- In the eyes of what stands around it, one place can stand for another. -/
structure StandsIn (outlook : Outlook α) (other : Outlook β) (type : NodeType) (old : α) (new : β) :
    Prop extends Resembles outlook other type old new where
  items : ∀ {position item}, other.inner? new (.index position) = some item →
    ∃ place was, outlook.inner? old (.index place) = some was ∧
      (other.isFleeting type item = true → outlook.isFleeting type was = true)
  negation : other.isNegation new = true → outlook.isNegation old = true
  argument : outlook.isNegation old = true →
    outlook.has old "argument" (outlook.isLasting type) = true →
      other.has new "argument" (other.isLasting type) = true

theorem StandsIn.refl (a : α) : StandsIn outlook outlook type a a :=
  ⟨⟨id, id, rfl, rfl⟩, fun entry => ⟨_, _, entry, id⟩, id, fun _ => id⟩

/-- Something has come under a key of a whole place where there was nothing. It is no second
branch. -/
structure Came (outlook : Outlook α) (other : Outlook β) (type : NodeType) (strict : Prop) (a : α)
    (key : String) (part : β) : Prop where
  whole : outlook.Whole strict a
  absent : outlook.inner? a (.key key) = none
  idle : key = "alternate" → other.isFleeting type part = false ∧ other.isNull part = true

theorem Came.not_has {key : String} {part : β} (came : Came outlook other type strict a key part)
    {test : α → Bool} : ¬outlook.has a key test = true := by
  rw [has, came.absent]
  exact Bool.false_ne_true

/-- What is in the slots of a place is related to what was in those of another one, except for what
has been lost. That was no text and not to last. -/
structure Follows (outlook : Outlook α) (other : Outlook β) (type : NodeType)
    (related : α → β → Prop) (lost : α → Prop) (a : α) (b : β) : Prop where
  isOf : ∀ own, other.isOf own b = outlook.isOf own a
  kept : ∀ {key was}, outlook.inner? a (.key key) = some was →
    lost was ∨ ∃ part, other.inner? b (.key key) = some part ∧ related was part
  gone : ∀ {was}, lost was → outlook.isLasting type was = false ∧ outlook.text? was = none
  items : ∀ {position item}, other.inner? b (.index position) = some item →
    ∃ place was, outlook.inner? a (.index place) = some was ∧ related was item

theorem follows_of_similar {related : α → β → Prop}
    (similar : outlook.toTerrain.Similar other.toTerrain related) (relates : related a b) :
    Follows outlook other type related (fun _ => False) a b where
  isOf own := (similar.isOf relates own).symm
  kept entry := .inr (similar.symm.inner_of relates entry)
  gone := False.elim
  items entry := ⟨_, similar.inner_of relates entry⟩

variable {related : α → β → Prop} {lost : α → Prop}
  (follows : Follows outlook other type related lost a b)

include follows

theorem Follows.has {test : α → Bool} {exam : β → Bool}
    (passes : ∀ {was part}, outlook.inner? a (.key key) = some was →
      other.inner? b (.key key) = some part → related was part → test was = true → exam part = true)
    (fails : ∀ {was}, outlook.inner? a (.key key) = some was → lost was → test was = false)
    (there : outlook.has a key test = true) : other.has b key exam = true := by
  obtain ⟨was, entry, passed⟩ := has_iff.mp there
  rcases follows.kept entry with gone | ⟨part, stands, relates⟩
  · cases (fails entry gone).symm.trans passed
  · exact has_iff.mpr ⟨part, stands, passes entry stands relates passed⟩

/-- A place that resembles what it comes from can stand for it. -/
theorem Follows.standsIn (here : Resembles outlook other type a b)
    (resembles : ∀ {was part}, related was part → Resembles outlook other type was part) :
    StandsIn outlook other type a b where
  toResembles := here
  items entry := by
    obtain ⟨place, was, stood, relates⟩ := follows.items entry
    exact ⟨place, was, stood, (resembles relates).fleeting⟩
  negation negation := by
    rw [isNegation, follows.isOf, Bool.and_eq_true] at negation
    rw [isNegation, Bool.and_eq_true]
    refine ⟨negation.1, ?_⟩
    cases entry : outlook.inner? a (.key "operator") with
    | none => rfl
    | some was =>
      rcases follows.kept entry with lost | ⟨part, stands, relates⟩
      · rw [Option.bind_some, (follows.gone lost).2]
        rfl
      · rw [stands, Option.bind_some, (resembles relates).text] at negation
        exact negation.2
  argument _ := follows.has (fun _ _ relates => (resembles relates).lasting)
    fun _ lost => (follows.gone lost).1

/-- A place is firm if what is in its slots can stand for what was in those of a firm one, or has
come to them. -/
theorem Follows.firm
    (stands : ∀ {was part}, related was part → StandsIn outlook other type was part)
    (came : ∀ {key part}, other.inner? b (.key key) = some part →
      (∃ was, outlook.inner? a (.key key) = some was ∧ related was part) ∨
        Came outlook other type strict a key part)
    (firm : outlook.Firm type strict a) : other.Firm type strict b := by
  have isOf := follows.isOf
  refine ⟨⟨fun isIf key part named entry => ?_, fun declares list entry => ?_⟩,
    fun needed => ⟨fun states part entry => ?_, fun isIf => ?_⟩⟩
  · rw [isOf] at isIf
    rcases came entry with ⟨was, stood, relates⟩ | came
    · exact (stands relates).solid (firm.guarded.branch isIf key was named stood)
    · rcases named with rfl | rfl
      · exact absurd (came.whole.consequent isIf) came.not_has
      · exact (came.idle rfl).1
  · rw [isOf] at declares
    rcases came entry with ⟨was, stood, relates⟩ | came
    · obtain ⟨stays, items⟩ := firm.guarded.declarations declares was stood
      refine ⟨(stands relates).solid stays, fun position item element =>
        Bool.eq_false_iff.mpr fun fleeting => ?_⟩
      obtain ⟨place, old, there, before⟩ := (stands relates).items element
      exact Bool.false_ne_true ((items place old there).symm.trans (before fleeting))
    · exact absurd (came.whole.declarations declares) came.not_has
  · rw [isOf] at states
    rcases came entry with ⟨was, stood, relates⟩ | came
    · exact (stands relates).solid ((firm.lasting needed).expression states was stood)
    · exact absurd (came.whole.expression needed states) came.not_has
  · rw [isOf] at isIf
    obtain ⟨was, stood, stays, negated⟩ := (firm.lasting needed).test isIf
    obtain ⟨part, there, relates⟩ := (follows.kept stood).resolve_left fun lost =>
      Bool.false_ne_true ((follows.gone lost).1.symm.trans stays)
    have standing := stands relates
    refine ⟨part, there, standing.lasting stays, fun forked => ?_⟩
    obtain ⟨branch, entry, present⟩ := has_iff.mp forked
    have forkedBefore : outlook.has a "alternate" (!outlook.isNull ·) = true := by
      rcases came entry with ⟨old, stoodToo, relates⟩ | came
      · exact has_iff.mpr ⟨old, stoodToo, (congrArg not (stands relates).null).symm.trans present⟩
      · rw [(came.idle rfl).2] at present
        cases present
    obtain ⟨apart, taken⟩ := negated forkedBefore
    exact ⟨apart, fun negation =>
      standing.argument (standing.negation negation) (taken (standing.negation negation))⟩

/-- A place is whole if it comes from a firm one that was, and nothing that was to stay has been lost
or become nothing. -/
theorem Follows.whole (solid : ∀ {was}, lost was → outlook.isFleeting type was = true)
    (null : ∀ {key was part}, outlook.inner? a (.key key) = some was → related was part →
      outlook.isFleeting type was = false → other.isNull part = true → outlook.isNull was = true)
    (empty : outlook.isOf .variableDeclaration a = true → ∀ {list part},
      outlook.inner? a (.key "declarations") = some list →
      other.inner? b (.key "declarations") = some part → related list part →
      other.isEmpty part = true → outlook.isEmpty list = true)
    (firm : outlook.Firm type strict a) (whole : outlook.Whole strict a) : other.Whole strict b := by
  have there {key : String} (stays : ∀ part, outlook.inner? a (.key key) = some part →
      outlook.isFleeting type part = false) {was : α}
      (entry : outlook.inner? a (.key key) = some was) : ¬lost was :=
    fun gone => Bool.false_ne_true ((stays was entry).symm.trans (solid gone))
  have present {key : String} (stays : ∀ part, outlook.inner? a (.key key) = some part →
      outlook.isFleeting type part = false) (had : outlook.has a key (!outlook.isNull ·) = true) :
      other.has b key (!other.isNull ·) = true := by
    refine follows.has (fun entry _ relates filled => ?_) (fun entry gone =>
      absurd gone (there stays entry)) had
    rw [Bool.not_eq_true', Bool.eq_false_iff] at filled ⊢
    exact fun nothing => filled (null entry relates (stays _ entry) nothing)
  refine ⟨fun needed states => ?_, fun isIf => ?_, fun declares => ?_⟩
  · rw [follows.isOf] at states
    exact present ((firm.lasting needed).expression states) (whole.expression needed states)
  · rw [follows.isOf] at isIf
    exact present (fun part => firm.guarded.branch isIf "consequent" part (.inl rfl))
      (whole.consequent isIf)
  · rw [follows.isOf] at declares
    refine follows.has (fun entry stands relates filled => ?_)
      (fun entry gone => absurd gone (there (fun list stood =>
        (firm.guarded.declarations declares list stood).1) entry)) (whole.declarations declares)
    rw [Bool.not_eq_true', Bool.eq_false_iff] at filled ⊢
    exact fun nothing => filled (empty declares entry stands relates nothing)

end Follows

/-! ### Places that look alike -/

/-- Related places show the same. -/
structure Alike {α β : Type} (outlook : Outlook α) (other : Outlook β) (related : α → β → Prop) :
    Prop extends outlook.toTerrain.Similar other.toTerrain related where
  null : ∀ {a b}, related a b → outlook.isNull a = other.isNull b
  empty : ∀ {a b}, related a b → outlook.isEmpty a = other.isEmpty b
  infinite : ∀ {a b}, related a b → outlook.isInfinite a = other.isInfinite b

namespace Alike

variable {α β : Type} {outlook : Outlook α} {other : Outlook β} {related : α → β → Prop}
  (alike : outlook.Alike other related)

include alike

theorem symm : other.Alike outlook (fun b a => related a b) :=
  ⟨alike.toSimilar.symm, fun relates => (alike.null relates).symm,
    fun relates => (alike.empty relates).symm, fun relates => (alike.infinite relates).symm⟩

variable {a : α} {b : β} (relates : related a b) (type : NodeType)

include relates

/-- Places that look alike are stable together. -/
theorem stable {strict : Prop} (stable : outlook.Stable type strict a) :
    other.Stable type strict b := by
  have follows {a : α} {b : β} (relates : related a b) :
      Follows outlook other type related (fun _ => False) a b :=
    follows_of_similar alike.toSimilar relates
  have resembles {a : α} {b : β} (relates : related a b) : Resembles outlook other type a b :=
    resembles_of_same (follows relates).isOf (alike.null relates).symm (alike.text relates).symm
      (alike.infinite relates).symm
  constructor
  · exact (follows relates).firm (fun inner => (follows inner).standsIn (resembles inner) resembles)
      (fun entry => .inl (alike.toSimilar.inner_of relates entry)) stable.firm
  · exact (follows relates).whole False.elim (fun _ inner _ => (alike.null inner).trans)
      (fun _ _ _ _ _ inner => (alike.empty inner).trans) stable.firm stable.whole

theorem everywhere_stable {strict : Prop}
    (stable : outlook.Everywhere (outlook.Stable type strict) a) :
    other.Everywhere (other.Stable type strict) b :=
  alike.toSimilar.everywhere relates (fun inner => alike.stable inner type) stable

end Alike

end Outlook

/-! ### Documents, stores and trees -/

namespace Document

def isNull : Document → Bool
  | null => true
  | _ => false

def outlook : Outlook Document where
  toTerrain := terrain
  isNull := isNull
  isEmpty
    | array [] => true
    | _ => false
  isInfinite
    | number numeral => !numeral.toDouble.isFinite
    | _ => false

end Document

def Value.isInfinite : Value → Bool
  | number double => !double.isFinite
  | _ => false

def Store.outlook (store : Store) : Outlook Value where
  toTerrain := store.terrain
  isNull := Value.isNull
  isEmpty value := (store.items? value).any List.isEmpty
  isInfinite := Value.isInfinite

namespace Tree

def isEmpty : Tree → Bool
  | array _ [] => true
  | _ => false

def outlook : Outlook Tree where
  inner? := inner?
  text? := text?
  isNull := isNull
  isEmpty := isEmpty
  isInfinite tree := tree.value.isInfinite

theorem type?_outlook (tree : Tree) : outlook.type? tree = tree.type? := by
  show ((tree.inner? (.key "type")).bind text?).bind _ = (tree.member "type").text?.bind _
  rw [member]
  cases tree.inner? (.key "type") <;> rfl

theorem isOf_outlook (type : NodeType) (tree : Tree) : outlook.isOf type tree = tree.isOf type := by
  rw [Terrain.isOf, type?_outlook, isOf]

theorem at?_outlook (tree : Tree) (path : List SlotName) :
    outlook.at? tree path = tree.at? path := by
  induction path generalizing tree with
  | nil => rfl
  | cons name rest ih =>
    show (tree.inner? name).bind _ = (tree.inner? name).bind _
    exact congrArg _ (funext ih)

theorem everywhere_object {property : Tree → Prop} {id : CompositeId}
    {members : List (String × Tree)} (distinct : (members.map Prod.fst).Nodup)
    (here : property (.object id members))
    (inner : ∀ member ∈ members, outlook.Everywhere property member.2) :
    outlook.Everywhere property (.object id members) := by
  refine .mk here fun name next entry => ?_
  cases name with
  | index position => cases entry
  | key key => exact inner _ ((Entries.mem_iff_lookup distinct).mpr entry)

end Tree

namespace Store

theorem at?_outlook (store : Store) (value : Value) (path : List SlotName) :
    store.outlook.at? value path = store.part? value path := by
  induction path generalizing value with
  | nil => rfl
  | cons name rest ih =>
    show (store.inner? value name).bind _ = (store.inner? value name).bind _
    exact congrArg _ (funext ih)

theorem Holds.shows {store : Store} {document : Document} (holds : store.Holds document value) :
    document.isNull = value.isNull ∧ Document.outlook.isInfinite document = value.isInfinite := by
  cases holds with
  | array present | object present =>
    obtain ⟨id, rfl⟩ := exists_id_of_contents? present
    exact ⟨rfl, rfl⟩
  | _ => exact ⟨rfl, rfl⟩

/-- A value shows what the document shows that it stands for. -/
theorem alike_holds (store : Store) : Document.outlook.Alike store.outlook store.Holds where
  toSimilar := store.similar_holds
  null holds := holds.shows.1
  empty {document value} holds := by
    show _ = (store.items? value).any List.isEmpty
    cases holds with
    | @array items values _ present length =>
      rw [items?, present]
      cases items <;> cases values <;> first | rfl | cases length
    | object present =>
      rw [items?, present]
      rfl
    | _ => rfl
  infinite holds := holds.shows.2

/-- The tree of a value in which nothing is shared shows what the value shows. -/
theorem alike_tree (store : Store) : store.outlook.Alike Tree.outlook
    (fun value tree => store.Unshared value ∧ tree = store.tree value) where
  text {value tree} := by
    rintro ⟨_, rfl⟩
    exact (store.text?_tree value).symm
  inner {value tree} := by
    rintro ⟨unshared, rfl⟩ name
    show Option.Rel _ (store.inner? value name) ((store.tree value).inner? name)
    rw [inner?_tree unshared]
    cases entry : store.inner? value name with
    | none => exact .none
    | some part =>
      exact .some ⟨Unshared.part unshared ((part?_cons entry []).trans rfl), rfl⟩
  null {value tree} := by
    rintro ⟨_, rfl⟩
    exact (store.isNull_tree value).symm
  empty {value tree} := by
    rintro ⟨unshared, rfl⟩
    show (store.items? value).any List.isEmpty = (store.tree value).isEmpty
    cases present : store.contents? value with
    | none =>
      rw [tree_of_none present, items?, present]
      rfl
    | some contents =>
      obtain ⟨id, rfl⟩ := exists_id_of_contents? present
      rw [tree_of_some unshared present, items?, present]
      cases contents with
      | object members => rfl
      | array items => cases items <;> rfl
  infinite {value tree} := by
    rintro ⟨_, rfl⟩
    show _ = (store.tree value).value.isInfinite
    rw [value_tree]
    rfl

end Store

/-! ### Filled stores -/

namespace Store.Filled

variable {before after : Store} (filled : before.Filled after) (whole : before.Whole value)
  {strict : Prop}

include filled whole

omit filled in
theorem whole_inner {part : Value} (entry : before.inner? value name = some part) :
    before.Whole part :=
  whole.part ((part?_cons entry []).trans rfl)

theorem isOf_outlook (own : NodeType) :
    after.outlook.isOf own value = before.outlook.isOf own value := by
  rw [Terrain.isOf, Terrain.isOf]
  exact congrArg (Option.any _) (filled.type?_terrain (known_of_whole whole))

theorem isEmpty : after.outlook.isEmpty value = before.outlook.isEmpty value := by
  show (after.items? value).any List.isEmpty = (before.items? value).any List.isEmpty
  cases present : before.contents? value with
  | none =>
    cases value with
    | composite id => exact absurd present (whole [] id rfl)
    | _ => rfl
  | some contents =>
    cases contents with
    | array items => rw [items?, items?, present, filled.array value items present]
    | object members =>
      obtain ⟨more, _, presentMore, _⟩ := filled.object value members present
      rw [items?, items?, present, presentMore]

theorem resembles : Outlook.Resembles before.outlook after.outlook type value value :=
  Outlook.resembles_of_same (filled.isOf_outlook whole) rfl rfl rfl

theorem follows : Outlook.Follows before.outlook after.outlook type
    (fun was part => was = part ∧ before.Whole was) (fun _ => False) value value where
  isOf := filled.isOf_outlook whole
  kept entry := .inr ⟨_, filled.inner?_of_before entry, rfl, whole_inner whole entry⟩
  gone := False.elim
  items {position item} element := by
    rcases filled.inner?_of_after (known_of_whole whole) element with
      stood | ⟨_, _, _, _, different, _⟩
    · exact ⟨position, item, stood, rfl, whole_inner whole stood⟩
    · cases different

/-- Filling in defaults leaves a stable place stable. -/
theorem stable (stable : before.outlook.Stable type strict value) :
    after.outlook.Stable type strict value := by
  constructor
  · refine (filled.follows whole).firm ?_ (fun {key part} entry => ?_) stable.firm
    · rintro was _ ⟨rfl, inner⟩
      refine (filled.follows inner).standsIn (filled.resembles inner) ?_
      rintro part _ ⟨rfl, further⟩
      exact filled.resembles further
    · rcases filled.inner?_of_after (known_of_whole whole) entry with
        old | ⟨_, absent, _, _, same, _, null, _⟩
      · exact .inl ⟨part, old, rfl, whole_inner whole old⟩
      · cases same
        refine .inr ⟨stable.whole, absent, fun second => ?_⟩
        rw [null second]
        exact ⟨rfl, rfl⟩
  · refine (filled.follows whole).whole False.elim ?_ ?_ stable.firm stable.whole
    · rintro _ was _ _ ⟨rfl, _⟩ _ nothing
      exact nothing
    · rintro _ list _ _ _ ⟨rfl, known⟩ nothing
      exact (filled.isEmpty known).symm.trans nothing

end Store.Filled

/-! ### Reading a value back -/

namespace Store

variable {store : Store} {depth : Nat} (within : store.Within value depth)

include within

/-- What is read back as null is null, or a number that has no text of its own. -/
theorem isNull_documentTo (whole : store.Whole value)
    (null : (store.documentTo depth value).isNull = true) :
    value.isNull = true ∨ value.isInfinite = true := by
  cases value with
  | null => exact .inl rfl
  | number number =>
    rw [documentTo, Document.ofDouble] at null
    split at null
    · cases null
    · split at null
      · cases null
      · rename_i infinite
        exact .inr (by rw [Value.isInfinite, Bool.eq_false_iff.mpr infinite, Bool.not_false])
  | composite id =>
    obtain ⟨contents, present⟩ := Option.ne_none_iff_exists'.mp (whole [] id rfl)
    obtain ⟨_, _, written⟩ := within.documentTo present
    rw [written] at null
    cases contents <;> cases null
  | _ =>
    rw [documentTo] at null
    cases null

theorem isEmpty_documentTo
    (empty : Document.outlook.isEmpty (store.documentTo depth value) = true) :
    store.outlook.isEmpty value = true := by
  cases value with
  | number number =>
    rw [documentTo, Document.ofDouble] at empty
    split at empty
    · cases empty
    · split at empty <;> cases empty
  | composite id =>
    cases present : store.contents? (.composite id) with
    | none =>
      have missing : store.composites[id]? = none := present
      cases depth <;> simp [documentTo, missing, Document.outlook] at empty
    | some contents =>
      obtain ⟨_, _, written⟩ := within.documentTo present
      rw [written] at empty
      cases contents with
      | object members => cases empty
      | array items =>
        cases items with
        | cons item rest => cases empty
        | nil =>
          show (store.items? (.composite id)).any List.isEmpty = true
          rw [items?, present]
          rfl
  | _ =>
    rw [documentTo] at empty
    cases empty

/-- A stable value is read back as a document that is whole. -/
theorem whole_documentTo {strict : Prop} (whole : store.Whole value)
    (stable : store.outlook.Stable type strict value) :
    Document.outlook.Whole strict (store.documentTo depth value) := by
  have similar := store.similar_documentTo.symm
  refine (Outlook.follows_of_similar similar ⟨depth, within, rfl⟩).whole False.elim ?_ ?_ stable.firm
    stable.whole
  · rintro key part _ entry ⟨deep, inner, rfl⟩ solid null
    refine (isNull_documentTo inner (whole.part ((part?_cons entry []).trans rfl)) null).resolve_right
      fun infinite => ?_
    rw [Outlook.isFleeting, show store.outlook.isInfinite part = true from infinite,
      Bool.or_true] at solid
    cases solid
  · rintro _ list _ _ _ ⟨deep, inner, rfl⟩ empty
    exact isEmpty_documentTo inner empty

end Store

end CodeTree
